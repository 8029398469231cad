import Jojobot.Library.Bytes
import Jojobot.Library.Runs
import Jojobot.Memory.Testimony

namespace TextEdit
open Library Memory

-- Which text of a claim an edit changes.
inductive TextField where
  | content | details
deriving DecidableEq, Repr

def TextField.asStr : TextField → Text
  | .content => "content".toList
  | .details => "details".toList

structure Edit where
  field : TextField
  find : Text
  replace : Text
deriving DecidableEq, Repr

-- What an applied edit changed, in bytes; the place is in the text after it.
structure Edited where
  field : TextField
  bytesBefore : Nat
  bytesAfter : Nat
  start : Nat
  stop : Nat
  removed : Text
  inserted : Text
deriving DecidableEq, Repr

-- `TextEditMatches` of the source is `found`.
inductive Refused where
  | invalidFact (words : Text)
  | found (address field : Text) (found : Nat)
  | unknownFact (attempted : Text)
  | staleRevision (address : Text) (expected current : Nat)
deriving DecidableEq, Repr

def emptyFind : Text :=
  "\x60find\x60 is empty, and an empty string names no place in the text: send the words to find".toList

-- Every character the words start at, in bytes.
def starts (find : Text) : Text → List Nat
  | [] => []
  | c::rest =>
    let later := (starts find rest).map (c.utf8Size+·)
    if find.isPrefixOf (c::rest) then 0::later else later

-- `none` is the slice off a boundary, which would stop the program.
def applyTextEdit (address current : Text) (edit : Edit) : Option (Except Refused (Text × Edited)) :=
  if edit.find = [] then some (.error (.invalidFact emptyFind))
  else
    match starts edit.find current with
    | [start] => do
      let stop := start+byteLength edit.find
      let before ← takeBytes current start
      let after ← dropBytes current stop
      let text := before++edit.replace++after
      some (.ok (text,⟨edit.field,byteLength current,byteLength text,start,start+byteLength edit.replace,edit.find,edit.replace⟩))
    | found => some (.error (.found address edit.field.asStr found.length))

-- A claim's words as one write of it left them, and the edit the write was, where it was one.
structure Version where
  content : Text
  details : Option Text
  edit : Option Edit

def Version.text (version : Version) : TextField → Text
  | .content => version.content
  | .details => version.details.getD []

structure TextRead where
  text : Text
  edited : Edited
  revision : Nat

def refusesAStaleRevision (address : Text) (expected : Option Nat) (current : Nat) : Option Refused :=
  (expected.filter (· ≠ current)).map fun expected => .staleRevision address expected current

def readTextEdit (address : Text) (chain : List Version) (edit : Edit) (expected : Option Nat) :
    Option (Except Refused TextRead) :=
  match chain.getLast? with
  | none => some (.error (.unknownFact address))
  | some newest =>
    match refusesAStaleRevision address expected chain.length with
    | some refused => some (.error refused)
    | none => (applyTextEdit address (newest.text edit.field) edit).map fun applied =>
        applied.map fun changed => ⟨changed.1,changed.2,chain.length⟩

-- The words a patch leaves.
def Version.patched (version : Version) (content details : Option Text) (edit : Option Edit) : Version where
  content := (content.map Testimony.normalizeContent).getD version.content
  details := if details.isSome then Testimony.normalizeDetails details else version.details
  edit := edit

-- A claim and the reads editors made of it, each in a call of its own.
structure Claim where
  chain : List Version
  reads : Nat → Option (Edit × TextRead)

inductive Act where
  | read (editor : Nat) (edit : Edit) (expected : Option Nat)
  | write (editor : Nat)
  | patch (content details : Option Text) (expected : Option Nat)

-- The check and the append are one transaction.
def appended (address : Text) (chain : List Version) (expected : Option Nat) (content details : Option Text)
    (edit : Option Edit) : Except Refused (List Version) :=
  match refusesAStaleRevision address expected chain.length,chain.getLast? with
  | some refused,_ => .error refused
  | none,none => .error (.unknownFact address)
  | none,some newest => .ok (chain++[newest.patched content details edit])

def kept (chain : List Version) (written : Except Refused (List Version)) : List Version :=
  match written with
  | .ok chain => chain
  | .error _ => chain

def step (address : Text) (claim : Claim) : Act → Claim
  | .read editor edit expected =>
    match readTextEdit address claim.chain edit expected with
    | some (.ok read) => {claim with reads := fun other => if other = editor then some (edit,read) else claim.reads other}
    | _ => claim
  | .write editor =>
    match claim.reads editor with
    | none => claim
    | some (edit,read) =>
      let content := if edit.field = .content then some read.text else none
      let details := if edit.field = .details then some read.text else none
      {claim with chain := kept claim.chain (appended address claim.chain (some read.revision) content details (some edit))}
  | .patch content details expected =>
    {claim with chain := kept claim.chain (appended address claim.chain expected content details none)}

section
variable {address current : Text} {edit : Edit}

theorem starts_mem {find : Text} (filled : find ≠ []) {current : Text} {start : Nat} :
    start ∈ starts find current ↔ ∃ before after, current = before++(find++after) ∧ byteLength before = start := by
  induction current generalizing start with
  | nil =>
    constructor
    · intro found
      cases found
    · intro found
      obtain ⟨before,after,parts,_⟩ := found
      exact absurd (List.append_eq_nil_iff.mp (List.append_eq_nil_iff.mp parts.symm).2).1 filled
  | cons c rest ih =>
    have later : start ∈ (starts find rest).map (c.utf8Size+·) ↔
        ∃ before after, c::rest = c::before++(find++after) ∧ byteLength (c::before) = start := by
      rw [List.mem_map]
      constructor
      · intro found
        obtain ⟨behind,mem,rfl⟩ := found
        obtain ⟨before,after,rfl,rfl⟩ := ih.mp mem
        exact ⟨before,after,rfl,rfl⟩
      · intro found
        obtain ⟨before,after,parts,rfl⟩ := found
        exact ⟨byteLength before,ih.mpr ⟨before,after,(List.cons.inj parts).2,rfl⟩,rfl⟩
    have split : (∃ before after, c::rest = before++(find++after) ∧ byteLength before = start) ↔
        (find.isPrefixOf (c::rest) = true ∧ start = 0) ∨ ∃ before after, c::rest = c::before++(find++after) ∧
          byteLength (c::before) = start := by
      constructor
      · intro found
        obtain ⟨before,after,parts,rfl⟩ := found
        cases before with
        | nil => exact Or.inl ⟨List.isPrefixOf_iff_prefix.mpr ⟨after,parts.symm⟩,rfl⟩
        | cons d before =>
          obtain ⟨rfl,_⟩ := List.cons.inj parts
          exact Or.inr ⟨before,after,parts,rfl⟩
      · intro found
        rcases found with ⟨first,rfl⟩ | ⟨before,after,parts,same⟩
        · obtain ⟨after,parts⟩ := List.isPrefixOf_iff_prefix.mp first
          exact ⟨[],after,parts.symm,rfl⟩
        · exact ⟨c::before,after,parts,same⟩
    rw [split,← later,starts]
    split
    · rename_i first
      rw [List.mem_cons]
      simp [first]
    · rename_i other
      simp [other]

theorem starts_ascend (find current : Text) : (starts find current).Pairwise (· < ·) := by
  induction current with
  | nil => exact .nil
  | cons c rest ih =>
    have later : ((starts find rest).map (c.utf8Size+·)).Pairwise (· < ·) := by
      rw [List.pairwise_map]
      exact ih.imp fun less => Nat.add_lt_add_left less _
    rw [starts]
    split
    · refine List.pairwise_cons.mpr ⟨?_,later⟩
      intro start found
      obtain ⟨behind,_,rfl⟩ := List.mem_map.mp found
      exact Nat.lt_of_lt_of_le c.utf8Size_pos (Nat.le_add_right _ _)
    · exact later

theorem same_start {before before' after after' : Text} (same : before++after = before'++after')
    (long : byteLength before = byteLength before') : before = before' := by
  have first := takeBytes_append before after
  rw [same,long,takeBytes_append] at first
  exact (Option.some.inj first).symm

-- One start is one place the words are at.
theorem starts_one {find : Text} (filled : find ≠ []) {current : Text} {start : Nat} :
    starts find current = [start] ↔ ∃ before after, current = before++(find++after) ∧ byteLength before = start ∧
      ∀ before' after', current = before'++(find++after') → before' = before := by
  constructor
  · intro one
    obtain ⟨before,after,parts,rfl⟩ := (starts_mem filled).mp (by rw [one]; exact List.mem_singleton_self start)
    refine ⟨before,after,parts,rfl,?_⟩
    intro before' after' parts'
    have mem := (starts_mem filled).mpr ⟨before',after',parts',rfl⟩
    rw [one,List.mem_singleton] at mem
    exact same_start (parts'.symm.trans parts) mem
  · intro found
    obtain ⟨before,after,parts,rfl,unique⟩ := found
    have mem := (starts_mem filled).mpr ⟨before,after,parts,rfl⟩
    have only : ∀ start ∈ starts find current, start = byteLength before := by
      intro start found
      obtain ⟨before',after',parts',rfl⟩ := (starts_mem filled).mp found
      rw [unique before' after' parts']
    have ascend := starts_ascend find current
    cases listed : starts find current with
    | nil =>
      rw [listed] at mem
      cases mem
    | cons first others =>
      rw [listed] at only ascend
      have same := only first List.mem_cons_self
      cases others with
      | nil => rw [same]
      | cons second others =>
        have less := (List.pairwise_cons.mp ascend).1 second List.mem_cons_self
        rw [same,only second (List.mem_cons_of_mem _ List.mem_cons_self)] at less
        exact absurd less (Nat.lt_irrefl _)

theorem applied_at (address : Text) {before after : Text} (filled : edit.find ≠ [])
    (one : starts edit.find (before++(edit.find++after)) = [byteLength before]) :
    applyTextEdit address (before++(edit.find++after)) edit = some (.ok (before++edit.replace++after,
      ⟨edit.field,byteLength (before++(edit.find++after)),byteLength (before++edit.replace++after),byteLength before,
        byteLength before+byteLength edit.replace,edit.find,edit.replace⟩)) := by
  have behind : dropBytes (before++(edit.find++after)) (byteLength before+byteLength edit.find) = some after := by
    rw [← List.append_assoc,← byteLength_append]
    exact dropBytes_append _ _
  rw [applyTextEdit,if_neg filled,one]
  simp only [bind,takeBytes_append,behind,Option.bind_some]

-- An edit lands where its words are at one place and no other, and nothing around it moves; the
-- text is never cut inside a character.
theorem an_edit_takes_the_one_place (address current : Text) (edit : Edit) :
    (∃ done, applyTextEdit address current edit = some done) ∧ ∀ text edited,
      applyTextEdit address current edit = some (.ok (text,edited)) ↔ edit.find ≠ [] ∧ ∃ before after,
        current = before++(edit.find++after) ∧ (∀ before' after', current = before'++(edit.find++after') → before' = before) ∧
        text = before++edit.replace++after ∧ edited = ⟨edit.field,byteLength current,byteLength text,byteLength before,
          byteLength before+byteLength edit.replace,edit.find,edit.replace⟩ := by
  by_cases filled : edit.find = []
  · have refused : applyTextEdit address current edit = some (.error (.invalidFact emptyFind)) := by rw [applyTextEdit,if_pos filled]
    refine ⟨⟨_,refused⟩,fun text edited => ⟨?_,fun found => absurd filled found.1⟩⟩
    intro done
    rw [refused] at done
    cases done
  · by_cases one : ∃ start, starts edit.find current = [start]
    · obtain ⟨start,one⟩ := one
      obtain ⟨before,after,rfl,rfl,unique⟩ := (starts_one filled).mp one
      have done := applied_at address filled one
      refine ⟨⟨_,done⟩,fun text edited => ⟨?_,?_⟩⟩
      · intro same
        rw [done] at same
        cases same
        exact ⟨filled,before,after,rfl,unique,rfl,rfl⟩
      · intro found
        obtain ⟨_,before',after',parts,_,rfl,rfl⟩ := found
        have same := unique before' after' parts
        subst same
        have behind := List.append_cancel_left (List.append_cancel_left parts)
        subst behind
        exact done
    · have refused : applyTextEdit address current edit =
          some (.error (.found address edit.field.asStr (starts edit.find current).length)) := by
        rw [applyTextEdit,if_neg filled]
        split
        · rename_i start same
          exact absurd ⟨start,same⟩ one
        · rfl
      refine ⟨⟨_,refused⟩,fun text edited => ⟨?_,?_⟩⟩
      · intro done
        rw [refused] at done
        cases done
      · intro found
        obtain ⟨_,before,after,parts,unique,_⟩ := found
        exact absurd ⟨_,(starts_one filled).mpr ⟨before,after,parts,rfl,unique⟩⟩ one

-- What a read holds until it is written: it was made of a version the claim still has.
def ReadOf (address : Text) (chain : List Version) (edit : Edit) (read : TextRead) : Prop :=
  ∃ earlier version later, chain = earlier++version::later ∧ read.revision = earlier.length+1 ∧
    applyTextEdit address (version.text edit.field) edit = some (.ok (read.text,read.edited))

-- A version an editor wrote is the one right before it with the one place changed.
def FromTheOneBefore (address : Text) (chain : List Version) : Prop :=
  ∀ earlier version written later, chain = earlier++version::written::later → ∀ edit, written.edit = some edit →
    ∃ text edited, applyTextEdit address (version.text edit.field) edit = some (.ok (text,edited)) ∧
      written = version.patched (if edit.field = .content then some text else none)
        (if edit.field = .details then some text else none) (some edit)

def stepping (address : Text) (before : Claim) (act : Act) (after : Claim) : Prop := step address before act = after

structure Sound (address : Text) (claim : Claim) : Prop where
  reads : ∀ editor edit read, claim.reads editor = some (edit,read) → ReadOf address claim.chain edit read
  chain : FromTheOneBefore address claim.chain

theorem ReadOf.grown {chain : List Version} {read : TextRead} (made : ReadOf address chain edit read) (more : List Version) :
    ReadOf address (chain++more) edit read := by
  obtain ⟨earlier,version,later,rfl,revision,applied⟩ := made
  exact ⟨earlier,version,later++more,by simp,revision,applied⟩

theorem not_stale {expected : Option Nat} {current : Nat} (fresh : refusesAStaleRevision address expected current = none) :
    ∀ revision, expected = some revision → revision = current := by
  intro revision same
  subst same
  by_contra other
  simp [refusesAStaleRevision,other] at fresh

theorem read_of {chain : List Version} {expected : Option Nat} {read : TextRead}
    (done : readTextEdit address chain edit expected = some (.ok read)) : ReadOf address chain edit read := by
  unfold readTextEdit at done
  split at done
  · cases done
  · rename_i newest last
    split at done
    · cases done
    · obtain ⟨applied,is,same⟩ := Option.map_eq_some_iff.mp done
      cases applied with
      | error refused => cases same
      | ok changed =>
        cases same
        obtain ⟨earlier,rfl⟩ := List.getLast?_eq_some_iff.mp last
        exact ⟨earlier,newest,[],rfl,by simp,is⟩

-- What an append can do: nothing, or one version behind the newest of a claim that has not moved.
theorem kept_cases (address : Text) (chain : List Version) (expected : Option Nat) (content details : Option Text) (edit : Option Edit) :
    kept chain (appended address chain expected content details edit) = chain ∨
      ∃ earlier newest, chain = earlier++[newest] ∧ (∀ revision, expected = some revision → revision = chain.length) ∧
        kept chain (appended address chain expected content details edit) = chain++[newest.patched content details edit] := by
  unfold appended
  split
  · exact Or.inl rfl
  · exact Or.inl rfl
  · rename_i newest fresh last
    obtain ⟨earlier,rfl⟩ := List.getLast?_eq_some_iff.mp last
    exact Or.inr ⟨earlier,newest,rfl,not_stale fresh,rfl⟩

theorem FromTheOneBefore.appended {earlier : List Version} {newest new : Version} (sound : FromTheOneBefore address (earlier++[newest]))
    (made : ∀ edit, new.edit = some edit → ∃ text edited,
      applyTextEdit address (newest.text edit.field) edit = some (.ok (text,edited)) ∧
      new = newest.patched (if edit.field = .content then some text else none) (if edit.field = .details then some text else none) (some edit)) :
    FromTheOneBefore address (earlier++[newest]++[new]) := by
  intro front version written later parts edit' is
  rcases List.eq_nil_or_concat later with rfl | ⟨later,last,rfl⟩
  · have shape : earlier++[newest]++[new] = front++[version]++[written] := by simpa using parts
    obtain ⟨inside,same⟩ := List.append_inj' shape rfl
    obtain ⟨_,same'⟩ := List.append_inj' inside rfl
    cases same
    cases same'
    exact made edit' is
  · have shape : earlier++[newest]++[new] = front++version::written::later++[last] := by simpa using parts
    obtain ⟨inside,_⟩ := List.append_inj' shape rfl
    exact sound front version written later inside edit' is

theorem step_sound {before after : Claim} {act : Act} (sound : Sound address before) (stepped : stepping address before act after) :
    Sound address after := by
  cases stepped
  cases act with
  | read editor edit expected =>
    unfold step
    dsimp only
    split
    · rename_i read done
      refine ⟨?_,sound.chain⟩
      intro other edit' read' found
      dsimp only at found
      split at found
      · cases found
        exact read_of done
      · exact sound.reads other edit' read' found
    · exact sound
  | write editor =>
    unfold step
    dsimp only
    split
    · exact sound
    · rename_i edit read found
      have made := sound.reads editor edit read found
      rcases kept_cases address before.chain (some read.revision) (if edit.field = .content then some read.text else none)
        (if edit.field = .details then some read.text else none) (some edit) with same | ⟨earlier,newest,shape,fresh,same⟩
      · rw [same]
        exact sound
      · rw [same]
        refine ⟨fun other edit' read' found => (sound.reads other edit' read' found).grown _,?_⟩
        have chain := sound.chain
        obtain ⟨front,version,later,parts,revision,applied⟩ := made
        have current := fresh read.revision rfl
        -- The revision it read is the claim's own, so the version it read is the newest.
        have last : later = [] := by
          rw [revision,parts,List.length_append,List.length_cons] at current
          exact List.length_eq_zero_iff.mp (by omega)
        subst last
        rw [shape] at parts chain ⊢
        obtain ⟨_,newest'⟩ := List.append_inj' parts rfl
        cases newest'
        refine chain.appended ?_
        intro edit' is
        cases is
        exact ⟨read.text,read.edited,applied,rfl⟩
  | patch content details expected =>
    unfold step
    dsimp only
    rcases kept_cases address before.chain expected content details none with same | ⟨earlier,newest,shape,_,same⟩
    · rw [same]
      exact sound
    · rw [same]
      refine ⟨fun other edit' read' found => (sound.reads other edit' read' found).grown _,?_⟩
      have chain := sound.chain
      rw [shape] at chain ⊢
      refine chain.appended ?_
      intro edit' is
      cases is

-- Whatever editors and other writers do between one's read and one's write, an edit that lands
-- landed on the version it read: no write that came between is lost.
theorem no_write_is_lost {first : Version} {taken : List (Claim × Act)} {now : Claim}
    (run : Run (stepping address) ⟨[first],fun _ => none⟩ taken now) : FromTheOneBefore address now.chain := by
  have start : Sound address ⟨[first],fun _ => none⟩ := by
    refine ⟨fun editor edit read found => (by cases found),?_⟩
    intro earlier version written later parts
    have long := congrArg List.length parts
    simp at long
    omega
  exact ((run.keeps start fun sound stepped => step_sound sound stepped).1).chain

end

def fish : Claim := ⟨[⟨"a fish".toList,none,none⟩],fun _ => none⟩
def red : Edit := ⟨.content,"a".toList,"one".toList⟩
def blue : Edit := ⟨.content,"fish".toList,"cat".toList⟩

theorem the_second_of_two_reads_is_refused :
    FromTheOneBefore [] (step [] (step [] (step [] (step [] fish (.read 0 red none)) (.read 1 blue none)) (.write 0)) (.write 1)).chain ∧
      (step [] (step [] (step [] (step [] fish (.read 0 red none)) (.read 1 blue none)) (.write 0)) (.write 1)).chain.map Version.content =
        ["a fish".toList,"one fish".toList] :=
  ⟨no_write_is_lost (.step (.step (.step (.step .start rfl) rfl) rfl) rfl),by decide⟩

end TextEdit
