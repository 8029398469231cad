import Jojobot.Library.Runs
import Jojobot.Memory.Numbered.Guard

namespace Numbering
open Library Std Memory

-- What writes on a collection, as each write path describes itself: fields set on
-- things left where they are, a subtree moved under another parent, a merge with the
-- things below the folded one, and a retraction with what it leaves the member.
inductive Write where
  | held (holds : List (EntityId × Fields)) (blank : List (EntityId × List Text))
  | moved (under : EntityId) (subtree : List (EntityId × Fields))
  | merged (folded survivor : EntityId) (fields : Fields) (below : List (EntityId × Fields))
  | retracted (handle : EntityId) (left : Option Text)

def Write.change : Write → Change
  | .held holds blank => { Change.none with holds,blank }
  | .moved _ subtree => { Change.none with moved := subtree }
  | .merged folded survivor fields below => ⟨[(survivor,fields)],[folded],below,[]⟩
  | .retracted .. => .none

-- The collections at or above the new parent are the ones a moved thing joins.
def Numbered.chains (scope : Numbered) (under : EntityId) : Bool := under = scope.collection || scope.isMember under

def Write.joins (scope : Numbered) : Write → Bool
  | .moved under _ => scope.chains under
  | .merged _ survivor _ _ => scope.chains survivor
  | _ => false

def Numbered.editsOf (scope : Numbered) (write : Write) : List Edit := scope.editsFor write.change (write.joins scope)

-- A merged-away thing's numbers are served by its survivor.
def Numbered.serve (scope : Numbered) (survivor : EntityId) (numbers : Finset Nat) : Numbered :=
  { scope with members := scope.members.map fun member =>
    if member.handle = survivor then { member with retired := member.retired ∪ numbers } else member }

def Numbered.retiredAt (scope : Numbered) (handle : EntityId) : Finset Nat :=
  ((scope.memberAt handle).map (·.retired)).getD ∅

def Write.serve (write : Write) (before now : Numbered) : Numbered :=
  match write with
  | .merged folded survivor _ _ => now.serve survivor (before.retiredAt folded)
  | _ => now

def Member.takeBack (left : Option Text) (member : Member) : Member :=
  { member with value := left,retired := member.retired ∪ member.number.toFinset }

def Numbered.takeBack (before : Numbered) (handle : EntityId) (left : Option Text) : Numbered :=
  { before with members := before.members.map fun member =>
    if member.handle = handle then member.takeBack left else member }

def Numbered.changed (before : Numbered) (write : Write) : Numbered :=
  if write.change.moved.any (·.1 = before.collection) then before
  else write.serve before (before.edited (before.editsOf write))

def Numbered.after (before : Numbered) : Write → Numbered
  | .retracted handle left => before.takeBack handle left
  | write => before.changed write

def LetThrough (before : Numbered) (write : Write) : Prop := before.refuses write.change (write.joins before) = none

-- A merge folds a thing into another, and moves what is below the folded one, which
-- the survivor is not.
def Write.Apart : Write → Prop
  | .merged folded survivor _ below => folded ≠ survivor ∧ folded ∉ below.map (·.1) ∧ survivor ∉ below.map (·.1)
  | _ => True

-- A change the guard lets through, or a retraction, which leaves the member no other
-- number.
def Allowed (before : Numbered) : Write → Prop
  | .retracted handle left => ∃ member ∈ before.members, member.handle = handle ∧
      ∃ n, member.number = some n ∧ ∀ m, left.bind wholeNumber = some m → m = n
  | write => write.Apart ∧ LetThrough before write

-- A collection with every number a member has held, and every one taken back.
structure Ledger where
  numbering : Numbered
  held : Finset Nat
  takenBack : Finset Nat

def Ledger.opened (start : Numbered) : Ledger := ⟨start,start.held.toFinset,start.retiredAll⟩

def Ledger.after (before : Ledger) (write : Write) : Ledger :=
  let now := before.numbering.after write
  ⟨now,before.held ∪ now.held.toFinset,before.takenBack ∪ now.retiredAll⟩

def Step (before : Ledger) (write : Write) (after : Ledger) : Prop :=
  Allowed before.numbering write ∧ after = before.after write

-- A collection as it is founded: its members, each a thing below it, fit, and no
-- number of it has been taken back.
structure Founded (start : Numbered) : Prop where
  once : Once start.members
  root : start.isMember start.collection = false
  fit : (Founding.mk none (some start)).refuses = none
  fresh : start.retiredAll = ∅

structure NeverReused (ledger : Ledger) : Prop where
  apart : ∀ a ∈ ledger.numbering.members, ∀ b ∈ ledger.numbering.members, ∀ n,
    a.number = some n → b.number = some n → a = b
  lasting : ∀ n ∈ ledger.held, n ∈ ledger.numbering.held ∨ n ∈ ledger.numbering.retiredAll
  next : ∀ n ∈ ledger.held, n < ledger.numbering.next

def GivesNoneBack (before : Ledger) (write : Write) : Prop :=
  ∀ member ∈ (before.numbering.after write).members, ∀ n ∈ before.takenBack, member.number = some n →
    ∃ had ∈ before.numbering.members, had.handle = member.handle ∧ had.number = some n

-- No thing that carries a taken-back number is merged into the collection itself
-- with members below it to move.
def Serves (before : Numbered) : Write → Prop
  | .merged folded survivor _ below => survivor = before.collection →
      (∃ moved ∈ below, before.isMember moved.1 = true) → before.retiredAt folded = ∅
  | _ => True

-- A number a member holds, or one taken back from it.
def Member.claims (member : Member) (n : Nat) : Prop := member.number = some n ∨ n ∈ member.retired

def Own (members : List Member) : Prop := ∀ a ∈ members, ∀ b ∈ members, ∀ n, a.claims n → b.claims n → a = b

-- What every allowed write keeps: a number held or taken back is one member's, and
-- was held by a member.
structure Kept (ledger : Ledger) : Prop where
  once : Once ledger.numbering.members
  root : ledger.numbering.isMember ledger.numbering.collection = false
  own : Own ledger.numbering.members
  holding : ∀ n ∈ ledger.numbering.held, n ∈ ledger.held
  retired : ∀ n ∈ ledger.numbering.retiredAll, n ∈ ledger.takenBack
  issued : ∀ n ∈ ledger.takenBack, n ∈ ledger.held
  lasting : ∀ n ∈ ledger.held, n ∈ ledger.numbering.held ∨ n ∈ ledger.takenBack

def Remembers (ledger : Ledger) : Prop := ∀ n ∈ ledger.takenBack, n ∈ ledger.numbering.retiredAll

variable {start before now : Numbered} {ledger later : Ledger} {write : Write} {member : Member} {n : Nat}
  {handle : EntityId}

theorem neverReused_of (kept : Kept ledger) (remembers : Remembers ledger) : NeverReused ledger := by
  have lasting : ∀ n ∈ ledger.held, n ∈ ledger.numbering.held ∨ n ∈ ledger.numbering.retiredAll := by
    intro n held
    rcases kept.lasting n held with still | back
    · exact .inl still
    · exact .inr (remembers n back)
  refine ⟨?_,lasting,fun n held => lt_next (lasting n held)⟩
  intro a inA b inB n numberA numberB
  exact kept.own a inA b inB n (.inl numberA) (.inl numberB)

theorem unfit_none {new : Numbered} (fits : Founding.unfit new member = none) (number : member.number = some n) :
    ∀ other ∈ new.members, other.number = some n → other.handle = member.handle := by
  intro other there same
  cases held : member.value with
  | none => rw [Member.number,held] at number; cases number
  | some raw =>
    by_contra differs
    simp only [Founding.unfit,held,number] at fits
    simp at fits
    exact fits other there differs same

theorem founded_kept (founded : Founded start) : Kept (.opened start) := by
  have fits := founded.fit
  simp only [Founding.refuses,Option.bind_none,Option.none_or,Option.bind_some,Founding.broken,
    ite_eq_left_iff,reduceCtorEq,imp_false,not_not,List.filterMap_eq_nil_iff] at fits
  have none : ∀ a ∈ start.members, a.retired = ∅ := by
    intro a inside
    refine Finset.eq_empty_of_forall_notMem fun n retired => ?_
    have there := mem_retiredAll.mpr ⟨a,inside,retired⟩
    rw [founded.fresh] at there
    cases there
  refine ⟨founded.once,founded.root,?_,?_,fun _ retired => retired,?_,?_⟩
  · intro a inA b inB n claimsA claimsB
    simp only [Member.claims,none a inA,none b inB,Finset.notMem_empty,or_false] at claimsA claimsB
    exact founded.once.same inB inA (unfit_none (fits b inB) claimsB a inA claimsA)
  · intro n held
    exact List.mem_toFinset.mpr held
  · intro n back
    rw [Ledger.opened,founded.fresh] at back
    cases back
  · intro n held
    exact .inl (List.mem_toFinset.mp held)

-- What the edits of a change set and take out.
theorem sets_iff {change : Change} {joins : Bool} : handle ∈ (before.editsFor change joins).filterMap Edit.sets ↔
    (handle ∈ change.holds.map (·.1) ∧ before.isMember handle = true) ∨
      (joins = true ∧ handle ∈ change.moved.map (·.1)) := by
  have left : (change.leaves.filter before.isMember).filterMap (Edit.sets ∘ Edit.leave) = [] := by
    simp [Edit.sets]
  simp only [Numbered.editsFor,List.filterMap_append,List.filterMap_map,left,List.nil_append,List.mem_append,
    List.mem_filterMap,List.mem_filter,List.mem_map]
  refine or_congr ?_ ?_
  · constructor
    · intro found
      obtain ⟨held,⟨inside,present⟩,same⟩ := found
      cases Option.some.inj same
      exact ⟨⟨held,inside,rfl⟩,present⟩
    · intro found
      obtain ⟨⟨held,inside,rfl⟩,present⟩ := found
      exact ⟨held,⟨inside,present⟩,rfl⟩
  · constructor
    · intro found
      obtain ⟨edit,⟨held,inside,made⟩,same⟩ := found
      split at made
      · cases made
        cases Option.some.inj same
        exact ⟨‹_›,held,inside,rfl⟩
      · split at made
        · cases made
          cases same
        · cases made
    · intro found
      obtain ⟨joined,held,inside,rfl⟩ := found
      exact ⟨.set held.1 held.2[before.key]?,⟨held,inside,by simp [joined]⟩,rfl⟩

theorem leaves_iff {change : Change} {joins : Bool} : Edit.leave handle ∈ before.editsFor change joins ↔
    before.isMember handle = true ∧
      (handle ∈ change.leaves ∨ (joins = false ∧ handle ∈ change.moved.map (·.1))) := by
  simp only [Numbered.editsFor,List.mem_append,List.mem_map,List.mem_filter,List.mem_filterMap]
  constructor
  · intro found
    rcases found with (⟨gone,⟨inside,present⟩,same⟩ | ⟨held,_,made⟩) | ⟨held,inside,made⟩
    · cases same
      exact ⟨present,.inl inside⟩
    · cases made
    · split at made
      · cases made
      · rename_i apart
        split at made
        · cases made
          exact ⟨‹_›,.inr ⟨by simpa using apart,held,inside,rfl⟩⟩
        · cases made
  · intro found
    obtain ⟨present,gone | ⟨apart,held,inside,rfl⟩⟩ := found
    · exact .inl (.inl ⟨handle,⟨gone,present⟩,rfl⟩)
    · exact .inr ⟨held,inside,by simp [apart,present]⟩

variable {edits : List Edit}

theorem stems_retired (stems : Stems before.members edits member) (retired : n ∈ member.retired) :
    ∃ was ∈ before.members, was.handle = member.handle ∧ n ∈ was.retired := by
  rcases stems with ⟨inside,_⟩ | ⟨_,had⟩
  · exact ⟨member,inside,rfl,retired⟩
  · exact had n retired

-- Who claims a number that was taken back had claimed it before.
theorem edited_was (once : Once before.members) (passes : Passes before (before.edited edits) edits)
    (inside : member ∈ (before.edited edits).members) (back : n ∈ before.retiredAll) (claims : member.claims n) :
    ∃ was ∈ before.members, was.handle = member.handle ∧ was.claims n := by
  have stems := edited_stems once inside
  rcases claims with number | retired
  · rcases stems with ⟨there,_⟩ | ⟨sets,_⟩
    · exact ⟨member,there,rfl,.inl number⟩
    · obtain ⟨was,there,named,held⟩ := numberAt_inv (passes.fresh member inside sets n number back)
      exact ⟨was,there,named,.inl held⟩
  · obtain ⟨was,there,named,had⟩ := stems_retired stems retired
    exact ⟨was,there,named,.inr had⟩

theorem edited_own (once : Once before.members) (own : Own before.members)
    (passes : Passes before (before.edited edits) edits) : Own (before.edited edits).members := by
  have onceNow : Once (before.edited edits).members := once.edited edits
  intro a inA b inB n claimsA claimsB
  by_cases back : n ∈ before.retiredAll
  · obtain ⟨wasA,thereA,namedA,hadA⟩ := edited_was once passes inA back claimsA
    obtain ⟨wasB,thereB,namedB,hadB⟩ := edited_was once passes inB back claimsB
    cases own wasA thereA wasB thereB n hadA hadB
    exact onceNow.same inB inA (namedA.symm.trans namedB)
  · have holds : ∀ {c : Member}, c ∈ (before.edited edits).members → c.claims n → c.number = some n := by
      intro c inside claims
      rcases claims with number | retired
      · exact number
      · obtain ⟨was,there,_,had⟩ := stems_retired (edited_stems once inside) retired
        exact (back (mem_retiredAll.mpr ⟨was,there,had⟩)).elim
    have numberA := holds inA claimsA
    have numberB := holds inB claimsB
    rcases edited_stems once inA with ⟨wasA,_⟩ | ⟨setsA,_⟩
    · rcases edited_stems once inB with ⟨wasB,_⟩ | ⟨setsB,_⟩
      · exact own a wasA b wasB n claimsA claimsB
      · exact onceNow.same inB inA (passes.alone b inB setsB n numberB a inA numberA)
    · exact (onceNow.same inA inB (passes.alone a inA setsA n numberA b inB numberB)).symm

variable {survivor folded : EntityId} {numbers : Finset Nat}

theorem mem_serve (inside : member ∈ (now.serve survivor numbers).members) : ∃ from_now ∈ now.members,
    from_now.handle = member.handle ∧ from_now.value = member.value ∧
      ∀ n ∈ member.retired, n ∈ from_now.retired ∨ (member.handle = survivor ∧ n ∈ numbers) := by
  obtain ⟨held,there,rfl⟩ := List.mem_map.mp inside
  refine ⟨held,there,?_⟩
  split
  · rename_i named
    exact ⟨rfl,rfl,fun n retired => (Finset.mem_union.mp retired).imp_right fun served => ⟨named,served⟩⟩
  · exact ⟨rfl,rfl,fun n retired => .inl retired⟩

theorem serve_mem (inside : member ∈ now.members) : ∃ served ∈ (now.serve survivor numbers).members,
    served.handle = member.handle ∧ served.value = member.value ∧ member.retired ⊆ served.retired ∧
      (member.handle = survivor → numbers ⊆ served.retired) := by
  refine ⟨_,List.mem_map_of_mem inside,?_⟩
  split
  · exact ⟨rfl,rfl,Finset.subset_union_left,fun _ => Finset.subset_union_right⟩
  · rename_i other
    exact ⟨rfl,rfl,Finset.Subset.refl _,fun named => (other named).elim⟩

theorem serve_once (once : Once now.members) : Once (now.serve survivor numbers).members := by
  have handles : (now.serve survivor numbers).members.map (·.handle) = now.members.map (·.handle) := by
    rw [Numbered.serve,List.map_map]
    refine List.map_congr_left fun member _ => ?_
    simp only [Function.comp_apply]
    split <;> rfl
  rw [Once,handles]
  exact once

theorem mem_retiredAt (once : Once before.members) :
    n ∈ before.retiredAt handle ↔ ∃ member ∈ before.members, member.handle = handle ∧ n ∈ member.retired := by
  constructor
  · intro retired
    rw [Numbered.retiredAt] at retired
    cases found : before.memberAt handle with
    | none => rw [found] at retired; cases retired
    | some member =>
      have named := List.find?_some found
      simp only [decide_eq_true_eq] at named
      rw [found] at retired
      exact ⟨member,List.mem_of_find?_eq_some found,named,retired⟩
  · intro held
    obtain ⟨member,inside,rfl,retired⟩ := held
    rw [Numbered.retiredAt,memberAt_of once inside]
    exact retired

theorem number_of_value {a b : Member} (same : a.value = b.value) : a.number = b.number := by
  rw [Member.number,Member.number,same]

theorem serve_own (once : Once before.members) (own : Own before.members)
    (passes : Passes before (before.edited edits) edits)
    (gone : ∀ member ∈ (before.edited edits).members, member.handle ≠ folded) :
    Own ((before.edited edits).serve survivor (before.retiredAt folded)).members := by
  have onceNow : Once (before.edited edits).members := once.edited edits
  have ownNow := edited_own once own passes
  have source : ∀ {n : Nat} {c : Member}, c ∈ ((before.edited edits).serve survivor (before.retiredAt folded)).members →
      c.claims n → (∃ from_now ∈ (before.edited edits).members, from_now.handle = c.handle ∧ from_now.claims n) ∨
        (c.handle = survivor ∧ n ∈ before.retiredAt folded) := by
    intro n c inside claims
    obtain ⟨held,there,named,value,retired⟩ := mem_serve inside
    rcases claims with number | back
    · exact .inl ⟨held,there,named,.inl ((number_of_value value).trans number)⟩
    · rcases retired n back with had | served
      · exact .inl ⟨held,there,named,.inr had⟩
      · exact .inr served
  have nobody : ∀ {n : Nat} {c : Member}, c ∈ (before.edited edits).members → c.claims n →
      n ∉ before.retiredAt folded := by
    intro n c inside claims served
    obtain ⟨away,there,rfl,retired⟩ := (mem_retiredAt once).mp served
    obtain ⟨was,wasThere,named,had⟩ := edited_was once passes inside (mem_retiredAll.mpr ⟨away,there,retired⟩) claims
    cases own away there was wasThere n (.inr retired) had
    exact gone c inside named.symm
  intro a inA b inB n claimsA claimsB
  refine (serve_once onceNow).same inB inA ?_
  rcases source inA claimsA with ⟨heldA,thereA,namedA,hadA⟩ | ⟨named,served⟩
  · rcases source inB claimsB with ⟨heldB,thereB,namedB,hadB⟩ | ⟨_,served⟩
    · rw [← namedA,← namedB,ownNow heldA thereA heldB thereB n hadA hadB]
    · exact (nobody thereA hadA served).elim
  · rcases source inB claimsB with ⟨heldB,thereB,_,hadB⟩ | ⟨other,_⟩
    · exact (nobody thereB hadB served).elim
    · rw [named,other]

-- What a change the guard lets through leaves of a collection.
structure Guarded (before now : Numbered) : Prop where
  once : Once now.members
  root : now.isMember now.collection = false
  own : Own now.members
  still : ∀ n ∈ before.held, n ∈ now.held
  issued : ∀ n ∈ now.retiredAll, n ∈ before.retiredAll
  fresh : ∀ member ∈ now.members, ∀ n ∈ before.retiredAll, member.number = some n →
    ∃ had ∈ before.members, had.handle = member.handle ∧ had.number = some n

theorem Guarded.unchanged (once : Once before.members) (root : before.isMember before.collection = false)
    (own : Own before.members) : Guarded before before :=
  ⟨once,root,own,fun _ held => held,fun _ retired => retired,fun member inside _ _ number => ⟨member,inside,rfl,number⟩⟩

theorem edited_guarded {change : Change} {joins : Bool} (once : Once before.members)
    (root : before.isMember before.collection = false) (own : Own before.members)
    (outside : before.collection ∉ change.moved.map (·.1))
    (passes : Passes before (before.edited (before.editsFor change joins)) (before.editsFor change joins)) :
    Guarded before (before.edited (before.editsFor change joins)) := by
  refine ⟨once.edited _,?_,edited_own once own passes,?_,?_,?_⟩
  · rw [← Bool.not_eq_true,isMember_iff]
    intro found
    obtain ⟨member,inside,named⟩ := found
    rcases edited_stems once inside with ⟨there,_⟩ | ⟨sets,_⟩
    · rw [← Bool.not_eq_true,isMember_iff] at root
      exact root ⟨member,there,named⟩
    · rw [named] at sets
      rcases sets_iff.mp sets with ⟨_,present⟩ | ⟨_,moved⟩
      · cases (root.symm.trans present : false = true)
      · exact outside moved
  · intro n held
    obtain ⟨member,inside,number⟩ := mem_held.mp held
    exact mem_held.mpr (passes.still member inside n number)
  · intro n retired
    obtain ⟨member,inside,back⟩ := mem_retiredAll.mp retired
    obtain ⟨was,there,_,had⟩ := stems_retired (edited_stems once inside) back
    exact mem_retiredAll.mpr ⟨was,there,had⟩
  · intro member inside n back number
    rcases edited_stems once inside with ⟨there,_⟩ | ⟨sets,_⟩
    · exact ⟨member,there,rfl,number⟩
    · exact numberAt_inv (passes.fresh member inside sets n number back)

theorem Guarded.serve (once : Once before.members) (guarded : Guarded before now)
    (own : Own (now.serve survivor (before.retiredAt folded)).members) :
    Guarded before (now.serve survivor (before.retiredAt folded)) := by
  refine ⟨serve_once guarded.once,?_,own,?_,?_,?_⟩
  · have root := guarded.root
    rw [← Bool.not_eq_true,isMember_iff] at root ⊢
    intro found
    obtain ⟨member,inside,named⟩ := found
    obtain ⟨held,there,same,_⟩ := mem_serve inside
    exact root ⟨held,there,same.trans named⟩
  · intro n held
    obtain ⟨member,inside,number⟩ := mem_held.mp (guarded.still n held)
    obtain ⟨served,there,_,value,_⟩ := @serve_mem now member survivor (before.retiredAt folded) inside
    exact mem_held.mpr ⟨served,there,(number_of_value value).trans number⟩
  · intro n retired
    obtain ⟨member,inside,back⟩ := mem_retiredAll.mp retired
    obtain ⟨held,there,_,_,had⟩ := mem_serve inside
    rcases had n back with own | ⟨_,served⟩
    · exact guarded.issued n (mem_retiredAll.mpr ⟨held,there,own⟩)
    · obtain ⟨was,was_there,_,retired⟩ := (mem_retiredAt once).mp served
      exact mem_retiredAll.mpr ⟨was,was_there,retired⟩
  · intro member inside n back number
    obtain ⟨held,there,named,value,_⟩ := mem_serve inside
    obtain ⟨had,was,same,holds⟩ := guarded.fresh held there n back ((number_of_value value).trans number)
    exact ⟨had,was,same.trans named,holds⟩

theorem changed_unmoved (outside : before.collection ∉ write.change.moved.map (·.1)) :
    before.changed write = write.serve before (before.edited (before.editsOf write)) := by
  rw [Numbered.changed,if_neg]
  simpa using outside

theorem changed_moved (inside : before.collection ∈ write.change.moved.map (·.1)) : before.changed write = before := by
  rw [Numbered.changed,if_pos]
  simpa using inside

theorem letThrough_passes (once : Once before.members) (outside : before.collection ∉ write.change.moved.map (·.1))
    (lets : LetThrough before write) : Passes before (before.edited (before.editsOf write)) (before.editsOf write) := by
  refine passes_of once ?_
  rw [LetThrough,Numbered.refuses,if_neg] at lets
  · exact lets
  · simpa using outside

-- A merge leaves nothing under the folded handle.
theorem folded_gone {fields : Fields} {below : List (EntityId × Fields)} (once : Once before.members)
    (apart : (Write.merged folded survivor fields below).Apart) :
    ∀ member ∈ (before.edited (before.editsOf (.merged folded survivor fields below))).members,
      member.handle ≠ folded := by
  intro member inside named
  rcases edited_stems once inside with ⟨there,_,stays⟩ | ⟨sets,_⟩
  · have present : before.isMember folded = true := isMember_iff.mpr ⟨member,there,named⟩
    rw [named] at stays
    exact stays (leaves_iff.mpr ⟨present,.inl (List.mem_singleton_self _)⟩)
  · rw [named] at sets
    rcases sets_iff.mp sets with ⟨holds,_⟩ | ⟨_,moved⟩
    · exact apart.1 (List.mem_singleton.mp holds)
    · exact apart.2.1 moved

theorem changed_guarded (once : Once before.members) (root : before.isMember before.collection = false)
    (own : Own before.members) (apart : write.Apart) (lets : LetThrough before write) :
    Guarded before (before.changed write) := by
  by_cases outside : before.collection ∈ write.change.moved.map (·.1)
  · rw [changed_moved outside]
    exact .unchanged once root own
  · have passes := letThrough_passes once outside lets
    have guarded := edited_guarded once root own outside passes
    rw [changed_unmoved outside]
    cases write with
    | merged folded survivor fields below =>
      exact guarded.serve once (serve_own once own passes (folded_gone once apart))
    | _ => exact guarded

theorem Guarded.kept (kept : Kept ledger) (guarded : Guarded ledger.numbering (ledger.numbering.after write)) :
    Kept (ledger.after write) := by
  refine ⟨guarded.once,guarded.root,guarded.own,?_,?_,?_,?_⟩
  · intro n held
    exact Finset.mem_union_right _ (List.mem_toFinset.mpr held)
  · intro n retired
    exact Finset.mem_union_right _ retired
  · intro n back
    refine Finset.mem_union_left _ ?_
    rcases Finset.mem_union.mp back with before | now
    · exact kept.issued n before
    · exact kept.issued n (kept.retired n (guarded.issued n now))
  · intro n held
    rcases Finset.mem_union.mp held with before | now
    · rcases kept.lasting n before with still | back
      · exact .inl (guarded.still n still)
      · exact .inr (Finset.mem_union_left _ back)
    · exact .inl (List.mem_toFinset.mp now)

-- A retraction takes a member's number back, and leaves it no other.
variable {left : Option Text} {number : Nat}

theorem takeBack_number (takes : member.number = some number) (none : ∀ m, left.bind wholeNumber = some m → m = number)
    (holds : (member.takeBack left).number = some n) : member.number = some n := by
  rw [takes,none n holds]

theorem takeBack_retired (takes : member.number = some number) :
    n ∈ (member.takeBack left).retired ↔ n ∈ member.retired ∨ n = number := by
  simp [Member.takeBack,takes,or_comm]

theorem retracted_was (once : Once before.members) (inside : member ∈ before.members) (takes : member.number = some number)
    (none : ∀ m, left.bind wholeNumber = some m → m = number) {later : Member}
    (there : later ∈ (before.takeBack member.handle left).members) :
    ∃ was ∈ before.members, was.handle = later.handle ∧ (∀ n, later.number = some n → was.number = some n) ∧
      ∀ n ∈ later.retired, was.claims n := by
  obtain ⟨was,held,rfl⟩ := List.mem_map.mp there
  refine ⟨was,held,?_⟩
  split
  · rename_i same
    cases once.same inside held same
    refine ⟨rfl,fun n => takeBack_number takes none,?_⟩
    intro n retired
    rcases (takeBack_retired takes).mp retired with had | rfl
    · exact .inr had
    · exact .inl takes
  · exact ⟨rfl,fun n number => number,fun n retired => .inr retired⟩

theorem was_retracted (once : Once before.members) (inside : member ∈ before.members) (takes : member.number = some number)
    {was : Member} (held : was ∈ before.members) :
    ∃ later ∈ (before.takeBack member.handle left).members, later.handle = was.handle ∧
      was.retired ⊆ later.retired ∧ (later.value = was.value ∨ (was = member ∧ number ∈ later.retired)) := by
  refine ⟨_,List.mem_map_of_mem held,?_⟩
  split
  · rename_i same
    cases once.same inside held same
    exact ⟨rfl,Finset.subset_union_left,.inr ⟨rfl,(takeBack_retired takes).mpr (.inr rfl)⟩⟩
  · exact ⟨rfl,Finset.Subset.refl _,.inl rfl⟩

theorem takeBack_kept (kept : Kept ledger) (inside : member ∈ ledger.numbering.members)
    (takes : member.number = some number) (none : ∀ m, left.bind wholeNumber = some m → m = number) :
    Kept (ledger.after (.retracted member.handle left)) := by
  have was := @retracted_was ledger.numbering member left number kept.once inside takes none
  have number_held : number ∈ ledger.held := kept.holding number (mem_held.mpr ⟨member,inside,takes⟩)
  have handles : (ledger.numbering.takeBack member.handle left).members.map (·.handle) =
      ledger.numbering.members.map (·.handle) := by
    rw [Numbered.takeBack,List.map_map]
    refine List.map_congr_left fun member _ => ?_
    simp only [Function.comp_apply]
    split <;> rfl
  have once : Once (ledger.numbering.takeBack member.handle left).members := by
    rw [Once,handles]
    exact kept.once
  have claimed : ∀ {later : Member} {n : Nat}, later ∈ (ledger.numbering.takeBack member.handle left).members →
      later.claims n → ∃ had ∈ ledger.numbering.members, had.handle = later.handle ∧ had.claims n := by
    intro later n there claims
    obtain ⟨had,held,named,numbers,retired⟩ := was there
    rcases claims with holds | back
    · exact ⟨had,held,named,.inl (numbers n holds)⟩
    · exact ⟨had,held,named,retired n back⟩
  refine ⟨once,?_,?_,?_,?_,?_,?_⟩
  · have root := kept.root
    rw [← Bool.not_eq_true,isMember_iff] at root ⊢
    intro found
    obtain ⟨later,there,named⟩ := found
    obtain ⟨had,held,same,_⟩ := was there
    exact root ⟨had,held,same.trans named⟩
  · intro a inA b inB n claimsA claimsB
    obtain ⟨hadA,heldA,namedA,oldA⟩ := claimed inA claimsA
    obtain ⟨hadB,heldB,namedB,oldB⟩ := claimed inB claimsB
    cases kept.own hadA heldA hadB heldB n oldA oldB
    exact once.same inB inA (namedA.symm.trans namedB)
  · intro n held
    exact Finset.mem_union_right _ (List.mem_toFinset.mpr held)
  · intro n retired
    exact Finset.mem_union_right _ retired
  · intro n back
    refine Finset.mem_union_left _ ?_
    rcases Finset.mem_union.mp back with before | now
    · exact kept.issued n before
    · obtain ⟨later,there,retired⟩ := mem_retiredAll.mp now
      obtain ⟨had,held,_,holds | back⟩ := claimed there (.inr retired)
      · exact kept.holding n (mem_held.mpr ⟨had,held,holds⟩)
      · exact kept.issued n (kept.retired n (mem_retiredAll.mpr ⟨had,held,back⟩))
  · intro n held
    rcases Finset.mem_union.mp held with before | now
    · rcases kept.lasting n before with still | back
      · obtain ⟨holder,there,holds⟩ := mem_held.mp still
        obtain ⟨later,inLater,_,_,same | ⟨rfl,retired⟩⟩ :=
          @was_retracted ledger.numbering member left number kept.once inside takes holder there
        · exact .inl (mem_held.mpr ⟨later,inLater,(number_of_value same).trans holds⟩)
        · cases takes.symm.trans holds
          exact .inr (Finset.mem_union_right _ (mem_retiredAll.mpr ⟨later,inLater,retired⟩))
      · exact .inr (Finset.mem_union_left _ back)
    · exact .inl (List.mem_toFinset.mp now)

theorem step_kept (kept : Kept ledger) (step : Step ledger write later) : Kept later := by
  obtain ⟨allowed,rfl⟩ := step
  cases write with
  | retracted handle left =>
    obtain ⟨member,inside,rfl,number,takes,none⟩ := allowed
    exact takeBack_kept kept inside takes none
  | _ => exact Guarded.kept kept (changed_guarded kept.once kept.root kept.own allowed.1 allowed.2)

theorem keptBy_iff : keptBy before edits = true ↔
    ∃ handle ∈ edits.filterMap Edit.sets, before.isMember handle = true := by
  simp only [keptBy,List.any_eq_true,List.mem_filterMap,Option.any_eq_true]
  constructor
  · intro found
    obtain ⟨edit,inside,handle,sets,present⟩ := found
    exact ⟨handle,⟨edit,inside,sets⟩,present⟩
  · intro found
    obtain ⟨handle,⟨edit,inside,sets⟩,present⟩ := found
    exact ⟨edit,inside,handle,sets,present⟩

theorem serve_retired (retired : n ∈ now.retiredAll) : n ∈ (now.serve survivor numbers).retiredAll := by
  obtain ⟨member,inside,back⟩ := mem_retiredAll.mp retired
  obtain ⟨served,there,_,_,keeps,_⟩ := @serve_mem now member survivor numbers inside
  exact mem_retiredAll.mpr ⟨served,there,keeps back⟩

-- The numbers taken back from a member the edits take out are still served, or the
-- exemption of a merge stood for a member that was only moved.
theorem edited_retired {change : Change} {joins : Bool}
    (passes : Passes before (before.edited (before.editsFor change joins)) (before.editsFor change joins))
    (inside : member ∈ before.members) (back : n ∈ member.retired)
    (out : Edit.leave member.handle ∈ before.editsFor change joins → keptBy before (before.editsFor change joins) = false) :
    n ∈ (before.edited (before.editsFor change joins)).retiredAll := by
  by_cases leaves : Edit.leave member.handle ∈ before.editsFor change joins
  · exact passes.noneOut (out leaves) member inside leaves back
  · obtain ⟨later,there,_,same⟩ := edited_keeps inside leaves
    exact mem_retiredAll.mpr ⟨later,there,same ▸ back⟩

theorem merged_retired {fields : Fields} {below : List (EntityId × Fields)} (once : Once before.members)
    (passes : Passes before (before.edited (before.editsOf (.merged folded survivor fields below)))
      (before.editsOf (.merged folded survivor fields below)))
    (apart : (Write.merged folded survivor fields below).Apart)
    (serves : Serves before (.merged folded survivor fields below)) (retired : n ∈ before.retiredAll) :
    n ∈ ((before.edited (before.editsOf (.merged folded survivor fields below))).serve survivor
      (before.retiredAt folded)).retiredAll := by
  obtain ⟨member,inside,back⟩ := mem_retiredAll.mp retired
  by_cases joins : before.chains survivor = true
  · by_cases away : member.handle = folded
    · by_cases present : before.isMember survivor = true
      · obtain ⟨stands,there,rfl⟩ := isMember_iff.mp present
        have stays : Edit.leave stands.handle ∉ before.editsOf (.merged folded stands.handle fields below) := by
          intro leaves
          rcases (leaves_iff.mp leaves).2 with gone | ⟨apart,_⟩
          · exact apart.1 (List.mem_singleton.mp gone).symm
          · rw [Write.joins,joins] at apart
            cases apart
        obtain ⟨later,inLater,named,_⟩ := edited_keeps there stays
        have inNow : later ∈ (before.edited (before.editsOf (.merged folded stands.handle fields below))).members := inLater
        obtain ⟨served,inServed,_,_,_,serves⟩ := @serve_mem _ _ stands.handle (before.retiredAt folded) inNow
        refine mem_retiredAll.mpr ⟨served,inServed,serves named ?_⟩
        exact (mem_retiredAt once).mpr ⟨member,inside,away,back⟩
      · have isRoot : survivor = before.collection := by
          simpa [Numbered.chains,present] using joins
        refine serve_retired (edited_retired passes inside back fun _ => ?_)
        rw [← Bool.not_eq_true,keptBy_iff]
        intro found
        obtain ⟨handle,sets,holds⟩ := found
        rcases sets_iff.mp sets with ⟨held,_⟩ | ⟨_,moved⟩
        · cases List.mem_singleton.mp held
          exact present holds
        · obtain ⟨child,below,rfl⟩ := List.mem_map.mp moved
          have none := serves isRoot ⟨child,below,holds⟩
          have had : n ∈ before.retiredAt folded := (mem_retiredAt once).mpr ⟨member,inside,away,back⟩
          rw [none] at had
          cases had
    · refine serve_retired (edited_retired passes inside back fun leaves => ?_)
      rcases (leaves_iff.mp leaves).2 with gone | ⟨apart,_⟩
      · exact (away (List.mem_singleton.mp gone)).elim
      · rw [Write.joins,joins] at apart
        cases apart
  · refine serve_retired (edited_retired passes inside back fun _ => ?_)
    simp only [Numbered.chains,Bool.or_eq_true,not_or,Bool.not_eq_true] at joins
    rw [← Bool.not_eq_true,keptBy_iff]
    intro found
    obtain ⟨handle,sets,holds⟩ := found
    rcases sets_iff.mp sets with ⟨held,_⟩ | ⟨joined,_⟩
    · cases List.mem_singleton.mp held
      rw [joins.2] at holds
      cases holds
    · simp [Write.joins,Numbered.chains,joins] at joined

theorem changed_retired (once : Once before.members) (apart : write.Apart) (lets : LetThrough before write)
    (serves : Serves before write) (retired : n ∈ before.retiredAll) :
    n ∈ (before.changed write).retiredAll := by
  by_cases outside : before.collection ∈ write.change.moved.map (·.1)
  · rw [changed_moved outside]
    exact retired
  have passes := letThrough_passes once outside lets
  rw [changed_unmoved outside]
  obtain ⟨member,inside,back⟩ := mem_retiredAll.mp retired
  cases write with
  | merged folded survivor fields below => exact merged_retired once passes apart serves retired
  | held holds blank =>
    refine edited_retired passes inside back fun leaves => ?_
    rcases (leaves_iff.mp leaves).2 with gone | ⟨_,gone⟩ <;> cases gone
  | moved under subtree =>
    refine edited_retired passes inside back fun leaves => ?_
    rcases (leaves_iff.mp leaves).2 with gone | ⟨apart,_⟩
    · cases gone
    · rw [← Bool.not_eq_true,keptBy_iff]
      intro found
      obtain ⟨handle,sets,_⟩ := found
      rcases sets_iff.mp sets with ⟨held,_⟩ | ⟨joined,_⟩
      · cases held
      · rw [joined] at apart
        cases apart
  | retracted handle left =>
    refine edited_retired passes inside back fun leaves => ?_
    rcases (leaves_iff.mp leaves).2 with gone | ⟨_,gone⟩ <;> cases gone

theorem step_remembers (kept : Kept ledger) (remembers : Remembers ledger) (step : Step ledger write later)
    (serves : Serves ledger.numbering write) : Remembers later := by
  obtain ⟨allowed,rfl⟩ := step
  have persists : ∀ n ∈ ledger.numbering.retiredAll, n ∈ (ledger.numbering.after write).retiredAll := by
    intro n retired
    cases write with
    | retracted handle left =>
      obtain ⟨member,inside,rfl,number,takes,_⟩ := allowed
      obtain ⟨was,held,back⟩ := mem_retiredAll.mp retired
      obtain ⟨later,there,_,keeps,_⟩ := @was_retracted ledger.numbering member left number kept.once inside takes was held
      exact mem_retiredAll.mpr ⟨later,there,keeps back⟩
    | _ => exact changed_retired kept.once allowed.1 allowed.2 serves retired
  intro n back
  rcases Finset.mem_union.mp back with before | now
  · exact persists n (remembers n before)
  · exact now

-- A merge into the collection with a member to move drops what the folded thing had
-- taken back: nobody holds it and nothing retires it.
theorem step_serves (kept : Kept ledger) (step : Step ledger write later) (never : NeverReused later) :
    Serves ledger.numbering write := by
  have keptLater := step_kept kept step
  obtain ⟨allowed,rfl⟩ := step
  cases write with
  | merged folded survivor fields below =>
    obtain ⟨apart,lets⟩ := allowed
    intro isRoot _
    refine Finset.eq_empty_of_forall_notMem fun n served => ?_
    obtain ⟨away,inside,named,back⟩ := (mem_retiredAt kept.once).mp served
    have outside : ledger.numbering.collection ∉ (Write.merged folded survivor fields below).change.moved.map (·.1) :=
      isRoot ▸ apart.2.2
    have passes := letThrough_passes kept.once outside lets
    have retired : n ∈ ledger.numbering.retiredAll := mem_retiredAll.mpr ⟨away,inside,back⟩
    have nobody : ∀ member ∈ (ledger.numbering.after (.merged folded survivor fields below)).members, ¬ member.claims n := by
      intro member there claims
      change member ∈ (ledger.numbering.changed (.merged folded survivor fields below)).members at there
      rw [changed_unmoved outside] at there
      obtain ⟨held,inNow,same,value,had⟩ := mem_serve there
      have claimed : held.claims n := by
        rcases claims with number | taken
        · exact .inl ((number_of_value value).trans number)
        · rcases had n taken with own | ⟨survives,_⟩
          · exact .inr own
          · have root := edited_guarded kept.once kept.root kept.own outside passes
            have present := isMember_iff.mpr ⟨held,inNow,same.trans (survives.trans isRoot)⟩
            cases root.root.symm.trans present
      obtain ⟨was,wasThere,wasNamed,hadClaim⟩ := edited_was kept.once passes inNow retired claimed
      cases kept.own away inside was wasThere n (.inr back) hadClaim
      exact folded_gone kept.once apart held inNow (wasNamed.symm.trans named)
    have held : n ∈ (ledger.after (.merged folded survivor fields below)).held :=
      Finset.mem_union_left _ (kept.issued n (kept.retired n retired))
    rcases never.lasting n held with holds | taken
    · obtain ⟨member,there,number⟩ := mem_held.mp holds
      exact nobody member there (.inl number)
    · obtain ⟨member,there,taken⟩ := mem_retiredAll.mp taken
      exact nobody member there (.inr taken)
  | _ => trivial

theorem step_givesNoneBack (kept : Kept ledger) (remembers : Remembers ledger) (step : Step ledger write later) :
    GivesNoneBack ledger write := by
  obtain ⟨allowed,_⟩ := step
  intro member there n back number
  cases write with
  | retracted handle left =>
    obtain ⟨target,inside,rfl,held,takes,none⟩ := allowed
    obtain ⟨was,had,named,numbers,_⟩ := retracted_was kept.once inside takes none there
    exact ⟨was,had,named,numbers n number⟩
  | _ =>
    exact (changed_guarded kept.once kept.root kept.own allowed.1 allowed.2).fresh member there n (remembers n back) number

-- From its founding a collection never issues a number twice exactly along the runs
-- in which no merge folds a carrier of taken-back numbers into the collection itself.
theorem numbers_never_reused_iff (founded : Founded start) {taken : List (Ledger × Write)}
    (run : Run Step (.opened start) taken ledger) :
    ((∀ one ∈ taken, NeverReused one.1 ∧ GivesNoneBack one.1 one.2) ∧ NeverReused ledger) ↔
      ∀ one ∈ taken, Serves one.1.numbering one.2 := by
  have first := founded_kept founded
  have firstRemembers : Remembers (.opened start) := fun _ back => back
  have always := run.always_iff (fun before write => Serves before.numbering write) first firstRemembers step_kept
    neverReused_of (fun kept _ step never => step_serves kept step never) step_remembers
  constructor
  · intro all
    exact always.mp ⟨fun one member => (all.1 one member).1,all.2⟩
  · intro serves
    obtain ⟨reused,now⟩ := always.mpr serves
    have remembers := (run.strong_of_meets (fun before write => Serves before.numbering write) first firstRemembers
      step_kept step_remembers serves).2
    refine ⟨?_,now⟩
    intro one member
    obtain ⟨kept,_,step⟩ := (run.keeps first step_kept).2 one member
    exact ⟨reused one member,step_givesNoneBack kept (remembers one member) step⟩

def curfew : EntityId := "topic:curfew".toList
def curfewHours : EntityId := "topic:curfew-hours".toList
def laws : Numbered := ⟨"topic:laws".toList,"number".toList,[⟨curfew,none,∅⟩,⟨curfewHours,none,∅⟩]⟩
def takesOne (handle : EntityId) : Write := .held [(handle,{("number".toList,"1".toList)})] []

def given : Ledger := (Ledger.opened laws).after (takesOne curfew)
def withdrawn : Ledger := given.after (.retracted curfew none)
def foldsIn : Write := .merged curfew laws.collection ∅ [(curfewHours,∅)]

theorem laws_founded : Founded laws := ⟨(by decide : [curfew,curfewHours].Nodup),by decide,rfl,rfl⟩

theorem laws_withdrawn : Run Step (.opened laws)
    [(.opened laws,takesOne curfew),(given,.retracted curfew none)] withdrawn := by
  have first : Run Step (.opened laws) [(.opened laws,takesOne curfew)] given :=
    .step .start ⟨⟨trivial,rfl⟩,rfl⟩
  exact .step first ⟨⟨⟨curfew,some "1".toList,∅⟩,.head _,rfl,1,rfl,by simp⟩,rfl⟩

theorem a_retraction_keeps_its_number :
    (∀ one ∈ [(Ledger.opened laws,takesOne curfew),(given,.retracted curfew none)],
      NeverReused one.1 ∧ GivesNoneBack one.1 one.2) ∧ NeverReused withdrawn := by
  refine (numbers_never_reused_iff laws_founded laws_withdrawn).mpr ?_
  intro one member
  fin_cases member <;> trivial

-- Merged into the collection with a member below it to move, the curfew's number is
-- nobody's, and the member below may take it.
theorem a_merge_into_the_collection_frees_a_number :
    Run Step (.opened laws) [(.opened laws,takesOne curfew),(given,.retracted curfew none),(withdrawn,foldsIn)]
      (withdrawn.after foldsIn) ∧
    1 ∈ (withdrawn.after foldsIn).held ∧ (withdrawn.after foldsIn).numbering.next = 1 ∧
    LetThrough (withdrawn.after foldsIn).numbering (takesOne curfewHours) ∧ ¬ NeverReused (withdrawn.after foldsIn) := by
  have held : 1 ∈ (withdrawn.after foldsIn).held := by decide
  have next : (withdrawn.after foldsIn).numbering.next = 1 := rfl
  refine ⟨.step laws_withdrawn ⟨⟨⟨by decide,by decide,by decide⟩,rfl⟩,rfl⟩,held,next,rfl,?_⟩
  intro never
  have below := never.next 1 held
  rw [next] at below
  exact Nat.lt_irrefl 1 below

end Numbering
