import Jojobot.Library.Bytes
import Jojobot.Library.Tally

namespace Excerpt
open Library

-- A matched query term, with its offsets in the text's bytes.
structure Match where
  term : Nat
  start : Nat
  stop : Nat
deriving DecidableEq, Repr

-- The distinct terms of a passage, how many bytes it is wide and where it begins.
structure Passage where
  terms : Nat
  span : Nat
  start : Nat
deriving DecidableEq, Repr

structure Sliding where
  counts : Tally Nat
  left : Nat
  right : Nat
  best : Passage

-- The matches that begin before the window leave it from the left.
def leave (found : List Match) (start : Nat) : Nat → Sliding → Option Sliding
  | 0,_ => none
  | fuel+1,sliding =>
    if sliding.left < sliding.right then do
      let first ← found[sliding.left]?
      if first.start < start then do
        let counts ← Tally.drop sliding.counts first.term
        leave found start fuel { sliding with counts := counts, left := sliding.left+1 }
      else some sliding
    else some sliding

def skip (found : List Match) (start : Nat) : Nat → Sliding → Option Sliding
  | 0,_ => none
  | fuel+1,sliding =>
    match found[sliding.right]? with
    | none => some sliding
    | some next =>
      if next.start < start then skip found start fuel { sliding with left := sliding.right+1, right := sliding.right+1 }
      else some sliding

def enter (found : List Match) (start : Nat) : Nat → Sliding → Option Sliding
  | 0,_ => none
  | fuel+1,sliding =>
    match found[sliding.right]? with
    | none => some sliding
    | some next =>
      if next.stop ≤ start+320 then
        enter found start fuel { sliding with counts := Tally.add sliding.counts next.term, right := sliding.right+1 }
      else some sliding

def checkedSub (a b : Nat) : Option Nat := if b ≤ a then some (a-b) else none

-- `>=` on the pairs: the later passage is kept where two are alike.
def better (candidate best : Passage) : Bool :=
  best.terms < candidate.terms || (best.terms = candidate.terms && candidate.span ≤ best.span)

def anchored (found : List Match) (sliding : Sliding) (anchor : Match) : Option Sliding := do
  let start := anchor.start-80
  let fuel := found.length+1
  let sliding ← leave found start fuel sliding
  let sliding ← skip found start fuel sliding
  let sliding ← enter found start fuel sliding
  let edges ← if sliding.left < sliding.right then do
      let first ← found[sliding.left]?
      let last ← found[sliding.right-1]?
      some (first.start,last.stop)
    else some (anchor.start,anchor.stop)
  let span ← checkedSub edges.2 edges.1
  let candidate : Passage := ⟨sliding.counts.size,span,edges.1⟩
  some (if better candidate sliding.best then { sliding with best := candidate } else sliding)

def window (found : List Match) : Option Passage :=
  (found.foldlM (anchored found) ⟨∅,0,0,⟨0,2^64-1,0⟩⟩).map (·.best)

def shownRange (text : Text) (passage : Passage) : Option (Nat × Nat) := do
  let start := boundaryBefore text (min (passage.start-(320-min passage.span 320)/2) (byteLength text))
  let stop ← boundaryAfter text (byteLength text+1) (min (start+320) (byteLength text))
  some (start,stop)

def snippet (text : Text) (found : List Match) : Option Text := do
  let passage ← window found
  let (start,stop) ← shownRange text passage
  let cut ← slice text start stop
  some ((if 0 < start then ['…'] else [])++trim cut++(if stop < byteLength text then ['…'] else []))

variable {text : Text} {found before held after anchors : List Match} {start from' fuel : Nat} {counts : Tally Nat}
  {best passage : Passage} {m anchor : Match}

def InOrder (found : List Match) : Prop :=
  (∀ m ∈ found, m.start ≤ m.stop) ∧ found.Pairwise fun m n => m.stop ≤ n.start

-- The matches that a window of 320 bytes holds whole.
def heldAt (found : List Match) (start : Nat) : List Match :=
  found.filter fun m => decide (start ≤ m.start) && decide (m.stop ≤ start+320)

def passageOf (held : List Match) : Passage :=
  ⟨(held.map (·.term)).toFinset.card,(held.getLast?.elim 0 (·.stop))-(held.head?.elim 0 (·.start)),held.head?.elim 0 (·.start)⟩

def passageAt (found : List Match) (anchor : Match) : Passage := passageOf (heldAt found (anchor.start-80))

theorem InOrder.tail (ordered : InOrder (m::found)) : InOrder found :=
  ⟨fun n inside => ordered.1 n (List.mem_cons_of_mem _ inside),(List.pairwise_cons.mp ordered.2).2⟩

theorem InOrder.later {rest : List Match} (ordered : InOrder (rest++found)) : InOrder found :=
  ⟨fun n inside => ordered.1 n (List.mem_append_right _ inside),(List.pairwise_append.mp ordered.2).2.1⟩

theorem InOrder.earlier {rest : List Match} (ordered : InOrder (found++rest)) : InOrder found :=
  ⟨fun n inside => ordered.1 n (List.mem_append_left _ inside),(List.pairwise_append.mp ordered.2).1⟩

theorem InOrder.first (ordered : InOrder (m::found)) {n : Match} (inside : n ∈ m::found) :
    m.start ≤ n.start ∧ m.stop ≤ n.stop := by
  have here := ordered.1 m List.mem_cons_self
  have there := ordered.1 n inside
  rcases List.mem_cons.mp inside with same | later
  · subst same
    exact ⟨Nat.le_refl _,Nat.le_refl _⟩
  · have after := (List.pairwise_cons.mp ordered.2).1 n later
    omega

-- With `before` passed, `held` in the window and `after` to come.
def slid (before held : List Match) (counts : Tally Nat) (best : Passage) : Sliding :=
  ⟨counts,before.length,(before++held).length,best⟩

theorem leave_run (tallies : Tallies counts (held.map (·.term))) (enough : held.length < fuel) :
    ∃ gone kept less, held = gone++kept ∧ (∀ m ∈ gone, m.start < start) ∧
      (∀ m, kept.head? = some m → start ≤ m.start) ∧ Tallies less (kept.map (·.term)) ∧
      leave (before++held++after) start fuel (slid before held counts best) = some (slid (before++gone) kept less best) := by
  induction held generalizing before counts fuel with
  | nil =>
    obtain ⟨fuel,rfl⟩ := Nat.exists_eq_add_one_of_ne_zero (by omega : fuel ≠ 0)
    exact ⟨[],[],counts,rfl,by simp,by simp,tallies,by simp [leave,slid]⟩
  | cons m held ih =>
    obtain ⟨fuel,rfl⟩ := Nat.exists_eq_add_one_of_ne_zero (by omega : fuel ≠ 0)
    by_cases early : m.start < start
    · have here : (before++m::held++after)[before.length]? = some m := by simp
      obtain ⟨less,dropped,tallied⟩ := Tallies.drop tallies
      obtain ⟨gone,kept,least,parts,passed,settled,still,ran⟩ :=
        @ih (before++[m]) fuel less tallied (by simpa using enough)
      refine ⟨m::gone,kept,least,by rw [parts]; rfl,?_,settled,still,?_⟩
      · intro n inside
        rcases List.mem_cons.mp inside with same | later
        · exact same ▸ early
        · exact passed n later
      · simp only [slid,List.append_assoc,List.cons_append,List.nil_append,List.length_append,
          List.length_cons,List.length_nil] at ran here ⊢
        simp only [leave,here,Option.bind_eq_bind,Option.bind_some,early,if_true,dropped]
        rw [if_pos (by omega)]
        have moved : before.length+(held.length+1) = before.length+(0+1+held.length) := by omega
        simpa [moved] using ran
    · refine ⟨[],m::held,counts,rfl,by simp,?_,tallies,?_⟩
      · intro n first
        cases first
        exact Nat.le_of_not_lt early
      · simp [slid,leave,early]

theorem skip_past (enough : after.length < fuel) :
    ∃ gone rest, after = gone++rest ∧ (∀ m ∈ gone, m.start < start) ∧ (∀ m, rest.head? = some m → start ≤ m.start) ∧
      skip (before++after) start fuel (slid before [] counts best) = some (slid (before++gone) [] counts best) := by
  induction after generalizing before fuel with
  | nil =>
    obtain ⟨fuel,rfl⟩ := Nat.exists_eq_add_one_of_ne_zero (by omega : fuel ≠ 0)
    exact ⟨[],[],rfl,by simp,by simp,by simp [skip,slid]⟩
  | cons m after ih =>
    obtain ⟨fuel,rfl⟩ := Nat.exists_eq_add_one_of_ne_zero (by omega : fuel ≠ 0)
    by_cases early : m.start < start
    · obtain ⟨gone,rest,parts,passed,settled,ran⟩ := @ih (before++[m]) fuel (by simpa using enough)
      refine ⟨m::gone,rest,by rw [parts]; rfl,?_,settled,?_⟩
      · intro n inside
        rcases List.mem_cons.mp inside with same | later
        · exact same ▸ early
        · exact passed n later
      · have here : (before++m::after)[before.length]? = some m := by simp
        simp only [slid,List.append_nil,List.append_assoc,List.cons_append,List.nil_append,
          List.length_append,List.length_cons,List.length_nil] at ran ⊢
        simp only [skip,here,early,if_true]
        simpa using ran
    · refine ⟨[],m::after,rfl,by simp,?_,by simp [slid,skip,early]⟩
      intro n first
      cases first
      exact Nat.le_of_not_lt early

-- Nothing is passed over while the window holds a match, which begins later than its start.
theorem skip_run (ordered : InOrder (held++after)) (settled : ∀ m, held.head? = some m → start ≤ m.start)
    (enough : after.length < fuel) :
    ∃ gone rest, after = gone++rest ∧ (∀ m ∈ gone, m.start < start) ∧ (∀ m, (held++rest).head? = some m → start ≤ m.start) ∧
      (held = [] ∨ gone = []) ∧
      skip (before++held++after) start fuel (slid before held counts best) = some (slid (before++gone) held counts best) := by
  cases held with
  | nil =>
    obtain ⟨gone,rest,parts,passed,waits,ran⟩ := @skip_past before after start fuel counts best enough
    exact ⟨gone,rest,parts,passed,waits,Or.inl rfl,by simpa using ran⟩
  | cons first held =>
    obtain ⟨fuel,rfl⟩ := Nat.exists_eq_add_one_of_ne_zero (by omega : fuel ≠ 0)
    refine ⟨[],after,rfl,by simp,settled,Or.inr rfl,?_⟩
    cases after with
    | nil => simp [skip,slid]
    | cons m after =>
      have begun := settled first rfl
      have later := (ordered.first (List.mem_append_right (first::held) List.mem_cons_self)).1
      have late : ¬m.start < start := by omega
      have here : (before++first::held++m::after)[(before++first::held).length]? = some m := by
        rw [List.getElem?_append_right (Nat.le_refl _)]
        simp
      simp only [skip,slid,here,late,if_false,List.append_nil]

theorem enter_run (tallies : Tallies counts (held.map (·.term))) (enough : after.length < fuel) :
    ∃ taken rest more, after = taken++rest ∧ (∀ m ∈ taken, m.stop ≤ start+320) ∧
      (∀ m, rest.head? = some m → start+320 < m.stop) ∧ Tallies more ((held++taken).map (·.term)) ∧
      enter (before++held++after) start fuel (slid before held counts best) = some (slid before (held++taken) more best) := by
  induction after generalizing held counts fuel with
  | nil =>
    obtain ⟨fuel,rfl⟩ := Nat.exists_eq_add_one_of_ne_zero (by omega : fuel ≠ 0)
    exact ⟨[],[],counts,rfl,by simp,by simp,by simpa using tallies,by simp [enter,slid]⟩
  | cons m after ih =>
    obtain ⟨fuel,rfl⟩ := Nat.exists_eq_add_one_of_ne_zero (by omega : fuel ≠ 0)
    have here : (before++held++m::after)[(before++held).length]? = some m := by
      rw [List.getElem?_append_right (Nat.le_refl _)]
      simp
    by_cases fits : m.stop ≤ start+320
    · have tallied := tallies.add m.term
      obtain ⟨taken,rest,more,parts,inside,settled,still,ran⟩ :=
        @ih (held++[m]) fuel (Tally.add counts m.term) (by simpa using tallied) (by simpa using enough)
      refine ⟨m::taken,rest,more,by rw [parts]; rfl,?_,settled,by simpa using still,?_⟩
      · intro n member
        rcases List.mem_cons.mp member with same | later
        · exact same ▸ fits
        · exact inside n later
      · simp only [enter,slid,here,fits,if_true]
        simpa [slid,Nat.add_assoc] using ran
    · refine ⟨[],m::after,counts,rfl,by simp,?_,by simpa using tallies,?_⟩
      · intro n first
        cases first
        exact Nat.lt_of_not_le fits
      · simp only [enter,slid,here,fits,if_false,List.append_nil]

theorem heldAt_between (passed : ∀ m ∈ before, m.start < start) (inside : ∀ m ∈ held, start ≤ m.start ∧ m.stop ≤ start+320)
    (beyond : ∀ m ∈ after, start+320 < m.stop) : heldAt (before++held++after) start = held := by
  have none : heldAt before start = [] := by
    apply List.filter_eq_nil_iff.mpr
    intro m member
    have := passed m member
    simp [this]
  have all : heldAt held start = held := by
    apply List.filter_eq_self.mpr
    intro m member
    simpa using inside m member
  have none' : heldAt after start = [] := by
    apply List.filter_eq_nil_iff.mpr
    intro m member
    have := beyond m member
    simp [this]
  unfold heldAt at none all none' ⊢
  rw [List.filter_append,List.filter_append,none,all,none',List.nil_append,List.append_nil]

def keep (found : List Match) (best : Passage) (anchor : Match) : Passage :=
  if better (passageAt found anchor) best then passageAt found anchor else best

-- What holds between two anchors, the last of them with its window from `start`.
def Standing (found : List Match) (start : Nat) (sliding : Sliding) : Prop :=
  ∃ before held after, found = before++held++after ∧ sliding = slid before held sliding.counts sliding.best ∧
    Tallies sliding.counts (held.map (·.term)) ∧ (∀ m ∈ before, m.start < start) ∧ ∀ m ∈ held, m.stop ≤ start+320

theorem start_standing (found : List Match) (best : Passage) : Standing found 0 ⟨∅,0,0,best⟩ :=
  ⟨[],[],found,rfl,rfl,Tallies.empty,by simp,by simp⟩

theorem mem_heldAt : m ∈ heldAt found start ↔ m ∈ found ∧ start ≤ m.start ∧ m.stop ≤ start+320 := by
  simp [heldAt]

-- A match of 240 bytes at most fits in its own window.
theorem anchor_held (inside : anchor ∈ found) (short : anchor.stop ≤ anchor.start+240) :
    anchor ∈ heldAt found (anchor.start-80) :=
  mem_heldAt.mpr ⟨inside,by omega,by omega⟩

theorem heldAt_ordered (ordered : InOrder found) (start : Nat) : InOrder (heldAt found start) :=
  ⟨fun m inside => ordered.1 m (mem_heldAt.mp inside).1,ordered.2.filter _⟩

theorem InOrder.last (ordered : InOrder held) {last n : Match} (final : held.getLast? = some last) (inside : n ∈ held) :
    n.stop ≤ last.stop := by
  obtain ⟨front,rfl⟩ := List.getLast?_eq_some_iff.mp final
  rcases List.mem_append.mp inside with earlier | same
  · have := (List.pairwise_append.mp ordered.2).2.2 n earlier last List.mem_cons_self
    have := ordered.1 last (by simp)
    omega
  · rw [List.mem_singleton.mp same]

-- The two edges of a passage that holds a match.
theorem passage_edges (ordered : InOrder held) (inside : m ∈ held) :
    ∃ first last, held[0]? = some first ∧ held.getLast? = some last ∧ first ∈ held ∧ last ∈ held ∧
      (∀ n ∈ held, first.start ≤ n.start ∧ n.stop ≤ last.stop) ∧
      passageOf held = ⟨(held.map (·.term)).toFinset.card,last.stop-first.start,first.start⟩ := by
  cases held with
  | nil => cases inside
  | cons first rest =>
    have final := List.getLast?_eq_some_getLast (List.cons_ne_nil first rest)
    refine ⟨first,_,rfl,final,List.mem_cons_self,List.getLast_mem _,?_,?_⟩
    · intro n member
      exact ⟨(ordered.first member).1,ordered.last final member⟩
    · simp [passageOf,final]

theorem InOrder.all_later (ordered : InOrder found) (settled : ∀ m, found.head? = some m → start ≤ m.start) :
    ∀ m ∈ found, start ≤ m.start := by
  cases found with
  | nil => simp
  | cons first rest =>
    intro m inside
    exact Nat.le_trans (settled first rfl) (ordered.first inside).1

theorem InOrder.all_beyond (ordered : InOrder found) (settled : ∀ m, found.head? = some m → start+320 < m.stop) :
    ∀ m ∈ found, start+320 < m.stop := by
  cases found with
  | nil => simp
  | cons first rest =>
    intro m inside
    exact Nat.lt_of_lt_of_le (settled first rfl) (ordered.first inside).2

-- The three loops leave in the window what fits whole between its start and its end.
theorem slides (ordered : InOrder found) {last : Nat} {sliding : Sliding} (standing : Standing found last sliding)
    (further : last ≤ start) :
    ∃ before after counts left skipped, found = before++heldAt found start++after ∧
      Tallies counts ((heldAt found start).map (·.term)) ∧ (∀ m ∈ before, m.start < start) ∧
      leave found start (found.length+1) sliding = some left ∧ skip found start (found.length+1) left = some skipped ∧
      enter found start (found.length+1) skipped = some (slid before (heldAt found start) counts sliding.best) := by
  obtain ⟨before,held,after,whole,shape,tallies,passed,fit⟩ := standing
  generalize sliding.counts = counts at shape tallies
  generalize sliding.best = best at shape ⊢
  subst shape
  have long : held.length < found.length+1 ∧ after.length < found.length+1 := by
    rw [whole]
    simp only [List.length_append]
    omega
  generalize found.length+1 = fuel at long ⊢
  obtain ⟨gone,kept,less,rfl,left,settled,fewer,ran⟩ :=
    @leave_run before held after start fuel counts best tallies long.1
  have moved : found = (before++gone)++kept++after := by simpa using whole
  rw [← whole] at ran
  obtain ⟨gone',rest,rfl,skipped,waits,one,ran'⟩ :=
    @skip_run (before++gone) kept after start fuel less best ((moved.trans (List.append_assoc ..) ▸ ordered).later) settled long.2
  rw [← moved] at ran'
  have here : found = (before++gone++gone')++kept++rest := by
    rcases one with rfl | rfl <;> simpa using moved
  have ahead : InOrder (kept++rest) := (here.trans (List.append_assoc ..) ▸ ordered).later
  have shorter : rest.length < fuel := by
    have := long.2
    rw [List.length_append] at this
    omega
  obtain ⟨taken,beyond,more,rfl,entered,outside,tallied,ran''⟩ :=
    @enter_run (before++gone++gone') kept rest start fuel less best fewer shorter
  rw [← here] at ran''
  have there : found = (before++gone++gone')++(kept++taken)++beyond := by simpa using here
  have passed' : ∀ m ∈ before++gone++gone', m.start < start := by
    intro m inside
    rcases List.mem_append.mp inside with inside | inside
    · rcases List.mem_append.mp inside with inside | inside
      · exact Nat.lt_of_lt_of_le (passed m inside) further
      · exact left m inside
    · exact skipped m inside
  have within : ∀ m ∈ kept++taken, start ≤ m.start ∧ m.stop ≤ start+320 := by
    intro m inside
    refine ⟨ahead.all_later waits m ?_,?_⟩
    · rw [← List.append_assoc]
      exact List.mem_append_left _ inside
    rcases List.mem_append.mp inside with inside | inside
    · have := fit m (List.mem_append_right _ inside)
      omega
    · exact entered m inside
  have after := (there ▸ ordered).later.all_beyond outside
  have holds : heldAt found start = kept++taken := by
    rw [there]
    exact heldAt_between passed' within after
  rw [holds]
  exact ⟨before++gone++gone',beyond,more,_,_,there,tallied,passed',ran,ran',ran''⟩

-- One anchor: the window moves on to it, and its passage is kept when it is no worse.
theorem anchored_run (ordered : InOrder found) {last : Nat} {sliding : Sliding} (standing : Standing found last sliding)
    (further : last ≤ anchor.start-80) (inside : anchor ∈ found) (short : anchor.stop ≤ anchor.start+240) :
    ∃ next, anchored found sliding anchor = some next ∧ Standing found (anchor.start-80) next ∧
      next.best = keep found sliding.best anchor := by
  obtain ⟨before,after,counts,left,skipped,whole,tallies,passed,ran,ran',ran''⟩ := slides ordered standing further
  have member := anchor_held inside short
  have fits : ∀ m ∈ heldAt found (anchor.start-80), m ∈ found ∧ m.stop ≤ anchor.start-80+320 :=
    fun m held => ⟨(mem_heldAt.mp held).1,(mem_heldAt.mp held).2.2⟩
  have inOrder := heldAt_ordered ordered (anchor.start-80)
  generalize at' : heldAt found (anchor.start-80) = held at *
  obtain ⟨first,final,begun,ended,isFirst,isFinal,edges,same⟩ := passage_edges inOrder member
  have some' := List.length_pos_of_mem member
  have atLeft : found[before.length]? = some first := by
    rw [whole,List.append_assoc,List.getElem?_append_right (Nat.le_refl _),Nat.sub_self,List.getElem?_append_left some']
    exact begun
  have atRight : found[(before++held).length-1]? = some final := by
    rw [List.getLast?_eq_getElem?] at ended
    rw [whole,List.append_assoc,List.length_append,List.getElem?_append_right (by omega),
      List.getElem?_append_left (by omega),← ended]
    congr 1
    omega
  have some'' : before.length < (before++held).length := by
    rw [List.length_append]
    omega
  have width : checkedSub final.stop first.start = some (final.stop-first.start) := by
    have one := edges first isFirst
    have two := ordered.1 first (fits first isFirst).1
    exact if_pos (by omega)
  have candidate : (⟨counts.size,final.stop-first.start,first.start⟩ : Passage) = passageAt found anchor := by
    rw [passageAt,at',same,tallies.size]
  have stands : ∀ best, Standing found (anchor.start-80) (slid before held counts best) :=
    fun best => ⟨before,held,after,whole,rfl,tallies,passed,fun m inside => (fits m inside).2⟩
  refine ⟨slid before held counts (keep found sliding.best anchor),?_,stands _,rfl⟩
  unfold anchored keep
  simp only [ran,ran',ran'',Option.bind_eq_bind,Option.bind_some]
  simp only [slid,some'',if_true,atLeft,atRight,width,candidate,Option.bind_some]
  split <;> rfl

theorem anchors_run (ordered : InOrder found) (short : ∀ m ∈ found, m.stop ≤ m.start+240) {last : Nat} {sliding : Sliding}
    (standing : Standing found last sliding) (sorted : anchors.Pairwise fun m n => m.start ≤ n.start)
    (inside : ∀ m ∈ anchors, m ∈ found) (further : ∀ m ∈ anchors, last ≤ m.start-80) :
    ∃ next, anchors.foldlM (anchored found) sliding = some next ∧ next.best = anchors.foldl (keep found) sliding.best := by
  induction anchors generalizing last sliding with
  | nil => exact ⟨sliding,rfl,rfl⟩
  | cons anchor anchors ih =>
    have member := inside anchor List.mem_cons_self
    obtain ⟨next,ran,standing,best⟩ :=
      anchored_run ordered standing (further anchor List.mem_cons_self) member (short anchor member)
    obtain ⟨first,others⟩ := List.pairwise_cons.mp sorted
    obtain ⟨final,ran',best'⟩ := ih standing others (fun m later => inside m (List.mem_cons_of_mem _ later))
      (fun m later => Nat.sub_le_sub_right (first m later) 80)
    refine ⟨final,?_,?_⟩
    · rw [List.foldlM_cons,ran]
      exact ran'
    · rw [best',best,List.foldl_cons]

theorem better_iff {p q : Passage} : better p q = true ↔ q.terms < p.terms ∨ q.terms = p.terms ∧ p.span ≤ q.span := by
  simp [better]

theorem better_refl (p : Passage) : better p p = true := by simp [better]

theorem better_trans {p q r : Passage} (first : better p q = true) (second : better q r = true) : better p r = true := by
  rw [better_iff] at first second ⊢
  omega

theorem better_total {p q : Passage} (worse : ¬better p q = true) : better q p = true := by
  rw [better_iff] at worse ⊢
  omega

theorem keep_better (found : List Match) (best : Passage) (anchor : Match) :
    better (keep found best anchor) best = true ∧ better (keep found best anchor) (passageAt found anchor) = true := by
  unfold keep
  split
  · rename_i wins
    exact ⟨wins,better_refl _⟩
  · rename_i loses
    exact ⟨better_refl _,better_total loses⟩

-- The passage that is kept is no worse than any that was met.
theorem kept_best (found anchors : List Match) (best : Passage) :
    better (anchors.foldl (keep found) best) best = true ∧
      (∀ a ∈ anchors, better (anchors.foldl (keep found) best) (passageAt found a) = true) ∧
      (anchors.foldl (keep found) best = best ∨ ∃ a ∈ anchors, anchors.foldl (keep found) best = passageAt found a) := by
  induction anchors generalizing best with
  | nil => exact ⟨better_refl _,by simp,Or.inl rfl⟩
  | cons anchor anchors ih =>
    obtain ⟨first,others,met⟩ := ih (keep found best anchor)
    obtain ⟨over',this'⟩ := keep_better found best anchor
    rw [List.foldl_cons]
    refine ⟨better_trans first over',?_,?_⟩
    · intro a member
      rcases List.mem_cons.mp member with same | later
      · subst same
        exact better_trans first this'
      · exact others a later
    · rcases met with same | ⟨a,member,same⟩
      · rw [same]
        unfold keep
        split
        · exact Or.inr ⟨anchor,List.mem_cons_self,rfl⟩
        · exact Or.inl rfl
      · exact Or.inr ⟨a,List.mem_cons_of_mem _ member,same⟩

-- The passage of some anchor's window, with no window that holds more terms, and none with as
-- many that is narrower.
def Densest (found : List Match) (passage : Passage) : Prop :=
  (∃ a ∈ found, passage = passageAt found a) ∧ ∀ a ∈ found, (passageAt found a).terms < passage.terms ∨
    (passageAt found a).terms = passage.terms ∧ passage.span ≤ (passageAt found a).span

-- The last of the passages that none is better than.
def Picked (found : List Match) (passage : Passage) : Prop :=
  ∃ earlier anchor later, found = earlier++anchor::later ∧ passage = passageAt found anchor ∧
    (∀ a ∈ earlier, better passage (passageAt found a) = true) ∧ ∀ a ∈ later, better (passageAt found a) passage = false

theorem kept_stays (wins : ∀ a ∈ anchors, better (passageAt found a) best = false) : anchors.foldl (keep found) best = best := by
  induction anchors with
  | nil => rfl
  | cons anchor anchors ih =>
    have loses : ¬better (passageAt found anchor) best = true := by simp [wins anchor List.mem_cons_self]
    rw [List.foldl_cons,keep,if_neg loses]
    exact ih fun a later => wins a (List.mem_cons_of_mem _ later)

theorem picked_kept (first : ∀ a ∈ found, better (passageAt found a) best = true) (picked : Picked found passage) :
    found.foldl (keep found) best = passage := by
  obtain ⟨earlier,anchor,later,parts,same,wins,loses⟩ := picked
  have kept : keep found (earlier.foldl (keep found) best) anchor = passage := by
    have beats : better passage (earlier.foldl (keep found) best) = true := by
      rcases (kept_best found earlier best).2.2 with none' | ⟨a,inside,other⟩
      · rw [none',same]
        exact first anchor (by rw [parts]; simp)
      · rw [other]
        exact wins a inside
    rw [keep,←same,if_pos beats]
  calc found.foldl (keep found) best = (earlier++anchor::later).foldl (keep found) best := congrArg (·.foldl (keep found) best) parts
    _ = later.foldl (keep found) passage := by rw [List.foldl_append,List.foldl_cons,kept]
    _ = passage := kept_stays loses

-- Where every passage beats what the scan begins with, it keeps the last of the best.
theorem kept_picked (some' : anchors ≠ []) (beats : ∀ a ∈ anchors, better best (passageAt found a) = false) :
    ∃ earlier anchor later, anchors = earlier++anchor::later ∧ anchors.foldl (keep found) best = passageAt found anchor ∧
      (∀ a ∈ earlier, better (passageAt found anchor) (passageAt found a) = true) ∧
      ∀ a ∈ later, better (passageAt found a) (passageAt found anchor) = false := by
  induction anchors using List.reverseRecOn with
  | nil => exact absurd rfl some'
  | append_singleton anchors last ih =>
    obtain ⟨_,best',met⟩ := kept_best found anchors best
    rw [List.foldl_append,List.foldl_cons,List.foldl_nil]
    by_cases wins : better (passageAt found last) (anchors.foldl (keep found) best) = true
    · refine ⟨anchors,last,[],rfl,if_pos wins,?_,by simp⟩
      intro a inside
      exact better_trans wins (best' a inside)
    · have none' : anchors ≠ [] := by
        intro empty
        subst empty
        have loses := better_total wins
        rw [List.foldl_nil,beats last (by simp)] at loses
        cases loses
      obtain ⟨earlier,anchor,later,parts,same,above,below⟩ := ih none' fun a inside => beats a (List.mem_append_left _ inside)
      rw [same] at wins
      refine ⟨earlier,anchor,later++[last],by rw [parts]; simp,?_,above,?_⟩
      · rw [same,keep,if_neg wins]
      · intro a inside
        rcases List.mem_append.mp inside with sooner | final
        · exact below a sooner
        · cases List.mem_singleton.mp final
          exact Bool.eq_false_iff.mpr wins

theorem picked_densest (picked : Picked found passage) : Densest found passage := by
  obtain ⟨earlier,anchor,later,parts,same,wins,loses⟩ := picked
  refine ⟨⟨anchor,by rw [parts]; simp,same⟩,?_⟩
  intro a inside
  rw [parts] at inside
  apply better_iff.mp
  rcases List.mem_append.mp inside with sooner | here
  · exact wins a sooner
  · rcases List.mem_cons.mp here with itself | after
    · rw [itself,same]
      exact better_refl _
    · exact better_total (by simp [loses a after])

theorem window_picked (some' : found ≠ []) (ordered : InOrder found) (short : ∀ m ∈ found, m.stop ≤ m.start+240) :
    ∃ passage, window found = some passage ∧ Picked found passage ∧ ∀ other, Picked found other → other = passage := by
  have sorted : found.Pairwise fun m n => m.start ≤ n.start := by
    apply ordered.2.imp_of_mem
    intro m n inside _ after
    exact Nat.le_trans (ordered.1 m inside) after
  obtain ⟨next,ran,best⟩ := anchors_run ordered short (start_standing found ⟨0,2^64-1,0⟩) sorted (fun _ inside => inside)
    (fun _ _ => Nat.zero_le _)
  -- Every window holds its own anchor, and the scan begins with a passage of no terms.
  have terms : ∀ a ∈ found, 0 < (passageAt found a).terms := by
    intro a inside
    have term : a.term ∈ ((heldAt found (a.start-80)).map (·.term)).toFinset :=
      List.mem_toFinset.mpr (List.mem_map_of_mem (anchor_held inside (short a inside)))
    exact Finset.card_pos.mpr ⟨a.term,term⟩
  have beats : ∀ a ∈ found, better ⟨0,2^64-1,0⟩ (passageAt found a) = false := by
    intro a inside
    have positive := terms a inside
    rw [Bool.eq_false_iff,Ne,better_iff]
    dsimp only
    omega
  have first : ∀ a ∈ found, better (passageAt found a) ⟨0,2^64-1,0⟩ = true :=
    fun a inside => better_iff.mpr (Or.inl (terms a inside))
  obtain ⟨earlier,anchor,later,parts,same,above,below⟩ := kept_picked some' beats
  refine ⟨found.foldl (keep found) ⟨0,2^64-1,0⟩,by rw [window,ran,Option.map_some,best],?_,?_⟩
  · rw [same]
    exact ⟨earlier,anchor,later,parts,rfl,above,below⟩
  · intro other picked
    exact (picked_kept first picked).symm

end Excerpt
