import Jojobot.Library.Tally

namespace Search
open Library

-- A query term and the token position it stands at, sorted by position.
abbrev Located : Type := Nat × Fin (2^64)

structure Relevance where
  terms : Nat
  span : Nat
deriving DecidableEq, Repr

structure Sweep where
  held : Tally Nat
  left : Nat
  span : Nat

def distinctTerms (positions : List Located) : Finset Nat := (positions.map Prod.fst).toFinset

-- `finish - start` of the source stops the program when it would underflow.
def checkedSub (finish start : Fin (2^64)) : Option Nat := if start ≤ finish then some (finish.val-start.val) else none

-- The inner loop: it takes from the left for as long as every term is held.
def shrink (positions : List Located) (terms : Nat) (finish : Fin (2^64)) : Nat → Sweep → Option Sweep
  | 0,_ => none
  | fuel+1,swept =>
    if swept.held.size = terms then do
      let (term,start) ← positions[swept.left]?
      let width ← checkedSub finish start
      let held ← Tally.drop swept.held term
      shrink positions terms finish fuel ⟨held,swept.left+1,min swept.span width⟩
    else some swept

def sweep (positions : List Located) (terms : Nat) (swept : Sweep) (next : Located) : Option Sweep :=
  shrink positions terms next.2 (positions.length+1) ⟨Tally.add swept.held next.1,swept.left,swept.span⟩

-- `at` of the source.
def relevanceAt (positions : List Located) : Option Relevance :=
  let terms := (distinctTerms positions).card
  if terms ≤ 1 then some ⟨terms,0⟩
  else (positions.foldlM (sweep positions terms) ⟨∅,0,2^64-1⟩).map fun swept => ⟨terms,swept.span⟩

variable {positions : List Located} {swept : Sweep} {i l r : Nat}

def window (positions : List Located) (l r : Nat) : List Located := (positions.take r).drop l
def place (positions : List Located) (i : Nat) : Nat := (positions[i]?.map (·.2.val)).getD 0
def width (positions : List Located) (l r : Nat) : Nat := place positions (r-1)-place positions l
def Full (positions : List Located) (l r : Nat) : Prop := distinctTerms (window positions l r) = distinctTerms positions

theorem window_subset (positions : List Located) (l r : Nat) : distinctTerms (window positions l r) ⊆ distinctTerms positions := by
  intro term
  simp only [distinctTerms,List.mem_toFinset,List.mem_map]
  intro found
  obtain ⟨p,inside,same⟩ := found
  exact ⟨p,List.mem_of_mem_take (List.mem_of_mem_drop inside),same⟩

theorem full_iff (positions : List Located) (l r : Nat) :
    Full positions l r ↔ (distinctTerms (window positions l r)).card = (distinctTerms positions).card := by
  constructor
  · intro full
    rw [full]
  · intro same
    exact Finset.eq_of_subset_of_card_le (window_subset positions l r) (Nat.le_of_eq same.symm)

-- A run that starts later and ends where another does holds no more terms.
theorem Full.wider {other : Nat} (full : Full positions l r) (earlier : other ≤ l) : Full positions other r := by
  apply Finset.Subset.antisymm (window_subset positions other r)
  intro term inside
  rw [← full] at inside
  simp only [distinctTerms,List.mem_toFinset,List.mem_map] at inside ⊢
  obtain ⟨p,within,same⟩ := inside
  refine ⟨p,?_,same⟩
  have parts : window positions l r = (window positions other r).drop (l-other) := by
    unfold window
    rw [List.drop_drop]
    congr 1
    omega
  rw [parts] at within
  exact List.mem_of_mem_drop within

theorem window_snoc {next : Located} (found : positions[i]? = some next) (left : l ≤ i) :
    window positions l (i+1) = window positions l i++[next] := by
  unfold window
  have inside := (List.getElem?_eq_some_iff.mp found).1
  rw [List.take_add_one,found,Option.toList_some,List.drop_append_of_le_length]
  rw [List.length_take]
  omega

theorem window_cons (inside : l < r) (within : r ≤ positions.length) :
    ∃ first, positions[l]? = some first ∧ window positions l r = first :: window positions (l+1) r := by
  have here : l < (positions.take r).length := by rw [List.length_take]; omega
  refine ⟨(positions.take r)[l],?_,List.drop_eq_getElem_cons here⟩
  rw [List.getElem_take,List.getElem?_eq_getElem]

def Ordered (positions : List Located) : Prop := positions.Pairwise fun p q => p.2 ≤ q.2

theorem place_mono (ordered : Ordered positions) {j : Nat} (before : i ≤ j) (within : j < positions.length) :
    place positions i ≤ place positions j := by
  have first : i < positions.length := by omega
  unfold place
  rw [List.getElem?_eq_getElem within,List.getElem?_eq_getElem first]
  rcases Nat.lt_or_ge i j with less | same
  · exact List.pairwise_iff_getElem.mp ordered i j first within less
  · obtain rfl : i = j := by omega
    exact Nat.le_refl _

-- With `i` positions read: the passages that end earlier are measured, and so is every
-- passage that begins before the left end, whichever place it ends at from here on.
structure Swept (positions : List Located) (i : Nat) (swept : Sweep) : Prop where
  within : swept.left ≤ i
  tallies : Tallies swept.held ((window positions swept.left i).map Prod.fst)
  passed : ∀ l r, l < swept.left → i ≤ r → r ≤ positions.length → swept.span ≤ width positions l r
  covered : ∀ l r, l < r → r < i → Full positions l r → swept.span ≤ width positions l r
  met : swept.span = 2^64-1 ∨ ∃ l r, l < r ∧ r ≤ i ∧ Full positions l r ∧ swept.span = width positions l r

theorem Swept.size (invariant : Swept positions i swept) :
    swept.held.size = (distinctTerms positions).card ↔ Full positions swept.left i := by
  rw [full_iff,invariant.tallies.size]
  rfl

theorem start_swept : Swept positions 0 ⟨∅,0,2^64-1⟩ where
  within := Nat.le_refl _
  tallies := by simpa [window] using Tallies.empty
  passed l r less := absurd less (Nat.not_lt_zero _)
  covered l r _ less := absurd less (Nat.not_lt_zero _)
  met := Or.inl rfl

-- One more position is read; the left end stays.
theorem Swept.read {next : Located} (invariant : Swept positions i swept) (found : positions[i]? = some next)
    (settled : ¬Full positions swept.left i) :
    Swept positions (i+1) ⟨Tally.add swept.held next.1,swept.left,swept.span⟩ where
  within := Nat.le_succ_of_le invariant.within
  tallies := by
    rw [window_snoc found invariant.within,List.map_append]
    exact invariant.tallies.add next.1
  passed l r less later inside := invariant.passed l r less (by omega) inside
  covered l r less ended full := by
    rcases Nat.lt_or_ge r i with before | here
    · exact invariant.covered l r less before full
    · obtain rfl : r = i := by omega
      have inside := (List.getElem?_eq_some_iff.mp found).1
      rcases Nat.lt_or_ge l swept.left with early | late
      · exact invariant.passed l r early (Nat.le_refl _) (by omega)
      · exact absurd (full.wider late) settled
  met := by
    rcases invariant.met with none | some'
    · exact Or.inl none
    · obtain ⟨l,r,less,ended,full,same⟩ := some'
      exact Or.inr ⟨l,r,less,by omega,full,same⟩

-- A passage that holds every term is measured and the left end moves on by one.
theorem Swept.shrunk {next : Located} (invariant : Swept positions (i+1) swept) (ordered : Ordered positions)
    (found : positions[i]? = some next) (several : 1 < (distinctTerms positions).card)
    (full : Full positions swept.left (i+1)) :
    ∃ term start held, positions[swept.left]? = some (term,start) ∧
      checkedSub next.2 start = some (width positions swept.left (i+1)) ∧
      Tally.drop swept.held term = some held ∧
      Swept positions (i+1) ⟨held,swept.left+1,min swept.span (width positions swept.left (i+1))⟩ := by
  obtain ⟨inside,rfl⟩ := List.getElem?_eq_some_iff.mp found
  have left : swept.left < i+1 := by
    rcases Nat.lt_or_ge swept.left (i+1) with less | past
    · exact less
    · have none : window positions swept.left (i+1) = [] := by
        apply List.drop_eq_nil_of_le
        rw [List.length_take]
        omega
      unfold Full at full
      rw [none] at full
      rw [← full] at several
      simp [distinctTerms] at several
  obtain ⟨⟨term,start⟩,first,parts⟩ := window_cons left (by omega : i+1 ≤ positions.length)
  have tallied := invariant.tallies
  rw [parts,List.map_cons] at tallied
  obtain ⟨held,dropped,tallied⟩ := tallied.drop
  have mono := place_mono ordered (by omega : swept.left ≤ i) inside
  have ended : place positions i = positions[i].2.val := by simp [place,List.getElem?_eq_getElem inside]
  have begun : place positions swept.left = start.val := by simp [place,first]
  refine ⟨term,start,held,first,?_,dropped,?_,tallied,?_,?_,?_⟩
  · rw [ended,begun] at mono
    unfold checkedSub width
    rw [if_pos (show start ≤ positions[i].2 from mono),Nat.add_sub_cancel,ended,begun]
  · exact left
  · intro l r less later within
    rcases Nat.lt_or_ge l swept.left with early | here
    · exact Nat.le_trans (Nat.min_le_left _ _) (invariant.passed l r early later within)
    · obtain rfl : l = swept.left := by dsimp at less; omega
      have further := place_mono ordered (by omega : i ≤ r-1) (by omega)
      refine Nat.le_trans (Nat.min_le_right _ _) ?_
      unfold width
      rw [Nat.add_sub_cancel]
      omega
  · intro l r less before holds
    exact Nat.le_trans (Nat.min_le_left _ _) (invariant.covered l r less before holds)
  · rcases Nat.le_total swept.span (width positions swept.left (i+1)) with kept | narrower
    · rw [Nat.min_eq_left kept]
      exact invariant.met
    · rw [Nat.min_eq_right narrower]
      exact Or.inr ⟨swept.left,i+1,left,Nat.le_refl _,full,rfl⟩

theorem shrink_runs {next : Located} {fuel : Nat} (invariant : Swept positions (i+1) swept) (ordered : Ordered positions)
    (found : positions[i]? = some next) (several : 1 < (distinctTerms positions).card) (enough : i+1 < fuel+swept.left) :
    ∃ after, shrink positions (distinctTerms positions).card next.2 fuel swept = some after ∧
      Swept positions (i+1) after ∧ ¬Full positions after.left (i+1) := by
  induction fuel generalizing swept with
  | zero =>
    have within := invariant.within
    omega
  | succ fuel ih =>
    unfold shrink
    by_cases full : Full positions swept.left (i+1)
    · obtain ⟨term,start,held,first,measured,dropped,onward⟩ := invariant.shrunk ordered found several full
      obtain ⟨after,ran,kept⟩ := ih onward (by dsimp only; omega)
      refine ⟨after,?_,kept⟩
      rw [if_pos (invariant.size.mpr full)]
      simp only [first,measured,dropped,bind,Option.bind]
      exact ran
    · exact ⟨swept,if_neg fun same => full (invariant.size.mp same),invariant,full⟩

theorem sweep_runs (ordered : Ordered positions) (several : 1 < (distinctTerms positions).card) {rest : List Located}
    (parts : positions.drop i = rest) (invariant : Swept positions i swept) (settled : ¬Full positions swept.left i) :
    ∃ after, rest.foldlM (sweep positions (distinctTerms positions).card) swept = some after ∧
      Swept positions (i+rest.length) after ∧ ¬Full positions after.left (i+rest.length) := by
  induction rest generalizing i swept with
  | nil => exact ⟨swept,rfl,invariant,settled⟩
  | cons next rest ih =>
    have found : positions[i]? = some next := by
      rw [← List.head?_drop,parts]
      rfl
    have later : positions.drop (i+1) = rest := by
      rw [← List.drop_drop,parts]
      rfl
    have inside := (List.getElem?_eq_some_iff.mp found).1
    have shrunk : ∃ after, sweep positions (distinctTerms positions).card swept next = some after ∧
        Swept positions (i+1) after ∧ ¬Full positions after.left (i+1) :=
      shrink_runs (invariant.read found settled) ordered found several (by dsimp only; omega)
    obtain ⟨after,ran,onward,over'⟩ := shrunk
    obtain ⟨last,finished,kept⟩ := ih later onward over'
    refine ⟨last,?_,?_⟩
    · rw [List.foldlM_cons,ran]
      exact finished
    · rw [List.length_cons,← Nat.add_assoc,Nat.add_right_comm]
      exact kept

-- How far apart the first and the last position of a passage are.
def spread (passage : List Located) : Nat :=
  (passage.getLast?.map (·.2.val)).getD 0-(passage.head?.map (·.2.val)).getD 0

def HoldsEveryTerm (positions passage : List Located) : Prop :=
  passage <:+: positions ∧ ∀ p ∈ positions, ∃ q ∈ passage, q.1 = p.1

theorem holds_iff_full (positions : List Located) (l r : Nat) :
    (∀ p ∈ positions, ∃ q ∈ window positions l r, q.1 = p.1) ↔ Full positions l r := by
  constructor
  · intro holds
    apply Finset.Subset.antisymm (window_subset positions l r)
    intro term inside
    simp only [distinctTerms,List.mem_toFinset,List.mem_map] at inside ⊢
    obtain ⟨p,inside,rfl⟩ := inside
    exact holds p inside
  · intro full p inside
    have named : p.1 ∈ distinctTerms positions := by
      rw [distinctTerms,List.mem_toFinset]
      exact List.mem_map_of_mem inside
    rw [← full] at named
    simpa [distinctTerms] using named

theorem window_spread (less : l < r) (within : r ≤ positions.length) : spread (window positions l r) = width positions l r := by
  have head : (window positions l r).head? = positions[l]? := by
    unfold window
    rw [List.head?_drop,List.getElem?_take_of_lt less]
  have last : (window positions l r).getLast? = positions[r-1]? := by
    unfold window
    rw [List.getLast?_drop,List.getLast?_take,if_neg (by rw [List.length_take]; omega),if_neg (by omega)]
    rw [List.getElem?_eq_getElem (by omega)]
    rfl
  unfold spread width place
  rw [head,last]

-- The contiguous passages are the windows.
theorem passages_are_windows {passage : List Located} :
    passage <:+: positions ↔ ∃ l r, l ≤ r ∧ r ≤ positions.length ∧ passage = window positions l r := by
  constructor
  · intro within
    obtain ⟨before,after,parts⟩ := within
    refine ⟨before.length,before.length+passage.length,by omega,?_,?_⟩
    · rw [← parts]
      simp
    · unfold window
      rw [← parts,List.append_assoc,← List.append_assoc,← List.length_append,List.take_left,List.drop_left]
  · intro found
    obtain ⟨l,r,_,_,rfl⟩ := found
    exact (List.drop_suffix _ _).isInfix.trans (List.take_prefix _ _).isInfix

theorem the_tightest_passage_is_the_tightest (ordered : Ordered positions) :
    ∃ found, relevanceAt positions = some found ∧ found.terms = (distinctTerms positions).card ∧
      (1 < found.terms → IsLeast {apart | ∃ passage, HoldsEveryTerm positions passage ∧ apart = spread passage} found.span) := by
  unfold relevanceAt
  rcases Nat.lt_or_ge 1 (distinctTerms positions).card with several | few
  · have apart : ¬Full positions 0 0 := by
      intro full
      unfold Full at full
      rw [← full] at several
      simp [distinctTerms,window] at several
    obtain ⟨swept,ran,invariant,settled⟩ := sweep_runs ordered several (List.drop_zero) start_swept apart
    rw [Nat.zero_add] at invariant settled
    rw [if_neg (by omega),ran]
    refine ⟨_,rfl,rfl,fun _ => ?_⟩
    have measured (l r : Nat) (less : l < r) (within : r ≤ positions.length) (full : Full positions l r) :
        swept.span ≤ width positions l r := by
      rcases Nat.lt_or_ge r positions.length with before | here
      · exact invariant.covered l r less before full
      · obtain rfl : r = positions.length := by omega
        rcases Nat.lt_or_ge l swept.left with early | late
        · exact invariant.passed l _ early (Nat.le_refl _) (Nat.le_refl _)
        · exact absurd (full.wider late) settled
    have whole : Full positions 0 positions.length := by simp [Full,window]
    have filled : 0 < positions.length := by
      cases positions with
      | nil => simp [distinctTerms] at several
      | cons => simp
    have reached : ∃ l r, l < r ∧ r ≤ positions.length ∧ Full positions l r ∧ swept.span = width positions l r := by
      rcases invariant.met with widest | met
      · -- Nothing was narrower than the widest a position can be, so the whole list is that wide.
        have bound := measured 0 _ filled (Nat.le_refl _) whole
        have fits : width positions 0 positions.length < 2^64 := by
          unfold width place
          rw [List.getElem?_eq_getElem (by omega : positions.length-1 < positions.length)]
          exact Nat.lt_of_le_of_lt (Nat.sub_le _ _) (positions[positions.length-1]).2.isLt
        exact ⟨0,_,filled,Nat.le_refl _,whole,by omega⟩
      · exact met
    constructor
    · obtain ⟨l,r,less,within,full,same⟩ := reached
      exact ⟨window positions l r,⟨passages_are_windows.mpr ⟨l,r,Nat.le_of_lt less,within,rfl⟩,
        (holds_iff_full positions l r).mpr full⟩,by rw [window_spread less within]; exact same⟩
    · intro apart found
      obtain ⟨passage,holds,rfl⟩ := found
      obtain ⟨l,r,less,within,rfl⟩ := passages_are_windows.mp holds.1
      have full := (holds_iff_full positions l r).mp holds.2
      rcases Nat.lt_or_ge l r with less | empty
      · rw [window_spread less within]
        exact measured l r less within full
      · have none : window positions l r = [] := by
          apply List.drop_eq_nil_of_le
          rw [List.length_take]
          omega
        unfold Full at full
        rw [none] at full
        rw [← full] at several
        simp [distinctTerms] at several
  · rw [if_pos few]
    exact ⟨_,rfl,rfl,fun several => absurd several (Nat.not_lt.mpr few)⟩

theorem two_words_apart_by_two :
    ∃ found, relevanceAt [(0,1),(1,5),(0,7)] = some found ∧ found.terms = 2 ∧ found.span = 2 := by
  obtain ⟨found,answered,_⟩ := the_tightest_passage_is_the_tightest
    (show Ordered [(0,1),(1,5),(0,7)] by unfold Ordered; decide)
  have same : relevanceAt [(0,1),(1,5),(0,7)] = some ⟨2,2⟩ := by decide +kernel
  rw [same] at answered
  obtain rfl := Option.some.inj answered
  exact ⟨⟨2,2⟩,same,rfl,rfl⟩

end Search
