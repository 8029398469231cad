import Mathlib

namespace Library
open Std

section
variable {α : Type} [Ord α] [TransOrd α] [LawfulEqOrd α] [DecidableEq α]

-- How often each thing is held, with no entry for what is held no more.
abbrev Tally (α : Type) [Ord α] [TransOrd α] : Type := ExtTreeMap α Nat

def Tally.add (held : Tally α) (x : α) : Tally α := held.insert x (held[x]?.getD 0+1)

def Tally.drop (held : Tally α) (x : α) : Option (Tally α) :=
  match held[x]? with
  | none | some 0 => none
  | some 1 => some (held.erase x)
  | some (n+2) => some (held.insert x (n+1))

-- A tally of what stands in a window.
def Tallies (held : Tally α) (window : List α) : Prop :=
  ∀ x, held[x]? = if window.count x = 0 then none else some (window.count x)

variable {held : Tally α} {window : List α} {x : α}

omit [LawfulEqOrd α] in
theorem Tallies.empty : Tallies (∅ : Tally α) [] := by
  intro x
  simp

theorem Tallies.add (tallies : Tallies held window) (x : α) : Tallies (Tally.add held x) (window++[x]) := by
  intro y
  have before := tallies x
  unfold Tally.add
  rw [ExtTreeMap.getElem?_insert,List.count_append,List.count_singleton]
  by_cases same : x = y
  · subst same
    rw [before]
    by_cases none : window.count x = 0 <;> simp [none]
  · have apart : compare x y ≠ .eq := fun equal => same (LawfulEqOrd.eq_of_compare equal)
    simp [apart,same,tallies y]

theorem Tallies.drop (tallies : Tallies held (x::window)) :
    ∃ less, Tally.drop held x = some less ∧ Tallies less window := by
  have first := tallies x
  rw [List.count_cons_self] at first
  unfold Tally.drop
  cases more : window.count x with
  | zero =>
    rw [more] at first
    refine ⟨held.erase x,by simp [first],?_⟩
    intro y
    have other := tallies y
    rw [ExtTreeMap.getElem?_erase]
    by_cases same : x = y
    · subst same
      simp [more]
    · have apart : compare x y ≠ .eq := fun equal => same (LawfulEqOrd.eq_of_compare equal)
      rw [List.count_cons_of_ne same] at other
      simp [apart,other]
  | succ n =>
    rw [more] at first
    refine ⟨held.insert x (n+1),by simp [first],?_⟩
    intro y
    have other := tallies y
    rw [ExtTreeMap.getElem?_insert]
    by_cases same : x = y
    · subst same
      simp [more]
    · have apart : compare x y ≠ .eq := fun equal => same (LawfulEqOrd.eq_of_compare equal)
      rw [List.count_cons_of_ne same] at other
      simp [apart,other]

-- The entries are the distinct things of the window.
theorem Tallies.size (tallies : Tallies held window) : held.size = window.toFinset.card := by
  have same : held.keys.toFinset = window.toFinset := by
    ext y
    have entry := tallies y
    rw [List.mem_toFinset,List.mem_toFinset,ExtTreeMap.mem_keys,ExtTreeMap.mem_iff_isSome_getElem?,entry]
    by_cases none : window.count y = 0
    · simp [none,List.count_eq_zero.mp none]
    · simp [none,List.count_pos_iff.mp (Nat.pos_of_ne_zero none)]
  rw [← same,List.toFinset_card_of_nodup ExtTreeMap.nodup_keys,ExtTreeMap.length_keys]

end
end Library
