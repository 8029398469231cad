import Mathlib.Logic.Function.Iterate
import Mathlib.Order.Lattice

namespace Library

variable {δ : Type} [LinearOrder δ] {occurs : δ → Prop} {first day : δ} {count : Nat}

-- The day reached from `first` over `count` occurrences, each the first one after the last.
inductive NthAfter (occurs : δ → Prop) (first : δ) : Nat → δ → Prop where
  | start : NthAfter occurs first 0 first
  | next {count : Nat} {day later : δ} : NthAfter occurs first count day → day < later → occurs later →
      (∀ between, day < between → occurs between → later ≤ between) → NthAfter occurs first (count+1) later

theorem NthAfter.occurring (reached : NthAfter occurs first count day) : day = first ∨ occurs day := by
  cases reached with
  | start => exact Or.inl rfl
  | next _ _ occurring _ => exact Or.inr occurring

-- Each day moved on to the next one that occurs, or to the last day of all where no more do.
def movedOn (next : δ → Option δ) (last day : δ) : δ := (next day).getD last

theorem nth_after_or_run_out (next : δ → Option δ) (last : δ) (ends : next last = none)
    (follows : ∀ day later, (day = first ∨ occurs day) → next day = some later →
      day < later ∧ occurs later ∧ ∀ between, day < between → occurs between → later ≤ between) (count : Nat) :
    NthAfter occurs first count ((movedOn next last)^[count] first) ∨
      (∃ reached day, reached < count ∧ NthAfter occurs first reached day ∧ next day = none) ∧
        (movedOn next last)^[count] first = last := by
  induction count with
  | zero => exact Or.inl .start
  | succ count ih =>
    rw [Function.iterate_succ_apply']
    rcases ih with reached | ⟨⟨earlier,day,less,reached,out⟩,stays⟩
    · cases found : next ((movedOn next last)^[count] first) with
      | none =>
        right
        refine ⟨⟨count,_,Nat.lt_succ_self _,reached,found⟩,?_⟩
        unfold movedOn at found ⊢
        rw [found]
        rfl
      | some later =>
        left
        obtain ⟨after,occurring,none'⟩ := follows _ _ reached.occurring found
        have moves : movedOn next last ((movedOn next last)^[count] first) = later := by
          unfold movedOn at found ⊢
          rw [found]
          rfl
        rw [moves]
        exact .next reached after occurring none'
    · right
      refine ⟨⟨earlier,day,Nat.lt_succ_of_lt less,reached,out⟩,?_⟩
      rw [stays,movedOn,ends]
      rfl

end Library
