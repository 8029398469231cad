import Mathlib.Init

namespace Library

variable {ε α β : Type} {first : Except ε α} {rest : α → Except ε β} {why : ε} {last : β}

theorem bind_ok : (first >>= rest) = .ok last ↔ ∃ value, first = .ok value ∧ rest value = .ok last := by
  constructor
  · intro both
    cases first with
    | error why => cases both
    | ok value => exact ⟨value,rfl,both⟩
  · intro both
    obtain ⟨value,same,later⟩ := both
    subst same
    exact later

theorem bind_error : (first >>= rest) = .error why ↔
    first = .error why ∨ ∃ value, first = .ok value ∧ rest value = .error why := by
  constructor
  · intro either
    cases first with
    | error refused =>
      cases either
      exact Or.inl rfl
    | ok value => exact Or.inr ⟨value,rfl,either⟩
  · intro either
    rcases either with refused | later
    · subst refused
      rfl
    · obtain ⟨value,same,later⟩ := later
      subst same
      exact later

end Library
