import Mathlib.Data.Nat.Basic

namespace Library

variable {low high count fuel : Nat}

-- The search for the last place that passes between two bounds. A turn at least
-- halves what is between, so their distance is turns enough.
def bisect (passes : Nat → Bool) : Nat → Nat → Nat → Nat
  | 0,low,_ => low
  | fuel+1,low,high =>
    if low < high then
      if passes ((low+high)/2) then bisect passes fuel ((low+high)/2+1) high else bisect passes fuel low ((low+high)/2)
    else low

-- Whatever passes and fails: the place before the answer passed, and the answer failed
-- unless nothing is there.
theorem bisect_answers (passes : Nat → Bool) (enough : high-low ≤ fuel) (ordered : low ≤ high) (below : low = 0 ∨ passes (low-1) = true)
    (above : high = count ∨ passes high = false) :
    (bisect passes fuel low high = 0 ∨ passes (bisect passes fuel low high-1) = true) ∧
      (bisect passes fuel low high = count ∨ passes (bisect passes fuel low high) = false) ∧ bisect passes fuel low high ≤ high := by
  induction fuel generalizing low high with
  | zero =>
    have met : low = high := by omega
    subst met
    exact ⟨below,above,Nat.le_refl _⟩
  | succ fuel ih =>
    unfold bisect
    split
    · split
      · rename_i passed
        exact ih (by omega) (by omega) (Or.inr (by simpa using passed)) above
      · rename_i failed
        obtain ⟨first,second,third⟩ := @ih low ((low+high)/2) (by omega) (by omega) below (Or.inr (by simpa using failed))
        exact ⟨first,second,by omega⟩
    · have met : low = high := by omega
      subst met
      exact ⟨below,above,Nat.le_refl _⟩

end Library
