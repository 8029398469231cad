import Jojobot.Memory.Order

namespace Memory
open Library Std

variable {a b : Text} {d : Char} {lower upper : Option Text} {count : Nat}

theorem midpointAbove_length (a : Text) : (midpointAbove a).length ≤ a.length+1 := by
  induction a with
  | nil => simp [midpointAbove]
  | cons c rest ih =>
    rw [midpointAbove]
    split
    · simp
    · simpa using ih

theorem midpointApart_length (a b : Text) (d : Char) :
    (midpointApart a (d::b)).length ≤ max a.length (d::b).length+1 := by
  have rest := midpointAbove_length a.tail
  simp only [List.length_tail] at rest
  rw [midpointApart_cons]
  split
  · simp
  · split
    · simp
    · simp only [List.length_cons]
      omega

-- A minted key is at most one digit longer than the longer of its bounds.
theorem midpoint_length (key : isAKey b = true) (less : compare a b = .lt) :
    (midpoint a (some b)).length ≤ max a.length b.length+1 := by
  induction b generalizing a with
  | nil => cases key
  | cons d b ih =>
    rw [midpoint_cons]
    split
    · rename_i heads
      obtain ⟨tailKey,tailLess⟩ := key_goes_on key less heads
      have rest := ih tailKey tailLess
      simp only [List.length_tail] at rest
      simp only [List.length_cons]
      omega
    · exact midpointApart_length a b d

def boundLength (bound : Option Text) : Nat := (bound.getD []).length

theorem between_length (below : Keyed lower) (above : Keyed upper)
    (room : ∀ low high, lower = some low → upper = some high → compare low high = .lt) :
    (midpoint (lower.getD []) upper).length ≤ max (boundLength lower) (boundLength upper)+1 := by
  cases upper with
  | none =>
    have grown := midpointAbove_length (lower.getD [])
    simpa [boundLength,midpoint] using grown
  | some high =>
    have key := above high rfl
    have less : compare (lower.getD []) high = .lt := by
      cases lower with
      | none =>
        obtain ⟨c,rest,rfl⟩ := List.exists_cons_of_ne_nil (isAKey_iff.mp key).1
        rfl
      | some low => exact room low high rfl rfl
    exact midpoint_length key less

-- Half as many keys are one level less.
theorem halves_log {half : Nat} (some' : 0 < half) (halved : half ≤ count/2) : Nat.log 2 half+1 ≤ Nat.log 2 count := by
  have more : 0 < Nat.log 2 count := Nat.log_pos (by omega) (by omega)
  have level := Nat.log_mono_right (b := 2) halved
  rw [Nat.log_div_base] at level
  omega

-- Each half is minted between bounds one digit longer at most, and has one level less.
theorem spreadFrom_short {fuel : Nat} {keys : List Text} (enough : count ≤ fuel) (below : Keyed lower) (above : Keyed upper)
    (room : ∀ low high, lower = some low → upper = some high → compare low high = .lt)
    (ran : spreadFrom fuel lower upper count = .ok keys) :
    ∀ key ∈ keys, key.length ≤ max (boundLength lower) (boundLength upper)+Nat.log 2 count+1 := by
  induction fuel generalizing lower upper count keys with
  | zero =>
    rw [spreadFrom] at ran
    cases ran
    simp
  | succ fuel ih =>
    cases count with
    | zero =>
      rw [spreadFrom] at ran
      · cases ran
        simp
      · simp
    | succ count =>
      have minted := between_ok below above room
      obtain ⟨isKey,under,beneath⟩ := between_key minted
      have grown := between_length below above room
      generalize midpoint (lower.getD []) upper = middle at minted isKey under beneath grown
      have keyed : Keyed (some middle) := fun key same => by cases same; exact isKey
      have few : (count+1)/2 ≤ fuel ∧ count+1-(count+1)/2-1 ≤ fuel := by omega
      have roomFirst : ∀ low high, lower = some low → some middle = some high → compare low high = .lt :=
        fun low high lowIs highIs => by cases highIs; exact under low lowIs
      have roomRest : ∀ low high, some middle = some low → upper = some high → compare low high = .lt :=
        fun low high lowIs highIs => by cases lowIs; exact beneath high highIs
      obtain ⟨firsts,first,firstLength,_⟩ := spreadFrom_keys few.1 below keyed roomFirst
      obtain ⟨rests,rest,restLength,_⟩ := spreadFrom_keys few.2 keyed above roomRest
      have shortFirst := ih few.1 below keyed roomFirst first
      have shortRest := ih few.2 keyed above roomRest rest
      rw [spreadFrom,minted] at ran
      simp only [bind,Except.bind,first,rest] at ran
      cases ran
      have middleLength : boundLength (some middle) = middle.length := rfl
      intro key member
      rcases List.mem_append.mp member with member | member
      · have level := @halves_log (count+1) firsts.length (List.length_pos_of_mem member) (by omega)
        have short := shortFirst key member
        rw [firstLength] at level
        omega
      · rcases List.mem_cons.mp member with rfl | member
        · omega
        · have level := @halves_log (count+1) rests.length (List.length_pos_of_mem member) (by omega)
          have short := shortRest key member
          rw [restLength] at level
          omega

theorem a_spread_is_ordered_and_short (below : Keyed lower) (above : Keyed upper)
    (room : ∀ low high, lower = some low → upper = some high → compare low high = .lt) (count : Nat) :
    ∃ keys, spread lower upper count = .ok keys ∧ keys.length = count ∧
      keys.Pairwise (fun a b => compare a b = .lt) ∧
      (∀ key ∈ keys, isAKey key = true ∧ Under lower key ∧ Over upper key) ∧
      ∀ key ∈ keys, key.length ≤ max (boundLength lower) (boundLength upper)+Nat.log 2 count+1 := by
  obtain ⟨keys,ran,length,order,bounds⟩ := spreadFrom_keys (Nat.le_refl count) below above room
  exact ⟨keys,ran,length,order,bounds,spreadFrom_short (Nat.le_refl count) below above room ran⟩

theorem a_spread_of_three : ∃ keys, spread (some "5".toList) (some "6".toList) 3 = .ok keys ∧ keys.length = 3 ∧
    ∀ key ∈ keys, key.length ≤ 3 := by
  have keyed (c : Char) (solid : isAKey [c] = true) : Keyed (some [c]) := fun key same => by cases same; exact solid
  obtain ⟨keys,ran,length,_,_,short⟩ := a_spread_is_ordered_and_short (keyed '5' (by decide)) (keyed '6' (by decide))
    (by intro low high lowIs highIs; cases lowIs; cases highIs; rfl) 3
  exact ⟨keys,ran,length,short⟩

end Memory
