import Jojobot.Library.Fallible
import Jojobot.Library.Runs
import Jojobot.Memory.Order

namespace Memory
open Library Std

variable {keys : List Text} {place : Nat} {key : Text}

-- An insert mints its key between the two neighbours of its place.
def insertAt (keys : List Text) (place : Nat) : Except OrderError (List Text) := do
  let lower := if place = 0 then none else keys[place-1]?
  let key ← between lower keys[place]?
  pure (keys.take place ++ key :: keys.drop place)

def Inserts (before : List Text) (place : Nat) (after : List Text) : Prop :=
  place ≤ before.length ∧ insertAt before place = .ok after

-- What holds of a list whose keys were all minted in their places.
structure InOrder (keys : List Text) : Prop where
  keyed : ∀ key ∈ keys, isAKey key = true
  increasing : keys.Pairwise fun a b => compare a b = .lt

theorem empty_in_order : InOrder [] := ⟨by simp,.nil⟩

theorem neighbours_keyed (order : InOrder keys) (at' : Nat) : Keyed keys[at']? :=
  fun _ found => order.keyed _ (List.mem_of_getElem? found)

theorem lower_keyed (order : InOrder keys) : Keyed (if place = 0 then none else keys[place-1]?) := by
  split
  · exact fun _ none => by cases none
  · exact neighbours_keyed order (place-1)

theorem room_between (order : InOrder keys) : ∀ low high,
    (if place = 0 then none else keys[place-1]?) = some low → keys[place]? = some high → compare low high = .lt := by
  intro low high before after
  split at before
  · cases before
  · rename_i later
    obtain ⟨inLow,rfl⟩ := List.getElem?_eq_some_iff.mp before
    obtain ⟨inHigh,rfl⟩ := List.getElem?_eq_some_iff.mp after
    exact List.pairwise_iff_getElem.mp order.increasing _ _ _ _ (by omega)

-- Whatever stands before the place sorts no later than the lower neighbour, and
-- whatever stands from it on no earlier than the upper one.
theorem taken_under (order : InOrder keys) (within : place ≤ keys.length)
    (under : Under (if place = 0 then none else keys[place-1]?) key) : ∀ one ∈ keys.take place, compare one key = .lt := by
  intro one member
  obtain ⟨n,inTaken,rfl⟩ := List.getElem_of_mem member
  have early : n < place ∧ n < keys.length := by simpa using inTaken
  have neighbour : place - 1 < keys.length := by omega
  have beneath : compare keys[place-1] key = .lt := by
    apply under
    rw [if_neg (by omega),List.getElem?_eq_getElem neighbour]
  rw [List.getElem_take]
  by_cases last : n = place - 1
  · subst last
    exact beneath
  · exact TransCmp.lt_trans (List.pairwise_iff_getElem.mp order.increasing n (place-1) early.2 neighbour (by omega)) beneath

theorem dropped_over (order : InOrder keys) (beneath : Over keys[place]? key) : ∀ one ∈ keys.drop place, compare key one = .lt := by
  intro one member
  obtain ⟨n,inDropped,rfl⟩ := List.getElem_of_mem member
  have inKeys : place + n < keys.length := by simp at inDropped; omega
  have here : place < keys.length := by omega
  have above : compare key keys[place] = .lt := beneath _ (List.getElem?_eq_getElem here)
  rw [List.getElem_drop]
  cases n with
  | zero => exact above
  | succ n =>
    exact TransCmp.lt_trans above (List.pairwise_iff_getElem.mp order.increasing place (place+(n+1)) here inKeys (by omega))

theorem insert_minted (order : InOrder keys) (place : Nat) : ∃ key,
    between (if place = 0 then none else keys[place-1]?) keys[place]? = .ok key ∧
      insertAt keys place = .ok (keys.take place ++ key :: keys.drop place) := by
  have minted := between_ok (lower_keyed order) (neighbours_keyed order place) (room_between order)
  refine ⟨_,minted,?_⟩
  dsimp only [insertAt]
  rw [minted]
  rfl

theorem insert_in_order {after : List Text} (order : InOrder keys) (inserts : Inserts keys place after) : InOrder after := by
  obtain ⟨within,made⟩ := inserts
  obtain ⟨key,minted,same⟩ := insert_minted order place
  rw [same] at made
  cases made
  obtain ⟨isKey,under,beneath⟩ := between_key minted
  have ahead := taken_under order within under
  have behind := dropped_over order beneath
  refine ⟨?_,?_⟩
  · intro one member
    rcases List.mem_append.mp member with early | late
    · exact order.keyed one (List.mem_of_mem_take early)
    · rcases List.mem_cons.mp late with rfl | late
      · exact isKey
      · exact order.keyed one (List.mem_of_mem_drop late)
  · refine List.pairwise_append.mpr ⟨order.increasing.sublist (List.take_sublist _ _),?_,?_⟩
    · exact List.pairwise_cons.mpr ⟨behind,order.increasing.sublist (List.drop_sublist _ _)⟩
    · intro one early other late
      rcases List.mem_cons.mp late with rfl | late
      · exact ahead one early
      · exact TransCmp.lt_trans (ahead one early) (behind other late)

theorem always_room_between :
    (∀ lower upper, Keyed lower → Keyed upper →
      (∀ low high, lower = some low → upper = some high → compare low high = .lt) →
      ∃ key, between lower upper = .ok key ∧ isAKey key = true ∧ Under lower key ∧ Over upper key) ∧
    ∀ taken keys, Run Inserts [] taken keys →
      keys.Pairwise (fun a b => compare a b = .lt) ∧ ∀ place ≤ keys.length, ∃ after, insertAt keys place = .ok after := by
  constructor
  · intro lower upper below above room
    exact ⟨_,between_ok below above room,midpoint_between below above room⟩
  · intro taken keys run
    have order := (run.keeps empty_in_order insert_in_order).1
    refine ⟨order.increasing,?_⟩
    intro place _
    obtain ⟨_,_,made⟩ := insert_minted order place
    exact ⟨_,made⟩

theorem room_before_and_after_one_key :
    (∃ key, between (some "V".toList) (some "V1".toList) = .ok key ∧ isAKey key = true ∧
      Under (some "V".toList) key ∧ Over (some "V1".toList) key) ∧
    ∃ after, insertAt ["V".toList] 1 = .ok after := by
  constructor
  · refine always_room_between.1 _ _ ?_ ?_ ?_
    · intro key same
      cases same
      rfl
    · intro key same
      cases same
      rfl
    · intro low high lowIs highIs
      cases lowIs
      cases highIs
      rfl
  · have first : Inserts [] 0 ["V".toList] := ⟨Nat.le_refl _,by rfl⟩
    exact (always_room_between.2 _ _ (.step .start first)).2 1 (Nat.le_refl _)

end Memory
