import Jojobot.Requests.Flights

namespace Requests
open Library

variable {κ : Type}

namespace Move
variable {move : Move}

theorem leaves_unchecked (unchecked : move.reaches.unchecked) : move.leaves.unchecked := by
  revert unchecked
  cases move <;> decide

theorem reaches_unchecked (unchecked : move.leaves.unchecked) (other : move ≠ .check) : move.reaches.unchecked := by
  revert unchecked other
  cases move <;> decide

theorem reaches_holding (holding : move.reaches = .holding) : move = .acquire := by
  revert holding
  cases move <;> decide

end Move

theorem arcs_eq_zero {phase : Phase} : phase.arcs = 0 ↔ phase = .gone := by
  cases phase <;> decide

namespace Flights

variable {flights after : Flights κ} {key : κ} {act : Act κ} {move : Move} {front back : List (Call κ)} {call : Call κ}

theorem arcsOf_eq_zero {handle : Nat} : arcsOf handle call = 0 ↔ (call.handle = handle → call.phase = .gone) := by
  unfold arcsOf
  split
  · rename_i same
    simp [same,arcs_eq_zero]
  · rename_i differ
    simp [differ]

theorem idle_kept : Kept (idle κ) where
  keys := List.nodup_nil
  handles := List.nodup_nil
  made := by
    intro entry mem
    cases mem
  homed := by
    intro call mem
    cases mem
  alone := List.Pairwise.nil

theorem mem_moved {other : Call κ} (mem : other ∈ front++{ call with phase := move.reaches }::back) :
    other = { call with phase := move.reaches } ∨ other ∈ front++back := by
  simp only [List.mem_append,List.mem_cons] at mem ⊢
  tauto

theorem Kept.one_handle (kept : Kept flights) {one other : Nat} (has : (key,one) ∈ flights.held) (also : (key,other) ∈ flights.held) :
    one = other :=
  congrArg Prod.snd (List.inj_on_of_nodup_map kept.keys has also rfl)

-- The count a leaving call reads is two when everybody else of its handle is done.
theorem Kept.count_two (kept : Kept flights) (shape : flights.calls = front++call::back) (leaving : call.phase = .leaving) :
    flights.strongCount call.handle = 2 ↔ ∀ other ∈ front++back, other.handle = call.handle → other.phase = .gone := by
  have home : (call.key,call.handle) ∈ flights.held :=
    kept.homed call (by rw [shape]; simp) (by rw [leaving]; decide)
  have table : flights.held.countP (·.2 = call.handle) = 1 := by
    have once := List.count_eq_one_of_mem kept.handles (List.mem_map_of_mem (f := Prod.snd) home)
    rw [List.count,List.countP_map] at once
    convert once using 2
    ext entry
    rfl
  have own : arcsOf call.handle call = 1 := by simp [arcsOf,leaving,Phase.arcs]
  have others : flights.strongCount call.handle = 2+((front++back).map (arcsOf call.handle)).sum := by
    rw [strongCount,table,shape]
    simp only [List.map_append,List.map_cons,List.sum_append,List.sum_cons,own]
    omega
  rw [others]
  constructor
  · intro two other mem
    have none := List.sum_eq_zero_iff.mp (by omega : ((front++back).map (arcsOf call.handle)).sum = 0) _ (List.mem_map_of_mem mem)
    exact arcsOf_eq_zero.mp none
  · intro gone
    have none : ((front++back).map (arcsOf call.handle)).sum = 0 := by
      refine List.sum_eq_zero_iff.mpr ?_
      intro arcs mem
      obtain ⟨other,has,rfl⟩ := List.mem_map.mp mem
      exact arcsOf_eq_zero.mpr (gone other has)
    omega

variable [DecidableEq κ]

theorem enter_kept (kept : Kept flights) (key : κ) : Kept (flights.enter key) := by
  have quiet : ∀ handle, (flights.calls++[(⟨key,handle,.entered⟩ : Call κ)]).Pairwise fun one other =>
      one.handle = other.handle → ¬(one.phase = .holding ∧ other.phase = .holding) := by
    intro handle
    refine List.pairwise_append.mpr ⟨kept.alone,List.pairwise_singleton ..,?_⟩
    intro one _ other mem _ both
    obtain rfl := List.mem_singleton.mp mem
    cases both.2
  rcases enter_cases flights key with ⟨entry,has,rfl,shape⟩ | ⟨absent,shape⟩
  · rw [shape]
    refine ⟨kept.keys,kept.handles,kept.made,?_,quiet entry.2⟩
    intro call mem unchecked
    rcases List.mem_append.mp mem with old | new
    · exact kept.homed call old unchecked
    · obtain rfl := List.mem_singleton.mp new
      exact has
  · rw [shape]
    refine ⟨?_,?_,?_,?_,quiet flights.made⟩
    · rw [List.map_append]
      exact kept.keys.append (List.nodup_singleton _) (List.disjoint_singleton.mpr absent)
    · have unused : flights.made ∉ flights.held.map Prod.snd := by
        intro used
        obtain ⟨entry,has,same⟩ := List.mem_map.mp used
        have before := kept.made entry has
        omega
      rw [List.map_append]
      exact kept.handles.append (List.nodup_singleton _) (List.disjoint_singleton.mpr unused)
    · intro entry mem
      rcases List.mem_append.mp mem with old | new
      · exact Nat.lt_succ_of_lt (kept.made entry old)
      · obtain rfl := List.mem_singleton.mp new
        exact Nat.lt_succ_self _
    · intro call mem unchecked
      rcases List.mem_append.mp mem with old | new
      · exact List.mem_append_left _ (kept.homed call old unchecked)
      · obtain rfl := List.mem_singleton.mp new
        exact List.mem_append_right _ (List.mem_singleton.mpr rfl)

theorem cleared_sublist (flights : Flights κ) (call : Call κ) : (flights.cleared call).Sublist flights.held := by
  unfold cleared
  split
  · exact List.filter_sublist
  · exact List.Sublist.refl _

-- What is cleared is the handle of nobody who has not read the count yet.
theorem Kept.cleared_homed (kept : Kept flights) (shape : flights.calls = front++call::back) (leaving : call.phase = .leaving)
    {other : Call κ} (mem : other ∈ front++back) (unchecked : other.phase.unchecked) : (other.key,other.handle) ∈ flights.cleared call := by
  have inside : other ∈ flights.calls := by
    rw [shape]
    rcases List.mem_append.mp mem with before | behind
    · exact List.mem_append_left _ before
    · exact List.mem_append_right _ (List.mem_cons_of_mem _ behind)
  have home := kept.homed other inside unchecked
  unfold cleared
  split
  · rename_i two
    refine List.mem_filter.mpr ⟨home,?_⟩
    simp only [ne_eq,decide_eq_true_eq]
    intro same
    have own : (call.key,call.handle) ∈ flights.held :=
      kept.homed call (by rw [shape]; simp) (by rw [leaving]; decide)
    rw [same] at home
    exact unchecked.2 ((kept.count_two shape leaving).mp two other mem (kept.one_handle home own))
  · exact home

theorem move_kept (kept : Kept flights) (shape : flights.calls = front++call::back) (leaves : call.phase = move.leaves)
    (free : move = .acquire → flights.free call.handle = true) (made : after.made = flights.made)
    (held : after.held = if move = .check then flights.cleared call else flights.held)
    (calls : after.calls = front++{ call with phase := move.reaches }::back) : Kept after := by
  have fewer : after.held.Sublist flights.held := by
    rw [held]
    split
    · exact cleared_sublist flights call
    · exact List.Sublist.refl _
  have inside : ∀ other ∈ front++back, other ∈ flights.calls := by
    intro other mem
    rw [shape]
    simp only [List.mem_append,List.mem_cons] at mem ⊢
    tauto
  refine ⟨kept.keys.sublist (fewer.map _),kept.handles.sublist (fewer.map _),?_,?_,?_⟩
  · intro entry mem
    rw [made]
    exact kept.made entry (fewer.subset mem)
  · intro other mem unchecked
    rw [calls] at mem
    rcases mem_moved mem with rfl | stays
    · have before := move.leaves_unchecked unchecked
      have home := kept.homed call (by rw [shape]; simp) (by rw [leaves]; exact before)
      have notCheck : move ≠ .check := by
        rintro rfl
        exact unchecked.1 rfl
      rw [held,if_neg notCheck]
      exact home
    · rw [held]
      split
      · rename_i checks
        exact kept.cleared_homed shape (by rw [leaves,checks]; rfl) stays unchecked
      · exact kept.homed other (inside other stays) unchecked
  · have alone := kept.alone
    have nobody : ∀ other ∈ front++back, other.handle = call.handle → ¬(other.phase = .holding ∧ move.reaches = .holding) := by
      intro other mem same both
      have nobodyHolds := List.all_eq_true.mp (free (Move.reaches_holding both.2)) other (inside other mem)
      simp [same,both.1] at nobodyHolds
    rw [calls]
    rw [shape] at alone
    simp only [List.pairwise_append,List.pairwise_cons,List.forall_mem_cons] at alone ⊢
    obtain ⟨first,⟨_,second⟩,across⟩ := alone
    refine ⟨first,⟨?_,second⟩,?_⟩
    · intro other mem same both
      exact nobody other (List.mem_append_right _ mem) same.symm both.symm
    · intro other mem
      exact ⟨fun same both => nobody other (List.mem_append_left _ mem) same both,(across other mem).2⟩

theorem step_kept (kept : Kept flights) (stepped : flights.step act = some after) : Kept after := by
  rcases step_cases stepped with ⟨key,_,rfl⟩ | ⟨move,front,back,call,_,shape,leaves,free,made,held,calls⟩
  · exact enter_kept kept key
  · exact move_kept kept shape leaves free made held calls

end Flights

end Requests
