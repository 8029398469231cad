import Jojobot.Requests.Flights.Turns

namespace Requests
open Library

variable {κ : Type}

namespace Flights

variable {flights after now : Flights κ} {key : κ} {act : Act κ} {move : Move} {front back : List (Call κ)} {call : Call κ}
  {taken : List (Flights κ × Act κ)}

-- Who covers an id covers it after another call's move, and after its own short of the count.
theorem covers_after {entry : κ × Nat} (leaves : call.phase = move.leaves)
    (covered : ∃ one ∈ front++call::back, one.key = entry.1 ∧ one.phase.unchecked) (other : move = .check → call.key ≠ entry.1) :
    ∃ one ∈ front++{ call with phase := move.reaches }::back, one.key = entry.1 ∧ one.phase.unchecked := by
  obtain ⟨one,mem,same,unchecked⟩ := covered
  simp only [List.mem_append,List.mem_cons] at mem ⊢
  rcases mem with before | rfl | behind
  · exact ⟨one,Or.inl before,same,unchecked⟩
  · refine ⟨_,Or.inr (Or.inl rfl),same,?_⟩
    rw [leaves] at unchecked
    exact Move.reaches_unchecked unchecked fun checks => other checks same
  · exact ⟨one,Or.inr (Or.inr behind),same,unchecked⟩

variable [DecidableEq κ]

theorem enter_covered (covered : Covered flights) (key : κ) : Covered (flights.enter key) := by
  rcases enter_cases flights key with ⟨entry,_,_,shape⟩ | ⟨_,shape⟩
  · rw [shape]
    intro one mem
    obtain ⟨call,has,facts⟩ := covered one mem
    exact ⟨call,List.mem_append_left _ has,facts⟩
  · rw [shape]
    intro one mem
    rcases List.mem_append.mp mem with old | new
    · obtain ⟨call,has,facts⟩ := covered one old
      exact ⟨call,List.mem_append_left _ has,facts⟩
    · obtain rfl := List.mem_singleton.mp new
      exact ⟨_,List.mem_append_right _ (List.mem_singleton.mpr rfl),rfl,by simp [Phase.unchecked]⟩

theorem check_covered (kept : Kept flights) (covered : Covered flights) (shape : flights.calls = front++call::back)
    (leaving : call.phase = .leaving)
    (onTime : (∃ other ∈ front++back, other.handle = call.handle ∧ other.phase.unchecked) ∨
      ∀ other ∈ front++back, other.handle = call.handle → other.phase ≠ .checked) {entry : κ × Nat}
    (mem : entry ∈ flights.cleared call) :
    ∃ one ∈ front++{ call with phase := Move.check.reaches }::back, one.key = entry.1 ∧ one.phase.unchecked := by
  have had : entry ∈ flights.held := (cleared_sublist flights call).subset mem
  have before := covered entry had
  rw [shape] at before
  by_cases own : call.key = entry.1
  · -- The id stays, so the count was not two: somebody else still holds the handle.
    have home : (call.key,call.handle) ∈ flights.held :=
      kept.homed call (by rw [shape]; simp) (by rw [leaving]; decide)
    have unread : ∃ other ∈ front++back, other.handle = call.handle ∧ other.phase.unchecked := by
      rcases onTime with found | done
      · exact found
      · by_contra nobody
        have two := (kept.count_two shape leaving).mpr (by
          intro other inside same
          by_contra notGone
          exact nobody ⟨other,inside,same,done other inside same,notGone⟩)
        rw [cleared,if_pos two] at mem
        simpa [own] using (List.mem_filter.mp mem).2
    obtain ⟨other,inside,same,unchecked⟩ := unread
    have otherHome : (other.key,other.handle) ∈ flights.held := by
      refine kept.homed other ?_ unchecked
      rw [shape]
      simp only [List.mem_append,List.mem_cons] at inside ⊢
      tauto
    rw [same] at otherHome
    have sameKey : other.key = call.key :=
      congrArg Prod.fst (List.inj_on_of_nodup_map kept.handles otherHome home rfl)
    refine ⟨other,?_,sameKey.trans own,unchecked⟩
    simp only [List.mem_append,List.mem_cons] at inside ⊢
    tauto
  · have leaves : call.phase = Move.check.leaves := leaving
    exact covers_after leaves before fun _ => own

theorem step_covered (kept : Kept flights) (covered : Covered flights) (stepped : flights.step act = some after)
    (onTime : OnTime flights act) : Covered after := by
  rcases step_cases stepped with ⟨key,_,rfl⟩ | ⟨move,front,back,call,rfl,shape,leaves,_,_,held,calls⟩
  · exact enter_covered covered key
  · intro entry mem
    rw [held] at mem
    rw [calls]
    by_cases checks : move = .check
    · subst checks
      rw [if_pos rfl] at mem
      have met := onTime call (by rw [shape]; simp)
      rw [shape,List.eraseIdx_append_of_length_le (Nat.le_refl _)] at met
      simp only [Nat.sub_self,List.eraseIdx_cons_zero] at met
      exact check_covered kept covered shape leaves met mem
    · rw [if_neg checks] at mem
      have before := covered entry mem
      rw [shape] at before
      exact covers_after leaves before fun is => (checks is).elim

theorem enter_shares (kept : Kept flights) (mem : call ∈ flights.calls) (unchecked : call.phase.unchecked) :
    (flights.enter call.key).calls = flights.calls++[⟨call.key,call.handle,.entered⟩] := by
  have home := kept.homed call mem unchecked
  rcases enter_cases flights call.key with ⟨entry,has,same,shape⟩ | ⟨absent,_⟩
  · have there : (call.key,entry.2) ∈ flights.held := by
      rw [← same]
      exact has
    have handle : entry.2 = call.handle := kept.one_handle there home
    rw [shape,handle]
  · exact (absent (List.mem_map.mpr ⟨_,home,rfl⟩)).elim

theorem one_call_at_a_time_holds_the_turn (run : Run stepping (idle κ) taken now) :
    (now.calls.Pairwise fun one other => one.key = other.key → ¬(one.phase = .holding ∧ other.phase = .holding)) ∧
      (∀ call ∈ now.calls, call.phase = .waiting ∨ call.phase = .holding →
        (now.enter call.key).calls = now.calls++[⟨call.key,call.handle,.entered⟩]) ∧
      ((∀ one ∈ taken, OnTime one.1 one.2) → (∀ call ∈ now.calls, call.phase = .gone) → now.held = []) := by
  have keeps : ∀ {before : Flights κ} {act after}, Kept before → stepping before act after → Kept after :=
    fun kept stepped => step_kept kept stepped
  have kept : Kept now := (run.keeps idle_kept keeps).1
  refine ⟨?_,?_,?_⟩
  · refine kept.alone.imp_of_mem ?_
    intro one other mem mem' alone same both
    have home := kept.homed one mem (by rw [both.1]; decide)
    have home' := kept.homed other mem' (by rw [both.2]; decide)
    rw [same] at home
    exact alone (kept.one_handle home home') both
  · intro call mem inside
    refine enter_shares kept mem ?_
    rcases inside with waiting | holding
    · rw [waiting]
      decide
    · rw [holding]
      decide
  · intro met done
    have nothing : Covered (idle κ) := by
      intro entry mem
      cases mem
    have covered : Covered now :=
      (run.strong_of_meets OnTime idle_kept nothing keeps
        (fun kept covered stepped onTime => step_covered kept covered stepped onTime) met).1
    refine List.eq_nil_iff_forall_not_mem.mpr ?_
    intro entry mem
    obtain ⟨call,has,_,unchecked⟩ := covered entry mem
    exact unchecked.2 (done call has)

def oneAfterTheOther : List (Act Nat) :=
  [.enter 7,.move .wait 0,.move .acquire 0,.enter 7,.move .wait 1,.move .release 0,.move .check 0,.move .acquire 1,.move .letGo 0,
    .move .release 1,.move .check 1,.move .letGo 1]

theorem a_call_after_another_clears_the_table :
    ∃ now, Run stepping (idle Nat) (played step (idle Nat) oneAfterTheOther) now ∧ now.calls.length = 2 ∧ now.held = [] := by
  have run : Run stepping (idle Nat) (played step (idle Nat) oneAfterTheOther) ⟨[],[⟨7,0,.gone⟩,⟨7,0,.gone⟩],1⟩ :=
    Run.start.plays id oneAfterTheOther rfl
  have cleared := (one_call_at_a_time_holds_the_turn run).2.2 (by decide) (by simp)
  exact ⟨_,run,rfl,cleared⟩

-- The holder's drop and that of a call that gave up each read the other's handle in the count.
def bothAtOnce : List (Act Nat) :=
  [.enter 7,.move .wait 0,.move .acquire 0,.enter 7,.move .wait 1,.move .giveUp 1,.move .release 0,.move .check 0,.move .check 1,
    .move .letGo 0,.move .letGo 1]

theorem two_calls_ending_together_leave_the_id :
    ∃ now, Run stepping (idle Nat) (played step (idle Nat) bothAtOnce) now ∧ (∀ call ∈ now.calls, call.phase = .gone) ∧ now.held ≠ [] :=
  ⟨⟨[(7,0)],[⟨7,0,.gone⟩,⟨7,0,.gone⟩],1⟩,Run.start.plays id bothAtOnce rfl,by simp,by simp⟩

end Flights

end Requests
