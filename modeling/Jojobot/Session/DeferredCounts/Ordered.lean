import Jojobot.Session.DeferredCounts.Seen

namespace Counting
open Library

variable {κ δ ω σ α : Type} {port : Port κ δ ω σ α} {counts after now : Counts κ δ ω α} {act : Act κ δ ω}
  {taken : List (Counts κ δ ω α × Act κ δ ω)}

-- Every read answered so far saw what was accepted before it was called.
def Seen (counts : Counts κ δ ω α) : Prop := ∀ one ∈ counts.answers, one.before <+: appliedIn one.log

theorem fresh_seen : Seen (fresh : Counts κ δ ω α) := by
  intro one mem
  cases mem

-- What a caller finds applied is what was accepted before it, once no such item is on the lane.
theorem prompt_iff (kept : Kept port counts) {caller : Caller κ δ} (mem : caller ∈ counts.callers) :
    (pendingIn counts.queue).length ≤ counts.accepted.length-caller.before.length ↔ caller.before <+: appliedIn counts.log := by
  have before := kept.before caller mem
  have short := before.length_le
  have lengths := congrArg List.length kept.once
  rw [List.length_append] at lengths
  constructor
  · intro few
    refine List.prefix_of_prefix_length_le before ?_ (by omega)
    rw [kept.once]
    exact List.prefix_append _ _
  · intro seen
    have most := seen.length_le
    omega

theorem inner_seen (kept : Kept port counts) {i : Nat} {caller : Caller κ δ} (found : counts.callers[i]? = some caller)
    (may : caller.phase = .settled ∨ (caller.phase = .called ∧ caller.asks.waits = false)) :
    Seen (counts.innerCall port i caller) ↔ Seen counts ∧
      (caller.asks.waits = false → (pendingIn counts.queue).length ≤ counts.accepted.length-caller.before.length) := by
  have mem := List.mem_of_getElem? found
  unfold Counts.innerCall
  cases asks : caller.asks with
  | read read =>
    simp only [Seen,List.forall_mem_append,List.forall_mem_singleton]
    refine and_congr_right fun _ => ?_
    rw [prompt_iff kept mem]
    constructor
    · exact fun seen _ => seen
    · intro seen
      cases waits : caller.asks.waits with
      | false => exact seen (by rw [← asks]; exact waits)
      | true =>
        rcases may with settled | ⟨_,not⟩
        · exact (kept.settled caller mem settled).2
        · rw [waits] at not
          cases not
  | resetServed id => simp [Seen,Ask.waits]

theorem step_seen (kept : Kept port counts) (stepped : counts.step port act = some after) :
    Seen after ↔ Seen counts ∧ Prompt counts act := by
  cases act with
  | accept item =>
    obtain rfl := Option.some.inj stepped
    simp [Seen,Counts.accept,Prompt]
  | call ask =>
    obtain rfl := Option.some.inj stepped
    simp [Seen,Prompt]
  | settle i =>
    simp only [Counts.step] at stepped
    split at stepped
    · split at stepped
      · split at stepped
        · obtain rfl := Option.some.inj stepped
          simp [Seen,Prompt]
        · obtain rfl := Option.some.inj stepped
          simp [Seen,Prompt]
      · cases stepped
    · cases stepped
  | work outcome =>
    simp only [Counts.step,Counts.apply] at stepped
    split at stepped
    · obtain rfl := Option.some.inj stepped
      simp [Seen,Prompt]
    · split at stepped
      · obtain rfl := Option.some.inj stepped
        simp [Seen,Prompt]
      · obtain rfl := Option.some.inj stepped
        simp [Seen,Prompt]
    · cases stepped
  | inner i =>
    simp only [Counts.step] at stepped
    split at stepped
    · rename_i caller found
      split at stepped
      · rename_i may
        obtain rfl := Option.some.inj stepped
        rw [inner_seen kept found may]
        simp [Prompt,found]
      · cases stepped
    · cases stepped
  | other write =>
    obtain rfl := Option.some.inj stepped
    simp [Seen,Prompt]

-- The worker goes on whatever its writes come to, until nothing is left.
theorem work_goes_on (kept : Kept port counts) {work : Work κ δ} {rest : List (Work κ δ)} (lane : counts.lane = some (work::rest)) (outcome : Outcome) :
    ∃ after, counts.step port (.work outcome) = some after ∧ after.lane = some rest ∧ after.accepted = counts.accepted := by
  cases work with
  | item item =>
    refine ⟨{ counts with lane := some rest, log := counts.log++[.applied item outcome] },?_,rfl,rfl⟩
    simp only [Counts.step,Counts.apply,lane]
  | settle i =>
    obtain ⟨caller,found,_⟩ := settled_kept kept lane
    refine ⟨{ counts with lane := some rest, callers := counts.setPhase i caller .settled },?_,rfl,rfl⟩
    simp only [Counts.step,Counts.apply,lane,found]

theorem worked_off (kept : Kept port counts) (outcomes : List Outcome) (enough : outcomes.length = counts.queue.length) :
    ∃ final, (outcomes.map Act.work).foldlM (Counts.step port) counts = some final ∧ final.accepted = counts.accepted ∧
      appliedIn final.log = counts.accepted := by
  induction outcomes generalizing counts with
  | nil =>
    have empty : counts.queue = [] := List.length_eq_zero_iff.mp enough.symm
    have once := kept.once
    rw [empty] at once
    exact ⟨counts,rfl,rfl,by simpa using once.symm⟩
  | cons outcome outcomes ih =>
    obtain ⟨lane,shape⟩ : ∃ lane, counts.lane = some lane := by
      cases none : counts.lane with
      | none => simp [Counts.queue,none] at enough
      | some lane => exact ⟨lane,rfl⟩
    cases lane with
    | nil => simp [Counts.queue,shape] at enough
    | cons work rest =>
      obtain ⟨after,stepped,left,accepted⟩ := work_goes_on kept shape outcome
      obtain ⟨final,done,same,all⟩ := ih (step_kept kept stepped) (by
        simp only [Counts.queue,shape,left,Option.getD_some,List.length_cons] at enough ⊢
        omega)
      refine ⟨final,?_,same.trans accepted,all.trans accepted⟩
      rw [List.map_cons,List.foldlM_cons,stepped]
      exact done

theorem counting_is_not_seen (run : Run (stepping port) fresh taken now) :
    (now.accepted = appliedIn now.log++pendingIn now.queue ∧
      ∀ outcomes : List Outcome, outcomes.length = now.queue.length →
        ∃ final, (outcomes.map Act.work).foldlM (Counts.step port) now = some final ∧ final.accepted = now.accepted ∧
          appliedIn final.log = now.accepted) ∧
    (∀ front id before back, now.log = front++.reset id before::back → before <+: appliedIn front) ∧
    (∀ one ∈ now.answers, one.log <+: now.log ∧ one.answer = port.read one.read (port.after one.log)) ∧
    ((∀ one ∈ now.answers, one.before <+: appliedIn one.log) ↔ ∀ one ∈ taken, Prompt one.1 one.2) := by
  have keeps : ∀ {before : Counts κ δ ω α} {act after}, Kept port before → stepping port before act after → Kept port after :=
    fun kept stepped => step_kept kept stepped
  have kept : Kept port now := (run.keeps fresh_kept keeps).1
  refine ⟨⟨kept.once,fun outcomes enough => worked_off kept outcomes enough⟩,kept.resets,?_,?_⟩
  · intro one mem
    obtain ⟨within,shows,_⟩ := kept.answers one mem
    exact ⟨within,shows⟩
  · change Seen now ↔ _
    clear kept
    induction run with
    | start => simp [fresh_seen]
    | step earlier took ih =>
      rw [step_seen (earlier.keeps fresh_kept keeps).1 took,ih]
      simp [or_imp,forall_and]

-- A port that keeps one total of all it counted.
def totalling : Port Nat Nat Unit Nat Nat where
  start := 0
  apply item outcome total :=
    match outcome,item with
    | .landed,.count _ => total+1
    | .landed,.served _ chars _ => total+chars
    | _,_ => total
  reset _ _ := 0
  other _ total := total
  read _ total := total

def servedThenTotals : List (Act Nat Nat Unit) :=
  [.accept (.served ['r'] 3 1),.call (.read .runTotals),.accept (.count 7),.settle 0,.work .landed,.work .panicked,.work .landed,.inner 0]

theorem totals_wait_for_the_lane : ∃ now, Run (stepping totalling) fresh (played (Counts.step totalling) fresh servedThenTotals) now ∧
    now.answers.map (·.answer) = [3] ∧ ∀ one ∈ now.answers, one.before <+: appliedIn one.log := by
  have run : Run (stepping totalling) fresh (played (Counts.step totalling) fresh servedThenTotals) _ :=
    Run.start.plays id servedThenTotals rfl
  exact ⟨_,run,rfl,(counting_is_not_seen run).2.2.2.mpr (by decide)⟩

def servedThenSummary : List (Act Nat Nat Unit) := [.accept (.served ['r'] 3 1),.call (.read (.summaryOf ['r'])),.inner 0]

-- The summary of one run is read around the lane, while the same run's total waits on it.
theorem a_summary_of_one_run_is_stale :
    ∃ now, Run (stepping totalling) fresh (played (Counts.step totalling) fresh servedThenSummary) now ∧
      now.answers.map (·.answer) = [0] ∧ ¬∀ one ∈ now.answers, one.before <+: appliedIn one.log := by
  refine ⟨_,Run.start.plays id servedThenSummary rfl,rfl,?_⟩
  intro seen
  have first := seen _ (List.mem_singleton.mpr rfl)
  have none := first.length_le
  revert none
  decide

end Counting
