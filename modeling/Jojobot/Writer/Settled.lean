import Jojobot.Writer
import Mathlib

namespace Writer
open Library

variable {write before after now : Write} {native : Native} {phase : Phase} {answer : Answer} {act : Act} {taken : List (Write × Act)}

namespace Native

@[simp] theorem setPhase_other (other : phase ≠ .beforeCommit) : (native.setPhase phase).phase = phase := by
  simp [setPhase,other]

@[simp] theorem setPhase_before : (native.setPhase .beforeCommit).phase = if native.phase = .committed then .committed else .beforeCommit := by
  unfold setPhase
  by_cases committed : native.phase = .committed <;> simp [committed]

theorem reader_phase : native.reader.phase = if native.phase = .inProcess then .beforeCommit else native.phase := by
  unfold reader
  split
  · rename_i fresh
    simp [fresh]
  · rfl

theorem storeError_phase (answered : Bool) : (native.storeError answered).1.phase =
    if native.phase = .inFlight ∧ answered = true then .beforeCommit else native.phase := by
  unfold storeError
  cases answered <;> by_cases flying : native.phase = .inFlight <;> by_cases unknown : native.phase = .unknown <;> simp_all

end Native

namespace Write

@[simp] theorem setPhase_landed : (write.setPhase phase).landed ↔ write.landed := Iff.rfl
@[simp] theorem setPhase_reported : (write.setPhase phase).reported = write.reported := rfl
@[simp] theorem setPhase_connections : (write.setPhase phase).connections = write.connections := rfl

@[simp] theorem setPhase_other (other : phase ≠ .beforeCommit) : (write.setPhase phase).phase = phase :=
  Native.setPhase_other other

@[simp] theorem setPhase_before : (write.setPhase .beforeCommit).phase = if write.phase = .committed then .committed else .beforeCommit :=
  Native.setPhase_before

@[simp] theorem sent_phase (statements : Nat) : (write.sent statements answer).phase = write.phase := by
  cases answer <;> rfl

@[simp] theorem sent_reported (statements : Nat) : (write.sent statements answer).reported = write.reported := by
  cases answer <;> rfl

@[simp] theorem sent_connections (statements : Nat) : (write.sent statements answer).connections = write.connections := by
  cases answer <;> rfl

theorem sent_one_landed : (write.sent 1 answer).landed ↔ write.landed ∨ answer = .done ∨ answer = .lost := by
  cases answer <;> simp [sent,landed]

end Write

-- Nothing has been sent while the phase is the first one, and no connection is held.
def Ready (write : Write) : Prop := write.phase = .inProcess → write.connections = 0 ∧ ¬write.landed

-- Where the phase is past the first one, readiness says nothing.
theorem ready_past (past : write.phase ≠ .inProcess) : Ready write := fun first => (past first).elim

theorem kept_unreported (unreported : write.reported = none) : Kept write ↔ (write.phase = .beforeCommit → ¬write.landed) := by
  constructor
  · exact Kept.before
  · intro quiet
    refine ⟨quiet,?_⟩
    intro error reported
    rw [unreported] at reported
    cases reported

-- Setting the phase back tells the truth unless something landed that it did not say.
theorem set_back (unreported : write.reported = none) :
    Kept (write.setPhase .beforeCommit) ↔ (write.landed → write.phase = .committed) := by
  have quiet : (write.setPhase .beforeCommit).reported = none := unreported
  rw [kept_unreported quiet]
  simp only [Write.setPhase_before,Write.setPhase_landed]
  by_cases committed : write.phase = .committed <;> simp [committed]

-- A phase that is not the one before the commit promises nothing.
theorem kept_past (unreported : write.reported = none) (past : write.phase ≠ .beforeCommit) : Kept write := by
  rw [kept_unreported unreported]
  intro back
  exact (past back).elim

namespace Write

theorem commit_facts (write : Write) (i statements : Nat) (answer : Answer) :
    (write.commit i statements answer).reported = write.reported ∧ (write.commit i statements answer).phase ≠ .beforeCommit ∧
      (write.commit i statements answer).phase ≠ .inProcess := by
  cases answer <;> simp [commit]

theorem execute_facts (write : Write) (sent : answer ≠ .unsent) : (write.execute answer).reported = write.reported ∧
    (write.execute answer).phase ≠ .beforeCommit ∧ (write.execute answer).phase ≠ .inProcess := by
  cases answer with
  | unsent => exact (sent rfl).elim
  | _ => simp [execute]

end Write

theorem begin_kept (unreported : write.reported = none) : Kept (write.begin answer) ↔ Follows write (.begin answer) := by
  have back := set_back unreported
  cases answer with
  | done =>
    refine Iff.trans ?_ back
    rw [kept_unreported (show (write.begin .done).reported = none from unreported),
      kept_unreported (show (write.setPhase .beforeCommit).reported = none from unreported)]
    exact Iff.rfl
  | _ => exact back

theorem acquire_kept (unreported : write.reported = none) : Kept (write.acquire answer) ↔ Follows write (.acquire answer) := by
  have back := set_back unreported
  cases answer with
  | done =>
    have past : Kept (write.acquire .done) := kept_past unreported (by simp [Write.acquire])
    simp [past,Follows]
  | _ => simpa [Write.acquire,Follows] using back

theorem execute_kept (unreported : write.reported = none) : Kept (write.execute answer) ↔ Follows write (.execute answer) := by
  by_cases sent : answer = .unsent
  · subst sent
    simpa [Write.execute,Follows] using set_back unreported
  · obtain ⟨reported,before,_⟩ := write.execute_facts sent
    have past : Kept (write.execute answer) := kept_past (reported.trans unreported) before
    simp [past,Follows,sent]

theorem onConnection_kept (kept : Kept write) (unreported : write.reported = none) :
    Kept (write.sent 1 answer) ↔ Follows write (.onConnection answer) := by
  have quiet : (write.sent 1 answer).reported = none := by simpa using unreported
  rw [kept_unreported quiet,Write.sent_one_landed,Write.sent_phase]
  have before := kept.before
  simp only [Follows]
  tauto

theorem storeError_kept (kept : Kept write) (unreported : write.reported = none) (answered : Bool) :
    Kept { write with native := (write.native.storeError answered).1 } ↔ Follows write (.storeError answered) := by
  have quiet : ({ write with native := (write.native.storeError answered).1 } : Write).reported = none := unreported
  rw [kept_unreported quiet]
  have before := kept.before
  simp only [Write.phase,Native.storeError_phase,Follows,Write.landed] at before ⊢
  by_cases flying : write.native.phase = .inFlight ∧ answered = true
  · simp [flying]
  · rw [if_neg flying]
    tauto

theorem finish_kept (kept : Kept write) (result : Option Error) :
    Kept { write with reported := some (write.guarded result) } ↔ Follows write (.finish result) := by
  constructor
  · rintro held rfl
    exact held.reported .domain rfl (by decide)
  · intro follows
    refine ⟨kept.before,?_⟩
    intro error reported definite
    simp only [Option.some.injEq,Write.guarded] at reported
    split at reported
    · rename_i passed
      subst reported
      cases error with
      | domain => exact follows rfl
      | indeterminate => exact (definite rfl).elim
      | store => exact kept.before (by simpa [Error.unknown] using passed)
    · cases reported
      exact (definite rfl).elim

theorem set_back_past : (write.setPhase .beforeCommit).phase ≠ .inProcess := by
  rw [Write.setPhase_before]
  split <;> simp

theorem step_ready (ready : Ready write) (stepped : write.step act = some after) : Ready after := by
  unfold Write.step at stepped
  split at stepped
  · cases act with
    | refuse =>
      simp only [Write.act] at stepped
      split at stepped
      · obtain rfl := Option.some.inj stepped
        exact ready
      · cases stepped
    | read =>
      obtain rfl := Option.some.inj stepped
      apply ready_past
      simp only [Write.phase,Native.reader_phase]
      split
      · simp
      · assumption
    | begin answer =>
      obtain rfl := Option.some.inj stepped
      cases answer <;> exact ready_past set_back_past
    | inTransaction i answer =>
      obtain ⟨n,_,rfl⟩ := Option.map_eq_some_iff.mp stepped
      exact ready
    | commit i answer =>
      obtain ⟨n,_,rfl⟩ := Option.map_eq_some_iff.mp stepped
      exact ready_past (write.commit_facts i n answer).2.2
    | rollback i =>
      obtain ⟨n,_,rfl⟩ := Option.map_eq_some_iff.mp stepped
      exact ready
    | acquire answer =>
      obtain rfl := Option.some.inj stepped
      cases answer with
      | done => exact ready_past (by simp [Write.acquire])
      | _ => exact ready_past set_back_past
    | onConnection answer =>
      simp only [Write.act] at stepped
      split at stepped
      · rename_i held
        obtain rfl := Option.some.inj stepped
        apply ready_past
        rw [Write.sent_phase]
        intro first
        exact Nat.ne_of_gt held (ready first).1
      · cases stepped
    | release =>
      simp only [Write.act] at stepped
      split at stepped
      · rename_i held
        obtain rfl := Option.some.inj stepped
        exact ready_past fun first => Nat.ne_of_gt held (ready first).1
      · cases stepped
    | execute answer =>
      obtain rfl := Option.some.inj stepped
      by_cases sent : answer = .unsent
      · subst sent
        exact ready_past set_back_past
      · exact ready_past (write.execute_facts sent).2.2
    | executeMany =>
      obtain rfl := Option.some.inj stepped
      exact ready_past (by simp [Write.executeMany])
    | storeError answered =>
      obtain rfl := Option.some.inj stepped
      intro first
      simp only [Write.phase,Native.storeError_phase] at first
      split at first
      · cases first
      · exact ready first
    | finish result =>
      obtain rfl := Option.some.inj stepped
      exact ready
  · cases stepped

theorem step_kept (ready : Ready write) (kept : Kept write) (stepped : write.step act = some after) :
    Kept after ↔ Follows write act := by
  unfold Write.step at stepped
  split at stepped
  · rename_i unreported
    cases act with
    | refuse =>
      simp only [Write.act] at stepped
      split at stepped
      · rename_i fresh
        obtain rfl := Option.some.inj stepped
        subst fresh
        exact iff_of_true ⟨by decide,fun _ _ _ => by decide⟩ trivial
      · cases stepped
    | read =>
      obtain rfl := Option.some.inj stepped
      have fresh : write.phase = .inProcess → ¬write.landed := fun first => (ready first).2
      have before := kept.before
      have quiet : ({ write with native := write.native.reader } : Write).reported = none := unreported
      rw [kept_unreported quiet]
      simp only [Write.phase,Native.reader_phase,Write.landed,Follows,iff_true] at fresh before ⊢
      split
      · rename_i first
        exact fun _ => fresh first
      · exact before
    | begin answer =>
      obtain rfl := Option.some.inj stepped
      exact begin_kept unreported
    | inTransaction i answer =>
      obtain ⟨n,_,rfl⟩ := Option.map_eq_some_iff.mp stepped
      exact iff_of_true ⟨kept.before,kept.reported⟩ trivial
    | commit i answer =>
      obtain ⟨n,_,rfl⟩ := Option.map_eq_some_iff.mp stepped
      obtain ⟨reported,before,_⟩ := write.commit_facts i n answer
      simpa [Follows] using kept_past (reported.trans unreported) before
    | rollback i =>
      obtain ⟨n,_,rfl⟩ := Option.map_eq_some_iff.mp stepped
      exact iff_of_true ⟨kept.before,kept.reported⟩ trivial
    | acquire answer =>
      obtain rfl := Option.some.inj stepped
      exact acquire_kept unreported
    | onConnection answer =>
      simp only [Write.act] at stepped
      split at stepped
      · obtain rfl := Option.some.inj stepped
        exact onConnection_kept kept unreported
      · cases stepped
    | release =>
      simp only [Write.act] at stepped
      split at stepped
      · obtain rfl := Option.some.inj stepped
        exact iff_of_true ⟨kept.before,kept.reported⟩ trivial
      · cases stepped
    | execute answer =>
      obtain rfl := Option.some.inj stepped
      exact execute_kept unreported
    | executeMany =>
      obtain rfl := Option.some.inj stepped
      simpa [Follows] using kept_past (show write.executeMany.reported = none from unreported) (by simp [Write.executeMany])
    | storeError answered =>
      obtain rfl := Option.some.inj stepped
      exact storeError_kept kept unreported answered
    | finish result =>
      obtain rfl := Option.some.inj stepped
      exact finish_kept kept result
  · cases stepped

theorem reported_not_done_has_not_been_done (run : Run stepping started taken now) :
    ((∀ one ∈ taken, Kept one.1) ∧ Kept now) ↔ ∀ one ∈ taken, Follows one.1 one.2 := by
  have ready : Ready started := fun _ => by decide
  have first : Kept started := ⟨by decide,fun _ _ _ => by decide⟩
  exact run.always_iff Follows ready first (fun ready stepped => step_ready ready stepped) (fun _ kept => kept)
    (fun ready kept stepped held => (step_kept ready kept stepped).mp held)
    (fun ready kept stepped follows => (step_kept ready kept stepped).mpr follows)

-- A transaction whose second statement is refused, rolled back with the first.
def rolledBack : List Act := [.read,.begin .done,.inTransaction 0 .done,.inTransaction 0 .refused,.storeError true,.rollback 0,
  .finish (some .store)]

theorem a_rolled_back_write_is_not_done : ∃ now, Run stepping started (played Write.step started rolledBack) now ∧
    ((played Write.step started rolledBack).any fun one => one.1.transactions = [1]) ∧
    now.reported = some (some .store) ∧ ¬now.landed := by
  have run : Run stepping started (played Write.step started rolledBack) _ := Run.start.plays id rolledBack rfl
  have kept := ((reported_not_done_has_not_been_done run).mpr (by decide)).2
  exact ⟨_,run,rfl,rfl,kept.reported .store rfl (by decide)⟩

-- A second statement is refused after the first one landed, and the whole is called not done.
def refusedAfterOne : List Act := [.execute .done,.execute .refused,.storeError true,.finish (some .store)]

theorem a_second_refusal_hides_the_first_statement :
    ∃ now, Run stepping started (played Write.step started refusedAfterOne) now ∧
      now.reported = some (some .store) ∧ now.phase = .beforeCommit ∧ now.committed = 1 :=
  ⟨_,Run.start.plays id refusedAfterOne rfl,rfl,rfl,rfl⟩

end Writer
