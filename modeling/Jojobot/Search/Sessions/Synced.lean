import Jojobot.Search.Sessions.Followed

namespace Search
open Library Memory

variable {W Columns Marks : Type} [DecidableEq Columns] [DecidableEq Marks] {engine : Batching W Term Document}
  {mirror sessions : List (Session Columns Marks)} {index now : Index W Columns Marks} {docs : List Document} {faults : Faults}

section
variable (before : Reading mirror) (reading : Reading sessions)
  (still : (movedSessions mirror sessions).rewrite.length + (movedSessions mirror sessions).evict.length = 0)
include before reading still

omit before reading in
theorem unmoved_ops : callOps mirror sessions = [] := by
  have none : (movedSessions mirror sessions).rewrite = [] ∧ (movedSessions mirror sessions).evict = [] := by
    simpa using still
  simp [callOps,none.1,none.2]

theorem unmoved_meets : Meets mirror sessions := by
  have same : ∀ session ∈ sessions, ∀ old ∈ mirror, old.id = session.id → old = session := by
    intro session has old there named
    have none : (movedSessions mirror sessions).rewrite = [] := by
      have both : (movedSessions mirror sessions).rewrite = [] ∧ (movedSessions mirror sessions).evict = [] := by
        simpa using still
      exact both.1
    rw [rewrite_eq] at none
    have kept : sessionsById mirror session.id = some session := by
      simpa using List.filter_eq_nil_iff.mp none session has
    have found := (sessionsById_some before.runs).mpr ⟨there,named⟩
    exact Option.some.inj (found.symm.trans kept)
  refine ⟨?_,?_⟩
  · intro old has session there named _ entry _ _
    rw [same session there old has named]
  · intro front taker back shape giver late old has named entry own was held beat
    have listed : giver ∈ sessions := by simp [shape,late]
    cases same giver listed old has named
    exact (others_without reading shape own).2 giver late was held beat

end

def Index.committed (engine : Batching W Term Document) (index : Index W Columns Marks) : List Document := engine.read index.writer

-- What holds of the index whatever was read, and what a reading that meets the
-- source's assumptions adds to it.
structure Kept (engine : Batching W Term Document) (index : Index W Columns Marks) : Prop where
  reading : Reading index.sessions
  bound : index.owed ≤ index.commits + 1
  seen : index.owed = 0 → index.reader = index.committed engine
  clean : (engine.pending index.writer).Perm (index.committed engine)

def Synced (engine : Batching W Term Document) (index : Index W Columns Marks) : Prop :=
  (index.committed engine).Perm (documents index.sessions)

omit [DecidableEq Columns] [DecidableEq Marks] in
theorem reload_frame : (reloadReader engine faults index).1.writer = index.writer ∧
    (reloadReader engine faults index).1.sessions = index.sessions := by
  unfold reloadReader
  split <;> exact ⟨rfl,rfl⟩

omit [DecidableEq Columns] [DecidableEq Marks] in
theorem reload_committed : (reloadReader engine faults index).1.committed engine = index.committed engine :=
  congrArg engine.read reload_frame.1

omit [DecidableEq Columns] [DecidableEq Marks] in
theorem reload_kept (reading : Reading index.sessions) (bound : index.owed ≤ index.commits + 1)
    (clean : (engine.pending index.writer).Perm (index.committed engine)) : Kept engine (reloadReader engine faults index).1 := by
  unfold reloadReader
  split
  · refine ⟨reading,?_,?_,clean⟩
    · simpa [settle] using bound
    · intro settled
      simp [settle] at settled
  · refine ⟨reading,?_,fun _ => rfl,clean⟩
    simp only [settle]
    split
    · contradiction
    · split
      · exact Nat.zero_le _
      · exact bound

omit [DecidableEq Columns] [DecidableEq Marks] in
theorem reload_shown (told : (reloadReader engine faults index).2 = .ok ()) :
    (reloadReader engine faults index).1.reader = index.committed engine := by
  unfold reloadReader at told ⊢
  split at told
  · cases told
  · rfl

structure Call (Columns Marks : Type) where
  faults : Faults
  sessions : List (Session Columns Marks)

def Call.run (engine : Batching W Term Document) (call : Call Columns Marks) (index : Index W Columns Marks) :
    Index W Columns Marks × Except Text Nat :=
  ingestSessionsChanges engine call.faults index call.sessions

-- A call none of whose writes fails, and whose commit does not.
def Lands (index : Index W Columns Marks) (call : Call Columns Marks) : Prop :=
  (∀ n < (callOps index.sessions call.sessions).countP Staged.adds, call.faults.write n = none) ∧ call.faults.commit = none

def Call.Still (call : Call Columns Marks) (index : Index W Columns Marks) : Prop :=
  (movedSessions index.sessions call.sessions).rewrite.length + (movedSessions index.sessions call.sessions).evict.length = 0

variable {call : Call Columns Marks}

theorem still_run (still : call.Still index) : call.run engine index =
    if index.owed ≠ 0 then
      ((reloadReader engine call.faults index).1,(reloadReader engine call.faults index).2.map fun _ => 0)
    else (index,.ok 0) := if_pos still

theorem moved_run (moved : ¬ call.Still index) : call.run engine index =
    match stageSessions engine call.faults index.writer index.sessions call.sessions >>= commitOrRollback engine call.faults with
    | .error (why,writer) => ({ index with writer },.error why)
    | .ok writer =>
      ((reloadReader engine call.faults { index with writer,sessions := call.sessions,commits := index.commits + 1 }).1,
        (reloadReader engine call.faults { index with writer,sessions := call.sessions,commits := index.commits + 1 }).2.map
          fun _ => (movedSessions index.sessions call.sessions).rewrite.length +
            (movedSessions index.sessions call.sessions).evict.length) :=
  if_neg moved

theorem run_still (engine : Batching W Term Document) (still : call.Still index) :
    (call.run engine index).1 = (if index.owed ≠ 0 then (reloadReader engine call.faults index).1 else index) ∧
      ((call.run engine index).2.isOk → index.owed ≠ 0 → (reloadReader engine call.faults index).2 = .ok ()) := by
  rw [still_run still]
  split
  · refine ⟨rfl,?_⟩
    intro told _
    cases out : (reloadReader engine call.faults index).2 with
    | error why =>
      rw [out] at told
      cases told
    | ok => rfl
  · exact ⟨rfl,fun _ owed => absurd owed (by assumption)⟩

def landing (engine : Batching W Term Document) (index : Index W Columns Marks) (call : Call Columns Marks) :
    Index W Columns Marks :=
  { index with
    writer := engine.commit (engine.stageAll index.writer (callOps index.sessions call.sessions))
    sessions := call.sessions
    commits := index.commits + 1 }

theorem unfaulted_iff : unfaulted call.faults 0 ((callOps index.sessions call.sessions).countP Staged.adds) ↔
    ∀ n < (callOps index.sessions call.sessions).countP Staged.adds, call.faults.write n = none := by
  simp [unfaulted]

omit [DecidableEq Columns] [DecidableEq Marks] in
theorem commit_done (writer : Writer W) (works : faults.commit = none) :
    commitOrRollback engine faults writer = .ok (engine.commit writer.engine) := by
  rw [commitOrRollback,works]
  rfl

omit [DecidableEq Columns] [DecidableEq Marks] in
theorem commit_failed {why : Text} (writer : Writer W) (fails : faults.commit = some why) :
    commitOrRollback engine faults writer = .error (why,engine.rollback writer.engine) := by
  rw [commitOrRollback,fails]
  rfl

theorem run_lands (engine : Batching W Term Document) (moved : ¬ call.Still index) (lands : Lands index call) :
    (call.run engine index).1 = (reloadReader engine call.faults (landing engine index call)).1 ∧
      ((call.run engine index).2.isOk → (reloadReader engine call.faults (landing engine index call)).2 = .ok ()) := by
  have staged := (stageSessions_stages engine call.faults index.writer index.sessions call.sessions).1
    (unfaulted_iff.mpr lands.1)
  rw [moved_run moved,staged]
  simp only [bind,Except.bind,commit_done _ lands.2]
  refine ⟨rfl,?_⟩
  intro told
  cases out : (reloadReader engine call.faults (landing engine index call)).2 with
  | error why =>
    simp only [landing] at out
    rw [out] at told
    cases told
  | ok => rfl

-- A write or a commit that fails rolls the engine back and leaves the rest of the index as it was.
theorem run_fails (engine : Batching W Term Document) (moved : ¬ call.Still index) (fails : ¬ Lands index call) :
    (∃ staged, (call.run engine index).1 = { index with writer := engine.rollback (engine.stageAll index.writer staged) }) ∧
      (call.run engine index).2.isOk = false := by
  have stages := stageSessions_stages engine call.faults index.writer index.sessions call.sessions
  rw [moved_run moved]
  by_cases written : unfaulted call.faults 0 ((callOps index.sessions call.sessions).countP Staged.adds)
  · rw [stages.1 written]
    cases failed : call.faults.commit with
    | some why =>
      simp only [bind,Except.bind,commit_failed _ failed]
      exact ⟨⟨_,rfl⟩,rfl⟩
    | none => exact absurd ⟨unfaulted_iff.mp written,failed⟩ fails
  · obtain ⟨why,before,out⟩ := stages.2 written
    rw [out]
    exact ⟨⟨before,rfl⟩,rfl⟩

def Step (engine : Batching W Term Document) (before : Index W Columns Marks) (call : Call Columns Marks)
    (after : Index W Columns Marks) : Prop :=
  Reading call.sessions ∧ after = (call.run engine before).1

section
variable (laws : engine.Lawful carries)
include laws

omit [DecidableEq Columns] [DecidableEq Marks] in
-- A rollback takes whatever was staged away.
theorem rolled_back (index : Index W Columns Marks) (staged : List (Staged Term Document)) :
    engine.read (engine.rollback (engine.stageAll index.writer staged)) = index.committed engine ∧
      (engine.pending (engine.rollback (engine.stageAll index.writer staged))).Perm (index.committed engine) := by
  have unread : engine.read (engine.stageAll index.writer staged) = index.committed engine := stageAll_unread laws
  exact ⟨(laws.rollback_unread _).trans unread,unread ▸ laws.rollback_empties _⟩

theorem landing_committed (call : Call Columns Marks) (clean : (engine.pending index.writer).Perm (index.committed engine)) :
    ((landing engine index call).committed engine).Perm
      (landed carries (index.committed engine) (callOps index.sessions call.sessions)) :=
  (stageAll_pending laws).trans (landed_perm clean)

theorem step_kept {before after : Index W Columns Marks} (kept : Kept engine before) (took : Step engine before call after) :
    Kept engine after := by
  obtain ⟨reading,rfl⟩ := took
  by_cases still : call.Still before
  · rw [(run_still engine still).1]
    split
    · exact reload_kept kept.reading kept.bound kept.clean
    · exact kept
  · by_cases lands : Lands before call
    · rw [(run_lands engine still lands).1]
      exact reload_kept reading (Nat.le_succ_of_le kept.bound) (laws.commit_empties _)
    · obtain ⟨⟨staged,left⟩,_⟩ := run_fails engine still lands
      obtain ⟨unread,empty⟩ := rolled_back laws before staged
      rw [left]
      exact ⟨kept.reading,kept.bound,fun settled => (kept.seen settled).trans unread.symm,
        empty.trans (.of_eq unread.symm)⟩

theorem step_synced {before after : Index W Columns Marks} (kept : Kept engine before) (synced : Synced engine before)
    (took : Step engine before call after) (meets : Lands before call → Meets before.sessions call.sessions) :
    Synced engine after := by
  obtain ⟨reading,rfl⟩ := took
  unfold Synced
  by_cases still : call.Still before
  · rw [(run_still engine still).1]
    split
    · rw [reload_committed,reload_frame.2]
      exact synced
    · exact synced
  · by_cases lands : Lands before call
    · rw [(run_lands engine still lands).1,reload_committed,reload_frame.2]
      exact (landing_committed laws call kept.clean).trans ((call_follows_iff kept.reading reading synced).mpr (meets lands))
    · obtain ⟨⟨staged,left⟩,_⟩ := run_fails engine still lands
      rw [left]
      exact (List.Perm.of_eq (rolled_back laws before staged).1).trans synced

-- What a call that answers leaves the reader with, from an index in step with its mirror.
theorem told_reader (kept : Kept engine index) (synced : Synced engine index) (reading : Reading call.sessions)
    (told : (call.run engine index).2.isOk) :
    (call.run engine index).1.reader.Perm (documents call.sessions) ↔ Meets index.sessions call.sessions := by
  by_cases still : call.Still index
  · have met := unmoved_meets kept.reading reading still
    have same := (call_follows_iff kept.reading reading synced).mpr met
    rw [unmoved_ops still,landed_nil] at same
    have shown : (call.run engine index).1.reader = index.committed engine := by
      have out := run_still engine still
      rw [out.1]
      split
      · rename_i owed
        exact reload_shown (out.2 told owed)
      · rename_i settled
        exact kept.seen (not_ne_iff.mp settled)
    rw [shown]
    exact iff_of_true same met
  · by_cases lands : Lands index call
    · have out := run_lands engine still lands
      rw [out.1,reload_shown (out.2 told),← call_follows_iff kept.reading reading synced]
      have alike := landing_committed laws call kept.clean
      exact ⟨alike.symm.trans,alike.trans⟩
    · rw [(run_fails engine still lands).2] at told
      cases told

end

-- An engine nothing was written to, and nothing staged in.
structure Blank (engine : Batching W Term Document) (blank : W) : Prop where
  read : engine.read blank = []
  pending : (engine.pending blank).Perm []

omit [DecidableEq Columns] [DecidableEq Marks] in
theorem fresh_kept {blank : W} (bare : Blank engine blank) : Kept engine (Index.fresh blank : Index W Columns Marks) where
  reading := ⟨by simp [Index.fresh],by simp [Index.fresh]⟩
  bound := Nat.zero_le _
  seen _ := bare.read.symm
  clean := by
    rw [Index.committed,Index.fresh,bare.read]
    exact bare.pending

omit [DecidableEq Columns] [DecidableEq Marks] in
theorem fresh_synced {blank : W} (bare : Blank engine blank) : Synced engine (Index.fresh blank : Index W Columns Marks) :=
  .of_eq bare.read

def freshReader (engine : Batching W Term Document) (blank : W) (sessions : List (Session Columns Marks)) : List Document :=
  (ingestSessionsChanges engine unfailing (Index.fresh blank) sessions).1.reader

theorem freshReader_documents (laws : engine.Lawful carries) {blank : W} (bare : Blank engine blank) (reading : Reading sessions) :
    (freshReader engine blank sessions).Perm (documents sessions) := by
  have told : ((Call.mk unfailing sessions).run engine (Index.fresh blank)).2.isOk := by
    by_cases still : (Call.mk unfailing sessions).Still (Index.fresh blank)
    · rw [still_run still]
      rfl
    · have lands : Lands (Index.fresh blank) (Call.mk unfailing sessions) := ⟨fun _ _ => rfl,rfl⟩
      rw [moved_run still,(stageSessions_stages ..).1 (unfaulted_iff.mpr lands.1)]
      rfl
  refine (told_reader laws (fresh_kept bare) (fresh_synced bare) reading told).mpr ?_
  refine ⟨?_,?_⟩
  · intro old has
    cases has
  · intro _ _ _ _ _ _ old has
    cases has

theorem the_reader_follows_the_readings (laws : engine.Lawful carries) {blank : W} (bare : Blank engine blank)
    {taken : List (Index W Columns Marks × Call Columns Marks)} (run : Run (Step engine) (Index.fresh blank) taken now)
    (met : ∀ one ∈ taken, Lands one.1 one.2 → Meets one.1.sessions one.2.sessions) (call : Call Columns Marks)
    (reading : Reading call.sessions) :
    ((call.run engine now).2.isOk →
      ((call.run engine now).1.reader.Perm (freshReader engine blank call.sessions) ↔ Meets now.sessions call.sessions)) ∧
    (¬ Lands now call → (call.run engine now).1.committed engine = now.committed engine ∧
      (call.run engine now).1.sessions = now.sessions) := by
  have kept := (run.keeps (fresh_kept bare) (step_kept laws)).1
  have synced := (run.strong_of_meets (fun index call => Lands index call → Meets index.sessions call.sessions)
    (fresh_kept bare) (fresh_synced bare) (step_kept laws) (step_synced laws) met).1
  have fresh := freshReader_documents laws bare reading
  refine ⟨?_,?_⟩
  · intro told
    rw [← told_reader laws kept synced reading told]
    exact ⟨fun alike => alike.trans fresh,fun alike => alike.trans fresh.symm⟩
  · intro fails
    by_cases still : call.Still now
    · rw [(run_still engine still).1]
      split
      · exact ⟨reload_committed,reload_frame.2⟩
      · exact ⟨rfl,rfl⟩
    · obtain ⟨⟨staged,left⟩,_⟩ := run_fails engine still fails
      rw [left]
      exact ⟨(rolled_back laws now staged).1,rfl⟩

-- One run with one beat, read as working on one thing and then on another.
def fired (bot focus : Text) : Call Unit Unit := ⟨unfailing,[⟨['r'],bot,focus,[⟨['e'],['t'],()⟩],()⟩]⟩

theorem fired_reading (bot focus : Text) : Reading (fired bot focus).sessions := ⟨by simp [fired],by simp [fired]⟩

-- The same reading in a call whose commit fails.
def refired (bot focus : Text) : Call Unit Unit := { fired bot focus with faults := ⟨fun _ => none,some ['f'],none⟩ }

def blankIndex : Index (List Document × List (Staged Term Document)) Unit Unit := Index.fresh ([],[])
def firedOnce : Index (List Document × List (Staged Term Document)) Unit Unit := ((fired ['b'] ['k']).run (listed carries) blankIndex).1
def failedAfter : Index (List Document × List (Staged Term Document)) Unit Unit := ((refired ['c'] ['w']).run (listed carries) firedOnce).1

theorem a_renamed_owner_moves_its_beats :
    ((fired ['c'] ['w']).run (listed carries) failedAfter).1.reader.Perm
      (freshReader (listed carries) ([],[]) (fired ['c'] ['w']).sessions) := by
  have run : Run (Step (listed carries)) blankIndex [(blankIndex,fired ['b'] ['k']),(firedOnce,refired ['c'] ['w'])] failedAfter :=
    .step (.step .start ⟨fired_reading _ _,rfl⟩) ⟨fired_reading _ _,rfl⟩
  have bare : Blank (listed carries) ([],[]) := ⟨rfl,.refl _⟩
  refine ((the_reader_follows_the_readings (listed_lawful carries) bare run ?_ (fired ['c'] ['w'])
    (fired_reading _ _)).1 (by rfl)).mpr ?_
  · intro one member lands
    rcases List.mem_cons.mp member with rfl | member
    · exact ⟨fun old has => absurd has List.not_mem_nil,fun _ _ _ _ _ _ old has => absurd has List.not_mem_nil⟩
    · cases List.mem_singleton.mp member
      exact nomatch lands.2
  · refine ⟨?_,?_⟩
    · intro old has session there _ stayed
      cases List.mem_singleton.mp has
      cases List.mem_singleton.mp there
      simp at stayed
    · intro front taker back shape giver late
      have alone := congrArg List.length shape
      have some := List.length_pos_of_mem late
      simp [fired] at alone
      omega

theorem a_new_focus_leaves_a_beat_stale :
    ¬ ∀ taken now, Run (Step (listed carries)) blankIndex taken now → ∀ call : Call Unit Unit, Reading call.sessions →
      (call.run (listed carries) now).2.isOk →
        (call.run (listed carries) now).1.reader.Perm (freshReader (listed carries) ([],[]) call.sessions) := by
  intro follows
  have first : Step (listed carries) blankIndex (fired ['b'] ['k']) firedOnce := ⟨fired_reading _ _,rfl⟩
  have alike := follows _ _ (.step .start first) (fired ['b'] ['w']) (fired_reading _ _) (by rfl)
  revert alike
  decide +kernel

end Search
