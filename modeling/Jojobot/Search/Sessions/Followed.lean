import Jojobot.Search.Sessions.Beats

namespace Search
open Library Memory

variable {Columns Marks : Type}
  {mirror sessions front back : List (Session Columns Marks)} {session taker old : Session Columns Marks}
  {entry was : JournalEntry Marks} {docs : List Document} {id : Text} {faults : Faults}

-- The beats a run of the reading held when the index last took it in.
def olds (mirror : List (Session Columns Marks)) (session : Session Columns Marks) : List (JournalEntry Marks) :=
  (sessionsById mirror session.id).elim [] (·.entries)

theorem mem_olds (reading : Reading mirror) : was ∈ olds mirror session ↔ ∃ old ∈ mirror, old.id = session.id ∧ was ∈ old.entries := by
  unfold olds
  cases found : sessionsById mirror session.id with
  | none =>
    simp only [Option.elim_none,List.not_mem_nil,false_iff,not_exists,not_and]
    intro old has same _
    simp [(sessionsById_some reading.runs).mpr ⟨has,same⟩] at found
  | some known =>
    have own := (sessionsById_some reading.runs).mp found
    simp only [Option.elim_some]
    constructor
    · intro held
      exact ⟨known,own.1,own.2,held⟩
    · intro held
      obtain ⟨old,has,same,held⟩ := held
      exact reading.run has own.1 (same.trans own.2.symm) ▸ held

theorem others_without (reading : Reading sessions) (shape : sessions = front ++ taker :: back) (own : entry ∈ taker.entries) :
    (∀ session ∈ front, ∀ other ∈ session.entries, other.id ≠ entry.id) ∧
      ∀ session ∈ back, ∀ other ∈ session.entries, other.id ≠ entry.id := by
  have runs := reading.runs
  have here : taker ∈ sessions := by simp [shape]
  simp only [shape,List.map_append,List.map_cons,List.nodup_append,List.nodup_cons,List.mem_cons,List.mem_map] at runs
  constructor
  · intro session member other held same
    have listed : session ∈ sessions := by simp [shape,member]
    cases reading.holder listed here held own same
    exact runs.2.2 taker.id ⟨taker,member,rfl⟩ taker.id (Or.inl rfl) rfl
  · intro session member other held same
    have listed : session ∈ sessions := by simp [shape,member]
    cases reading.holder listed here held own same
    exact runs.2.1.1 ⟨taker,member,rfl⟩

variable [DecidableEq Marks]

theorem turn_settled (apart : (session.entries.map (·.id)).Nodup) : turn (some session) session = [] := by
  have nothing : session.entries.filterMap (entryChange (some session) session) = [] := by
    apply List.filterMap_eq_nil_iff.mpr
    intro entry has
    have found := (entriesById_some apart).mpr ⟨has,rfl⟩
    simp [entryChange,found,ownerMoved]
  have stays : ((session.entries.map (·.id)).filter fun id => !(session.entries.map (·.id)).contains id) = [] := by
    apply List.filter_eq_nil_iff.mpr
    intro id member
    simpa using member
  simp only [turn,entryChanges,nothing,Option.elim_some,stays]
  rfl

def turns (mirror sessions : List (Session Columns Marks)) : List (Staged Term Document) :=
  sessions.flatMap fun session => turn (sessionsById mirror session.id) session

section
variable {part : List (Session Columns Marks)} (without : ∀ session ∈ part, ∀ entry ∈ session.entries, entry.id ≠ id)
include without

theorem turns_kept (never : ∀ session ∈ part, ∀ was ∈ olds mirror session, was.id ≠ id) :
    about id (landed carries docs (turns mirror part)) = about id docs := by
  induction part generalizing docs with
  | nil => rfl
  | cons session rest ih =>
    simp only [turns,List.flatMap_cons,landed_append]
    have later : about id (landed carries (landed carries docs (turn (sessionsById mirror session.id) session)) (turns mirror rest)) =
        about id (landed carries docs (turn (sessionsById mirror session.id) session)) :=
      ih (fun other member => without other (List.mem_cons_of_mem _ member))
        fun other member => never other (List.mem_cons_of_mem _ member)
    exact later.trans (turn_untouched (without session List.mem_cons_self) (never session List.mem_cons_self))

theorem turns_bare (bare : about id docs = []) : about id (landed carries docs (turns mirror part)) = [] := by
  induction part generalizing docs with
  | nil => exact bare
  | cons session rest ih =>
    simp only [turns,List.flatMap_cons,landed_append]
    apply ih fun other member => without other (List.mem_cons_of_mem _ member)
    have own := without session List.mem_cons_self
    by_cases held : ∃ was ∈ olds mirror session, was.id = id
    · exact turn_given own held
    · rw [turn_untouched own (by simpa [olds] using held)]
      exact bare

theorem turns_given (given : ∃ giver ∈ part, ∃ was ∈ olds mirror giver, was.id = id) :
    about id (landed carries docs (turns mirror part)) = [] := by
  obtain ⟨giver,has,held⟩ := given
  obtain ⟨front,back,rfl⟩ := List.append_of_mem has
  simp only [turns,List.flatMap_append,List.flatMap_cons,landed_append]
  apply turns_bare
  · intro other member
    exact without other (List.mem_append_right _ (List.mem_cons_of_mem _ member))
  · exact turn_given (without giver has) held

end

variable [DecidableEq Columns]

-- Everything a call stages: the runs that are gone go whole, then each run that
-- is rewritten takes its turn in the order of the reading.
def callOps (mirror sessions : List (Session Columns Marks)) : List (Staged Term Document) :=
  (movedSessions mirror sessions).evict.map (fun id => .drop (.sessionId id)) ++
    (movedSessions mirror sessions).rewrite.flatMap fun session => turn (sessionsById mirror session.id) session

theorem stageSessions_stages {W : Type} (engine : Batching W Term Document) (faults : Faults) (w : W)
    (mirror sessions : List (Session Columns Marks)) :
    (unfaulted faults 0 ((callOps mirror sessions).countP Staged.adds) →
      stageSessions engine faults w mirror sessions =
        .ok ⟨(callOps mirror sessions).countP Staged.adds,engine.stageAll w (callOps mirror sessions)⟩) ∧
    (¬unfaulted faults 0 ((callOps mirror sessions).countP Staged.adds) →
      ∃ why before, stageSessions engine faults w mirror sessions = .error (why,engine.rollback (engine.stageAll w before))) := by
  have evicted : ∀ (ids : List Text) (writer : Writer W),
      ids.foldl (fun (writer : Writer W) id => writer.deleteTerm engine (.sessionId id)) writer =
        ⟨writer.called,engine.stageAll writer.engine (ids.map fun id => .drop (.sessionId id))⟩ := by
    intro ids
    induction ids with
    | nil => exact fun _ => rfl
    | cons id rest ih => exact fun writer => ih (writer.deleteTerm engine (.sessionId id))
  have none : ((movedSessions mirror sessions).evict.map fun id =>
      (Staged.drop (.sessionId id) : Staged Term Document)).countP Staged.adds = 0 := by
    simp [List.countP_eq_zero,Staged.adds]
  have each : ∀ session : Session Columns Marks, Stages engine faults
      (fun writer => stageChanges engine faults writer session (entryChanges (sessionsById mirror session.id) session))
      (turn (sessionsById mirror session.id) session) := fun session => stageChanges_stages _
  have rest := Stages.each each (movedSessions mirror sessions).rewrite
  have counted : (callOps mirror sessions).countP Staged.adds = ((movedSessions mirror sessions).rewrite.flatMap fun session =>
      turn (sessionsById mirror session.id) session).countP Staged.adds := by
    rw [callOps,List.countP_append,none,Nat.zero_add]
  dsimp only [stageSessions]
  rw [evicted,counted]
  constructor
  · intro all
    refine (rest.staged _ (by simpa using all)).trans ?_
    simp [callOps]
  · intro faulted
    obtain ⟨why,before,out⟩ := rest.failed
      ⟨0,engine.stageAll w ((movedSessions mirror sessions).evict.map fun id => .drop (.sessionId id))⟩ (by simpa using faulted)
    refine ⟨why,(movedSessions mirror sessions).evict.map (fun id => .drop (.sessionId id)) ++ before,?_⟩
    rw [stageAll_append]
    exact out

theorem rewrite_eq : (movedSessions mirror sessions).rewrite =
    sessions.filter fun session => sessionsById mirror session.id ≠ some session := by
  simp only [movedSessions,changedAndGone,List.filter_map,List.map_map,Function.comp_def,List.map_id']
  rfl

theorem evict_eq : (movedSessions mirror sessions).evict =
    (mirror.map (·.id)).filter fun id => !(sessions.map (·.id)).contains id := by
  simp [movedSessions,changedAndGone,List.filter_map,Function.comp_def]

theorem rewrite_turns (reading : Reading sessions) :
    (movedSessions mirror sessions).rewrite.flatMap (fun session => turn (sessionsById mirror session.id) session) =
      turns mirror sessions := by
  have each : ∀ part : List (Session Columns Marks), (∀ session ∈ part, (session.entries.map (·.id)).Nodup) →
      (part.filter fun session => sessionsById mirror session.id ≠ some session).flatMap
        (fun session => turn (sessionsById mirror session.id) session) = turns mirror part := by
    intro part apart
    induction part with
    | nil => rfl
    | cons session rest ih =>
      have later := ih fun other member => apart other (List.mem_cons_of_mem _ member)
      by_cases same : sessionsById mirror session.id = some session
      · have settled : turn (sessionsById mirror session.id) session = [] :=
          same ▸ turn_settled (apart session List.mem_cons_self)
        simp only [turns,List.flatMap_cons,settled,List.nil_append]
        rw [List.filter_cons_of_neg (by simpa using same)]
        exact later
      · rw [List.filter_cons_of_pos (by simpa using same)]
        simp only [turns,List.flatMap_cons]
        exact congrArg _ later
  rw [rewrite_eq]
  exact each sessions fun session has => reading.own has

-- What evicting leaves under a beat's id.
def unevicted (mirror sessions : List (Session Columns Marks)) (docs : List Document) : List Document :=
  docs.filter fun document => !(movedSessions mirror sessions).evict.contains document.sessionId

theorem landed_call (reading : Reading sessions) :
    landed carries docs (callOps mirror sessions) = landed carries (unevicted mirror sessions docs) (turns mirror sessions) := by
  have drops : (movedSessions mirror sessions).evict.map (fun id => (Staged.drop (.sessionId id) : Staged Term Document)) =
      ((movedSessions mirror sessions).evict.map Term.sessionId).map .drop := by simp
  rw [callOps,rewrite_turns reading,landed_append,drops,landed_drops]
  congr 1
  apply List.filter_congr
  intro document _
  simp only [List.any_map,Function.comp_def,List.contains_eq_any_beq]
  rfl

section
variable (old_reading : Reading mirror) (reading : Reading sessions) (alike : docs.Perm (documents mirror))
include old_reading alike

-- A beat no listed run gave up is left to none: the run that held it is gone whole.
theorem unevicted_bare (never : ∀ session ∈ sessions, ∀ was ∈ olds mirror session, was.id ≠ id) :
    about id (unevicted mirror sessions docs) = [] := by
  apply List.filter_eq_nil_iff.mpr
  intro document member same
  obtain ⟨member,stays⟩ := List.mem_filter.mp member
  obtain ⟨old,has,made⟩ := List.mem_flatMap.mp (alike.mem_iff.mp member)
  obtain ⟨was,own,rfl⟩ := List.mem_map.mp made
  have listed : old.id ∈ sessions.map (·.id) := by
    by_contra gone
    have evicted : old.id ∈ (movedSessions mirror sessions).evict := by
      rw [evict_eq]
      exact List.mem_filter.mpr ⟨List.mem_map_of_mem has,by simpa using gone⟩
    simp [documentOf,evicted] at stays
  obtain ⟨session,there,named⟩ := List.mem_map.mp listed
  exact never session there was ((mem_olds old_reading).mpr ⟨old,has,named.symm,own⟩) (of_decide_eq_true same)

theorem unevicted_held (has : old ∈ mirror) (own : was ∈ old.entries) (there : session ∈ sessions) (same : old.id = session.id) :
    about was.id (unevicted mirror sessions docs) = [documentOf old was] := by
  have held := about_held old_reading alike has own
  have listed : old.id ∉ (movedSessions mirror sessions).evict := by
    rw [evict_eq]
    intro gone
    have absent := (List.mem_filter.mp gone).2
    simp only [Bool.not_eq_true',List.contains_eq_mem,decide_eq_false_iff_not] at absent
    exact absent (List.mem_map.mpr ⟨session,there,same.symm⟩)
  have swapped : about was.id (unevicted mirror sessions docs) = unevicted mirror sessions (about was.id docs) := by
    simp [about,unevicted,List.filter_filter,Bool.and_comm]
  rw [swapped,held]
  simp [unevicted,documentOf,listed]

end

section
variable (before : Reading mirror) (reading : Reading sessions) (alike : docs.Perm (documents mirror))
include before reading alike

theorem call_gone (without : ∀ session ∈ sessions, ∀ entry ∈ session.entries, entry.id ≠ id) :
    about id (landed carries docs (callOps mirror sessions)) = [] := by
  rw [landed_call reading]
  by_cases given : ∃ giver ∈ sessions, ∃ was ∈ olds mirror giver, was.id = id
  · exact turns_given without given
  · exact turns_bare without (unevicted_bare before alike (by simpa using given))

omit before alike in
theorem call_parts (shape : sessions = front ++ taker :: back) :
    about entry.id (landed carries docs (callOps mirror sessions)) =
    about entry.id (landed carries (landed carries (landed carries (unevicted mirror sessions docs) (turns mirror front))
      (turn (sessionsById mirror taker.id) taker)) (turns mirror back)) := by
  rw [landed_call reading,shape]
  simp [turns]

section
variable (shape : sessions = front ++ taker :: back) (own : entry ∈ taker.entries)
include shape own

omit before alike in
-- A beat that another run, listed later, held when the index last took it in is lost.
theorem call_lost (given : ∃ giver ∈ back, ∃ was ∈ olds mirror giver, was.id = entry.id) :
    about entry.id (landed carries docs (callOps mirror sessions)) = [] := by
  rw [call_parts reading shape]
  exact turns_given (others_without reading shape own).2 given

theorem call_taken (stranger : ∀ was ∈ olds mirror taker, was.id ≠ entry.id)
    (never : ∀ giver ∈ back, ∀ was ∈ olds mirror giver, was.id ≠ entry.id) :
    about entry.id (landed carries docs (callOps mirror sessions)) = [documentOf taker entry] := by
  obtain ⟨ahead,behind⟩ := others_without reading shape own
  have here : taker ∈ sessions := by simp [shape]
  have bare : about entry.id (landed carries (unevicted mirror sessions docs) (turns mirror front)) = [] := by
    by_cases given : ∃ giver ∈ front, ∃ was ∈ olds mirror giver, was.id = entry.id
    · exact turns_given ahead given
    · apply turns_bare ahead
      apply unevicted_bare before alike
      intro session member
      rw [shape] at member
      rcases List.mem_append.mp member with early | late
      · intro was held same
        exact given ⟨session,early,was,held,same⟩
      · rcases List.mem_cons.mp late with rfl | late
        · exact stranger
        · exact never session late
  rw [call_parts reading shape,turns_kept behind never,turn_added (reading.own here) own stranger,bare]
  rfl

theorem call_held (has : old ∈ mirror) (same : old.id = taker.id) (held : was ∈ old.entries) (beat : was.id = entry.id) :
    about entry.id (landed carries docs (callOps mirror sessions)) =
      if was = entry ∧ old.bot = taker.bot then [documentOf old entry] else [documentOf taker entry] := by
  obtain ⟨ahead,behind⟩ := others_without reading shape own
  have here : taker ∈ sessions := by simp [shape]
  have runs := reading.runs
  simp only [shape,List.map_append,List.map_cons,List.nodup_append,List.nodup_cons,List.mem_cons,List.mem_map] at runs
  have known : sessionsById mirror taker.id = some old := (sessionsById_some before.runs).mpr ⟨has,same⟩
  have only : ∀ other : Session Columns Marks, other.id ≠ taker.id → ∀ its ∈ olds mirror other, its.id ≠ entry.id := by
    intro other apart its mine alike
    obtain ⟨holder,there,named,its_own⟩ := (mem_olds before).mp mine
    have one := before.holder there has its_own held (alike.trans beat.symm)
    exact apart (named.symm.trans (one ▸ same))
  have kept : about entry.id (landed carries (unevicted mirror sessions docs) (turns mirror front)) = [documentOf old was] := by
    rw [turns_kept ahead]
    · rw [← beat]
      exact unevicted_held before alike has held here same
    · intro other member
      exact only other fun clash => runs.2.2 other.id ⟨other,member,rfl⟩ taker.id (Or.inl rfl) clash
  have tail : ∀ other ∈ back, ∀ its ∈ olds mirror other, its.id ≠ entry.id := fun other member =>
    only other fun clash => runs.2.1.1 ⟨other,member,clash⟩
  rw [call_parts reading shape,turns_kept behind tail,known]
  have apart : (((some old).elim [] (·.entries)).map (·.id)).Nodup := before.own has
  have moved : ownerMoved (some old) taker = false ↔ old.bot = taker.bot := by simp [ownerMoved]
  split
  · rename_i both
    obtain ⟨rfl,stayed⟩ := both
    rw [turn_kept (reading.own here) own apart held (moved.mpr stayed)]
    exact kept
  · rename_i other
    exact turn_replaced (reading.own here) own apart held beat (by simpa [moved] using other)

end

-- What the source takes for granted of two readings: a run whose focus changed
-- changed its owner too or keeps no beat as it was, and no beat goes to a run
-- listed before the one that held it.
structure Meets (mirror sessions : List (Session Columns Marks)) : Prop where
  focus : ∀ old ∈ mirror, ∀ session ∈ sessions, old.id = session.id → old.bot = session.bot →
    ∀ entry ∈ old.entries, entry ∈ session.entries → old.focus = session.focus
  moves : ∀ front taker back, sessions = front ++ taker :: back → ∀ giver ∈ back, ∀ old ∈ mirror, old.id = giver.id →
    ∀ entry ∈ taker.entries, ∀ was ∈ old.entries, was.id ≠ entry.id

theorem call_follows_iff : (landed carries docs (callOps mirror sessions)).Perm (documents sessions) ↔ Meets mirror sessions := by
  constructor
  · intro follows
    refine ⟨?_,?_⟩
    · intro old has session there same stayed entry held own
      obtain ⟨front,back,shape⟩ := List.append_of_mem there
      have stale := call_held before reading alike shape own has same held rfl
      rw [if_pos ⟨rfl,stayed⟩,about_held reading follows there own] at stale
      simpa [documentOf] using (congrArg Document.text (List.head_eq_of_cons_eq stale)).symm
    · intro front taker back shape giver late old has same entry own was held beat
      have lost : about entry.id (landed carries docs (callOps mirror sessions)) = [] :=
        call_lost reading shape own ⟨giver,late,was,(mem_olds before).mpr ⟨old,has,same,held⟩,beat⟩
      rw [about_held reading follows (by simp [shape]) own] at lost
      cases lost
  · intro meets
    apply perm_of_cells Document.entryId
    intro id
    suffices same : about id (landed carries docs (callOps mirror sessions)) = about id (documents sessions) from .of_eq same
    by_cases held : ∃ taker ∈ sessions, ∃ entry ∈ taker.entries, entry.id = id
    · obtain ⟨taker,there,entry,own,rfl⟩ := held
      obtain ⟨front,back,shape⟩ := List.append_of_mem there
      rw [about_held reading (.refl _) there own]
      by_cases mine : ∃ was ∈ olds mirror taker, was.id = entry.id
      · obtain ⟨was,member,beat⟩ := mine
        obtain ⟨old,has,same,held⟩ := (mem_olds before).mp member
        rw [call_held before reading alike shape own has same held beat]
        split
        · rename_i both
          obtain ⟨rfl,stayed⟩ := both
          have focused := meets.focus old has taker there same stayed was held own
          simp [documentOf,same,stayed,focused]
        · rfl
      · apply call_taken before reading alike shape own (by simpa using mine)
        intro giver late was member
        obtain ⟨old,has,same,held⟩ := (mem_olds before).mp member
        exact meets.moves front taker back shape giver late old has same entry own was held
    · have without : ∀ session ∈ sessions, ∀ entry ∈ session.entries, entry.id ≠ id := by simpa using held
      rw [call_gone before reading alike without,about_unheld (.refl _) without]

end

end Search
