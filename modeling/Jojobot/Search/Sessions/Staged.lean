import Jojobot.Library.Fallible
import Jojobot.Search.Sessions

namespace Search
open Library Memory

section
variable {R : Type} {held : List (Text × R)} {key : Text} {one : R}

theorem byKey_some (apart : (held.map (·.1)).Nodup) : byKey held key = some one ↔ (key,one) ∈ held := by
  unfold byKey
  rw [List.lookup_eq_some_iff]
  constructor
  · intro found
    obtain ⟨front,back,shape,_⟩ := found
    have member : (key,one) ∈ held.reverse := by simp [shape]
    exact List.mem_reverse.mp member
  · intro member
    obtain ⟨front,back,shape⟩ := List.append_of_mem (List.mem_reverse.mpr member)
    refine ⟨front,back,shape,?_⟩
    intro other earlier
    have reversed : (held.reverse.map (·.1)).Nodup := by simpa using apart
    rw [shape,List.map_append,List.nodup_append] at reversed
    simpa using (reversed.2.2 other.1 (List.mem_map_of_mem earlier) key (by simp)).symm

theorem byKey_none : byKey held key = none ↔ ∀ one, (key,one) ∉ held := by
  unfold byKey
  rw [List.lookup_eq_none_iff]
  constructor
  · intro none one member
    simpa using none (key,one) (List.mem_reverse.mpr member)
  · intro none one member
    simp only [bne_iff_ne,ne_eq]
    intro same
    exact none one.2 (same ▸ List.mem_reverse.mp member)

end

variable {Columns Marks : Type} {session : Session Columns Marks} {entry was : JournalEntry Marks}
  {entries : List (JournalEntry Marks)} {sessions : List (Session Columns Marks)} {id : Text}

theorem entriesById_some (apart : (entries.map (·.id)).Nodup) :
    entriesById entries id = some entry ↔ entry ∈ entries ∧ entry.id = id := by
  unfold entriesById
  rw [byKey_some (by simpa [Function.comp_def] using apart)]
  simp only [List.mem_map,Prod.mk.injEq]
  constructor
  · intro found
    obtain ⟨entry,member,same,rfl⟩ := found
    exact ⟨member,same⟩
  · intro found
    exact ⟨entry,found.1,found.2,rfl⟩

theorem entriesById_none : entriesById entries id = none ↔ ∀ entry ∈ entries, entry.id ≠ id := by
  unfold entriesById
  rw [byKey_none]
  simp only [List.mem_map,Prod.mk.injEq,not_exists,not_and]
  constructor
  · intro none entry member same
    exact none entry entry member same rfl
  · intro none _ entry member same _
    exact none entry member same

theorem sessionsById_some (apart : (sessions.map (·.id)).Nodup) :
    sessionsById sessions id = some session ↔ session ∈ sessions ∧ session.id = id := by
  unfold sessionsById
  rw [byKey_some (by simpa [Function.comp_def] using apart)]
  simp only [List.mem_map,Prod.mk.injEq]
  constructor
  · intro found
    obtain ⟨session,member,same,rfl⟩ := found
    exact ⟨member,same⟩
  · intro found
    exact ⟨session,found.1,found.2,rfl⟩

-- The operations a change stages, and which beat it is about.
def EntryChange.ops (session : Session Columns Marks) : EntryChange Marks → List (Staged Term Document)
  | .add entry => [.add (documentOf session entry)]
  | .replace entry => [.drop (.entryId entry.id),.add (documentOf session entry)]
  | .remove id => [.drop (.entryId id)]

def EntryChange.about : EntryChange Marks → Text
  | .add entry => entry.id
  | .replace entry => entry.id
  | .remove id => id

theorem ops_quiet {change : EntryChange Marks} (other : change.about ≠ id) :
    ∀ op ∈ change.ops session, op.Quiet carries (·.entryId = id) := by
  have drops : (Staged.drop (.entryId change.about)).Quiet carries (·.entryId = id) := by
    intro document held
    have own : document.entryId = id := by simpa using held
    simpa [carries,own] using Ne.symm other
  have adds : ∀ entry : JournalEntry Marks, entry.id ≠ id →
      (Staged.add (documentOf session entry)).Quiet carries (·.entryId = id) := fun entry apart => decide_eq_false apart
  cases change with
  | add entry =>
    simp only [EntryChange.ops,List.mem_singleton,forall_eq]
    exact adds entry other
  | replace entry =>
    simp only [EntryChange.ops,List.mem_cons,List.not_mem_nil,or_false,forall_eq_or_imp,forall_eq]
    exact ⟨drops,adds entry other⟩
  | remove gone =>
    simp only [EntryChange.ops,List.mem_singleton,forall_eq]
    exact drops

def changesOps (session : Session Columns Marks) (changes : List (EntryChange Marks)) : List (Staged Term Document) :=
  changes.flatMap (·.ops session)

theorem changes_quiet {changes : List (EntryChange Marks)} (others : ∀ change ∈ changes, change.about ≠ id) :
    ∀ op ∈ changesOps session changes, op.Quiet carries (·.entryId = id) := by
  intro op member
  obtain ⟨change,has,own⟩ := List.mem_flatMap.mp member
  exact ops_quiet (others change has) op own

variable {W : Type} {engine : Batching W Term Document} {faults : Faults}

def unfaulted (faults : Faults) (from' upTo : Nat) : Prop := ∀ n, from' ≤ n → n < upTo → faults.write n = none

-- A stretch of the call: where no write it makes fails it leaves its operations staged, and
-- where one does the engine is rolled back from what was staged by then.
structure Stages (engine : Batching W Term Document) (faults : Faults)
    (stretch : Writer W → Except (Text × W) (Writer W)) (ops : List (Staged Term Document)) : Prop where
  staged : ∀ writer, unfaulted faults writer.called (writer.called + ops.countP Staged.adds) →
    stretch writer = .ok ⟨writer.called + ops.countP Staged.adds,engine.stageAll writer.engine ops⟩
  failed : ∀ writer, ¬unfaulted faults writer.called (writer.called + ops.countP Staged.adds) →
    ∃ why before, stretch writer = .error (why,engine.rollback (engine.stageAll writer.engine before))

section
variable {first second : List (Staged Term Document)} {stretch later : Writer W → Except (Text × W) (Writer W)}

theorem unfaulted_split {from' middle upTo : Nat} (low : from' ≤ middle) (high : middle ≤ upTo) :
    unfaulted faults from' upTo ↔ unfaulted faults from' middle ∧ unfaulted faults middle upTo := by
  constructor
  · intro all
    exact ⟨fun n above below => all n above (by omega),fun n above below => all n (by omega) below⟩
  · intro both n above below
    by_cases early : n < middle
    · exact both.1 n above early
    · exact both.2 n (Nat.le_of_not_lt early) below

theorem Stages.done : Stages engine faults .ok [] where
  staged _ _ := rfl
  failed writer faulted := (faulted fun _ low high => absurd high (by simpa using low)).elim

theorem Stages.andThen (one : Stages engine faults stretch first) (two : Stages engine faults later second) :
    Stages engine faults (fun writer => stretch writer >>= later) (first ++ second) := by
  have parts : ∀ writer : Writer W, unfaulted faults writer.called (writer.called + (first ++ second).countP Staged.adds) ↔
      unfaulted faults writer.called (writer.called + first.countP Staged.adds) ∧
        unfaulted faults (writer.called + first.countP Staged.adds)
          (writer.called + first.countP Staged.adds + second.countP Staged.adds) := by
    intro writer
    rw [List.countP_append,←Nat.add_assoc]
    exact unfaulted_split (Nat.le_add_right ..) (Nat.le_add_right ..)
  constructor
  · intro writer all
    obtain ⟨early,late⟩ := (parts writer).mp all
    rw [one.staged writer early]
    refine (two.staged _ late).trans ?_
    rw [List.countP_append,Nat.add_assoc,stageAll_append]
  · intro writer faulted
    by_cases early : unfaulted faults writer.called (writer.called + first.countP Staged.adds)
    · rw [one.staged writer early]
      obtain ⟨why,before,out⟩ := two.failed ⟨writer.called + first.countP Staged.adds,engine.stageAll writer.engine first⟩
        fun late => faulted ((parts writer).mpr ⟨early,late⟩)
      refine ⟨why,first ++ before,out.trans ?_⟩
      rw [stageAll_append]
    · obtain ⟨why,before,out⟩ := one.failed writer early
      rw [out]
      exact ⟨why,before,rfl⟩

theorem Stages.each {α : Type} {stage : Writer W → α → Except (Text × W) (Writer W)} {ops : α → List (Staged Term Document)}
    (one : ∀ item, Stages engine faults (stage · item) (ops item)) (items : List α) :
    Stages engine faults (fun writer => items.foldlM stage writer) (items.flatMap ops) := by
  induction items with
  | nil => exact Stages.done
  | cons item rest ih => exact (one item).andThen ih

theorem writeSessionEntry_stages : Stages engine faults
    (fun writer => rollbackOnErr engine writer (writeSessionEntry engine faults writer session entry))
    [.add (documentOf session entry)] := by
  constructor
  · intro writer all
    have written := all writer.called (Nat.le_refl _) (Nat.lt_succ_self _)
    simp only [writeSessionEntry,written]
    rfl
  · intro writer faulted
    cases failed : faults.write writer.called with
    | some why =>
      refine ⟨why,[],?_⟩
      simp only [writeSessionEntry,failed]
      rfl
    | none =>
      refine (faulted ?_).elim
      intro n low high
      have only : n = writer.called := by
        simp [Staged.adds] at high
        omega
      exact only ▸ failed

theorem deleteTerm_stages (term : Term) : Stages engine faults (fun writer => .ok (writer.deleteTerm engine term)) [.drop term] where
  staged _ _ := rfl
  failed writer faulted := (faulted fun _ low high => absurd high (by simpa [Staged.adds] using low)).elim

theorem stageChange_stages (change : EntryChange Marks) :
    Stages engine faults (fun writer => stageChange engine faults session writer change) (change.ops session) := by
  cases change with
  | add entry => exact writeSessionEntry_stages
  | replace entry => exact (deleteTerm_stages (.entryId entry.id)).andThen writeSessionEntry_stages
  | remove gone => exact deleteTerm_stages (.entryId gone)

theorem stageChanges_stages (changes : List (EntryChange Marks)) :
    Stages engine faults (fun writer => stageChanges engine faults writer session changes) (changesOps session changes) :=
  Stages.each stageChange_stages changes

end

end Search
