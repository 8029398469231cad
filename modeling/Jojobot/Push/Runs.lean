import Jojobot.Library.Runs
import Jojobot.Push.Drained

namespace Pushing
open Library Std Memory Mailbox

variable {latest now at' : Timestamp} {policy : Policy} {answers : Answers} {outbox before after last : Outbox} {row next : Row} {push : Push}

-- A post to a person's box, or a pass over the outbox.
inductive Act where
  | enqueue (message : Text) (at' : Timestamp)
  | drain (at' : Timestamp) (answers : Answers)

def Step (latest : Timestamp) (policy : Policy) (before : Outbox) (act : Act) (after : Outbox) : Prop :=
  match act with
  | .enqueue message at' => message ∉ before.map (·.message) ∧ at' ≤ latest ∧ after = enqueue before message at'
  | .drain at' answers => after = (drain latest policy answers before at').1

-- Each row is of its own message, and a pending one is due by its deadline.
structure Timely (latest : Timestamp) (policy : Policy) (outbox : Outbox) : Prop where
  apart : (outbox.map (·.message)).Nodup
  early : ∀ row ∈ outbox, row.enqueuedAt ≤ latest
  within : ∀ row ∈ outbox, row.standing = .pending → row.nextAttemptAt ≤ deadline latest policy row.toPush

-- What a pass makes of a row: nothing, an end, or another wait.
inductive Fate (latest : Timestamp) (policy : Policy) (answers : Answers) (now : Timestamp) (row : Row) : Row → Prop where
  | unchanged (still : row.dueAt now = false ∨ answers.record row.message = .lost) : Fate latest policy answers now row row
  | ended {standing : Standing} (isDue : row.dueAt now = true) (over' : standing ≠ .pending) :
      Fate latest policy answers now row { row with standing := standing }
  | again (isDue : row.dueAt now = true) (before : now < deadline latest policy row.toPush) :
      Fate latest policy answers now row
        { row with
          attempts := storedAttempts (row.attempts+1)
          nextAttemptAt := min (now+policy.delayAfter (row.attempts+1)) (deadline latest policy row.toPush) }

theorem dueAt_iff : row.dueAt now = true ↔ row.standing = .pending ∧ row.nextAttemptAt ≤ now := by
  simp [Row.dueAt]

theorem settled_fate (latest : Timestamp) (policy : Policy) (answers : Answers) (now : Timestamp) (row : Row) :
    Fate latest policy answers now row (row.settled latest policy answers now) := by
  unfold Row.settled
  split
  · rename_i lands
    obtain ⟨isDue,recorded⟩ := lands
    have pending := (dueAt_iff.mp isDue).1
    cases ending : (tried latest policy answers now row.toPush).ending with
    | sent =>
      dsimp only [Row.ended]
      rw [if_pos pending]
      exact .ended isDue (by decide)
    | abandoned =>
      dsimp only [Row.ended]
      rw [if_pos pending]
      exact .ended isDue (by decide)
    | failed attempts next =>
      obtain ⟨early,count,moment⟩ := tried_again ending
      rw [next_attempt] at moment
      subst count moment
      dsimp only [Row.ended]
      rw [if_pos pending]
      exact .again isDue early
  · rename_i stays
    apply Fate.unchanged
    by_cases isDue : row.dueAt now = true
    · right
      by_contra recorded
      exact stays ⟨isDue,recorded⟩
    · exact Or.inl (Bool.eq_false_iff.mpr isDue)

theorem Fate.enqueued (fate : Fate latest policy answers now row next) : next.enqueuedAt = row.enqueuedAt := by
  cases fate with
  | unchanged still => rfl
  | ended isDue over' => rfl
  | again isDue before => rfl

theorem Fate.message (fate : Fate latest policy answers now row next) : next.message = row.message := by
  cases fate with
  | unchanged still => rfl
  | ended isDue over' => rfl
  | again isDue before => rfl

theorem Fate.deadline (fate : Fate latest policy answers now row next) :
    deadline latest policy next.toPush = Pushing.deadline latest policy row.toPush := by
  unfold Pushing.deadline
  rw [fate.enqueued]

theorem Timely.drained (timely : Timely latest policy before) (answers : Answers) (now : Timestamp) :
    Timely latest policy (drain latest policy answers before now).1 := by
  cases listed : answers.dueAnswers with
  | false =>
    unfold drain
    rw [listed]
    exact timely
  | true =>
    rw [drain_rows timely.apart listed]
    have fates : ∀ row ∈ before.map (Row.settled latest policy answers now), ∃ was ∈ before, Fate latest policy answers now was row := by
      intro row member
      obtain ⟨was,has,same⟩ := List.mem_map.mp member
      exact ⟨was,has,same ▸ settled_fate latest policy answers now was⟩
    constructor
    · have ids : (before.map (Row.settled latest policy answers now)).map (·.message) = before.map (·.message) := by
        rw [List.map_map]
        exact List.map_congr_left fun row _ => (settled_fate latest policy answers now row).message
      rw [ids]
      exact timely.apart
    · intro row member
      obtain ⟨was,has,fate⟩ := fates row member
      rw [fate.enqueued]
      exact timely.early was has
    · intro row member pending
      obtain ⟨was,has,fate⟩ := fates row member
      rw [fate.deadline]
      cases fate with
      | unchanged still => exact timely.within row has pending
      | ended isDue over' => exact absurd pending over'
      | again isDue before => exact Int.min_le_right ..

theorem Timely.step {act : Act} (timely : Timely latest policy before) (step : Step latest policy before act after) :
    Timely latest policy after := by
  cases act with
  | drain now answers =>
    change after = _ at step
    rw [step]
    exact timely.drained answers now
  | enqueue message at' =>
    obtain ⟨new,early,made⟩ := step
    subst made
    constructor
    · unfold enqueue
      rw [List.map_append]
      apply timely.apart.append (List.nodup_singleton _)
      intro id before here
      have same : id = message := List.mem_singleton.mp here
      exact new (same ▸ before)
    · intro row member
      rcases List.mem_append.mp member with held | isNew
      · exact timely.early row held
      · rw [List.mem_singleton.mp isNew]
        exact early
    · intro row member pending
      rcases List.mem_append.mp member with held | isNew
      · exact timely.within row held pending
      · rw [List.mem_singleton.mp isNew]
        exact enqueued_le policy early

theorem empty_timely : Timely latest policy [] := ⟨List.nodup_nil,nofun,nofun⟩

-- What holds of the row of a message, which every pass keeps.
def Holds (message : Text) (keeps : Row → Prop) (outbox : Outbox) : Prop :=
  message ∈ outbox.map (·.message) ∧ ∀ row ∈ outbox, row.message = message → keeps row

theorem Holds.run {message : Text} {keeps : Row → Prop} {taken : List (Outbox × Act)} (timely : Timely latest policy before)
    (kept : ∀ {row next answers at'}, keeps row → Fate latest policy answers at' row next → keeps next) (holds : Holds message keeps before)
    (run : Run (Step latest policy) before taken last) : ∀ one ∈ taken, Timely latest policy one.1 ∧ Holds message keeps one.1 := by
  have first : Timely latest policy before ∧ Holds message keeps before := ⟨timely,holds⟩
  have along := @Run.keeps _ _ _ _ _ _ (fun outbox : Outbox => Timely latest policy outbox ∧ Holds message keeps outbox) first ?_ run
  · exact fun one member => (along.2 one member).1
  · intro outbox act after both step
    obtain ⟨timely,has,all⟩ := both
    refine ⟨timely.step step,?_⟩
    cases act with
    | enqueue other at' =>
      obtain ⟨new,_,made⟩ := step
      subst made
      unfold enqueue
      refine ⟨?_,?_⟩
      · rw [List.map_append]
        exact List.mem_append_left _ has
      · intro row member same
        rcases List.mem_append.mp member with held | isNew
        · exact all row held same
        · rw [List.mem_singleton.mp isNew] at same
          exact absurd has (same ▸ new)
    | drain at' answers =>
      change after = _ at step
      cases listed : answers.dueAnswers with
      | false =>
        unfold drain at step
        rw [listed] at step
        exact step ▸ ⟨has,all⟩
      | true =>
        rw [drain_rows timely.apart listed] at step
        subst step
        refine ⟨?_,?_⟩
        · rw [List.map_map]
          obtain ⟨row,held,same⟩ := List.mem_map.mp has
          exact List.mem_map.mpr ⟨row,held,(settled_fate latest policy answers at' row).message.trans same⟩
        · intro row member same
          obtain ⟨was,held,made⟩ := List.mem_map.mp member
          subst made
          have fate := settled_fate latest policy answers at' was
          exact kept (all was held (fate.message.symm.trans same)) fate

section
variable {taken later : List (Outbox × Act)}

theorem run_timely (run : Run (Step latest policy) [] taken outbox) : Timely latest policy outbox :=
  (run.keeps empty_timely fun timely step => timely.step step).1

-- A row that has ended is never due again.
theorem never_due_again {message : Text} (timely : Timely latest policy before)
    (ended : Holds message (fun row => row.standing ≠ .pending) before) (run : Run (Step latest policy) before later last) :
    ∀ one ∈ later, ∀ at', ∀ push ∈ due one.1 at', push.message ≠ message := by
  intro one member at' push isDue same
  have holds := (ended.run timely ?_ run one member).2
  · obtain ⟨row,has,dueRow,isPush⟩ := mem_due.mp isDue
    subst isPush
    exact holds.2 row has same (dueAt_iff.mp dueRow).1
  · intro row next answers at' done fate
    cases fate with
    | unchanged still => exact done
    | ended isDue over' => exact over'
    | again isDue before => exact absurd (dueAt_iff.mp isDue).1 done

theorem drained_row (timely : Timely latest policy before) (listed : answers.dueAnswers = true) (has : row ∈ before)
    {keeps : Row → Prop} (holds : keeps (row.settled latest policy answers now)) :
    Holds row.message keeps (drain latest policy answers before now).1 := by
  rw [drain_rows timely.apart listed]
  refine ⟨?_,?_⟩
  · rw [List.map_map]
    exact List.mem_map.mpr ⟨row,has,(settled_fate latest policy answers now row).message⟩
  · intro other member same
    obtain ⟨was,inBefore,made⟩ := List.mem_map.mp member
    subst made
    have isRow : was = row := List.inj_on_of_nodup_map timely.apart inBefore has
      ((settled_fate latest policy answers now was).message.symm.trans same)
    rw [isRow]
    exact holds

-- What a pass that was recorded leaves of a due row waits its delay, or for the deadline.
def Waits (latest : Timestamp) (policy : Policy) (row : Row) (now : Timestamp) (later : Row) : Prop :=
  later.enqueuedAt = row.enqueuedAt ∧ (later.standing = .pending →
    min (now+policy.delayAfter (row.attempts+1)) (deadline latest policy row.toPush) ≤ later.nextAttemptAt)

theorem settled_waits (isDue : row.dueAt now = true) (recorded : answers.record row.message ≠ .lost) :
    Waits latest policy row now (row.settled latest policy answers now) := by
  have fate := settled_fate latest policy answers now row
  generalize row.settled latest policy answers now = next at fate
  cases fate with
  | unchanged still =>
    rcases still with notDue | lost
    · exact absurd isDue (Bool.eq_false_iff.mp notDue)
    · exact absurd lost recorded
  | ended isDue over' => exact ⟨rfl,fun pending => absurd pending over'⟩
  | again isDue before => exact ⟨rfl,fun _ => Int.le_refl _⟩

theorem Waits.kept {first later : Row} (waits : Waits latest policy first now row) (fate : Fate latest policy answers at' row later) :
    Waits latest policy first now later := by
  obtain ⟨enqueued,bound⟩ := waits
  cases fate with
  | unchanged still => exact ⟨enqueued,bound⟩
  | ended isDue over' => exact ⟨enqueued,fun pending => absurd pending over'⟩
  | again isDue before =>
    obtain ⟨pending,arrived⟩ := dueAt_iff.mp isDue
    refine ⟨enqueued,fun _ => ?_⟩
    have same : deadline latest policy row.toPush = deadline latest policy first.toPush := by
      unfold deadline
      rw [enqueued]
    have reached := Int.le_trans (bound pending) arrived
    apply Int.le_min.mpr
    refine ⟨Int.le_trans reached (Int.le_add_of_nonneg_right (Int.natCast_nonneg _)),?_⟩
    rw [same]
    exact Int.min_le_right ..

-- Two attempts of one row are apart by its delay, or the later is on the deadline.
theorem attempts_apart (timely : Timely latest policy before) (listed : answers.dueAnswers = true) (has : row ∈ before)
    (isDue : row.dueAt now = true) (recorded : answers.record row.message ≠ .lost)
    (run : Run (Step latest policy) (drain latest policy answers before now).1 later last) :
    ∀ one ∈ later, ∀ at' answers' push, push ∈ due one.1 at' → push.message = row.message →
      Attempted latest policy answers' at' push →
      now+policy.delayAfter (row.attempts+1) ≤ at' ∨ at' = deadline latest policy row.toPush := by
  intro one member at' answers' push isDue' same attempted
  have holds := (Holds.run (timely.drained answers now) (fun waits fate => Waits.kept waits fate)
    (drained_row timely listed has (settled_waits isDue recorded)) run one member).2
  obtain ⟨again,inLater,dueAgain,isPush⟩ := mem_due.mp isDue'
  subst isPush
  obtain ⟨enqueued,bound⟩ := holds.2 again inLater same
  obtain ⟨pending,arrived⟩ := dueAt_iff.mp dueAgain
  have reached := Int.le_trans (bound pending) arrived
  have within := attempted.1
  have deadlines : deadline latest policy again.toPush = deadline latest policy row.toPush := by
    unfold deadline
    rw [enqueued]
  rw [deadlines] at within
  rcases min_le_iff.mp reached with waited | clipped
  · exact Or.inl waited
  · exact Or.inr (Int.le_antisymm within clipped)

end

end Pushing
