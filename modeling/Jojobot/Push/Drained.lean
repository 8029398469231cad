import Jojobot.Push

namespace Pushing
open Library Std Memory Mailbox

variable {latest now : Timestamp} {policy : Policy} {answers : Answers} {outbox : Outbox} {row : Row} {push : Push}

def Row.dueAt (row : Row) (now : Timestamp) : Bool := row.standing = .pending && row.nextAttemptAt ≤ now

-- What a pass does to a row, which is a matter of the row and of what is answered about it.
def Row.settled (latest : Timestamp) (policy : Policy) (answers : Answers) (now : Timestamp) (row : Row) : Row :=
  if row.dueAt now ∧ answers.record row.message ≠ .lost then row.ended (tried latest policy answers now row.toPush).ending else row

theorem ended_message (row : Row) (ending : Ending) : (row.ended ending).message = row.message := by
  cases ending with
  | sent =>
    dsimp only [Row.ended]
    split
    · rfl
    · rfl
  | abandoned =>
    dsimp only [Row.ended]
    split
    · rfl
    · rfl
  | failed attempts next =>
    dsimp only [Row.ended]
    split
    · rfl
    · rfl

theorem mem_due : push ∈ due outbox now ↔ ∃ row ∈ outbox, row.dueAt now = true ∧ row.toPush = push := by
  unfold due
  rw [List.mem_map]
  constructor
  · intro member
    obtain ⟨row,found,same⟩ := member
    obtain ⟨has,isDue⟩ := List.mem_filter.mp (mem_sortBy.mp found)
    exact ⟨row,has,isDue,same⟩
  · intro member
    obtain ⟨row,has,isDue,same⟩ := member
    exact ⟨row,mem_sortBy.mpr (List.mem_filter.mpr ⟨has,isDue⟩),same⟩

theorem due_apart (apart : (outbox.map (·.message)).Nodup) : ((due outbox now).map (·.message)).Nodup := by
  unfold due
  rw [List.map_map]
  have filtered : ((outbox.filter fun row => row.standing = .pending && row.nextAttemptAt ≤ now).map (·.message)).Nodup :=
    apart.sublist ((List.filter_sublist ..).map _)
  exact ((sortBy_perm _ _).map _).nodup_iff.mpr filtered

theorem find_due (apart : (outbox.map (·.message)).Nodup) (has : row ∈ outbox) :
    (due outbox now).find? (·.message = row.message) = if row.dueAt now then some row.toPush else none := by
  split
  · rename_i isDue
    have member : row.toPush ∈ due outbox now := mem_due.mpr ⟨row,has,isDue,rfl⟩
    cases search : (due outbox now).find? (·.message = row.message) with
    | none =>
      have absent := List.find?_eq_none.mp search _ member
      exact absurd (decide_eq_true rfl) absent
    | some push =>
      have same : push.message = row.message := by simpa using List.find?_some search
      exact congrArg some (List.inj_on_of_nodup_map (due_apart apart) (List.mem_of_find?_eq_some search) member same)
  · rename_i notDue
    apply List.find?_eq_none.mpr
    intro push member same
    obtain ⟨other,inOutbox,isDue,isPush⟩ := mem_due.mp member
    have sameMessage : other.message = row.message := by
      subst isPush
      simpa using same
    have isRow : other = row := List.inj_on_of_nodup_map apart inOutbox has sameMessage
    exact notDue (isRow ▸ isDue)

-- A pass settles each row by itself.
theorem drain_rows (apart : (outbox.map (·.message)).Nodup) (listed : answers.dueAnswers = true) :
    (drain latest policy answers outbox now).1 = outbox.map (Row.settled latest policy answers now) := by
  have rows : ∀ (acts : List Push) (pass : Outbox × Drained), (acts.foldl (settle latest policy answers now) pass).1 =
      acts.foldl (fun outbox push => outbox.map fun row => if row.message = push.message then
        (if answers.record push.message ≠ .lost then row.ended (tried latest policy answers now push).ending else row) else row)
        pass.1 := by
    intro acts
    induction acts with
    | nil => exact fun _ => rfl
    | cons push rest ih =>
      intro pass
      rw [List.foldl_cons,List.foldl_cons,ih]
      congr 1
      unfold settle
      dsimp only
      cases recording : answers.record push.message with
      | recorded => rfl
      | lost =>
        have still : ∀ row ∈ pass.1, (if row.message = push.message then (if Recording.lost ≠ .lost then
            row.ended (tried latest policy answers now push).ending else row) else row) = id row := by
          intro row _
          split
          · exact if_neg fun differs => differs rfl
          · rfl
        exact ((List.map_congr_left still).trans (List.map_id _)).symm
      | landedUnanswered => rfl
  unfold drain
  rw [if_pos listed,rows,foldl_acts _ _ (due_apart apart)]
  · apply List.map_congr_left
    intro row has
    rw [find_due apart has]
    unfold Row.settled
    by_cases isDue : row.dueAt now = true
    · rw [if_pos isDue,Option.elim_some]
      by_cases lost : answers.record row.message ≠ .lost
      · rw [if_pos lost,if_pos ⟨isDue,lost⟩]
      · rw [if_neg lost,if_neg fun both => lost both.2]
    · rw [if_neg isDue,if_neg fun both => isDue both.1]
      rfl
  · intro push row
    split
    · exact ended_message ..
    · rfl

-- An attempt at a push: the message could not be read, or the notifier was told.
def Attempted (latest : Timestamp) (policy : Policy) (answers : Answers) (now : Timestamp) (push : Push) : Prop :=
  now ≤ deadline latest policy push ∧
    ((∃ why, answers.messageById push.message = .error why) ∨ (tried latest policy answers now push).told ≠ none)

theorem fail_told (why : Text) (told : Option Notification) : (fail latest policy push now told why).told = told := by
  unfold fail
  dsimp only
  split
  · rfl
  · rfl

-- The notifier is told of a message that still asks for attention, by the deadline.
theorem tried_told (told : (tried latest policy answers now push).told ≠ none) :
    now ≤ deadline latest policy push ∧ ∃ message, answers.messageById push.message = .ok (some message) ∧
      message.supersededBy = none ∧ message.state ≠ .processed := by
  unfold tried at told
  split at told
  · exact absurd rfl told
  · rename_i within
    refine ⟨Int.not_lt.mp within,?_⟩
    cases answer : answers.messageById push.message with
    | error why =>
      rw [answer] at told
      exact absurd (fail_told ..) told
    | ok found =>
      rw [answer] at told
      cases found with
      | none => exact absurd rfl told
      | some message =>
        dsimp only at told
        split at told
        · exact absurd rfl told
        · rename_i standing
          split at told
          · exact absurd rfl told
          · rename_i open'
            exact ⟨message,rfl,by simpa using standing,open'⟩

-- A push that is tried again was tried before its deadline, and waits its delay or for the deadline.
theorem fail_again {why : Text} {told : Option Notification} {attempts : Nat} {next : Timestamp}
    (again : (fail latest policy push now told why).ending = .failed attempts next) :
    now < deadline latest policy push ∧ attempts = push.attempts+1 ∧
      next = min ((checkedAdd latest now (policy.delayAfter (push.attempts+1))).getD (deadline latest policy push))
        (deadline latest policy push) := by
  unfold fail at again
  dsimp only at again
  split at again
  · cases again
  · rename_i early
    obtain ⟨count,moment⟩ := Ending.failed.inj again
    exact ⟨Int.not_le.mp early,count.symm,moment.symm⟩

theorem tried_again {attempts : Nat} {next : Timestamp} (again : (tried latest policy answers now push).ending = .failed attempts next) :
    now < deadline latest policy push ∧ attempts = push.attempts+1 ∧
      next = min ((checkedAdd latest now (policy.delayAfter (push.attempts+1))).getD (deadline latest policy push))
        (deadline latest policy push) := by
  unfold tried at again
  split at again
  · cases again
  · cases answer : answers.messageById push.message with
    | error why =>
      rw [answer] at again
      exact fail_again again
    | ok found =>
      rw [answer] at again
      cases found with
      | none => cases again
      | some message =>
        dsimp only at again
        split at again
        · cases again
        · split at again
          · cases again
          · split at again
            · cases again
            · exact fail_again again

theorem deadline_le : deadline latest policy push ≤ latest := by
  unfold deadline checkedAdd
  split
  · rename_i fits
    exact fits
  · exact Int.le_refl _

theorem enqueued_le (policy : Policy) (early : push.enqueuedAt ≤ latest) : push.enqueuedAt ≤ deadline latest policy push := by
  unfold deadline checkedAdd
  split
  · exact Int.le_add_of_nonneg_right (Int.natCast_nonneg _)
  · exact early

-- The next attempt of a push tried before its deadline: its delay on, or the deadline.
theorem next_attempt (push : Push) (delay : Duration) :
    min ((checkedAdd latest now delay).getD (deadline latest policy push)) (deadline latest policy push) =
      min (now+delay) (deadline latest policy push) := by
  have below := @deadline_le latest policy push
  unfold checkedAdd
  split
  · rfl
  · rename_i past
    have later : deadline latest policy push ≤ now+delay := Int.le_trans below (Int.le_of_lt (Int.not_le.mp past))
    rw [Option.getD_none,Int.min_self]
    exact (Int.min_eq_right later).symm

end Pushing
