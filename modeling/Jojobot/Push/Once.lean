import Jojobot.Push.Apart

namespace Pushing
open Library Std Memory Mailbox

section
variable {latest : Timestamp} {policy : Policy} {now : Outbox} {taken : List (Outbox × Act)}

-- The deadline stops at the latest moment there is, so it is never past the window.
theorem deadline_window {push : Push} : deadline latest policy push ≤ push.enqueuedAt+policy.window := by
  unfold deadline checkedAdd
  split
  · exact Int.le_refl _
  · rename_i past
    exact Int.le_of_lt (Int.not_le.mp past)

theorem sent_row {answers : Answers} {at' : Timestamp} {row : Row} (isDue : row.dueAt at' = true)
    (sent : (tried latest policy answers at' row.toPush).ending = .sent) (recorded : answers.record row.message ≠ .lost) :
    (row.settled latest policy answers at').standing ≠ .pending := by
  unfold Row.settled
  rw [if_pos ⟨isDue,recorded⟩,sent]
  dsimp only [Row.ended]
  rw [if_pos (dueAt_iff.mp isDue).1]
  exact Standing.noConfusion

-- A push is settled by its deadline, once, and is never held up by another.
theorem a_push_is_settled_by_its_deadline (first : 0 < policy.firstDelay) (run : Run (Step latest policy) [] taken now) :
    (∀ row ∈ now, row.standing = .pending → row.nextAttemptAt ≤ row.enqueuedAt+policy.window) ∧
    (∀ answers at', ∀ push ∈ due now at', (tried latest policy answers at' push).told ≠ none →
      at' ≤ deadline latest policy push ∧ ∃ message, answers.messageById push.message = .ok (some message) ∧
        message.supersededBy = none ∧ message.state ≠ .processed) ∧
    (∀ answers at', answers.dueAnswers = true → ∀ row ∈ now, row.dueAt at' = true → answers.record row.message ≠ .lost →
      ∀ later last, Run (Step latest policy) (drain latest policy answers now at').1 later last →
      ∀ one ∈ later, ∀ again answers', ∀ push ∈ due one.1 again, push.message = row.message →
        (tried latest policy answers at' row.toPush).ending ≠ .sent ∧
        (Attempted latest policy answers' again push →
          at'+policy.delayAfter (row.attempts+1) ≤ again ∨ again = deadline latest policy row.toPush)) ∧
    (∀ answers others at' message, answers.dueAnswers = true → others.dueAnswers = true → AgreeAbout message answers others →
      (drain latest policy answers now at').1.filter (·.message = message) =
        (drain latest policy others now at').1.filter (·.message = message) ∧
      ∀ one other, (drain latest policy answers now at').2 = some one → (drain latest policy others now at').2 = some other →
        one.about message = other.about message) ∧
    (0 < policy.longestDelay → ∀ (every : Nat → Answers) at',
      (∀ pass, (every pass).dueAnswers = true ∧ (every pass).nextDueAnswers = true) →
      (∀ pass message, (every pass).record message ≠ .lost) →
      (∃ passes, (chase latest policy every (now,some at') passes).2 = none ∧
        ∀ row ∈ (chase latest policy every (now,some at') passes).1, row.standing ≠ .pending) ∧
      ∀ pass again, (chase latest policy every (now,some at') (pass+1)).2 = some again →
        ∀ row ∈ (chase latest policy every (now,some at') (pass+1)).1, row.standing = .pending →
          again ≤ deadline latest policy row.toPush) := by
  have timely := run_timely run
  refine ⟨?_,?_,?_,?_,?_⟩
  · intro row has pending
    exact Int.le_trans (timely.within row has pending) deadline_window
  · intro answers at' push _ told
    exact tried_told told
  · intro answers at' listed row has isDue recorded later last rest one member again answers' push dueAgain same
    refine ⟨fun sent => ?_,fun attempted => ?_⟩
    · have ended := @drained_row _ _ _ _ _ _ timely listed has (fun row => row.standing ≠ .pending) (sent_row isDue sent recorded)
      exact never_due_again (timely.drained answers at') ended rest one member again push dueAgain same
    · exact attempts_apart timely listed has isDue recorded rest one member again answers' push dueAgain same attempted
  · intro answers others at' message listed others' agree
    exact ⟨drain_row agree timely.apart listed others',fun one other => drain_about agree⟩
  · intro longest every at' listed recorded
    refine ⟨?_,?_⟩
    · exact chase_ends (delay_positive first longest) timely listed recorded ⟨at',rfl⟩
    · exact fun pass again moment => chase_within timely listed ⟨at',rfl⟩ pass moment

end

-- Ten seconds, doubling to five minutes, for one hour.
def Policy.default : Policy where
  firstDelay := 10000000000
  longestDelay := 300000000000
  window := 3600000000000

def posted : Outbox := enqueue [] ['m'] 0

def asked : Message where
  id := ['m']
  mailbox := ['b']
  body := ['t']
  subject := none
  sender := ['s']
  sentAt := 0
  state := .new
  notes := none
  inReplyTo := none
  supersedes := none
  supersededBy := none
  takenBy := none
  senderMailWaitingAtSend := none
  postedBySession := none

def answering (delivered : Except Text Unit) (record : Recording) : Answers where
  messageById _ := .ok (some asked)
  deliver _ _ := delivered
  record _ := record

theorem posted_run : Run (Step 253402207200999999999 policy) [] [([],.enqueue ['m'] 0)] posted :=
  .step .start ⟨List.not_mem_nil,by decide,rfl⟩

theorem a_posted_push_is_settled :
    (∀ row ∈ posted, row.standing = .pending → row.nextAttemptAt ≤ row.enqueuedAt+Policy.default.window) ∧
    ∃ passes, (chase 253402207200999999999 Policy.default (fun _ => answering (.error []) .recorded) (posted,some 0) passes).2 = none := by
  have settled := a_push_is_settled_by_its_deadline (by decide) (@posted_run Policy.default)
  refine ⟨settled.1,?_⟩
  obtain ⟨passes,ends,_⟩ := (settled.2.2.2.2 (by decide) (fun _ => answering (.error []) .recorded) 0
    (fun _ => ⟨rfl,rfl⟩) (fun _ _ => Recording.noConfusion)).1
  exact ⟨passes,ends⟩

def Policy.hurried : Policy := { Policy.default with longestDelay := 0 }

def again (attempts : Nat) : Outbox := [⟨⟨['m'],0,attempts,0⟩,.pending⟩]

theorem hurried_again (attempts : Nat) : ∃ more,
    advance 253402207200999999999 Policy.hurried (answering (.error []) .recorded) (again attempts,some 0) = (again more,some 0) := by
  let answers := answering (.error []) .recorded
  let row : Row := ⟨⟨['m'],0,attempts,0⟩,.pending⟩
  refine ⟨storedAttempts (attempts+1),?_⟩
  have noDelay : Policy.hurried.delayAfter (attempts+1) = 0 := Nat.min_zero _
  have tries : (tried 253402207200999999999 Policy.hurried answers 0 row.toPush).ending = .failed (attempts+1) 0 := by
    change (fail 253402207200999999999 Policy.hurried row.toPush 0 _ []).ending = _
    unfold fail
    dsimp only
    rw [noDelay]
    rfl
  have settled : row.settled 253402207200999999999 Policy.hurried answers 0 =
      { row with attempts := storedAttempts (attempts+1), nextAttemptAt := 0 } := by
    unfold Row.settled
    rw [if_pos ⟨rfl,Recording.noConfusion⟩,tries]
    rfl
  have rows : (drain 253402207200999999999 Policy.hurried answers (again attempts) 0).1 = again (storedAttempts (attempts+1)) := by
    have apart : ((again attempts).map (·.message)).Nodup := List.nodup_singleton ['m']
    rw [drain_rows apart rfl]
    exact congrArg (fun settled => [settled]) settled
  have reports := @drain_reports 253402207200999999999 Policy.hurried answers rfl rfl (again attempts) 0
  unfold Reports at reports
  exact Prod.ext rows (reports.trans (congrArg nextDue rows))

-- An attempt the outbox did not record is made again at once, and without a record, or
-- without a wait, there is no last pass.
theorem an_unrecorded_push_is_tried_at_once :
    (Run (Step 253402207200999999999 Policy.default) [] [([],.enqueue ['m'] 0)] posted ∧
      (drain 253402207200999999999 Policy.default (answering (.error []) .lost) posted 0).1 = posted ∧
      (∀ push ∈ due posted 0, Attempted 253402207200999999999 Policy.default (answering (.error []) .lost) 0 push ∧
        ¬ (0+Policy.default.delayAfter (push.attempts+1) ≤ 0 ∨ 0 = deadline 253402207200999999999 Policy.default push)) ∧
      due posted 0 ≠ []) ∧
    (∀ passes, chase 253402207200999999999 Policy.default (fun _ => answering (.ok ()) .lost) (posted,some 0) passes = (posted,some 0)) ∧
    (∀ passes, ∃ attempts, chase 253402207200999999999 Policy.hurried (fun _ => answering (.error []) .recorded) (posted,some 0) passes =
      (again attempts,some 0)) := by
  refine ⟨⟨posted_run,by decide +kernel,?_,by decide +kernel⟩,?_,?_⟩
  · intro push member
    have is : due posted 0 = [⟨['m'],0,0,0⟩] := by decide +kernel
    rw [is] at member
    rw [List.mem_singleton.mp member]
    exact ⟨⟨by decide +kernel,Or.inr (by decide +kernel)⟩,by decide +kernel⟩
  · intro passes
    induction passes with
    | zero => rfl
    | succ pass ih =>
      unfold chase
      rw [ih]
      decide +kernel
  · intro passes
    induction passes with
    | zero => exact ⟨0,rfl⟩
    | succ pass ih =>
      obtain ⟨attempts,is⟩ := ih
      unfold chase
      rw [is]
      exact hurried_again attempts

end Pushing
