import Jojobot.Push.Settled

namespace Pushing
open Library Std Memory Mailbox

variable {latest now : Timestamp} {policy : Policy} {answers others : Answers} {outbox : Outbox} {message : Text}

-- What a pass says of the push of one message.
structure About where
  sent : List Text
  abandoned : List (Text × Reason)
  withdrawn : List (Text × Reason)
  unrecorded : List Text
deriving DecidableEq, Repr

def Drained.about (drained : Drained) (message : Text) : About where
  sent := drained.sent.filter (· = message)
  abandoned := drained.abandoned.filter (·.1 = message)
  withdrawn := drained.withdrawn.filter (·.1 = message)
  unrecorded := drained.unrecorded.filter (· = message)

-- The ports answer alike of a message, whatever they answer of others.
structure AgreeAbout (message : Text) (answers others : Answers) : Prop where
  read : answers.messageById message = others.messageById message
  deliver : answers.deliver message = others.deliver message
  record : answers.record message = others.record message

theorem AgreeAbout.tried {push : Push} (agree : AgreeAbout push.message answers others) :
    tried latest policy answers now push = Pushing.tried latest policy others now push := by
  unfold Pushing.tried
  rw [agree.read,agree.deliver]

theorem AgreeAbout.settled {row : Row} (agree : AgreeAbout row.message answers others) :
    row.settled latest policy answers now = row.settled latest policy others now := by
  have same : Pushing.tried latest policy answers now row.toPush = Pushing.tried latest policy others now row.toPush := agree.tried
  unfold Row.settled
  rw [agree.record,same]

theorem filter_other {α : Type} (key : α → Text) (held : List α) {one : α} (other : key one ≠ message) :
    (held ++ [one]).filter (fun entry => key entry = message) = held.filter (fun entry => key entry = message) := by
  rw [List.filter_append,List.filter_singleton,decide_eq_false other]
  exact List.append_nil _

theorem list_other (drained : Drained) {other : Text} (differs : other ≠ message) (listing : Listing) :
    (drained.list other listing).about message = drained.about message := by
  unfold Drained.about
  cases listing with
  | sent => exact congrArg (About.mk · _ _ _) (filter_other id _ differs)
  | abandoned reason => exact congrArg (About.mk _ · _ _) (filter_other Prod.fst _ differs)
  | withdrawn reason => exact congrArg (About.mk _ _ · _) (filter_other Prod.fst _ differs)
  | none => rfl

theorem list_same {first second : Drained} (same : first.about message = second.about message) (id : Text) (listing : Listing) :
    (first.list id listing).about message = (second.list id listing).about message := by
  unfold Drained.about at same ⊢
  obtain ⟨sent,abandoned,withdrawn,unrecorded⟩ := About.mk.inj same
  cases listing with
  | sent => simp only [Drained.list,List.filter_append,sent,abandoned,withdrawn,unrecorded]
  | abandoned reason => simp only [Drained.list,List.filter_append,sent,abandoned,withdrawn,unrecorded]
  | withdrawn reason => simp only [Drained.list,List.filter_append,sent,abandoned,withdrawn,unrecorded]
  | none => exact same

theorem unrecorded_same {first second : Drained} (same : first.about message = second.about message) (id : Text) :
    ({ first with unrecorded := first.unrecorded ++ [id] } : Drained).about message =
      ({ second with unrecorded := second.unrecorded ++ [id] } : Drained).about message := by
  unfold Drained.about at same ⊢
  obtain ⟨sent,abandoned,withdrawn,unrecorded⟩ := About.mk.inj same
  simp only [List.filter_append,sent,abandoned,withdrawn,unrecorded]

theorem unrecorded_other (drained : Drained) {other : Text} (differs : other ≠ message) :
    ({ drained with unrecorded := drained.unrecorded ++ [other] } : Drained).about message = drained.about message :=
  congrArg (About.mk _ _ _ ·) (filter_other id _ differs)

theorem settle_other {push : Push} (differs : push.message ≠ message) (pass : Outbox × Drained) :
    (settle latest policy answers now pass push).2.about message = pass.2.about message := by
  unfold settle
  cases answers.record push.message with
  | recorded => exact list_other pass.2 differs _
  | lost => exact unrecorded_other pass.2 differs
  | landedUnanswered => exact unrecorded_other pass.2 differs

theorem settle_same {first second : Outbox × Drained} {push : Push} (agree : AgreeAbout push.message answers others)
    (same : first.2.about message = second.2.about message) :
    (settle latest policy answers now first push).2.about message = (settle latest policy others now second push).2.about message := by
  unfold settle
  rw [agree.tried,agree.record]
  cases others.record push.message with
  | recorded => exact list_same same _ _
  | lost => exact unrecorded_same same _
  | landedUnanswered => exact unrecorded_same same _

-- One step at a time, what is said of a message is what is answered of it.
theorem settled_about (agree : AgreeAbout message answers others) (pushes : List Push) {first second : Outbox × Drained}
    (same : first.2.about message = second.2.about message) :
    (pushes.foldl (settle latest policy answers now) first).2.about message =
      (pushes.foldl (settle latest policy others now) second).2.about message := by
  induction pushes generalizing first second with
  | nil => exact same
  | cons push rest ih =>
    apply ih
    by_cases is : push.message = message
    · exact settle_same (is ▸ agree) same
    · exact (settle_other is first).trans (same.trans (settle_other is second).symm)

theorem drain_about (agree : AgreeAbout message answers others) {one other : Drained}
    (reported : (drain latest policy answers outbox now).2 = some one)
    (others' : (drain latest policy others outbox now).2 = some other) : one.about message = other.about message := by
  unfold drain at reported others'
  split at reported
  · split at others'
    · dsimp only at reported others'
      split at reported
      · split at others'
        · cases reported
          cases others'
          exact settled_about agree _ rfl
        · cases others'
      · cases reported
    · cases others'
  · cases reported

theorem drain_row (agree : AgreeAbout message answers others) (apart : (outbox.map (·.message)).Nodup)
    (listed : answers.dueAnswers = true) (others' : others.dueAnswers = true) :
    (drain latest policy answers outbox now).1.filter (·.message = message) =
      (drain latest policy others outbox now).1.filter (·.message = message) := by
  rw [drain_rows apart listed,drain_rows apart others',List.filter_map,List.filter_map]
  have kept : ∀ answers : Answers, ((fun row : Row => decide (row.message = message)) ∘ Row.settled latest policy answers now) =
      fun row => decide (row.message = message) := by
    intro answers
    funext row
    exact congrArg (fun id => decide (id = message)) (settled_fate latest policy answers now row).message
  rw [kept answers,kept others]
  apply List.map_congr_left
  intro row member
  have is : row.message = message := of_decide_eq_true (List.mem_filter.mp member).2
  exact AgreeAbout.settled (is ▸ agree)

end Pushing
