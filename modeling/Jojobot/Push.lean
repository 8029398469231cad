import Jojobot.Library.Keyed
import Jojobot.Library.Sorting
import Jojobot.Mailbox

namespace Pushing
open Library Std Memory Mailbox

-- The latest moment there is, and a span in nanoseconds, as a moment is.
variable (latest : Timestamp)

abbrev Duration := Nat

structure Push where
  message : Text
  enqueuedAt : Timestamp
  attempts : Nat
  nextAttemptAt : Timestamp
deriving DecidableEq, Repr

inductive Standing where
  | pending | sent | abandoned
deriving DecidableEq, Repr

-- A row of the outbox, which is kept however its push ends.
structure Row extends Push where
  standing : Standing
deriving DecidableEq, Repr

abbrev Outbox := List Row

structure Notification where
  title : Text
  body : Text
deriving DecidableEq, Repr

def Notification.of (message : Message) : Notification where
  title :=
    let sender := trim message.sender
    ((message.subject.map trim).filter (· ≠ [])).getD sender
  body := "From ".toList ++ trim message.sender ++ "\n\n".toList ++ message.body

structure Policy where
  firstDelay : Duration
  longestDelay : Duration
  window : Duration
deriving DecidableEq, Repr

def Policy.delayAfter (policy : Policy) (attempts : Nat) : Duration :=
  let doublings := min (attempts-1) 32
  min (policy.firstDelay*min (2^doublings) (2^32-1)) policy.longestDelay

-- Why a push is not coming, or no longer needs to.
inductive Reason where
  | windowRanOut
  | noReadableMessage
  | undelivered (attempts : Nat) (why : Text)
  | replaced
  | finished
deriving DecidableEq, Repr

structure Drained where
  sent : List Text := []
  abandoned : List (Text × Reason) := []
  withdrawn : List (Text × Reason) := []
  unrecorded : List Text := []
  nextDue : Option Timestamp := none
deriving DecidableEq, Repr

-- What the outbox is asked to record of a push.
inductive Ending where
  | sent
  | failed (attempts : Nat) (nextAttemptAt : Timestamp)
  | abandoned
deriving DecidableEq, Repr

-- Where a pass lists a push, when it lists it.
inductive Listing where
  | sent
  | abandoned (reason : Reason)
  | withdrawn (reason : Reason)
  | none
deriving DecidableEq, Repr

-- How one due push was tried: what was told of it, and how it ends.
structure Tried where
  told : Option Notification := none
  ending : Ending
  listing : Listing
deriving DecidableEq, Repr

def checkedAdd (moment : Timestamp) (span : Duration) : Option Timestamp :=
  if moment+span ≤ latest then some (moment+span) else none

def deadline (policy : Policy) (push : Push) : Timestamp := (checkedAdd latest push.enqueuedAt policy.window).getD latest

def giveUp (reason : Reason) : Tried := { ending := .abandoned, listing := .abandoned reason }

def fail (policy : Policy) (push : Push) (now : Timestamp) (told : Option Notification) (why : Text) : Tried :=
  let deadline := deadline latest policy push
  if deadline ≤ now then ⟨told,.abandoned,.abandoned (.undelivered (push.attempts+1) why)⟩
  else
    let attempts := push.attempts+1
    let next := min ((checkedAdd latest now (policy.delayAfter attempts)).getD deadline) deadline
    ⟨told,.failed attempts next,.none⟩

-- What the ports answer in one pass: the message a push is about, whether the notifier
-- carries it, and whether the outbox records how the push ended.
inductive Recording where
  | recorded
  | lost
  | landedUnanswered
deriving DecidableEq, Repr

structure Answers where
  messageById : Text → Except Text (Option Message)
  deliver : Text → Notification → Except Text Unit
  record : Text → Recording
  dueAnswers : Bool := true
  nextDueAnswers : Bool := true

def tried (policy : Policy) (answers : Answers) (now : Timestamp) (push : Push) : Tried :=
  if deadline latest policy push < now then giveUp .windowRanOut
  else match answers.messageById push.message with
    | .ok none => giveUp .noReadableMessage
    | .error why => fail latest policy push now none ("the message could not be read: ".toList ++ why)
    | .ok (some message) =>
      if message.supersededBy.isSome then { ending := .abandoned, listing := .withdrawn .replaced }
      else if message.state = .processed then { ending := .abandoned, listing := .withdrawn .finished }
      else match answers.deliver push.message (Notification.of message) with
        | .ok _ => ⟨some (Notification.of message),.sent,.sent⟩
        | .error why => fail latest policy push now (some (Notification.of message)) why

-- A count as the row's column holds it.
def storedAttempts (attempts : Nat) : Nat := min attempts (2^31-1)

-- A row that is not pending is left as it is.
def Row.ended (row : Row) : Ending → Row
  | .sent => if row.standing = .pending then { row with standing := .sent } else row
  | .abandoned => if row.standing = .pending then { row with standing := .abandoned } else row
  | .failed attempts next =>
    if row.standing = .pending then { row with attempts := storedAttempts attempts, nextAttemptAt := next } else row

def recordEnding (outbox : Outbox) (message : Text) (ending : Ending) : Outbox :=
  outbox.map fun row => if row.message = message then row.ended ending else row

def Drained.list (drained : Drained) (message : Text) : Listing → Drained
  | .sent => { drained with sent := drained.sent ++ [message] }
  | .abandoned reason => { drained with abandoned := drained.abandoned ++ [(message,reason)] }
  | .withdrawn reason => { drained with withdrawn := drained.withdrawn ++ [(message,reason)] }
  | .none => drained

def due (outbox : Outbox) (now : Timestamp) : List Push :=
  (sortBy (compareLex (compareOn (·.enqueuedAt)) (compareOn (·.message)))
    (outbox.filter fun row => row.standing = .pending && row.nextAttemptAt ≤ now)).map (·.toPush)

def nextDue (outbox : Outbox) : Option Timestamp := ((outbox.filter (·.standing = .pending)).map (·.nextAttemptAt)).min?

def settle (policy : Policy) (answers : Answers) (now : Timestamp) (pass : Outbox × Drained) (push : Push) : Outbox × Drained :=
  let tried := tried latest policy answers now push
  match answers.record push.message with
  | .recorded => (recordEnding pass.1 push.message tried.ending,pass.2.list push.message tried.listing)
  | .lost => (pass.1,{ pass.2 with unrecorded := pass.2.unrecorded ++ [push.message] })
  | .landedUnanswered =>
    (recordEnding pass.1 push.message tried.ending,{ pass.2 with unrecorded := pass.2.unrecorded ++ [push.message] })

-- Only a store that cannot list its rows fails the pass.
def drain (policy : Policy) (answers : Answers) (outbox : Outbox) (now : Timestamp) : Outbox × Option Drained :=
  if answers.dueAnswers then
    let pass := (due outbox now).foldl (settle latest policy answers now) (outbox,{})
    (pass.1,if answers.nextDueAnswers then some { pass.2 with nextDue := nextDue pass.1 } else none)
  else (outbox,none)

-- The intent written with a message of a person's box, due at once.
def enqueue (outbox : Outbox) (message : Text) (at' : Timestamp) : Outbox := outbox ++ [⟨⟨message,at',0,at'⟩,.pending⟩]

end Pushing
