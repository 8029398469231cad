import Jojobot.Library.Runs
import Jojobot.Library.Text

namespace Counting
open Library

-- What a call's bookkeeping is: a count, or the characters a run was served on a day.
inductive Item (κ δ : Type) where
  | count (key : κ)
  | served (id : Text) (chars : Nat) (day : δ)

inductive Work (κ δ : Type) where
  | item (item : Item κ δ)
  | settle (caller : Nat)

-- How a write on the inner port ends. Whichever it is, the port was called once.
inductive Outcome where
  | landed
  | refused
  | panicked

-- The reads of the port that show what is counted.
inductive Read where
  | runTotals
  | callCounts
  | servedDays
  | runCalls (runs : Option (List Text))
  | summariesOf (bot : Text)
  | allSummaries
  | summaryOf (id : Text)

inductive Ask where
  | read (read : Read)
  | resetServed (id : Text)

-- The layer writes all of these out but `summary_of`, which the macro forwards as it is.
def Ask.waits : Ask → Bool
  | .read (.summaryOf _) => false
  | _ => true

-- What reached the inner port, in order. `other` is any write the layer only forwards.
inductive Entry (κ δ ω : Type) where
  | applied (item : Item κ δ) (outcome : Outcome)
  | reset (id : Text) (before : List (Item κ δ))
  | other (write : ω)

-- Any port that answers each call in turn: what each call does to it, and what each read shows.
structure Port (κ δ ω σ α : Type) where
  start : σ
  apply : Item κ δ → Outcome → σ → σ
  reset : Text → σ → σ
  other : ω → σ → σ
  read : Read → σ → α

inductive Phase where
  | called
  | waiting
  | settled
  | answered
  deriving DecidableEq

-- A caller, with what had been accepted when it called.
structure Caller (κ δ : Type) where
  asks : Ask
  before : List (Item κ δ)
  phase : Phase

structure Answered (κ δ ω α : Type) where
  read : Read
  before : List (Item κ δ)
  log : List (Entry κ δ ω)
  answer : α

-- The lane is opened by the first count.
structure Counts (κ δ ω α : Type) where
  lane : Option (List (Work κ δ))
  accepted : List (Item κ δ)
  log : List (Entry κ δ ω)
  callers : List (Caller κ δ)
  answers : List (Answered κ δ ω α)

variable {κ δ ω σ α : Type}

def Port.entry (port : Port κ δ ω σ α) (state : σ) : Entry κ δ ω → σ
  | .applied item outcome => port.apply item outcome state
  | .reset id _ => port.reset id state
  | .other write => port.other write state

def Port.after (port : Port κ δ ω σ α) (log : List (Entry κ δ ω)) : σ := log.foldl port.entry port.start

def appliedIn (log : List (Entry κ δ ω)) : List (Item κ δ) :=
  log.filterMap fun
    | .applied item _ => some item
    | _ => none

def pendingIn (queue : List (Work κ δ)) : List (Item κ δ) :=
  queue.filterMap fun
    | .item item => some item
    | _ => none

def fresh : Counts κ δ ω α := ⟨none,[],[],[],[]⟩

inductive Act (κ δ ω : Type) where
  | accept (item : Item κ δ)
  | call (ask : Ask)
  | settle (caller : Nat)
  | work (outcome : Outcome)
  | inner (caller : Nat)
  | other (write : ω)

namespace Counts

def queue (counts : Counts κ δ ω α) : List (Work κ δ) := counts.lane.getD []

-- `count_call` and `add_served`: put on the lane, and answered at once.
def accept (counts : Counts κ δ ω α) (item : Item κ δ) : Counts κ δ ω α :=
  { counts with lane := some (counts.queue++[.item item]), accepted := counts.accepted++[item] }

def setPhase (counts : Counts κ δ ω α) (i : Nat) (caller : Caller κ δ) (phase : Phase) : List (Caller κ δ) :=
  counts.callers.set i { caller with phase }

-- The lane's worker takes the next piece; a caller that waits behind it goes on.
def apply (counts : Counts κ δ ω α) (outcome : Outcome) : Option (Counts κ δ ω α) :=
  match counts.lane with
  | some (.item item::rest) => some { counts with lane := some rest, log := counts.log++[.applied item outcome] }
  | some (.settle i::rest) =>
    match counts.callers[i]? with
    | some caller => some { counts with lane := some rest, callers := counts.setPhase i caller .settled }
    | none => some { counts with lane := some rest }
  | _ => none

-- A caller's own call of the inner port.
def innerCall (port : Port κ δ ω σ α) (counts : Counts κ δ ω α) (i : Nat) (caller : Caller κ δ) : Counts κ δ ω α :=
  match caller.asks with
  | .read read =>
    { counts with
      callers := counts.setPhase i caller .answered
      answers := counts.answers++[⟨read,caller.before,counts.log,port.read read (port.after counts.log)⟩] }
  | .resetServed id =>
    { counts with callers := counts.setPhase i caller .answered, log := counts.log++[.reset id caller.before] }

def step (port : Port κ δ ω σ α) (counts : Counts κ δ ω α) : Act κ δ ω → Option (Counts κ δ ω α)
  | .accept item => some (counts.accept item)
  | .call ask => some { counts with callers := counts.callers++[⟨ask,counts.accepted,.called⟩] }
  | .settle i =>
    match counts.callers[i]? with
    | some caller =>
      if caller.phase = .called ∧ caller.asks.waits = true then
        match counts.lane with
        | some queue =>
          some { counts with lane := some (queue++[.settle i]), callers := counts.setPhase i caller .waiting }
        | none => some { counts with callers := counts.setPhase i caller .settled }
      else none
    | none => none
  | .work outcome => counts.apply outcome
  | .inner i =>
    match counts.callers[i]? with
    | some caller =>
      if caller.phase = .settled ∨ (caller.phase = .called ∧ caller.asks.waits = false) then some (counts.innerCall port i caller)
      else none
    | none => none
  | .other write => some { counts with log := counts.log++[.other write] }

end Counts

def stepping (port : Port κ δ ω σ α) (before : Counts κ δ ω α) (act : Act κ δ ω) (after : Counts κ δ ω α) : Prop :=
  before.step port act = some after

-- A read the layer does not hold back is asked of the port while nothing accepted
-- before it was called is still on the lane.
def Prompt (counts : Counts κ δ ω α) : Act κ δ ω → Prop
  | .inner i => ∀ caller ∈ counts.callers[i]?, caller.asks.waits = false →
      (pendingIn counts.queue).length ≤ counts.accepted.length-caller.before.length
  | _ => True

instance (counts : Counts κ δ ω α) (act : Act κ δ ω) : Decidable (Prompt counts act) := by
  unfold Prompt
  split <;> infer_instance

end Counting
