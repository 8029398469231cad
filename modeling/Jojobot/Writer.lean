import Jojobot.Library.Runs

namespace Writer

-- What one value says of all a write has sent so far.
inductive Phase where
  | inProcess
  | beforeCommit
  | committed
  | unknown
  | inFlight
  deriving DecidableEq

structure Native where
  phase : Phase
  unhandled : Bool
  deriving DecidableEq

-- What an operation on the store comes back with: done, the server's own error code,
-- no answer, or no connection to send it on.
inductive Answer where
  | done
  | refused
  | lost
  | unsent
  deriving DecidableEq

-- An error of the domain, one of the store, and the one that says nothing is known.
inductive Error where
  | domain
  | store
  | indeterminate
  deriving DecidableEq

def Error.unknown (error : Error) : Bool := error = .store || error = .indeterminate

namespace Native

def setPhase (native : Native) (phase : Phase) : Native :=
  if phase ≠ .beforeCommit ∨ native.phase ≠ .committed then { native with phase } else native

def reader (native : Native) : Native := if native.phase = .inProcess then native.setPhase .beforeCommit else native

def storeError (native : Native) (answered : Bool) : Native × Error :=
  if native.phase = .unknown || (native.phase = .inFlight && !answered) then ({ native with unhandled := true },.indeterminate)
  else (if native.phase = .inFlight then native.setPhase .beforeCommit else native,.store)

end Native

-- One guarded write: its phase, the statements of each transaction it has begun, the
-- connections it holds, and what became of the statements nothing can roll back.
structure Write where
  native : Native
  transactions : List Nat
  connections : Nat
  committed : Nat
  uncertain : Nat
  reported : Option (Option Error)
  deriving DecidableEq

def started : Write := ⟨⟨.inProcess,false⟩,[],0,0,0,none⟩

def Write.phase (write : Write) : Phase := write.native.phase

-- Something the write sent is committed, or may yet be found to be.
def Write.landed (write : Write) : Prop := 0 < write.committed ∨ 0 < write.uncertain

instance (write : Write) : Decidable write.landed := inferInstanceAs (Decidable (_ ∨ _))

inductive Act where
  | refuse
  | read
  | begin (answer : Answer)
  | inTransaction (i : Nat) (answer : Answer)
  | commit (i : Nat) (answer : Answer)
  | rollback (i : Nat)
  | acquire (answer : Answer)
  | onConnection (answer : Answer)
  | release
  | execute (answer : Answer)
  | executeMany
  | storeError (answered : Bool)
  | finish (result : Option Error)

namespace Write

-- A statement outside a transaction stands once it is answered, and may stand when
-- its answer is lost.
def sent (write : Write) (statements : Nat) : Answer → Write
  | .done => { write with committed := write.committed+statements }
  | .lost => { write with uncertain := write.uncertain+statements }
  | _ => write

def setPhase (write : Write) (phase : Phase) : Write := { write with native := write.native.setPhase phase }

def begin (write : Write) (answer : Answer) : Write :=
  let write := write.setPhase .beforeCommit
  if answer = .done then { write with transactions := write.transactions++[0] } else write

def commit (write : Write) (i statements : Nat) (answer : Answer) : Write :=
  let write := ({ write with transactions := write.transactions.eraseIdx i }.setPhase .unknown).sent statements answer
  if answer = .done then write.setPhase .committed else write

def acquire (write : Write) (answer : Answer) : Write :=
  let write := write.setPhase .beforeCommit
  if answer = .done then { write with connections := write.connections+1 }.setPhase .inFlight else write

def execute (write : Write) (answer : Answer) : Write :=
  let write := write.setPhase .beforeCommit
  if answer = .unsent then write
  else
    let write := (write.setPhase .inFlight).sent 1 answer
    if answer = .done then write.setPhase .committed else write

-- The stream has a connection of its own, and each statement in it runs on that.
def executeMany (write : Write) : Write := { write with connections := write.connections+1 }.setPhase .inFlight

-- What the write's result becomes: an error that may mean anything stays what it is
-- only where nothing was committed.
def guarded (write : Write) (result : Option Error) : Option Error :=
  if !(result.any Error.unknown) || write.phase = .beforeCommit then result else some .indeterminate

-- A write that finds its rail uncertain and cannot recover it is refused unstarted.
def act (write : Write) : Act → Option Write
  | .refuse => if write = started then some { write with reported := some (some .store) } else none
  | .read => some { write with native := write.native.reader }
  | .begin answer => some (write.begin answer)
  | .inTransaction i answer => write.transactions[i]?.map fun n =>
      { write with transactions := write.transactions.set i (if answer = .done ∨ answer = .lost then n+1 else n) }
  | .commit i answer => write.transactions[i]?.map fun n => write.commit i n answer
  | .rollback i => write.transactions[i]?.map fun _ => { write with transactions := write.transactions.eraseIdx i }
  | .acquire answer => some (write.acquire answer)
  | .onConnection answer => if 0 < write.connections then some (write.sent 1 answer) else none
  | .release => if 0 < write.connections then some { write with connections := write.connections-1 } else none
  | .execute answer => some (write.execute answer)
  | .executeMany => some write.executeMany
  | .storeError answered => some { write with native := (write.native.storeError answered).1 }
  | .finish result => some { write with reported := some (write.guarded result) }

def step (write : Write) (act : Act) : Option Write := if write.reported = none then write.act act else none

end Write

def stepping (before : Write) (act : Act) (after : Write) : Prop := before.step act = some after

-- What an error promises: none but the indeterminate one is reported, and none is
-- returned before the commit, once something has landed.
structure Kept (write : Write) : Prop where
  before : write.phase = .beforeCommit → ¬write.landed
  reported : ∀ error, write.reported = some (some error) → error ≠ .indeterminate → ¬write.landed

-- The steps the phase follows: after something has landed, nothing that sets it back
-- unless the phase says committed, no error code read as the whole write's, nothing
-- landing on a connection once the phase was set back, and no error of the domain.
def Follows (write : Write) : Act → Prop
  | .begin _ => write.landed → write.phase = .committed
  | .acquire answer => answer ≠ .done → write.landed → write.phase = .committed
  | .execute answer => answer = .unsent → write.landed → write.phase = .committed
  | .storeError answered => answered = true → write.phase = .inFlight → ¬write.landed
  | .onConnection answer => answer = .done ∨ answer = .lost → write.phase ≠ .beforeCommit
  | .finish result => result = some .domain → ¬write.landed
  | _ => True

instance (write : Write) (act : Act) : Decidable (Follows write act) := by
  unfold Follows
  split <;> infer_instance

end Writer
