import Jojobot.Memory.Facts
import Jojobot.Memory.Order

namespace Entries
open Library Std Memory

def HELD_TURN : Text := "held_turn".toList
def HELD_SINCE : Text := "held_since".toList
def TICK_ENTRY : Text := "tick_entry".toList
def TICK_ACT : Text := "tick_act".toList

inductive Placement where
  | last | first | after (target : FactAddress)
deriving DecidableEq, Repr

inductive EntryState where
  | OPEN | DONE | DROPPED
deriving DecidableEq, Repr

inductive Setting where
  | sink | leave | back
deriving DecidableEq, Repr

inductive Act where
  | done | undone | rotated | dropped
deriving DecidableEq, Repr

def Act.asToken : Act → Text
  | .done => "done".toList
  | .undone => "undone".toList
  | .rotated => "rotated".toList
  | .dropped => "dropped".toList

def Act.of (word : Text) : Option Act :=
  [Act.done,.undone,.rotated,.dropped].find? (·.asToken = trim word)

inductive PlaceError where
  | notAnEntry (named : Text) (entries : List Text)
  | notMovable (named : Text) (state : EntryState)
  | followsItself (named : Text)
  | notAPlaceToFollow (named : Text) (state : EntryState)
  | noRoom (reason : OrderError)
deriving DecidableEq, Repr

-- The kind a handle names is the token before its first colon.
def onAList (home : EntityId) : Bool := "list:".toList.isPrefixOf home

def isEntry (fact : Fact) : Bool := onAList fact.home && fact.fields.contains ORDER

def isTick (fact : Fact) : Bool :=
  onAList fact.home && fact.fields.contains TICK_ENTRY && fact.fields.contains TICK_ACT &&
    !fact.fields.contains ORDER

def openEntries (facts : List Fact) : List Fact :=
  (placedInOrder facts).filter fun fact => fact.status = .active && isEntry fact

def activeTicks (facts : List Fact) : List (Fact × Act) :=
  sortBy (compareOn fun tick => claimSequence tick.1)
    ((facts.filter fun fact => fact.status = .active && isTick fact).filterMap fun fact =>
      (Act.of ((fact.fields[TICK_ACT]?).getD [])).map (fact,·))

structure Standing where
  doneAt : Option Nat
  turnAt : Option Nat
  lastTick : Option Nat
  dropped : Bool
deriving DecidableEq, Repr

def Standing.new : Standing := ⟨none,none,none,false⟩

def Standing.ticked (setting : Setting) (now : Standing) (number : Nat) (act : Act) : Standing :=
  let now := { now with lastTick := some number }
  match act,setting with
  | .done,.back | .rotated,_ => { now with turnAt := some number,doneAt := none,dropped := false }
  | .done,_ => { now with doneAt := some number,dropped := false }
  | .undone,_ => { now with doneAt := none,dropped := false }
  | .dropped,_ => { now with dropped := true,doneAt := none }

def namedBy (tick : Fact) : Text := trim ((tick.fields[TICK_ENTRY]?).getD [])

-- The standing the view's one pass over the ticks leaves at one entry.
def Standing.tick (setting : Setting) (id : Text) (now : Standing) (tick : Fact × Act) : Standing :=
  if namedBy tick.1 = id then now.ticked setting (claimSequence tick.1) tick.2 else now

def standingOf (facts : List Fact) (setting : Setting) (id : Text) : Standing :=
  (activeTicks facts).foldl (Standing.tick setting id) .new

def Standing.state (now : Standing) : EntryState :=
  match now.dropped,now.doneAt with
  | true,_ => .DROPPED
  | false,some _ => .DONE
  | false,none => .OPEN

def heldBucket (entry : Fact) (lastTick : Option Nat) : Option Nat := do
  let turn ← parseUnsigned 64 (trim (← entry.fields[HELD_TURN]?))
  let since ← parseUnsigned 64 (trim (← entry.fields[HELD_SINCE]?))
  if lastTick.all (· ≤ since) then some turn else none

structure Slot where
  id : Text
  address : Text
  bucket : Nat
  order : Text
deriving DecidableEq, Repr

structure View where
  entries : List (Fact × EntryState)
  doneLeftOut : Nat
  droppedLeftOut : Nat
  states : ExtTreeMap Text EntryState
  slots : List Slot

def bucketOf (facts : List Fact) (setting : Setting) (entry : Fact) : Nat :=
  let now := standingOf facts setting entry.id
  (heldBucket entry now.lastTick).getD (now.turnAt.getD 0)

def slotCmp : Fact × Nat → Fact × Nat → Ordering :=
  compareLex (compareOn (·.2)) (compareLex (compareOn fun slot => orderKey slot.1)
    (compareLex (compareOn fun slot => claimSequence slot.1) (compareOn fun slot => slot.1.id)))

def stateIn (facts : List Fact) (setting : Setting) (id : Text) : EntryState :=
  (standingOf facts setting id).state

def openOf (facts : List Fact) (setting : Setting) : List (Fact × Nat) :=
  sortBy slotCmp (((openEntries facts).filter fun entry => stateIn facts setting entry.id = .OPEN).map
    fun entry => (entry,bucketOf facts setting entry))

def doneOf (facts : List Fact) (setting : Setting) : List Fact :=
  sortBy (compareOn fun entry => ((standingOf facts setting entry.id).doneAt).getD 0)
    ((openEntries facts).filter fun entry => stateIn facts setting entry.id = .DONE)

def addressText (home : EntityId) (id : Text) : Text := home ++ '#' :: id

def slotOf (placed : Fact × Nat) : Slot :=
  ⟨placed.1.id,addressText placed.1.home placed.1.id,placed.2,orderKey placed.1⟩

def view (facts : List Fact) (setting : Setting) : View where
  entries := (openOf facts setting).map (fun placed => (placed.1,.OPEN)) ++
    if setting = .sink then (doneOf facts setting).map (·,.DONE) else []
  doneLeftOut := if setting = .sink then 0 else (doneOf facts setting).length
  droppedLeftOut := ((openEntries facts).filter fun entry => stateIn facts setting entry.id = .DROPPED).length
  states := (openEntries facts).foldl (fun states entry => states.insert entry.id (stateIn facts setting entry.id)) ∅
  slots := (openOf facts setting).map slotOf

structure Moved where
  order : Text
  heldTurn : Nat
  heldSince : Nat
deriving DecidableEq, Repr

def openAddresses (seen : View) : List Text := seen.slots.map (·.address)

def highest (facts : List Fact) : Nat := ((facts.filterMap claimNumber).max?).getD 0

-- The bucket a placement puts the entry in, and the keys it falls between inside it.
def spot (seen : View) (list : EntityId) (moving : Option Text) (placement : Placement) :
    Except PlaceError (Nat × Option Text × Option Text) :=
  let others := seen.slots.filter fun slot => some slot.id ≠ moving
  match placement with
  | .first =>
    match others.head? with
    | some first => .ok (first.bucket,none,some first.order)
    | none => .ok (0,none,none)
  | .last =>
    match others.getLast? with
    | some last => .ok (last.bucket,some last.order,none)
    | none => .ok (0,none,none)
  | .after target =>
    let named := addressText target.home target.localId
    if target.home = list ∧ moving = some target.localId then .error (.followsItself named) else
    match others.findIdx? (fun slot => slot.id = target.localId ∧ target.home = list) with
    | none =>
      match seen.states[target.localId]? with
      | some state =>
        if target.home = list then .error (.notAPlaceToFollow named state)
        else .error (.notAnEntry named (openAddresses seen))
      | none => .error (.notAnEntry named (openAddresses seen))
    | some place =>
      match others[place]? with
      | none => .error (.notAnEntry named (openAddresses seen))
      | some behind =>
        let next := (others[place+1]?).filter (·.bucket = behind.bucket)
        .ok (behind.bucket,some behind.order,next.map (·.order))

def place (seen : View) (facts : List Fact) (list : EntityId) (moving : Option Text) (placement : Placement) :
    Except PlaceError Moved :=
  match spot seen list moving placement with
  | .error refused => .error refused
  | .ok (bucket,lower,upper) =>
    match between lower upper with
    | .error reason => .error (.noRoom reason)
    | .ok order => .ok ⟨order,bucket,highest facts⟩

def placeNew (facts : List Fact) (setting : Setting) (list : EntityId) (placement : Placement) :
    Except PlaceError Moved := place (view facts setting) facts list none placement

def moveEntry (facts : List Fact) (setting : Setting) (entry : FactAddress) (placement : Placement) :
    Except PlaceError Moved :=
  let seen := view facts setting
  let named := addressText entry.home entry.localId
  match seen.states[entry.localId]? with
  | none => .error (.notAnEntry named (openAddresses seen))
  | some .OPEN => place seen facts entry.home (some entry.localId) placement
  | some state => .error (.notMovable named state)

-- Why a tick cannot be recorded, as the source says it.
def Setting.asToken : Setting → String
  | .sink => "sink"
  | .leave => "leave"
  | .back => "back"

def refuseTick (setting : Setting) (state : EntryState) (act : Act) : Option String :=
  if act = .rotated ∧ setting ≠ .back then
    some ("`rotated` takes an entry's turn on a list whose tick setting is back, and this list's is " ++
      setting.asToken ++ ". Send `done` to tick an entry here")
  else if state = .DROPPED then
    if act ≠ .undone then
      some ("that entry is dropped, so it no longer applies. Send `undone` to bring it back, then tick it")
    else none
  else if act = .undone ∧ setting = .back then
    some ("a turn on a back list is not undone: the entry took it and went to the end. Send " ++
      if state = .DONE then "`rotated` on it when its next turn comes"
      else "`done` on it again when its next turn comes")
  else if act = .undone ∧ state = .OPEN then
    some "that entry is open, so there is nothing to undo. Send `done` to tick it"
  else if act = .done ∧ state = .DONE then
    some (if setting = .back then "that entry is already done. Send `rotated` to take its turn"
      else "that entry is already done. Send `undone` to open it again, then tick it")
  else none

-- What a store writes of a placement: on a moved entry all three fields, and on a new
-- one in the first bucket the key alone, which reads there by itself.
def writeMoved (facts : List Fact) (id : Text) (moved : Moved) : List Fact :=
  facts.map fun fact =>
    if fact.id = id then
      { fact with fields := ((fact.fields.insert ORDER moved.order).insert HELD_TURN
        (printNat moved.heldTurn)).insert HELD_SINCE (printNat moved.heldSince) }
    else fact

def Holds (moved : Moved) (fields : Fields) : Prop :=
  fields[ORDER]? = some moved.order ∧
    ((fields[HELD_TURN]? = some (printNat moved.heldTurn) ∧
      fields[HELD_SINCE]? = some (printNat moved.heldSince)) ∨
    (moved.heldTurn = 0 ∧ fields[HELD_TURN]? = none ∧ fields[HELD_SINCE]? = none))

end Entries
