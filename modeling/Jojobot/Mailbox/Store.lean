import Mathlib.Logic.Function.Iterate
import Jojobot.Library.Fallible
import Jojobot.Mailbox.Guard

namespace Mailbox
open Library Std Memory Testimony

-- The kinds loaded, the token a refusal mints, and whether a stamp has the shape that
-- is counted without loading its row.
variable (loaded : List Text) (token : Text → List Text → Text) (countable : Timestamp → Bool)

structure Acting where
  session : Option Text
  at' : Timestamp
deriving DecidableEq, Repr

inductive MessageEventKind where
  | read | processed | quarantined
deriving DecidableEq, Repr

structure MessageEvent where
  ordinal : Nat
  kind : MessageEventKind
  at' : Timestamp
  bySession : Option Text
  byBox : Option Text
  priorState : MessageState
  notes : Option Text
  reason : Option Text
deriving DecidableEq, Repr

structure Change where
  kind : MessageEventKind
  acting : Acting
  byBox : Text
  priorState : MessageState
  notes : Option Text := none
  reason : Option Text := none

def nextEvent (heldOrdinals : List Nat) (change : Change) : MessageEvent where
  ordinal := (heldOrdinals.max?).getD 0 + 1
  kind := change.kind
  at' := change.acting.at'
  bySession := change.acting.session
  byBox := some change.byBox
  priorState := change.priorState
  notes := normalizeNotes change.notes
  reason := change.reason

structure NewMessage where
  mailbox : Text
  body : Text
  subject : Option Text
  sender : Text
  sentAt : Timestamp
  inReplyTo : Option Text
  supersedes : Option Text
  senderMailWaitingAtSend : Option Nat
  postedBySession : Option Text
deriving DecidableEq, Repr

-- What the state column holds.
inductive StateToken where
  | state (state : MessageState)
  | quarantined
deriving DecidableEq, Repr

structure MessageRow where
  id : Text
  mailbox : Text
  ordinal : Nat
  body : Text
  subject : Option Text
  sender : Text
  sentAt : Timestamp
  state : StateToken
  notes : Option Text
  inReplyTo : Option Text
  supersedes : Option Text
  senderMailWaitingAtSend : Option Nat
  postedBySession : Option Text
  quarantinedBy : Option Text := none
  quarantinedAt : Option Timestamp := none
  quarantineReason : Option Text := none
deriving DecidableEq, Repr

structure BoxRow where
  name : Text
  owner : EntityId
deriving DecidableEq, Repr

-- The mail tables: the boxes, the messages, how each was first taken, and their events.
structure Store where
  boxes : List BoxRow := []
  messages : List MessageRow := []
  deliveries : List (Text × TakenBy) := []
  events : List (Text × MessageEvent) := []
deriving DecidableEq, Repr

structure Delivered where
  message : Message
  seenBefore : Bool
deriving DecidableEq, Repr

structure Superseded where
  id : Text
  replacement : Text
deriving DecidableEq, Repr

structure Delivery where
  mailbox : Text
  messages : List Delivered
  superseded : List Superseded
deriving DecidableEq, Repr

structure Quarantined where
  id : Text
  mailbox : Text
  box : Text
  reason : Text
  at' : Timestamp
deriving DecidableEq, Repr

inductive Guarded (α : Type) where
  | written (record : α)
  | blocked (attempted : Text) (candidates : List MailboxMatch)
  | unknownOwner (attempted : EntityId) (candidates : List EntityId)
deriving DecidableEq, Repr

inductive OwnerLookup where
  | known
  | unknown (candidates : List EntityId)
deriving DecidableEq, Repr

def namedFor (owner : EntityId) : Text :=
  if kindOf loaded owner = some PERSON then "person-".toList ++ slugOf owner else slugOf owner

-- A message that was set aside replaces nothing.
def MessageRow.replaces (row : MessageRow) (id : Text) : Bool := row.supersedes = some id && row.state ≠ .quarantined

def Store.supersededBy (store : Store) (id : Text) : Option Text :=
  ((sortBy (compareOn (·.ordinal)) (store.messages.filter (·.replaces id))).getLast?).map (·.id)

def Store.takenBy (store : Store) (id : Text) : Option TakenBy := (store.deliveries.find? (·.1 = id)).map (·.2)

inductive Card where
  | readable (message : Message) (ordinal : Nat)
  | unreadable (id mailbox : Text) (ordinal : Nat) (reason : Text)
  | quarantined (id mailbox : Text) (ordinal : Nat) (box reason : Text)

def Card.id : Card → Text
  | .readable message _ => message.id
  | .unreadable id _ _ _ => id
  | .quarantined id _ _ _ _ => id

def Card.mailbox : Card → Text
  | .readable message _ => message.mailbox
  | .unreadable _ mailbox _ _ => mailbox
  | .quarantined _ mailbox _ _ _ => mailbox

def Card.sentAt : Card → Option Timestamp
  | .readable message _ => some message.sentAt
  | _ => none

def Card.ordinal : Card → Nat
  | .readable _ ordinal => ordinal
  | .unreadable _ _ ordinal _ => ordinal
  | .quarantined _ _ ordinal _ _ => ordinal

def Card.readable? : Card → Option Message
  | .readable message _ => some message
  | _ => none

-- The total order a delivery reads in.
def Card.order : Card → Card → Ordering := compareLex (compareOn Card.sentAt) (compareOn Card.ordinal)

def Store.messageOf (store : Store) (row : MessageRow) (state : MessageState) : Message where
  id := row.id
  mailbox := row.mailbox
  body := row.body
  subject := row.subject
  sender := row.sender
  sentAt := row.sentAt
  state := state
  notes := row.notes
  inReplyTo := row.inReplyTo
  supersedes := row.supersedes
  supersededBy := store.supersededBy row.id
  takenBy := store.takenBy row.id
  senderMailWaitingAtSend := row.senderMailWaitingAtSend
  postedBySession := row.postedBySession

def cardFrom (store : Store) (row : MessageRow) : Card :=
  match row.state with
  | .quarantined =>
    match row.quarantinedBy,row.quarantineReason with
    | some box,some reason => .quarantined row.id row.mailbox row.ordinal box reason
    | _,_ => .unreadable row.id row.mailbox row.ordinal "it is marked quarantined but who and why did not survive".toList
  | .state state => .readable (store.messageOf row state) row.ordinal

-- Which rows of the board a verb asks for.
def countableIn (states : List MessageState) (row : MessageRow) : Bool :=
  states.any (row.state = .state ·) && countable row.sentAt

def everyState : List MessageState := [.new,.read,.processed]

inductive Scope where
  | notCountable
  | unprocessed (name : Text)
  | message (id : Text)

def Scope.asks : Scope → MessageRow → Bool
  | .notCountable,row => !countableIn countable everyState row
  | .unprocessed name,row => row.mailbox = name && !countableIn countable [.processed] row
  | .message id,row => row.id = id

def cards (store : Store) (scope : Scope) : List Card :=
  sortBy Card.order ((store.messages.filter (scope.asks countable)).map (cardFrom store))

-- The messages in each state of one box: by the store where it can count a row without
-- loading it, and by the reader for the rest.
def counted (store : Store) (name : Text) : StateCounts :=
  everyState.foldl (fun counts state =>
    let group := store.messages.filter fun row =>
      row.mailbox = name && (row.state = .state state && countableIn countable everyState row)
    let counts := (StateCounts.add · state)^[group.length] counts
    if state = .new then
      StateCounts.addSuperseded^[group.countP fun row => store.messages.any (·.replaces row.id)] counts
    else counts) {}

def tallyCard (counts : StateCounts) (message : Message) : StateCounts :=
  let counts := counts.add message.state
  if message.state = .new ∧ message.supersededBy.isSome then counts.addSuperseded else counts

def tally (store : Store) (name : Text) : StateCounts :=
  (((cards countable store .notCountable).filterMap Card.readable?).filter (·.mailbox = name)).foldl tallyCard
    (counted countable store name)

def unreadable (store : Store) (name : Text) : List Text :=
  ((cards countable store .notCountable).filter fun card => card.readable?.isNone && card.mailbox = name).map (·.id)

def boxFrom (store : Store) (row : BoxRow) : Box where
  name := row.name
  owner := row.owner
  counts := tally countable store row.name
  quarantined := unreadable countable store row.name

def listMailboxes (store : Store) : List Box := (sortBy (compareOn (·.name)) store.boxes).map (boxFrom countable store)

def names (store : Store) : List Text := (sortBy (compareOn (·.name)) store.boxes).map (·.name)

-- One entry for each message that has any event, its events in the order they happened.
def eventsOf (store : Store) (id : Text) : List MessageEvent :=
  sortBy (compareOn (·.ordinal)) ((store.events.filter (·.1 = id)).map (·.2))

def appendMessageEvent (store : Store) (id : Text) (change : Change) : Store :=
  let held := (store.events.filter (·.1 = id)).map (·.2.ordinal)
  { store with events := store.events ++ [(id,nextEvent held change)] }

def refuse : Card → Answered Message
  | .readable message _ => .ok message
  | .unreadable id _ _ reason => .error (.quarantined id reason)
  | .quarantined id _ _ box reason => .error (.quarantinedOnPurpose id box reason)

-- The readable message of an id, or the refusal every verb that addresses one owes.
def addressed (store : Store) (id : Text) : Answered Message :=
  match (cards countable store (.message id)).find? (·.id = id) with
  | none => .error (.unknownMessage id)
  | some card => refuse card

def ATTEMPTS : Nat := 64

def mint (store : Store) (draws : List Text) : Answered Text :=
  match (draws.take ATTEMPTS).find? fun id => !store.messages.any (·.id = id) with
  | some id => .ok id
  | none => .error .noFreeId

def createMailbox (store : Store) (name : Text) (owner : EntityId) (overrideToken : Option Text) (lookUp : OwnerLookup) :
    Answered (Store × Guarded Box) := do
  validateMailboxName name
  (validateSubject loaded owner).mapError .invalidOwner
  match lookUp with
  | .unknown candidates => return (store,.unknownOwner owner candidates)
  | .known =>
    match decideCreateFor token name (some (slugOf owner)) (names store) overrideToken with
    | .block candidates => return (store,.blocked name candidates)
    | .proceed =>
      return ({ store with boxes := store.boxes ++ [⟨name,owner⟩] },.written { name := name, owner := owner })

def repointOwner (store : Store) (source target : EntityId) : Answered (Store × Option Box) :=
  match (store.boxes.filter (·.owner = source)).map (·.name) with
  | [] => .ok (store,none)
  | [oldName] =>
    let newName := namedFor loaded target
    match (if oldName = newName then none else store.boxes.find? (·.name = newName)) with
    | some held => .error (.nameTaken newName held.owner)
    | none =>
      let store := { store with
        boxes := store.boxes.map fun row => if row.name = oldName then ⟨newName,target⟩ else row
        messages := if oldName = newName then store.messages
          else store.messages.map fun row => if row.mailbox = oldName then { row with mailbox := newName } else row }
      .ok (store,(listMailboxes countable store).find? (·.name = newName))
  | many => .error (.ownerHasMultipleBoxes source many)

-- Everything a write names must already exist; a card that cannot be read does.
def checkReply (store : Store) : Option Text → Answered Unit
  | none => .ok ()
  | some answered => do
    validateMessageId answered
    if store.messages.any (·.id = answered) then .ok () else .error (.unknownMessage answered)

-- A replacement names a message of the sender's own, in this box, that nothing has replaced yet.
def checkReplaced (store : Store) (message : NewMessage) : Answered Unit :=
  match message.supersedes with
  | none => .ok ()
  | some target => do
    validateMessageId target
    let old ← addressed countable store target
    if old.sender ≠ trim message.sender then .error (.cannotSupersede (.otherSender target))
    else if old.mailbox ≠ message.mailbox then .error (.cannotSupersede (.otherBox target old.mailbox message.mailbox))
    else match old.supersededBy with
      | some other => .error (.cannotSupersede (.alreadySuperseded target other))
      | none => .ok ()

def nextOrdinal (store : Store) : Nat := ((store.messages.map (·.ordinal)).max?).getD 0 + 1

def filed (store : Store) (message : NewMessage) (id : Text) : MessageRow where
  id := id
  mailbox := message.mailbox
  ordinal := nextOrdinal store
  body := normalizeBody message.body
  subject := normalizeSubject message.subject
  sender := trim message.sender
  sentAt := message.sentAt
  state := .state .new
  notes := none
  inReplyTo := message.inReplyTo
  supersedes := message.supersedes
  senderMailWaitingAtSend := message.senderMailWaitingAtSend
  postedBySession := message.postedBySession

def stored (row : MessageRow) : Message where
  id := row.id
  mailbox := row.mailbox
  body := row.body
  subject := row.subject
  sender := row.sender
  sentAt := row.sentAt
  state := .new
  notes := none
  inReplyTo := row.inReplyTo
  supersedes := row.supersedes
  supersededBy := none
  takenBy := none
  senderMailWaitingAtSend := row.senderMailWaitingAtSend
  postedBySession := row.postedBySession

def postMessage (store : Store) (message : NewMessage) (draws : List Text) : Answered (Store × Guarded Message) := do
  validateMailboxName message.mailbox
  validateSender message.sender
  validateBody message.body
  validateSubjectLine message.subject
  match decideExisting message.mailbox (names store) with
  | .block candidates => return (store,.blocked message.mailbox candidates)
  | .proceed =>
    checkReply store message.inReplyTo
    checkReplaced countable store message
    let id ← mint store draws
    let row := filed store message id
    return ({ store with messages := store.messages ++ [row] },.written (stored row))

def updateRow (store : Store) (id : Text) (change : MessageRow → MessageRow) : Store :=
  { store with messages := store.messages.map fun row => if row.id = id then change row else row }

-- A message leaves new, and is recorded as taken, in one write.
def takeNew (store : Store) (id : Text) (takenBy : TakenBy) (acting : Acting) (box : Text) : Store :=
  let store := updateRow store id fun row => { row with state := .state .read }
  let store := { store with deliveries := store.deliveries ++ [(id,takenBy)] }
  appendMessageEvent store id { kind := .read, acting := acting, byBox := box, priorState := .new }

structure Taking where
  store : Store
  delivered : List Delivered := []
  withheld : List Superseded := []

def deliver (takenBy : TakenBy) (acting : Acting) (name : Text) (taking : Taking) (message : Message) : Taking :=
  match (if message.state = .new then message.supersededBy else none) with
  | some replacement => { taking with withheld := taking.withheld ++ [⟨message.id,replacement⟩] }
  | none =>
    let seenBefore : Bool := message.state = .read
    { taking with
      store := if seenBefore then taking.store else takeNew taking.store message.id takenBy acting name
      delivered := taking.delivered ++
        [⟨{ message with state := .read, takenBy := message.takenBy.or (some takenBy) },seenBefore⟩] }

def toDeliver (store : Store) (name : Text) : List Message :=
  ((cards countable store (.unprocessed name)).filter (·.mailbox = name)).filterMap Card.readable? |>.filter (·.state.isUnprocessed)

def readMailbox (store : Store) (name : Text) (takenBy : TakenBy) (acting : Acting) : Answered (Store × Guarded Delivery) := do
  validateMailboxName name
  match decideExisting name (names store) with
  | .block candidates => return (store,.blocked name candidates)
  | .proceed =>
    let taking := (toDeliver countable store name).foldl (deliver takenBy acting name) { store := store }
    return (taking.store,.written ⟨name,taking.delivered,taking.withheld⟩)

def readMessage (store : Store) (id : Text) (acting : Acting) : Answered (Store × Delivered) := do
  validateMessageId id
  let message ← addressed countable store id
  if message.state ≠ .new then return (store,⟨message,true⟩)
  else
    return (takeNew store id .reading acting message.mailbox,
      ⟨{ message with state := .read, takenBy := message.takenBy.or (some .reading) },false⟩)

def markProcessed (store : Store) (id box : Text) (notes : Option Text) (acting : Acting) : Answered (Store × Message) := do
  validateMessageId id
  validateNotes notes
  let message ← addressed countable store id
  if message.mailbox ≠ box then .error (.notYourMessage id message.mailbox box)
  -- A message already processed is left exactly as it is.
  else if message.state = .processed then return (store,message)
  else
    let kept := (normalizeNotes notes).or message.notes
    let store := updateRow store id fun row => { row with state := .state .processed, notes := kept }
    let change : Change := { kind := .processed, acting := acting, byBox := message.mailbox, priorState := message.state, notes := notes }
    return (appendMessageEvent store id change,{ message with state := .processed, notes := kept })

def refuseQuarantineOf (id : Text) (state : MessageState) : Answered Unit :=
  if state = .processed then .error (.alreadyProcessed id) else .ok ()

def quarantine (store : Store) (id box reason : Text) (acting : Acting) : Answered (Store × Quarantined) := do
  validateMessageId id
  let message ← addressed countable store id
  if message.mailbox ≠ box then .error (.notYourMessage id message.mailbox box)
  else
    refuseQuarantineOf id message.state
    let reason := trim reason
    let store := updateRow store id fun row =>
      { row with state := .quarantined, quarantinedBy := some box, quarantinedAt := some acting.at', quarantineReason := some reason }
    let change : Change := { kind := .quarantined, acting := acting, byBox := box, priorState := message.state, reason := some reason }
    return (appendMessageEvent store id change,⟨id,message.mailbox,box,reason,acting.at'⟩)

end Mailbox
