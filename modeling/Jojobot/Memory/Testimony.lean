import Jojobot.Memory.Document
import Jojobot.Memory.Entries
import Jojobot.Memory.Folds
import Jojobot.Memory.Numbered
import Jojobot.Memory.Writes

namespace Testimony
open Library Std Memory

inductive Provenance where
  | testimony | observation | inference
deriving DecidableEq, Repr

inductive Standing where
  | settled | unsettled
deriving DecidableEq, Repr

-- A civil day, counted from one fixed day.
abbrev Day := Int

inductive Receipt where
  | check (text : Text)
  | confirmed (on : Day) (place : Text)
deriving DecidableEq, Repr

inductive EdgeShape where
  | location | membership | attendance | about | connection
deriving DecidableEq, Repr

structure Edge where
  shape : EdgeShape
  object : EntityId
deriving DecidableEq, Repr

structure AppStamp where
  app : Text
  grant : Text
  receivedAt : Text
deriving DecidableEq, Repr

structure Fact extends Memory.Fact where
  provenance : Provenance
  standing : Standing
  recordedAt : Day
  happenedAt : Option Day
  happenedThrough : Option Day
  staleAfter : Option Day
  receipt : Option Receipt
  appStamp : Option AppStamp
  edge : Option Edge
  derivedFrom : Option FactAddress
  standsFor : List FactAddress

structure FactPatch where
  content : Option Text := none
  details : Option Text := none
  status : Option FactStatus := none
  recordedAt : Option Day := none
  happenedAt : Option Day := none
  clearHappenedAt : Bool := false
  happenedThrough : Option Day := none
  clearHappenedThrough : Bool := false
  provenance : Option Provenance := none
  standing : Option Standing := none
  receipt : Option Receipt := none
  edge : Option Edge := none
  clearEdge : Bool := false
  fields : Fields := {}
  clearFields : List Text := []
  derivedFrom : Option FactAddress := none
  clearDerivedFrom : Bool := false
  standsFor : Option (List FactAddress) := none
  clearStandsFor : Bool := false
  staleAfter : Option Day := none
  clearStaleAfter : Bool := false
  confirmedByUser : Bool := false
  session : Option Text := none

-- Which check of a claim's shape a write failed, and on what.
inductive Fault where
  | emptyContent | manyLines | endWithoutStart
  | reservedKey (key : Text) | markedValue (key : Text) | ceiling (key value : Text) | longKey (key : Text)
  | clearsReserved (key : Text)
  | standsForNothing | namedTwice (address : FactAddress)
  | emptyCheck | emptyPlace
deriving DecidableEq

inductive MemoryError where
  | unconfirmedPromotion | receiptWithoutSettling | unreceiptedSettling | unstatedProvenance | unsourcedObservation
  | appClaimRewritten (address : FactAddress) | testimonyRewritten (address : FactAddress)
  | invalidFact (fault : Fault)
  | invalidSubject (subject : EntityId)
  | kindsNeverLoaded (attempted : EntityId)
  | invalidEdge (edge : Edge)
deriving DecidableEq

abbrev Result := Except MemoryError

def DUE_ON : Text := "due_on".toList
def ARCHIVE_REASON : Text := "archive_reason".toList
def DEFRAGGED_AT : Text := "defragged_at".toList
def RELEASE_NOTES_TOLD : Text := "release_notes_told".toList
def READ_FROM : Text := "read_from".toList
def RECORD_CAPACITY : Text := "record_capacity".toList
def THOUGHT_CAPACITY : Text := "thought_capacity".toList
def THOUGHT_BODY_CAP : Text := "thought_body_cap".toList
def MARK : Text := "@#".toList
def MAX_KEY_CHARS : Nat := 128

def normalizeContent (content : Text) : Text := trim content

def normalizeDetails (details : Option Text) : Option Text := (details.map trim).filter (· ≠ [])

def isBookkeepingKey (key : Text) : Bool := key = DEFRAGGED_AT || key = RELEASE_NOTES_TOLD

def isPlacementKey (key : Text) : Bool :=
  trim key = ORDER || trim key = Entries.HELD_TURN || trim key = Entries.HELD_SINCE

def DOCUMENT : Text := "document".toList
def LIST : Text := "list".toList

-- The kinds the process has loaded, which a handle's kind is read against.
variable (loaded : List Text)

def kindToken (id : EntityId) : Text := if id.contains ':' then id.takeWhile (· ≠ ':') else []

def slugOf (id : EntityId) : Text := (id.dropWhile (· ≠ ':')).drop 1

def kindOf (id : EntityId) : Option Text := if id.contains ':' && loaded.contains (kindToken id) then some (kindToken id) else none

def placesItsRecords (kind : Option Text) : Bool := kind = some DOCUMENT || kind = some LIST

def differsOnlyByABlankLead (held sent : Text) : Bool :=
  match Document.Edges.decode held,Document.Edges.decode sent with
  | some held,some sent =>
    let lineFeedsOnly (lead : Text) := lead.all (· = '\n')
    held.mid = sent.mid && held.sep = sent.sep && held.tail = sent.tail && lineFeedsOnly held.lead &&
      lineFeedsOnly sent.lead
  | _,_ => false

-- The keys a patch names, trimmed, each with the value it sends; a cleared key has none.
def FactPatch.named (patch : FactPatch) : List (Text × Option Text) :=
  patch.fields.toList.map (fun row => (trim row.1,some (trim row.2))) ++ patch.clearFields.map fun key => (trim key,none)

def rewritesValue (address : FactAddress) (fact : Fact) (declared : List FoldType) (row : Text × Option Text) : Bool :=
  let held (key : Text) := (fact.fields[key]?).map trim
  let (key,value) := row
  key ≠ DUE_ON && key ≠ ARCHIVE_REASON && !isBookkeepingKey key &&
    !(isPlacementKey key && placesItsRecords (kindOf loaded address.home)) &&
    !(key = Document.EDGES && kindOf loaded address.home = some DOCUMENT &&
      match value,held key with
      | some sent,some held => differsOnlyByABlankLead held sent
      | _,_ => false) &&
    foldOf key declared ≠ .describes && held key ≠ value

-- What a rewrite of the words keeps when it names nothing.
def keepOnRewrite (fact : Fact) (patch : FactPatch) (own : Bool) : FactPatch :=
  let inference := fact.provenance = .inference
  let patch := if patch.provenance = none ∧ (own ∨ inference) then { patch with provenance := some fact.provenance } else patch
  let staysInference := patch.provenance = some .inference
  let settled := fact.standing = .settled
  if inference ∧ staysInference ∧ ¬own ∧ settled ∧ patch.receipt = none then { patch with standing := some .unsettled }
  else patch

-- An archive's reason goes to a field of its own, and the details stay.
def settleReason (fact : Fact) (patch : FactPatch) : FactPatch :=
  if patch.status = some .archived then
    match normalizeDetails patch.details with
    | some reason =>
      let kept := { patch with details := none }
      if fact.details ≠ some reason then { kept with fields := patch.fields.insert ARCHIVE_REASON reason } else kept
    | none => { patch with details := none }
  else patch

def settleRewrite (address : FactAddress) (fact : Fact) (patch : FactPatch) (writtenIn : Option Text)
    (declared : List FoldType) : Result FactPatch :=
  let patch := settleReason fact patch
  let rewritesWords := patch.content.any fun words => trim words ≠ trim fact.content
  let patch := { patch with content := if rewritesWords then patch.content else none }
  let archives := patch.status = some .archived
  let rewritesDetails := !archives && patch.details.any fun details => normalizeDetails (some details) ≠ fact.details
  let rewritesValues := patch.named.any (rewritesValue loaded address fact declared)
  if !rewritesWords && !rewritesDetails && !rewritesValues then .ok patch
  else
    let own := patch.session.isSome && patch.session = writtenIn
    if fact.appStamp.isSome then .error (.appClaimRewritten address)
    else if fact.provenance = .testimony ∧ ¬own then .error (.testimonyRewritten address)
    else .ok (if rewritesWords then keepOnRewrite fact patch own else patch)

def checkPromotion (current requested : Provenance) (confirmedByUser : Bool) : Result Unit :=
  let promoting := current ≠ .testimony ∧ requested = .testimony
  if promoting ∧ ¬confirmedByUser then .error .unconfirmedPromotion else .ok ()

def Receipt.validated : Receipt → Result Receipt
  | .check text => if trim text = [] then .error (.invalidFact .emptyCheck) else .ok (.check (trim text))
  | .confirmed on place => if trim place = [] then .error (.invalidFact .emptyPlace) else .ok (.confirmed on (trim place))

def ridesOnlySettled (receipt : Option Receipt) (standing : Standing) : Result Unit :=
  if receipt.isSome ∧ standing ≠ .settled then .error .receiptWithoutSettling else .ok ()

def checkStanding (current requested : Standing) (receipt : Option Receipt) : Result Unit :=
  let settling := current = .unsettled ∧ requested = .settled
  if settling ∧ receipt = none then .error .unreceiptedSettling else .ok ()

def breaksTheRow (value : Text) : Bool := value.contains '\n' || value.contains '\r'

def validateContent (content : Text) : Result Unit :=
  if trim content = [] then .error (.invalidFact .emptyContent)
  else if breaksTheRow content then .error (.invalidFact .manyLines)
  else .ok ()

def validateHappenedSpan (happenedAt happenedThrough : Option Day) : Result Unit :=
  if happenedThrough.isSome ∧ happenedAt = none then .error (.invalidFact .endWithoutStart) else .ok ()

def ceilingValueRefusal (key value : Text) : Bool :=
  let least := if trim key = RECORD_CAPACITY then some 1
    else if trim key = THOUGHT_CAPACITY ∨ trim key = THOUGHT_BODY_CAP then some 0 else none
  least.any fun least => !(parseUnsigned 64 (trim value)).any fun n => least ≤ n

def validateFields (fields : Fields) : Result Unit :=
  match fields.toList.find? fun row => reservedKey row.1 with
  | some (key,_) => .error (.invalidFact (.reservedKey key))
  | none =>
    match fields.toList.find? fun row => (row.2.splitOn ',').any fun item => MARK.isPrefixOf (trim item) with
    | some (key,_) => .error (.invalidFact (.markedValue key))
    | none =>
      match fields.toList.find? fun row => ceilingValueRefusal row.1 row.2 with
      | some (key,value) => .error (.invalidFact (.ceiling (trim key) value))
      | none =>
        match fields.toList.find? fun row => decide (MAX_KEY_CHARS < row.1.length) with
        | some (key,_) => .error (.invalidFact (.longKey key))
        | none => .ok ()

def validateClearedFields (cleared : List Text) : Result Unit :=
  match cleared.find? reservedKey with
  | some key => .error (.invalidFact (.clearsReserved key))
  | none => .ok ()

def validateStandsFor : List FactAddress → Result Unit
  | [] => .error (.invalidFact .standsForNothing)
  | named =>
    match (named.zipIdx.find? fun row => (named.take row.2).contains row.1) with
    | some (twice,_) => .error (.invalidFact (.namedTwice twice))
    | none => .ok ()

def validateProvenanceSource (provenance : Provenance) (fields : Fields) : Result Unit :=
  if provenance ≠ .observation then .ok ()
  else if (fields[READ_FROM]?).any fun value => trim value ≠ [] then .ok ()
  else .error .unsourcedObservation

def isSlugByte (c : Char) : Bool := c.isLower || c.isDigit || c = '-'

-- A slug, then the numbers of numbered collections, each behind a slash.
def slugShaped (slug : Text) : Bool :=
  match slug.splitOn '/' with
  | [] => false
  | head :: numbers =>
    head ≠ [] && head.all isSlugByte &&
      numbers.all fun number => (Numbering.wholeNumber number).isSome && trim number = number

def validateSubject (subject : EntityId) : Result Unit :=
  if ¬((subject.map Char.utf8Size).sum ≤ 128 ∧ slugShaped (slugOf subject)) then .error (.invalidSubject subject)
  else if loaded = [] then .error (.kindsNeverLoaded subject)
  else if !loaded.contains (kindToken subject) then .error (.invalidSubject subject)
  else .ok ()

def isNumberedHandle (id : EntityId) : Bool :=
  let number := id.rtakeWhile (· ≠ '/')
  let collection := (id.rdropWhile (· ≠ '/')).dropLast
  id.contains '/' && trim number = number && collection.contains ':' && (Numbering.wholeNumber number).isSome

def EdgeShape.objectKind : EdgeShape → Option Text
  | .location => some "place".toList
  | .membership => some "org".toList
  | .attendance => some "event".toList
  | .about | .connection => none

def validateEdge (edge : Edge) : Result Unit := do
  validateSubject loaded edge.object
  if isNumberedHandle edge.object then .ok ()
  else if edge.shape.objectKind.any fun required => kindOf loaded edge.object ≠ some required then .error (.invalidEdge edge)
  else .ok ()

def carry (fact : Fact) (reworded : Bool) (brought : Option Receipt) : Fact :=
  if brought.isSome then { fact with receipt := brought }
  else if reworded ∧ fact.provenance = .observation then { fact with receipt := none }
  else fact

-- Cleared first, then set, in the order the keys are held.
def patchedFields (fields : Fields) (patch : FactPatch) : Fields :=
  let cleared := patch.clearFields.foldl (fun fields key => fields.erase (trim key)) fields
  patch.fields.toList.foldl (fun fields row => fields.insert (trim row.1) row.2) cleared

def checkPatch (fact : Fact) (patch : FactPatch) : Result (Option Receipt) := do
  if let some requested := patch.provenance then checkPromotion fact.provenance requested patch.confirmedByUser
  let receipt ← match patch.receipt with
    | some receipt => (receipt.validated).map some
    | none => .ok none
  ridesOnlySettled receipt (patch.standing.getD fact.standing)
  if let some requested := patch.standing then checkStanding fact.standing requested receipt
  if patch.content.isSome ∧ patch.provenance = none then .error .unstatedProvenance
  if let some content := patch.content then validateContent content
  if let some edge := patch.edge then validateEdge loaded edge
  let happenedAt := if patch.clearHappenedAt then none else patch.happenedAt.or fact.happenedAt
  let happenedThrough := if patch.clearHappenedThrough then none else patch.happenedThrough.or fact.happenedThrough
  validateHappenedSpan happenedAt happenedThrough
  validateFields patch.fields
  validateClearedFields patch.clearFields
  if let some standsFor := patch.standsFor then validateStandsFor standsFor
  .ok receipt

def applied (fact : Fact) (patch : FactPatch) (receipt : Option Receipt) : Fact :=
  let reworded := (patch.content.map normalizeContent).any (· ≠ fact.content)
  let fact := { fact with
    content := (patch.content.map normalizeContent).getD fact.content
    details := if patch.details.isSome then normalizeDetails patch.details else fact.details
    status := patch.status.getD fact.status
    recordedAt := patch.recordedAt.getD fact.recordedAt
    happenedAt := if patch.clearHappenedAt then none else patch.happenedAt.or fact.happenedAt
    happenedThrough := if patch.clearHappenedThrough then none else patch.happenedThrough.or fact.happenedThrough
    provenance := patch.provenance.getD fact.provenance
    receipt := if patch.standing = some .unsettled then none else fact.receipt
    standing := patch.standing.getD fact.standing }
  let fact := carry fact reworded receipt
  { fact with
    edge := patch.edge.or (if patch.clearEdge then none else fact.edge)
    fields := patchedFields fact.fields patch
    derivedFrom := patch.derivedFrom.or (if patch.clearDerivedFrom then none else fact.derivedFrom)
    standsFor := patch.standsFor.getD (if patch.clearStandsFor then [] else fact.standsFor)
    staleAfter := patch.staleAfter.or (if patch.clearStaleAfter then none else fact.staleAfter) }

def applyFactPatch (fact : Fact) (patch : FactPatch) : Result Fact := do
  let receipt ← checkPatch loaded fact patch
  let fact := applied fact patch receipt
  validateProvenanceSource fact.provenance fact.fields
  .ok fact

-- A key the engine writes on a claim of this home, which is none of the claim's words.
def engineOwned (address : FactAddress) (key : Text) : Bool :=
  key = DUE_ON || key = ARCHIVE_REASON || isBookkeepingKey key ||
    (isPlacementKey key && placesItsRecords (kindOf loaded address.home)) ||
    (key = Document.EDGES && kindOf loaded address.home = some DOCUMENT)

-- One edit of a claim as both stores make it, against the types held as it is made.
structure Edit where
  declared : List FoldType
  patch : FactPatch

def Edit.apply (address : FactAddress) (writtenIn : Option Text) (fact : Fact) (edit : Edit) : Result Fact := do
  let settled ← settleRewrite loaded address fact edit.patch writtenIn edit.declared
  applyFactPatch loaded fact settled

def applyEdits (address : FactAddress) (writtenIn : Option Text) (fact : Fact) (edits : List Edit) : Result Fact :=
  edits.foldlM (Edit.apply loaded address writtenIn) fact

end Testimony
