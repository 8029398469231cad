import Jojobot.Library.Sorting
import Jojobot.Memory.Document
import Jojobot.Mailbox

namespace Mailbox
open Library Std Memory Testimony Document

-- What is not one plain line, or is past its cap.
inductive MessageFault where
  | longName (length : Nat)
  | longId (length : Nat)
  | emptySender
  | longSender (length : Nat)
  | brokenSender
  | emptyBody
  | brokenSubject
  | longSubject (length : Nat)
  | brokenNotes
deriving DecidableEq, Repr

inductive SupersedeRefusal where
  | otherSender (attempted : Text)
  | otherBox (attempted sitsIn postingInto : Text)
  | alreadySuperseded (attempted other : Text)
deriving DecidableEq, Repr

inductive MailboxError where
  | invalidName (name : Text)
  | invalidOwner (why : MemoryError)
  | invalidMessageId (id : Text)
  | invalidMessage (fault : MessageFault)
  | unknownMessage (attempted : Text)
  | quarantined (attempted reason : Text)
  | quarantinedOnPurpose (attempted box reason : Text)
  | notYourMessage (attempted mailbox box : Text)
  | alreadyProcessed (attempted : Text)
  | cannotSupersede (refusal : SupersedeRefusal)
  | ownerHasMultipleBoxes (owner : EntityId) (names : List Text)
  | nameTaken (attempted : Text) (heldBy : EntityId)
  | noFreeId
deriving DecidableEq

abbrev Answered := Except MailboxError

def isAsciiAlphanumeric (c : Char) : Bool := c.isAlphanum

def validateMailboxName (name : Text) : Answered Unit :=
  if 64 < name.length then .error (.invalidMessage (.longName name.length))
  else if name ≠ [] ∧ name.all isSlugByte ∧ name.head?.any isAsciiAlphanumeric ∧ name.getLast?.any isAsciiAlphanumeric then .ok ()
  else .error (.invalidName name)

def validateMessageId (id : Text) : Answered Unit :=
  if 64 < id.length then .error (.invalidMessage (.longId id.length))
  else if id ≠ [] ∧ id.all isSlugByte then .ok ()
  else .error (.invalidMessageId id)

-- The control characters of Unicode, which are two blocks.
def isControl (c : Char) : Bool := c.toNat < 0x20 || (0x7F ≤ c.toNat && c.toNat ≤ 0x9F)

def plainLine (text : Text) : Bool := !breaksTheRow text && !text.contains '`' && !text.any isControl

def validateSender (sender : Text) : Answered Unit :=
  let sender := trim sender
  if sender = [] then .error (.invalidMessage .emptySender)
  else if 120 < sender.length then .error (.invalidMessage (.longSender sender.length))
  else if !plainLine sender then .error (.invalidMessage .brokenSender)
  else .ok ()

def validateBody (body : Text) : Answered Unit := if trim body = [] then .error (.invalidMessage .emptyBody) else .ok ()

def validateSubjectLine : Option Text → Answered Unit
  | none => .ok ()
  | some subject =>
    if trim subject = [] then .ok ()
    else if !plainLine subject then .error (.invalidMessage .brokenSubject)
    else if 120 < subject.length then .error (.invalidMessage (.longSubject subject.length))
    else .ok ()

def validateNotes : Option Text → Answered Unit
  | none => .ok ()
  | some notes =>
    if trim notes = [] then .ok ()
    else if !plainLine notes then .error (.invalidMessage .brokenNotes)
    else .ok ()

-- A run of returns before a line feed goes with it, however long; a lone one stays.
def foldReturns : Text → Text
  | [] => []
  | c :: rest =>
    let folded := foldReturns rest
    if c = '\r' ∧ folded.head? = some '\n' then folded else c :: folded

def normalizeBody (body : Text) : Text := trim (foldReturns body)

def blankIsAbsent (text : Option Text) : Option Text := (text.map trim).filter (· ≠ [])

def normalizeSubject (subject : Option Text) : Option Text := blankIsAbsent subject

def NOTES_BUDGET : Nat := 2000

def keepWords (room : Nat) : List Text → Text → Text
  | [],kept => kept
  | word::words,kept =>
    if room < kept.length+word.length+1 then kept
    else keepWords room words ((if kept = [] then kept else kept ++ [' ']) ++ word)

-- An outcome record past its budget is cut at a word, and says so.
def renderNotes (text : Text) : Text :=
  let flat := trim text
  if flat.length ≤ NOTES_BUDGET then flat
  else
    let kept := keepWords (NOTES_BUDGET-1) (flat.splitOn ' ') []
    (if kept = [] then flat.take (NOTES_BUDGET-1) else kept) ++ ['…']

def normalizeNotes (notes : Option Text) : Option Text := (blankIsAbsent notes).map renderNotes

inductive MatchReason where
  | exact | near | contains
deriving DecidableEq, Repr

def MatchReason.rank : MatchReason → Nat
  | .exact => 0
  | .near => 1
  | .contains => 2

structure MailboxMatch where
  name : Text
  reason : MatchReason
deriving DecidableEq, Repr

inductive Decision where
  | proceed
  | block (candidates : List MailboxMatch)
deriving DecidableEq, Repr

def distanceCells (left : Char) : List Char → List Nat → Nat → List Nat
  | right::rest,above::next::row,cell =>
    let cell := min (min (above + if left ≠ right then 1 else 0) (next+1)) (cell+1)
    cell :: distanceCells left rest (next::row) cell
  | _,_,_ => []

-- The rows stop as soon as every cell in one is over the bound.
def distanceRows (most : Nat) (right : Text) : Text → Nat → List Nat → Option (List Nat)
  | [],_,row => some row
  | left::rest,place,row =>
    let next := (place+1) :: distanceCells left right row (place+1)
    if most < (next.min?).getD 0 then none else distanceRows most right rest (place+1) next

def editDistanceWithin (left right : Text) (most : Nat) : Option Nat :=
  if most < max (left.length-right.length) (right.length-left.length) then none
  else if left = [] then some right.length
  else ((distanceRows most right left 0 (List.range (right.length+1))).bind (·.getLast?)).filter (· ≤ most)

def NEAR : Nat := 2
def CONTAINS_FLOOR : Nat := 3

def reasonFor (incoming existing : Text) : Option MatchReason :=
  if incoming = existing then some .exact
  else if (editDistanceWithin incoming existing NEAR).isSome then some .near
  else
    let (shorter,longer) := if utf8Length incoming ≤ utf8Length existing then (incoming,existing) else (existing,incoming)
    if CONTAINS_FLOOR ≤ utf8Length shorter ∧ shorter <:+: longer then some .contains else none

def screen (name : Text) (existing : List Text) : List MailboxMatch :=
  sortBy (compareLex (compareOn (·.reason.rank)) (compareOn (·.name)))
    (existing.filterMap fun other => (reasonFor name other).map (⟨other,·⟩))

-- The token a refusal mints, keyed by the process.
variable (token : Text → List Text → Text)

def decideCreateFor (name : Text) (ownerSlug : Option Text) (existing : List Text) (overrideToken : Option Text) : Decision :=
  let candidates := screen name existing
  if candidates = [] then .proceed
  -- An exact name is never lifted, by anything.
  else if candidates.any (·.reason = .exact) then .block candidates
  else if ownerSlug = some name ∨ overrideToken.any (fun offered => trim offered = token name (candidates.map (·.name))) then .proceed
  else .block candidates

def decideExisting (name : Text) (existing : List Text) : Decision :=
  if existing.contains name then .proceed else .block (screen name existing)

variable {token} {name : Text} {existing : List Text} {owner overrideToken : Option Text}

-- A name that is let through is not worn yet.
theorem proceed_new (proceeds : decideCreateFor token name owner existing overrideToken = .proceed) : name ∉ existing := by
  intro worn
  have found : (⟨name,.exact⟩ : MailboxMatch) ∈ screen name existing := by
    unfold screen
    apply mem_sortBy.mpr
    refine List.mem_filterMap.mpr ⟨name,worn,?_⟩
    unfold reasonFor
    rw [if_pos rfl]
    rfl
  have taken : (screen name existing).any (·.reason = .exact) = true := List.any_eq_true.mpr ⟨_,found,rfl⟩
  unfold decideCreateFor at proceeds
  dsimp only at proceeds
  rw [if_neg (List.ne_nil_of_mem found),if_pos taken] at proceeds
  cases proceeds

theorem proceed_worn (proceeds : decideExisting name existing = .proceed) : name ∈ existing := by
  unfold decideExisting at proceeds
  split at proceeds
  · rename_i worn
    exact List.contains_iff_mem.mp worn
  · cases proceeds

end Mailbox
