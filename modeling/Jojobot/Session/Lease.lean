import Jojobot.Memory.Bags.Newest
import Jojobot.Memory.Testimony

namespace Lease
open Library Std Memory

-- How the store's moments are written in a field and read back off one.
class Moments where
  print : Timestamp → Text
  parse : Text → Option Timestamp

class LawfulMoments [Moments] : Prop where
  parse_print : ∀ moment, Moments.parse (Moments.print moment) = some moment
  print_shown : ∀ moment, holdsAValue (Moments.print moment) = true

def ROLE_HOLDER : Text := "holder".toList
def ROLE_CLAIMED_AT : Text := "claimed_at".toList

-- Both are spans in nanoseconds, as a moment is.
def LEASE_FRESHNESS : Int := 45*60*1000000000
def LEASE_RENEWS_AFTER : Int := (45*60/10)*1000000000
def UNIX_EPOCH : Timestamp := 0

def renewalIsDue (claimedAt : Option Timestamp) (at' : Timestamp) : Bool :=
  claimedAt.all fun stamped => LEASE_RENEWS_AFTER ≤ at'-stamped

inductive LeaseVerdict where
  | free | held | stale
deriving DecidableEq, Repr

def leaseVerdict (claimedAt : Option Timestamp) (now : Timestamp) (threshold : Int) : LeaseVerdict :=
  match claimedAt with
  | none => .free
  | some at' => if now-at' < threshold then .held else .stale

inductive RoleMoveKind where
  | renew | release
deriving DecidableEq, Repr

-- A renewal or a release, naming whose it is.
structure RoleMove where
  kind : RoleMoveKind
  role : Text
  claimant : Text
deriving DecidableEq, Repr

inductive LeaseClaim where
  | taken
  | refused (holder : Text) (until' : Timestamp)
deriving DecidableEq, Repr

def claimRole (claimant : Text) (currentHolder : Option Text) (claimedAt : Option Timestamp) (now : Timestamp)
    (threshold : Int) : LeaseClaim :=
  match currentHolder,claimedAt with
  | some holder,some at' =>
    if holder ≠ claimant ∧ leaseVerdict (some at') now threshold = .held then .refused holder (at'+threshold) else .taken
  | _,_ => .taken

structure RoleState where
  holder : Option Text := none
  claimedAt : Option Timestamp := none
deriving DecidableEq, Repr

inductive Refused where
  | roleNotHeld (role claimant : Text)
  | roleTaken (role holder : Text) (until' : Timestamp)
  | notRetractable (attempted : Text)
  | unknownFact (attempted : Text)
  | bag (refused : BagRefused)
deriving DecidableEq

structure Patch extends FieldPatch where
  content : Option Text := none
  status : Option FactStatus := none
  roleMove : Option RoleMove := none
  session : Option Text := none

-- The renewal move, the holder and the moment, and no other member.
def isAPlainRenewal (patch : Patch) : Bool :=
  patch.roleMove.any (·.kind = .renew) && patch.fields.contains ROLE_CLAIMED_AT &&
    patch.fields.keys.all (fun key => key = ROLE_CLAIMED_AT || key = ROLE_HOLDER) &&
    patch.clearFields = [] && patch.sets = [] && patch.content = none && patch.status = none && patch.session = none

def roleClaimContent (role : Text) : Text := "claimed the ".toList ++ role ++ " role".toList

-- A role object: its records, which keep no fields of their own, and the writes of their keys.
structure RoleObject where
  records : List Fact := []
  rows : List FieldRow := []

-- The row a key's newest write is in, whatever has become of its record.
def newestRow (rows : List FieldRow) (key : Text) : Option FieldRow :=
  (sortBy (compareOn (·.write.ordinal)) (rows.filter (·.write.key = key))).getLast?

def restamped (ordinal : Nat) (moment : Text) (now : Timestamp) (row : FieldRow) : FieldRow :=
  if row.write.key = ROLE_CLAIMED_AT ∧ row.write.ordinal = ordinal then
    { row with write := { row.write with value := some moment, writtenAt := some now } }
  else row

-- The one change of a write after it was made: a renewal's, of the newest moment.
def overwriteLeaseMoment (rows : List FieldRow) (moment : Text) (now : Timestamp) : Option (List FieldRow) :=
  match newestRow rows ROLE_CLAIMED_AT with
  | none => none
  | some newest =>
    if newest.write.value.isSome then some (rows.map (restamped newest.write.ordinal moment now)) else none

-- The record that carries a holder or a moment, or failing that the one a move made for itself.
def roleClaimRecord (role : Text) (object : RoleObject) : Option Text :=
  let carries (record : Fact) : Bool :=
    (carriedBy object.rows record.id).contains ROLE_HOLDER || (carriedBy object.rows record.id).contains ROLE_CLAIMED_AT
  ((object.records.find? carries).or (object.records.find? (·.content = roleClaimContent role))).map (·.id)

inductive RoleWrite where
  | claim (claimant : Text)
  | renew (claimant : Text)
  | release (claimant : Text)
deriving DecidableEq, Repr

def RoleWrite.claimant : RoleWrite → Text
  | .claim claimant | .renew claimant | .release claimant => claimant

def RoleWrite.roleMove (role : Text) : RoleWrite → Option RoleMove
  | .claim _ => none
  | .renew claimant => some ⟨.renew,role,claimant⟩
  | .release claimant => some ⟨.release,role,claimant⟩

def RoleWrite.clear : RoleWrite → List Text
  | .release _ => [ROLE_HOLDER]
  | _ => []

-- A plain renewal names no session.
def RoleWrite.session : RoleWrite → Option Text
  | .renew _ => none
  | write => some write.claimant

def isIdByte (c : Char) : Bool := c.isLower || c.isDigit || c = '-'

def validSessionId (id : Text) : Bool := id ≠ [] && id.length ≤ 64 && id.all isIdByte

section
variable [Moments]

-- A role object that carries a claim moment is the whole truth.
def roleState (child : Option Fields) : RoleState :=
  match child.filter (·.contains ROLE_CLAIMED_AT) with
  | some child => ⟨child[ROLE_HOLDER]?,(child[ROLE_CLAIMED_AT]?).bind Moments.parse⟩
  | none => {}

def roleClaimIn (fields : Fields) : Option (Text × Timestamp) := do
  let claimant ← fields[ROLE_HOLDER]?
  let now ← (fields[ROLE_CLAIMED_AT]?).bind Moments.parse
  some (claimant,now)

def refusesRoleWrite (role : Text) (roleMove : Option RoleMove) (fields : Fields) (state : RoleState) : Option Refused :=
  match roleMove with
  | some move => if state.holder ≠ some move.claimant then some (.roleNotHeld role move.claimant) else none
  | none =>
    match roleClaimIn fields with
    | none => none
    | some (claimant,now) =>
      match claimRole claimant state.holder state.claimedAt now LEASE_FRESHNESS with
      | .refused holder until' => some (.roleTaken role holder until')
      | .taken => none

def RoleWrite.fields (at' : Timestamp) : RoleWrite → Fields
  | .claim claimant | .renew claimant => ((∅ : Fields).insert ROLE_HOLDER claimant).insert ROLE_CLAIMED_AT (Moments.print at')
  | .release _ => (∅ : Fields).insert ROLE_CLAIMED_AT (Moments.print UNIX_EPOCH)

def RoleWrite.patch (role : Text) (at' : Timestamp) (write : RoleWrite) : Patch where
  fields := write.fields at'
  derived := (write.fields at').keys
  clearFields := write.clear
  roleMove := write.roleMove role
  session := write.session

variable [Floats] (declared : List FoldType) (role : Text)

def RoleObject.fields (object : RoleObject) : Fields := foldedFields (writesOn object.rows) declared

def RoleObject.lease (object : RoleObject) : RoleState := roleState (some (object.fields declared))

def capture (object : RoleObject) (fact : Fact) (sets derived : List Text) (ownFieldsStay : Bool) (at' : Timestamp) :
    Except Refused RoleObject :=
  match refusesRoleWrite role none fact.fields (object.lease declared) with
  | some refused => .error refused
  | none =>
    match captured object.rows fact sets derived declared ownFieldsStay at' with
    | .error refused => .error (.bag refused)
    | .ok rows => .ok ⟨object.records ++ [fact],rows⟩

def applied (fact : Fact) (patch : Patch) : Fact :=
  { fact with content := patch.content.getD fact.content, status := patch.status.getD fact.status }

def updateFact (object : RoleObject) (id : Text) (patch : Patch) (ownFieldsStay : Bool) (at' : Timestamp) :
    Except Refused RoleObject :=
  match object.records.find? (·.id = id) with
  | none => .error (.unknownFact id)
  | some fact =>
    if fact.status = .archived then .error (.notRetractable id)
    else match refusesRoleWrite role patch.roleMove patch.fields (object.lease declared) with
      | some refused => .error refused
      | none =>
        let renewed := if isAPlainRenewal patch then
          (patch.fields[ROLE_CLAIMED_AT]?).bind (overwriteLeaseMoment object.rows · at') else none
        match renewed with
        | some rows => .ok { object with rows := rows }
        | none =>
          match edited object.rows (applied fact patch) patch.toFieldPatch declared ownFieldsStay at' with
          | .error refused => .error (.bag refused)
          | .ok rows =>
            .ok ⟨object.records.map fun record => if record.id = id then applied fact patch else record,rows⟩

-- What an act leaves, and why it was refused when it was.
def settled (before : RoleObject) : Except Refused RoleObject → RoleObject × Option Refused
  | .ok after => (after,none)
  | .error refused => (before,some refused)

-- The claim record a first write makes, with the claim's own fields or empty.
def claimFact (freshId : Text) (fields : Fields) : Fact where
  id := freshId
  home := "role:".toList ++ role
  content := roleClaimContent role
  details := none
  status := .active
  fields := fields

def writeRoleKeys (object : RoleObject) (write : RoleWrite) (freshId : Text) (ownFieldsStay : Bool) (at' : Timestamp) :
    RoleObject × Option Refused :=
  let patch := write.patch role at'
  match roleClaimRecord role object with
  | some id => settled object (updateFact declared role object id patch ownFieldsStay at')
  | none =>
    match write.roleMove role with
    | none => settled object (capture declared role object (claimFact role freshId (write.fields at')) [] patch.derived ownFieldsStay at')
    | some _ =>
      match capture declared role object (claimFact role freshId ∅) [] [] ownFieldsStay at' with
      | .error refused => (object,some refused)
      | .ok made => settled made (updateFact declared role made freshId patch ownFieldsStay at')

inductive Act where
  | role (write : RoleWrite) (freshId : Text)
  | capture (fact : Fact) (sets derived : List Text)
  | edit (id : Text) (patch : Patch)

def land (object : RoleObject) (act : Act) (ownFieldsStay : Bool) (at' : Timestamp) : RoleObject × Option Refused :=
  match act with
  | .role write freshId => writeRoleKeys declared role object write freshId ownFieldsStay at'
  | .capture fact sets derived => settled object (Lease.capture declared role object fact sets derived ownFieldsStay at')
  | .edit id patch => settled object (updateFact declared role object id patch ownFieldsStay at')

end

end Lease
