import Jojobot.Library.WovenLast
import Jojobot.Memory.Bags.Newest
import Jojobot.Memory.Room

namespace Capacity
open Library Std Memory Merge Testimony Guarded Room

def THREAD_RECORDS : Nat := 3
def ENGINE_RECORD : Text := "engine_record".toList
def REVIEW_MARK : Text := "review_mark".toList

def takesNoSlot (fields : Fields) : Bool := fields.contains REVIEW_MARK || fields.contains ENGINE_RECORD

inductive CeilingFrom where
  | setting | default
deriving DecidableEq, Repr

structure Ceiling where
  limit : Nat
  from' : CeilingFrom
deriving DecidableEq, Repr

-- The number a thing's own setting gives, when it is a whole number above zero.
def settingOf (held : Fields) : Option Nat :=
  ((held[RECORD_CAPACITY]?).bind fun value => parseUnsigned 64 (trim value)).filter (0 < ·)

def ceilingOf (kind : Option Text) (held : Fields) : Option Ceiling :=
  match settingOf held with
  | some limit => some ⟨limit,.setting⟩
  | none => if kind = some THREAD then some ⟨THREAD_RECORDS,.default⟩ else none

-- What the survivor of a merge holds as fields for the ceiling's question.
def heldAfterAMerge (kind : Option Text) (survivor duplicate : Fields) : Fields :=
  match settingOf duplicate with
  | some carried =>
    if (ceilingOf kind survivor).all (carried < ·.limit) then survivor.insert RECORD_CAPACITY (printNat carried) else survivor
  | none => survivor

def liveRecords (filedOn : List Claim) : List Claim :=
  filedOn.filter fun fact => fact.status = .active && !takesNoSlot fact.fields

inductive Fits where
  | yes | onTheReserve | no
deriving DecidableEq, Repr

def fits (limit held adding : Nat) (borrow : Bool) : Fits :=
  if held+adding ≤ limit then .yes
  else if borrow ∧ adding = 1 ∧ held = limit then .onTheReserve
  else .no

structure OverCapacity where
  subject : EntityId
  live : Nat
  limit : Nat
  adding : Nat
  fromSetting : Bool
  records : List Text
deriving DecidableEq

structure Container where
  handle : EntityId
  kind : Option Text
  held : Fields

inductive Admission where
  | lands
  | borrowed (live limit : Nat)
  | refused (over' : OverCapacity)
deriving DecidableEq

def admission (container : Container) (live : List Claim) (adding : Nat) (borrow : Bool) : Admission :=
  match ceilingOf container.kind container.held with
  | none => .lands
  | some ceiling =>
    match fits ceiling.limit live.length adding borrow with
    | .yes => .lands
    | .onTheReserve => .borrowed (live.length+1) ceiling.limit
    | .no => .refused ⟨container.handle,live.length,ceiling.limit,adding,ceiling.from' = .setting,live.map (·.id)⟩

inductive MergeRefused where
  | guarded (refused : Guarded.Refused)
  | room (refused : Room.Refused)
  | overCapacity (over' : OverCapacity)
deriving DecidableEq

structure SurvivorRoom where
  claims : List Claim
  held : Fields

-- What a store reads to judge a fold. A read that fails fails the fold.
structure MergeReads where
  carried : Fields
  writtenKeys : List Text
  lineage : Option EntityId → Lineage
  lineageOf : EntityId → Lineage
  chainAboveSurvivor : List EntityId
  incoming : List Claim
  survivorsRoom : SurvivorRoom

structure Fold where
  caller : EntityId
  folded : EntityId
  survivor : EntityId
  survivorNamed : EntityId

variable (loaded : List Text)

def refusesMergeRecords (fold : Fold) (reads : MergeReads) : Option MergeRefused :=
  let arriving := (liveRecords reads.incoming).length
  if arriving = 0 ∧ thoughtRoom reads.incoming = [] then none
  else
    let room := reads.survivorsRoom
    let number (key : Text) : Option Nat := (room.held[key]?).bind fun value => parseUnsigned 64 (trim value)
    match refusesMergeIntoRoom fold.survivorNamed reads.incoming (thoughtRoom room.claims) (number THOUGHT_CAPACITY)
        (number THOUGHT_BODY_CAP) with
    | some refused => some (.room refused)
    | none =>
      let kind := kindOf loaded fold.survivor
      let held := heldAfterAMerge kind room.held reads.carried
      if 0 < arriving then
        match admission ⟨fold.survivorNamed,kind,held⟩ (liveRecords room.claims) arriving false with
        | .refused over' => some (.overCapacity over')
        | _ => none
      else none

-- The guards of a fold, each asked only after the one before it let the fold through.
def refusesMergeGuards (fold : Fold) (reads : MergeReads) : Option MergeRefused :=
  let judged := judgedCarried reads.carried reads.writtenKeys
  let needed := needsTheChart loaded fold.survivor judged
  match refusesMergeCarrying loaded fold.caller fold.survivor fold.folded judged (needed.map reads.lineage)
      (needed.map fun _ => reads.lineageOf fold.folded) with
  | some refused => some (.guarded refused)
  | none =>
    match refusesMergeBelowTheDuplicate fold.survivor fold.folded reads.chainAboveSurvivor with
    | some refused => some (.guarded refused)
    | none => refusesMergeRecords loaded fold reads

variable [Floats]

-- The two sides of a fold: the writes of each thing, and its records.
structure Sides where
  theirs : List KeyWrite
  ours : List KeyWrite
  incoming : List Claim
  held : List Claim
  lineage : Option EntityId → Lineage
  lineageOf : EntityId → Lineage
  chainAboveSurvivor : List EntityId

def Sides.reads (declared : List FoldType) (sides : Sides) : MergeReads where
  carried := foldedFields sides.theirs declared
  writtenKeys := writtenKeysOn sides.theirs
  lineage := sides.lineage
  lineageOf := sides.lineageOf
  chainAboveSurvivor := sides.chainAboveSurvivor
  incoming := sides.incoming
  survivorsRoom := ⟨sides.held,foldedFields sides.ours declared⟩

-- What the survivor serves once the duplicate is folded into it.
def Sides.mergedFields (declared : List FoldType) (sides : Sides) (claims : Claims) : Fields :=
  foldedFields (mergeIn sides.ours sides.theirs claims) declared

def Sides.mergedClaims (survivor : EntityId) (sides : Sides) (claims : Claims) : List Claim :=
  sides.held ++ sides.incoming.filterMap fun claim => (claims claim.id).map fun given =>
    { claim with id := given,home := survivor }

end Capacity
