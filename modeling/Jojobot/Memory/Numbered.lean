import Jojobot.Library.Numerals
import Jojobot.Library.Sorting
import Jojobot.Memory.Types
import Mathlib.Data.Finset.Lattice.Fold
import Mathlib.Data.Finset.Sort

namespace Numbering
open Library Std Memory

-- A positive whole number in its one spelling, below the largest a machine holds.
def wholeNumber (raw : Text) : Option Nat :=
  let raw := trim raw
  if raw.isEmpty || !raw.all Char.isDigit then none
  else if raw.length > 1 && raw.head? = some '0' then none
  else (parseUnsigned 64 raw).filter fun n => n > 0 && n < 2^64-1

structure Member where
  handle : EntityId
  value : Option Text
  retired : Finset Nat

structure Numbered where
  collection : EntityId
  key : Text
  members : List Member

def Member.number (member : Member) : Option Nat := member.value.bind wholeNumber

namespace Numbered

def held (scope : Numbered) : List Nat := scope.members.filterMap (·.number)

def retiredAll (scope : Numbered) : Finset Nat := scope.members.foldr (·.retired ∪ ·) ∅

def next (scope : Numbered) : Nat := (scope.held.toFinset ∪ scope.retiredAll).sup id + 1

def holderOf (scope : Numbered) (number : Nat) : Option Member := scope.members.find? (·.number = some number)

def isMember (scope : Numbered) (handle : EntityId) : Bool := scope.members.any (·.handle = handle)

def memberAt (scope : Numbered) (handle : EntityId) : Option Member := scope.members.find? (·.handle = handle)

def numberAt (scope : Numbered) (handle : EntityId) : Option Nat := (scope.memberAt handle).bind (·.number)

end Numbered

inductive Edit where
  | set (handle : EntityId) (value : Option Text)
  | leave (handle : EntityId)

structure Change where
  holds : List (EntityId × Fields)
  leaves : List EntityId
  moved : List (EntityId × Fields)
  blank : List (EntityId × List Text)

def Change.none : Change := ⟨[],[],[],[]⟩

inductive NumberError where
  | notANumber (collection : EntityId) (key value : Text)
  | numberTaken (collection : EntityId) (key : Text) (number : Nat) (holder : EntityId) (next : Nat)
  | numberRetired (collection : EntityId) (key : Text) (number next : Nat)
  | numberFreed (collection : EntityId) (key : Text) (number : Nat) (holder : EntityId) (takenBack : Bool)
  | membersBreakNumbering (collection : EntityId) (key : Text) (members : List Text)
deriving DecidableEq

-- A thing the write makes a collection, moves to another key or stops numbering.
structure Founding where
  old : Option Numbered
  new : Option Numbered

def Founding.freed (old : Numbered) : Option NumberError :=
  let numbered := old.members.filterMap fun member => member.number.map (member,·)
  (sortBy (compareOn fun held : Member × Nat => held.1.handle) numbered).head?.map fun held =>
    .numberFreed old.collection old.key held.2 held.1.handle false

def Founding.unfit (new : Numbered) (member : Member) : Option Text :=
  match member.value with
  | none => none
  | some raw =>
    let twice := member.number.any fun number =>
      new.members.any fun other => other.handle ≠ member.handle && other.number = some number
    if member.number = none ∨ twice then some (member.handle ++ " (".toList ++ raw ++ ")".toList) else none

def Founding.broken (new : Numbered) : Option NumberError :=
  let unfit := new.members.filterMap (unfit new)
  if unfit = [] then none
  else some (.membersBreakNumbering new.collection new.key (sortBy compare unfit))

def Founding.refuses (founding : Founding) : Option NumberError :=
  (founding.old.bind Founding.freed).or (founding.new.bind Founding.broken)

def Numbered.editsFor (scope : Numbered) (change : Change) (joins : Bool) : List Edit :=
  (change.leaves.filter scope.isMember).map .leave ++
  (change.holds.filter fun held => scope.isMember held.1).map (fun held =>
    let blank := change.blank.any fun one => one.1 = held.1 && one.2.contains scope.key
    .set held.1 (held.2[scope.key]?.or (if blank then some [] else none))) ++
  change.moved.filterMap fun held =>
    if joins then some (.set held.1 held.2[scope.key]?)
    else if scope.isMember held.1 then some (.leave held.1)
    else none

-- The member's value is set in place; a thing that is no member yet becomes one.
def setValue (handle : EntityId) (value : Option Text) : List Member → List Member
  | [] => [⟨handle,value,∅⟩]
  | member :: rest =>
    if member.handle = handle then { member with value } :: rest else member :: setValue handle value rest

def Edit.apply (members : List Member) : Edit → List Member
  | .leave handle => members.filter (·.handle ≠ handle)
  | .set handle value => setValue handle value members

def Numbered.edited (scope : Numbered) (edits : List Edit) : Numbered :=
  { scope with members := edits.foldl Edit.apply scope.members }

def Edit.sets : Edit → Option EntityId
  | .set handle _ => some handle
  | .leave _ => none

def touchedBy (edits : List Edit) : List EntityId := sortBy compare (edits.filterMap Edit.sets).dedup

def unreadable (before : Numbered) (edits : List Edit) : Option NumberError :=
  edits.findSome? fun
    | .set handle (some raw) =>
      if wholeNumber raw = none ∧ (before.memberAt handle).bind (·.value) ≠ some raw
      then some (.notANumber before.collection before.key raw) else none
    | _ => none

def taken (now : Numbered) (touched : List EntityId) : Option NumberError :=
  touched.findSome? fun handle => do
    let number ← now.numberAt handle
    let rivals := now.members.filter fun member => member.handle ≠ handle && member.number = some number
    let holder ← (rivals.find? (!touched.contains ·.handle)).or rivals.head?
    some (.numberTaken now.collection now.key number holder.handle now.next)

def reissued (before now : Numbered) (touched : List EntityId) : Option NumberError :=
  touched.findSome? fun handle => do
    let number ← now.numberAt handle
    if number ∈ before.retiredAll ∧ before.numberAt handle ≠ some number
    then some (.numberRetired before.collection before.key number now.next) else none

def freed (before now : Numbered) : Option NumberError :=
  before.members.findSome? fun member => do
    let number ← member.number
    if (now.holderOf number).isSome then none
    else some (.numberFreed before.collection before.key number member.handle false)

-- Any set of a present member reads as a merge into it.
def keptBy (before : Numbered) (edits : List Edit) : Bool :=
  edits.any fun edit => edit.sets.any before.isMember

def takenOut (before now : Numbered) (edits : List Edit) : Option NumberError :=
  if keptBy before edits then none
  else edits.findSome? fun
    | .leave handle => do
      let member ← before.memberAt handle
      let number ← (member.retired.sort (· ≤ ·)).find? (· ∉ now.retiredAll)
      some (.numberFreed before.collection before.key number member.handle true)
    | _ => none

def refusesNumbering (before : Numbered) (edits : List Edit) : Option NumberError :=
  let touched := touchedBy edits
  let now := before.edited edits
  (unreadable before edits).or <| (taken now touched).or <| (reissued before now touched).or <|
    (freed before now).or (takenOut before now edits)

-- What one collection of a write's reach asks: a collection inside the moved subtree
-- moves with its members and is not asked.
def Numbered.refuses (scope : Numbered) (change : Change) (joins : Bool) : Option NumberError :=
  if change.moved.any (·.1 = scope.collection) then none
  else refusesNumbering scope (scope.editsFor change joins)

end Numbering
