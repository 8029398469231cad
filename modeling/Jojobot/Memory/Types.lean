import Jojobot.Library.Numerals

namespace Memory
open Library

-- What the standard float and the calendar's date read and how each is ordered.
-- A number is never NaN, and its two zeros are one.
class Scalars where
  Date : Type
  Number : Type
  dates : LinearOrder Date
  numbers : LinearOrder Number
  parseDate : Text → Option Date
  parseNumber : Text → Option Number
  isFinite : Number → Bool

instance [Scalars] : LinearOrder Scalars.Date := Scalars.dates
instance [Scalars] : LinearOrder Scalars.Number := Scalars.numbers

-- Whole numbers and plain days: enough of what is read to run a test on.
@[reducible] def plainScalars : Scalars where
  Date := Nat
  Number := Nat
  dates := inferInstance
  numbers := inferInstance
  parseDate text :=
    match text.splitOn '-' with
    | [year,month,day] =>
      if year.length = 4 ∧ month.length = 2 ∧ day.length = 2 then digits (year ++ month ++ day) else none
    | _ => none
  parseNumber := digits
  isFinite _ := true

abbrev EntityId := Text

-- The keys and values a thing or a record holds, in key order.
abbrev Fields := Std.ExtTreeMap Text Text

inductive ValueType where
  | text | number | date | dateRange | period | boolean | reference | expression
deriving DecidableEq, Repr

-- One key of a declared type, as far as an ordering and a list licence read it.
structure Field where
  key : Text
  holds : ValueType
  list : Bool
deriving DecidableEq, Repr

structure DeclaredType where
  name : Text
  fields : List Field
deriving DecidableEq, Repr

def listItems (value : Text) : List Text := (splitItems value).filter (· ≠ [])

def listHolds (value item : Text) : Bool :=
  let item := trim item
  item ≠ [] && (listItems value).contains item

inductive Compare where
  | equals | before | after | less | greater
deriving DecidableEq, Repr

def Compare.holdsBetween [Scalars] (compare : Compare) (held wanted : Text) : Bool :=
  let held := trim held
  let wanted := trim wanted
  match compare with
  | .equals => held = wanted
  | .before | .after =>
    match Scalars.parseDate held,Scalars.parseDate wanted with
    | some held,some wanted => if compare = .before then held < wanted else held > wanted
    | _,_ => false
  | .less | .greater =>
    match Scalars.parseNumber held,Scalars.parseNumber wanted with
    | some held,some wanted => if compare = .less then held < wanted else held > wanted
    | _,_ => false

theorem equals_holds [Scalars] (held wanted : Text) :
    Compare.equals.holdsBetween held wanted = true ↔ trim held = trim wanted := by
  simp [Compare.holdsBetween]

end Memory
