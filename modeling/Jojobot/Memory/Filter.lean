import Jojobot.Memory.Kinds

namespace Memory
open Library

inductive Op where
  | less | lessOrEqual | greater | greaterOrEqual
deriving DecidableEq, Repr

def Op.passes : Op → Ordering → Bool
  | .less,order => order = .lt
  | .lessOrEqual,order => order ≠ .gt
  | .greater,order => order = .gt
  | .greaterOrEqual,order => order ≠ .lt

-- A value read as what an ordering needs.
inductive Orderable [Scalars] where
  | date (date : Scalars.Date)
  | number (number : Scalars.Number)

def Orderable.read [Scalars] (holds : ValueType) (text : Text) : Option Orderable :=
  let text := trim text
  match holds with
  | .date => (Scalars.parseDate text).map .date
  | .number => (Scalars.parseNumber text).map .number
  | _ => none

-- One key is read one way, so a pair never mixes; the last two only keep it total.
def Orderable.cmp [Scalars] : Orderable → Orderable → Ordering
  | .date a,.date b => compare a b
  | .number a,.number b => compare a b
  | .date _,.number _ => .lt
  | .number _,.date _ => .gt

instance [Scalars] : Ord Orderable := ⟨Orderable.cmp⟩

instance [Scalars] : Std.TransOrd Orderable where
  eq_swap := by
    rintro (a | a) (b | b)
    · exact Std.OrientedOrd.eq_swap (α := Scalars.Date)
    · rfl
    · rfl
    · exact Std.OrientedOrd.eq_swap (α := Scalars.Number)
  isLE_trans := by
    rintro (a | a) (b | b) (c | c) ab bc
    · exact Std.TransOrd.isLE_trans (α := Scalars.Date) ab bc
    · rfl
    · cases bc
    · rfl
    · cases ab
    · cases ab
    · cases bc
    · exact Std.TransOrd.isLE_trans (α := Scalars.Number) ab bc

instance [Scalars] : Std.LawfulEqOrd Orderable where
  eq_of_compare := by
    rintro (a | a) (b | b) same
    · exact congrArg Orderable.date (Std.LawfulEqOrd.eq_of_compare same)
    · cases same
    · cases same
    · exact congrArg Orderable.number (Std.LawfulEqOrd.eq_of_compare same)

-- A number with no end has no place in an ordering of things.
def Orderable.inOrder [Scalars] : Orderable → Bool
  | .number held => Scalars.isFinite held
  | .date _ => true

def Orderable.readToOrder [Scalars] (holds : ValueType) (text : Text) : Option Orderable :=
  (Orderable.read holds text).filter (·.inOrder)

def ordered [Scalars] (op : Op) (holds : ValueType) (held wanted : Text) : Bool :=
  match Orderable.read holds held,Orderable.read holds wanted with
  | some held,some wanted => op.passes (held.cmp wanted)
  | _,_ => false

-- `in` of the source is `isIn`, `in` being a word of Lean's.
inductive Test where
  | exists
  | equals (wanted : Text)
  | notEquals (wanted : Text)
  | isIn (wanted : List Text)
  | notIn (wanted : List Text)
  | contains (item : Text)
  | order (op : Op) (holds : ValueType) (wanted : Text)
deriving DecidableEq, Repr

def Test.passes [Scalars] (held : Text) : Test → Bool
  | .exists => true
  | .equals wanted => Compare.equals.holdsBetween held wanted
  | .notEquals wanted => !Compare.equals.holdsBetween held wanted
  | .isIn wanted => wanted.any (Compare.equals.holdsBetween held)
  | .notIn wanted => !wanted.any (Compare.equals.holdsBetween held)
  | .contains item => listHolds held item
  | .order op holds wanted => ordered op holds held wanted

def Test.needsTheKeyHeld : Test → Bool
  | .notEquals _ | .notIn _ => true
  | _ => false

structure Leaf where
  key : Option Text
  test : Test
deriving DecidableEq, Repr

def Leaf.holds [Scalars] (leaf : Leaf) (fields : Fields) : Bool :=
  match leaf.key,leaf.test with
  | some key,.exists => fields.contains key
  | some key,test => fields[key]?.any (test.passes ·)
  | none,.exists => false
  | none,test => if test.needsTheKeyHeld then false else fields.values.any (test.passes ·)

inductive Quantifier where
  | all | any
deriving DecidableEq, Repr

inductive Filter where
  | all (filters : List Filter)
  | any (filters : List Filter)
  | not (inner : Filter)
  | leaf (leaf : Leaf)
  | refs (key : Text) (quantifier : Quantifier) (ask : Filter)
  | finished

structure Subject where
  kind : Text
  fields : Fields
  archived : Bool

structure Lookup where
  thing : Text → Option Subject
  own : Fields

mutual
def Filter.holdsIn [Scalars] (lookup : Lookup) : Filter → Subject → Bool
  | .all filters,subject => allHold lookup filters subject
  | .any filters,subject => anyHolds lookup filters subject
  | .not inner,subject => !inner.holdsIn lookup subject
  | .leaf leaf,subject => leaf.holds subject.fields
  | .refs key quantifier ask,subject =>
    let answers := fun handle => match lookup.thing handle with
      | some named => ask.holdsIn lookup named
      | none => false
    let handles := listItems (subject.fields[key]?.getD [])
    match quantifier with
    | .all => handles.all answers
    | .any => handles.any answers
  | .finished,subject => !subject.archived && isFinished subject.kind subject.fields lookup.own
def allHold [Scalars] (lookup : Lookup) : List Filter → Subject → Bool
  | [],_ => true
  | filter::rest,subject => filter.holdsIn lookup subject && allHold lookup rest subject
def anyHolds [Scalars] (lookup : Lookup) : List Filter → Subject → Bool
  | [],_ => false
  | filter::rest,subject => filter.holdsIn lookup subject || anyHolds lookup rest subject
end

-- The constructors the source builds a tree with. Each leaf's key is trimmed.
def Filter.leafOf (key : Option Text) (test : Test) : Filter := .leaf ⟨key.map trim,test⟩
def Filter.exists (key : Text) : Filter := .leafOf (some key) .exists
def Filter.equals (key wanted : Text) : Filter := .leafOf (some key) (.equals wanted)
def Filter.notEquals (key wanted : Text) : Filter := .leafOf (some key) (.notEquals wanted)
def Filter.isIn (key : Text) (wanted : List Text) : Filter := .leafOf (some key) (.isIn wanted)
def Filter.notIn (key : Text) (wanted : List Text) : Filter := .leafOf (some key) (.notIn wanted)
def Filter.contains (key item : Text) : Filter := .leafOf (some key) (.contains item)
def Filter.ordering (key : Text) (op : Op) (holds : ValueType) (wanted : Text) : Filter :=
  .leafOf (some key) (.order op holds wanted)
def Filter.negated (inner : Filter) : Filter := .not inner

-- A tree those constructors make, whatever test a leaf asks.
inductive Filter.Built : Filter → Prop where
  | leafOf (key : Option Text) (test : Test) : Built (.leafOf key test)
  | all (each : ∀ filter ∈ filters, Built filter) : Built (.all filters)
  | any (each : ∀ filter ∈ filters, Built filter) : Built (.any filters)
  | negated (inner : Built filter) : Built (.negated filter)
  | refs (key : Text) (quantifier : Quantifier) (inner : Built ask) : Built (.refs key quantifier ask)
  | finished : Built .finished

end Memory
