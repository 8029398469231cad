import Jojobot.Library.Numerals
import Jojobot.Library.Sorting
import Jojobot.Memory.Types

namespace Memory
open Library Std

inductive FactStatus where
  | active | archived
deriving DecidableEq, Repr

-- A claim, as far as a list's entries and a document's sections read it.
structure Fact where
  id : Text
  home : EntityId
  content : Text
  details : Option Text
  status : FactStatus
  fields : Fields

structure FactAddress where
  home : EntityId
  localId : Text
deriving DecidableEq, Repr

def ORDER : Text := "order".toList

-- The number in a claim's id; an id that is no number reads after every numbered one.
def claimNumber (fact : Fact) : Option Nat := parseUnsigned 64 (fact.id.dropWhile (· = 'f'))
def claimSequence (fact : Fact) : Nat := (claimNumber fact).getD (2^64-1)

def orderKey (fact : Fact) : Text := (fact.fields[ORDER]?).getD []

def placedCmp : Fact → Fact → Ordering :=
  compareLex (compareOn orderKey) (compareLex (compareOn claimSequence) (compareOn Fact.id))

def placedInOrder (facts : List Fact) : List Fact :=
  sortBy placedCmp (facts.filter (·.fields.contains ORDER))

instance placedCmp_trans : TransCmp placedCmp :=
  inferInstanceAs (TransCmp (compareLex (compareOn orderKey) (compareLex (compareOn claimSequence) (compareOn Fact.id))))

theorem placedCmp_lt {a b : Fact} (less : compare (orderKey a) (orderKey b) = .lt) : placedCmp a b = .lt := by
  rw [placedCmp,compareLex,show compareOn orderKey a b = .lt from less]
  rfl

end Memory
