import Jojobot.Memory.Types

namespace ViewInputs
open Library Memory

-- One input's value as the question reads it, and the thing a handle names.
structure Value where
  text : Text
  handle : Option EntityId
deriving DecidableEq, Repr

-- An input that was left out is present with no value.
structure Bound where
  values : List (Text × Option Value)

def Bound.get (bound : Bound) (name : Text) : Option (Option Value) := bound.values.lookup name
def Bound.isEmpty (bound : Bound) : Bool := bound.values.isEmpty

-- A lowercase letter, then lowercase letters, digits and `_`.
def isAName : Text → Bool
  | [] => false
  | first::rest => first.isLower && rest.all fun c => c.isLower || c.isDigit || c = '_'

end ViewInputs
