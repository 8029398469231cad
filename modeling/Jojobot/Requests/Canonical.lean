import Jojobot.Library.Delimited
import Jojobot.Library.Numerals
import Jojobot.Library.Sorting

namespace Requests
open Library

-- A JSON value, whatever numbers are. An object holds its members in some order.
inductive Value (ν : Type) where
  | null
  | bool (value : Bool)
  | number (value : ν)
  | string (text : Text)
  | array (items : List (Value ν))
  | object (map : List (Text × Value ν))

-- The printing of strings and numbers, which is the JSON library's own.
structure Printer (ν : Type) where
  string : Text → Text
  number : ν → Text

-- No quote stands here but behind a backslash.
inductive Escaped : Text → Prop where
  | nil : Escaped []
  | plain {c : Char} {text : Text} (quote : c ≠ '"') (backslash : c ≠ '\\') (rest : Escaped text) : Escaped (c::text)
  | escape {c : Char} {text : Text} (rest : Escaped text) : Escaped ('\\'::c::text)

def isNumeric (c : Char) : Bool := c.isDigit || ['-','+','.','e','E'].contains c

structure Printer.Lawful {ν : Type} (print : Printer ν) : Prop where
  string_injective : ∀ s t, print.string s = print.string t → s = t
  number_injective : ∀ n m, print.number n = print.number m → n = m
  quoted : ∀ s, ∃ body, print.string s = '"'::body++['"'] ∧ Escaped body
  numeric : ∀ n, print.number n ≠ [] ∧ ∀ c ∈ print.number n, isNumeric c = true

variable {ν : Type}

namespace Value

-- No object holds a key twice, at any depth: its map cannot.
mutual
def Distinct : Value ν → Prop
  | array items => DistinctItems items
  | object map => (map.map Prod.fst).Nodup ∧ DistinctMembers map
  | _ => True
def DistinctItems : List (Value ν) → Prop
  | [] => True
  | item::items => item.Distinct ∧ DistinctItems items
def DistinctMembers : List (Text × Value ν) → Prop
  | [] => True
  | (_,value)::map => value.Distinct ∧ DistinctMembers map
end

-- Equal as JSON values, whatever order the keys of each object stand in.
mutual
def Same : Value ν → Value ν → Prop
  | null,null => True
  | bool one,bool other => one = other
  | number one,number other => one = other
  | string one,string other => one = other
  | array items,array others => SameItems items others
  | object map,object other => (∀ key, key ∈ map.map Prod.fst ↔ key ∈ other.map Prod.fst) ∧ SameMembers map other
  | _,_ => False
def SameItems : List (Value ν) → List (Value ν) → Prop
  | [],[] => True
  | item::items,other::others => Same item other ∧ SameItems items others
  | _,_ => False
def SameMembers : List (Text × Value ν) → List (Text × Value ν) → Prop
  | [],_ => True
  | (key,value)::map,other => (∃ found, (key,found) ∈ other ∧ Same value found) ∧ SameMembers map other
end

end Value

-- The arguments of a call: one map of JSON values.
structure Arguments (ν : Type) where
  map : List (Text × Value ν)
  distinct : (Value.object map).Distinct

def ARGUMENT : Text := "request_id".toList

def member (print : Printer ν) (entry : Text × Text) : Text := print.string entry.1++ ':'::entry.2

-- Each member is written before the keys are put in order; the order decides only where it stands.
mutual
def writeCanonical (print : Printer ν) : Value ν → Text
  | .object map => '{'::joined ',' ((sortBy (compareOn Prod.fst) (writeMembers print map)).map (member print))++['}']
  | .array items => '['::joined ',' (writeItems print items)++[']']
  | .null => "null".toList
  | .bool value => if value then "true".toList else "false".toList
  | .number value => print.number value
  | .string text => print.string text
def writeItems (print : Printer ν) : List (Value ν) → List Text
  | [] => []
  | item::items => writeCanonical print item :: writeItems print items
def writeMembers (print : Printer ν) : List (Text × Value ν) → List (Text × Text)
  | [] => []
  | (key,value)::map => (key,writeCanonical print value) :: writeMembers print map
end

def kept (map : List (Text × Value ν)) : List (Text × Value ν) :=
  map.filter fun entry => entry.1 != ARGUMENT && entry.1 != "sid".toList

def canonicalArguments (print : Printer ν) (arguments : Arguments ν) : Text :=
  writeCanonical print (.object (kept arguments.map))

end Requests
