import Jojobot.Memory.Types

namespace Memory
open Library

-- How the writes of a key on a thing are read as one value.
inductive Fold where
  | newest | sum | describes
deriving DecidableEq, Repr

inductive Origin where
  | shipped | declared
deriving DecidableEq, Repr

-- A declared type and its keys, as far as the fold of a key reads them.
structure FoldKey where
  key : Text
  folds : Fold
  list : Bool
deriving DecidableEq, Repr

structure FoldType where
  fields : List FoldKey
  origin : Origin
deriving DecidableEq, Repr

def FoldType.field (declared : FoldType) (key : Text) : Option FoldKey :=
  let key := trim key
  declared.fields.find? (·.key = key)

-- The keys that describe the record that carries them.
def DESCRIBING_KEYS : List Text :=
  ["read_from".toList,"read_ref".toList,"starred".toList,"subject".toList,"purpose".toList,"recorded_by".toList]

def foldOf (key : Text) (declared : List FoldType) : Fold :=
  let key := trim key
  let declares (fold : Fold) := declared.any fun d => (d.field key).any (·.folds = fold)
  let buildDescribes := DESCRIBING_KEYS.contains key &&
    declared.any fun d => d.origin = .shipped && (d.field key).any (·.folds = .describes)
  if buildDescribes then .describes
  else if declares .sum then .sum
  else if declares .describes then .describes
  else .newest

def RETRACTS : Text := "retracts".toList
def MERGED_FROM : Text := "merged_from".toList

-- Keys only the engine's own accounts may carry.
def reservedKey (key : Text) : Bool := trim key = RETRACTS || trim key = MERGED_FROM

@[simp] theorem foldOf_trim (key : Text) (declared : List FoldType) : foldOf (trim key) declared = foldOf key declared := by
  simp only [foldOf,trim_trim]

end Memory
