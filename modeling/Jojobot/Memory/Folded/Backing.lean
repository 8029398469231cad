import Jojobot.Library.ByKey
import Jojobot.Memory.Folded
import Jojobot.Memory.Testimony

namespace Memory
open Library Std

-- A write with what backs the record that carried it.
structure BackedWrite extends KeyWrite where
  provenance : Testimony.Provenance
  standing : Testimony.Standing
  note : Option Text
  recordedBy : Option Testimony.AppStamp

structure FieldBacking where
  fact : Text
  provenance : Testimony.Provenance
  standing : Testimony.Standing
  note : Option Text
  recordedBy : Option Testimony.AppStamp
deriving DecidableEq, Repr

def BackedWrite.backing (write : BackedWrite) : FieldBacking :=
  ⟨write.fact,write.provenance,write.standing,write.note,write.recordedBy⟩

def backStep (declared : List FoldType) (backing : ExtTreeMap Text FieldBacking) (write : BackedWrite) :
    ExtTreeMap Text FieldBacking :=
  if foldOf write.key declared ≠ .newest then backing.erase write.key
  else
    match heldValue write.toKeyWrite declared with
    | none => backing.erase write.key
    | some _ => backing.insert write.key write.backing

def byBackedKey (one other : BackedWrite) : Ordering := byKeyAndOrdinal one.toKeyWrite other.toKeyWrite

def standingBacked (writes : List BackedWrite) : List BackedWrite :=
  sortBy byBackedKey (writes.filter fun write => write.status = .active && !reservedKey write.key)

-- Which record each value comes from, read by a loop of its own.
def foldedBacking (writes : List BackedWrite) (declared : List FoldType) : ExtTreeMap Text FieldBacking :=
  (standingBacked writes).foldl (backStep declared) {}

variable [Floats]

def foldedAges (writes : List KeyWrite) (declared : List FoldType) : ExtTreeMap Text Timestamp :=
  (fold writes declared).moments.filterMap fun _ moment => moment

end Memory
