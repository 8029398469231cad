import Jojobot.Library.Sorting
import Jojobot.Library.Weave
import Jojobot.Memory.Writes

namespace Merge
open Library Std Memory

-- A field write a read can place among another thing's writes.
class ServedWrite (T : Type) where
  key : T → Text
  ordinal : T → Int
  writtenAt : T → Option Timestamp
  fact : T → Text
  place : T → Int → Option Text → T

open ServedWrite

-- Placing a write gives it its place in its key's order and, when one is given, the id
-- its claim wears on the survivor, and changes nothing else of where it stands.
class LawfulServedWrite (T : Type) [ServedWrite T] : Prop where
  key_place : ∀ (write : T) ordinal claim, key (place write ordinal claim) = key write
  writtenAt_place : ∀ (write : T) ordinal claim, writtenAt (place write ordinal claim) = writtenAt write
  ordinal_place : ∀ (write : T) (turn : Nat) claim, ordinal (place write turn claim) = turn
  fact_place : ∀ (write : T) ordinal claim, fact (place write ordinal claim) = claim.getD (fact write)

instance keyWriteServed : ServedWrite KeyWrite where
  key := KeyWrite.key
  ordinal write := write.ordinal
  writtenAt := KeyWrite.writtenAt
  fact := KeyWrite.fact
  place write ordinal claim := { write with ordinal := ordinal.toNat,fact := claim.getD write.fact }

variable {T : Type} [ServedWrite T]

-- The order of two stamps, where no stamp is older than any.
def noLater : Option Timestamp → Option Timestamp → Bool
  | none,_ => true
  | some _,none => false
  | some a,some b => a ≤ b

-- Two histories of one key, oldest first: the folded thing's writes on the left, the
-- survivor's on the right.
def interleave (folded survivor : List T) : List (T ⊕ T) :=
  weave (fun their our => noLater (writtenAt their) (writtenAt our)) folded survivor

abbrev Claims := Text → Option Text

def placed (claims : Claims) (turn : Nat) : T ⊕ T → T
  | .inl write => place write (turn+1 : Nat) (claims (fact write))
  | .inr write => place write (turn+1 : Nat) none

def mergeKey (claims : Claims) (theirs ours : List T) : List T :=
  let theirs := sortBy (compareOn ordinal) theirs
  let ours := sortBy (compareOn ordinal) ours
  if theirs.isEmpty then ours else (interleave theirs ours).mapIdx (placed claims)

-- The keys some write names, in the order a map of them is walked.
def keysOf (writes : List T) : List Text := sortBy compare (writes.map key).dedup

def under (writes : List T) (name : Text) : List T := writes.filter (key · = name)

-- A write of a claim the merge did not map is left out, as the claim is.
def mapped (claims : Claims) (writes : List T) : List T := writes.filter fun write => (claims (fact write)).isSome

def mergeIn (ours theirs : List T) (claims : Claims) : List T :=
  let theirs := mapped claims theirs
  (keysOf (theirs ++ ours)).flatMap fun name => mergeKey claims (under theirs name) (under ours name)

-- One merge, as far as placing the writes reads it.
structure MergeStep where
  folded : Text
  survivor : Text
  claims : Claims

abbrev Histories (T : Type) := Text → Option (List T)

def applyMerge (held : Histories T) (step : MergeStep) : Histories T :=
  let theirs := (held step.folded).getD []
  let held := Function.update held step.folded none
  let ours := (held step.survivor).getD []
  Function.update held step.survivor (some (mergeIn ours theirs step.claims))

def applyMerges (held : Histories T) (steps : List MergeStep) : Histories T := steps.foldl applyMerge held

def entry (held : Histories T) (thing : Text) : List T := (held thing).getD []

-- The writes of each key stand in the order their ordinals give them.
def Sorted (writes : List T) : Prop := ∀ name, (under writes name).Pairwise fun a b => ordinal a < ordinal b

def Ordered (held : Histories T) : Prop := ∀ thing, Sorted (entry held thing)

-- What one merge makes of a claim's home and id.
def MergeStep.serves (step : MergeStep) (home claim : Text) : Option (Text × Text) :=
  if home = step.folded then (step.claims claim).map fun given => (step.survivor,given) else some (home,claim)

-- Where the writes of a claim are read after the merges, and the claim's id there.
def servedAs (steps : List MergeStep) (home claim : Text) : Option (Text × Text) :=
  steps.foldl (fun served step => served.bind fun at' => step.serves at'.1 at'.2) (some (home,claim))

-- Where a thing's writes are read after the merges.
def location (steps : List MergeStep) (home : Text) : Text :=
  steps.foldl (fun at' step => if at' = step.folded then step.survivor else at') home

-- A write beside the thing it was first stored on and what was stored there.
structure Traced (T : Type) where
  home : Text
  first : T
  now : T
deriving DecidableEq

instance tracedServed : ServedWrite (Traced T) where
  key write := key write.now
  ordinal write := ordinal write.now
  writtenAt write := writtenAt write.now
  fact write := fact write.now
  place write ordinal claim := { write with now := place write.now ordinal claim }

def traced (held : Histories T) : Histories (Traced T) := fun thing =>
  (held thing).map (List.map fun write => ⟨thing,write,write⟩)

def Traced.origin (write : Traced T) : Text × T := (write.home,write.first)

-- A write that only was placed, any number of times.
inductive Moved (first : T) : T → Prop
  | stored : Moved first first
  | placed {now : T} (ordinal : Int) (claim : Option Text) (moved : Moved first now) :
      Moved first (place now ordinal claim)

end Merge
