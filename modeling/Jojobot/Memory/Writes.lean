import Jojobot.Memory.Facts

namespace Memory
open Library

-- The bag a write of a key was made under, stored with the write.
inductive WriteClass where
  | legacy | own | sets | stays
deriving DecidableEq, Repr

def reachesTheThing : WriteClass → Bool
  | .legacy | .own | .sets => true
  | .stays => false

-- A moment the store stamped, in nanoseconds.
abbrev Timestamp := Int

-- One write of one key on one thing: `none` takes the key off. What the fold and the
-- merge never read of it (who wrote it, how sure anyone was) is left out.
structure KeyWrite where
  key : Text
  ordinal : Nat
  value : Option Text
  fact : Text
  status : FactStatus
  writtenAt : Option Timestamp
deriving DecidableEq

end Memory
