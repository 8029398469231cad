import Jojobot.Memory.Guarded

namespace Mailbox
open Library Memory

inductive MessageState where
  | new | read | processed
deriving DecidableEq, Repr

def MessageState.isUnprocessed (state : MessageState) : Bool := state ≠ .processed

structure StateCounts where
  new : Nat := 0
  read : Nat := 0
  processed : Nat := 0
  superseded : Nat := 0
deriving DecidableEq, Repr

def StateCounts.add (counts : StateCounts) : MessageState → StateCounts
  | .new => { counts with new := counts.new+1 }
  | .read => { counts with read := counts.read+1 }
  | .processed => { counts with processed := counts.processed+1 }

-- One unread message that a later one replaced, counted as new before.
def StateCounts.addSuperseded (counts : StateCounts) : StateCounts :=
  { counts with new := counts.new-1, superseded := counts.superseded+1 }

def StateCounts.total (counts : StateCounts) : Nat := counts.new+counts.superseded+counts.read+counts.processed

inductive TakenBy where
  | reading | posting
deriving DecidableEq, Repr

structure Message where
  id : Text
  mailbox : Text
  body : Text
  subject : Option Text
  sender : Text
  sentAt : Timestamp
  state : MessageState
  notes : Option Text
  inReplyTo : Option Text
  supersedes : Option Text
  supersededBy : Option Text
  takenBy : Option TakenBy
  senderMailWaitingAtSend : Option Nat
  postedBySession : Option Text
deriving DecidableEq, Repr

structure Box where
  name : Text
  owner : EntityId
  counts : StateCounts := {}
  quarantined : List Text := []
deriving DecidableEq, Repr

def BOT : Text := "bot".toList
def PERSON : Text := "person".toList

variable (loaded : List Text)

def Box.isPrivate (mailbox : Box) : Bool := Testimony.kindOf loaded mailbox.owner = some PERSON

end Mailbox
