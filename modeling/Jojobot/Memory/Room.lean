import Jojobot.Library.Keyed
import Jojobot.Memory.Guarded
import Jojobot.Memory.Testimony

namespace Room
open Library Std Memory Testimony

def DEFAULT_THOUGHT_BODY_CAP : Nat := 200
def BOT : Text := "bot".toList

-- A claim, with whether another bot first wrote it.
structure Claim extends record : Testimony.Fact where
  writtenByAnother : Bool

structure ClaimWrite where
  claim : Text
  writtenAt : Option Timestamp
deriving DecidableEq, Repr

-- A bot's thing: its claims, the writes of them, and the moments its runs started.
structure BotThing where
  claims : List Claim := []
  claimWrites : List ClaimWrite := []
  runStarts : List Timestamp := []

inductive Refused where
  | thoughtTooLong (subject : EntityId) (len cap : Nat)
  | roomFull (subject : EntityId) (live capacity agedOut : Nat) (room : List Text)
  | mergeThoughtTooLong (subject : EntityId) (thought : Text) (len cap : Nat)
  | mergeOverfillsRoom (subject : EntityId) (live capacity incoming : Nat) (room : List Text)
  | unknownFact (attempted : Text)
  | notRetractable (attempted : Text)
  | patch (refused : MemoryError)
  | elsewhere
deriving DecidableEq

def isConnection (edge : Option Edge) : Bool := edge.any (·.shape = .connection)

def isThoughtOf (edge : Option Edge) (writtenByAnother : Bool) : Bool := !writtenByAnother && isConnection edge

def isThought (claim : Claim) : Bool := isThoughtOf claim.edge claim.writtenByAnother

def thoughtRoom (captured : List Claim) : List Claim := (captured.filter (·.status = .active)).filter isThought

def agingCutoff (runStarts : List Timestamp) (agesAfterRuns : Nat) : Option Timestamp :=
  if agesAfterRuns = 0 ∨ runStarts.length < agesAfterRuns then none
  else (sortBy (fun a b => compare b a) runStarts)[agesAfterRuns-1]?

def isQuiet (touchedAt agedBefore : Option Timestamp) : Bool :=
  match touchedAt,agedBefore with
  | some at',some cutoff => at' < cutoff
  | _,_ => false

structure RoomCount where
  capacity : Nat
  live : List Claim
  agedOut : List Claim

def RoomCount.full (count : RoomCount) : Bool := count.capacity ≤ count.live.length
def RoomCount.over (count : RoomCount) : Bool := count.capacity < count.live.length

def splitByAge (room : List Claim) (touched : Text → Option Timestamp) (agedBefore : Option Timestamp) : List Claim × List Claim :=
  room.partition fun claim => !isQuiet (touched claim.id) agedBefore

def countRoom (nominal : List Claim) (touched : Text → Option Timestamp) (agedBefore : Option Timestamp) (capacity : Nat) : RoomCount :=
  let split := splitByAge nominal touched agedBefore
  ⟨capacity,split.1,split.2⟩

-- A claim's last write moment; a write that kept none is no touch.
def touchedMoment (writes : List ClaimWrite) (id : Text) : Option Timestamp :=
  ((writes.filter (·.claim = id)).filterMap (·.writtenAt)).max?

def mintedId (number : Nat) : Text := 'f' :: printNat number

def ceilingKeys : List Guarded.GuardedKey :=
  Guarded.GUARDED_KEYS.filter fun rule =>
    !(rule.may = .requestSpec || rule.may = .requestStatus || rule.may = .requestGeneration)

def namesACeilingKey (fields : Fields) : Bool := ceilingKeys.any fun rule => fields.contains rule.key

def refusesRoomOverflow (home : EntityId) (count : RoomCount) : Option Refused :=
  if count.full then some (.roomFull home count.live.length count.capacity count.agedOut.length (count.live.map (·.id))) else none

def refusesThoughtOverCap (home : EntityId) (content : Text) (cap capacity : Option Nat) : Option Refused :=
  match cap.or (capacity.map fun _ => DEFAULT_THOUGHT_BODY_CAP) with
  | none => none
  | some cap => if cap < content.length then some (.thoughtTooLong home content.length cap) else none

def refusesMergeIntoRoom (survivor : EntityId) (incoming room : List Claim) (capacity cap : Option Nat) : Option Refused :=
  let arriving := thoughtRoom incoming
  let overCap (thought : Claim) : Option Refused :=
    match refusesThoughtOverCap survivor thought.content cap capacity with
    | some (.thoughtTooLong _ len cap) => some (.mergeThoughtTooLong survivor thought.id len cap)
    | _ => none
  match arriving.findSome? overCap with
  | some refused => some refused
  | none =>
    match capacity with
    | none => none
    | some capacity =>
      if arriving = [] ∨ room.length+arriving.length ≤ capacity then none
      else some (.mergeOverfillsRoom survivor room.length capacity arriving.length (room.map (·.id)))

-- A new claim: the record as the caller sends it, who writes it, and what the room may ask of it.
structure NewFact extends record : Testimony.Fact where
  writtenByBot : Option EntityId
  session : Option Text
  drop : Option FactAddress
  dropBecause : Option Text
  borrow : Bool
  agedBefore : Option Timestamp

structure RoomPatch extends FactPatch where
  agedBefore : Option Timestamp := none

section
variable (loaded : List Text) (storageKey : EntityId → Option EntityId) (botOfRun : Text → Option EntityId) (handle home : EntityId)

def anotherBotsClaim (home : EntityId) (writer : Option EntityId) (namesHome : EntityId → Bool) : Bool :=
  kindOf loaded home = some BOT && writer.any fun writer => writer ≠ home && !namesHome writer

def anotherBot (writer : Option EntityId) (thing : EntityId) : Bool :=
  anotherBotsClaim loaded thing writer fun bot => (storageKey thing).any (bot = ·)

def storedWriter (bot : EntityId) : EntityId := (storageKey bot).getD bot

-- The record as it is stored, under its minted id.
def NewFact.claim (new : NewFact) (number : Nat) : Claim :=
  let writer := (new.writtenByBot.map (storedWriter storageKey)).or (new.session.bind botOfRun)
  { new.record with
    id := mintedId number
    home := home
    content := normalizeContent new.content
    details := normalizeDetails new.details
    writtenByAnother := anotherBot loaded storageKey writer handle }

variable (capacity cap : Option Nat)

-- The thought a drop archives: a live one of this room, and no setting of the bot's.
def dropped (thing : BotThing) (counted : RoomCount) (new : NewFact) : Option Claim :=
  match new.drop,new.dropBecause with
  | some victim,some reason =>
    if storageKey victim.home = some home ∧ counted.live.any (·.id = victim.localId) then
      ((thing.claims.find? (·.id = victim.localId)).filter fun held => !namesACeilingKey held.fields).map
        fun held => { held with status := .archived, details := some reason }
    else none
  | _,_ => none

-- Whether a thought may join the room, and the thought that makes way for it.
def admits (thing : BotThing) (new : NewFact) (claim : Claim) : Except Refused (Option Claim) :=
  match refusesThoughtOverCap handle claim.content cap capacity with
  | some refused => .error refused
  | none =>
    match capacity with
    | none => .ok none
    | some capacity =>
      let nominal := thoughtRoom thing.claims
      if nominal.length < capacity then .ok none
      else
        let counted := countRoom nominal (touchedMoment thing.claimWrites) new.agedBefore capacity
        let refuse := Refused.roomFull handle counted.live.length capacity counted.agedOut.length (counted.live.map (·.id))
        if !counted.full then .ok none
        else if new.drop.isSome ∧ new.dropBecause.isSome then
          match dropped storageKey home thing counted new with
          | some archived => .ok (some archived)
          | none => .error refuse
        else if new.borrow && !counted.over then .ok none
        else .error refuse

def BotThing.archive (thing : BotThing) (archived : Claim) (at' : Timestamp) : BotThing :=
  { thing with
    claims := replaced (·.id) archived thing.claims
    claimWrites := thing.claimWrites ++ [⟨archived.id,some at'⟩] }

def BotThing.keep (thing : BotThing) (claim : Claim) (at' : Timestamp) : BotThing :=
  { thing with
    claims := thing.claims ++ [claim]
    claimWrites := thing.claimWrites ++ [⟨claim.id,some at'⟩] }

-- The store's other guards, none of which asks about the room, let the write through or not.
def capture (thing : BotThing) (new : NewFact) (letThrough : Bool) (at' : Timestamp) : Except Refused BotThing :=
  let claim := new.claim loaded storageKey botOfRun handle home (thing.claims.length+1)
  let admitted := if isThought claim then admits storageKey handle home capacity cap thing new claim else .ok none
  match admitted with
  | .error refused => .error refused
  | .ok makesWay =>
    if !letThrough then .error .elsewhere
    else .ok ((makesWay.elim thing fun archived => thing.archive archived at').keep claim at')

def updateFact (declared : List FoldType) (thing : BotThing) (id : Text) (patch : RoomPatch) (writtenIn : Option Text)
    (letThrough : Bool) (at' : Timestamp) : Except Refused BotThing :=
  match thing.claims.find? (·.id = id) with
  | none => .error (.unknownFact id)
  | some fact =>
    if fact.status = .archived then .error (.notRetractable id)
    else match settleRewrite loaded ⟨home,id⟩ fact.record patch.toFactPatch writtenIn declared with
      | .error refused => .error (.patch refused)
      | .ok settled =>
        match applyFactPatch loaded fact.record settled with
        | .error refused => .error (.patch refused)
        | .ok next =>
          let edited : Claim := { fact with record := next }
          let wasThought := isThought fact
          let becomesThought := edited.status = .active && isThought edited
          let overCap := if becomesThought && (settled.content.isSome || !wasThought) then
            refusesThoughtOverCap handle edited.content cap capacity else none
          match overCap with
          | some refused => .error refused
          | none =>
            let wasAged := wasThought && isQuiet (touchedMoment thing.claimWrites id) patch.agedBefore
            let overflow := if becomesThought && (!wasThought || wasAged) then
              capacity.bind fun capacity =>
                let nominal := thoughtRoom (thing.claims.filter (·.id ≠ edited.id))
                let touched := if capacity ≤ nominal.length then touchedMoment thing.claimWrites else fun _ => none
                refusesRoomOverflow handle (countRoom nominal touched patch.agedBefore capacity)
              else none
            match overflow with
            | some refused => .error refused
            | none => if !letThrough then .error .elsewhere else .ok (thing.archive edited at')

-- The id a claim of the duplicate answers to once the merge is made.
def movedId (held : Nat) (incoming : List Claim) (id : Text) : Text := mintedId (held+1+(incoming.map (·.id)).idxOf id)

-- What the duplicate brings in the order of its ids, and the writes of it.
def brought (held : Nat) (incoming : List Claim) : List Claim :=
  let ordered := sortBy (compareOn (claimSequence ·.toFact)) incoming
  ordered.map fun claim => { claim with id := movedId held ordered claim.id, home := home }

def broughtWrites (held : Nat) (incoming : List Claim) (writes : List ClaimWrite) : List ClaimWrite :=
  writes.map fun write => { write with claim := movedId held (sortBy (compareOn (claimSequence ·.toFact)) incoming) write.claim }

-- The engine's own record of the merge, which draws no edge.
def accountClaim (account : Testimony.Fact) (number : Nat) : Claim :=
  { account with id := mintedId number, home := home, edge := none, writtenByAnother := false }

def merge (thing : BotThing) (incoming : List Claim) (writes : List ClaimWrite) (account : Testimony.Fact) (letThrough : Bool)
    (at' : Timestamp) : Except Refused BotThing :=
  let held := thing.claims.length
  match refusesMergeIntoRoom handle incoming (thoughtRoom thing.claims) capacity cap with
  | some refused => .error refused
  | none =>
    if !letThrough then .error .elsewhere
    else
      let moved : BotThing := { thing with
        claims := thing.claims ++ brought home held incoming
        claimWrites := thing.claimWrites ++ broughtWrites held incoming writes }
      .ok (moved.keep (accountClaim home account (held+incoming.length+1)) at')

inductive Act where
  | capture (new : NewFact)
  | edit (id : Text) (patch : RoomPatch) (writtenIn : Option Text) (declared : List FoldType)
  | merge (incoming : List Claim) (writes : List ClaimWrite) (account : Testimony.Fact)
  | run

def land (thing : BotThing) (act : Act) (letThrough : Bool) (at' : Timestamp) : Except Refused BotThing :=
  match act with
  | .capture new => Room.capture loaded storageKey botOfRun handle home capacity cap thing new letThrough at'
  | .edit id patch writtenIn declared => updateFact loaded handle home capacity cap declared thing id patch writtenIn letThrough at'
  | .merge incoming writes account => Room.merge handle home capacity cap thing incoming writes account letThrough at'
  | .run => .ok { thing with runStarts := thing.runStarts ++ [at'] }

end

end Room
