import Mathlib
import Jojobot.Library.Sorting
import Jojobot.Library.Text

namespace Registry
open Library Std

abbrev Timestamp := Int
abbrev Hash := Text
abbrev Sid := Text

def ALPHABET : Text := "0123456789abcdefghjkmnpqrstvwxyz".toList
def RUN_LEN : Nat := 6
def SID_LEN : Nat := 4

def isDrawn (candidate : Text) (length : Nat) : Bool :=
  candidate.length = length && candidate.all ALPHABET.contains

def isReadableSid (sid : Sid) : Bool := isDrawn sid SID_LEN || isDrawn sid RUN_LEN

-- What one draw of a run's name takes from the entropy source.
structure Draw where
  bytes : List UInt8
  length : bytes.length = RUN_LEN

def Draw.name (draw : Draw) : Sid := draw.bytes.map fun b => ALPHABET.getD (b.toNat % ALPHABET.length) '0'

inductive RetiredBy where
  | resumed | wrapped
deriving DecidableEq, Repr

structure RetiredKey where
  hash : Hash
  at' : Timestamp
  by' : RetiredBy
deriving DecidableEq, Repr

structure KeyTrail where
  retired : Option RetiredKey := none
  takenAt : Option Timestamp := none
  displacedBy : Option Sid := none
deriving DecidableEq, Repr

def KEY_VOID : Text := "void".toList

inductive KeyState where
  | held (hash : Hash)
  | void
deriving DecidableEq, Repr

def KeyState.fromStored (stored : Option Text) : KeyState :=
  match stored with
  | none => .void
  | some text => if text = KEY_VOID then .void else .held text

def KeyState.hash : KeyState → Option Hash
  | .held hash => some hash
  | .void => none

structure Handle where
  bot : Text
  name : Sid
  card : Option Text := none
  key : KeyState
  zone : Option Text := none
  day : Option Int := none
  takenAt : Option Timestamp := none
  lastRetired : Option RetiredKey := none

structure Retired where
  name : Sid
  bot : Text
  at' : Timestamp
  by' : RetiredBy
deriving DecidableEq, Repr

def MINT_ATTEMPTS : Nat := 64
def RETIRED_KEPT : Nat := 1024

structure Held where
  byName : ExtTreeMap Sid Handle := {}
  byHash : ExtTreeMap Hash Sid := {}
  retired : ExtTreeMap Hash Retired := {}
  retiredOrder : List Hash := []

def Handle.trail (handle : Handle) : KeyTrail := ⟨handle.lastRetired,handle.takenAt,none⟩

def Handle.trailAfter (handle : Handle) (retire : Option (Timestamp × RetiredBy)) : KeyTrail :=
  let trail := handle.trail
  let trail :=
    match handle.key,retire with
    | .held old,some (at',by') => { trail with retired := some ⟨old,at',by'⟩ }
    | _,_ => trail
  match retire with
  | some (at',.resumed) => { trail with takenAt := some at' }
  | _ => trail

def Held.rememberRetired (held : Held) (hash : Hash) (retired : Retired) : Held :=
  let held :=
    match held.retiredOrder with
    | oldest :: rest =>
      if RETIRED_KEPT ≤ held.retiredOrder.length then
        { held with retiredOrder := rest,retired := held.retired.erase oldest }
      else held
    | [] => held
  { held with retiredOrder := held.retiredOrder ++ [hash],retired := held.retired.insert hash retired }

-- The key a run is about to lose opens nothing, and is remembered when a reason is given.
def Held.release (held : Held) (handle : Handle) (retire : Option (Timestamp × RetiredBy)) : Held :=
  match handle.key.hash with
  | none => held
  | some old =>
    let held := { held with byHash := held.byHash.erase old }
    match retire with
    | some (at',by') => held.rememberRetired old ⟨handle.name,handle.bot,at',by'⟩
    | none => held

def Held.setKey (held : Held) (name : Sid) (key : KeyState) (retire : Option (Timestamp × RetiredBy)) : Held :=
  match held.byName[name]? with
  | none => held
  | some handle =>
    let trail := handle.trailAfter retire
    let held := held.release handle retire
    let taken := { handle with lastRetired := trail.retired,takenAt := trail.takenAt,key }
    { held with
      byHash := key.hash.elim held.byHash fun new => held.byHash.insert new name
      byName := held.byName.insert name taken }

-- A card, as far as a rebuild reads it.
structure Session where
  id : Text
  sid : Option Sid
  keyHash : Option Text
  bot : Text
  timezone : Option Text := none
  statedDay : Option Int := none
  startedOn : Option Int := none
  keyTrail : KeyTrail := {}

structure MintedRun where
  name : Sid
  keyHash : Hash
  bot : Text
  zone : Option Text := none
  day : Option Int := none

def Session.name (session : Session) : Sid := session.sid.getD session.id
def Session.key (session : Session) : KeyState := .fromStored session.keyHash

def Session.handle (session : Session) : Handle where
  bot := session.bot
  name := session.name
  card := some session.id
  key := session.key
  zone := session.timezone
  day := session.statedDay.or session.startedOn
  takenAt := session.keyTrail.takenAt
  lastRetired := session.keyTrail.retired

def Held.board (held : Held) (session : Session) : Held :=
  { held with
    byHash := session.key.hash.elim held.byHash fun hash => held.byHash.insert hash session.name
    byName := held.byName.insert session.name session.handle }

def Session.retiredKey (session : Session) : Option (Hash × Retired) :=
  session.keyTrail.retired.map fun retired => (retired.hash,⟨session.name,session.bot,retired.at',retired.by'⟩)

structure Rebuilt where
  recovered : Nat
  unreadable : Nat
deriving DecidableEq, Repr

def Session.readable (session : Session) : Bool := isReadableSid session.name

def Held.rebuildFrom (held : Held) (sessions : List Session) : Held × Rebuilt :=
  let readable := sessions.filter Session.readable
  let held := readable.foldl Held.board held
  let held := (sortBy (compareOn (·.2.at')) (readable.filterMap Session.retiredKey)).foldl
    (fun held retired => held.rememberRetired retired.1 retired.2) held
  (held,⟨held.byName.size,(sessions.filter (! ·.readable)).length⟩)

def Held.adopt (held : Held) (session : Session) : Held :=
  if held.byName.contains session.name then held else (held.rebuildFrom [session]).1

def MintedRun.handle (run : MintedRun) : Handle where
  bot := run.bot
  name := run.name
  key := .held run.keyHash
  zone := run.zone
  day := run.day

def Held.putBack (state : Held × Nat) (run : MintedRun) : Held × Nat :=
  let (held,count) := state
  if held.byName.contains run.name || held.byHash.contains run.keyHash || ! isReadableSid run.name then state
  else
    ({ held with byHash := held.byHash.insert run.keyHash run.name,byName := held.byName.insert run.name run.handle },
      count+1)

def Held.rebuildMinted (held : Held) (runs : List MintedRun) : Held × Nat :=
  runs.foldl Held.putBack (held,0)

structure Minted (Key : Type) where
  name : Sid
  key : Key

variable {Key : Type}

def Held.mintFrom (hashKey : Key → Hash) (bot : Text) (drawName : Nat → Draw) (drawKey : Nat → Key) :
    Nat → Nat → Nat → Held → Option (Minted Key) × Held
  | 0,_,_,held => (none,held)
  | attempts+1,names,keys,held =>
    let candidate := (drawName names).name
    if held.byName.contains candidate then held.mintFrom hashKey bot drawName drawKey attempts (names+1) keys
    else
      let hash := hashKey (drawKey keys)
      if held.byHash.contains hash then held.mintFrom hashKey bot drawName drawKey attempts (names+1) (keys+1)
      else
        (some ⟨candidate,drawKey keys⟩,
          { held with
            byName := held.byName.insert candidate { bot,name := candidate,key := .held hash }
            byHash := held.byHash.insert hash candidate })

def Held.mintWith (held : Held) (hashKey : Key → Hash) (bot : Text) (drawName : Nat → Draw) (drawKey : Nat → Key) :
    Option (Minted Key) × Held :=
  held.mintFrom hashKey bot drawName drawKey MINT_ATTEMPTS 0 0

def Held.lookupKey (held : Held) (hashKey : Key → Hash) (key : Key) : Option Handle :=
  held.byHash[hashKey key]?.bind fun name => held.byName[name]?

def Held.retiredOf (held : Held) (hashKey : Key → Hash) (key : Key) : Option Retired := held.retired[hashKey key]?

def Held.attachCard (held : Held) (name : Sid) (card : Text) : Held :=
  match held.byName[name]? with
  | none => held
  | some handle => { held with byName := held.byName.insert name { handle with card := some card } }

def Handle.rebind (source target : Text) (handle : Handle) : Handle :=
  if handle.bot = source then { handle with bot := target } else handle

-- The offers of a bot, each with the bot it was made for, follow it to its new name.
abbrev Offers := ExtTreeMap Text (Text × Timestamp)

def Held.rebindBot (held : Held) (offers : Offers) (source target : Text) : Held × Offers × Nat :=
  ({ held with byName := held.byName.map fun _ handle => handle.rebind source target },
    offers.map fun _ offer => if offer.1 = source then (target,offer.2) else offer,
    held.byName.values.countP (·.bot = source))

end Registry
