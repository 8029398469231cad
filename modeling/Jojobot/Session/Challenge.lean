import Jojobot.Library.Journal
import Jojobot.Library.Laying
import Jojobot.Library.Numerals
import Jojobot.Library.Runs
import Jojobot.Memory.Types

namespace Challenges
open Library Memory Std

-- The keyed hash, as hex, the text of a moment, and the case folding of the standard library.
class Outside where
  Key : Type
  hash : Key → Text → Text
  lower : Text → Text
  shown : Int → Text
  readMoment : Text → Option Int

-- Two different codes have different hashes, under any keys, and a moment reads
-- back from its text.
class Lawful [Outside] : Prop where
  apart : ∀ {key other : Outside.Key} {one two : Text}, Outside.hash key one = Outside.hash other two → one = two
  moments : ∀ moment, Outside.readMoment (Outside.shown moment) = some moment

-- Nanoseconds.
def WINDOW : Int := 10 * 60 * 1000000000
def MAX_WRONG : Nat := 3
def DRAWS : Nat := 8

def CHALLENGE : Text := "challenge".toList
def VOUCHER : Text := "voucher".toList
def ASSISTANT : EntityId := "bot:assistant".toList
def ROOT : Text := "root".toList
def BOOT_AS : Text := "boot-as".toList

def BOT : Text := "bot".toList
def CODE_HASH : Text := "code_hash".toList
def STATE : Text := "state".toList
def ISSUED_AT : Text := "issued_at".toList
def WRONG_TRIES : Text := "wrong_tries".toList

inductive ChallengeState where
  | issued | redeemed | replaced | void
deriving DecidableEq, Repr

def ChallengeState.all : List ChallengeState := [.issued,.redeemed,.replaced,.void]

def ChallengeState.asToken : ChallengeState → Text
  | .issued => "issued".toList
  | .redeemed => "redeemed".toList
  | .replaced => "replaced".toList
  | .void => "void".toList

def ChallengeState.fromToken (token : Text) : Option ChallengeState := ChallengeState.all.find? (·.asToken = token)

structure Challenge where
  bot : EntityId
  codeHash : Text
  state : ChallengeState
  issuedAt : Int
  wrongTries : Nat
deriving DecidableEq

section
variable [Outside]

def Challenge.fields (challenge : Challenge) : Fields :=
  laid ∅ [(BOT,challenge.bot),(CODE_HASH,challenge.codeHash),(STATE,challenge.state.asToken),
    (ISSUED_AT,Outside.shown challenge.issuedAt),(WRONG_TRIES,printNat challenge.wrongTries)]

def Challenge.fromFields (fields : Fields) : Option Challenge := do
  let bot ← fields[BOT]?
  let codeHash ← fields[CODE_HASH]?
  let state ← fields[STATE]?.bind ChallengeState.fromToken
  let issuedAt ← fields[ISSUED_AT]?.bind Outside.readMoment
  let wrongTries ← fields[WRONG_TRIES]?.bind (parseUnsigned 32)
  pure { bot,codeHash,state,issuedAt,wrongTries }

end

inductive Redemption where
  | granted
  | wrongCode (void : Bool)
  | spent | replaced | expired | void
deriving DecidableEq, Repr

def decideRedemption (challenge : Challenge) (now : Int) (codeMatches : Bool) : Redemption :=
  match challenge.state with
  | .redeemed => .spent
  | .replaced => .replaced
  | .void => .void
  | .issued =>
    if now - challenge.issuedAt > WINDOW then .expired
    else if codeMatches then .granted
    else .wrongCode (challenge.wrongTries + 1 ≥ MAX_WRONG)

inductive VoucherState where
  | issued | held | escrow | spent | void
deriving DecidableEq, Repr

def VoucherState.asToken : VoucherState → Text
  | .issued => "issued".toList
  | .held => "held".toList
  | .escrow => "escrow".toList
  | .spent => "spent".toList
  | .void => "void".toList

structure Voucher where
  right : Text
  target : EntityId
  holder : Text
  issuer : Text
  parent : Option EntityId
  state : VoucherState

def Voucher.fields (voucher : Voucher) : Fields :=
  laid ∅ ([("right".toList,voucher.right),("target".toList,voucher.target),("holder".toList,voucher.holder),
    ("issuer".toList,voucher.issuer),("state".toList,voucher.state.asToken)] ++
    voucher.parent.toList.map fun parent => ("parent".toList,parent))

-- A claim is named by its home and its number there.
abbrev FactAddress := EntityId × Nat

structure Claim where
  address : FactAddress
  fields : Fields

structure Record where
  id : EntityId
  archived : Bool
  claims : List Claim

-- A write that reached the store: a record with its one claim, or keys set on a claim.
inductive Write where
  | made (record : Record)
  | set (address : FactAddress) (fields : List (Text × Text))

def Claim.set (claim : Claim) (address : FactAddress) (fields : List (Text × Text)) : Claim :=
  if claim.address = address then { claim with fields := laid claim.fields fields } else claim

def Record.set (record : Record) (address : FactAddress) (fields : List (Text × Text)) : Record :=
  { record with claims := record.claims.map (·.set address fields) }

def Write.apply (records : List Record) : Write → List Record
  | .made record => records ++ [record]
  | .set address fields => records.map (·.set address fields)

-- What stands in the store is what the writes that landed left.
structure World [Outside] where
  key : Outside.Key
  landed : List Write

section
variable [Outside]

def standing (landed : List Write) : List Record := replayed Write.apply [] landed
def World.records (world : World) : List Record := standing world.landed
def World.write (world : World) (write : Write) : World := { world with landed := world.landed ++ [write] }

end

-- A write is answered, is answered as behind the fold, loses its answer after it
-- landed, or fails before it did.
inductive Landing where
  | written | behind
  | lost (why : Text)
  | failed (why : Text)

def Landing.lands : Landing → Bool
  | .failed _ => false
  | _ => true

def Landing.told : Landing → Except Text Unit
  | .written => .ok ()
  | .behind => .ok ()
  | .lost why => .error why
  | .failed why => .error why

def kindOf (handle : EntityId) : Option Text :=
  if handle.contains ':' then some (handle.takeWhile (· ≠ ':')) else none

def listEntities (records : List Record) (kind : Text) : List Record := records.filter fun record => kindOf record.id = some kind

def recalled (records : List Record) (handle : EntityId) : Option (List Claim) :=
  (records.find? (·.id = handle)).map (·.claims)

section
variable [Outside]

-- The claim that holds a challenge's keys and what they read, where nothing fails.
def heldAt (records : List Record) (handle : EntityId) : Option (FactAddress × Challenge) := do
  let facts ← recalled records handle
  let claim ← facts.find? (·.fields.contains CODE_HASH)
  let challenge ← Challenge.fromFields claim.fields
  pure (claim.address,challenge)

def readChallenge (unread : Option Text) (world : World) (handle : EntityId) : Except Text (Option (FactAddress × Challenge)) :=
  if kindOf handle ≠ some CHALLENGE then .ok none
  else
    match unread with
    | some why => .error why
    | none => .ok (heldAt world.records handle)

structure Done (α : Type) where
  world : World
  told : α

def writeChallenge (landing : Landing) (world : World) (address : FactAddress) (fields : List (Text × Text)) :
    Done (Except Text Unit) where
  world := if landing.lands then world.write (.set address fields) else world
  told := landing.told

end

-- What the store answers to a creation: it is taken, as a write is, or the guard
-- turns it back, naming a handle.
inductive Attempt where
  | taken (landing : Landing)
  | blocked (attempted : EntityId)

structure Draw where
  slug : Text
  first : Attempt
  forced : Attempt

inductive Guarded where
  | written
  | blocked (attempted : EntityId)

section
variable [Outside]

def firstClaim (id : EntityId) (fields : Fields) : Record := ⟨id,false,[⟨(id,1),fields⟩]⟩

-- A handle that is taken is turned back whatever else the store would say.
def addEntityWithFirstClaim (world : World) (id : EntityId) (fields : Fields) (attempt : Attempt) : Done (Except Text Guarded) :=
  match attempt with
  | .blocked attempted => ⟨world,.ok (.blocked attempted)⟩
  | .taken landing =>
    if world.records.any (·.id = id) then ⟨world,.ok (.blocked id)⟩
    else
      { world := if landing.lands then world.write (.made (firstClaim id fields)) else world
        told := landing.told.map fun _ => .written }

def issueDrawn (world : World) (kind : Text) (fields : Fields) : List Draw → Done (Except Text EntityId)
  | [] => ⟨world,.error ("no free handle could be drawn for a ".toList ++ kind)⟩
  | draw :: rest =>
    let id := kind ++ ':' :: draw.slug
    let attempt := addEntityWithFirstClaim world id fields draw.first
    match attempt.told with
    | .error why => ⟨attempt.world,.error why⟩
    | .ok .written => ⟨attempt.world,.ok id⟩
    | .ok (.blocked attempted) =>
      if attempted ≠ id then
        ⟨attempt.world,.error ("a ".toList ++ kind ++ " points at '".toList ++ attempted ++ "', which jojobot does not know".toList)⟩
      else
        let forced := addEntityWithFirstClaim attempt.world id fields draw.forced
        match forced.told with
        | .error why => ⟨forced.world,.error why⟩
        | .ok .written => ⟨forced.world,.ok id⟩
        | .ok (.blocked _) => issueDrawn forced.world kind fields rest

def issueEngineRecord (world : World) (kind : Text) (fields : Fields) (draws : List Draw) : Done (Except Text EntityId) :=
  issueDrawn world kind fields (draws.take DRAWS)

def normal (code : Text) : Text := Outside.lower (trim code)

def hashOfCode (key : Outside.Key) (code : Text) : Text := Outside.hash key (normal code)

-- Two hashes are hex, so each character is one byte.
def same (a b : Text) : Bool :=
  a.length == b.length && (a.zip b).foldl (fun different pair => different ||| (pair.1.toNat ^^^ pair.2.toNat)) 0 == 0

end

inductive Answer where
  | noOperator
  | unknownBot
  | askFailed (why : Text)
  | boxRefused (why : Text)
  | pending (challenge : EntityId) (expiresAt : Int)
  | unsent
  | asked (handle : EntityId)
  | noChallenge (handle : EntityId)
  | otherBot (bot : EntityId)
  | wrongCode (tries : Nat) (state : ChallengeState)
  | spent | replaced | expired | void
  | booted (redeemed : Option (Except Text EntityId))

-- A call that asks for a code, with all it reads from elsewhere and how each of its
-- reads and writes goes.
structure Ask where
  bot : EntityId
  operator : Except Text (Option EntityId)
  known : Except Text Bool
  mailbox : Except Text Text
  now : Int
  unlisted : Option Text
  unread : EntityId → Option Text
  ending : FactAddress → Landing
  code : Text
  draws : List Draw
  sent : Bool
  unreadAfter : Option Text
  voiding : Landing

section
variable [Outside]

def pendingOrExpired (ask : Ask) (world : World) : List Record → List FactAddress → Except Answer (List FactAddress)
  | [],expired => .ok expired
  | entity :: rest,expired =>
    match readChallenge (ask.unread entity.id) world entity.id with
    | .error why => .error (.askFailed why)
    | .ok none => pendingOrExpired ask world rest expired
    | .ok (some read) =>
      if read.2.bot = ask.bot ∧ read.2.state = .issued then
        if ask.now ≤ read.2.issuedAt + WINDOW then .error (.pending entity.id (read.2.issuedAt + WINDOW))
        else pendingOrExpired ask world rest (expired ++ [read.1])
      else pendingOrExpired ask world rest expired

def replaceEach (ask : Ask) (world : World) : List FactAddress → Done (Except Answer Unit)
  | [] => ⟨world,.ok ()⟩
  | address :: rest =>
    let ended := writeChallenge (ask.ending address) world address [(STATE,ChallengeState.replaced.asToken)]
    match ended.told with
    | .error why => ⟨ended.world,.error (.askFailed why)⟩
    | .ok () => replaceEach ask ended.world rest

def voidUnsent (ask : Ask) (world : World) (handle : EntityId) : World :=
  match readChallenge ask.unreadAfter world handle with
  | .ok (some read) => (writeChallenge ask.voiding world read.1 [(STATE,ChallengeState.void.asToken)]).world
  | _ => world

def makeChallenge (ask : Ask) (world : World) : Done Answer :=
  let made : Challenge :=
    { bot := ask.bot,codeHash := hashOfCode world.key ask.code,state := .issued,issuedAt := ask.now,wrongTries := 0 }
  let issued := issueEngineRecord world CHALLENGE made.fields ask.draws
  match issued.told with
  | .error why => ⟨issued.world,.askFailed why⟩
  | .ok handle => if ask.sent then ⟨issued.world,.asked handle⟩ else ⟨voidUnsent ask issued.world handle,.unsent⟩

def askForCode (ask : Ask) (world : World) : Done Answer :=
  match ask.operator with
  | .error why => ⟨world,.askFailed why⟩
  | .ok none => ⟨world,.noOperator⟩
  | .ok (some _) =>
    match ask.known with
    | .error why => ⟨world,.askFailed why⟩
    | .ok false => ⟨world,.unknownBot⟩
    | .ok true =>
      match ask.mailbox with
      | .error why => ⟨world,.boxRefused why⟩
      | .ok _ =>
        match ask.unlisted with
        | some why => ⟨world,.askFailed why⟩
        | none =>
          match pendingOrExpired ask world ((listEntities world.records CHALLENGE).filter (!·.archived)) [] with
          | .error answer => ⟨world,answer⟩
          | .ok expired =>
            let replaced := replaceEach ask world expired
            match replaced.told with
            | .error answer => ⟨replaced.world,answer⟩
            | .ok () => makeChallenge ask replaced.world

end

-- What a boot does with a code that was checked: it reaches the spend with the run
-- it started, or ends before it.
structure Boot where
  run : Option Text
  operator : Except Text (Option EntityId)
  unreadAgain : Option Text
  spending : Landing
  draws : List Draw

structure Present where
  bot : EntityId
  reference : Text
  code : Text
  unread : Option Text
  now : Int
  counting : Landing
  boot : Boot

structure Verified where
  handle : EntityId
  address : FactAddress
  bot : EntityId

section
variable [Outside]

def verifyCode (present : Present) (world : World) : Done (Except Answer Verified) :=
  let handle := trim present.reference
  match readChallenge present.unread world handle with
  | .error why => ⟨world,.error (.askFailed why)⟩
  | .ok none => ⟨world,.error (.noChallenge handle)⟩
  | .ok (some read) =>
    if read.2.bot ≠ present.bot then ⟨world,.error (.otherBot read.2.bot)⟩
    else
      match decideRedemption read.2 present.now (same (hashOfCode world.key present.code) read.2.codeHash) with
      | .granted => ⟨world,.ok ⟨handle,read.1,read.2.bot⟩⟩
      | .wrongCode void =>
        let tries := read.2.wrongTries + 1
        let counted := writeChallenge present.counting world read.1
          ((WRONG_TRIES,printNat tries) :: if void then [(STATE,ChallengeState.void.asToken)] else [])
        match counted.told with
        | .error why => ⟨counted.world,.error (.askFailed why)⟩
        | .ok () => ⟨counted.world,.error (.wrongCode tries (if void then .void else .issued))⟩
      | .spent => ⟨world,.error .spent⟩
      | .replaced => ⟨world,.error .replaced⟩
      | .expired => ⟨world,.error .expired⟩
      | .void => ⟨world,.error .void⟩

def voucherFor (verified : Verified) (run : Text) (operator : EntityId) : Voucher where
  right := if verified.bot = ASSISTANT then ROOT else BOOT_AS
  target := verified.bot
  holder := run
  issuer := operator
  parent := none
  state := .held

def redeemCode (boot : Boot) (world : World) (verified : Verified) (run : Text) : Done (Except Text EntityId) :=
  match boot.operator with
  | .error why => ⟨world,.error why⟩
  | .ok none => ⟨world,.error "no person is the operator".toList⟩
  | .ok (some operator) =>
    match readChallenge boot.unreadAgain world verified.handle with
    | .error why => ⟨world,.error why⟩
    | .ok read =>
      if !read.any (fun read => read.2.state = .issued) then ⟨world,.error "the challenge is no longer standing".toList⟩
      else
        let spent := writeChallenge boot.spending world verified.address [(STATE,ChallengeState.redeemed.asToken)]
        match spent.told with
        | .error why => ⟨spent.world,.error why⟩
        | .ok () => issueEngineRecord spent.world VOUCHER (voucherFor verified run operator).fields boot.draws

def presentCode (present : Present) (world : World) : Done Answer :=
  let checked := verifyCode present world
  match checked.told with
  | .error answer => ⟨checked.world,answer⟩
  | .ok verified =>
    match present.boot.run with
    | none => ⟨checked.world,.booted none⟩
    | some run =>
      let redeemed := redeemCode present.boot checked.world verified run
      ⟨redeemed.world,.booted (some redeemed.told)⟩

end

-- One call to its end under the redeem lock, or a restart, which draws a new key.
inductive Act [Outside] where
  | ask (ask : Ask)
  | present (present : Present)
  | restart (key : Outside.Key)

section
variable [Outside]

def Act.next (act : Act) (world : World) : World :=
  match act with
  | .ask asking => (askForCode asking world).world
  | .present presenting => (presentCode presenting world).world
  | .restart drawn => { world with key := drawn }

def Step (before : World) (act : Act) (after : World) : Prop := after = act.next before

end

end Challenges
