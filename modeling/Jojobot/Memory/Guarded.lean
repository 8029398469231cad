import Jojobot.Memory.Folded
import Jojobot.Memory.Testimony

namespace Guarded
open Library Std Memory Testimony

def TARGET_BOT : Text := "target_bot".toList
def DESIRED : Text := "desired".toList
def MACHINE : Text := "machine".toList
def MODEL : Text := "model".toList
def BOUND_APP : Text := "bound_app".toList
def GENERATION : Text := "generation".toList
def OBSERVED_STATE : Text := "observed_state".toList
def OBSERVED_GENERATION : Text := "observed_generation".toList
def RUNTIME_REF : Text := "runtime_ref".toList
def LAST_RESULT : Text := "last_result".toList
def THOUGHT_AGES_AFTER_RUNS : Text := "thought_ages_after_runs".toList
def RULE_SEATS : Text := "rule_seats".toList
def CLAIMS_ROLE : Text := "claims_role".toList
def REPORTS_TO : Text := "reports_to".toList
def OPERATOR : Text := "operator".toList
def ASSISTANT : Text := "bot:assistant".toList
def INSTANCE_RECORD : Text := "topic:instance".toList
def THREAD : Text := "thread".toList

-- Who may write a key, relative to the thing it is written about.
inductive MayWrite where
  | subject | differentIdentity | ancestor | superior | writersSuperior
  | headOnceHeld (record : Text)
  | requestSpec | requestStatus | requestGeneration
deriving DecidableEq, Repr

structure GuardedKey where
  key : Text
  may : MayWrite
deriving DecidableEq, Repr

def GUARDED_KEYS : List GuardedKey :=
  [⟨THOUGHT_CAPACITY,.writersSuperior⟩,
    ⟨RECORD_CAPACITY,.writersSuperior⟩,
    ⟨THOUGHT_BODY_CAP,.differentIdentity⟩,
    ⟨THOUGHT_AGES_AFTER_RUNS,.writersSuperior⟩,
    ⟨RULE_SEATS,.differentIdentity⟩,
    ⟨CLAIMS_ROLE,.differentIdentity⟩,
    ⟨REPORTS_TO,.superior⟩,
    ⟨OPERATOR,.headOnceHeld INSTANCE_RECORD⟩,
    ⟨TARGET_BOT,.requestSpec⟩,
    ⟨DESIRED,.requestSpec⟩,
    ⟨MACHINE,.requestSpec⟩,
    ⟨MODEL,.requestSpec⟩,
    ⟨BOUND_APP,.requestSpec⟩,
    ⟨GENERATION,.requestGeneration⟩,
    ⟨OBSERVED_STATE,.requestStatus⟩,
    ⟨OBSERVED_GENERATION,.requestStatus⟩,
    ⟨RUNTIME_REF,.requestStatus⟩,
    ⟨LAST_RESULT,.requestStatus⟩]

-- The keys whose values are served as the handle they name.
def SERVED_KEYS : List Text := [REPORTS_TO,OPERATOR,TARGET_BOT]

-- The chart around a write.
structure Lineage where
  creating : Bool := false
  above : List EntityId := []
  named : Option EntityId := none
  aboveNamed : List EntityId := []
  hasReports : Bool := false
  holds : List Text := []
  heads : List EntityId := []
  writers : List EntityId := []
  aboveWriters : List EntityId := []

def MAX_CHAIN : Nat := 32

variable (loaded : List Text)

-- The manager a `reports_to` value names, when it names one.
def managerIn (value : Text) : Option EntityId :=
  let named := trim value
  if (validateSubject loaded named).isOk then some named else none

-- A walk up a chain, one read at a time.
structure ChainWalk where
  seen : List EntityId
  at' : Option EntityId

def ChainWalk.from' (start : EntityId) : ChainWalk := ⟨[start],some start⟩

def ChainWalk.step (walk : ChainWalk) (held : Option Text) : ChainWalk :=
  let next := ((held.bind (managerIn loaded)).filter fun next => !walk.seen.contains next).filter
    fun _ => walk.seen.length ≤ MAX_CHAIN
  ⟨walk.seen ++ next.toList,next⟩

def ChainWalk.above (walk : ChainWalk) : List EntityId := walk.seen.drop 1

-- The reads a caller makes, until the walk is over.
def ChainWalk.read (reportsTo : EntityId → Option Text) : Nat → ChainWalk → ChainWalk
  | 0,walk => walk
  | more+1,walk =>
    match walk.at' with
    | none => walk
    | some at' => ChainWalk.read reportsTo more (walk.step loaded (reportsTo at'))

-- One read for each bot a chain may hold, and one for the bot it starts at.
def chainAbove (reportsTo : EntityId → Option Text) (start : EntityId) : List EntityId :=
  (ChainWalk.read loaded reportsTo (MAX_CHAIN+1) (.from' start)).above

def isRequest (subject : EntityId) : Bool := "bot-request:".toList.isPrefixOf subject

def specLicensed (key : Text) (subject caller : EntityId) (lineage : Option Lineage) : Bool :=
  if !isRequest subject then true
  else match lineage with
    | none => false
    | some l =>
      if l.holds.contains TARGET_BOT then key ≠ TARGET_BOT && l.above.contains caller
      else l.named.isSome && l.aboveNamed.contains caller

def whoMaySpec (key : Text) (l : Lineage) : List EntityId :=
  if l.holds.contains TARGET_BOT then if key = TARGET_BOT then [] else l.above
  else l.aboveNamed

def isTheAssistant (writer : EntityId) : Bool := writer = ASSISTANT

def exemptFromTheWriters (key : Text) : Option EntityId := if key = RECORD_CAPACITY then some ASSISTANT else none

inductive Why where
  | notLicensed
  | cycle (manager : EntityId)
deriving DecidableEq, Repr

def writersLicense (lineage : Lineage) (caller : EntityId) : Bool :=
  !lineage.writers.contains caller && (lineage.writers.isEmpty || lineage.aboveWriters.contains caller)

def answered (yes : Bool) : Except Why Unit := if yes then .ok () else .error .notLicensed

-- The chart's own relation. The manager named may not be the thing, nor sit below it.
def superiorLicensed (subject caller : EntityId) : Option Lineage → Except Why Unit
  | none => .error .notLicensed
  | some l =>
    match l.named.filter fun named => named = subject || l.aboveNamed.contains subject with
    | some named => .error (.cycle named)
    | none =>
      answered <| match l.above.isEmpty,l.named with
        | false,_ => l.above.contains caller
        | true,some named =>
          if l.hasReports then caller = subject
          else if l.creating then caller = named || l.aboveNamed.contains caller
          else isTheAssistant caller
        | true,none => false

-- Whether the caller may write a key declared so about the subject.
def licensed (may : MayWrite) (key : Text) (subject caller : EntityId) (lineage : Option Lineage) : Except Why Unit :=
  let thread := kindOf loaded subject = some THREAD
  match may with
  | .subject => answered (caller = subject)
  | .differentIdentity => answered (caller ≠ subject)
  | .writersSuperior =>
    answered <|
      if ¬thread ∧ key ≠ RECORD_CAPACITY then caller ≠ subject
      else if ¬thread then
        caller ≠ subject && (exemptFromTheWriters key = some caller || lineage.all fun l => writersLicense l caller)
      else lineage.any fun l => writersLicense l caller || exemptFromTheWriters key = some caller
  | .ancestor => answered (lineage.any fun l => l.above.contains caller)
  | .headOnceHeld record =>
    answered (subject ≠ record || lineage.any fun l => !l.holds.contains key || l.heads.contains caller)
  | .requestSpec => answered (specLicensed key subject caller lineage)
  | .requestStatus | .requestGeneration => answered (!isRequest subject)
  | .superior => superiorLicensed subject caller lineage

-- The bots that may make a write, for a refusal to name.
def whoMayWrite (may : MayWrite) (key : Text) (subject : EntityId) (lineage : Option Lineage) : List EntityId :=
  match may,lineage with
  | .ancestor,some l => l.above
  | .headOnceHeld _,some l => l.heads
  | .writersSuperior,some l =>
    (l.aboveWriters.filter fun bot => !l.writers.contains bot) ++
      ((exemptFromTheWriters key).filter fun bot => bot ≠ subject && !l.aboveWriters.contains bot).toList
  | .requestSpec,some l => whoMaySpec key l
  | .superior,some l =>
    if !l.above.isEmpty then l.above
    else match l.named with
      | none => []
      | some named =>
        if l.hasReports then [subject]
        else if l.creating then named :: l.aboveNamed
        else [ASSISTANT]
  | _,_ => []

-- The relation a refusal is worded for.
def wordedFor (may : MayWrite) (subject : EntityId) (key : Text) (lineage : Option Lineage) : MayWrite :=
  let judgedByWriters := "thread:".toList.isPrefixOf subject ||
    (key = RECORD_CAPACITY && lineage.any fun l => !l.writers.isEmpty)
  if may = .writersSuperior ∧ !judgedByWriters then .differentIdentity else may

inductive Refused where
  | chartCycle (subject manager : EntityId)
  | keyNotYours (subject : EntityId) (key : Text) (may : MayWrite) (allowed : List EntityId)
  | mergeCarriesGuardedKeys (duplicate survivor : EntityId) (keys : Text) (may : MayWrite) (allowed : List EntityId)
      (clearOpens judgedOnDuplicate : Bool)
deriving DecidableEq, Repr

def refusal (why : Why) (rule : GuardedKey) (subject : EntityId) (lineage : Option Lineage) : Refused :=
  match why with
  | .cycle manager => .chartCycle subject manager
  | .notLicensed =>
    .keyNotYours subject rule.key (wordedFor rule.may subject rule.key lineage) (whoMayWrite rule.may rule.key subject lineage)

def refusedBy (rule : GuardedKey) (subject caller : EntityId) (lineage : Option Lineage) : Option Refused :=
  match licensed loaded rule.may rule.key subject caller lineage with
  | .ok () => none
  | .error why => some (refusal why rule subject lineage)

def guardedKeysIn (fields : Fields) : List GuardedKey := GUARDED_KEYS.filter fun rule => fields.contains rule.key

def refusesUnlicensedWriteBy (table : List GuardedKey) (subject caller : EntityId) (fields : Fields) (lineage : Option Lineage) :
    Option Refused :=
  (table.filter fun rule => fields.contains rule.key).findSome? fun rule => refusedBy loaded rule subject caller lineage

def refusesUnlicensedWrite (subject caller : EntityId) (fields : Fields) (lineage : Option Lineage) : Option Refused :=
  refusesUnlicensedWriteBy loaded GUARDED_KEYS subject caller fields lineage

def refusesUnlicensedChangeBy (table : List GuardedKey) (subject caller : EntityId) (before after : Fields)
    (lineage : Option Lineage) : Option Refused :=
  ((table.filter fun rule => rule.may ≠ .requestGeneration).filter fun rule => before[rule.key]? ≠ after[rule.key]?).findSome?
    fun rule => refusedBy loaded rule subject caller lineage

def refusesUnlicensedChange (subject caller : EntityId) (before after : Fields) (lineage : Option Lineage) : Option Refused :=
  refusesUnlicensedChangeBy loaded GUARDED_KEYS subject caller before after lineage

def refusesMergeBelowTheDuplicate (survivor duplicate : EntityId) (aboveSurvivor : List EntityId) : Option Refused :=
  if aboveSurvivor.contains duplicate then some (.chartCycle survivor duplicate) else none

-- A request's own keys are judged on the request, whatever the survivor is.
def judgedOn (survivor duplicate : EntityId) (lineage duplicateLineage : Option Lineage) (rule : GuardedKey) :
    EntityId × Option Lineage :=
  if isRequest duplicate ∧ (rule.may = .requestSpec ∨ rule.may = .requestStatus ∨ rule.may = .requestGeneration) then
    (duplicate,duplicateLineage)
  else (survivor,lineage)

def refusesMergeCarryingBy (table : List GuardedKey) (caller survivor duplicate : EntityId) (carried : Fields)
    (lineage duplicateLineage : Option Lineage) : Option Refused :=
  if duplicate = survivor then none
  else
    let rules := table.filter fun rule => carried.contains rule.key
    let judged rule := judgedOn survivor duplicate lineage duplicateLineage rule
    let answer rule := licensed loaded rule.may rule.key (judged rule).1 caller (judged rule).2
    -- A merge that would invert the chart is the chart's own refusal.
    let cycle? := rules.findSome? fun rule =>
      match answer rule with
      | .error (.cycle manager) => some (refusal (.cycle manager) rule survivor lineage)
      | _ => none
    match cycle? with
    | some refused => some refused
    | none =>
      let barred := rules.filter fun rule => answer rule = .error .notLicensed
      barred.head?.map fun first =>
        .mergeCarriesGuardedKeys duplicate survivor (List.intercalate ", ".toList (barred.map (·.key)))
          (wordedFor first.may (judged first).1 first.key (judged first).2)
          (whoMayWrite first.may first.key (judged first).1 (judged first).2)
          (barred.all fun rule => (licensed loaded rule.may rule.key duplicate caller duplicateLineage).isOk)
          ((judged first).1 = duplicate)

def refusesMergeCarrying (caller survivor duplicate : EntityId) (carried : Fields) (lineage duplicateLineage : Option Lineage) :
    Option Refused :=
  refusesMergeCarryingBy loaded GUARDED_KEYS caller survivor duplicate carried lineage duplicateLineage

-- Whether a write of these keys needs the chart read, and the manager it names.
def chartWanted (subject : EntityId) (keys : List GuardedKey) (written : Fields) : Option (Option EntityId) :=
  let needs (rule : GuardedKey) : Bool :=
    match rule.may with
    | .ancestor | .superior | .headOnceHeld _ | .writersSuperior | .requestSpec => true
    | _ => false
  if keys.any needs then
    let named := if isRequest subject then written[TARGET_BOT]? else (written[REPORTS_TO]?).or written[TARGET_BOT]?
    some (named.bind (managerIn loaded))
  else none

def needsTheChart (subject : EntityId) (fields : Fields) : Option (Option EntityId) :=
  chartWanted loaded subject (guardedKeysIn fields) fields

def chartWantedByChange (subject : EntityId) (before after : Fields) : Option (Option EntityId) :=
  chartWanted loaded subject (GUARDED_KEYS.filter fun rule => before[rule.key]? ≠ after[rule.key]?) after

-- The fields a write names that would not leave the thing as it is, over a fold served
-- with its links as handles.
def fieldsThatWouldChange (held written : Fields) : Fields :=
  written.filter fun key value =>
    !(GUARDED_KEYS.any (fun rule => rule.key = trim key) && (held[trim key]?).any fun now => trim now = trim value)

-- What a capture's guard judges. A thing being created is judged as given.
def judgedFields (exists' : Bool) (held sent : Fields) : Fields :=
  if exists' && !(guardedKeysIn sent).isEmpty then fieldsThatWouldChange held sent else sent

-- What a merge's guard judges: a key the duplicate set and cleared stands beside the
-- keys it holds, and names no manager.
def judgedCarried (carried : Fields) (writtenKeys : List Text) : Fields :=
  writtenKeys.foldl (fun judged key => if judged.contains key then judged else judged.insert key "-".toList) carried

def writtenKeysOn (writes : List KeyWrite) : List Text := (writes.filter fun write => write.status = .active).map (·.key)

end Guarded
