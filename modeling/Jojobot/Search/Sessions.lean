import Jojobot.Library.Batches
import Jojobot.Library.Runs
import Jojobot.Memory.Types

namespace Search
open Library Memory

-- A beat of a run. The marks are the columns only a comparison of two beats reads.
structure JournalEntry (Marks : Type) where
  id : Text
  text : Text
  marks : Marks
deriving DecidableEq

structure Session (Columns Marks : Type) where
  id : Text
  bot : EntityId
  focus : Text
  entries : List (JournalEntry Marks)
  columns : Columns
deriving DecidableEq

structure Payload where
  session : Text
  bot : EntityId
  workingOn : Option Text
  text : Text
deriving DecidableEq

structure Document where
  text : Text
  passage : EntityId × Text × Text
  sessionId : Text
  entryId : Text
  owner : Text
  payload : Payload
deriving DecidableEq

-- What fails in one call: the write of each place in the order they are made, the
-- commit and the reload of the reader.
structure Faults where
  write : Nat → Option Text
  commit : Option Text
  reload : Option Text

def unfailing : Faults := ⟨fun _ => none,none,none⟩

inductive Term where
  | sessionId (id : Text)
  | entryId (id : Text)

def carries (document : Document) : Term → Bool
  | .sessionId id => document.sessionId == id
  | .entryId id => document.entryId == id

-- The writer of the engine, and how many documents the call has asked it to add.
structure Writer (W : Type) where
  called : Nat
  engine : W

section
variable {W : Type} (engine : Batching W Term Document)

def Writer.deleteTerm (writer : Writer W) (term : Term) : Writer W := { writer with engine := engine.drop writer.engine term }

-- An error leaves the engine as it was last committed.
def rollbackOnErr {α : Type} (writer : Writer W) (result : Except Text α) : Except (Text × W) α :=
  result.mapError fun why => (why,engine.rollback writer.engine)

end

section
variable {R : Type}

-- A map collected from pairs, in which the last of a key stands.
def byKey (held : List (Text × R)) (key : Text) : Option R := held.reverse.lookup key

structure Moved (R : Type) where
  rewrite : List R
  evict : List Text

def changedAndGone [DecidableEq R] (arriving held : List (Text × R)) : Moved R where
  rewrite := (arriving.filter fun one => byKey held one.1 ≠ some one.2).map (·.2)
  evict := (held.filter fun one => !(arriving.map (·.1)).contains one.1).map (·.1)

end

inductive EntryChange (Marks : Type) where
  | add (entry : JournalEntry Marks)
  | replace (entry : JournalEntry Marks)
  | remove (id : Text)

variable {W Columns Marks : Type}

def entriesById (entries : List (JournalEntry Marks)) : Text → Option (JournalEntry Marks) :=
  byKey (entries.map fun entry => (entry.id,entry))

def sessionsById (sessions : List (Session Columns Marks)) : Text → Option (Session Columns Marks) :=
  byKey (sessions.map fun session => (session.id,session))

def documentOf (session : Session Columns Marks) (entry : JournalEntry Marks) : Document where
  text := entry.text ++ ' ' :: session.focus
  passage := (session.bot,session.id,entry.text)
  sessionId := session.id
  entryId := entry.id
  owner := session.bot
  payload :=
    { session := session.id
      bot := session.bot
      workingOn := (some session.focus).filter (!·.isEmpty)
      text := entry.text }

def writeSessionEntry (engine : Batching W Term Document) (faults : Faults) (writer : Writer W)
    (session : Session Columns Marks) (entry : JournalEntry Marks) : Except Text (Writer W) :=
  match faults.write writer.called with
  | some why => .error why
  | none => .ok { called := writer.called + 1,engine := engine.add writer.engine (documentOf session entry) }

section
variable [DecidableEq Marks]

def ownerMoved (old : Option (Session Columns Marks)) (session : Session Columns Marks) : Bool :=
  old.any fun old => old.bot ≠ session.bot

def entryChange (old : Option (Session Columns Marks)) (session : Session Columns Marks) (entry : JournalEntry Marks) :
    Option (EntryChange Marks) :=
  match entriesById (old.elim [] (·.entries)) entry.id with
  | some was => if was = entry ∧ ownerMoved old session = false then none else some (.replace entry)
  | none => some (.add entry)

-- The removals stand in the order of the old entries. No two of them meet, so the
-- order of the map's keys is not told.
def entryChanges (old : Option (Session Columns Marks)) (session : Session Columns Marks) : List (EntryChange Marks) :=
  session.entries.filterMap (entryChange old session) ++
    (((old.elim [] (·.entries)).map (·.id)).filter fun id => !(session.entries.map (·.id)).contains id).map .remove

end

section
variable (engine : Batching W Term Document)

def stageChange (faults : Faults) (session : Session Columns Marks) (writer : Writer W) :
    EntryChange Marks → Except (Text × W) (Writer W)
  | .add entry => rollbackOnErr engine writer (writeSessionEntry engine faults writer session entry)
  | .replace entry =>
    let writer := writer.deleteTerm engine (.entryId entry.id)
    rollbackOnErr engine writer (writeSessionEntry engine faults writer session entry)
  | .remove id => .ok (writer.deleteTerm engine (.entryId id))

def stageChanges (faults : Faults) (writer : Writer W) (session : Session Columns Marks) (changes : List (EntryChange Marks)) :
    Except (Text × W) (Writer W) :=
  changes.foldlM (stageChange engine faults session) writer

end

-- The index as the sessions half of it sees it. The reader answers from the
-- documents of the last reload.
structure Index (W Columns Marks : Type) where
  writer : W
  reader : List Document
  sessions : List (Session Columns Marks)
  commits : Nat
  owed : Nat

-- An index on an engine nothing was ever written to.
def Index.fresh (blank : W) : Index W Columns Marks := ⟨blank,[],[],0,0⟩

-- What a reload settles of the debt, having begun when `covered` commits had landed.
def settle (owed covered : Nat) (reloaded : Bool) : Nat :=
  if reloaded = false then max owed (covered + 1)
  else if owed ≠ 0 ∧ owed ≤ covered + 1 then 0
  else owed

section
variable (engine : Batching W Term Document)

def reloadReader (faults : Faults) (index : Index W Columns Marks) : Index W Columns Marks × Except Text Unit :=
  match faults.reload with
  | some why => ({ index with owed := settle index.owed index.commits false },.error why)
  | none =>
    ({ index with reader := engine.read index.writer,owed := settle index.owed index.commits true },.ok ())

-- A commit that fails leaves what was staged in the writer, which is then rolled back.
def commitOrRollback (faults : Faults) (writer : Writer W) : Except (Text × W) W :=
  rollbackOnErr engine writer (faults.commit.elim (.ok (engine.commit writer.engine)) .error)

variable [DecidableEq Columns] [DecidableEq Marks]

def movedSessions (mirror sessions : List (Session Columns Marks)) : Moved (Session Columns Marks) :=
  changedAndGone (sessions.map fun session => (session.id,session)) (mirror.map fun session => (session.id,session))

def stageSessions (faults : Faults) (writer : W) (mirror sessions : List (Session Columns Marks)) :
    Except (Text × W) (Writer W) :=
  let moved := movedSessions mirror sessions
  let evicted := moved.evict.foldl (fun (writer : Writer W) id => writer.deleteTerm engine (.sessionId id)) ⟨0,writer⟩
  moved.rewrite.foldlM
    (fun writer session => stageChanges engine faults writer session (entryChanges (sessionsById mirror session.id) session))
    evicted

def ingestSessionsChanges (faults : Faults) (index : Index W Columns Marks) (sessions : List (Session Columns Marks)) :
    Index W Columns Marks × Except Text Nat :=
  let moved := movedSessions index.sessions sessions
  let changed := moved.rewrite.length + moved.evict.length
  if changed = 0 then
    if index.owed ≠ 0 then
      let reload := reloadReader engine faults index
      (reload.1,reload.2.map fun _ => 0)
    else (index,.ok 0)
  else
    match stageSessions engine faults index.writer index.sessions sessions >>= commitOrRollback engine faults with
    | .error (why,writer) => ({ index with writer },.error why)
    | .ok writer =>
      let reload := reloadReader engine faults { index with writer,sessions,commits := index.commits + 1 }
      (reload.1,reload.2.map fun _ => changed)

end

end Search
