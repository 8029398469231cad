import Jojobot.Library.KeepFirst
import Jojobot.Library.Trails
import Jojobot.Memory.Facts

namespace Graph
open Library Std Memory

inductive EdgeShape where
  | location | membership | attendance | about | connection
deriving DecidableEq, Repr

def EdgeShape.asToken : EdgeShape → Text
  | .location => "location".toList
  | .membership => "membership".toList
  | .attendance => "attendance".toList
  | .about => "about".toList
  | .connection => "connection".toList

structure Edge where
  shape : EdgeShape
  object : EntityId
deriving DecidableEq, Repr

-- A claim as a walk reads it. `reaching` holds the keys it still sets on its thing.
structure Fact extends Memory.Fact where
  subject : EntityId
  edge : Option Edge := none
  refs : List EntityId := []
  fieldLinks : ExtTreeMap Text (List EntityId) := {}
  reaching : List Text := []
  standsFor : List FactAddress := []

def Fact.fieldHandles (fact : Fact) : List EntityId := fact.fieldLinks.values.flatten
def Fact.retracted (fact : Fact) : Bool := fact.status = .archived
def Fact.address (fact : Fact) : FactAddress := ⟨fact.home,fact.id⟩

structure Entity where
  id : EntityId
  kind : Text
deriving DecidableEq, Repr

structure DocScan where
  entity : Option Entity
  owner : Option EntityId := none
  fields : Fields := {}
  fieldLinks : ExtTreeMap Text (List EntityId) := {}
  facts : List Fact := []

-- The things a claim's words name, outside what is code in them.
class Mentions where
  servedNames : Text → Option Text → List EntityId

inductive Direction where
  | out | into
deriving DecidableEq, Repr

inductive Along where
  | anyEdge
  | edge (shape : EdgeShape)
  | relation (name : Text)
deriving DecidableEq, Repr

inductive Link where
  | edge (shape : EdgeShape)
  | relation (name : Text)
  | mention | ref | field
deriving DecidableEq, Repr

def Link.token : Link → Text
  | .edge shape => shape.asToken
  | .relation name => name
  | .mention => "mention".toList
  | .ref => "ref".toList
  | .field => "field".toList

structure Via where
  link : Link
  direction : Direction
  retracted : Bool
deriving DecidableEq, Repr

inductive Scope where
  | thing | record
deriving DecidableEq, Repr

-- A filter as its tree answers: what it says of fields, and what a kind that does not
-- license its comparison is refused with.
structure FieldFilter where
  scope : Scope
  holds : Fields → Bool
  refused : Text → Option Text

structure Follow where
  along : Along
  direction : Option Direction := none
  depth : Nat
  keeping : List FieldFilter := []
  fitsType : Option (Fields → Bool) := none

def Follow.way (follow : Follow) : Direction := follow.direction.getD .out
def Follow.filtersRecords (follow : Follow) : Bool := follow.keeping.any (·.scope = .record)

inductive UsageReach where
  | own | bots (reached : List EntityId) | all

structure Selection where
  fields : List FieldFilter := []
  near : Option (Fact → Bool) := none
  askedBy : Option EntityId := none
  usageReach : UsageReach := .own

def USAGE : Text := "usage".toList

def Selection.mayRead (select : Selection) (kind : Text) (owner : EntityId) : Bool :=
  match select.askedBy with
  | none => false
  | some asker => asker = owner || kind = USAGE &&
    match select.usageReach with
    | .own => false
    | .bots reached => reached.contains owner
    | .all => true

def allOfScope (filters : List FieldFilter) (scope : Scope) (fields : Fields) : Bool :=
  (filters.filter (·.scope = scope)).all (·.holds fields)

def holdsAll (held : Option Fields) (filters : List FieldFilter) : Bool :=
  (filters.filter (·.scope = .thing)).isEmpty || held.any (allOfScope filters .thing)

def Selection.filtersRecords (select : Selection) : Bool :=
  select.fields.any (·.scope = .record) || select.near.isSome

def Selection.keeps (select : Selection) (fact : Fact) : Bool :=
  allOfScope select.fields .record fact.fields && select.near.all (· fact)

structure Include where
  facts : Bool := true
  stoodFor : Bool := false
  status : Option FactStatus := none

structure GraphQuery where
  select : Selection := {}
  included : Include := {}
  follow : Option Follow := none

def lists (status : Option FactStatus) (fact : Fact) : Bool := status.all (fact.status = ·)

structure Ctx where
  scanned : List DocScan
  declarations : List DeclaredType

variable [Mentions]

-- The last row of a handle is the one an index keeps.
def Ctx.doc (ctx : Ctx) (id : EntityId) : Option DocScan :=
  ctx.scanned.reverse.find? (·.entity.any (·.id = id))

def Ctx.entity (ctx : Ctx) (id : EntityId) : Option Entity := (ctx.doc id).bind (·.entity)

-- The last row that gives an owner, whichever row of the handle the index keeps.
def Ctx.owner (ctx : Ctx) (id : EntityId) : Option EntityId :=
  (ctx.scanned.reverse.find? fun doc => doc.entity.any (·.id = id) && doc.owner.isSome).bind (·.owner)

def Ctx.held (ctx : Ctx) (id : EntityId) : Option Fields := (ctx.doc id).map (·.fields)
def Ctx.folded (ctx : Ctx) (id : EntityId) : Fields := (ctx.held id).getD {}

def Ctx.written (ctx : Ctx) : List Fact := ctx.scanned.flatMap (·.facts)

def Ctx.all (ctx : Ctx) : List Fact := keepFirst (some ·.address) [] ctx.written

-- A claim belongs to what it is about and to the document that holds it.
def Ctx.facts (ctx : Ctx) (id : EntityId) : List Fact :=
  keepFirst (some ·.address) [] (ctx.written.filter fun fact => fact.subject = id || fact.home = id)

def Ctx.inbound (ctx : Ctx) (id : EntityId) : List (EdgeShape × EntityId × Bool) :=
  keepFirst some [] (ctx.written.filterMap fun fact =>
    (fact.edge.filter (·.object = id)).map fun edge => (edge.shape,fact.subject,fact.retracted))

-- Who names a thing, by what each claim names of itself.
def Ctx.pointing (ctx : Ctx) (targets : Fact → List EntityId) (id : EntityId) : List (EntityId × Bool) :=
  keepFirst some [] (ctx.written.flatMap fun fact =>
    ((targets fact).filter (· = id)).map fun _ => (fact.subject,fact.retracted))

def mentioned (fact : Fact) : List EntityId := Mentions.servedNames fact.content fact.details

def Ctx.mentionedBy (ctx : Ctx) : EntityId → List (EntityId × Bool) := ctx.pointing mentioned
def Ctx.refBy (ctx : Ctx) : EntityId → List (EntityId × Bool) := ctx.pointing (·.refs)
def Ctx.fieldBy (ctx : Ctx) : EntityId → List (EntityId × Bool) := ctx.pointing (·.fieldHandles)

def Ctx.readableBy (ctx : Ctx) (id : EntityId) (select : Selection) : Bool :=
  match ctx.owner id,ctx.entity id with
  | none,_ => true
  | some owner,some entity => select.mayRead entity.kind owner
  | some owner,none => select.askedBy = some owner

def Ctx.keptFacts (ctx : Ctx) (id : EntityId) (select : Selection) : List Fact :=
  (ctx.facts id).filter select.keeps

def Ctx.reachedFacts (ctx : Ctx) (id : EntityId) (follow : Option Follow) : List Fact :=
  match follow with
  | none => ctx.facts id
  | some follow =>
    if follow.filtersRecords then
      (ctx.facts id).filter fun fact => allOfScope follow.keeping .record fact.fields
    else ctx.facts id

def Ctx.alongEdge (ctx : Ctx) (id : EntityId) (source : List Fact) (shape : Option EdgeShape)
    (direction : Direction) : List (Via × EntityId) :=
  match direction with
  | .out => source.filterMap fun fact =>
      (fact.edge.filter fun edge => shape.all (edge.shape = ·)).map fun edge =>
        (⟨.edge edge.shape,direction,fact.retracted⟩,edge.object)
  | .into => ((ctx.inbound id).filter fun drawn => shape.all (drawn.1 = ·)).map fun drawn =>
      (⟨.edge drawn.1,direction,drawn.2.2⟩,drawn.2.1)

-- The shape that the walks along a mention, a ref and a field share.
def alongNamed (link : Link) (targets : Fact → List EntityId) (by' : EntityId → List (EntityId × Bool))
    (id : EntityId) (source : List Fact) (direction : Direction) : List (Via × EntityId) :=
  match direction with
  | .out => source.flatMap fun fact => (targets fact).map fun target => (⟨link,direction,fact.retracted⟩,target)
  | .into => (by' id).map fun named => (⟨link,direction,named.2⟩,named.1)

def Ctx.alongMention (ctx : Ctx) : EntityId → List Fact → Direction → List (Via × EntityId) :=
  alongNamed .mention mentioned ctx.mentionedBy
def Ctx.alongRef (ctx : Ctx) : EntityId → List Fact → Direction → List (Via × EntityId) :=
  alongNamed .ref (·.refs) ctx.refBy
def Ctx.alongField (ctx : Ctx) : EntityId → List Fact → Direction → List (Via × EntityId) :=
  alongNamed .field (·.fieldHandles) ctx.fieldBy

def relationField (name : Text) (declarations : List DeclaredType) : Option Field :=
  declarations.findSome? fun declared =>
    (declared.fields.find? (·.key = trim name)).filter (·.holds = .reference)

-- What a standing claim sets is read once from what its thing holds now; every other
-- value is read from its own claim. `read` gives the links of a thing that holds now, and
-- of a claim's own value.
def relationLinks (key : Text) (heldNow : EntityId → List EntityId)
    (reach : Fact → Bool → List EntityId → List (Via × EntityId)) :
    List EntityId → List Fact → List (Via × EntityId)
  | _,[] => []
  | thingsRead,fact::rest =>
    if ¬ fact.fields.contains key then relationLinks key heldNow reach thingsRead rest
    else if fact.status ≠ .archived ∧ fact.reaching.contains key then
      if thingsRead.contains fact.subject then relationLinks key heldNow reach thingsRead rest
      else reach fact false (heldNow fact.subject) ++
        relationLinks key heldNow reach (thingsRead ++ [fact.subject]) rest
    else reach fact fact.retracted ((fact.fieldLinks[key]?).getD []) ++
      relationLinks key heldNow reach thingsRead rest

def Ctx.alongRelation (ctx : Ctx) (id : EntityId) (source : List Fact) (name : Text)
    (direction : Direction) : List (Via × EntityId) :=
  match relationField name ctx.declarations with
  | none => []
  | some field =>
    let heldNow thing := ((ctx.doc thing).bind (·.fieldLinks[field.key]?)).getD []
    match direction with
    | .out => relationLinks field.key heldNow
        (fun _ retracted handles => handles.map (⟨.relation field.key,direction,retracted⟩,·)) [] source
    | .into => relationLinks field.key heldNow
        (fun fact retracted handles =>
          if handles.contains id then [(⟨.relation field.key,direction,retracted⟩,fact.subject)] else []) [] ctx.all

def linkOrder : Via × EntityId → Via × EntityId → Ordering :=
  compareLex (compareOn Prod.snd) (compareLex (compareOn (·.1.link.token)) (compareOn (·.1.retracted)))

def sameLink (a b : Via × EntityId) : Prop := a.2 = b.2 ∧ a.1.link = b.1.link

instance (a b : Via × EntityId) : Decidable (sameLink a b) := inferInstanceAs (Decidable (_ ∧ _))

def Ctx.connections (ctx : Ctx) (id : EntityId) (source : List Fact) (follow : Follow) : List (Via × EntityId) :=
  match follow.along with
  | .relation name => ctx.alongRelation id source name follow.way
  | .edge shape => ctx.alongEdge id source (some shape) follow.way
  | .anyEdge => ctx.alongEdge id source none follow.way ++ ctx.alongMention id source follow.way ++
      ctx.alongRef id source follow.way ++ ctx.alongField id source follow.way

-- `dedup_by` of the source keeps what is not the same link as the last one kept.
def Ctx.neighbours (ctx : Ctx) (id : EntityId) (source : List Fact) (follow : Follow) : List (Via × EntityId) :=
  (sortBy linkOrder ((ctx.connections id source follow).filter fun link => (ctx.entity link.2).isSome)).destutter
    fun a b => ¬ sameLink a b

-- One thing of an answer, with what the walk went on to from it.
inductive Object where
  | mk (entity : EntityId) (via : Option Via) (fields : Fields) (factsHeld : Nat) (facts : List Fact)
      (factsFolded : Nat) (connected : List Object) (unwalked : Bool)

def Object.entity : Object → EntityId
  | .mk entity .. => entity
def Object.via : Object → Option Via
  | .mk _ via .. => via
def Object.connected : Object → List Object
  | .mk _ _ _ _ _ _ connected _ => connected
def Object.unwalked : Object → Bool
  | .mk _ _ _ _ _ _ _ unwalked => unwalked

-- What a walk has gone into, and what it left out on the way.
structure Walked where
  seen : List EntityId
  hopsWithheld : List EntityId := []
  walkUnlicensed : List (Text × List EntityId × Text) := []

def Walked.withhold (walked : Walked) (id : EntityId) : Walked :=
  { walked with hopsWithheld := if walked.hopsWithheld.contains id then walked.hopsWithheld else walked.hopsWithheld ++ [id] }

-- The first refusal of a kind stands for it, and a thing is counted once.
def Walked.unlicensed (walked : Walked) (kind : Text) (because : Text) (id : EntityId) : Walked :=
  if walked.walkUnlicensed.any (·.1 = kind) then
    { walked with walkUnlicensed := walked.walkUnlicensed.map fun entry =>
        if entry.1 = kind && ! entry.2.1.contains id then (entry.1,entry.2.1 ++ [id],entry.2.2) else entry }
  else { walked with walkUnlicensed := walked.walkUnlicensed ++ [(kind,[id],because)] }

def Ctx.object (ctx : Ctx) (query : GraphQuery) (id : EntityId) (via : Option Via) (kept : List Fact)
    (connected : List Object) (unwalked : Bool) : Object :=
  let status := if via.isNone then query.included.status else none
  let folded := if query.included.facts ∧ ¬ query.included.stoodFor then
      (kept.filter (lists status)).flatMap (·.standsFor) else []
  let folds (fact : Fact) : Bool := lists status fact && folded.contains fact.address
  .mk id via (ctx.folded id) (ctx.facts id).length
    (if query.included.facts then kept.filter (! folds ·) else []) (kept.countP folds) connected unwalked

def Ctx.refusedLicence (ctx : Ctx) (follow : Follow) (id : EntityId) : Option (Text × Text) :=
  (ctx.entity id).bind fun entity =>
    follow.keeping.findSome? fun field => (field.refused entity.kind).map (entity.kind,·)

-- What an object being built holds while its links are walked, with the walk so far.
structure Building where
  connected : List Object := []
  unwalked : Bool := false
  walked : Walked

-- One link of a thing the walk is at.
def Ctx.hop (ctx : Ctx) (query : GraphQuery) (follow : Follow)
    (deeper : EntityId → Option Via → Walked → Object × Walked) (state : Building) (link : Via × EntityId) :
    Building :=
  let reached := link.2
  if ¬ ctx.readableBy reached query.select then
    { state with unwalked := true,walked := state.walked.withhold reached }
  else
    let holds := holdsAll (ctx.held reached) follow.keeping
    let refused := ctx.refusedLicence follow reached
    let walked := (refused.filter fun _ => holds).elim state.walked fun refusal =>
      state.walked.unlicensed refusal.1 refusal.2 reached
    if ¬ holds ∨ refused.isSome ∨ follow.filtersRecords ∧ (ctx.reachedFacts reached (some follow)).isEmpty then
      { state with unwalked := true,walked }
    else if follow.fitsType.any (fun fits => ! fits (ctx.folded reached)) then { state with unwalked := true,walked }
    else if walked.seen.contains reached then { state with unwalked := true,walked }
    else
      let next := deeper reached (some link.1) { walked with seen := walked.seen ++ [reached] }
      { state with connected := state.connected ++ [next.1],walked := next.2 }

def Ctx.kept (ctx : Ctx) (query : GraphQuery) (id : EntityId) (via : Option Via) : List Fact :=
  if via.isNone then ctx.keptFacts id query.select else ctx.reachedFacts id query.follow

def Ctx.walkTo (ctx : Ctx) (query : GraphQuery) (follow : Follow) : Nat → EntityId → Option Via → Walked →
    Object × Walked
  | 0,id,via,walked =>
    let kept := ctx.kept query id via
    (ctx.object query id via kept [] (! (ctx.neighbours id kept follow).isEmpty),walked)
  | depth+1,id,via,walked =>
    let kept := ctx.kept query id via
    let built := (ctx.neighbours id kept follow).foldl
      (ctx.hop query follow (ctx.walkTo query follow depth)) { walked }
    (ctx.object query id via kept built.connected built.unwalked,built.walked)

def Ctx.expand (ctx : Ctx) (id : EntityId) (via : Option Via) (query : GraphQuery) (follow : Option Follow)
    (walked : Walked) : Object × Walked :=
  match follow with
  | none => (ctx.object query id via (ctx.kept query id via) [] false,walked)
  | some follow => ctx.walkTo query follow follow.depth id via walked

-- A root is walked with only itself seen.
def Ctx.answer (ctx : Ctx) (query : GraphQuery) (root : EntityId) : Object :=
  (ctx.expand root none query query.follow ⟨[root],[],[]⟩).1

end Graph
