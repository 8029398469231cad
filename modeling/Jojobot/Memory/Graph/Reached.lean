import Jojobot.Library.Trails.Ways
import Jojobot.Memory.Graph

namespace Graph
open Library Std Memory

mutual
def Object.reached : Object → List Object
  | .mk _ _ _ _ _ _ connected _ => reachedBelow connected
def reachedBelow : List Object → List Object
  | [] => []
  | object :: rest => object :: object.reached ++ reachedBelow rest
end

-- How many links down from the object each thing reached stands.
mutual
def Object.hops : Object → List Nat
  | .mk _ _ _ _ _ _ connected _ => hopsBelow connected
def hopsBelow : List Object → List Nat
  | [] => []
  | object :: rest => 1 :: object.hops.map (· + 1) ++ hopsBelow rest
end

-- The links of a thing and the things they end at that stand directly under it.
def pairs (connected : List Object) : List (Via × EntityId) :=
  connected.filterMap fun next => next.via.map (·,next.entity)

section
variable [Mentions]

def Ctx.links (ctx : Ctx) (follow : Follow) (id : EntityId) : List (Via × EntityId) :=
  ctx.neighbours id (ctx.facts id) follow

-- A walk that keeps everything, from a selection that filters no claims, where the asker
-- may read all there is.
structure Plain (ctx : Ctx) (query : GraphQuery) (follow : Follow) : Prop where
  follows : query.follow = some follow
  unfiltered : query.select.filtersRecords = false
  keepsAll : follow.keeping = []
  fitsAll : follow.fitsType = none
  readable : ∀ id, (ctx.entity id).isSome → ctx.readableBy id query.select = true

-- An object that says a link of its own went unfollowed says so of a link that did.
def Flagged (ctx : Ctx) (follow : Follow) (object : Object) : Prop :=
  object.unwalked = true ↔ ∃ link ∈ ctx.links follow object.entity, link ∉ pairs object.connected

-- What a walk's answer for a root is to hold.
structure Reaches (ctx : Ctx) (follow : Follow) (root : EntityId) (object : Object) : Prop where
  within : ∀ id, id ∈ object.reached.map Object.entity ↔
    id ≠ root ∧ ∃ n, 1 ≤ n ∧ n ≤ follow.depth ∧ Away (ctx.links follow) root n id
  once : (object.reached.map Object.entity).Nodup
  flagged : ∀ one ∈ object :: object.reached, Flagged ctx follow one

-- A thing stands at the last hop, where it is not gone on from, though fewer links lead to it.
def Overtaken (ctx : Ctx) (follow : Follow) (root : EntityId) (object : Object) : Prop :=
  ∃ id, (follow.depth,id) ∈ object.hops.zip (object.reached.map Object.entity) ∧
    ∃ n < follow.depth, Linked (ctx.links follow) n root id

end

theorem reachedBelow_append (front back : List Object) :
    reachedBelow (front ++ back) = reachedBelow front ++ reachedBelow back := by
  induction front with
  | nil => rfl
  | cons object rest ih => simp [reachedBelow,ih]

theorem hopsBelow_append (front back : List Object) : hopsBelow (front ++ back) = hopsBelow front ++ hopsBelow back := by
  induction front with
  | nil => rfl
  | cons object rest ih => simp [hopsBelow,ih]

theorem hops_object [Mentions] (ctx : Ctx) (query : GraphQuery) (id : EntityId) (via : Option Via)
    (kept : List Fact) (connected : List Object) (unwalked : Bool) :
    (ctx.object query id via kept connected unwalked).hops = hopsBelow connected := by
  simp [Ctx.object,Object.hops]

theorem reached_object [Mentions] (ctx : Ctx) (query : GraphQuery) (id : EntityId) (via : Option Via)
    (kept : List Fact) (connected : List Object) (unwalked : Bool) :
    (ctx.object query id via kept connected unwalked).reached = reachedBelow connected := by
  simp [Ctx.object,Object.reached]

-- What orders the neighbours: the thing, then the word of the link to it.
def linkPlace : Via × EntityId → Via × EntityId → Ordering :=
  compareLex (compareOn Prod.snd) (compareOn (·.1.link.token))

instance linkPlace_trans : TransCmp linkPlace := by unfold linkPlace; infer_instance
instance linkOrder_trans : TransCmp linkOrder := by unfold linkOrder; infer_instance

theorem linkPlace_lt {link other : Via × EntityId} (lower : (linkOrder link other).isLE = true)
    (apart : ¬ sameLink link other) (told : link.1.link.token = other.1.link.token → link.1.link = other.1.link) :
    linkPlace link other = .lt := by
  unfold linkOrder at lower
  unfold linkPlace
  simp only [compareLex,compareOn] at lower ⊢
  cases thing : compare link.2 other.2 with
  | lt => rfl
  | gt => simp [thing] at lower
  | eq =>
    rw [thing,Ordering.eq_then] at lower
    cases word : compare link.1.link.token other.1.link.token with
    | lt => rfl
    | gt => simp [word] at lower
    | eq => exact absurd ⟨compare_eq_iff_eq.mp thing,told (compare_eq_iff_eq.mp word)⟩ apart

section Walks
variable {ctx : Ctx} {query : GraphQuery} {follow : Follow}

theorem alongEdge_link {id : EntityId} {source : List Fact} {shape : Option EdgeShape} {direction : Direction}
    {link : Via × EntityId} (has : link ∈ ctx.alongEdge id source shape direction) :
    ∃ shape, link.1.link = .edge shape := by
  cases direction with
  | out =>
    obtain ⟨fact,_,drawn⟩ := List.mem_filterMap.mp has
    obtain ⟨edge,_,rfl⟩ := Option.map_eq_some_iff.mp drawn
    exact ⟨edge.shape,rfl⟩
  | into =>
    obtain ⟨drawn,_,rfl⟩ := List.mem_map.mp has
    exact ⟨drawn.1,rfl⟩

theorem alongNamed_link {kind : Link} {targets : Fact → List EntityId} {by' : EntityId → List (EntityId × Bool)}
    {id : EntityId} {source : List Fact} {direction : Direction} {link : Via × EntityId}
    (has : link ∈ alongNamed kind targets by' id source direction) : link.1.link = kind := by
  cases direction with
  | out =>
    obtain ⟨fact,_,named⟩ := List.mem_flatMap.mp has
    obtain ⟨target,_,rfl⟩ := List.mem_map.mp named
    rfl
  | into =>
    obtain ⟨named,_,rfl⟩ := List.mem_map.mp has
    rfl

theorem relationLinks_link {kind : Link} {key : Text} {heldNow : EntityId → List EntityId}
    {reach : Fact → Bool → List EntityId → List (Via × EntityId)}
    (all : ∀ fact retracted handles, ∀ link ∈ reach fact retracted handles, link.1.link = kind) (source : List Fact) :
    ∀ thingsRead, ∀ link ∈ relationLinks key heldNow reach thingsRead source, link.1.link = kind := by
  induction source with
  | nil => intro _ link has; exact absurd has List.not_mem_nil
  | cons fact rest ih =>
    intro thingsRead link has
    unfold relationLinks at has
    split at has
    · exact ih _ link has
    · split at has
      · split at has
        · exact ih _ link has
        · rcases List.mem_append.mp has with own | later
          · exact all _ _ _ link own
          · exact ih _ link later
      · rcases List.mem_append.mp has with own | later
        · exact all _ _ _ link own
        · exact ih _ link later

theorem alongRelation_link (ctx : Ctx) (id : EntityId) (source : List Fact) (name : Text) (direction : Direction) :
    ∃ kind, ∀ link ∈ ctx.alongRelation id source name direction, link.1.link = kind := by
  unfold Ctx.alongRelation
  split
  · exact ⟨.mention,nofun⟩
  · rename_i field _
    refine ⟨.relation field.key,?_⟩
    cases direction with
    | out =>
      refine relationLinks_link ?_ source []
      intro _ _ handles link has
      obtain ⟨handle,_,rfl⟩ := List.mem_map.mp has
      rfl
    | into =>
      refine relationLinks_link ?_ ctx.all []
      intro _ _ handles link has
      split at has
      · rw [List.mem_singleton.mp has]
      · exact absurd has List.not_mem_nil

theorem token_told {one other : Link} (plain : ∀ name, one ≠ .relation name) (also' : ∀ name, other ≠ .relation name)
    (word : one.token = other.token) : one = other := by
  have shapes : ∀ a b : EdgeShape, a.asToken = b.asToken → a = b := by
    intro a b same
    cases a <;> cases b <;> first | rfl | exact absurd same (by decide)
  have words : ∀ shape : EdgeShape, shape.asToken ≠ Link.mention.token ∧ shape.asToken ≠ Link.ref.token ∧
      shape.asToken ≠ Link.field.token := by
    intro shape
    cases shape <;> decide
  cases one with
  | relation name => exact absurd rfl (plain name)
  | edge shape =>
    cases other with
    | relation name => exact absurd rfl (also' name)
    | edge other => rw [shapes shape other word]
    | mention => exact absurd word (words shape).1
    | ref => exact absurd word (words shape).2.1
    | field => exact absurd word (words shape).2.2
  | mention =>
    cases other with
    | relation name => exact absurd rfl (also' name)
    | edge shape => exact absurd word.symm (words shape).1
    | mention => rfl
    | ref | field => exact absurd word (by decide)
  | ref =>
    cases other with
    | relation name => exact absurd rfl (also' name)
    | edge shape => exact absurd word.symm (words shape).2.1
    | ref => rfl
    | mention | field => exact absurd word (by decide)
  | field =>
    cases other with
    | relation name => exact absurd rfl (also' name)
    | edge shape => exact absurd word.symm (words shape).2.2
    | field => rfl
    | mention | ref => exact absurd word (by decide)

theorem kept_plain (plain : Plain ctx query follow) (id : EntityId) (via : Option Via) :
    ctx.kept query id via = ctx.facts id := by
  unfold Ctx.kept
  split
  · apply List.filter_eq_self.mpr
    intro fact _
    have unfiltered := plain.unfiltered
    simp only [Selection.filtersRecords,Bool.or_eq_false_iff,List.any_eq_false,Option.isSome_eq_false_iff] at unfiltered
    have none : query.select.near = none := by simpa using unfiltered.2
    have all : query.select.fields.filter (·.scope = .record) = [] := by
      apply List.filter_eq_nil_iff.mpr
      intro field has
      simpa using unfiltered.1 field has
    simp [Selection.keeps,allOfScope,all,none]
  · simp [plain.follows,Ctx.reachedFacts,Follow.filtersRecords,plain.keepsAll]

theorem hop_plain (plain : Plain ctx query follow) (deeper : EntityId → Option Via → Walked → Object × Walked)
    (state : Building) {link : Via × EntityId} (there : (ctx.entity link.2).isSome) :
    ctx.hop query follow deeper state link =
      if link.2 ∈ state.walked.seen then { state with unwalked := true }
      else
        let next := deeper link.2 (some link.1) { state.walked with seen := state.walked.seen ++ [link.2] }
        { state with connected := state.connected ++ [next.1],walked := next.2 } := by
  have licensed : ctx.refusedLicence follow link.2 = none := by
    simp [Ctx.refusedLicence,plain.keepsAll]
  simp [Ctx.hop,plain.readable link.2 there,licensed,plain.keepsAll,plain.fitsAll,holdsAll,Follow.filtersRecords]

variable [Mentions]

theorem neighbours_entity {id : EntityId} {source : List Fact} {link : Via × EntityId}
    (has : link ∈ ctx.neighbours id source follow) : (ctx.entity link.2).isSome := by
  have member := (List.destutter_sublist _ _).subset has
  exact (List.mem_filter.mp (mem_sortBy.mp member)).2

-- No two links that one walk goes along read as the same word.
theorem connections_told {id : EntityId} {source : List Fact} {link other : Via × EntityId}
    (has : link ∈ ctx.connections id source follow) (also' : other ∈ ctx.connections id source follow)
    (word : link.1.link.token = other.1.link.token) : link.1.link = other.1.link := by
  have plain : ∀ one ∈ ctx.connections id source follow, (∀ name, follow.along ≠ .relation name) →
      ∀ name, one.1.link ≠ .relation name := by
    intro one has unnamed name is
    unfold Ctx.connections at has
    split at has
    · rename_i along
      exact unnamed _ along
    · obtain ⟨shape,shaped⟩ := alongEdge_link has
      cases shaped.symm.trans is
    · simp only [List.mem_append] at has
      rcases has with ((has | has) | has) | has
      · obtain ⟨shape,shaped⟩ := alongEdge_link has
        cases shaped.symm.trans is
      · cases (alongNamed_link has).symm.trans is
      · cases (alongNamed_link has).symm.trans is
      · cases (alongNamed_link has).symm.trans is
  by_cases named : ∃ name, follow.along = .relation name
  · obtain ⟨name,along⟩ := named
    simp only [Ctx.connections,along] at has also'
    obtain ⟨kind,all⟩ := alongRelation_link ctx id source name follow.way
    rw [all link has,all other also']
  · have unnamed : ∀ name, follow.along ≠ .relation name := fun name is => named ⟨name,is⟩
    exact token_told (plain link has unnamed) (plain other also' unnamed) word

-- A thing is a neighbour along one link once.
theorem neighbours_nodup (id : EntityId) (source : List Fact) : (ctx.neighbours id source follow).Nodup := by
  have sorted := @sortBy_pairwise _ linkOrder _
    ((ctx.connections id source follow).filter fun link => (ctx.entity link.2).isSome)
  have fewer := List.destutter_sublist (fun a b => ¬ sameLink a b) (sortBy linkOrder
    ((ctx.connections id source follow).filter fun link => (ctx.entity link.2).isSome))
  have told : ∀ link ∈ ctx.neighbours id source follow, link ∈ ctx.connections id source follow := by
    intro link has
    exact (List.mem_filter.mp (mem_sortBy.mp (fewer.subset has))).1
  have chain : (ctx.neighbours id source follow).IsChain fun a b => ¬ sameLink a b := List.isChain_destutter ..
  have lower : (ctx.neighbours id source follow).Pairwise fun a b => (linkOrder a b).isLE = true := sorted.sublist fewer
  have rising : (ctx.neighbours id source follow).IsChain fun a b => linkPlace a b = .lt := by
    generalize ctx.neighbours id source follow = links at *
    induction links with
    | nil => exact .nil
    | cons link rest ih =>
      cases rest with
      | nil => exact .singleton _
      | cons other rest =>
        rw [List.isChain_cons_cons] at chain ⊢
        obtain ⟨first,lower⟩ := List.pairwise_cons.mp lower
        refine ⟨linkPlace_lt (first other List.mem_cons_self) chain.1 ?_,ih (fun one has => told one
          (List.mem_cons_of_mem _ has)) chain.2 lower⟩
        exact connections_told (told link (by simp)) (told other (by simp))
  have : Trans (fun a b => linkPlace a b = .lt) (fun a b => linkPlace a b = .lt) (fun a b => linkPlace a b = .lt) :=
    ⟨TransCmp.lt_trans⟩
  refine (List.isChain_iff_pairwise.mp rising).imp ?_
  intro a b less same
  rw [same,show linkPlace b b = .eq from ReflCmp.compare_self] at less
  exact nomatch less

-- What one thing of a walk comes to, when this much was seen as the walk came to it.
structure Went (ctx : Ctx) (follow : Follow) (n : Nat) (id : EntityId) (via : Option Via) (walked : Walked)
    (next : Object × Walked) : Prop where
  entity : next.1.entity = id
  came : next.1.via = via
  below : next.1.reached.map Object.entity =
    (visit (ctx.links follow) n id walked.seen).map (ending id)
  deep : next.1.hops = (visit (ctx.links follow) n id walked.seen).map List.length
  seen : next.2.seen = walked.seen ++ (visit (ctx.links follow) n id walked.seen).map (ending id)
  flagged : ∀ one ∈ next.1 :: next.1.reached, Flagged ctx follow one

-- The same of a thing some of whose links were tried.
structure Going (ctx : Ctx) (follow : Follow) (id : EntityId) (seen : List EntityId)
    (tried : List (Via × EntityId)) (found : List (Trail Via EntityId)) (state : Building) : Prop where
  below : (reachedBelow state.connected).map Object.entity = found.map (ending id)
  deep : hopsBelow state.connected = found.map List.length
  seen : state.walked.seen = seen ++ found.map (ending id)
  flagged : ∀ one ∈ reachedBelow state.connected, Flagged ctx follow one
  own : ∀ link ∈ pairs state.connected, link ∈ tried
  cut : state.unwalked = true ↔ ∃ link ∈ tried, link ∉ pairs state.connected

theorem Going.hop {n : Nat} {id : EntityId} {seen : List EntityId} {tried : List (Via × EntityId)}
    {found : List (Trail Via EntityId)} {state : Building} {link : Via × EntityId}
    (plain : Plain ctx query follow) (given : Going ctx follow id seen tried found state)
    (there : (ctx.entity link.2).isSome) (new : link ∉ tried)
    (went : ∀ id via walked, Went ctx follow n id via walked (ctx.walkTo query follow n id via walked)) :
    Going ctx follow id seen (tried ++ [link]) (enter (visit (ctx.links follow) n) id seen found link)
      (ctx.hop query follow (ctx.walkTo query follow n) state link) := by
  obtain ⟨connected,unwalked,walked⟩ := state
  have held : walked.seen = seen ++ found.map (ending id) := given.seen
  rw [hop_plain plain _ _ there,enter,←held]
  split
  · rename_i met
    refine ⟨given.below,given.deep,given.seen,given.flagged,?_,?_⟩
    · intro other has
      exact List.mem_append_left _ (given.own other has)
    · have missing : link ∉ pairs connected := fun has => new (given.own link has)
      simp only [true_iff]
      exact ⟨link,by simp,missing⟩
  · rename_i apart
    have next := went link.2 (some link.1) { walked with seen := walked.seen ++ [link.2] }
    generalize ctx.walkTo query follow n link.2 (some link.1) { walked with seen := walked.seen ++ [link.2] } = step
      at next
    have last : pairs [step.1] = [link] := by simp [pairs,next.came,next.entity]
    have grown : pairs (connected ++ [step.1]) = pairs connected ++ [link] := by
      rw [pairs,List.filterMap_append]; exact congrArg _ last
    have below : reachedBelow (connected ++ [step.1]) = reachedBelow connected ++ step.1 :: step.1.reached := by
      simp [reachedBelow_append,reachedBelow]
    constructor
    · dsimp only
      rw [below,endings_entered,List.map_append,given.below,List.map_cons,next.entity,next.below]
    · dsimp only
      rw [hopsBelow_append,given.deep,List.map_append,List.map_cons,hopsBelow,hopsBelow,next.deep]
      simp [Function.comp_def]
    · dsimp only
      rw [endings_entered,next.seen,held]
      simp
    · intro one has
      rw [below] at has
      rcases List.mem_append.mp has with had | has
      · exact given.flagged one had
      · exact next.flagged one has
    · intro other has
      rw [grown] at has
      rcases List.mem_append.mp has with had | is
      · exact List.mem_append_left _ (given.own other had)
      · exact List.mem_append_right _ is
    · dsimp only
      rw [grown,given.cut]
      constructor
      · intro ⟨other,has,missing⟩
        refine ⟨other,List.mem_append_left _ has,?_⟩
        intro member
        rcases List.mem_append.mp member with had | is
        · exact missing had
        · exact new (List.mem_singleton.mp is ▸ has)
      · intro ⟨other,has,missing⟩
        rcases List.mem_append.mp has with had | is
        · exact ⟨other,had,fun member => missing (List.mem_append_left _ member)⟩
        · exact absurd (List.mem_append_right _ is) missing

theorem Going.hops {n : Nat} {id : EntityId} {seen : List EntityId} {tried rest : List (Via × EntityId)}
    {found : List (Trail Via EntityId)} {state : Building}
    (plain : Plain ctx query follow) (given : Going ctx follow id seen tried found state)
    (there : ∀ link ∈ rest, (ctx.entity link.2).isSome) (apart : (tried ++ rest).Nodup)
    (went : ∀ id via walked, Went ctx follow n id via walked (ctx.walkTo query follow n id via walked)) :
    Going ctx follow id seen (tried ++ rest) (rest.foldl (enter (visit (ctx.links follow) n) id seen) found)
      (rest.foldl (ctx.hop query follow (ctx.walkTo query follow n)) state) := by
  induction rest generalizing tried found state with
  | nil => simpa using given
  | cons link rest ih =>
    rw [List.foldl_cons,List.foldl_cons,List.append_cons]
    rw [List.append_cons] at apart
    have new : link ∉ tried := by
      have both := (List.nodup_append.mp (List.nodup_append.mp apart).1).2.2
      intro has
      exact both link has link (by simp) rfl
    exact ih (given.hop plain (there link List.mem_cons_self) new went)
      (fun other has => there other (List.mem_cons_of_mem _ has)) apart

theorem walk_went (plain : Plain ctx query follow) (n : Nat) : ∀ id via walked,
    Went ctx follow n id via walked (ctx.walkTo query follow n id via walked) := by
  induction n with
  | zero =>
    intro id via walked
    have kept := kept_plain plain id via
    refine ⟨rfl,rfl,?_,?_,?_,?_⟩
    · simp [Ctx.walkTo,reached_object,reachedBelow,visit]
    · simp [Ctx.walkTo,hops_object,hopsBelow,visit]
    · simp [Ctx.walkTo,visit]
    · intro one has
      simp only [Ctx.walkTo,reached_object,reachedBelow,List.mem_singleton] at has
      subst has
      simp only [Flagged,Ctx.object,Object.unwalked,Object.entity,Object.connected,pairs,kept,Ctx.links,
        List.filterMap_nil,List.not_mem_nil,not_false_eq_true,and_true]
      cases ctx.neighbours id (ctx.facts id) follow <;> simp
  | succ n ih =>
    intro id via walked
    have start : Going ctx follow id walked.seen [] [] { walked } :=
      ⟨rfl,rfl,by simp,fun _ has => absurd has List.not_mem_nil,fun _ has => absurd has List.not_mem_nil,by simp⟩
    have there : ∀ link ∈ ctx.links follow id, (ctx.entity link.2).isSome := fun link has => neighbours_entity has
    have done := start.hops plain there (neighbours_nodup ..) ih
    rw [List.nil_append,Ctx.links] at done
    simp only [Ctx.walkTo,kept_plain plain]
    generalize (ctx.neighbours id (ctx.facts id) follow).foldl
      (ctx.hop query follow (ctx.walkTo query follow n)) { walked } = built at done
    refine ⟨rfl,rfl,?_,?_,done.seen,?_⟩
    · rw [reached_object]
      exact done.below
    · rw [hops_object]
      exact done.deep
    · intro one has
      rw [reached_object] at has
      rcases List.mem_cons.mp has with rfl | has
      · exact done.cut
      · exact done.flagged one has

-- A walk answers all there is within its depth when nothing nearer than the depth is first
-- come to with no link to spare; where something is, it stands at the last hop.
theorem a_walk_reaches_everything_unhidden (ctx : Ctx) (query : GraphQuery) (follow : Follow) (root : EntityId)
    (plain : Plain ctx query follow) :
    (Unhidden (ctx.links follow) follow.depth root → Reaches ctx follow root (ctx.answer query root)) ∧
      (¬Unhidden (ctx.links follow) follow.depth root → Overtaken ctx follow root (ctx.answer query root)) := by
  have answered : ctx.answer query root = (ctx.walkTo query follow follow.depth root none ⟨[root],[],[]⟩).1 := by
    simp [Ctx.answer,Ctx.expand,plain.follows]
  have went := walk_went plain follow.depth root none ⟨[root],[],[]⟩
  rw [answered]
  constructor
  · intro unhidden
    refine ⟨?_,?_,went.flagged⟩
    · rw [went.below]
      exact visit_complete ((unspent_iff ..).mpr unhidden)
    · rw [went.below]
      exact (visits ..).apart
  · intro hidden
    rw [←unspent_iff] at hidden
    unfold Unspent at hidden
    push Not at hidden
    obtain ⟨trail,has,full,near⟩ := hidden
    refine ⟨ending root trail,?_,near⟩
    rw [went.below,went.deep,List.zip_map']
    exact List.mem_map.mpr ⟨trail,has,by rw [full]⟩

end Walks

@[reducible] def noMentions : Mentions := ⟨fun _ _ => []⟩

def aboutFact (id home object : String) : Fact :=
  { id := id.toList,home := home.toList,content := "a link".toList,details := none,status := .active,fields := {}
    subject := home.toList,edge := some ⟨.about,object.toList⟩ }

-- The team is two links from the town, and one of its members is met on a longer way first.
def townScan : Ctx where
  declarations := []
  scanned :=
    [{ entity := some ⟨"place:town".toList,"place".toList⟩
       facts := [aboutFact "f1" "place:town" "person:ann",aboutFact "f2" "place:town" "person:bob"] },
     { entity := some ⟨"person:ann".toList,"person".toList⟩,facts := [aboutFact "f1" "person:ann" "person:bob"] },
     { entity := some ⟨"person:bob".toList,"person".toList⟩,facts := [aboutFact "f1" "person:bob" "team:red"] },
     { entity := some ⟨"team:red".toList,"team".toList⟩ }]

def townWalk (depth : Nat) : Follow := { along := .anyEdge,depth }
def townQuery (depth : Nat) : GraphQuery := { follow := some (townWalk depth) }

theorem town_plain (ctx : Ctx) (unowned : ∀ doc ∈ ctx.scanned, doc.owner.isSome = false) (depth : Nat) :
    Plain ctx (townQuery depth) (townWalk depth) := by
  refine ⟨rfl,rfl,rfl,rfl,?_⟩
  intro id _
  have ownerless : ctx.owner id = none := by
    have none : ctx.scanned.reverse.find? (fun doc => doc.entity.any (·.id = id) && doc.owner.isSome) = none := by
      apply List.find?_eq_none.mpr
      intro doc has
      simp [unowned doc (List.mem_reverse.mp has)]
    rw [Ctx.owner,none]; rfl
  simp [Ctx.readableBy,ownerless]

-- Two ways to the team, a longer way to one of its members, and a way back.
def ringScan : Ctx where
  declarations := []
  scanned :=
    [{ entity := some ⟨"place:town".toList,"place".toList⟩
       facts := [aboutFact "f1" "place:town" "person:ann",aboutFact "f2" "place:town" "person:bob"] },
     { entity := some ⟨"person:ann".toList,"person".toList⟩,facts := [aboutFact "f1" "person:ann" "team:red"] },
     { entity := some ⟨"person:bob".toList,"person".toList⟩
       facts := [aboutFact "f1" "person:bob" "person:ann",aboutFact "f2" "person:bob" "team:red"] },
     { entity := some ⟨"team:red".toList,"team".toList⟩,facts := [aboutFact "f1" "team:red" "place:town"] }]

theorem two_hops_of_a_ring_reach_everything :
    @Reaches noMentions ringScan (townWalk 2) "place:town".toList
      (@Ctx.answer noMentions ringScan (townQuery 2) "place:town".toList) := by
  have plain := town_plain ringScan (by simp [ringScan]) 2
  refine (@a_walk_reaches_everything_unhidden noMentions ringScan (townQuery 2) (townWalk 2) "place:town".toList plain).1 ?_
  have near : linkedTo (@Ctx.links noMentions ringScan (townWalk 2)) "place:town".toList =
      ["person:ann".toList,"person:bob".toList] := by decide +kernel
  have beyond : linkedTo (@Ctx.links noMentions ringScan (townWalk 2)) "person:ann".toList = ["team:red".toList] := by
    decide +kernel
  intro thing apart within way first
  obtain ⟨m,short,linked⟩ := within
  have named : thing ∈ linkedTo (@Ctx.links noMentions ringScan (townWalk 2)) "place:town".toList := by
    rcases m with _ | _ | m
    · exact absurd (show "place:town".toList = thing from linked).symm apart
    · obtain ⟨link,has,same⟩ := linked
      exact mem_linkedTo.mpr ⟨link,has,same⟩
    · exact absurd short (by change ¬m+2 < 2; omega)
  by_contra long
  have two : way.length = 2 := Nat.le_antisymm first.sorted.2 (Nat.le_of_not_lt long)
  obtain ⟨one,other,shape⟩ := List.length_eq_two.mp two
  subst shape
  have ends : other = thing := first.ends
  subst ends
  have simple : ("place:town".toList::[other]).Nodup := by simpa using apart.symm
  have turns := first.first [other] ⟨⟨named,trivial⟩,by simp [townWalk]⟩ simple rfl
  have goes := first.sorted.1
  have differ : one ≠ other := by simpa using (List.nodup_cons.mp first.simple).2
  rw [Way,near] at goes
  rw [near] at named
  simp only [List.mem_cons,List.not_mem_nil,or_false] at goes named
  rcases named with ann | bob
  · -- The way to ann through bob is not the first.
    subst ann
    rcases goes.1 with same | same
    · exact differ same
    · subst same
      exact turns (Or.inl (by unfold Earlier; rw [near]; decide))
  · subst bob
    rcases goes.1 with same | same
    · subst same
      have none := goes.2.1
      rw [beyond] at none
      exact absurd none (by decide)
    · exact differ same

theorem a_longer_way_hides_a_thing :
    Plain townScan (townQuery 2) (townWalk 2) ∧
    ¬ @Reaches noMentions townScan (townWalk 2) "place:town".toList
      (@Ctx.answer noMentions townScan (townQuery 2) "place:town".toList) := by
  refine ⟨town_plain townScan (by simp [townScan]) 2,?_⟩
  intro reaches
  have missing : "team:red".toList ∉ (@Ctx.answer noMentions townScan (townQuery 2) "place:town".toList).reached.map
      Object.entity := by decide +kernel
  have first : (⟨.edge .about,.out,false⟩,"person:bob".toList) ∈
      @Ctx.links noMentions townScan (townWalk 2) "place:town".toList := by decide +kernel
  have second : (⟨.edge .about,.out,false⟩,"team:red".toList) ∈
      @Ctx.links noMentions townScan (townWalk 2) "person:bob".toList := by decide +kernel
  have away := away_of_linked (n := 2) (show "team:red".toList ≠ "place:town".toList by decide)
    ⟨2,Nat.le_refl 2,_,first,_,second,rfl⟩
  have within := @Reaches.within noMentions _ _ _ _ reaches "team:red".toList
  exact missing (within.mpr ⟨by decide,away⟩)

end Graph
