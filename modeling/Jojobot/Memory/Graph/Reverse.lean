import Jojobot.Library.Destutter
import Jojobot.Memory.Graph.Reached

namespace Graph
open Library Std Memory

variable {ctx : Ctx}

-- Every claim stands on the page of what it is about, and a copy of it is it.
structure Homed (ctx : Ctx) : Prop where
  home : ∀ fact ∈ ctx.written, fact.home = fact.subject
  copies : ∀ fact ∈ ctx.written, ∀ other ∈ ctx.written, fact.address = other.address → fact = other

theorem mem_keepFirst_told {α ι : Type} [DecidableEq ι] {name : α → ι} {items : List α} {item : α}
    (told : ∀ a ∈ items, ∀ b ∈ items, name a = name b → a = b) :
    item ∈ keepFirst (some <| name ·) [] items ↔ item ∈ items := by
  have fewer := keepFirst_sublist (some <| name ·) [] items
  constructor
  · exact fun has => fewer.subset has
  · intro has
    have named := (keepFirst_mem (some <| name ·) items (name item)).mpr (List.mem_filterMap.mpr ⟨item,has,rfl⟩)
    obtain ⟨kept,member,same⟩ := List.mem_filterMap.mp named
    cases told kept (fewer.subset member) item has (Option.some.inj same)
    exact member

theorem mem_keepFirst_itself {ι : Type} [DecidableEq ι] {items : List ι} {item : ι} :
    item ∈ keepFirst some [] items ↔ item ∈ items := by
  have kept := keepFirst_mem some items item
  simpa using kept

theorem mem_all (homed : Homed ctx) {fact : Fact} : fact ∈ ctx.all ↔ fact ∈ ctx.written :=
  mem_keepFirst_told homed.copies

theorem mem_facts (homed : Homed ctx) {fact : Fact} {id : EntityId} :
    fact ∈ ctx.facts id ↔ fact ∈ ctx.written ∧ fact.subject = id := by
  have told : ∀ a ∈ ctx.written.filter (fun fact => fact.subject = id || fact.home = id),
      ∀ b ∈ ctx.written.filter (fun fact => fact.subject = id || fact.home = id), a.address = b.address → a = b := by
    intro a hasA b hasB
    exact homed.copies a (List.mem_filter.mp hasA).1 b (List.mem_filter.mp hasB).1
  unfold Ctx.facts
  rw [mem_keepFirst_told told,List.mem_filter]
  constructor
  · intro ⟨has,of'⟩
    have same := homed.home fact has
    refine ⟨has,?_⟩
    simpa [same] using of'
  · intro ⟨has,about⟩
    exact ⟨has,by simp [about]⟩

-- What a claim draws along an edge, read from either end of it.
theorem alongEdge_reverse (homed : Homed ctx) {x y : EntityId} {source : List Fact} {shape : Option EdgeShape}
    {link : Link} {retracted : Bool} :
    (⟨link,.out,retracted⟩,y) ∈ ctx.alongEdge x (ctx.facts x) shape .out ↔
      (⟨link,.into,retracted⟩,x) ∈ ctx.alongEdge y source shape .into := by
  simp only [Ctx.alongEdge,Ctx.inbound,List.mem_filterMap,List.mem_map,List.mem_filter,mem_keepFirst_itself,
    mem_facts homed,Option.map_eq_some_iff,Option.filter_eq_some_iff]
  constructor
  · rintro ⟨fact,⟨has,rfl⟩,edge,⟨drawn,fits⟩,same⟩
    cases same
    exact ⟨(edge.shape,fact.subject,fact.retracted),⟨⟨fact,has,edge,⟨drawn,by simp⟩,rfl⟩,fits⟩,rfl⟩
  · rintro ⟨_,⟨⟨fact,has,edge,⟨drawn,ends⟩,rfl⟩,fits⟩,same⟩
    cases same
    refine ⟨fact,⟨has,rfl⟩,edge,⟨drawn,fits⟩,?_⟩
    rw [show edge.object = y by simpa using ends]

-- And along what it names.
theorem alongNamed_reverse (homed : Homed ctx) {x y : EntityId} {source : List Fact} {kind link : Link}
    {targets : Fact → List EntityId} {retracted : Bool} :
    (⟨link,.out,retracted⟩,y) ∈ alongNamed kind targets (ctx.pointing targets) x (ctx.facts x) .out ↔
      (⟨link,.into,retracted⟩,x) ∈ alongNamed kind targets (ctx.pointing targets) y source .into := by
  simp only [alongNamed,Ctx.pointing,List.mem_flatMap,List.mem_map,List.mem_filter,mem_keepFirst_itself,mem_facts homed]
  constructor
  · rintro ⟨fact,⟨has,rfl⟩,target,names,same⟩
    cases same
    exact ⟨(fact.subject,fact.retracted),⟨fact,has,y,⟨names,by simp⟩,rfl⟩,rfl⟩
  · rintro ⟨_,⟨fact,has,_,⟨names,ends⟩,rfl⟩,same⟩
    cases same
    have is := of_decide_eq_true ends
    exact ⟨fact,⟨has,rfl⟩,_,names,by rw [is]⟩

section Relation
variable {key : Text} {heldNow : EntityId → List EntityId}

def Standing (key : Text) (fact : Fact) : Prop := fact.status ≠ .archived ∧ fact.reaching.contains key = true
instance (key : Text) (fact : Fact) : Decidable (Standing key fact) := inferInstanceAs (Decidable (_ ∧ _))

-- What a claim says of a key: the mark it is read with, and the handles.
def said (key : Text) (heldNow : EntityId → List EntityId) (fact : Fact) : Bool × List EntityId :=
  if Standing key fact then (false,heldNow fact.subject) else (fact.retracted,(fact.fieldLinks[key]?).getD [])

-- What a walk has read of its things after a claim.
def readNow (key : Text) (thingsRead : List EntityId) (fact : Fact) : List EntityId :=
  if Standing key fact then thingsRead ++ [fact.subject] else thingsRead

variable {reach : Fact → Bool → List EntityId → List (Via × EntityId)}

theorem relationLinks_cons (thingsRead : List EntityId) (fact : Fact) (rest : List Fact) :
    relationLinks key heldNow reach thingsRead (fact::rest) =
      if fact.fields.contains key = true ∧ ¬(Standing key fact ∧ fact.subject ∈ thingsRead) then
        reach fact (said key heldNow fact).1 (said key heldNow fact).2 ++
          relationLinks key heldNow reach (readNow key thingsRead fact) rest
      else relationLinks key heldNow reach thingsRead rest := by
  rw [relationLinks]
  by_cases sets : fact.fields.contains key = true
  · by_cases stands : Standing key fact
    · have stood : fact.status ≠ .archived ∧ fact.reaching.contains key = true := stands
      have own : said key heldNow fact = (false,heldNow fact.subject) := if_pos stands
      have now : readNow key thingsRead fact = thingsRead ++ [fact.subject] := if_pos stands
      rw [if_neg (not_not.mpr sets),if_pos stood,own,now]
      by_cases read : fact.subject ∈ thingsRead
      · rw [if_pos (by simpa using read),if_neg (fun both => both.2 ⟨stands,read⟩)]
      · rw [if_neg (by simpa using read),if_pos ⟨sets,fun both => read both.2⟩]
    · have fell : ¬(fact.status ≠ .archived ∧ fact.reaching.contains key = true) := stands
      have own : said key heldNow fact = (fact.retracted,(fact.fieldLinks[key]?).getD []) := if_neg stands
      have now : readNow key thingsRead fact = thingsRead := if_neg stands
      rw [if_neg (not_not.mpr sets),if_neg fell,own,now,if_pos ⟨sets,fun both => stands both.1⟩]
  · rw [if_pos sets,if_neg (fun both => sets both.1)]

-- Reading a thing once loses nothing, as each standing claim of it is read alike.
theorem mem_relationLinks (alike : ∀ fact other, fact.subject = other.subject → reach fact = reach other)
    {pair : Via × EntityId} (source : List Fact) : ∀ thingsRead,
    pair ∈ relationLinks key heldNow reach thingsRead source ↔
      ∃ fact ∈ source, fact.fields.contains key = true ∧ ¬(Standing key fact ∧ fact.subject ∈ thingsRead) ∧
        pair ∈ reach fact (said key heldNow fact).1 (said key heldNow fact).2 := by
  induction source with
  | nil => simp [relationLinks]
  | cons fact rest ih =>
    intro thingsRead
    rw [relationLinks_cons]
    split
    · rename_i drawn
      rw [List.mem_append,ih,List.exists_mem_cons_iff]
      constructor
      · rintro (first | ⟨other,has,sets,new,pairs⟩)
        · exact .inl ⟨drawn.1,drawn.2,first⟩
        · refine .inr ⟨other,has,sets,?_,pairs⟩
          intro ⟨stands,read⟩
          refine new ⟨stands,?_⟩
          unfold readNow
          split
          · exact List.mem_append_left _ read
          · exact read
      · rintro (first | ⟨other,has,sets,new,pairs⟩)
        · exact .inl first.2.2
        · by_cases again : Standing key fact ∧ Standing key other ∧ other.subject = fact.subject
          · obtain ⟨stands,stands',same⟩ := again
            have own : said key heldNow other = said key heldNow fact := by simp only [said,if_pos stands,if_pos stands',same]
            rw [own,alike other fact same] at pairs
            exact .inl pairs
          · refine .inr ⟨other,has,sets,?_,pairs⟩
            intro ⟨stands',read⟩
            unfold readNow at read
            split at read
            · rename_i stands
              rcases List.mem_append.mp read with read | is
              · exact new ⟨stands',read⟩
              · exact again ⟨stands,stands',List.mem_singleton.mp is⟩
            · exact new ⟨stands',read⟩
    · rename_i skipped
      rw [ih,List.exists_mem_cons_iff]
      constructor
      · exact .inr
      · rintro (⟨sets,new,_⟩ | later)
        · exact absurd ⟨sets,new⟩ skipped
        · exact later

theorem alongRelation_reverse (homed : Homed ctx) {x y : EntityId} {source : List Fact} {name : Text}
    {link : Link} {retracted : Bool} :
    (⟨link,.out,retracted⟩,y) ∈ ctx.alongRelation x (ctx.facts x) name .out ↔
      (⟨link,.into,retracted⟩,x) ∈ ctx.alongRelation y source name .into := by
  unfold Ctx.alongRelation
  split
  · simp
  · rename_i field _
    dsimp only
    rw [mem_relationLinks (fun _ _ _ => rfl),mem_relationLinks (fun _ _ same => by simp [same])]
    simp only [List.not_mem_nil,and_false,not_false_eq_true,true_and,mem_facts homed,mem_all homed]
    constructor
    · rintro ⟨fact,⟨has,rfl⟩,sets,drawn⟩
      obtain ⟨handle,held,same⟩ := List.mem_map.mp drawn
      cases same
      refine ⟨fact,has,sets,?_⟩
      simp [held]
    · rintro ⟨fact,has,sets,drawn⟩
      split at drawn
      · rename_i held
        cases List.mem_singleton.mp drawn
        exact ⟨fact,⟨has,rfl⟩,sets,List.mem_map.mpr ⟨y,by simpa using held,rfl⟩⟩
      · exact absurd drawn List.not_mem_nil

end Relation

theorem sameLink_alike : Equivalence sameLink :=
  ⟨fun _ => ⟨rfl,rfl⟩,fun same => ⟨same.1.symm,same.2.symm⟩,fun one other => ⟨one.1.trans other.1,one.2.trans other.2⟩⟩

def linkLe (a b : Via × EntityId) : Prop := (linkOrder a b).isLE = true

theorem linkLe_sameLink {a b : Via × EntityId} (same : sameLink a b) :
    linkLe a b ↔ (a.1.retracted = true → b.1.retracted = true) := by
  unfold linkLe linkOrder
  simp only [compareLex,compareOn,same.1,same.2,ReflCmp.compare_self,Ordering.eq_then]
  cases a.1.retracted <;> cases b.1.retracted <;> decide

theorem linkPlace_of_le {a b : Via × EntityId} (lower : linkLe a b) : (linkPlace a b).isLE = true := by
  unfold linkLe linkOrder at lower
  unfold linkPlace
  simp only [compareLex,compareOn] at lower ⊢
  cases thing : compare a.2 b.2 with
  | lt => simp
  | gt => simp [thing] at lower
  | eq =>
    rw [thing,Ordering.eq_then] at lower
    cases word : compare a.1.link.token b.1.link.token with
    | lt => simp
    | gt => simp [word] at lower
    | eq => simp

section
variable [Mentions] {follow : Follow}

-- What is read for one end of a link says so of it.
theorem connections_way {id : EntityId} {source : List Fact} {link : Via × EntityId}
    (has : link ∈ ctx.connections id source follow) : link.1.direction = follow.way := by
  have edges : ∀ shape, link ∈ ctx.alongEdge id source shape follow.way → link.1.direction = follow.way := by
    intro shape has
    cases way : follow.way with
    | out =>
      simp only [way,Ctx.alongEdge,List.mem_filterMap,Option.map_eq_some_iff] at has
      obtain ⟨_,_,_,_,rfl⟩ := has
      rfl
    | into =>
      simp only [way,Ctx.alongEdge,List.mem_map] at has
      obtain ⟨_,_,rfl⟩ := has
      rfl
  have named : ∀ kind targets by', link ∈ alongNamed kind targets by' id source follow.way →
      link.1.direction = follow.way := by
    intro kind targets by' has
    cases way : follow.way with
    | out =>
      simp only [way,alongNamed,List.mem_flatMap,List.mem_map] at has
      obtain ⟨_,_,_,_,rfl⟩ := has
      rfl
    | into =>
      simp only [way,alongNamed,List.mem_map] at has
      obtain ⟨_,_,rfl⟩ := has
      rfl
  have related : ∀ name, link ∈ ctx.alongRelation id source name follow.way → link.1.direction = follow.way := by
    intro name has
    unfold Ctx.alongRelation at has
    split at has
    · exact absurd has List.not_mem_nil
    · dsimp only at has
      split at has
      · rename_i way
        rw [mem_relationLinks (fun _ _ _ => rfl)] at has
        obtain ⟨_,_,_,_,drawn⟩ := has
        obtain ⟨_,_,rfl⟩ := List.mem_map.mp drawn
        rfl
      · rename_i way
        rw [mem_relationLinks (fun _ _ same => by simp [same])] at has
        obtain ⟨_,_,_,_,drawn⟩ := has
        split at drawn
        · rw [List.mem_singleton.mp drawn]
        · exact absurd drawn List.not_mem_nil
  unfold Ctx.connections at has
  split at has
  · exact related _ has
  · exact edges _ has
  · simp only [List.mem_append] at has
    rcases has with ((has | has) | has) | has
    · exact edges _ has
    · exact named _ _ _ has
    · exact named _ _ _ has
    · exact named _ _ _ has

theorem ranked_connections (id : EntityId) (source : List Fact) :
    Ranked sameLink linkLe (sortBy linkOrder ((ctx.connections id source follow).filter fun link =>
      (ctx.entity link.2).isSome)) := by
  have walked : ∀ link ∈ sortBy linkOrder ((ctx.connections id source follow).filter fun link =>
      (ctx.entity link.2).isSome), link ∈ ctx.connections id source follow :=
    fun link has => (List.mem_filter.mp (mem_sortBy.mp has)).1
  refine ⟨sortBy_pairwise _,?_,?_⟩
  · intro a hasA b hasB c hasC first second same
    have level : linkPlace a c = .eq := by
      simp [linkPlace,compareLex,compareOn,same.1,same.2,ReflCmp.compare_self]
    have back : (linkPlace b a).isLE = true :=
      TransCmp.isLE_trans (linkPlace_of_le second) (by rw [OrientedCmp.eq_symm level]; rfl)
    have here := OrientedCmp.isLE_antisymm (linkPlace_of_le first) back
    have placed : compare a.2 b.2 = .eq ∧ compare a.1.link.token b.1.link.token = .eq :=
      Ordering.then_eq_eq.mp here
    refine ⟨compare_eq_iff_eq.mp placed.1,?_⟩
    exact connections_told (walked a hasA) (walked b hasB) (compare_eq_iff_eq.mp placed.2)
  · intro a hasA b hasB same first second
    have marked : a.1.retracted = b.1.retracted := by
      have there := (linkLe_sameLink same).mp first
      have back := (linkLe_sameLink (sameLink_alike.symm same)).mp second
      cases mark : a.1.retracted <;> cases mark' : b.1.retracted <;> simp_all
    have way := (connections_way (walked a hasA)).trans (connections_way (walked b hasB)).symm
    obtain ⟨⟨link,direction,retracted⟩,thing⟩ := a
    obtain ⟨⟨link',direction',retracted'⟩,thing'⟩ := b
    obtain ⟨things,links⟩ := same
    simp only at marked way things links
    rw [marked,way,things,links]

-- A neighbour is a thing the scan has at the far end of a link, marked as taken back only
-- where nothing that draws the link stands.
theorem mem_neighbours {id : EntityId} {source : List Fact} {link : Link} {retracted : Bool} {thing : EntityId} :
    (⟨link,follow.way,retracted⟩,thing) ∈ ctx.neighbours id source follow ↔
      (⟨link,follow.way,retracted⟩,thing) ∈ ctx.connections id source follow ∧ (ctx.entity thing).isSome ∧
        (retracted = true → (⟨link,follow.way,false⟩,thing) ∉ ctx.connections id source follow) := by
  have refl : ∀ a, linkLe a a := fun a => (linkLe_sameLink ⟨rfl,rfl⟩).mpr fun mark => mark
  have trans : ∀ {a b c}, linkLe a b → linkLe b c → linkLe a c := TransCmp.isLE_trans
  unfold Ctx.neighbours
  rw [mem_destutter_least sameLink_alike refl trans (ranked_connections id source)]
  unfold LeastAlike
  simp only [mem_sortBy,List.mem_filter]
  constructor
  · intro ⟨⟨has,there⟩,least⟩
    refine ⟨has,there,?_⟩
    intro mark stands
    have before := least (⟨link,follow.way,false⟩,thing) ⟨stands,there⟩ ⟨rfl,rfl⟩
    have alike : sameLink (⟨link,follow.way,retracted⟩,thing) (⟨link,follow.way,false⟩,thing) := ⟨rfl,rfl⟩
    have mark' : false = true := (linkLe_sameLink alike).mp before mark
    exact Bool.false_ne_true mark'
  · intro ⟨has,there,marked⟩
    refine ⟨⟨has,there⟩,?_⟩
    intro other hasOther same
    rw [linkLe_sameLink (sameLink_alike.symm same)]
    intro mark
    cases stands : other.1.retracted with
    | true => rfl
    | false =>
      have way := connections_way hasOther.1
      obtain ⟨⟨link',direction,mark'⟩,thing'⟩ := other
      obtain ⟨things,links⟩ := same
      simp only at way things links stands
      rw [way,things,links,stands] at hasOther
      exact absurd hasOther.1 (marked mark)

theorem connections_reverse (homed : Homed ctx) {out into : Follow} (same : out.along = into.along)
    (outward : out.way = .out) (inward : into.way = .into) {x y : EntityId} {source : List Fact} {link : Link}
    {retracted : Bool} :
    (⟨link,.out,retracted⟩,y) ∈ ctx.connections x (ctx.facts x) out ↔
      (⟨link,.into,retracted⟩,x) ∈ ctx.connections y source into := by
  unfold Ctx.connections
  rw [same,outward,inward]
  split
  · exact alongRelation_reverse homed
  · exact alongEdge_reverse homed
  · simp only [List.mem_append]
    exact or_congr (or_congr (or_congr (alongEdge_reverse homed) (alongNamed_reverse homed)) (alongNamed_reverse homed))
      (alongNamed_reverse homed)

-- Walking out and walking in are reverses.
theorem walking_in_reverses_walking_out (homed : Homed ctx) {out into : Follow} (same : out.along = into.along)
    (outward : out.way = .out) (inward : into.way = .into) {x y : EntityId} (hasX : (ctx.entity x).isSome)
    (hasY : (ctx.entity y).isSome) (source : List Fact) (link : Link) (retracted : Bool) :
    (⟨link,.out,retracted⟩,y) ∈ ctx.neighbours x (ctx.facts x) out ↔
      (⟨link,.into,retracted⟩,x) ∈ ctx.neighbours y source into := by
  have drawn : ∀ mark, (⟨link,.out,mark⟩,y) ∈ ctx.connections x (ctx.facts x) out ↔
      (⟨link,.into,mark⟩,x) ∈ ctx.connections y source into :=
    fun mark => connections_reverse homed same outward inward
  have there := @mem_neighbours ctx _ out x (ctx.facts x) link retracted y
  have back := @mem_neighbours ctx _ into y source link retracted x
  rw [outward] at there
  rw [inward] at back
  rw [there,back,drawn retracted,drawn false]
  simp only [hasX,hasY]

end

-- A claim that two documents hold, and one taken back that draws the same link.
def pairScan : Ctx where
  declarations := []
  scanned :=
    [{ entity := some ⟨"person:ann".toList,"person".toList⟩,facts := [aboutFact "f1" "person:ann" "person:bob"] },
     { entity := some ⟨"person:bob".toList,"person".toList⟩
       facts := [aboutFact "f1" "person:ann" "person:bob",
        { aboutFact "f2" "person:ann" "person:bob" with status := .archived }] }]

theorem pair_homed : Homed pairScan := by
  refine ⟨?_,?_⟩
  · intro fact has
    simp only [pairScan,Ctx.written,List.flatMap_cons,List.flatMap_nil,List.append_nil,List.cons_append,
      List.nil_append,List.mem_cons,List.not_mem_nil,or_false] at has
    rcases has with rfl | rfl | rfl <;> rfl
  · intro fact has other hasOther same
    simp only [pairScan,Ctx.written,List.flatMap_cons,List.flatMap_nil,List.append_nil,List.cons_append,
      List.nil_append,List.mem_cons,List.not_mem_nil,or_false] at has hasOther
    rcases has with rfl | rfl | rfl <;> rcases hasOther with rfl | rfl | rfl <;>
      first | rfl | exact absurd same (by decide)

theorem ann_and_bob_are_linked_both_ways :
    (⟨.edge .about,.into,false⟩,"person:ann".toList) ∈
      @Ctx.neighbours noMentions pairScan "person:bob".toList [] { along := .anyEdge,direction := some .into,depth := 1 } :=
  (@walking_in_reverses_walking_out pairScan noMentions pair_homed { along := .anyEdge,depth := 1 }
    { along := .anyEdge,direction := some .into,depth := 1 } rfl rfl rfl "person:ann".toList "person:bob".toList
    rfl rfl [] (.edge .about) false).mp (by decide +kernel)

end Graph
