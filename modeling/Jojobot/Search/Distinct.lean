import Jojobot.Library.Leading

namespace Search
open Library Std

-- `compare` of the ranks, any order that may tie, and the addresses, an order that does not.
class Ranks where
  Rank : Type
  Address : Type
  Key : Type
  compare : Rank → Rank → Ordering
  addresses : Ord Address
  ranked : TransCmp compare
  placed : TransCmp addresses.compare
  apart : LawfulEqCmp addresses.compare
  keys : DecidableEq Key

section
variable [Ranks]

instance : DecidableEq Ranks.Key := Ranks.keys
instance : TransCmp Ranks.compare := Ranks.ranked
instance : TransCmp Ranks.addresses.compare := Ranks.placed
instance : LawfulEqCmp Ranks.addresses.compare := Ranks.apart

structure Winner where
  rank : Ranks.Rank
  address : Ranks.Address
  key : Option Ranks.Key

def byRank (a b : Winner) : Ordering := Ranks.compare b.rank a.rank
def byAddress (a b : Winner) : Ordering := Ranks.addresses.compare a.address b.address
def order : Winner → Winner → Ordering := compareLex byRank byAddress

structure State where
  winners : List Winner := []
  sessions : Finset Ranks.Key := ∅
  ordinary : Nat := 0

def keepAmong (limit : Nat) (winners : List Winner) (winner : Winner) : List Winner :=
  let push (winners : List Winner) := (sortBy order (winners++[winner])).take limit
  match winner.key.bind fun key => winners.findIdx? (·.key = some key) with
  | none => push winners
  | some place =>
    match winners[place]? with
    | none => winners
    | some held => if (order held winner).isLE then winners else push (winners.eraseIdx place)

def State.keep (state : State) (winner : Winner) (limit : Nat) : State :=
  { state with winners := keepAmong limit state.winners winner }

-- A segment stops at the first hit whose session cannot be read.
structure Segment (E : Type) where
  state : State := {}
  error : Option E := none

variable {E : Type}

def Segment.collect (segment : Segment E) (limit : Nat) (rank : Ranks.Rank) (address : Ranks.Address)
    (key : Except E (Option Ranks.Key)) : Segment E :=
  if segment.error.isSome then segment
  else
    match key with
    | .error e => { segment with error := some e }
    | .ok (some key) =>
      { segment with state := { segment.state with sessions := insert key segment.state.sessions }.keep ⟨rank,address,some key⟩ limit }
    | .ok none =>
      { segment with state := { segment.state with ordinary := segment.state.ordinary+1 }.keep ⟨rank,address,none⟩ limit }

def Segment.harvest (segment : Segment E) : Except E State :=
  match segment.error with
  | some e => .error e
  | none => .ok segment.state

def State.add (limit : Nat) (combined state : State) : State :=
  state.winners.foldl (fun combined winner => combined.keep winner limit)
    { combined with sessions := combined.sessions ∪ state.sessions, ordinary := combined.ordinary+state.ordinary }

def mergeFruits (limit : Nat) (fruits : List (Except E State)) : Except E (List (Ranks.Rank × Ranks.Address) × Nat) := do
  let combined ← fruits.foldlM (fun (combined : State) fruit => return combined.add limit (← fruit)) {}
  return (combined.winners.map fun winner => (winner.rank,winner.address),combined.ordinary+combined.sessions.card)

-- One segment fed its hits, each with the session it reads.
def segmentOf (limit : Nat) (hits : List Winner) : Segment E :=
  hits.foldl (fun segment hit => segment.collect limit hit.rank hit.address (.ok hit.key)) {}

instance : TransCmp byRank where
  eq_swap := by
    intro _ _
    exact @OrientedCmp.eq_swap _ Ranks.compare _ _ _
  isLE_trans first second := @TransCmp.isLE_trans _ Ranks.compare _ _ _ _ second first

instance : TransCmp byAddress where
  eq_swap := by
    intro _ _
    exact @OrientedCmp.eq_swap _ Ranks.addresses.compare _ _ _
  isLE_trans first second := @TransCmp.isLE_trans _ Ranks.addresses.compare _ _ _ _ first second

instance : TransCmp order := inferInstanceAs (TransCmp (compareLex byRank byAddress))

variable {hits winners : List Winner} {hit held x : Winner} {limit place : Nat}

def Addressed (hits : List Winner) : Prop := (hits.map Winner.address).Nodup

theorem Addressed.apart (addressed : Addressed hits) : Apart order hits := by
  refine (List.pairwise_map.mp addressed).imp ?_
  intro a b differ same
  unfold order at same
  exact differ (LawfulEqCmp.eq_of_compare (compareLex_eq_eq.mp same).2)

-- What a list that is served holds: a strict order of at most so many, each its own.
structure Served (limit : Nat) (winners : List Winner) : Prop where
  strict : winners.Pairwise fun a b => order a b = .lt
  own : ∀ a ∈ winners, ∀ b ∈ winners, slot Winner.key a = slot Winner.key b → a = b
  short : winners.length ≤ limit

theorem leading_served (apart : Apart order hits) (limit : Nat) : Served limit (leading order Winner.key limit hits) where
  strict := leading_strict apart
  own a inA b inB same := by
    have firstA := (mem_firsts apart).mp (List.mem_of_mem_take inA)
    have firstB := (mem_firsts apart).mp (List.mem_of_mem_take inB)
    exact apart.eq firstA.1 firstB.1 (firstA.2 b firstB.1 same.symm) (firstB.2 a firstA.1 same)
  short := List.length_take_le _ _

theorem held_at (found : (hit.key.bind fun key => winners.findIdx? (·.key = some key)) = some place) :
    ∃ held key, winners[place]? = some held ∧ hit.key = some key ∧ held.key = some key := by
  obtain ⟨key,named,found⟩ := Option.bind_eq_some_iff.mp found
  obtain ⟨inside,same,_⟩ := List.findIdx?_eq_some_iff_getElem.mp found
  exact ⟨_,key,List.getElem?_eq_getElem inside,named,by simpa using same⟩

theorem none_held (missing : (hit.key.bind fun key => winners.findIdx? (·.key = some key)) = none)
    (fresh : hit ∉ winners) : ∀ x ∈ winners, slot Winner.key x ≠ slot Winner.key hit := by
  intro x inside same
  rcases slot_eq.mp same with rfl | ⟨key,mine,named⟩
  · exact fresh inside
  · rw [named,Option.bind_some,List.findIdx?_eq_none_iff] at missing
    simpa [mine] using missing x inside

-- A hit of a session nothing served shows is put among the served.
theorem firsts_pushed (served : Served limit winners) (apart : Apart order (winners++[hit]))
    (alone : ∀ x ∈ winners, slot Winner.key x ≠ slot Winner.key hit) :
    firsts order Winner.key (winners++[hit]) = sortBy order (winners++[hit]) := by
  refine strict_ext (firsts_strict apart) (sortBy_strict apart) fun x => ?_
  rw [mem_firsts apart,mem_sortBy]
  refine ⟨fun both => both.1,fun inside => ⟨inside,fun y within same => ?_⟩⟩
  have equal : y = x := by
    simp only [List.mem_append,List.mem_singleton] at inside within
    rcases inside with inX | rfl
    · rcases within with inY | rfl
      · exact served.own y inY x inX same
      · exact absurd same.symm (alone x inX)
    · rcases within with inY | rfl
      · exact absurd same (alone y inY)
      · rfl
  rw [equal]
  exact isLE_self x

-- A hit no better than the one its session shows changes nothing.
theorem firsts_refused (served : Served limit winners) (apart : Apart order (winners++[hit])) (inside : held ∈ winners)
    (alike : slot Winner.key held = slot Winner.key hit) (better : (order held hit).isLE = true) :
    firsts order Winner.key (winners++[hit]) = winners := by
  refine strict_ext (firsts_strict apart) served.strict fun x => ?_
  rw [mem_firsts apart,List.mem_append,List.mem_singleton]
  constructor
  · intro both
    obtain ⟨either,lowest⟩ := both
    rcases either with inX | rfl
    · exact inX
    · have above := lowest held (List.mem_append_left _ inside) alike
      have same := apart.eq (List.mem_append_left _ inside) (List.mem_append_right _ (List.mem_singleton_self _)) better above
      rw [← same]
      exact inside
  · intro inX
    refine ⟨Or.inl inX,fun y within same => ?_⟩
    rcases List.mem_append.mp within with inY | last
    · rw [served.own y inY x inX same]
      exact isLE_self x
    · obtain rfl := List.mem_singleton.mp last
      rw [served.own x inX held inside (same.symm.trans alike.symm)]
      exact better

theorem firsts_replaced (served : Served limit winners) (apart : Apart order (winners++[hit])) (found : winners[place]? = some held)
    (alike : slot Winner.key held = slot Winner.key hit) (better : order hit held = .lt) :
    firsts order Winner.key (winners++[hit]) = sortBy order (winners.eraseIdx place++[hit]) := by
  have inside := List.mem_of_getElem? found
  have apartLess : Apart order (winners.eraseIdx place++[hit]) :=
    apart.sublist ((List.eraseIdx_sublist _ _).append (List.Sublist.refl _))
  have kept (x : Winner) : x ∈ winners.eraseIdx place ↔ x ∈ winners ∧ x ≠ held := by
    rw [List.mem_eraseIdx_iff_getElem?]
    constructor
    · intro some'
      obtain ⟨i,other,foundX⟩ := some'
      refine ⟨List.mem_of_getElem? foundX,?_⟩
      rintro rfl
      have bound := (List.getElem?_eq_some_iff.mp foundX).1
      exact other ((List.getElem?_inj bound (strict_nodup served.strict)).mp (foundX.trans found.symm))
    · intro both
      obtain ⟨inX,differ⟩ := both
      obtain ⟨i,foundX⟩ := List.getElem?_of_mem inX
      refine ⟨i,?_,foundX⟩
      rintro rfl
      exact differ (Option.some.inj (foundX.symm.trans found))
  refine strict_ext (firsts_strict apart) (sortBy_strict apartLess) fun x => ?_
  rw [mem_firsts apart,mem_sortBy,List.mem_append,List.mem_append,List.mem_singleton,kept]
  constructor
  · intro both
    obtain ⟨either,lowest⟩ := both
    rcases either with inX | last
    · refine Or.inl ⟨inX,?_⟩
      rintro rfl
      exact not_isLE_of_lt better (lowest hit (List.mem_append_right _ (List.mem_singleton_self _)) alike.symm)
    · exact Or.inr last
  · intro either
    rcases either with ⟨inX,differ⟩ | rfl
    · refine ⟨Or.inl inX,fun y within same => ?_⟩
      rcases List.mem_append.mp within with inY | last
      · rw [served.own y inY x inX same]
        exact isLE_self x
      · obtain rfl := List.mem_singleton.mp last
        exact absurd (served.own x inX held inside (same.symm.trans alike.symm)) differ
    · refine ⟨Or.inr rfl,fun y within same => ?_⟩
      rcases List.mem_append.mp within with inY | last
      · rw [served.own y inY held inside (same.trans alike.symm),better]
        rfl
      · obtain rfl := List.mem_singleton.mp last
        exact isLE_self _

theorem keepAmong_served (served : Served limit winners) (apart : Apart order (winners++[hit])) (fresh : hit ∉ winners) :
    keepAmong limit winners hit = leading order Winner.key limit (winners++[hit]) := by
  unfold keepAmong leading
  cases found : hit.key.bind fun key => winners.findIdx? (·.key = some key) with
  | none => rw [firsts_pushed served apart (none_held found fresh)]
  | some place =>
    obtain ⟨held,key,at',named,same⟩ := held_at found
    have alike : slot Winner.key held = slot Winner.key hit := slot_eq.mpr (Or.inr ⟨key,same,named⟩)
    simp only [at']
    by_cases better : (order held hit).isLE = true
    · rw [if_pos better,firsts_refused served apart (List.mem_of_getElem? at') alike better,
        List.take_of_length_le served.short]
    · rw [if_neg better,firsts_replaced served apart at' alike (lt_of_not_isLE better)]

-- What is served of the hits so far stays the head of their order, one hit after another.
theorem keepAmong_leading (addressed : Addressed (hits++[hit])) (limit : Nat) :
    keepAmong limit (leading order Winner.key limit hits) hit = leading order Winner.key limit (hits++[hit]) := by
  classical
  have apart := addressed.apart
  have before : Apart order hits := apart.sublist (List.sublist_append_left _ _)
  have fresh : hit ∉ hits := by
    intro inside
    unfold Addressed at addressed
    rw [List.map_append,List.nodup_append] at addressed
    exact addressed.2.2 _ (List.mem_map_of_mem inside) _ (by simp) rfl
  have fewer : leading order Winner.key limit hits++[hit] ⊆ hits++[hit] := by
    intro x inside
    rcases List.mem_append.mp inside with within | last
    · exact List.mem_append_left _ (leading_subset within)
    · exact List.mem_append_right _ last
  have apartLess : Apart order (leading order Winner.key limit hits++[hit]) := by
    refine List.pairwise_append.mpr ⟨(leading_strict before).imp fun less => by simp [less],List.pairwise_singleton _ _,?_⟩
    intro a inA b inB
    exact (List.pairwise_append.mp apart).2.2 a (leading_subset inA) b inB
  rw [keepAmong_served (leading_served before limit) apartLess fun inside => fresh (leading_subset inside)]
  refine leading_between apartLess apart fewer fun x leads => ?_
  rcases List.mem_append.mp (leading_subset leads) with within | last
  · exact List.mem_append_left _ (leading_mono before apart (List.subset_append_left _ _) within leads)
  · exact List.mem_append_right _ last

theorem keeps_leading {more : List Winner} (addressed : Addressed (hits++more)) (limit : Nat) :
    more.foldl (keepAmong limit) (leading order Winner.key limit hits) = leading order Winner.key limit (hits++more) := by
  induction more generalizing hits with
  | nil => simp
  | cons hit more ih =>
    rw [List.append_cons] at addressed ⊢
    have first : Addressed (hits++[hit]) := by
      unfold Addressed at addressed ⊢
      rw [List.map_append] at addressed
      exact (List.nodup_append.mp addressed).1
    rw [List.foldl_cons,keepAmong_leading first]
    exact ih addressed

def ordinaryHits (hits : List Winner) : Nat := hits.countP (·.key.isNone)
def sessionsOf (hits : List Winner) : Finset Ranks.Key := (hits.filterMap Winner.key).toFinset

-- What a segment holds once it was fed so many hits.
def stateOf (limit : Nat) (hits : List Winner) : State where
  winners := leading order Winner.key limit hits
  sessions := sessionsOf hits
  ordinary := ordinaryHits hits

theorem collect_stateOf (addressed : Addressed (hits++[hit])) (limit : Nat) :
    (Segment.collect ⟨stateOf limit hits,none⟩ limit hit.rank hit.address (.ok hit.key) : Segment E) =
      ⟨stateOf limit (hits++[hit]),none⟩ := by
  have kept := keepAmong_leading addressed limit
  obtain ⟨rank,address,key⟩ := hit
  unfold Segment.collect
  rw [if_neg (by simp)]
  cases key with
  | none => simp [State.keep,stateOf,kept,sessionsOf,ordinaryHits]
  | some key =>
    have both : insert key (sessionsOf hits) = sessionsOf (hits++[⟨rank,address,some key⟩]) := by
      simp [sessionsOf,List.toFinset_append,Finset.union_comm]
    simp [State.keep,stateOf,kept,both,ordinaryHits]

theorem segmentOf_harvest (addressed : Addressed hits) (limit : Nat) :
    (segmentOf limit hits : Segment E).harvest = .ok (stateOf limit hits) := by
  have run (before more : List Winner) (addressed : Addressed (before++more)) :
      more.foldl (fun segment hit => Segment.collect segment limit hit.rank hit.address (.ok hit.key))
        (⟨stateOf limit before,none⟩ : Segment E) = ⟨stateOf limit (before++more),none⟩ := by
    induction more generalizing before with
    | nil => simp
    | cons hit more ih =>
      rw [List.append_cons] at addressed ⊢
      have first : Addressed (before++[hit]) := by
        unfold Addressed at addressed ⊢
        rw [List.map_append] at addressed
        exact (List.nodup_append.mp addressed).1
      rw [List.foldl_cons,collect_stateOf first]
      exact ih _ addressed
  have whole := run [] hits addressed
  unfold Segment.harvest
  have start : (⟨stateOf limit [],none⟩ : Segment E) = {} := by
    simp [stateOf,leading,firsts,sortBy,keepFirst,sessionsOf,ordinaryHits]
  rw [start] at whole
  rw [segmentOf,whole]
  rfl

theorem add_winners (limit : Nat) (combined state : State) :
    (combined.add limit state).winners = state.winners.foldl (keepAmong limit) combined.winners ∧
      (combined.add limit state).sessions = combined.sessions ∪ state.sessions ∧
      (combined.add limit state).ordinary = combined.ordinary+state.ordinary := by
  unfold State.add
  generalize combined.sessions ∪ state.sessions = sessions
  generalize combined.ordinary+state.ordinary = ordinary
  have run (more : List Winner) (winners : List Winner) :
      more.foldl (fun combined winner => State.keep combined winner limit) ⟨winners,sessions,ordinary⟩ =
        ⟨more.foldl (keepAmong limit) winners,sessions,ordinary⟩ := by
    induction more generalizing winners with
    | nil => rfl
    | cons winner more ih => exact ih _
  rw [show ({ combined with sessions := sessions, ordinary := ordinary } : State) = ⟨combined.winners,sessions,ordinary⟩ from rfl,run]
  exact ⟨rfl,rfl,rfl⟩

theorem merge_runs (limit : Nat) (segments : List (List Winner)) (addressed : Addressed segments.flatten) :
    mergeFruits limit (segments.map fun hits => (segmentOf limit hits : Segment E).harvest) =
      .ok ((((segments.flatMap (leading order Winner.key limit)).foldl (keepAmong limit) []).map fun winner =>
        (winner.rank,winner.address)),ordinaryHits segments.flatten+(sessionsOf segments.flatten).card) := by
  have run (more : List (List Winner)) (addressed : Addressed more.flatten) (combined : State) :
      ∃ last, (more.map fun hits => (segmentOf limit hits : Segment E).harvest).foldlM
          (fun (combined : State) fruit => return combined.add limit (← fruit)) combined = .ok last ∧
        last.winners = (more.flatMap (leading order Winner.key limit)).foldl (keepAmong limit) combined.winners ∧
        last.sessions = combined.sessions ∪ sessionsOf more.flatten ∧
        last.ordinary = combined.ordinary+ordinaryHits more.flatten := by
    induction more generalizing combined with
    | nil => exact ⟨combined,rfl,rfl,by simp [sessionsOf],by simp [ordinaryHits]⟩
    | cons hits more ih =>
      unfold Addressed at addressed
      rw [List.flatten_cons,List.map_append,List.nodup_append] at addressed
      obtain ⟨last,ran,winners,sessions,ordinary⟩ := ih addressed.2.1 (combined.add limit (stateOf limit hits))
      obtain ⟨addWinners,addSessions,addOrdinary⟩ := add_winners limit combined (stateOf limit hits)
      refine ⟨last,?_,?_,?_,?_⟩
      · rw [List.map_cons,List.foldlM_cons,segmentOf_harvest addressed.1]
        exact ran
      · rw [winners,addWinners,List.flatMap_cons,List.foldl_append]
        rfl
      · rw [sessions,addSessions,List.flatten_cons]
        simp [stateOf,sessionsOf,List.toFinset_append,Finset.union_assoc]
      · rw [ordinary,addOrdinary,List.flatten_cons]
        simp [stateOf,ordinaryHits,Nat.add_assoc]
  obtain ⟨last,ran,winners,sessions,ordinary⟩ := run segments addressed {}
  unfold mergeFruits
  rw [ran]
  simp [bind,Except.bind,pure,Except.pure,winners,sessions,ordinary]

theorem leading_addressed (addressed : Addressed hits) (limit : Nat) : Addressed (leading order Winner.key limit hits) := by
  have sorted : Addressed (sortBy order hits) := ((sortBy_perm order hits).map _).nodup_iff.mpr addressed
  exact sorted.sublist (((List.take_sublist _ _).trans (keepFirst_sublist _ _ _)).map _)

theorem flatMap_addressed {segments : List (List Winner)} (addressed : Addressed segments.flatten) (limit : Nat) :
    Addressed (segments.flatMap (leading order Winner.key limit)) := by
  have parts := List.pairwise_flatten.mp (List.pairwise_map.mp addressed)
  refine List.pairwise_map.mpr (List.pairwise_flatMap.mpr ⟨?_,?_⟩)
  · intro segment inside
    exact List.pairwise_map.mp (leading_addressed (List.pairwise_map.mpr (parts.1 segment inside)) limit)
  · refine parts.2.imp ?_
    intro first second differ a inA b inB
    exact differ a (leading_subset inA) b (leading_subset inB)

-- Each segment hands on what leads it, and what leads all of them is among it.
theorem merged_winners {segments : List (List Winner)} (addressed : Addressed hits) (split : segments.flatten.Perm hits)
    (limit : Nat) : (segments.flatMap (leading order Winner.key limit)).foldl (keepAmong limit) [] =
      leading order Winner.key limit hits := by
  classical
  have flat : Addressed segments.flatten := (split.map _).nodup_iff.mpr addressed
  have handed := flatMap_addressed flat limit
  have none : leading order Winner.key limit ([] : List Winner) = [] := by simp [leading,firsts,sortBy,keepFirst]
  have run := @keeps_leading _ [] (segments.flatMap (leading order Winner.key limit)) handed limit
  rw [none,List.nil_append] at run
  rw [run]
  refine leading_between handed.apart addressed.apart ?_ ?_
  · intro x inside
    obtain ⟨segment,within,leads⟩ := List.mem_flatMap.mp inside
    exact split.subset (List.mem_flatten.mpr ⟨segment,within,leading_subset leads⟩)
  · intro x leads
    obtain ⟨segment,within,inside⟩ := List.mem_flatten.mp (split.symm.subset (leading_subset leads))
    have own : Addressed segment := List.pairwise_map.mpr ((List.pairwise_flatten.mp (List.pairwise_map.mp flat)).1 segment within)
    refine List.mem_flatMap.mpr ⟨segment,within,leading_mono own.apart addressed.apart ?_ inside leads⟩
    intro y inY
    exact split.subset (List.mem_flatten.mpr ⟨segment,within,inY⟩)

-- Every hit without a key and the first hit of each key, in the order of all hits.
def wholeOrder (hits : List Winner) : List (Ranks.Rank × Ranks.Address) :=
  (keepFirst Winner.key [] (sortBy order hits)).map fun winner => (winner.rank,winner.address)

theorem a_page_is_the_head_of_the_order {segments : List (List Winner)} (addressed : Addressed hits)
    (split : segments.flatten.Perm hits) (limit : Nat) :
    mergeFruits limit (segments.map fun segment => (segmentOf limit segment : Segment E).harvest) =
        .ok ((wholeOrder hits).take limit,ordinaryHits hits+(sessionsOf hits).card) ∧
      ∀ larger, limit ≤ larger → ∃ page longer total,
        mergeFruits limit (segments.map fun segment => (segmentOf limit segment : Segment E).harvest) = .ok (page,total) ∧
        mergeFruits larger (segments.map fun segment => (segmentOf larger segment : Segment E).harvest) = .ok (longer,total) ∧
        page <+: longer := by
  have flat : Addressed segments.flatten := (split.map _).nodup_iff.mpr addressed
  have merged (limit : Nat) :
      mergeFruits limit (segments.map fun segment => (segmentOf limit segment : Segment E).harvest) =
        .ok ((wholeOrder hits).take limit,ordinaryHits hits+(sessionsOf hits).card) := by
    have ordinary : ordinaryHits segments.flatten = ordinaryHits hits := split.countP_eq _
    have sessions : sessionsOf segments.flatten = sessionsOf hits := by
      ext key
      simp only [sessionsOf,List.mem_toFinset]
      exact (split.filterMap _).mem_iff
    rw [merge_runs limit segments flat,merged_winners addressed split limit,ordinary,sessions,wholeOrder,← List.map_take]
    rfl
  refine ⟨merged limit,fun larger more => ⟨_,_,_,merged limit,merged larger,?_⟩⟩
  exact List.take_prefix_take_left more

end

@[reducible] def wholeRanks : Ranks where
  Rank := Nat
  Address := Nat
  Key := Nat
  compare := compare
  addresses := inferInstance
  ranked := inferInstance
  placed := inferInstance
  apart := inferInstance
  keys := inferInstance

def hitAt (rank address : Nat) (key : Option Nat) : @Winner wholeRanks := @Winner.mk wholeRanks rank address key

-- Two beats of one session in two segments, and a claim between them.
theorem a_beat_is_shown_once :
    @mergeFruits wholeRanks Unit 2 ([[hitAt 1 0 (some 7),hitAt 2 1 none],[hitAt 3 2 (some 7)]].map fun segment =>
      @Segment.harvest wholeRanks Unit (@segmentOf wholeRanks Unit 2 segment)) = .ok ([((3 : Nat),(2 : Nat)),((2 : Nat),(1 : Nat))],2) := by
  have page := (@a_page_is_the_head_of_the_order wholeRanks Unit [hitAt 1 0 (some 7),hitAt 2 1 none,hitAt 3 2 (some 7)]
    [[hitAt 1 0 (some 7),hitAt 2 1 none],[hitAt 3 2 (some 7)]] (show ([0,1,2] : List Nat).Nodup by decide) (List.Perm.refl _) 2).1
  rw [page]
  rfl

end Search
