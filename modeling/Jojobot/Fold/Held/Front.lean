import Jojobot.Fold.Held.Answers

namespace Fold
open Library Memory Std

variable [Scalars] {held : Held} {types : List DeclaredType} {current : EntityId → Option Fields}
  {k stop : Nat} {counts : EntityId → Bool} {direction : Direction}

abbrev Group := Orderable × Holders
abbrev Placed := List (EntityId × Orderable)

-- What one group puts in front when it is reached.
def counted (counts : EntityId → Bool) (group : Group) : Placed :=
  if group.1.inOrder then (group.2.toList.filter counts).map (·,group.1) else []

def flat (counts : EntityId → Bool) (groups : List Group) : Placed := groups.flatMap (counted counts)

def places (placed : Placed) : List Orderable := placed.map (·.2)

-- Where a head of `k` is cut: past the last tie of the `k`th, and at no tie.
structure CutAt (places : List Orderable) (k stop : Nat) : Prop where
  enough : min k places.length ≤ stop
  within : stop ≤ places.length
  ties : ∀ i, min k places.length ≤ i → i < stop → 0 < i ∧ tied places i = true
  ends : tied places stop = false ∨ stop = 0

theorem CutAt.pastTies {places : List Orderable} (cut : CutAt places k stop) :
    pastTies places places.length (min k places.length) = stop :=
  pastTies_eq cut.enough cut.ties cut.ends (Nat.le_trans cut.within (Nat.le_add_left ..))

theorem mem_counted {group : Group} {one : EntityId × Orderable} (member : one ∈ counted counts group) :
    one.2 = group.1 := by
  rw [counted] at member
  split at member
  · obtain ⟨id,_,rfl⟩ := List.mem_map.mp member; rfl
  · cases member

theorem mem_flat {groups : List Group} {id : EntityId} {read : Orderable} : (id,read) ∈ flat counts groups ↔
    read.inOrder = true ∧ counts id = true ∧ ∃ holders, (read,holders) ∈ groups ∧ id ∈ holders := by
  simp only [flat,counted,List.mem_flatMap]
  constructor
  · rintro ⟨⟨place,holders⟩,member,given⟩
    dsimp only at given
    split at given
    · obtain ⟨other,kept,same⟩ := List.mem_map.mp given
      cases same
      rw [List.mem_filter,ExtTreeSet.mem_toList] at kept
      exact ⟨‹_›,kept.2,holders,member,kept.1⟩
    · cases given
  · rintro ⟨ordered,counted,holders,member,there⟩
    refine ⟨(read,holders),member,?_⟩
    simpa [ordered,ExtTreeSet.mem_toList] using ⟨there,counted⟩

theorem tied_append {one two : List Orderable} {i : Nat} (inside : i < one.length) :
    tied (one ++ two) i = tied one i := by
  rw [tied,tied,List.getElem?_append_left inside,List.getElem?_append_left (by omega)]

theorem tied_same {here : List Orderable} {place : Orderable} {i : Nat} (last : here[i]? = some place)
    (before : here[i-1]? = some place) : tied here i = true := by
  simp [tied,last,before]

theorem tied_end (here : List Orderable) : tied here here.length = false := by
  simp [tied]

-- No tie crosses from one group to the next, since a place is the key of one group only.
theorem tied_between (one two : List Orderable) (apart : ∀ a ∈ one, ∀ b ∈ two, a ≠ b) :
    tied (one ++ two) one.length = false ∨ one.length = 0 := by
  by_cases empty : one.length = 0
  · exact .inr empty
  left
  rw [tied,List.getElem?_append_right (Nat.le_refl _),List.getElem?_append_left (by omega),Nat.sub_self]
  cases there : two[0]? with
  | none => rfl
  | some b =>
    cases last : one[one.length-1]? with
    | none => rfl
    | some a =>
      have differ := apart a (List.mem_of_getElem? last) b (List.mem_of_getElem? there)
      simpa using fun same => differ (LawfulEqOrd.eq_of_compare same).symm

theorem frontLoop_cut (k : Nat) (counts : EntityId → Bool) (groups : List Group) (placed : Placed)
    (apart : ∀ one ∈ placed, ∀ group ∈ groups, one.2 ≠ group.1) (each : groups.Pairwise (·.1 ≠ ·.1))
    (ties : ∀ i, k ≤ i → i < placed.length → 0 < i ∧ tied (places placed) i = true) :
    ∃ stop, CutAt (places (placed ++ flat counts groups)) k stop ∧
      frontLoop k counts placed groups =
        ⟨(placed ++ flat counts groups).take stop,stop < (placed ++ flat counts groups).length⟩ := by
  induction groups generalizing placed with
  | nil =>
    refine ⟨placed.length,⟨?_,?_,?_,?_⟩,?_⟩
    · simp [places,flat]
    · simp [places,flat]
    · simpa [places,flat] using fun i (low : k ≤ i ∨ _) inside => ties i (by omega) inside
    · left
      simpa [places,flat] using tied_end (places placed)
    · simp [frontLoop,flat]
  | cons group rest ih =>
    obtain ⟨place,holders⟩ := group
    rw [List.pairwise_cons] at each
    have later : ∀ one ∈ placed, ∀ group ∈ rest, one.2 ≠ group.1 :=
      fun one member group there => apart one member group (List.mem_cons_of_mem _ there)
    have skipped : counted counts (place,holders) = [] →
        flat counts ((place,holders)::rest) = flat counts rest := by
      intro none
      rw [flat,List.flatMap_cons,none,List.nil_append,flat]
    rw [frontLoop]
    by_cases ordered : place.inOrder = true
    swap
    · rw [skipped (by simp [counted,ordered]),if_pos (by simp [ordered])]
      exact ih placed later each.2 ties
    rw [if_neg (by simp [ordered])]
    dsimp only
    by_cases none : holders.toList.filter counts = []
    · rw [skipped (by simp [counted,none]),if_pos (by simp [none])]
      exact ih placed later each.2 ties
    rw [if_neg (by simpa using none)]
    have group : counted counts (place,holders) = (holders.toList.filter counts).map (·,place) := by
      simp [counted,ordered]
    have whole : flat counts ((place,holders)::rest) = counted counts (place,holders) ++ flat counts rest := by
      rw [flat,List.flatMap_cons,flat]
    by_cases full : k ≤ placed.length
    · rw [if_pos full]
      refine ⟨placed.length,⟨?_,?_,?_,?_⟩,?_⟩
      · simp [places]; omega
      · simp [places]
      · intro i low inside
        have here := ties i (by simp [places] at low; omega) inside
        refine ⟨here.1,?_⟩
        rw [places,List.map_append,tied_append (by simpa using inside)]
        exact here.2
      · have crossing := tied_between (places placed) (places (flat counts ((place,holders)::rest))) ?_
        · simpa [places] using crossing
        · intro a inA b inB
          obtain ⟨one,member,rfl⟩ := List.mem_map.mp inA
          obtain ⟨other,there,rfl⟩ := List.mem_map.mp inB
          obtain ⟨group,among,given⟩ := List.mem_flatMap.mp there
          rw [mem_counted given]
          exact apart one member group among
      · rw [List.take_append_of_le_length (Nat.le_refl _),List.take_length,whole,group]
        have more : 0 < ((holders.toList.filter counts).map (·,place)).length := by
          simpa using List.length_pos_iff.mpr none
        simp only [List.length_append,Front.mk.injEq,true_and]
        exact (decide_eq_true (by omega)).symm
    · rw [if_neg full,whole,← List.append_assoc,← group]
      refine ih (placed ++ counted counts (place,holders)) ?_ each.2 ?_
      · intro one member next there
        rcases List.mem_append.mp member with member | member
        · exact later one member next there
        · rw [mem_counted member]
          exact each.1 next there
      · intro i low inside
        have at_place : ∀ j, placed.length ≤ j → j < (placed ++ counted counts (place,holders)).length →
            (places (placed ++ counted counts (place,holders)))[j]? = some place := by
          intro j after before
          obtain ⟨one,found⟩ : ∃ one, (counted counts (place,holders))[j-placed.length]? = some one :=
            ⟨_,List.getElem?_eq_getElem (by rw [List.length_append] at before; omega)⟩
          rw [places,List.getElem?_map,List.getElem?_append_right after,found]
          exact congrArg some (mem_counted (List.mem_of_getElem? found))
        exact ⟨by omega,tied_same (at_place i (by omega) inside) (at_place (i-1) (by omega) (by omega))⟩

-- The counted things that have a place in the order of the key, in listing order.
def placedThings (documents : ExtTreeMap EntityId Fields) (counts : EntityId → Bool) (key : Text)
    (holds : ValueType) : List (Orderable × EntityId × Text) :=
  documents.toList.filterMap fun (id,fields) =>
    if counts id then (fields[key]?).bind fun on => (Orderable.readToOrder holds on).map fun read => (read,id,on)
    else none

variable {documents : ExtTreeMap EntityId Fields} {key : Text} {holds : ValueType} {placing : Placing}
  {things : List (Orderable × EntityId × Text)} {groups : List Group}

theorem mem_placedThings {thing : Orderable × EntityId × Text} :
    thing ∈ placedThings documents counts key holds ↔ counts thing.2.1 = true ∧
      valueNow (documents[·]?) thing.2.1 key = some thing.2.2 ∧
      Orderable.readToOrder holds thing.2.2 = some thing.1 := by
  obtain ⟨read,id,on⟩ := thing
  simp only [placedThings,List.mem_filterMap,Prod.exists,ExtTreeMap.mem_toList_iff_getElem?_eq_some,valueNow_iff]
  constructor
  · rintro ⟨other,fields,there,given⟩
    split at given
    · obtain ⟨held,found,given⟩ := Option.bind_eq_some_iff.mp given
      obtain ⟨place,reads,same⟩ := Option.map_eq_some_iff.mp given
      cases same
      exact ⟨‹_›,⟨fields,there,found⟩,reads⟩
    · cases given
  · rintro ⟨counted,⟨fields,there,found⟩,reads⟩
    exact ⟨id,fields,there,by simp [counted,found,reads]⟩

theorem placedThings_once : ((placedThings documents counts key holds).map (·.2.1)).Nodup := by
  rw [placedThings,List.map_filterMap]
  refine List.Pairwise.filterMap _ ?_ documents.distinct_keys_toList
  intro one other apart a first b second same
  have of : ∀ (filed : EntityId × Fields) (id : EntityId), (Option.map (fun x : Orderable × EntityId × Text => x.2.1)
      (if counts filed.1 then (filed.2[key]?).bind fun on =>
        (Orderable.readToOrder holds on).map fun read => (read,filed.1,on) else none)) = some id → id = filed.1 := by
    intro filed id found
    obtain ⟨thing,given,rfl⟩ := Option.map_eq_some_iff.mp found
    split at given
    · obtain ⟨held,_,given⟩ := Option.bind_eq_some_iff.mp given
      obtain ⟨_,_,rfl⟩ := Option.map_eq_some_iff.mp given
      rfl
    · cases given
  refine apart ?_
  rw [← of one a first,← of other b second,same]
  exact ReflCmp.compare_self

theorem readToOrder_iff {on : Text} {read : Orderable} : Orderable.readToOrder holds on = some read ↔
    Orderable.read holds on = some read ∧ read.inOrder = true := by
  rw [Orderable.readToOrder,Option.filter_eq_some_iff]

-- The groups in their order, flattened, are the placed things in theirs.
theorem flat_sorted (counts : EntityId → Bool) (strict : groups.Pairwise fun a b => byValue direction a.1 b.1 = .lt) :
    ((flat counts groups).map Prod.swap).Pairwise fun a b => byPlace direction a b = .lt := by
  rw [List.pairwise_map,flat,List.pairwise_flatMap]
  constructor
  · intro group _
    rw [counted]
    split
    · rw [List.pairwise_map]
      refine (ExtTreeSet.ordered_toList.filter counts).imp ?_
      intro a b less
      simp [byPlace,less,byValue_self]
    · exact List.Pairwise.nil
  · refine strict.imp ?_
    intro a b less one first other second
    simp only [byPlace,Prod.fst_swap,mem_counted first,mem_counted second,less,Ordering.then]

theorem headOf_flat (strict : groups.Pairwise fun a b => byValue direction a.1 b.1 = .lt)
    (once : (things.map (·.2.1)).Nodup)
    (same : ∀ read id, (∃ on, (read,id,on) ∈ things) ↔ (id,read) ∈ flat counts groups)
    (cut : CutAt (places (flat counts groups)) k stop) :
    (headOf things direction k).cut = decide (stop < (flat counts groups).length) ∧
      ∃ sorted : List (Orderable × EntityId × Text), sorted.Perm things ∧
        sorted.map (fun thing => (thing.2.1,thing.1)) = flat counts groups ∧
        (headOf things direction k).head = (sorted.take stop).map (·.2) := by
  have ordered := flat_sorted counts strict
  let pair : Orderable × EntityId × Text → Orderable × EntityId := fun thing => (thing.1,thing.2.1)
  have members : ((flat counts groups).map Prod.swap).Perm (things.map pair) := by
    refine (List.perm_ext_iff_of_nodup ?_ ?_).mpr ?_
    · exact ordered.imp fun less same => by
        rw [same,byPlace_self] at less; cases less
    · exact List.Nodup.of_map Prod.snd (by simpa [pair,Function.comp_def] using once)
    · rintro ⟨read,id⟩
      have here := same read id
      simp only [List.mem_map,Prod.exists,Prod.swap_prod_mk,Prod.mk.injEq,pair]
      constructor
      · rintro ⟨_,_,member,rfl,rfl⟩
        obtain ⟨on,found⟩ := here.mpr member
        exact ⟨_,_,on,found,rfl,rfl⟩
      · rintro ⟨_,_,on,found,rfl,rfl⟩
        exact ⟨_,_,here.mp ⟨on,found⟩,rfl,rfl⟩
  have sorted : (sortBy (fun a b => byPlace direction (pair a) (pair b)) things).map pair =
      (flat counts groups).map Prod.swap := by
    rw [← sortBy_eq members ordered]
    exact List.map_insertionSort _ _ _ _ fun _ _ _ _ => Iff.rfl
  generalize shape : sortBy (fun a b => byPlace direction (pair a) (pair b)) things = ordered_things at sorted
  have back : ordered_things.map (fun thing => (thing.2.1,thing.1)) = flat counts groups := by
    have swapped := congrArg (List.map Prod.swap) sorted
    simpa [pair,Function.comp_def] using swapped
  have reads : ordered_things.map (·.1) = places (flat counts groups) := by
    rw [places,← back]; simp [Function.comp_def]
  have length : ordered_things.length = (flat counts groups).length := by rw [← back,List.length_map]
  have stops : pastTies (ordered_things.map (·.1)) ordered_things.length (min k ordered_things.length) = stop := by
    have here := cut.pastTies
    rw [← reads] at here
    simpa using here
  have whole : headOf things direction k =
      ⟨(ordered_things.take stop).map (·.2),decide (stop < ordered_things.length)⟩ := by
    rw [headOf]
    rw [show sortBy (fun a b : Orderable × EntityId × Text => byPlace direction (a.1,a.2.1) (b.1,b.2.1)) things =
      ordered_things from shape,stops]
  rw [whole,length]
  exact ⟨rfl,ordered_things,shape ▸ sortBy_perm _ _,back,rfl⟩

theorem Held.Mirrors.front (mirrors : held.Mirrors types (documents[·]?)) (direction : Direction) (k : Nat)
    (counts : EntityId → Bool) (placed : Placing.of holds = some placing)
    (declared : held.declared.contains (toLex (key,placing)) = true)
    (all : things.Perm (placedThings documents counts key holds)) :
    ∃ front, held.front key holds direction k counts = some front ∧
      front.cut = (headOf things direction k).cut ∧
      front.placed.map (fun one => (one.1,some one.2)) =
        (headOf things direction k).head.map fun one => (one.1,Orderable.readToOrder holds one.2) := by
  have read_as : placing.typeRead = holds := by cases holds <;> cases placed <;> rfl
  have member : ∀ thing, thing ∈ things ↔ _ := fun thing => all.mem_iff.trans mem_placedThings
  have front : held.front key holds direction k counts =
      some (frontLoop k counts [] (groupsIn direction ((held.placed[toLex (key,placing)]?).getD ∅))) := by
    simp [Held.front,placed,declared]
  generalize named : (held.placed[toLex (key,placing)]?).getD ∅ = shelf at front
  generalize order : groupsIn direction shelf = groups at front
  have strict : groups.Pairwise fun a b => byValue direction a.1 b.1 = .lt := by
    subst order
    cases direction
    · exact shelf.ordered_keys_toList
    · exact List.pairwise_reverse.mpr shelf.ordered_keys_toList
  have inside : ∀ read holders, (read,holders) ∈ groups ↔ shelf[read]? = some holders := by
    intro read holders
    subst order
    cases direction <;> simp [groupsIn,ExtTreeMap.mem_toList_iff_getElem?_eq_some]
  have same : ∀ read id, (∃ on, (read,id,on) ∈ things) ↔ (id,read) ∈ flat counts groups := by
    intro read id
    have exactly := mirrors.places id key placing read
    have there : ((held.placed[toLex (key,placing)]?).bind (·[read]?)).getD ∅ = (shelf[read]?).getD ∅ := by
      subst named
      cases held.placed[toLex (key,placing)]? <;> simp
    rw [there,read_as] at exactly
    simp only [declared,true_and] at exactly
    simp only [mem_flat,inside,member,readToOrder_iff]
    constructor
    · rintro ⟨on,counted,now,reads,ordered⟩
      have holding := exactly.mpr ⟨on,now,reads⟩
      cases found : shelf[read]? with
      | none => rw [found] at holding; simp at holding
      | some holders => exact ⟨ordered,counted,holders,rfl,by rwa [found] at holding⟩
    · rintro ⟨ordered,counted,holders,found,holding⟩
      obtain ⟨on,now,reads⟩ := exactly.mp (by rwa [found])
      exact ⟨on,counted,now,reads,ordered⟩
  have once : (things.map (·.2.1)).Nodup := (all.map _).nodup_iff.mpr placedThings_once
  obtain ⟨stop,cut,loop⟩ := frontLoop_cut k counts groups [] (by simp)
    (strict.imp fun less same => by
      rw [same,byValue_self] at less; cases less) (by simp)
  rw [List.nil_append] at cut loop
  obtain ⟨cuts,sorted,perm,back,head⟩ := headOf_flat strict once same cut
  refine ⟨_,front,?_,?_⟩
  · rw [loop,cuts]
  · rw [loop,head,← back]
    simp only [← List.map_take,List.map_map]
    refine List.map_congr_left fun thing there => ?_
    have reads := ((member thing).mp (perm.mem_iff.mp (List.mem_of_mem_take there))).2.2
    simp [reads]

end Fold
