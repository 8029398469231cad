import Jojobot.Library.Indexing
import Jojobot.Memory.Holders

namespace Fold
open Library Memory Std Grouped

inductive Placing where
  | date | number
deriving DecidableEq, Repr, Ord

instance : TransOrd Placing where
  eq_swap := by rintro (_ | _) (_ | _) <;> rfl
  isLE_trans := by rintro (_ | _) (_ | _) (_ | _) <;> decide

instance : LawfulEqOrd Placing where
  eq_of_compare := by rintro (_ | _) (_ | _) <;> decide

def Placing.of : ValueType → Option Placing
  | .date => some .date
  | .number => some .number
  | _ => none

def Placing.typeRead : Placing → ValueType
  | .date => .date
  | .number => .number

abbrev Holders := ExtTreeSet EntityId
abbrev ByValue := ExtTreeMap Text (ExtTreeMap Text Holders)
abbrev Slot := Text ×ₗ Placing

instance : LawfulEqOrd Slot where
  eq_of_compare := by
    intro one other same
    obtain ⟨keys,placings⟩ := compareLex_eq_eq.mp same
    exact congrArg toLex (Prod.ext (LawfulEqOrd.eq_of_compare keys) (LawfulEqOrd.eq_of_compare placings))

variable [Scalars]

abbrev ByPlace := ExtTreeMap Orderable Holders

structure Front where
  placed : List (EntityId × Orderable)
  cut : Bool

structure Held where
  declared : ExtTreeSet Slot
  carriers : ExtTreeMap Text Holders
  whole : ByValue
  items : ByValue
  placed : ExtTreeMap Slot ByPlace

def Held.declaring (types : List DeclaredType) : Held where
  declared := ExtTreeSet.ofList ((types.flatMap (·.fields)).filterMap fun field =>
    (Placing.of field.holds).map fun placing => toLex (field.key,placing))
  carriers := ∅
  whole := ∅
  items := ∅
  placed := ∅

def Held.placingsOf (held : Held) (key : Text) : List Placing :=
  [.date,.number].filter fun placing => held.declared.contains (toLex (key,placing))

def insertValue (map : ByValue) (key value : Text) (id : EntityId) : ByValue := put map (key,value,id)
def removeValue (map : ByValue) (key value : Text) (id : EntityId) : ByValue := drop map (key,value,id)

def Held.addField (id : EntityId) (held : Held) (field : Text × Text) : Held :=
  let (key,value) := field
  { held with
    carriers := put held.carriers (key,id)
    whole := insertValue held.whole key (trim value) id
    items := if ',' ∈ value then
        (listItems value).foldl (fun items item => insertValue items key item id) held.items
      else held.items
    placed := (held.placingsOf key).foldl (fun placed (placing : Placing) =>
      match Orderable.read placing.typeRead value with
      | some read => put placed (toLex (key,placing),read,id)
      | none => placed) held.placed }

def Held.add (held : Held) (id : EntityId) (fields : Fields) : Held := fields.toList.foldl (addField id) held

def Held.removeField (id : EntityId) (held : Held) (field : Text × Text) : Held :=
  let (key,value) := field
  { held with
    carriers := drop held.carriers (key,id)
    whole := removeValue held.whole key (trim value) id
    items := if ',' ∈ value then
        (listItems value).foldl (fun items item => removeValue items key item id) held.items
      else held.items
    placed := (held.placingsOf key).foldl (fun placed (placing : Placing) =>
      match Orderable.read placing.typeRead value with
      | some read => drop placed (toLex (key,placing),read,id)
      | none => placed) held.placed }

def Held.remove (held : Held) (id : EntityId) (fields : Fields) : Held :=
  fields.toList.foldl (removeField id) held

def Held.replace (held : Held) (id : EntityId) (old : Option Fields) (new : Fields) : Held :=
  match old with
  | some old => (held.remove id old).add id new
  | none => held.add id new

-- The things whose whole value under the key is this one, spaces around it aside.
def Held.holdingWhole (held : Held) (key value : Text) : Holders :=
  ((held.whole[key]?).bind (·[trim value]?)).getD ∅

def Op.within (op : Op) (bound read : Orderable) : Bool :=
  match op with
  | .less => compare read bound = .lt
  | .lessOrEqual => compare read bound ≠ .gt
  | .greater => compare read bound = .gt
  | .greaterOrEqual => compare read bound ≠ .lt

def Held.holding (held : Held) (key : Text) : Test → Option Holders
  | .exists => some ((held.carriers[key]?).getD ∅)
  | .equals wanted => some (held.holdingWhole key wanted)
  | .isIn wanted => some (ExtTreeSet.ofList (wanted.flatMap fun one => (held.holdingWhole key one).toList))
  | .notEquals wanted => some ((held.carriers[key]?).getD ∅ \ held.holdingWhole key wanted)
  | .notIn wanted =>
    let equal : Holders := ExtTreeSet.ofList (wanted.flatMap fun one => (held.holdingWhole key one).toList)
    some ((held.carriers[key]?).getD ∅ \ equal)
  | .contains item =>
    let item := trim item
    if item = [] ∨ ',' ∈ item then some ∅ else
    let listed := ((held.items[key]?).bind (·[item]?)).getD ∅
    some (held.holdingWhole key item ∪ listed)
  | .order op holds wanted => do
    let placing ← Placing.of holds
    if !held.declared.contains (toLex (key,placing)) then none else
    match Orderable.read holds wanted with
    | none => some ∅
    | some bound =>
      match held.placed[toLex (key,placing)]? with
      | none => some ∅
      | some places =>
        let range := places.toList.filter fun (read,_) => Op.within op bound read
        some (ExtTreeSet.ofList (range.flatMap fun (_,holders) => holders.toList))

def groupsIn (direction : Direction) (places : ByPlace) : List (Orderable × Holders) :=
  match direction with
  | .ascending => places.toList
  | .descending => places.toList.reverse

-- The loop of `front` over the groups in the order's direction.
def frontLoop (k : Nat) (counts : EntityId → Bool) :
    List (EntityId × Orderable) → List (Orderable × Holders) → Front
  | placed,[] => ⟨placed,false⟩
  | placed,(read,holders)::groups =>
    if !read.inOrder then frontLoop k counts placed groups else
    let counted := holders.toList.filter counts
    if counted.isEmpty then frontLoop k counts placed groups
    else if k ≤ placed.length then ⟨placed,true⟩
    else frontLoop k counts (placed ++ counted.map (·,read)) groups

def Held.front (held : Held) (key : Text) (holds : ValueType) (direction : Direction) (k : Nat)
    (counts : EntityId → Bool) : Option Front := do
  let placing ← Placing.of holds
  if !held.declared.contains (toLex (key,placing)) then none else
  let places := (held.placed[toLex (key,placing)]?).getD ∅
  some (frontLoop k counts [] (groupsIn direction places))

-- What one field gives each map.
def carriesOf (id : EntityId) (field : Text × Text) : List (Text × EntityId) := [(field.1,id)]
def wholesOf (id : EntityId) (field : Text × Text) : List (Text × Text × EntityId) := [(field.1,trim field.2,id)]
def itemsOf (id : EntityId) (field : Text × Text) : List (Text × Text × EntityId) :=
  if ',' ∈ field.2 then (listItems field.2).map fun item => (field.1,item,id) else []
def placesOf (declared : ExtTreeSet Slot) (id : EntityId) (field : Text × Text) :
    List (Slot × Orderable × EntityId) :=
  ([.date,.number].filter fun placing => declared.contains (toLex (field.1,placing))).filterMap
    fun (placing : Placing) => (Orderable.read placing.typeRead field.2).map fun read =>
      (toLex (field.1,placing),read,id)

def ofFields {α : Type} (each : EntityId → Text × Text → List α) (id : EntityId) (fields : Fields) : List α :=
  fields.toList.flatMap (each id)

-- The maps are the indexes of the current documents.
structure Held.Mirrors (held : Held) (types : List DeclaredType) (current : EntityId → Option Fields) : Prop where
  declared : held.declared = (Held.declaring types).declared
  carriers : Indexes (ofFields carriesOf) current held.carriers
  whole : Indexes (ofFields wholesOf) current held.whole
  items : Indexes (ofFields itemsOf) current held.items
  placed : Indexes (ofFields (placesOf (Held.declaring types).declared)) current held.placed

variable {held other : Held} {types : List DeclaredType} {current : EntityId → Option Fields}
  {id : EntityId} {fields : Fields}

theorem add_maps (held : Held) (id : EntityId) (fields : Fields) :
    held.add id fields = { held with
      carriers := putAll held.carriers (ofFields carriesOf id fields)
      whole := putAll held.whole (ofFields wholesOf id fields)
      items := putAll held.items (ofFields itemsOf id fields)
      placed := putAll held.placed (ofFields (placesOf held.declared) id fields) } := by
  rw [Held.add]
  simp only [ofFields]
  induction fields.toList generalizing held with
  | nil => rfl
  | cons field rest ih =>
    rw [List.foldl_cons,ih]
    simp only [List.flatMap_cons,putAll_append]
    congr 1
    · simp only [Held.addField,itemsOf,insertValue]
      split <;> simp [putAll,List.foldl_map]
    · simp only [Held.addField,placesOf,putAll,List.foldl_filterMap,Held.placingsOf]
      congr 2
      funext placed placing
      cases Orderable.read placing.typeRead field.2 <;> rfl

theorem remove_maps (held : Held) (id : EntityId) (fields : Fields) :
    held.remove id fields = { held with
      carriers := dropAll held.carriers (ofFields carriesOf id fields)
      whole := dropAll held.whole (ofFields wholesOf id fields)
      items := dropAll held.items (ofFields itemsOf id fields)
      placed := dropAll held.placed (ofFields (placesOf held.declared) id fields) } := by
  rw [Held.remove]
  simp only [ofFields]
  induction fields.toList generalizing held with
  | nil => rfl
  | cons field rest ih =>
    rw [List.foldl_cons,ih]
    simp only [List.flatMap_cons,dropAll_append]
    congr 1
    · simp only [Held.removeField,itemsOf,removeValue]
      split <;> simp [dropAll,List.foldl_map]
    · simp only [Held.removeField,placesOf,dropAll,List.foldl_filterMap,Held.placingsOf]
      congr 2
      funext placed placing
      cases Orderable.read placing.typeRead field.2 <;> rfl

omit [Scalars] in
theorem mem_ofFields {α : Type} {each : EntityId → Text × Text → List α} {a : α} :
    a ∈ ofFields each id fields ↔ ∃ key value, fields[key]? = some value ∧ a ∈ each id (key,value) := by
  simp [ofFields,List.mem_flatMap,ExtTreeMap.mem_toList_iff_getElem?_eq_some]

theorem declaring_mirrors (types : List DeclaredType) : (Held.declaring types).Mirrors types fun _ => none :=
  ⟨rfl,Indexes.bare,Indexes.bare,Indexes.bare,Indexes.bare⟩

theorem Held.Mirrors.unique (mirrors : held.Mirrors types current) (also : other.Mirrors types current) :
    held = other := by
  obtain ⟨declared,carriers,whole,items,placed⟩ := held
  obtain ⟨declared',carriers',whole',items',placed'⟩ := other
  cases mirrors.declared.trans also.declared.symm
  cases mirrors.carriers.unique also.carriers
  cases mirrors.whole.unique also.whole
  cases mirrors.items.unique also.items
  cases mirrors.placed.unique also.placed
  rfl

theorem Held.Mirrors.add (mirrors : held.Mirrors types current) (fields : Fields) (fresh : current id = none) :
    (held.add id fields).Mirrors types (Function.update current id (some fields)) := by
  rw [add_maps,mirrors.declared]
  exact ⟨rfl,mirrors.carriers.put fresh,mirrors.whole.put fresh,mirrors.items.put fresh,
    mirrors.placed.put fresh⟩

theorem Held.Mirrors.remove (mirrors : held.Mirrors types current) (id : EntityId) (fields : Fields)
    (last : ∀ on, current id = some on → on = fields) :
    (held.remove id fields).Mirrors types (Function.update current id none) := by
  rw [remove_maps,mirrors.declared]
  refine ⟨rfl,mirrors.carriers.drop (·.2) ?_ last,mirrors.whole.drop (·.2.2) ?_ last,
    mirrors.items.drop (·.2.2) ?_ last,mirrors.placed.drop (·.2.2) ?_ last⟩
  all_goals
    intro id fields entry member
    obtain ⟨key,value,_,given⟩ := mem_ofFields.mp member
  · cases List.mem_singleton.mp given; rfl
  · cases List.mem_singleton.mp given; rfl
  · simp only [itemsOf] at given
    split at given
    · obtain ⟨item,_,rfl⟩ := List.mem_map.mp given; rfl
    · cases given
  · obtain ⟨placing,_,read⟩ := List.mem_filterMap.mp given
    obtain ⟨read,_,rfl⟩ := Option.map_eq_some_iff.mp read; rfl

def Held.build (types : List DeclaredType) (order : List (EntityId × Fields)) : Held :=
  order.foldl (fun held filed => held.add filed.1 filed.2) (Held.declaring types)

theorem Held.Mirrors.addEach {order : List (EntityId × Fields)} {after : EntityId → Option Fields}
    (mirrors : held.Mirrors types current) (once : (order.map Prod.fst).Nodup)
    (fresh : ∀ filed ∈ order, current filed.1 = none)
    (all : ∀ id fields, after id = some fields ↔ (id,fields) ∈ order ∨ current id = some fields) :
    (order.foldl (fun held filed => held.add filed.1 filed.2) held).Mirrors types after := by
  induction order generalizing held current with
  | nil =>
    have same : after = current := funext fun id => Option.ext fun fields => by simp [all]
    exact same ▸ mirrors
  | cons filed rest ih =>
    rw [List.map_cons,List.nodup_cons] at once
    refine ih (mirrors.add filed.2 (fresh filed List.mem_cons_self)) once.2 ?_ ?_
    · intro other member
      have apart : other.1 ≠ filed.1 := fun same => once.1 (same ▸ List.mem_map_of_mem member)
      rw [Function.update_of_ne apart]
      exact fresh other (List.mem_cons_of_mem _ member)
    · intro id fields
      rw [all,List.mem_cons]
      by_cases same : id = filed.1
      · subst same
        have free := fresh filed List.mem_cons_self
        simp [free,Prod.ext_iff,or_comm,eq_comm]
      · have apart : (id,fields) ≠ filed := by rintro rfl; exact same rfl
        rw [Function.update_of_ne same]
        simp [apart]

theorem build_mirrors {order : List (EntityId × Fields)} {documents : ExtTreeMap EntityId Fields}
    (all : order.Perm documents.toList) : (Held.build types order).Mirrors types (documents[·]?) := by
  refine (declaring_mirrors types).addEach ?_ (fun _ _ => rfl) ?_
  · have keys : (order.map Prod.fst).Perm (documents.toList.map Prod.fst) := all.map _
    refine keys.nodup_iff.mpr (List.pairwise_map.mpr ?_)
    exact documents.distinct_keys_toList.imp fun apart same => apart (by rw [same]; exact ReflCmp.compare_self)
  · intro id fields
    rw [all.mem_iff,ExtTreeMap.mem_toList_iff_getElem?_eq_some]
    simp

-- The value a thing holds under a key now, if it is on and holds one.
def valueNow (current : EntityId → Option Fields) (id : EntityId) (key : Text) : Option Text :=
  (current id).bind (·[key]?)

omit [Scalars] in
theorem valueNow_iff {key value : Text} :
    valueNow current id key = some value ↔ ∃ fields, current id = some fields ∧ fields[key]? = some value := by
  rw [valueNow,Option.bind_eq_some_iff]

variable {key value item : Text} {placing : Placing} {read : Orderable}

theorem Held.Mirrors.carrying (mirrors : held.Mirrors types current) :
    id ∈ (held.carriers[key]?).getD ∅ ↔ ∃ value, valueNow current id key = some value := by
  rw [← has_group,mirrors.carriers.exactly]
  simp only [mem_ofFields,valueNow_iff,carriesOf,List.mem_singleton,Prod.mk.injEq]
  constructor
  · rintro ⟨_,fields,on,_,value,found,rfl,rfl⟩
    exact ⟨value,fields,on,found⟩
  · rintro ⟨value,fields,on,found⟩
    exact ⟨id,fields,on,key,value,found,rfl,rfl⟩

theorem Held.Mirrors.wholes (mirrors : held.Mirrors types current) :
    id ∈ held.holdingWhole key value ↔ ∃ on, valueNow current id key = some on ∧ trim on = trim value := by
  rw [Held.holdingWhole,← has_nested,mirrors.whole.exactly]
  simp only [mem_ofFields,valueNow_iff,wholesOf,List.mem_singleton,Prod.mk.injEq]
  constructor
  · rintro ⟨_,fields,there,_,on,found,rfl,same,rfl⟩
    exact ⟨on,⟨fields,there,found⟩,same.symm⟩
  · rintro ⟨on,⟨fields,there,found⟩,same⟩
    exact ⟨id,fields,there,key,on,found,rfl,same.symm,rfl⟩

theorem Held.Mirrors.listed (mirrors : held.Mirrors types current) :
    id ∈ ((held.items[key]?).bind (·[item]?)).getD ∅ ↔
      ∃ on, valueNow current id key = some on ∧ ',' ∈ on ∧ item ∈ listItems on := by
  rw [← has_nested,mirrors.items.exactly]
  simp only [mem_ofFields,valueNow_iff,itemsOf]
  constructor
  · rintro ⟨_,fields,there,_,on,found,given⟩
    split at given
    · obtain ⟨_,member,same⟩ := List.mem_map.mp given
      cases same
      exact ⟨on,⟨fields,there,found⟩,‹_›,member⟩
    · cases given
  · rintro ⟨on,⟨fields,there,found⟩,comma,member⟩
    refine ⟨id,fields,there,key,on,found,?_⟩
    rw [if_pos comma]
    exact List.mem_map.mpr ⟨item,member,rfl⟩

theorem Held.Mirrors.places (mirrors : held.Mirrors types current) (id : EntityId) (key : Text)
    (placing : Placing) (read : Orderable) :
    id ∈ ((held.placed[toLex (key,placing)]?).bind (·[read]?)).getD ∅ ↔
      held.declared.contains (toLex (key,placing)) = true ∧
      ∃ on, valueNow current id key = some on ∧ Orderable.read placing.typeRead on = some read := by
  rw [← has_nested,mirrors.placed.exactly]
  simp only [mem_ofFields,valueNow_iff,placesOf,List.mem_filterMap,List.mem_filter,Option.map_eq_some_iff,
    ← mirrors.declared]
  constructor
  · rintro ⟨_,fields,there,_,on,found,_,⟨_,kept⟩,_,reads,same⟩
    cases same
    exact ⟨kept,on,⟨fields,there,found⟩,reads⟩
  · rintro ⟨kept,on,⟨fields,there,found⟩,reads⟩
    exact ⟨id,fields,there,key,on,found,placing,⟨by cases placing <;> simp,kept⟩,read,reads,rfl⟩

omit [Scalars] in
theorem listItems_single (plain : ',' ∉ value) : listItems value = if trim value = [] then [] else [trim value] := by
  rw [listItems,splitItems_plain plain]
  by_cases empty : trim value = [] <;> simp [empty]

omit [Scalars] in
theorem listHolds_iff : listHolds value item = true ↔ trim item ≠ [] ∧ trim item ∈ listItems value := by
  simp [listHolds]

theorem leaf_holds_iff {test : Test} : Leaf.holds ⟨some key,test⟩ fields = true ↔
    ∃ value, fields[key]? = some value ∧ test.passes value = true := by
  cases held : fields[key]? <;> cases test <;>
    simp [Leaf.holds,Test.passes,ExtTreeMap.contains_eq_isSome_getElem?,held]

-- A single item is found whole, and an item of a longer list among the items.
theorem Held.Mirrors.contains (mirrors : held.Mirrors types current) (named : trim item ≠ [])
    (plain : ',' ∉ trim item) :
    id ∈ held.holdingWhole key (trim item) ∪ ((held.items[key]?).bind (·[trim item]?)).getD ∅ ↔
      ∃ on, valueNow current id key = some on ∧ listHolds on item = true := by
  rw [ExtTreeSet.mem_union_iff,mirrors.wholes,mirrors.listed,trim_trim,← exists_or]
  refine exists_congr fun on => ?_
  rw [← and_or_left,listHolds_iff]
  refine and_congr_right fun _ => ?_
  by_cases comma : ',' ∈ on
  · have inside : trim on ≠ trim item := fun same => plain (same ▸ (mem_trim (by decide)).mpr comma)
    simp [comma,inside,named]
  · rw [listItems_single comma]
    by_cases empty : trim on = [] <;> simp [empty,comma,named,eq_comm]

end Fold
