import Jojobot.Fold.Held

namespace Fold
open Library Memory Std

variable [Scalars] {held : Held} {types : List DeclaredType} {current : EntityId → Option Fields}
  {id : EntityId} {fields : Fields} {key value : Text} {holders : Holders} {read : Orderable}

-- The things whose value under the key passes, which is what a leaf keeps.
def Keeps (current : EntityId → Option Fields) (key : Text) (test : Test) (id : EntityId) : Prop :=
  ∃ fields, current id = some fields ∧ Leaf.holds ⟨some key,test⟩ fields = true

theorem keeps_iff {test : Test} : Keeps current key test id ↔
    ∃ value, valueNow current id key = some value ∧ test.passes value = true := by
  simp only [Keeps,leaf_holds_iff,valueNow_iff]
  constructor
  · rintro ⟨fields,on,value,found,passes⟩
    exact ⟨value,⟨fields,on,found⟩,passes⟩
  · rintro ⟨value,⟨fields,on,found⟩,passes⟩
    exact ⟨fields,on,value,found,passes⟩

omit [Scalars] in
theorem mem_ofList {ids : List EntityId} : id ∈ (ExtTreeSet.ofList ids : Holders) ↔ id ∈ ids := by
  rw [ExtTreeSet.mem_ofList,List.contains_iff_mem]

theorem Held.Mirrors.wholeOfAny (mirrors : held.Mirrors types current) (wanted : List Text) :
    id ∈ (ExtTreeSet.ofList (wanted.flatMap fun one => (held.holdingWhole key one).toList) : Holders) ↔
      ∃ on, valueNow current id key = some on ∧ ∃ one ∈ wanted, trim on = trim one := by
  simp only [mem_ofList,List.mem_flatMap,ExtTreeSet.mem_toList,mirrors.wholes]
  constructor
  · rintro ⟨one,member,on,found,same⟩
    exact ⟨on,found,one,member,same⟩
  · rintro ⟨on,found,one,member,same⟩
    exact ⟨one,member,on,found,same⟩

theorem within_eq (op : Op) (bound read : Orderable) : Op.within op bound read = op.passes (compare read bound) := by
  cases op <;> rfl

theorem Held.Mirrors.inRange (mirrors : held.Mirrors types current) {op : Op} {holds : ValueType}
    {wanted : Text} {placing : Placing} (placed : Placing.of holds = some placing)
    (declared : held.declared.contains (toLex (key,placing)) = true) {bound : Orderable}
    (reads : Orderable.read holds wanted = some bound) {places : ByPlace}
    (found : held.placed[toLex (key,placing)]? = some places) :
    id ∈ (ExtTreeSet.ofList ((places.toList.filter fun (read,_) => Op.within op bound read).flatMap
      fun (_,holders) => holders.toList) : Holders) ↔ Keeps current key (.order op holds wanted) id := by
  have read_as : placing.typeRead = holds := by cases holds <;> cases placed <;> rfl
  have at_place : ∀ read, id ∈ (places[read]?).getD ∅ ↔
      ∃ on, valueNow current id key = some on ∧ Orderable.read holds on = some read := by
    intro read
    have exactly := mirrors.places id key placing read
    rw [found,Option.bind_some,read_as] at exactly
    rw [exactly]
    simp only [declared,true_and]
  simp only [mem_ofList,List.mem_flatMap,List.mem_filter,ExtTreeMap.mem_toList_iff_getElem?_eq_some,
    ExtTreeSet.mem_toList,Prod.exists,keeps_iff,Test.passes,ordered,reads,within_eq]
  constructor
  · rintro ⟨read,holders,⟨there,passes⟩,member⟩
    obtain ⟨on,now,same⟩ := (at_place read).mp (by rwa [there])
    exact ⟨on,now,by rw [same]; exact passes⟩
  · rintro ⟨on,now,passes⟩
    cases same : Orderable.read holds on with
    | none => rw [same] at passes; cases passes
    | some read =>
      rw [same] at passes
      have member := (at_place read).mpr ⟨on,now,same⟩
      cases there : places[read]? with
      | none => rw [there] at member; simp at member
      | some holders => exact ⟨read,holders,⟨there,passes⟩,by rwa [there] at member⟩

theorem Held.Mirrors.holding (mirrors : held.Mirrors types current) {test : Test}
    (answered : held.holding key test = some holders) : id ∈ holders ↔ Keeps current key test id := by
  cases test with
  | «exists» =>
    cases answered
    simp [mirrors.carrying,keeps_iff,Test.passes]
  | equals wanted =>
    cases answered
    simp [mirrors.wholes,keeps_iff,Test.passes,equals_holds]
  | isIn wanted =>
    cases answered
    simp [mirrors.wholeOfAny,keeps_iff,Test.passes,equals_holds]
  | notEquals wanted =>
    cases answered
    rw [ExtTreeSet.mem_diff_iff,mirrors.carrying,mirrors.wholes,keeps_iff]
    cases now : valueNow current id key <;> simp [Test.passes,Compare.holdsBetween]
  | notIn wanted =>
    cases answered
    rw [ExtTreeSet.mem_diff_iff,mirrors.carrying,mirrors.wholeOfAny,keeps_iff]
    cases now : valueNow current id key <;> simp [Test.passes,Compare.holdsBetween]
  | contains item =>
    rw [Held.holding] at answered
    dsimp only at answered
    split at answered
    · cases answered
      rename_i nothing
      simp only [ExtTreeSet.not_mem_empty,false_iff,keeps_iff,Test.passes,not_exists,not_and]
      intro on _ lists
      obtain ⟨named,member⟩ := listHolds_iff.mp lists
      rcases nothing with empty | comma
      · exact named empty
      · exact splitItems_clean (List.mem_filter.mp member).1 comma
    · cases answered
      rename_i item
      push Not at item
      rw [mirrors.contains item.1 item.2]
      simp [keeps_iff,Test.passes]
  | order op holds wanted =>
    simp only [Held.holding,Option.bind_eq_bind,Option.bind_eq_some_iff] at answered
    obtain ⟨placing,placed,answered⟩ := answered
    split at answered
    · cases answered
    rename_i declared
    have declared : held.declared.contains (toLex (key,placing)) = true := by simpa using declared
    split at answered
    · cases answered
      rename_i unread
      simp [keeps_iff,Test.passes,ordered,unread]
    next bound reads =>
    split at answered
    · cases answered
      rename_i missing
      have exactly := mirrors.places id key placing
      simp only [missing,Option.bind_none,Option.getD_none,ExtTreeSet.not_mem_empty,declared,true_and,
        false_iff,not_exists,not_and] at exactly
      have read_as : placing.typeRead = holds := by cases holds <;> cases placed <;> rfl
      simp only [ExtTreeSet.not_mem_empty,false_iff,keeps_iff,Test.passes,not_exists,not_and]
      intro on now passes
      cases same : Orderable.read holds on with
      | none => simp [ordered,same] at passes
      | some read => exact exactly read on now (by rw [read_as,same])
    next places found =>
      cases answered
      exact mirrors.inRange placed declared reads found

-- The maps answer every test but an ordering of a key no type declares so.
theorem holding_answers {test : Test} : held.holding key test = none ↔
    ∃ op holds wanted, test = .order op holds wanted ∧
      ∀ placing, Placing.of holds = some placing → held.declared.contains (toLex (key,placing)) = false := by
  cases test with
  | order op holds wanted =>
    cases placed : Placing.of holds with
    | none => simp [Held.holding,placed]
    | some placing =>
      by_cases declared : held.declared.contains (toLex (key,placing)) = true
      · simp only [Held.holding,placed,Option.bind_eq_bind,Option.bind_some,declared]
        simp only [Bool.not_true,Bool.false_eq_true,if_false]
        split
        · simp [placed,declared]
        · split <;> simp [placed,declared]
      · simp [Held.holding,placed,declared]
  | contains item =>
    simp only [Held.holding]
    split <;> simp
  | _ => simp [Held.holding]

end Fold
