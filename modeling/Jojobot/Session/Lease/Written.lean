import Jojobot.Library.Fallible
import Jojobot.Session.Lease

namespace Lease
open Library Std Memory

-- A key's rows, and what the newest of them says.
def rowsOf (rows : List FieldRow) (key : Text) : List FieldRow := rows.filter (·.write.key = key)

def newest (rows : List FieldRow) (key : Text) : Option Text := (rowsOf rows key).getLast?.bind (·.write.value)

variable {rows more : List FieldRow} {key id : Text} {fact : Fact} {bags : Bags} {at' : Timestamp}

theorem mem_rowsOf {row : FieldRow} : row ∈ rowsOf rows key ↔ row ∈ rows ∧ row.write.key = key := by
  simp [rowsOf]

theorem rowsOf_append (rows more : List FieldRow) (key : Text) : rowsOf (rows ++ more) key = rowsOf rows key ++ rowsOf more key :=
  List.filter_append ..

-- What an append adds to the rows of a thing, and to those of one key.
theorem appended (fact : Fact) (at' : Timestamp) (bags : Bags) (rows : List FieldRow) (wrote : List (Text × Option Text)) :
    ∃ more, appendWrites fact at' bags rows wrote = rows ++ more ∧
      (∀ row ∈ more, row.write.fact = fact.id ∧ row.write.status = fact.status ∧ row.bag = bagOf bags row.write.key) ∧
      ∀ key, (rowsOf more key).map (·.write.value) = valuesFor key wrote := by
  induction wrote generalizing rows with
  | nil => exact ⟨[],(List.append_nil rows).symm,List.forall_mem_nil _,fun _ => rfl⟩
  | cons row rest ih =>
    obtain ⟨more,shape,own,values⟩ := ih (rows ++ [⟨nextWrite fact (some at') (rows.map (·.write)) row,bagOf bags row.1⟩])
    refine ⟨⟨nextWrite fact (some at') (rows.map (·.write)) row,bagOf bags row.1⟩ :: more,?_,?_,?_⟩
    · rw [←List.append_cons] at shape
      exact shape
    · intro made member
      rcases List.mem_cons.mp member with first | later
      · subst first
        exact ⟨rfl,rfl,rfl⟩
      · exact own made later
    · intro key
      unfold rowsOf valuesFor at values ⊢
      rw [List.filter_cons,List.filter_cons]
      by_cases here : row.1 = key
      · have same : (nextWrite fact (some at') (rows.map (·.write)) row).key = key := here
        rw [if_pos (decide_eq_true same),if_pos (decide_eq_true here),List.map_cons,List.map_cons,values]
        rfl
      · have other : ¬(nextWrite fact (some at') (rows.map (·.write)) row).key = key := here
        rw [if_neg (by simpa using other),if_neg (by simpa using here)]
        exact values key

theorem newest_append (rows more : List FieldRow) (key : Text) : newest (rows ++ more) key =
    (((rowsOf more key).map (·.write.value)).getLast?.getD (newest rows key)) := by
  unfold newest
  rw [rowsOf_append,List.getLast?_map]
  rcases List.eq_nil_or_concat' (rowsOf more key) with none' | ⟨front,last,shape⟩
  · rw [none',List.append_nil]
    rfl
  · rw [shape,←List.append_assoc,List.getLast?_concat,List.getLast?_concat]
    rfl

-- The fold of a key whose writes all stand reads its newest.
theorem fold_newest [Floats] {declared : List FoldType} (newestFolds : foldOf key declared = .newest)
    (unreserved : reservedKey key = false) (sorted : Merge.Sorted (writesOn rows))
    (stand : ∀ row ∈ rowsOf rows key, row.write.status = .active ∧ reachesTheThing row.bag = true) :
    (foldedFields (writesOn rows) declared)[key]? = (newest rows key).filter (counts declared key) := by
  rw [newest_value newestFolds unreserved sorted]
  have same : standing (writesOn rows) key = (rowsOf rows key).map (·.write) := by
    unfold standing Merge.under writesOn rowsOf
    rw [List.filter_map,List.filter_map,List.filter_filter,List.filter_filter]
    congr 1
    apply List.filter_congr
    intro row member
    by_cases here : row.write.key = key
    · obtain ⟨active,reaches⟩ := stand row (mem_rowsOf.mpr ⟨member,here⟩)
      simp [Merge.ServedWrite.key,here,active,reaches]
    · simp [Merge.ServedWrite.key,here]
  unfold newest
  rw [same,List.getLast?_map]
  cases (rowsOf rows key).getLast? with
  | none => rfl
  | some row => rfl

theorem laid_newest {lay : Fields → FieldRow → Fields} (laid : ∀ fields row, (lay fields row)[key]? =
    if row.write.key = key then row.write.value else fields[key]?) (read : List FieldRow) (fields : Fields) :
    (read.foldl lay fields)[key]? = (((rowsOf read key).map (·.write.value)).getLast?.getD fields[key]?) := by
  induction read generalizing fields with
  | nil => rfl
  | cons row rest ih =>
    rw [List.foldl_cons,ih,laid]
    unfold rowsOf
    rw [List.filter_cons]
    by_cases here : row.write.key = key
    · rw [if_pos here,if_pos (decide_eq_true here),List.map_cons,List.getLast?_cons]
      rfl
    · rw [if_neg here,if_neg (by simpa using here)]

-- A record carries what the newest of its own writes of a key says.
theorem carried_record (rows : List FieldRow) (id key : Text) : (carriedBy rows id)[key]? = newest (recordRows rows id) key := by
  unfold carriedBy
  rw [@laid_newest key]
  · unfold newest
    rw [List.getLast?_map]
    cases (rowsOf (recordRows rows id) key).getLast? with
    | none => simp
    | some row => rfl
  · intro fields row
    by_cases here : row.write.key = key
    · rw [if_pos here]
      subst here
      cases row.write.value with
      | none => simp
      | some value => simp
    · rw [if_neg here]
      cases row.write.value with
      | none => simp [ExtTreeMap.getElem?_erase,here]
      | some value => simp [ExtTreeMap.getElem?_insert,here]

theorem carried_newest (sorted : (rowsOf rows key).Pairwise fun a b => a.write.ordinal < b.write.ordinal)
    (own : ∀ row ∈ rowsOf rows key, row.write.fact = id) : (carriedBy rows id)[key]? = newest rows key := by
  have same : rowsOf (recordRows rows id) key = rowsOf rows key := by
    unfold rowsOf recordRows
    rw [sortBy_filter,List.filter_comm]
    have all : (rows.filter (·.write.key = key)).filter (fun row => decide (row.write.fact = id)) =
        rows.filter (·.write.key = key) := by
      apply List.filter_eq_self.mpr
      intro row member
      exact decide_eq_true (own row member)
    rw [all]
    apply sortBy_eq (List.Perm.refl _)
    apply sorted.imp_of_mem
    intro a b inA inB less
    have keys : a.write.key = b.write.key := (mem_rowsOf.mp inA).2.trans (mem_rowsOf.mp inB).2.symm
    simpa [byKeyAndOrdinal,compareLex,compareOn,keys] using Nat.compare_eq_lt.mpr less
  rw [carried_record]
  unfold newest
  rw [same]

theorem not_carried (none' : ∀ row ∈ rowsOf rows key, row.write.fact ≠ id) : (carriedBy rows id)[key]? = none := by
  have gone : rowsOf (recordRows rows id) key = [] := by
    apply List.filter_eq_nil_iff.mpr
    intro row member same
    obtain ⟨inRows,ofId⟩ := List.mem_filter.mp (mem_sortBy.mp member)
    exact none' row (mem_rowsOf.mpr ⟨inRows,of_decide_eq_true same⟩) (of_decide_eq_true ofId)
  rw [carried_record]
  unfold newest
  rw [gone]
  rfl

-- A restated write of a record that stands is as it was.
theorem restated_rowsOf (still : ∀ row ∈ rowsOf rows key, restated fact row.write = row.write) :
    rowsOf (restatedRows fact rows) key = rowsOf rows key := by
  unfold rowsOf restatedRows
  rw [List.filter_map]
  have keys : (rows.filter ((fun row : FieldRow => decide (row.write.key = key)) ∘
      fun row => { row with write := restated fact row.write })) = rowsOf rows key := rfl
  rw [keys]
  have same : ∀ row ∈ rowsOf rows key, { row with write := restated fact row.write } = id row := by
    intro row member
    rw [still row member]
    rfl
  exact (List.map_congr_left same).trans (List.map_id _)

theorem heldClasses_of {bag : WriteClass} (held : (heldClasses rows id)[key]? = some bag) :
    ∃ row ∈ rows, row.write.key = key ∧ row.bag = bag := by
  have laid : ∀ (read : List FieldRow) (bags : Bags),
      (read.foldl (fun bags row => if row.write.value.isSome then bags.insert row.write.key row.bag
        else bags.erase row.write.key) bags)[key]? = some bag →
      bags[key]? = some bag ∨ ∃ row ∈ read, row.write.key = key ∧ row.bag = bag := by
    intro read
    induction read with
    | nil => exact fun _ found => Or.inl found
    | cons row rest ih =>
      intro bags found
      rw [List.foldl_cons] at found
      rcases ih _ found with before | ⟨later,member,facts⟩
      · by_cases here : row.write.key = key
        · split at before
          · right
            refine ⟨row,List.mem_cons_self,here,?_⟩
            rw [here,ExtTreeMap.getElem?_insert_self] at before
            exact Option.some.inj before
          · rw [here] at before
            simp at before
        · left
          split at before
          · simpa [ExtTreeMap.getElem?_insert,here] using before
          · simpa [ExtTreeMap.getElem?_erase,here] using before
      · exact Or.inr ⟨later,List.mem_cons_of_mem _ member,facts⟩
  rcases laid _ _ held with nothing | ⟨row,member,facts⟩
  · simp at nothing
  · exact ⟨row,(List.mem_filter.mp (mem_sortBy.mp member)).1,facts⟩

theorem cleared_of {held : Bags} {cleared : List Text} {bag : WriteClass}
    (found : (cleared.foldl (classCleared held) bags)[key]? = some bag) : bags[key]? = some bag ∨ held[key]? = some bag := by
  induction cleared generalizing bags with
  | nil => exact Or.inl found
  | cons first rest ih =>
    rcases ih found with before | same
    · unfold classCleared at before
      split at before
      · rename_i old kept
        split at before
        · exact Or.inl before
        · by_cases here : trim first = key
          · rw [here,ExtTreeMap.getElem?_insert_self] at before
            rw [here] at kept
            exact Or.inr (kept.trans before)
          · left
            simpa [ExtTreeMap.getElem?_insert,here] using before
      · exact Or.inl before
    · exact Or.inr same

-- A write of jojobot's own arithmetic reaches the thing, and so does a clear of what did.
theorem derived_reaches {held : Bags} {written : Fields} {derived cleared : List Text} {declared : List FoldType}
    {ownFieldsStay : Bool} (classed : classesForWrite held written [] derived cleared declared ownFieldsStay = .ok bags)
    (computed : ∀ row ∈ written.toList, names derived (trim row.1) = true) (plain : trim key = key)
    (reached : ∀ bag, held[key]? = some bag → reachesTheThing bag = true) : reachesTheThing (bagOf bags key) = true := by
  unfold classesForWrite at classed
  rw [List.findSome?_nil] at classed
  dsimp only at classed
  generalize (if ownFieldsStay = true then WriteClass.stays else WriteClass.own) = newOwnField at classed
  cases ran : written.toList.foldlM (classWritten held [] derived newOwnField) ∅ with
  | error refused =>
    rw [ran] at classed
    cases classed
  | ok mid =>
    rw [ran] at classed
    cases Except.ok.inj classed
    obtain ⟨named,others⟩ := classWritten_key ran
    unfold bagOf
    rw [plain]
    cases found : (cleared.foldl (classCleared held) mid)[key]? with
    | none => rfl
    | some bag =>
      rcases cleared_of found with before | same
      · by_cases sends : ∃ row ∈ written.toList, trim row.1 = key
        · obtain ⟨row,member,here⟩ := sends
          obtain ⟨chosen,chose,kept⟩ := named row member
          rw [here,before] at kept
          cases Option.some.inj kept
          rw [computed row member] at chose
          unfold bagFor at chose
          rw [if_pos rfl] at chose
          split at chose
          · cases Except.ok.inj chose
            rfl
          · cases Except.ok.inj chose
            rfl
          · cases Except.ok.inj chose
            rfl
        · rw [others key fun row member here => sends ⟨row,member,here⟩] at before
          simp at before
      · exact reached bag same

theorem restamped_frame (ordinal : Nat) (moment : Text) (now : Timestamp) (row : FieldRow) :
    (restamped ordinal moment now row).write.key = row.write.key ∧
      (restamped ordinal moment now row).write.ordinal = row.write.ordinal ∧
      (restamped ordinal moment now row).write.fact = row.write.fact ∧
      (restamped ordinal moment now row).write.status = row.write.status ∧ (restamped ordinal moment now row).bag = row.bag := by
  unfold restamped
  split
  · exact ⟨rfl,rfl,rfl,rfl,rfl⟩
  · exact ⟨rfl,rfl,rfl,rfl,rfl⟩

theorem rowsOf_restamped (ordinal : Nat) (moment : Text) (now : Timestamp) (rows : List FieldRow) (key : Text) :
    rowsOf (rows.map (restamped ordinal moment now)) key = (rowsOf rows key).map (restamped ordinal moment now) := by
  unfold rowsOf
  rw [List.filter_map]
  congr 1
  apply List.filter_congr
  intro row _
  exact congrArg (fun other : Text => decide (other = key)) (restamped_frame ordinal moment now row).1

-- A renewal's overwrite: the newest moment, and nothing else.
theorem overwritten {was : Text} (moment : Text) (now : Timestamp)
    (sorted : (rowsOf rows ROLE_CLAIMED_AT).Pairwise fun a b => a.write.ordinal < b.write.ordinal)
    (stamped : newest rows ROLE_CLAIMED_AT = some was) :
    ∃ ordinal, overwriteLeaseMoment rows moment now = some (rows.map (restamped ordinal moment now)) ∧
      newest (rows.map (restamped ordinal moment now)) ROLE_CLAIMED_AT = some moment ∧
      ∀ key, key ≠ ROLE_CLAIMED_AT → rowsOf (rows.map (restamped ordinal moment now)) key = rowsOf rows key := by
  unfold newest at stamped
  obtain ⟨last,isLast,value⟩ := Option.bind_eq_some_iff.mp stamped
  have found : newestRow rows ROLE_CLAIMED_AT = some last := by
    unfold newestRow
    have same : sortBy (compareOn (·.write.ordinal)) (rowsOf rows ROLE_CLAIMED_AT) = rowsOf rows ROLE_CLAIMED_AT := by
      apply sortBy_eq (List.Perm.refl _)
      apply sorted.imp
      intro a b less
      exact Nat.compare_eq_lt.mpr less
    exact (congrArg List.getLast? same).trans isLast
  have here := mem_rowsOf.mp (List.mem_of_getLast? isLast)
  refine ⟨last.write.ordinal,?_,?_,?_⟩
  · unfold overwriteLeaseMoment
    rw [found]
    dsimp only
    rw [value]
    rfl
  · unfold newest
    rw [rowsOf_restamped,List.getLast?_map,isLast]
    change (restamped last.write.ordinal moment now last).write.value = _
    unfold restamped
    rw [if_pos ⟨here.2,rfl⟩]
  · intro key other
    have still : ∀ row ∈ rowsOf rows key, restamped last.write.ordinal moment now row = id row := by
      intro row member
      unfold restamped
      rw [if_neg fun both => other ((mem_rowsOf.mp member).2.symm.trans both.1)]
      rfl
    rw [rowsOf_restamped]
    exact (List.map_congr_left still).trans (List.map_id _)

end Lease
