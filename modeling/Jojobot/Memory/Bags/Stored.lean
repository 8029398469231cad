import Jojobot.Memory.Bags.Predicted
import Jojobot.Memory.Bags.ReadBack

namespace Memory
open Library Std

variable {rows : List FieldRow} {fact : Fact} {bags : Bags} {moment : Timestamp} {id key : Text}

def FieldRow.stored (row : FieldRow) : StoredWrite := ⟨row.write.key,row.write.value,row.bag⟩

-- The writes of one record, as its fields and the bags it holds are read from.
def storedWrites (rows : List FieldRow) (id : Text) : List StoredWrite := (recordRows rows id).map FieldRow.stored

theorem heldClasses_stored (rows : List FieldRow) (id : Text) : heldClasses rows id = heldBags (storedWrites rows id) := by
  unfold heldClasses heldBags storedWrites
  rw [List.foldl_map]
  rfl

theorem carriedBy_stored (rows : List FieldRow) (id : Text) :
    carriedBy rows id = (foldFieldWrites (storedWrites rows id)).fields := by
  unfold foldFieldWrites
  rw [fold_fields]
  unfold carriedBy storedWrites
  rw [List.foldl_map]
  rfl

-- The rows of one key of one record, in the order they were appended.
def ownRows (rows : List FieldRow) (id key : Text) : List FieldRow :=
  (rows.filter (·.write.fact = id)).filter (·.write.key = key)

def Ascending (rows : List FieldRow) (id : Text) : Prop :=
  ∀ key, (ownRows rows id key).Pairwise fun a b => a.write.ordinal < b.write.ordinal

theorem mem_ownRows {row : FieldRow} : row ∈ ownRows rows id key ↔ (row ∈ rows ∧ row.write.fact = id) ∧ row.write.key = key := by
  simp only [ownRows,List.mem_filter,decide_eq_true_eq]

-- Read back by key and ordinal, the writes of a key come as they were appended.
theorem stored_under (ascending : Ascending rows id) (key : Text) :
    storedUnder (storedWrites rows id) key = (ownRows rows id key).map FieldRow.stored := by
  unfold storedUnder storedWrites recordRows
  rw [List.filter_map]
  congr 1
  change (sortBy (fun a b => byKeyAndOrdinal a.write b.write) (rows.filter (·.write.fact = id))).filter (·.write.key = key) = _
  rw [sortBy_filter]
  apply sortBy_eq (List.Perm.refl _)
  apply (ascending key).imp_of_mem
  intro a b inA inB less
  have same : a.write.key = b.write.key := (mem_ownRows.mp inA).2.trans (mem_ownRows.mp inB).2.symm
  simpa [byKeyAndOrdinal,compareLex,compareOn,same] using Nat.compare_eq_lt.mpr less

-- A restated row says what it said, under the ordinal it had.
theorem restated_own (fact : Fact) (rows : List FieldRow) (id key : Text) :
    (ownRows (restatedRows fact rows) id key) =
      (ownRows rows id key).map fun row => { row with write := restated fact row.write } := by
  unfold ownRows restatedRows
  rw [List.filter_map,List.filter_map]
  rfl

theorem restated_ascending (ascending : Ascending rows id) : Ascending (restatedRows fact rows) id := by
  intro key
  rw [restated_own,List.pairwise_map]
  exact ascending key

theorem appended_own (wrote : List (Text × Option Text)) (ascending : Ascending rows fact.id) :
    Ascending (appendWrites fact moment bags rows wrote) fact.id ∧ ∀ key,
      (ownRows (appendWrites fact moment bags rows wrote) fact.id key).map FieldRow.stored =
        (ownRows rows fact.id key).map FieldRow.stored ++
          (wrote.filter (·.1 = key)).map fun row => ⟨row.1,row.2,bagOf bags row.1⟩ := by
  induction wrote generalizing rows with
  | nil => exact ⟨ascending,fun _ => (List.append_nil _).symm⟩
  | cons row rest ih =>
    let next : FieldRow := ⟨nextWrite fact (some moment) (rows.map (·.write)) row,bagOf bags row.1⟩
    have grown : ∀ key, ownRows (rows ++ [next]) fact.id key =
        ownRows rows fact.id key ++ if row.1 = key then [next] else [] := by
      intro key
      unfold ownRows
      rw [List.filter_append,List.filter_append]
      congr 1
      by_cases here : row.1 = key
      · simp [next,nextWrite,here]
      · simp [next,nextWrite,here]
    have still : Ascending (rows ++ [next]) fact.id := by
      intro key
      rw [grown]
      split
      · rename_i here
        refine List.pairwise_append.mpr ⟨ascending key,List.pairwise_singleton ..,?_⟩
        intro earlier member last is
        cases List.mem_singleton.mp is
        obtain ⟨⟨held,_⟩,same⟩ := mem_ownRows.mp member
        exact lt_nextOrdinal (List.mem_map_of_mem held) (same.trans here.symm)
      · rw [List.append_nil]
        exact ascending key
    obtain ⟨later,shown⟩ := ih still
    refine ⟨later,fun key => ?_⟩
    have step := shown key
    rw [grown,List.map_append,List.append_assoc] at step
    refine step.trans ?_
    congr 1
    by_cases here : row.1 = key
    · simp [here,FieldRow.stored,next,nextWrite]
    · simp [here]

-- An edit the store takes is judged by the writes the record holds, and what the record shows
-- after it is read off those writes and the ones the edit makes.
theorem edited_stored {after : List FieldRow} {patch : FieldPatch} {declared : List FoldType} {ownFieldsStay : Bool}
    (ascending : Ascending rows fact.id) (edits : edited rows fact patch declared ownFieldsStay moment = .ok after) :
    Ascending after fact.id ∧ ∃ classes,
      classesForWrite (heldBags (storedWrites rows fact.id)) patch.fields patch.sets patch.derived patch.clearFields declared
        ownFieldsStay = .ok classes ∧
      ∀ key, (foldFieldWrites (storedWrites after fact.id)).shown key =
        (foldFieldWrites (storedWrites rows fact.id ++
          editWrites patch (foldFieldWrites (storedWrites rows fact.id)).fields classes)).shown key := by
  unfold edited at edits
  rw [heldClasses_stored,carriedBy_stored] at edits
  cases classed : classesForWrite (heldBags (storedWrites rows fact.id)) patch.fields patch.sets patch.derived
      patch.clearFields declared ownFieldsStay with
  | error refused =>
    rw [classed] at edits
    cases edits
  | ok classes =>
    rw [classed] at edits
    cases Except.ok.inj edits
    obtain ⟨later,shown⟩ := @appended_own (restatedRows fact rows) fact classes moment
      (writesOf patch (foldFieldWrites (storedWrites rows fact.id)).fields) (restated_ascending ascending)
    refine ⟨later,classes,rfl,fun key => ?_⟩
    have said : (ownRows (restatedRows fact rows) fact.id key).map FieldRow.stored =
        storedUnder (storedWrites rows fact.id) key := by
      rw [stored_under ascending,restated_own,List.map_map]
      rfl
    rw [fold_shown,fold_shown,stored_under later,shown,said]
    unfold storedUnder editWrites
    rw [List.filter_append,List.filter_map]
    rfl

end Memory
