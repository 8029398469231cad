import Std.Data.ExtTreeSet.Lemmas
import Jojobot.Library.Laying
import Jojobot.Memory.Bags
import Jojobot.Memory.Testimony.Words

namespace Memory
open Library Std

structure StoredWrite where
  key : Text
  value : Option Text
  bag : WriteClass

-- A record's fields, the keys it sets on its thing and the keys that reach it.
structure RecordFields where
  fields : Fields := {}
  sets : ExtTreeSet Text := {}
  reaching : ExtTreeSet Text := {}

def foldFieldWrite (record : RecordFields) (write : StoredWrite) : RecordFields :=
  match write.value with
  | some value =>
    { fields := record.fields.insert write.key value
      sets := if write.bag = .sets then record.sets.insert write.key else record.sets.erase write.key
      reaching := if reachesTheThing write.bag then record.reaching.insert write.key
        else record.reaching.erase write.key }
  | none => ⟨record.fields.erase write.key,record.sets.erase write.key,record.reaching.erase write.key⟩

def foldFieldWrites (writes : List StoredWrite) : RecordFields := writes.foldl foldFieldWrite {}

-- The bag of each key a record holds now, over its own writes.
def heldBags (writes : List StoredWrite) : Bags :=
  writes.foldl (fun bags write =>
    if write.value.isSome then bags.insert write.key write.bag else bags.erase write.key) ∅

-- What an edit of a record appends to its writes.
def editWrites (patch : FieldPatch) (carried : Fields) (classes : Bags) : List StoredWrite :=
  (writesOf patch carried).map fun row => ⟨row.1,row.2,bagOf classes row.1⟩

-- What a record shows of one key: its value, and whether it is a setting and reaches.
def RecordFields.shown (record : RecordFields) (key : Text) : Option Text × Bool × Bool :=
  (record.fields[key]?,record.sets.contains key,record.reaching.contains key)

def StoredWrite.shown (write : StoredWrite) : Option Text × Bool × Bool :=
  match write.value with
  | some value => (some value,write.bag = .sets,reachesTheThing write.bag)
  | none => (none,false,false)

def storedUnder (writes : List StoredWrite) (key : Text) : List StoredWrite := writes.filter (·.key = key)

theorem fold_shown (writes : List StoredWrite) (key : Text) :
    (foldFieldWrites writes).shown key = ((storedUnder writes key).getLast?.map StoredWrite.shown).getD (none,false,false) := by
  have each := @foldl_by_key StoredWrite RecordFields Text (Option Text × Bool × Bool) _ (·.key) foldFieldWrite
    (·.shown key) (fun _ write => write.shown) key ?_ ?_ writes {}
  · unfold foldFieldWrites storedUnder
    rw [each,foldl_last]
    simp [RecordFields.shown]
  · intro record write other
    unfold foldFieldWrite RecordFields.shown
    cases write.value with
    | none => simp [ExtTreeMap.getElem?_erase,ExtTreeSet.contains_erase,other]
    | some value =>
      cases write.bag <;>
        simp [ExtTreeMap.getElem?_insert,ExtTreeSet.contains_insert,ExtTreeSet.contains_erase,reachesTheThing,other]
  · intro record write same
    subst same
    unfold foldFieldWrite RecordFields.shown StoredWrite.shown
    cases write.value with
    | none => simp [ExtTreeSet.contains_erase]
    | some value => cases write.bag <;> simp [ExtTreeSet.contains_insert,ExtTreeSet.contains_erase,reachesTheThing]

theorem held_bag (writes : List StoredWrite) (key : Text) :
    (heldBags writes)[key]? = (storedUnder writes key).getLast?.bind fun write => write.value.map fun _ => write.bag := by
  have each := @foldl_by_key StoredWrite Bags Text (Option WriteClass) _ (·.key)
    (fun bags write => if write.value.isSome then bags.insert write.key write.bag else bags.erase write.key)
    (·[key]?) (fun _ write => write.value.map fun _ => write.bag) key ?_ ?_ writes ∅
  · unfold heldBags storedUnder
    rw [each,foldl_last]
    cases (writes.filter (·.key = key)).getLast? <;> simp
  · intro bags write other
    cases write.value with
    | none => simp [ExtTreeMap.getElem?_erase,other]
    | some value => simp [ExtTreeMap.getElem?_insert,other]
  · intro bags write same
    subst same
    cases write.value <;> simp

-- A setting is held as one.
theorem setting_held {writes : List StoredWrite} {key : Text} (setting : key ∈ (foldFieldWrites writes).sets) :
    (heldBags writes)[key]? = some .sets := by
  have shown := congrArg (·.2.1) (fold_shown writes key)
  rw [held_bag]
  cases last : (storedUnder writes key).getLast? with
  | none =>
    simp only [RecordFields.shown,last] at shown
    rw [ExtTreeSet.contains_iff_mem.mpr setting] at shown
    cases shown
  | some write =>
    simp only [RecordFields.shown,last,StoredWrite.shown,Option.map_some,Option.getD_some] at shown
    rw [ExtTreeSet.contains_iff_mem.mpr setting] at shown
    cases value : write.value with
    | none =>
      rw [value] at shown
      cases shown
    | some held =>
      rw [value] at shown
      simpa [value] using shown.symm

-- A key in the settings reaches the thing, and has a value.
theorem setting_reaching {writes : List StoredWrite} {key : Text} (setting : key ∈ (foldFieldWrites writes).sets) :
    key ∈ (foldFieldWrites writes).reaching ∧ key ∈ (foldFieldWrites writes).fields := by
  have held := setting_held setting
  rw [held_bag] at held
  obtain ⟨write,last,bag⟩ := Option.bind_eq_some_iff.mp held
  obtain ⟨value,sent,sets⟩ := Option.map_eq_some_iff.mp bag
  have shown := fold_shown writes key
  rw [last] at shown
  simp only [Option.map_some,Option.getD_some,StoredWrite.shown,sent,RecordFields.shown,Prod.mk.injEq] at shown
  obtain ⟨held,_,reaches⟩ := shown
  refine ⟨?_,?_⟩
  · apply ExtTreeSet.contains_iff_mem.mp
    rw [reaches,sets]
    rfl
  · rw [ExtTreeMap.mem_iff_isSome_getElem?,held]
    rfl

theorem fold_fields (writes : List StoredWrite) : ∀ record,
    (writes.foldl foldFieldWrite record).fields = writes.foldl (fun fields write =>
      match write.value with
      | some value => fields.insert write.key value
      | none => fields.erase write.key) record.fields := by
  induction writes with
  | nil => intro _; rfl
  | cons write rest ih =>
    intro record
    rw [List.foldl_cons,List.foldl_cons,ih]
    congr 1
    unfold foldFieldWrite
    cases write.value <;> rfl

-- A clear of a key that is not there takes nothing off.
theorem takenOff_carried (fields : Fields) (keys : List Text) :
    takenOff fields (keys.filter (fields.contains ·)) = takenOff fields keys := by
  apply ExtTreeMap.ext_getElem?
  intro key
  by_cases cleared : key ∈ keys
  · rw [takenOff_gone fields (.inl cleared)]
    apply takenOff_gone
    cases held : fields[key]? with
    | none => exact .inr rfl
    | some value =>
      have carried : fields.contains key = true := by
        rw [←ExtTreeMap.isSome_getElem?_eq_contains,held]
        rfl
      exact .inl (List.mem_filter.mpr ⟨cleared,carried⟩)
  · rw [takenOff_kept fields cleared,takenOff_kept]
    intro has
    exact cleared (List.mem_filter.mp has).1

-- The fields a record's writes give once an edit is appended to them.
theorem edited_fields (writes : List StoredWrite) (edit : FieldPatch) (classes : Bags) :
    (foldFieldWrites (writes ++ editWrites edit (foldFieldWrites writes).fields classes)).fields =
      laid (takenOff (foldFieldWrites writes).fields (edit.clearFields.map trim))
        (edit.fields.toList.map fun row => (trim row.1,row.2)) := by
  rw [foldFieldWrites,List.foldl_append,fold_fields,←takenOff_carried,editWrites,writesOf,List.map_append,
    List.foldl_append]
  simp only [List.foldl_map,laid,takenOff]
  rfl

section
variable {edit : FieldPatch} {writes : List StoredWrite} {carried : Fields} {classes : Bags} {key : Text}

theorem mem_editWrites {write : StoredWrite} (has : write ∈ editWrites edit carried classes) :
    (write.value = none ∧ write.key ∈ edit.clearFields.map trim) ∨
      ∃ row ∈ edit.fields.toList, write = ⟨trim row.1,some row.2,bagOf classes (trim row.1)⟩ := by
  obtain ⟨sent,member,rfl⟩ := List.mem_map.mp has
  rcases List.mem_append.mp member with cleared | written
  · obtain ⟨name,named,rfl⟩ := List.mem_map.mp cleared
    exact .inl ⟨rfl,(List.mem_filter.mp named).1⟩
  · obtain ⟨row,hasRow,rfl⟩ := List.mem_map.mp written
    exact .inr ⟨row,hasRow,rfl⟩

-- A key an edit does not name shows what it did.
theorem unnamed_stays (uncleared : key ∉ edit.clearFields.map trim)
    (unwritten : key ∉ edit.fields.toList.map fun row => trim row.1) :
    (foldFieldWrites (writes ++ editWrites edit carried classes)).shown key = (foldFieldWrites writes).shown key := by
  have quiet : storedUnder (editWrites edit carried classes) key = [] := by
    apply List.filter_eq_nil_iff.mpr
    intro write has
    rcases mem_editWrites has with ⟨_,cleared⟩ | ⟨row,hasRow,rfl⟩
    · intro same
      exact uncleared (of_decide_eq_true same ▸ cleared)
    · intro same
      exact unwritten (List.mem_map.mpr ⟨row,hasRow,of_decide_eq_true same⟩)
  rw [fold_shown,fold_shown,storedUnder,List.filter_append]
  rw [show (editWrites edit carried classes).filter (·.key = key) = [] from quiet,List.append_nil]
  rfl

-- A key held as a setting is written as one.
theorem bagFor_setting {setting computed : Bool} {newOwnField bag : WriteClass}
    (chosen : bagFor (some .sets) setting computed newOwnField key = .ok bag) : bag = .sets := by
  unfold bagFor at chosen
  cases computed with
  | true => exact (Except.ok.inj chosen).symm
  | false =>
    cases setting with
    | true => exact (Except.ok.inj chosen).symm
    | false =>
      simp only [Bool.false_eq_true,if_false] at chosen
      split at chosen
      · exact (Except.ok.inj chosen).symm
      · cases chosen

theorem classed_bag {held : Bags} {sets derived cleared : List Text} {written : Fields} {declared : List FoldType}
    {ownFieldsStay : Bool} (classed : classesForWrite held written sets derived cleared declared ownFieldsStay = .ok classes)
    {row : Text × Text} (has : row ∈ written.toList) : ∃ setting computed newOwnField,
      bagFor held[trim row.1]? setting computed newOwnField (trim row.1) = .ok (bagOf classes (trim row.1)) := by
  unfold classesForWrite at classed
  split at classed
  · cases classed
  · dsimp only at classed
    generalize (if ownFieldsStay = true then WriteClass.stays else WriteClass.own) = newOwnField at classed
    cases ran : written.toList.foldlM (classWritten held sets derived newOwnField) ∅ with
    | error refused =>
      rw [ran] at classed
      cases classed
    | ok mid =>
      rw [ran] at classed
      cases Except.ok.inj classed
      obtain ⟨bag,chosen,kept⟩ := (classWritten_key ran).1 row has
      refine ⟨_,_,newOwnField,chosen.trans ?_⟩
      have reads : bagOf (cleared.foldl (classCleared held) mid) (trim row.1) = bag := by
        unfold bagOf
        rw [trim_trim,classCleared_keeps kept]
        rfl
      rw [reads]

-- A setting stays one until a clear takes it off.
theorem setting_stays {declared : List FoldType} {ownFieldsStay : Bool}
    (classed : classesForWrite (heldBags writes) edit.fields edit.sets edit.derived edit.clearFields declared ownFieldsStay =
      .ok classes) (setting : key ∈ (foldFieldWrites writes).sets) (uncleared : key ∉ edit.clearFields.map trim) :
    key ∈ (foldFieldWrites (writes ++ editWrites edit carried classes)).sets := by
  have shown := congrArg (·.2.1) (fold_shown (writes ++ editWrites edit carried classes) key)
  have before := congrArg (·.2.1) (fold_shown writes key)
  simp only [RecordFields.shown,ExtTreeSet.contains_iff_mem.mpr setting] at before
  apply ExtTreeSet.contains_iff_mem.mp
  simp only [RecordFields.shown] at shown
  rw [shown,storedUnder,List.filter_append,List.getLast?_append]
  cases last : ((editWrites edit carried classes).filter (·.key = key)).getLast? with
  | none => exact before.symm
  | some write =>
    obtain ⟨member,same⟩ := List.mem_filter.mp (List.mem_of_getLast? last)
    have same := of_decide_eq_true same
    rcases mem_editWrites member with ⟨_,cleared⟩ | ⟨row,hasRow,rfl⟩
    · exact absurd (same ▸ cleared) uncleared
    · obtain ⟨_,_,_,chosen⟩ := classed_bag classed hasRow
      have key' : trim row.1 = key := same
      rw [key',setting_held setting] at chosen
      have bag := bagFor_setting chosen
      simp [StoredWrite.shown,key',bag]

end

end Memory

namespace Testimony
open Library Std Memory

theorem patchedFields_laid (fields : Fields) (patch : FactPatch) :
    patchedFields fields patch = laid (takenOff fields (patch.clearFields.map trim))
      (patch.fields.toList.map fun row => (trim row.1,row.2)) := by
  simp only [patchedFields,laid,takenOff,List.foldl_map]

theorem keepOnRewrite_names (fact : Fact) (patch : FactPatch) (own : Bool) :
    (keepOnRewrite fact patch own).clearFields = patch.clearFields ∧ (keepOnRewrite fact patch own).fields = patch.fields := by
  unfold keepOnRewrite
  dsimp only
  split
  · split
    · exact ⟨rfl,rfl⟩
    · exact ⟨rfl,rfl⟩
  · split
    · exact ⟨rfl,rfl⟩
    · exact ⟨rfl,rfl⟩

-- The keys a settled patch names are those that were sent, and the reason an archive gives.
theorem settleRewrite_names {loaded : List Text} {address : FactAddress} {fact : Fact} {patch settled : FactPatch}
    {writtenIn : Option Text} {declared : List FoldType}
    (settles : settleRewrite loaded address fact patch writtenIn declared = .ok settled) :
    settled.clearFields = patch.clearFields ∧ (settled.fields = patch.fields ∨
      patch.status = some .archived ∧ ∃ reason, settled.fields = patch.fields.insert ARCHIVE_REASON reason) := by
  have reasoned : (settleReason fact patch).clearFields = patch.clearFields ∧
      ((settleReason fact patch).fields = patch.fields ∨ patch.status = some .archived ∧
        ∃ reason, (settleReason fact patch).fields = patch.fields.insert ARCHIVE_REASON reason) := by
    unfold settleReason
    split
    · rename_i archives
      split
      · rename_i reason _
        dsimp only
        split
        · exact ⟨rfl,.inr ⟨archives,reason,rfl⟩⟩
        · exact ⟨rfl,.inl rfl⟩
      · exact ⟨rfl,.inl rfl⟩
    · exact ⟨rfl,.inl rfl⟩
  have kept : settled.clearFields = (settleReason fact patch).clearFields ∧
      settled.fields = (settleReason fact patch).fields := by
    unfold settleRewrite at settles
    dsimp only at settles
    generalize (settleReason fact patch).content.any _ = rewritesWords at settles
    cases rewritesWords with
    | true =>
      simp only [Bool.not_true,Bool.false_and,Bool.false_eq_true,if_false,if_true] at settles
      split at settles
      · cases settles
      · split at settles
        · cases settles
        · cases Except.ok.inj settles
          exact keepOnRewrite_names ..
    | false =>
      simp only [Bool.not_false,Bool.true_and,Bool.false_eq_true,if_false] at settles
      split at settles
      · cases Except.ok.inj settles
        exact ⟨rfl,rfl⟩
      · split at settles
        · cases settles
        · split at settles
          · cases settles
          · cases Except.ok.inj settles
            exact ⟨rfl,rfl⟩
  rw [kept.1,kept.2]
  exact reasoned

-- The fields a claim is left with by an edit that lands.
theorem applied_fields {loaded : List Text} {fact after : Fact} {patch : FactPatch}
    (applies : applyFactPatch loaded fact patch = .ok after) : after.fields = patchedFields fact.fields patch := by
  unfold applyFactPatch at applies
  cases checked : checkPatch loaded fact patch with
  | error refused =>
    rw [checked] at applies
    cases applies
  | ok receipt =>
    rw [checked] at applies
    have landed : (do
        validateProvenanceSource (applied fact patch receipt).provenance (applied fact patch receipt).fields
        Except.ok (applied fact patch receipt) : Result Fact) = .ok after := applies
    cases sourced : validateProvenanceSource (applied fact patch receipt).provenance (applied fact patch receipt).fields with
    | error refused =>
      rw [sourced] at landed
      cases landed
    | ok _ =>
      rw [sourced] at landed
      cases Except.ok.inj landed
      have carried : ∀ (fact : Fact) reworded brought, (carry fact reworded brought).fields = fact.fields := by
        intro fact reworded brought
        unfold carry
        split
        · rfl
        · split
          · rfl
          · rfl
      simp only [applied,carried]

-- What an edit that lands leaves of a record, read back from its writes.
structure ReadsBack (before later : RecordFields) (after : Fact) (sent settled : FactPatch) : Prop where
  fields : later.fields = after.fields
  settings : ∀ key ∈ later.sets, key ∈ later.reaching ∧ key ∈ later.fields
  kept : ∀ key ∈ before.sets, key ∉ settled.clearFields.map trim → key ∈ later.sets
  others : ∀ key, key ∉ settled.clearFields.map trim → key ∉ (settled.fields.toList.map fun row => trim row.1) →
    later.fields[key]? = before.fields[key]? ∧ (key ∈ later.sets ↔ key ∈ before.sets) ∧
      (key ∈ later.reaching ↔ key ∈ before.reaching)
  named : settled.clearFields = sent.clearFields ∧ (settled.fields = sent.fields ∨
    sent.status = some .archived ∧ ∃ reason, settled.fields = sent.fields.insert ARCHIVE_REASON reason)

theorem edited_record_reads_back (loaded : List Text) (address : FactAddress) (writtenIn : Option Text)
    (declared : List FoldType) (ownFieldsStay : Bool) {writes : List StoredWrite} {fact after : Fact}
    {patch settled : FactPatch} {sets derived : List Text} {classes : Bags}
    (served : fact.fields = (foldFieldWrites writes).fields)
    (settles : settleRewrite loaded address fact patch writtenIn declared = .ok settled)
    (classed : classesForWrite (heldBags writes) settled.fields sets derived settled.clearFields declared ownFieldsStay =
      .ok classes)
    (applies : applyFactPatch loaded fact settled = .ok after) :
    ReadsBack (foldFieldWrites writes)
      (foldFieldWrites (writes ++ editWrites ⟨settled.fields,settled.clearFields,sets,derived⟩ fact.fields classes))
      after patch settled := by
  constructor
  · rw [applied_fields applies,patchedFields_laid,served]
    exact edited_fields writes ⟨settled.fields,settled.clearFields,sets,derived⟩ classes
  · intro key setting
    exact setting_reaching setting
  · intro key setting uncleared
    exact @setting_stays ⟨settled.fields,settled.clearFields,sets,derived⟩ writes fact.fields classes key declared
      ownFieldsStay classed setting uncleared
  · intro key uncleared unwritten
    have stays := @unnamed_stays ⟨settled.fields,settled.clearFields,sets,derived⟩ writes fact.fields classes key
      uncleared unwritten
    simp only [RecordFields.shown,Prod.mk.injEq] at stays
    refine ⟨stays.1,?_,?_⟩
    · rw [←ExtTreeSet.contains_iff_mem,←ExtTreeSet.contains_iff_mem,stays.2.1]
    · rw [←ExtTreeSet.contains_iff_mem,←ExtTreeSet.contains_iff_mem,stays.2.2]
  · exact settleRewrite_names settles

def shedClaim : Fact where
  id := "f1".toList
  home := "thing:shed".toList
  content := "the shed".toList
  details := none
  status := .active
  fields := ((∅ : Fields).insert "cost".toList "5".toList).insert "owner".toList "ann".toList
  provenance := .inference
  standing := .unsettled
  recordedAt := 0
  happenedAt := none
  happenedThrough := none
  staleAfter := none
  receipt := none
  appStamp := none
  edge := none
  derivedFrom := none
  standsFor := []

def shedWrites : List StoredWrite :=
  [⟨"cost".toList,some "5".toList,.stays⟩,⟨"owner".toList,some "ann".toList,.sets⟩]

-- The cost moves to the settings, spelled with spaces, and the owner is taken off.
def shedPatch : FactPatch where
  fields := (∅ : Fields).insert " cost ".toList "7".toList
  clearFields := ["owner ".toList]

theorem a_moved_cost_reads_back : ∃ after later, ReadsBack (foldFieldWrites shedWrites) later after shedPatch shedPatch ∧
    "cost".toList ∈ later.sets := by
  have back := @edited_record_reads_back [] ⟨"thing:shed".toList,"f1".toList⟩ none [] true shedWrites shedClaim _
    shedPatch shedPatch ["cost".toList] [] _ (by rfl) (by rfl) (by rfl) (by rfl)
  exact ⟨_,_,back,by decide +kernel⟩

end Testimony
