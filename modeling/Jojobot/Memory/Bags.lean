import Jojobot.Attention
import Jojobot.Memory.Facts
import Jojobot.Memory.Folded

namespace Memory
open Library Std

-- A stored write of a key, with the bag it was made under.
structure FieldRow where
  write : KeyWrite
  bag : WriteClass

-- The writes of a thing's keys that reach it.
def writesOn (rows : List FieldRow) : List KeyWrite := (rows.filter fun row => reachesTheThing row.bag).map (·.write)

-- The keys jojobot writes on a thing by its own arithmetic.
def COMPUTED_KEYS : List Text := [Attention.OUTCOME,Attention.LAST_CHECK_IN,Attention.COUNTS_FROM,Attention.DUE_ON]

-- The parts of an edit a record's keys are written by. A setting is a key of `fields`
-- that is written on the thing; a derived one is jojobot's own arithmetic.
structure FieldPatch where
  fields : Fields := {}
  clearFields : List Text := []
  sets : List Text := []
  derived : List Text := []

inductive BagRefused where
  | settingWithoutValue (key : Text)
  | describingSetting (key : Text)
  | keyInOtherBag (key held named : Text)
deriving DecidableEq

def refusedSetting (written : Fields) (declared : List FoldType) (key : Text) : Option BagRefused :=
  let key := trim key
  if !written.toList.any (fun row => trim row.1 = key) then some (.settingWithoutValue key)
  else if foldOf key declared = .describes then some (.describingSetting key)
  else none

def names (keys : List Text) (key : Text) : Bool := keys.any fun named => trim named = key

def bagFor (held : Option WriteClass) (setting computed : Bool) (newOwnField : WriteClass) (key : Text) :
    Except BagRefused WriteClass :=
  if computed then
    match held with
    | some .legacy => .ok .legacy
    | some .own => .ok .own
    | _ => .ok .sets
  else match held,setting with
    | none,true | some .sets,true => .ok .sets
    | none,false => .ok newOwnField
    | some .legacy,false => .ok .legacy
    | some .own,false => .ok .own
    | some .stays,false => .ok .stays
    | some .sets,false =>
      if COMPUTED_KEYS.contains key then .ok .sets
      else .error (.keyInOtherBag key "a setting on the thing".toList "one of the record's own fields".toList)
    | some .legacy,true | some .own,true | some .stays,true => .ok .sets

abbrev Bags := ExtTreeMap Text WriteClass

def classWritten (held : Bags) (sets derived : List Text) (newOwnField : WriteClass) (bags : Bags) (row : Text × Text) :
    Except BagRefused Bags :=
  let key := trim row.1
  (bagFor held[key]? (names sets key) (names derived key) newOwnField key).map (bags.insert key)

-- A clear keeps the bag of the key it clears.
def classCleared (held bags : Bags) (key : Text) : Bags :=
  match held[trim key]? with
  | some bag => if bags.contains (trim key) then bags else bags.insert (trim key) bag
  | none => bags

-- The bag each key of a write is written under. `held` is the bag of each key the record
-- holds now.
def classesForWrite (held : Bags) (written : Fields) (sets derived cleared : List Text) (declared : List FoldType)
    (ownFieldsStay : Bool) : Except BagRefused Bags :=
  match sets.findSome? (refusedSetting written declared) with
  | some refused => .error refused
  | none =>
    let newOwnField : WriteClass := if ownFieldsStay then .stays else .own
    (written.toList.foldlM (classWritten held sets derived newOwnField) ∅).map fun bags =>
      cleared.foldl (classCleared held) bags

-- The writes an edit makes on a record's keys: a clear of a key the record does not
-- carry is none.
def writesOf (patch : FieldPatch) (carried : Fields) : List (Text × Option Text) :=
  ((patch.clearFields.map trim).filter (carried.contains ·)).map (fun key => (key,none)) ++
    patch.fields.toList.map fun row => (trim row.1,some row.2)

-- A new record's keys, each a write.
def writtenKeys (fact : Fact) : List (Text × Option Text) := fact.fields.toList.map fun row => (row.1,some row.2)

-- The next ordinal of a key, as the store and the prediction both count it.
def nextOrdinal (writes : List KeyWrite) (key : Text) : Nat :=
  ((writes.filter (·.key = key)).map (·.ordinal)).foldr max 0 + 1

def nextWrite (fact : Fact) (moment : Option Timestamp) (writes : List KeyWrite) (row : Text × Option Text) : KeyWrite where
  key := row.1
  ordinal := nextOrdinal writes row.1
  value := row.2
  fact := fact.id
  status := fact.status
  writtenAt := moment

-- A key nobody classed is an own field of its record.
def bagOf (bags : Bags) (key : Text) : WriteClass := (bags[trim key]?).getD .own

def appendWrites (fact : Fact) (moment : Timestamp) (bags : Bags) (rows : List FieldRow) (wrote : List (Text × Option Text)) :
    List FieldRow :=
  wrote.foldl (fun rows row => rows ++ [⟨nextWrite fact (some moment) (rows.map (·.write)) row,bagOf bags row.1⟩]) rows

-- A status is its writes' standing.
def restated (fact : Fact) (write : KeyWrite) : KeyWrite :=
  { write with status := if write.fact = fact.id then fact.status else write.status }

def restatedRows (fact : Fact) (rows : List FieldRow) : List FieldRow := rows.map fun row => { row with write := restated fact row.write }

-- The newest write of each key on one record, a clear taking the key off.
def recordRows (rows : List FieldRow) (id : Text) : List FieldRow :=
  sortBy (fun a b => byKeyAndOrdinal a.write b.write) (rows.filter (·.write.fact = id))

def heldClasses (rows : List FieldRow) (id : Text) : Bags :=
  (recordRows rows id).foldl (fun bags row =>
    if row.write.value.isSome then bags.insert row.write.key row.bag else bags.erase row.write.key) ∅

def carriedBy (rows : List FieldRow) (id : Text) : Fields :=
  (recordRows rows id).foldl (fun fields row =>
    match row.write.value with
    | some value => fields.insert row.write.key value
    | none => fields.erase row.write.key) ∅

-- A capture, as the store appends it.
def captured (rows : List FieldRow) (fact : Fact) (sets derived : List Text) (declared : List FoldType)
    (ownFieldsStay : Bool) (moment : Timestamp) : Except BagRefused (List FieldRow) := do
  let bags ← classesForWrite ∅ fact.fields sets derived [] declared ownFieldsStay
  .ok (appendWrites fact moment bags rows (writtenKeys fact))

-- An edit of a record, which `fact` is once the patch is applied.
def edited (rows : List FieldRow) (fact : Fact) (patch : FieldPatch) (declared : List FoldType) (ownFieldsStay : Bool)
    (moment : Timestamp) : Except BagRefused (List FieldRow) := do
  let bags ← classesForWrite (heldClasses rows fact.id) patch.fields patch.sets patch.derived patch.clearFields declared
    ownFieldsStay
  .ok (appendWrites fact moment bags (restatedRows fact rows) (writesOf patch (carriedBy rows fact.id)))

-- What the write guards judge, read over the writes that reach the thing.
def pushed (fact : Fact) (writes : List KeyWrite) (wrote : List (Text × Option Text)) : List KeyWrite :=
  wrote.foldl (fun writes row => writes ++ [nextWrite fact none writes row]) writes

theorem classWritten_key {held bags after : Bags} {sets derived : List Text} {newOwnField : WriteClass} {rows : List (Text × Text)}
    (classed : rows.foldlM (classWritten held sets derived newOwnField) bags = .ok after) :
    (∀ row ∈ rows, ∃ bag, bagFor held[trim row.1]? (names sets (trim row.1)) (names derived (trim row.1)) newOwnField
        (trim row.1) = .ok bag ∧ after[trim row.1]? = some bag) ∧
      ∀ key, (∀ row ∈ rows, trim row.1 ≠ key) → after[key]? = bags[key]? := by
  induction rows generalizing bags with
  | nil =>
    cases Except.ok.inj classed
    exact ⟨by simp,fun _ _ => rfl⟩
  | cons first rest ih =>
    have step : classWritten held sets derived newOwnField bags first =
        (bagFor held[trim first.1]? (names sets (trim first.1)) (names derived (trim first.1)) newOwnField
          (trim first.1)).map (bags.insert (trim first.1)) := rfl
    rw [List.foldlM_cons,step] at classed
    cases chosen : bagFor held[trim first.1]? (names sets (trim first.1)) (names derived (trim first.1)) newOwnField
        (trim first.1) with
    | error refused =>
      rw [chosen] at classed
      cases classed
    | ok bag =>
      rw [chosen] at classed
      obtain ⟨named,others⟩ := ih classed
      constructor
      · intro row member
        rcases List.mem_cons.mp member with same | later
        · subst same
          refine ⟨bag,chosen,?_⟩
          by_cases again : ∃ other ∈ rest, trim other.1 = trim row.1
          · obtain ⟨other,found,equal⟩ := again
            obtain ⟨bag',chosen',held'⟩ := named other found
            rw [equal,chosen] at chosen'
            rw [equal] at held'
            rw [held',Except.ok.inj chosen']
          · rw [others _ fun other found equal => again ⟨other,found,equal⟩]
            simp
        · exact named row later
      · intro key quiet
        rw [others key fun row member => quiet row (List.mem_cons_of_mem _ member)]
        have here := quiet first List.mem_cons_self
        simp [ExtTreeMap.getElem?_insert,here]

theorem classCleared_keeps {held bags : Bags} {cleared : List Text} {key : Text} {bag : WriteClass}
    (kept : bags[key]? = some bag) : (cleared.foldl (classCleared held) bags)[key]? = some bag := by
  induction cleared generalizing bags with
  | nil => exact kept
  | cons first rest ih =>
    apply ih
    unfold classCleared
    split
    · split
      · exact kept
      · rename_i absent
        have other : trim first ≠ key := by
          intro same
          apply absurd absent
          rw [same,not_not,←ExtTreeMap.isSome_getElem?_eq_contains,kept]
          rfl
        simp [ExtTreeMap.getElem?_insert,other,kept]
    · exact kept

-- A setting the classes of a write let through is written as one, or as a computed key
-- that reaches the thing already.
theorem setting_reaches {held bags : Bags} {written : Fields} {sets derived cleared : List Text} {declared : List FoldType}
    {ownFieldsStay : Bool} (classed : classesForWrite held written sets derived cleared declared ownFieldsStay = .ok bags)
    {row : Text × Text} (member : row ∈ written.toList) (setting : sets.contains row.1 = true) :
    reachesTheThing (bagOf bags (trim row.1)) = true := by
  have named : names sets (trim row.1) = true :=
    List.any_eq_true.mpr ⟨row.1,List.contains_iff_mem.mp setting,decide_eq_true rfl⟩
  unfold classesForWrite at classed
  split at classed
  · cases classed
  · dsimp only at classed
    generalize (if ownFieldsStay = true then WriteClass.stays else WriteClass.own) = newOwnField at classed
    cases ran : written.toList.foldlM (classWritten held sets derived newOwnField) ∅ with
    | error refused =>
      rw [ran] at classed
      cases classed
    | ok mid =>
      rw [ran] at classed
      cases Except.ok.inj classed
      obtain ⟨bag,chosen,kept⟩ := (classWritten_key ran).1 row member
      have reads : bagOf (cleared.foldl (classCleared held) mid) (trim row.1) = bag := by
        unfold bagOf
        rw [trim_trim,classCleared_keeps kept]
        rfl
      rw [reads]
      rw [named] at chosen
      unfold bagFor at chosen
      split at chosen
      · split at chosen
        all_goals
          cases Except.ok.inj chosen
          rfl
      · split at chosen
        all_goals first
          | (cases Except.ok.inj chosen; rfl)
          | simp_all

variable [Floats]

def stoodAfter (writes : List KeyWrite) (edited : Fact) (patch : FieldPatch) (carried : Fields) (declared : List FoldType) :
    Fields :=
  foldedFields (pushed edited (writes.map (restated edited)) (writesOf patch carried)) declared

def stoodAfterCapture (writes : List KeyWrite) (captured : Fact) (declared : List FoldType) : Fields :=
  foldedFields (pushed captured writes (writtenKeys captured)) declared

end Memory
