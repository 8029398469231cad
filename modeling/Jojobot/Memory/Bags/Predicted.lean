import Jojobot.Memory.Bags

namespace Memory
open Library Std

variable {declared : List FoldType} {key : Text} {fact : Fact} {writes : List KeyWrite} {rows : List FieldRow} {bags : Bags}
  {wrote : List (Text × Option Text)} {moment : Timestamp}

instance byWrite_trans : TransCmp fun a b : FieldRow => byKeyAndOrdinal a.write b.write :=
  inferInstanceAs (TransCmp (compareLex (compareOn fun row : FieldRow => row.write.key)
    (compareOn fun row : FieldRow => row.write.ordinal)))

theorem lt_nextOrdinal {other : KeyWrite} (member : other ∈ writes) (same : other.key = key) :
    other.ordinal < nextOrdinal writes key := by
  have bound : ∀ (ordinals : List Nat) (n : Nat), n ∈ ordinals → n ≤ ordinals.foldr max 0 := by
    intro ordinals n found
    induction ordinals with
    | nil => cases found
    | cons first rest ih =>
      rcases List.mem_cons.mp found with here | later
      · exact here ▸ Nat.le_max_left ..
      · exact Nat.le_trans (ih later) (Nat.le_max_right ..)
  have found : other.ordinal ∈ (writes.filter (·.key = key)).map (·.ordinal) :=
    List.mem_map_of_mem (List.mem_filter.mpr ⟨member,decide_eq_true same⟩)
  exact Nat.lt_succ_of_le (bound _ _ found)

theorem le_nextOrdinal {other : KeyWrite} (member : other ∈ writes) (same : other.key = key) :
    other.ordinal ≤ nextOrdinal writes key := (lt_nextOrdinal member same).le

-- What a write sends for one key, in the order it is written.
def valuesFor (key : Text) (wrote : List (Text × Option Text)) : List (Option Text) :=
  (wrote.filter (·.1 = key)).map (·.2)

-- The writes of a key that count are those of an active record, of a key that is not reserved.
def Stands (fact : Fact) (key : Text) : Prop := fact.status = .active ∧ reservedKey key = false

instance : Decidable (Stands fact key) := inferInstanceAs (Decidable (_ ∧ _))

variable [Floats]

def Cell.layAll (declared : List FoldType) (key : Text) (cell : Cell) (sent : List (Option Text)) : Cell :=
  sent.foldl (Cell.lay declared key) cell

theorem pushed_cell (declared : List FoldType) (key : Text) (fact : Fact) (writes : List KeyWrite)
    (wrote : List (Text × Option Text)) : cellOf declared key (pushed fact writes wrote) =
      if Stands fact key then (cellOf declared key writes).layAll declared key (valuesFor key wrote)
      else cellOf declared key writes := by
  induction wrote generalizing writes with
  | nil =>
    split
    · rfl
    · rfl
  | cons row rest ih =>
    change cellOf declared key (pushed fact (writes ++ [nextWrite fact none writes row]) rest) = _
    rw [ih,cellOf_concat declared key fun other member same => le_nextOrdinal member same]
    unfold valuesFor
    by_cases stands : Stands fact key
    · rw [if_pos stands,if_pos stands,List.filter_cons]
      by_cases same : row.1 = key
      · rw [if_pos ⟨same,stands⟩,if_pos (decide_eq_true same)]
        rfl
      · rw [if_neg fun counted => same counted.1,if_neg (by simpa using same)]
    · rw [if_neg stands,if_neg stands,if_neg fun counted => stands counted.2]

omit [Floats] in
theorem writesOn_append (rows more : List FieldRow) : writesOn (rows ++ more) = writesOn rows ++ writesOn more := by
  unfold writesOn
  rw [List.filter_append,List.map_append]

-- The write a key's bag keeps on its record is no write of the thing.
theorem appendWrites_cell (declared : List FoldType) (key : Text) (fact : Fact) (moment : Timestamp) (bags : Bags)
    (rows : List FieldRow) (wrote : List (Text × Option Text)) :
    cellOf declared key (writesOn (appendWrites fact moment bags rows wrote)) =
      if Stands fact key ∧ reachesTheThing (bagOf bags key) = true then
        (cellOf declared key (writesOn rows)).layAll declared key (valuesFor key wrote)
      else cellOf declared key (writesOn rows) := by
  induction wrote generalizing rows with
  | nil =>
    split
    · rfl
    · rfl
  | cons row rest ih =>
    have newest : ∀ other ∈ writesOn rows, other.key = row.1 →
        other.ordinal ≤ (nextWrite fact (some moment) (rows.map (·.write)) row).ordinal := by
      intro other member same
      obtain ⟨held,found,equal⟩ := List.mem_map.mp member
      apply le_nextOrdinal _ same
      exact List.mem_map.mpr ⟨held,(List.mem_filter.mp found).1,equal⟩
    change cellOf declared key (writesOn (appendWrites fact moment bags (rows ++ [_]) rest)) = _
    rw [ih,writesOn_append]
    have alone : writesOn [⟨nextWrite fact (some moment) (rows.map (·.write)) row,bagOf bags row.1⟩] =
        if reachesTheThing (bagOf bags row.1) = true then [nextWrite fact (some moment) (rows.map (·.write)) row] else [] := by
      unfold writesOn
      rw [List.filter_cons]
      split
      · rfl
      · rfl
    rw [alone]
    unfold valuesFor
    rw [List.filter_cons]
    by_cases same : row.1 = key
    · subst same
      rw [if_pos (decide_eq_true rfl)]
      by_cases reaches : reachesTheThing (bagOf bags row.1) = true
      · rw [if_pos reaches,cellOf_concat declared row.1 newest]
        by_cases stands : Stands fact row.1
        · have counted : row.1 = row.1 ∧ Stands fact row.1 := ⟨rfl,stands⟩
          have both : Stands fact row.1 ∧ reachesTheThing (bagOf bags row.1) = true := ⟨stands,reaches⟩
          rw [if_pos both,if_pos both]
          exact congrArg (Cell.layAll declared row.1 · _) (if_pos counted)
        · have uncounted : ¬(Stands fact row.1 ∧ reachesTheThing (bagOf bags row.1) = true) := fun both => stands both.1
          rw [if_neg uncounted,if_neg uncounted]
          exact if_neg fun counted => stands counted.2
      · rw [if_neg reaches,List.append_nil,if_neg fun both => reaches both.2,if_neg fun both => reaches both.2]
    · have skipped : ¬decide (row.1 = key) = true := by simpa using same
      rw [if_neg skipped]
      have unmoved : cellOf declared key (writesOn rows ++
          if reachesTheThing (bagOf bags row.1) = true then [nextWrite fact (some moment) (rows.map (·.write)) row] else []) =
          cellOf declared key (writesOn rows) := by
        split
        · rw [cellOf_concat declared key newest,if_neg fun counted => same counted.1]
        · rw [List.append_nil]
      rw [unmoved]

-- What the sent values of a key would do to the value the thing holds under it, if they
-- reached the thing: nothing.
def MovesNothing (declared : List FoldType) (key : Text) (held : Cell) (sent : List (Option Text)) : Prop :=
  match foldOf key declared with
  | .describes => True
  | .newest => ∀ last, sent.getLast? = some last → held.value = last.filter (counts declared key)
  | .sum => (held.layAll declared key sent).value = held.value

theorem describes_nothing (describes : foldOf key declared = .describes) (sent : List (Option Text)) :
    (({} : Cell).layAll declared key sent).value = none := by
  have fixed : ∀ value, ({} : Cell).lay declared key value = {} := by
    intro value
    unfold Cell.lay
    rw [describes]
    split
    · rfl
    · rfl
  unfold Cell.layAll
  induction sent with
  | nil => rfl
  | cons first rest ih =>
    rw [List.foldl_cons,fixed]
    exact ih

theorem newest_last (newest : foldOf key declared = .newest) (held : Cell) (sent : List (Option Text)) (last : Option Text) :
    (held.layAll declared key (sent ++ [last])).value = last.filter (counts declared key) := by
  unfold Cell.layAll
  rw [List.foldl_append]
  change (Cell.lay declared key _ last).value = _
  unfold Cell.lay
  rw [newest]
  cases last.filter (counts declared key) with
  | none => rfl
  | some value => rfl

theorem movesNothing_iff (declared : List FoldType) (key : Text) (writes : List KeyWrite) (sent : List (Option Text)) :
    MovesNothing declared key (cellOf declared key writes) sent ↔
      ((cellOf declared key writes).layAll declared key sent).value = (cellOf declared key writes).value := by
  unfold MovesNothing
  cases folds : foldOf key declared with
  | describes =>
    have still := describes_nothing folds (sentFor key writes ++ sent)
    have before := describes_nothing folds (sentFor key writes)
    unfold Cell.layAll at still before ⊢
    rw [List.foldl_append] at still
    exact iff_of_true trivial (still.trans before.symm)
  | sum => exact Iff.rfl
  | newest =>
    rcases List.eq_nil_or_concat' sent with empty | ⟨front,last,shape⟩
    · subst empty
      simp [Cell.layAll]
    · subst shape
      rw [newest_last folds]
      simp [eq_comm]

-- Where the prediction and the store part company: a key that stays on its record.
theorem predicted_iff (declared : List FoldType) (fact : Fact) (moment : Timestamp) (bags : Bags) (rows : List FieldRow)
    (wrote : List (Text × Option Text)) :
    foldedFields (pushed fact (writesOn rows) wrote) declared =
        foldedFields (writesOn (appendWrites fact moment bags rows wrote)) declared ↔
      ∀ key, bagOf bags key = .stays → Stands fact key →
        MovesNothing declared key (cellOf declared key (writesOn rows)) (valuesFor key wrote) := by
  constructor
  · intro same key stays stands
    rw [movesNothing_iff]
    have here : (foldedFields (pushed fact (writesOn rows) wrote) declared)[key]? =
        (foldedFields (writesOn (appendWrites fact moment bags rows wrote)) declared)[key]? := by rw [same]
    rw [foldedFields_key,foldedFields_key,pushed_cell,appendWrites_cell,if_pos stands] at here
    rw [here,if_neg]
    intro both
    rw [stays] at both
    cases both.2
  · intro still
    apply ExtTreeMap.ext_getElem?
    intro key
    rw [foldedFields_key,foldedFields_key,pushed_cell,appendWrites_cell]
    by_cases stands : Stands fact key
    · rw [if_pos stands]
      cases bag : bagOf bags key with
      | stays =>
        rw [if_neg fun both => Bool.false_ne_true both.2]
        exact (movesNothing_iff ..).mp (still key bag stands)
      | legacy => rw [if_pos ⟨stands,rfl⟩]
      | own => rw [if_pos ⟨stands,rfl⟩]
      | sets => rw [if_pos ⟨stands,rfl⟩]
    · rw [if_neg stands,if_neg fun both => stands both.1]

omit [Floats] in
theorem writesOn_restated (fact : Fact) (rows : List FieldRow) :
    writesOn (restatedRows fact rows) = (writesOn rows).map (restated fact) := by
  unfold writesOn restatedRows
  rw [List.filter_map,List.map_map,List.map_map]
  rfl

-- What the store holds under no key changes by what stays on the record.
def StaysQuiet (declared : List FoldType) (fact : Fact) (bags : Bags) (rows : List FieldRow)
    (wrote : List (Text × Option Text)) : Prop :=
  ∀ key, bagOf bags key = .stays → fact.status = .active → reservedKey key = false →
    MovesNothing declared key (cellOf declared key (writesOn rows)) (valuesFor key wrote)

theorem guards_judge_what_the_store_holds (declared : List FoldType) (rows : List FieldRow) (fact : Fact) (moment : Timestamp)
    (ownFieldsStay : Bool) :
    (∀ sets derived bags, classesForWrite ∅ fact.fields sets derived [] declared ownFieldsStay = .ok bags →
      ∃ after, captured rows fact sets derived declared ownFieldsStay moment = .ok after ∧
        (stoodAfterCapture (writesOn rows) fact declared = foldedFields (writesOn after) declared ↔
          StaysQuiet declared fact bags rows (writtenKeys fact))) ∧
    ∀ patch bags, classesForWrite (heldClasses rows fact.id) patch.fields patch.sets patch.derived patch.clearFields declared
        ownFieldsStay = .ok bags →
      ∃ after, edited rows fact patch declared ownFieldsStay moment = .ok after ∧
        (stoodAfter (writesOn rows) fact patch (carriedBy rows fact.id) declared = foldedFields (writesOn after) declared ↔
          StaysQuiet declared fact bags (restatedRows fact rows) (writesOf patch (carriedBy rows fact.id))) := by
  have quiet : ∀ bags rows wrote, (∀ key, bagOf bags key = .stays → Stands fact key →
      MovesNothing declared key (cellOf declared key (writesOn rows)) (valuesFor key wrote)) ↔
      StaysQuiet declared fact bags rows wrote := by
    intro bags rows wrote
    apply forall_congr'
    intro key
    apply imp_congr_right
    intro _
    exact and_imp
  constructor
  · intro sets derived bags classed
    refine ⟨_,by rw [captured,classed]; rfl,?_⟩
    exact (predicted_iff declared fact moment bags rows (writtenKeys fact)).trans (quiet ..)
  · intro patch bags classed
    refine ⟨_,by rw [edited,classed]; rfl,?_⟩
    unfold stoodAfter
    rw [←writesOn_restated]
    exact (predicted_iff declared fact moment bags (restatedRows fact rows) _).trans (quiet ..)

def redClaim : Fact where
  id := "f1".toList
  home := "thing:a".toList
  content := "painted".toList
  details := none
  status := .active
  fields := (∅ : Fields).insert "colour".toList "red".toList

def redRow : FieldRow := ⟨⟨"colour".toList,1,some "red".toList,"f0".toList,.active,some 0⟩,.sets⟩

def largeClaim : Fact := { redClaim with fields := redClaim.fields.insert "size".toList "large".toList }

def largeBags : Bags := ((∅ : Bags).insert "colour".toList .stays).insert "size".toList .sets

omit [Floats] in
-- Red where the thing is red already, an own field that stays moves nothing.
theorem red_is_quiet {rows : List FieldRow} {bags : Bags} {wrote : List (Text × Option Text)} (fact : Fact)
    (stays : ∀ key, bagOf bags key = .stays → trim key = "colour".toList)
    (sent : ∀ row ∈ wrote, row.1 = "colour".toList → row.2 = some "red".toList)
    (trimmed : ∀ row ∈ wrote, trim row.1 = row.1)
    (held : (@foldedFields wholeFloats (writesOn rows) [])["colour".toList]? = some "red".toList) :
    @StaysQuiet wholeFloats [] fact bags rows wrote := by
  intro key bag _ _
  have newest : foldOf key [] = .newest := by simp [foldOf]
  unfold MovesNothing
  rw [newest]
  intro last found
  have member := List.mem_of_getLast? found
  obtain ⟨row,has,same⟩ := List.mem_map.mp member
  obtain ⟨within,named⟩ := List.mem_filter.mp has
  have is : row.1 = key := of_decide_eq_true named
  have colour : key = "colour".toList := by
    rw [←is,←trimmed row within,is]
    exact stays key bag
  subst same
  rw [@foldedFields_key wholeFloats] at held
  rw [sent row within (is.trans colour),colour,held]
  decide +kernel

def largeRows : List FieldRow := [redRow,⟨⟨"colour".toList,2,some "red".toList,"f1".toList,.active,some 0⟩,.stays⟩,
  ⟨⟨"size".toList,1,some "large".toList,"f1".toList,.active,some 0⟩,.sets⟩]

-- A thing is red and takes a claim of its own red, with a size set on the thing; then the
-- claim says red again.
omit [Floats] in
theorem own_red_is_judged_as_stored :
    (captured [redRow] largeClaim ["size".toList] [] [] true 0 = .ok largeRows ∧
      @stoodAfterCapture wholeFloats (writesOn [redRow]) largeClaim [] = @foldedFields wholeFloats (writesOn largeRows) []) ∧
    ∃ later, edited largeRows largeClaim { fields := redClaim.fields } [] true 1 = .ok later ∧
      @stoodAfter wholeFloats (writesOn largeRows) largeClaim { fields := redClaim.fields } (carriedBy largeRows largeClaim.id) [] =
        @foldedFields wholeFloats (writesOn later) [] := by
  constructor
  · obtain ⟨capture,_⟩ := @guards_judge_what_the_store_holds wholeFloats [] [redRow] largeClaim 0 true
    obtain ⟨after,landed,judged⟩ := capture ["size".toList] [] largeBags (by rfl)
    have written : captured [redRow] largeClaim ["size".toList] [] [] true 0 = .ok largeRows := by rfl
    cases landed.symm.trans written
    refine ⟨written,judged.mpr (red_is_quiet _ ?_ (by decide +kernel) (by decide +kernel) (by decide +kernel))⟩
    intro key stays
    simp only [bagOf,largeBags,ExtTreeMap.getElem?_insert] at stays
    split at stays
    · cases stays
    · split at stays
      · rename_i same
        exact (compare_eq_iff_eq.mp same).symm
      · simp at stays
  · obtain ⟨_,edit⟩ := @guards_judge_what_the_store_holds wholeFloats [] largeRows largeClaim 1 true
    obtain ⟨later,landed,judged⟩ := edit { fields := redClaim.fields } ((∅ : Bags).insert "colour".toList .stays) (by rfl)
    refine ⟨later,landed,judged.mpr (red_is_quiet _ ?_ (by decide +kernel) (by decide +kernel) (by decide +kernel))⟩
    intro key stays
    simp only [bagOf,ExtTreeMap.getElem?_insert] at stays
    split at stays
    · rename_i same
      exact (compare_eq_iff_eq.mp same).symm
    · simp at stays

-- As an own field it stays on the claim, and the guards judge it as the thing's all the same.
omit [Floats] in
theorem own_field_is_judged_as_the_things : ∃ after, captured [] redClaim [] [] [] true 0 = .ok after ∧
    (@stoodAfterCapture wholeFloats (writesOn []) redClaim [])["colour".toList]? = some "red".toList ∧
      (@foldedFields wholeFloats (writesOn after) [])["colour".toList]? = none :=
  ⟨_,rfl,by decide +kernel,by decide +kernel⟩

end Memory
