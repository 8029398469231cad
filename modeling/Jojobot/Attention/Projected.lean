import Jojobot.Attention.DueMoment
import Jojobot.Library.Laying
import Jojobot.Memory.Bags.Predicted

namespace Attention
open Library Std Memory

variable [Calendar] [Floats] {kind : Text} {own : Fields} {declared : List FoldType} {key : Text} {rows : List FieldRow}
  {fact : Memory.Fact} {patch : FieldPatch} {bags : Bags} {moment : Timestamp}

-- What an edit sends as settings on the thing; its own fields stay on the claim.
def reaching (patch : FieldPatch) : List (Text × Text) := patch.fields.toList.filter fun row => patch.sets.contains row.1

-- The thing's fields as the mover projects them: the cleared keys off, then the sent on.
def projected (held : Fields) (incoming : List (Text × Text)) (cleared : List Text) : Fields :=
  laid (takenOff held (cleared.map trim)) (incoming.map fun row => (trim row.1,row.2))

-- What a write does to the stored due moment, over the projection.
def moved (kind : Text) (own held : Fields) (incoming : List (Text × Text)) (cleared : List Text) (today : Date) :
    Option (DueMove Date) :=
  if touchesWhatIsOwed kind shipped (incoming.map (trim ·.1) ++ cleared.map trim) then
    movedDueMomentAs kind shipped (storedDueOn held) held (projected held incoming cleared) own today
  else some .unchanged

-- The rows of an edit that write the key, however it is padded.
def sentUnder (key : Text) (patch : FieldPatch) : List (Text × Text) := patch.fields.toList.filter (trim ·.1 = key)

-- How an edit may name a key that what is owed is read from.
inductive Accounted (declared : List FoldType) (rows : List FieldRow) (fact : Memory.Fact) (patch : FieldPatch) (bags : Bags)
    (key : Text) : Prop where
  | unnamed : sentUnder key patch = [] → key ∉ patch.clearFields.map trim → Accounted declared rows fact patch bags key
  | setting : sentUnder key patch ≠ [] →
      (∀ row ∈ sentUnder key patch, patch.sets.contains row.1 = true ∧ counts declared key row.2 = true) →
      foldOf key declared = .newest → Accounted declared rows fact patch bags key
  | ownField : (∀ row ∈ sentUnder key patch, patch.sets.contains row.1 = false) → key ∉ patch.clearFields.map trim →
      bagOf bags key = .stays → Accounted declared rows fact patch bags key
  | cleared : sentUnder key patch = [] → key ∈ patch.clearFields.map trim →
      ((carriedBy rows fact.id).contains key = true ∧ reachesTheThing (bagOf bags key) = true ∨
        (foldedFields (writesOn rows) declared)[key]? = none) → Accounted declared rows fact patch bags key

omit [Calendar] [Floats] in
theorem projected_key (held : Fields) (key : Text) : (projected held (reaching patch) patch.clearFields)[key]? =
    (((sentUnder key patch).filter fun row => patch.sets.contains row.1).getLast?.map (·.2)).or
      (if key ∈ patch.clearFields.map trim then none else held[key]?) := by
  have cleared : (takenOff held (patch.clearFields.map trim))[key]? =
      if key ∈ patch.clearFields.map trim then none else held[key]? := by
    split
    · rename_i gone
      exact takenOff_gone held (Or.inl gone)
    · rename_i kept
      exact takenOff_kept held kept
  unfold projected
  rw [laid_key,cleared,List.filter_map,List.getLast?_map,Option.map_map]
  unfold reaching sentUnder
  rw [List.filter_comm]
  rfl

omit [Calendar] [Floats] in
theorem valuesFor_writesOf (carried : Fields) : valuesFor key (writesOf patch carried) =
    (((patch.clearFields.map trim).filter (carried.contains ·)).filter (· = key)).map (fun _ => none) ++
      (sentUnder key patch).map fun row => some row.2 := by
  simp only [valuesFor,writesOf,sentUnder,List.filter_append,List.map_append,List.filter_map,List.map_map]
  rfl

-- An edit takes off a key it names that the record carries, and no other.
omit [Calendar] [Floats] in
theorem takesOff_nil (carried : Fields) :
    ((patch.clearFields.map trim).filter (carried.contains ·)).filter (· = key) = [] ↔
      ¬(key ∈ patch.clearFields.map trim ∧ carried.contains key = true) := by
  rw [List.filter_eq_nil_iff]
  constructor
  · intro none' both
    exact none' key (List.mem_filter.mpr both) (decide_eq_true rfl)
  · intro apart other member same
    exact apart (of_decide_eq_true same ▸ List.mem_filter.mp member)

omit [Calendar] [Floats] in
theorem restatedRows_active (active : fact.status = .active)
    (was : ∀ row ∈ rows, row.write.fact = fact.id → row.write.status = .active) : restatedRows fact rows = rows := by
  have same : ∀ row ∈ rows, { row with write := restated fact row.write } = row := by
    intro row member
    have standing : (if row.write.fact = fact.id then fact.status else row.write.status) = row.write.status := by
      split
      · rename_i mine
        rw [active,was row member mine]
      · rfl
    unfold restated
    rw [standing]
  unfold restatedRows
  exact (List.map_congr_left same).trans (List.map_id' rows)

-- The keys what is owed is read from are none of the engine's own accounts'.
omit [Floats] in
theorem watched_unreserved (seen : watched shipped key = true) : reservedKey key = false := by
  simp only [watched,shipped,rhythms,runsOut,decideBy,promises,dayCarrier,List.any_cons,List.any_nil,Bool.or_eq_true,
    List.contains_iff_mem,List.mem_cons,List.not_mem_nil,or_false,Bool.false_eq_true] at seen
  rcases seen with ((named | named | named | named | named | named) | named) | (named | named) | (named | named) | named | named
  all_goals
    subst named
    decide

omit [Calendar] in
theorem foldedFields_appended (active : fact.status = .active) (unreserved : reservedKey key = false)
    (wrote : List (Text × Option Text)) :
    (foldedFields (writesOn (appendWrites fact moment bags rows wrote)) declared)[key]? =
      if reachesTheThing (bagOf bags key) = true then
        ((cellOf declared key (writesOn rows)).layAll declared key (valuesFor key wrote)).value
      else (foldedFields (writesOn rows) declared)[key]? := by
  rw [foldedFields_key,foldedFields_key,appendWrites_cell]
  by_cases reaches : reachesTheThing (bagOf bags key) = true
  · have both : Memory.Stands fact key ∧ reachesTheThing (bagOf bags key) = true := ⟨⟨active,unreserved⟩,reaches⟩
    rw [if_pos reaches,if_pos both]
  · rw [if_neg reaches,if_neg fun both => reaches both.2]

omit [Calendar] in
theorem layAll_cleared (cell : Cell) {sent : List (Option Text)} (some' : sent ≠ []) (blank : ∀ value ∈ sent, value = none) :
    (cell.layAll declared key sent).value = none := by
  obtain ⟨front,last,shape⟩ := (List.eq_nil_or_concat' sent).resolve_left some'
  subst shape
  have gone : last = none := blank last (by simp)
  unfold Cell.layAll
  rw [List.foldl_append,gone]
  rfl

omit [Calendar] in
-- A key the edit names as the mover reads it is projected to what the store leaves of it.
theorem projected_accounted {ownFieldsStay : Bool} (active : fact.status = .active) (unreserved : reservedKey key = false)
    (classed : classesForWrite (heldClasses rows fact.id) patch.fields patch.sets patch.derived patch.clearFields declared
      ownFieldsStay = .ok bags) (accounted : Accounted declared rows fact patch bags key) :
    (projected (foldedFields (writesOn rows) declared) (reaching patch) patch.clearFields)[key]? =
      (foldedFields (writesOn (appendWrites fact moment bags rows (writesOf patch (carriedBy rows fact.id)))) declared)[key]? := by
  rw [projected_key,foldedFields_appended active unreserved,valuesFor_writesOf]
  cases accounted with
  | unnamed unsent kept =>
    rw [unsent,(takesOff_nil _).mpr fun both => kept both.1,if_neg kept]
    split
    · rw [foldedFields_key]
      rfl
    · rfl
  | setting sent settings newest =>
    obtain ⟨front,last,shape⟩ := (List.eq_nil_or_concat' (sentUnder key patch)).resolve_left sent
    have all : (sentUnder key patch).filter (fun row => patch.sets.contains row.1) = sentUnder key patch :=
      List.filter_eq_self.mpr fun row member => (settings row member).1
    have member : last ∈ sentUnder key patch := by
      rw [shape]
      simp
    obtain ⟨stored,spelled⟩ := List.mem_filter.mp member
    have reaches := setting_reaches classed stored (settings last member).1
    rw [of_decide_eq_true spelled] at reaches
    rw [all,if_pos reaches,shape,List.map_append,←List.append_assoc]
    refine Eq.symm (Eq.trans (newest_last newest _ _ _) ?_)
    rw [Option.filter_some,if_pos (settings last member).2,List.getLast?_concat]
    rfl
  | ownField stays kept bag =>
    have none' : (sentUnder key patch).filter (fun row => patch.sets.contains row.1) = [] := by
      apply List.filter_eq_nil_iff.mpr
      intro row member setting
      rw [stays row member] at setting
      cases setting
    have unreached : ¬reachesTheThing WriteClass.stays = true := Bool.false_ne_true
    rw [none',if_neg kept,bag,if_neg unreached]
    rfl
  | cleared unsent gone held =>
    rw [unsent,if_pos gone]
    split
    · rename_i reaches
      simp only [List.map_nil,List.append_nil]
      by_cases carried : (carriedBy rows fact.id).contains key = true
      · apply Eq.symm
        apply layAll_cleared
        · intro empty
          exact (takesOff_nil _).mp (List.map_eq_nil_iff.mp empty) ⟨gone,carried⟩
        · intro value member
          obtain ⟨_,_,same⟩ := List.mem_map.mp member
          exact same.symm
      · rw [(takesOff_nil _).mpr fun both => carried both.2]
        have absent := held.resolve_left fun both => carried both.1
        rw [foldedFields_key] at absent
        exact absent.symm
    · rename_i stays
      exact (held.resolve_left fun both => stays both.2).symm

-- Every key that what is owed is read from, for a thing of this kind.
def ReadForOwing (kind key : Text) : Prop := watched shipped key = true ∨ (holdsColumns kind = true ∧ key = statusKey)

omit [Floats] in
theorem cleared_owes_nothing {existing : Option Date} {held after : Fields} {today : Date}
    (cleared : movedDueMomentAs kind shipped existing held after own today = some .cleared) :
    owedAs kind shipped after own = some .never ∨ owedAs kind shipped after own = some .notYetOpened := by
  cases finished : isFinished kind after own with
  | true => exact Or.inl (owedAs_never_of_finished finished shipped)
  | false =>
    rw [owedAs_of_unfinished finished]
    unfold movedDueMomentAs at cleared
    rw [if_neg (by simp [finished])] at cleared
    obtain ⟨move,moves,answer⟩ := Option.bind_eq_some_iff.mp cleared
    have away : move = .cleared := by
      cases move with
      | cleared => rfl
      | unchanged => cases answer
      | set day =>
        obtain ⟨keeps,_,same⟩ := Option.map_eq_some_iff.mp answer
        split at same
        · cases same
        · cases same
    subst away
    -- Only what falls due on no day is cleared of its moment.
    obtain ⟨due,owes,gone⟩ := Option.map_eq_some_iff.mp moves
    rw [owes]
    cases due with
    | never => exact Or.inl rfl
    | notYetOpened => exact Or.inr rfl
    | on day =>
      dsimp only at gone
      split at gone
      · cases gone
      · cases gone
    | unreadable =>
      dsimp only at gone
      split at gone
      · cases gone
      · cases gone

theorem due_moment_is_worked_out_over_what_the_edit_leaves (kind : Text) (own : Fields) (declared : List FoldType)
    (rows : List FieldRow) (fact : Memory.Fact) (patch : FieldPatch) (bags : Bags) (ownFieldsStay : Bool) (moment : Timestamp)
    (was : ∀ row ∈ rows, row.write.fact = fact.id → row.write.status = .active) (active : fact.status = .active)
    (classed : classesForWrite (heldClasses rows fact.id) patch.fields patch.sets patch.derived patch.clearFields declared
      ownFieldsStay = .ok bags)
    (accounted : ∀ key, ReadForOwing kind key → Accounted declared rows fact patch bags key) :
    ∃ after, edited rows fact patch declared ownFieldsStay moment = .ok after ∧
      owedAs kind shipped (projected (foldedFields (writesOn rows) declared) (reaching patch) patch.clearFields) own =
        owedAs kind shipped (foldedFields (writesOn after) declared) own ∧
      ∀ today, moved kind own (foldedFields (writesOn rows) declared) (reaching patch) patch.clearFields today = some .cleared →
        owedAs kind shipped (foldedFields (writesOn after) declared) own = some .never ∨
          owedAs kind shipped (foldedFields (writesOn after) declared) own = some .notYetOpened := by
  have same : owedAs kind shipped (projected (foldedFields (writesOn rows) declared) (reaching patch) patch.clearFields) own =
      owedAs kind shipped (foldedFields (writesOn (appendWrites fact moment bags (restatedRows fact rows)
        (writesOf patch (carriedBy rows fact.id)))) declared) own := by
    rw [restatedRows_active active was]
    apply owedAs_congr
    · intro key seen
      exact projected_accounted active (watched_unreserved seen) classed (accounted key (Or.inl seen))
    · intro columns
      exact projected_accounted active (by decide) classed (accounted statusKey (Or.inr ⟨columns,rfl⟩))
  refine ⟨_,by rw [edited,classed]; rfl,same,?_⟩
  intro today cleared
  rw [←same]
  unfold moved at cleared
  split at cleared
  · exact cleared_owes_nothing cleared
  · cases cleared

omit [Calendar] [Floats]

-- A supply whose day one claim holds, with a second claim beside it.
def claimOf (id : String) : Memory.Fact where
  id := id.toList
  home := "thing:a".toList
  content := "so".toList
  details := none
  status := .active
  fields := ∅

def written (id : String) (key : Text) (value : String) (bag : WriteClass) : FieldRow :=
  ⟨⟨key,1,some value.toList,id.toList,.active,none⟩,bag⟩

def supply : List FieldRow :=
  [written "f1" RUNS_OUT "2026-01-08" .sets,written "f1" DUE_ON "2026-01-08" .sets,written "f2" "colour".toList "red" .stays]

def movesTheDay : FieldPatch where
  fields := (∅ : Fields).insert RUNS_OUT "2026-01-07".toList
  sets := [RUNS_OUT]

theorem a_moved_day_is_worked_out : ∃ after, edited supply (claimOf "f1") movesTheDay [] true 0 = .ok after ∧
    @owedAs fourDays "thing".toList (@shipped fourDays)
        (projected (@foldedFields wholeFloats (writesOn supply) []) (reaching movesTheDay) movesTheDay.clearFields) ∅ =
      @owedAs fourDays "thing".toList (@shipped fourDays) (@foldedFields wholeFloats (writesOn after) []) ∅ := by
  have accounted : ∀ key, @ReadForOwing fourDays "thing".toList key →
      @Accounted wholeFloats [] supply (claimOf "f1") movesTheDay
        (((∅ : Bags).insert RUNS_OUT .sets)) key := by
    intro key _
    have sent : movesTheDay.fields.toList = [(RUNS_OUT,"2026-01-07".toList)] := rfl
    by_cases same : trim RUNS_OUT = key
    · refine @Accounted.setting wholeFloats _ _ _ _ _ _ ?_ ?_ ?_
      · simp [sentUnder,sent,same]
      · intro row member
        simp only [sentUnder,sent,List.mem_filter,List.mem_singleton] at member
        rw [member.1,←same]
        exact ⟨rfl,by decide +kernel⟩
      · rw [←same]
        decide +kernel
    · refine @Accounted.unnamed wholeFloats _ _ _ _ _ _ ?_ ?_
      · simp [sentUnder,sent,same]
      · simp [movesTheDay]
  obtain ⟨after,landed,same,_⟩ := @due_moment_is_worked_out_over_what_the_edit_leaves fourDays wholeFloats "thing".toList ∅ []
    supply (claimOf "f1") movesTheDay _ true 0 (by decide) rfl (by rfl) accounted
  exact ⟨after,landed,same⟩

-- A clear of a key the claim does not carry is no write, and is projected as one; and an
-- ending word takes no key off the thing, and takes its due moment off.
theorem an_uncarried_clear_is_projected : (∃ after,
    edited supply (claimOf "f2") { clearFields := [RUNS_OUT] } [] true 0 = .ok after ∧
      @owedAs fourDays "thing".toList (@shipped fourDays)
        (projected (@foldedFields wholeFloats (writesOn supply) []) [] [RUNS_OUT]) ∅ = some .never ∧
      @owedAs fourDays "thing".toList (@shipped fourDays) (@foldedFields wholeFloats (writesOn after) []) ∅ =
        some (.on (3 : Fin 4))) ∧
    ∃ after, edited supply (claimOf "f2") { fields := (∅ : Fields).insert ENDED "kept".toList, sets := [ENDED] } [] true 0 =
        .ok after ∧
      (∀ key ∈ (@foldedFields wholeFloats (writesOn supply) []).keys,
        (@foldedFields wholeFloats (writesOn after) []).contains key = true) ∧
      @moved fourDays "thing".toList ∅ (@foldedFields wholeFloats (writesOn supply) []) [(ENDED,"kept".toList)] []
        (0 : Fin 4) = some .cleared :=
  ⟨⟨_,rfl,by decide +kernel,by decide +kernel⟩,_,rfl,by decide +kernel,by decide +kernel⟩

end Attention
