import Jojobot.Attention.Reading
import Jojobot.Library.Runs

namespace Attention
open Library Std Memory

variable [Calendar] {kind : Text} {own held after fields : Fields} {existing stamp : Option Date} {today day : Date}

-- What a write does to the stored due moment.
inductive DueMove (D : Type) where
  | unchanged
  | set (day : D)
  | cleared
deriving DecidableEq

def movedDueMoment (carriers : List Carrier) (existing : Option Date) (projected : Fields) (today : Date) : Option (DueMove Date) :=
  (owed carriers projected).map fun
    | .on day => if some day ≠ existing then .set day else .unchanged
    | .unreadable => if some today ≠ existing then .set today else .unchanged
    | .never | .notYetOpened => if existing.isSome then .cleared else .unchanged

-- A thing unreadable before a write and after it keeps the day it was stamped with.
def keepsItsStamp (carriers : List Carrier) (existing : Option Date) (held projected : Fields) : Option Bool :=
  if existing.isSome then do
    let before ← owed carriers held
    if before = .unreadable then (owed carriers projected).map (· = .unreadable) else some false
  else some false

def movedDueMomentAs (kind : Text) (carriers : List Carrier) (existing : Option Date) (held projected own : Fields)
    (today : Date) : Option (DueMove Date) :=
  if isFinished kind projected own then some (if existing.isSome then .cleared else .unchanged)
  else do
    match ← movedDueMoment carriers existing projected today with
    | .set day => (keepsItsStamp carriers existing held projected).map fun keeps => if keeps then .unchanged else .set day
    | .cleared => some (if (carrierAnswering carriers held).isNone then .unchanged else .cleared)
    | .unchanged => some .unchanged

def unreadMappingCouldDecide (kind : Text) (fields : Fields) : Bool :=
  holdsColumns kind && fields[statusKey]?.any fun word => meaningOf word ∅ = none

def movedDueMomentUnderUnreadMapping (kind : Text) (carriers : List Carrier) (existing : Option Date)
    (held projected : Fields) (today : Date) : Option (Option (DueMove Date)) :=
  if unreadMappingCouldDecide kind projected then some none
  else (movedDueMomentAs kind carriers existing held projected ∅ today).map some

-- The keys a carrier's answer reads, and the status of a kind that finishes.
def watched (carriers : List Carrier) (key : Text) : Bool :=
  carriers.any fun carrier => carrier.interface.contains key || carrier.alsoReads.contains key

def touchesWhatIsOwed (kind : Text) (carriers : List Carrier) (named : List Text) : Bool :=
  named.any (watched carriers) || (holdsColumns kind && named.contains statusKey)

def storedDueOn (fields : Fields) : Option Date := (fields[DUE_ON]?).bind fun held => Scalars.parseDate (trim held)

def DueMove.store (move : DueMove Date) (fields : Fields) : Fields :=
  match move with
  | .unchanged => fields
  | .set day => fields.insert DUE_ON (Calendar.written day)
  | .cleared => fields.erase DUE_ON

-- One write on a thing: its day, the keys it sets or clears, and the fields it leaves.
structure Write where
  day : Date
  named : List Text
  after : Fields

-- It names what it changes, and never the due moment itself.
structure Write.From (write : Write) (held : Fields) : Prop where
  quiet : DUE_ON ∉ write.named
  frame : ∀ key ∉ write.named, write.after[key]? = held[key]?

-- A write whose due moment panics leaves nothing a later one could be made on.
def Write.land (kind : Text) (own held : Fields) (write : Write) : Option Fields :=
  if touchesWhatIsOwed kind shipped write.named then
    (movedDueMomentAs kind shipped (storedDueOn held) held write.after own write.day).map (·.store write.after)
  else some write.after

def Step (kind : Text) (own : Fields) (before : Option Fields) (write : Write) (after : Option Fields) : Prop :=
  ∃ held, before = some held ∧ write.From held ∧ after = write.land kind own held

-- The write leaves an unfinished thing a schedule of more days than a span holds.
def Overruns (kind : Text) (own : Fields) (write : Write) : Prop :=
  touchesWhatIsOwed kind shipped write.named = true ∧ isFinished kind write.after own = false ∧
    ∃ schedule count, scheduleOf write.after = .ok schedule ∧ schedule.cadence = .days count ∧ longestSpan < count

-- The same value under each of the keys.
def Agrees (keys : List Text) (a b : Fields) : Prop := ∀ key ∈ keys, a[key]? = b[key]?

omit [Calendar] in
theorem Agrees.heldAt {keys : List Text} {a b : Fields} (same : Agrees keys a b) (key : Text) (member : key ∈ keys) :
    heldAt a key = heldAt b key := by
  unfold Attention.heldAt
  rw [same key member]

omit [Calendar] in
theorem read_congr {α : Type} {a b : Fields} (same : heldAt a key = heldAt b key) (accepts : List Text)
    (parse : Text → Option α) : read a key accepts parse = read b key accepts parse := by
  unfold read
  rw [same]

theorem scheduleOf_congr {a b : Fields} (same : Agrees (rhythms.interface ++ rhythms.alsoReads) a b) :
    scheduleOf a = scheduleOf b := by
  have cadence := same.heldAt CADENCE_DAYS (by simp [rhythms])
  have rule := same.heldAt RRULE (by simp [rhythms])
  have advances := same.heldAt ADVANCES_FROM (by simp [rhythms])
  have counts := same.heldAt COUNTS_FROM (by simp [rhythms])
  have anchor := same.heldAt ANCHORED_ON (by simp [rhythms])
  have snoozed := same.heldAt SNOOZED_UNTIL (by simp [rhythms])
  have anchorKey : ruleAnchorKey a = ruleAnchorKey b := by
    unfold ruleAnchorKey
    rw [anchor]
  have anchorRead : heldAt a (ruleAnchorKey b) = heldAt b (ruleAnchorKey b) := by
    unfold ruleAnchorKey
    split
    · exact anchor
    · exact counts
  have rules : ruleOf a = ruleOf b := by
    unfold ruleOf
    rw [cadence,rule]
  have policies : namedPolicy a = namedPolicy b := by
    unfold namedPolicy
    rw [advances,read_congr advances]
  have anchors : anchored a = anchored b := by
    funext text
    unfold anchored
    rw [anchorKey,read_congr anchorRead]
  have snoozes : snoozedUntilOf a = snoozedUntilOf b := by
    unfold snoozedUntilOf isSnoozed
    rw [read_congr snoozed,same OUTCOME (by simp [rhythms])]
  unfold scheduleOf
  rw [rules,policies,anchors,snoozes,read_congr cadence,read_congr counts]

omit [Calendar] in
theorem hasEnded_congr {a b : Fields} (same : a[ENDED]? = b[ENDED]?) : hasEnded a = hasEnded b := by
  unfold hasEnded
  rw [same]

theorem dayCarrier_congr {a b : Fields} {key : Text} (ending : Ending) (same : a[key]? = b[key]?)
    (ended : a[ENDED]? = b[ENDED]?) : (dayCarrier key ending).due a = (dayCarrier key ending).due b := by
  unfold dayCarrier
  dsimp only
  rw [same,hasEnded_congr ended]

-- What each shipped carrier answers is decided by the keys it is watched under.
theorem shipped_due_congr {a b : Fields} {carrier : Carrier} (member : carrier ∈ shipped)
    (same : ∀ key, watched shipped key = true → a[key]? = b[key]?) : carrier.due a = carrier.due b := by
  have ended : a[ENDED]? = b[ENDED]? := same ENDED (by simp [watched,shipped,runsOut,dayCarrier])
  simp only [shipped,List.mem_cons,List.not_mem_nil,or_false] at member
  rcases member with rhythm | runs | decides | promised
  · subst rhythm
    unfold rhythms
    dsimp only
    rw [scheduleOf_congr]
    intro key read
    apply same
    simp only [watched,shipped,List.any_cons,Bool.or_eq_true,List.contains_iff_mem]
    exact Or.inl (List.mem_append.mp read)
  · subst runs
    exact dayCarrier_congr _ (same RUNS_OUT (by simp [watched,shipped,runsOut,dayCarrier])) ended
  · subst decides
    exact dayCarrier_congr _ (same DECIDE_BY (by simp [watched,shipped,decideBy,dayCarrier])) ended
  · subst promised
    exact dayCarrier_congr _ (same PROMISED_BY (by simp [watched,shipped,promises,dayCarrier])) ended

theorem carrierAnswering_congr {a b : Fields} (carriers : List Carrier)
    (same : ∀ key, watched carriers key = true → a[key]? = b[key]?) :
    carrierAnswering carriers a = carrierAnswering carriers b := by
  induction carriers with
  | nil => rfl
  | cons carrier rest ih =>
    have here : carrier.interface.any (a.contains ·) = carrier.interface.any (b.contains ·) := by
      apply Bool.eq_iff_iff.mpr
      rw [List.any_eq_true,List.any_eq_true]
      apply exists_congr
      intro key
      apply and_congr_right
      intro member
      rw [←ExtTreeMap.isSome_getElem?_eq_contains,←ExtTreeMap.isSome_getElem?_eq_contains,same]
      simp [watched,member]
    have later := ih fun key seen => same key (by simp [watched] at seen ⊢; exact Or.inr seen)
    unfold carrierAnswering at later ⊢
    rw [List.find?_cons,List.find?_cons,here,later]

theorem owed_congr {a b : Fields} (same : ∀ key, watched shipped key = true → a[key]? = b[key]?) :
    owed shipped a = owed shipped b := by
  unfold owed
  rw [carrierAnswering_congr shipped same]
  cases answering : carrierAnswering shipped b with
  | none => rfl
  | some carrier => exact shipped_due_congr (List.mem_of_find?_eq_some answering) same

theorem owedAs_never_of_finished (finished : isFinished kind fields own = true) (carriers : List Carrier) :
    owedAs kind carriers fields own = some .never := by
  unfold owedAs owesAs
  rw [if_pos finished]
  rfl

-- A carrier that ends owes nothing by its own answer once the ending word is held.
theorem owedAs_of_unfinished (unfinished : isFinished kind fields own = false) :
    owedAs kind shipped fields own = owed shipped fields := by
  unfold owedAs owesAs
  rw [if_neg (by simp [unfinished])]
  split
  · rename_i ended
    simp only [Bool.and_eq_true,Option.any_eq_true] at ended
    obtain ⟨⟨carrier,answering,ends⟩,word⟩ := ended
    unfold owed
    rw [answering]
    have member := List.mem_of_find?_eq_some answering
    simp only [shipped,List.mem_cons,List.not_mem_nil,or_false] at member
    rcases member with rhythm | runs | decides | promised
    · subst rhythm
      cases ends
    · subst runs
      exact (if_pos word).symm
    · subst decides
      exact (if_pos word).symm
    · subst promised
      exact (if_pos word).symm
  · rw [Option.map_map]
    exact congrFun Option.map_id _

theorem dueAfter_none {cadence : Cadence} {counted : Date} :
    cadence.dueAfter counted = none ↔ ∃ count, cadence = .days count ∧ longestSpan < count := by
  cases cadence with
  | days count => simp [Cadence.dueAfter]
  | rule held => simp [Cadence.dueAfter]

theorem dueOn_none {schedule : Schedule} : schedule.dueOn = none ↔ ∃ count, schedule.cadence = .days count ∧ longestSpan < count := by
  unfold Schedule.dueOn Schedule.cycleDueOn
  rw [Option.map_eq_none_iff]
  exact dueAfter_none

-- A schedule that reads holds its basis, so the rhythms answer for what holds it.
theorem rhythms_answer {schedule : Schedule} (reads : scheduleOf fields = .ok schedule) :
    carrierAnswering shipped fields = some rhythms := by
  have based : fields.contains COUNTS_FROM = true := by
    obtain ⟨text,held,_⟩ := Option.bind_eq_some_iff.mp (scheduleOf_reads.mp reads).basis
    rw [←ExtTreeMap.isSome_getElem?_eq_contains]
    cases found : fields[COUNTS_FROM]? with
    | some stored => rfl
    | none =>
      unfold heldAt at held
      rw [found] at held
      cases held
  unfold carrierAnswering shipped
  rw [List.find?_cons_of_pos]
  simp [rhythms,based]

theorem owed_none : owed shipped fields = none ↔
    ∃ schedule count, scheduleOf fields = .ok schedule ∧ schedule.cadence = .days count ∧ longestSpan < count := by
  constructor
  · intro panics
    unfold owed at panics
    split at panics
    · rename_i carrier answering
      have member := List.mem_of_find?_eq_some answering
      simp only [shipped,List.mem_cons,List.not_mem_nil,or_false] at member
      have day : ∀ key ending, (dayCarrier key ending).due fields ≠ none := by
        intro key ending
        unfold dayCarrier
        dsimp only
        split
        · simp
        · split <;> simp
      rcases member with rhythm | runs | decides | promised
      · subst rhythm
        unfold rhythms at panics
        dsimp only at panics
        split at panics
        · rename_i schedule reads
          obtain ⟨count,shape,long⟩ := dueOn_none.mp (Option.map_eq_none_iff.mp panics)
          exact ⟨schedule,count,reads,shape,long⟩
        · cases panics
      · subst runs
        exact absurd panics (day _ _)
      · subst decides
        exact absurd panics (day _ _)
      · subst promised
        exact absurd panics (day _ _)
    · cases panics
  · rintro ⟨schedule,count,reads,shape,long⟩
    unfold owed
    rw [rhythms_answer reads]
    unfold rhythms
    dsimp only
    rw [reads]
    exact Option.map_eq_none_iff.mpr (dueOn_none.mpr ⟨count,shape,long⟩)

theorem owedAs_congr {a b : Fields} (same : ∀ key, watched shipped key = true → a[key]? = b[key]?)
    (status : holdsColumns kind = true → a[statusKey]? = b[statusKey]?) :
    owedAs kind shipped a own = owedAs kind shipped b own := by
  have finish : isFinished kind a own = isFinished kind b own := by
    unfold isFinished
    cases columns : holdsColumns kind with
    | false => rfl
    | true => rw [status columns]
  cases finished : isFinished kind b own with
  | true =>
    rw [owedAs_never_of_finished finished,owedAs_never_of_finished (finish.trans finished)]
  | false =>
    rw [owedAs_of_unfinished finished,owedAs_of_unfinished (finish.trans finished),owed_congr same]

theorem unfinished_of_owed (owes : owedAs kind shipped fields own ≠ some .never) : isFinished kind fields own = false := by
  cases finished : isFinished kind fields own with
  | false => rfl
  | true => exact absurd (owedAs_never_of_finished finished shipped) owes

theorem owedAs_none : owedAs kind shipped fields own = none ↔ isFinished kind fields own = false ∧
    ∃ schedule count, scheduleOf fields = .ok schedule ∧ schedule.cadence = .days count ∧ longestSpan < count := by
  cases finished : isFinished kind fields own with
  | true => simp [owedAs_never_of_finished finished]
  | false =>
    rw [owedAs_of_unfinished finished,owed_none]
    simp

-- The day a move leaves stored, over the day that was.
def DueMove.left (move : DueMove Date) (stamp : Option Date) : Option Date :=
  match move with
  | .unchanged => stamp
  | .set day => some day
  | .cleared => none

theorem store_left (move : DueMove Date) (holds : fields[DUE_ON]? = stamp.map Calendar.written) :
    (move.store fields)[DUE_ON]? = (move.left stamp).map Calendar.written := by
  cases move with
  | unchanged => exact holds
  | set day => simp [DueMove.store,DueMove.left]
  | cleared => simp [DueMove.store,DueMove.left]

theorem store_frame (move : DueMove Date) {key : Text} (other : key ≠ DUE_ON) : (move.store fields)[key]? = fields[key]? := by
  cases move with
  | unchanged => rfl
  | set day => simp [DueMove.store,ExtTreeMap.getElem?_insert,Ne.symm other]
  | cleared => simp [DueMove.store,ExtTreeMap.getElem?_erase,Ne.symm other]

theorem storedDueOn_written (holds : fields[DUE_ON]? = stamp.map Calendar.written) : storedDueOn fields = stamp := by
  unfold storedDueOn
  rw [holds]
  cases stamp with
  | none => rfl
  | some day => exact Calendar.parse_written day

-- Where the thing held a stamp its own answer before the write is asked for.
theorem keepsItsStamp_answers {due : Due Date} (owes : owed shipped after = some due)
    (answered : existing ≠ none → owed shipped held ≠ none) : keepsItsStamp shipped existing held after =
      some (existing.isSome && decide (owed shipped held = some .unreadable) && decide (due = .unreadable)) := by
  unfold keepsItsStamp
  cases existing with
  | none => rfl
  | some day =>
    rw [if_pos Option.isSome_some]
    cases before : owed shipped held with
    | none => exact absurd before (answered (Option.some_ne_none day))
    | some stood =>
      simp only [Option.bind_eq_bind,Option.bind_some,owes,Option.map_some,Option.isSome_some,Bool.true_and,Option.some.injEq]
      split
      · rename_i unreadable
        simp [unreadable]
      · rename_i readable
        simp [readable]

theorem moved_on (owes : owedAs kind shipped after own = some (.on day)) (answered : existing ≠ none → owed shipped held ≠ none) :
    ∃ move, movedDueMomentAs kind shipped existing held after own today = some move ∧ move.left existing = some day := by
  have unfinished : isFinished kind after own = false := unfinished_of_owed (by simp [owes])
  rw [owedAs_of_unfinished unfinished] at owes
  have keeps := keepsItsStamp_answers owes answered
  have moves : movedDueMoment shipped existing after today = some (if some day ≠ existing then .set day else .unchanged) := by
    unfold movedDueMoment
    rw [owes]
    rfl
  unfold movedDueMomentAs
  rw [if_neg (by simp [unfinished]),moves]
  by_cases same : some day = existing
  · rw [if_neg (not_not_intro same)]
    exact ⟨.unchanged,rfl,same.symm⟩
  · rw [if_pos same]
    refine ⟨.set day,?_,rfl⟩
    simp [keeps]

theorem moved_unreadable (today : Date) (owes : owedAs kind shipped after own = some .unreadable)
    (answered : existing ≠ none → owed shipped held ≠ none) :
    ∃ move, movedDueMomentAs kind shipped existing held after own today = some move ∧
      move.left existing = if existing.isSome ∧ owed shipped held = some .unreadable then existing else some today := by
  have unfinished : isFinished kind after own = false := unfinished_of_owed (by simp [owes])
  rw [owedAs_of_unfinished unfinished] at owes
  have keeps := keepsItsStamp_answers owes answered
  have moves : movedDueMoment shipped existing after today = some (if some today ≠ existing then .set today else .unchanged) := by
    unfold movedDueMoment
    rw [owes]
    rfl
  unfold movedDueMomentAs
  rw [if_neg (by simp [unfinished]),moves]
  by_cases same : some today = existing
  · rw [if_neg (not_not_intro same)]
    refine ⟨.unchanged,rfl,?_⟩
    split
    · rfl
    · exact same.symm
  · rw [if_pos same]
    refine ⟨if existing.isSome ∧ owed shipped held = some .unreadable then .unchanged else .set today,?_,?_⟩
    · simp [keeps]
    · split
      · rfl
      · rfl

theorem moved_away (owes : owedAs kind shipped after own = some .never ∨ owedAs kind shipped after own = some .notYetOpened)
    (leftover : carrierAnswering shipped held = none → existing = none) :
    ∃ move, movedDueMomentAs kind shipped existing held after own today = some move ∧ move.left existing = none := by
  unfold movedDueMomentAs
  cases finished : isFinished kind after own with
  | true =>
    refine ⟨_,rfl,?_⟩
    cases existing with
    | none => rfl
    | some day => rfl
  | false =>
    rw [if_neg (by simp)]
    have moves : movedDueMoment shipped existing after today = some (if existing.isSome then .cleared else .unchanged) := by
      rw [owedAs_of_unfinished finished] at owes
      unfold movedDueMoment
      rcases owes with never | unopened
      · rw [never]
        rfl
      · rw [unopened]
        rfl
    rw [moves]
    cases existing with
    | none => exact ⟨.unchanged,rfl,rfl⟩
    | some day =>
      refine ⟨.cleared,congrArg some (if_neg ?_),rfl⟩
      intro unanswered
      cases leftover (Option.isNone_iff_eq_none.mp unanswered)

theorem moved_panics (owes : owedAs kind shipped after own = none) :
    movedDueMomentAs kind shipped existing held after own today = none := by
  have unfinished : isFinished kind after own = false := (owedAs_none.mp owes).1
  rw [owedAs_of_unfinished unfinished] at owes
  unfold movedDueMomentAs movedDueMoment
  rw [if_neg (by simp [unfinished]),owes]
  rfl

-- The unbroken stretch of unreadable states the run ends in began with the write `first`.
def StretchFrom (kind : Text) (own : Fields) (taken : List (Option Fields × Write)) (first : Write) : Prop :=
  ∃ earlier before later, taken = earlier ++ (before,first) :: later ∧
    before.bind (owedAs kind shipped · own) ≠ some .unreadable ∧
    ∀ one ∈ later, one.1.bind (owedAs kind shipped · own) = some .unreadable

-- What the stored day is after a run, by what is owed then.
def Stands (kind : Text) (own : Fields) (taken : List (Option Fields × Write)) (due : Due Date) (stamp : Option Date) : Prop :=
  match due with
  | .on day => stamp = some day
  | .unreadable => ∃ first, StretchFrom kind own taken first ∧ stamp = some first.day
  | .never | .notYetOpened => stamp = none

-- What is owed has an answer, and the stored due moment follows it.
def Follows (kind : Text) (own : Fields) (taken : List (Option Fields × Write)) (now : Option Fields) : Prop :=
  ∃ held due stamp, now = some held ∧ owedAs kind shipped held own = some due ∧
    held[DUE_ON]? = stamp.map Calendar.written ∧ Stands kind own taken due stamp

theorem unwatched_due_on : watched shipped DUE_ON = false := by
  simp only [watched,shipped,rhythms,runsOut,decideBy,promises,dayCarrier,List.any_cons,List.any_nil]
  decide

theorem stretch_more {taken : List (Option Fields × Write)} {first write : Write} (stretch : StretchFrom kind own taken first)
    (unreadable : owedAs kind shipped held own = some .unreadable) : StretchFrom kind own (taken ++ [(some held,write)]) first := by
  obtain ⟨earlier,before,later,parts,fresh,all⟩ := stretch
  refine ⟨earlier,before,later ++ [(some held,write)],by simp [parts],fresh,?_⟩
  intro one member
  rcases List.mem_append.mp member with early | last
  · exact all one early
  · cases List.mem_singleton.mp last
    exact unreadable

-- What stands is decided by the fields behind the move, which touches only the due moment.
theorem store_owes (move : DueMove Date) : owedAs kind shipped (move.store fields) own = owedAs kind shipped fields own := by
  apply owedAs_congr
  · intro key seen
    apply store_frame
    intro same
    rw [same,unwatched_due_on] at seen
    cases seen
  · intro _
    exact store_frame _ (by decide)

theorem untouched_owes {write : Write} (lands : write.From held)
    (untouched : touchesWhatIsOwed kind shipped write.named = false) :
    owedAs kind shipped write.after own = owedAs kind shipped held own := by
  simp only [touchesWhatIsOwed,Bool.or_eq_false_iff,List.any_eq_false,Bool.not_eq_true] at untouched
  obtain ⟨unwatched,status⟩ := untouched
  apply owedAs_congr
  · intro key seen
    apply lands.frame
    intro member
    rw [unwatched key member] at seen
    cases seen
  · intro columns
    apply lands.frame
    intro member
    rw [columns,Bool.true_and,List.contains_iff_mem.mpr member] at status
    cases status

-- A thing that holds a stamp is unfinished, and its own answer is one a write can ask for.
theorem stamped_answers {taken : List (Option Fields × Write)} {due : Due Date} (owes : owedAs kind shipped held own = some due)
    (stands : Stands kind own taken due stamp) (stamped : stamp ≠ none) :
    isFinished kind held own = false ∧ owed shipped held = some due := by
  have unfinished : isFinished kind held own = false := by
    cases finished : isFinished kind held own with
    | false => rfl
    | true =>
      rw [owedAs_never_of_finished finished] at owes
      cases owes
      exact absurd stands stamped
  exact ⟨unfinished,(owedAs_of_unfinished unfinished).symm.trans owes⟩

theorem move_stands {taken : List (Option Fields × Write)} {before due : Due Date} {write : Write}
    (owed' : owedAs kind shipped held own = some before) (stands : Stands kind own taken before stamp)
    (owes : owedAs kind shipped write.after own = some due) :
    ∃ move, movedDueMomentAs kind shipped stamp held write.after own write.day = some move ∧
      Stands kind own (taken ++ [(some held,write)]) due (move.left stamp) := by
  have answered : stamp ≠ none → owed shipped held ≠ none := by
    intro stamped
    rw [(stamped_answers owed' stands stamped).2]
    exact Option.some_ne_none before
  have leftover : carrierAnswering shipped held = none → stamp = none := by
    intro unanswered
    apply Classical.byContradiction
    intro stamped
    have never := (stamped_answers owed' stands stamped).2
    unfold owed at never
    rw [unanswered] at never
    cases Option.some.inj never
    exact stamped stands
  cases due with
  | on day => exact moved_on owes answered
  | never => exact moved_away (Or.inl owes) leftover
  | notYetOpened => exact moved_away (Or.inr owes) leftover
  | unreadable =>
    obtain ⟨move,moved,left'⟩ := moved_unreadable write.day owes answered
    refine ⟨move,moved,?_⟩
    rw [left']
    by_cases already : before = .unreadable
    · subst already
      obtain ⟨first,stretch,same⟩ := stands
      have stamped : stamp ≠ none := by simp [same]
      rw [if_pos ⟨by simp [same],(stamped_answers owed' ⟨first,stretch,same⟩ stamped).2⟩]
      exact ⟨first,stretch_more stretch owed',same⟩
    · refine ⟨write,⟨taken,some held,[],rfl,?_,by simp⟩,?_⟩
      · intro same
        exact already (Option.some.inj (owed'.symm.trans same))
      · rw [if_neg]
        intro both
        have stamped : stamp ≠ none := Option.isSome_iff_ne_none.mp both.1
        exact already (Option.some.inj ((stamped_answers owed' stands stamped).2.symm.trans both.2))

-- What one write does from a state that follows what is owed.
theorem step_follows {taken : List (Option Fields × Write)} {write : Write} (follows : Follows kind own taken (some held))
    (lands : write.From held) : (write.land kind own held = none ↔ Overruns kind own write) ∧
      ∀ left, write.land kind own held = some left → Follows kind own (taken ++ [(some held,write)]) (some left) := by
  obtain ⟨held',before,stamp,same,owed',holds,stands⟩ := follows
  cases Option.some.inj same
  have carried : write.after[DUE_ON]? = stamp.map Calendar.written := (lands.frame _ lands.quiet).trans holds
  unfold Write.land Overruns
  cases touches : touchesWhatIsOwed kind shipped write.named with
  | false =>
    rw [if_neg Bool.false_ne_true]
    refine ⟨by simp,?_⟩
    intro left landed
    cases Option.some.inj landed
    refine ⟨_,before,stamp,rfl,(untouched_owes lands touches).trans owed',carried,?_⟩
    cases before with
    | unreadable =>
      obtain ⟨first,stretch,stamped⟩ := stands
      exact ⟨first,stretch_more stretch owed',stamped⟩
    | on day => exact stands
    | never => exact stands
    | notYetOpened => exact stands
  | true =>
    rw [if_pos rfl,storedDueOn_written holds,Option.map_eq_none_iff]
    cases owes : owedAs kind shipped write.after own with
    | none =>
      rw [moved_panics owes]
      refine ⟨⟨fun _ => ⟨rfl,owedAs_none.mp owes⟩,fun _ => rfl⟩,?_⟩
      intro left landed
      cases landed
    | some due =>
      obtain ⟨move,moved,stands'⟩ := move_stands owed' stands owes
      rw [moved]
      refine ⟨⟨by simp,?_⟩,?_⟩
      · intro overruns
        rw [owedAs_none.mpr overruns.2] at owes
        cases owes
      · intro left landed
        cases Option.some.inj landed
        exact ⟨_,due,_,rfl,(store_owes move).trans owes,store_left move carried,stands'⟩

theorem start_follows (kind : Text) (own : Fields) : Follows kind own [] (some ∅) := by
  have unfinished : isFinished kind ∅ own = false := by simp [isFinished]
  refine ⟨∅,.never,none,rfl,?_,by simp,rfl⟩
  rw [owedAs_of_unfinished unfinished]
  simp [owed,carrierAnswering,shipped,rhythms,runsOut,decideBy,promises,dayCarrier]

-- A run follows what is owed for as long as it lands, and what stops it is a write that overruns.
theorem run_follows {taken : List (Option Fields × Write)} {now : Option Fields} (run : Run (Step kind own) (some ∅) taken now) :
    (∀ held, now = some held → Follows kind own taken now) ∧ (now = none ↔ ∃ one ∈ taken, Overruns kind own one.2) := by
  induction run with
  | start => exact ⟨fun _ _ => start_follows kind own,by simp⟩
  | @step taken before after write run took ih =>
    obtain ⟨held,stood,lands,same⟩ := took
    subst stood same
    have follows := ih.1 held rfl
    have sound : ¬∃ one ∈ taken, Overruns kind own one.2 := fun overran => Option.some_ne_none held (ih.2.mpr overran)
    obtain ⟨stops,keeps⟩ := step_follows follows lands
    refine ⟨?_,?_⟩
    · intro left landed
      rw [landed]
      exact keeps left landed
    · rw [stops]
      constructor
      · intro overruns
        exact ⟨_,List.mem_append_right _ (List.mem_singleton_self _),overruns⟩
      · rintro ⟨one,member,overruns⟩
        rcases List.mem_append.mp member with earlier | last
        · exact absurd ⟨one,earlier,overruns⟩ sound
        · cases List.mem_singleton.mp last
          exact overruns

omit [Calendar] in
theorem unread_mapping_answers (known : unreadMappingCouldDecide kind fields = false) (own : Fields) :
    isFinished kind fields own = isFinished kind fields ∅ := by
  unfold unreadMappingCouldDecide at known
  unfold isFinished
  cases columns : holdsColumns kind with
  | false => rfl
  | true =>
    rw [columns,Bool.true_and] at known
    cases status : fields[statusKey]? with
    | none => rfl
    | some word =>
      rw [status,Option.any_some,decide_eq_false_iff_not] at known
      -- A word the instance could not have mapped is one of the shipped five.
      unfold meaningOf at known ⊢
      dsimp only at known ⊢
      cases shipped : workStatuses.find? (· = trim word) with
      | some shipped => simp [shipped]
      | none =>
        rw [shipped] at known
        exact absurd (by simp) known

theorem due_moment_follows_what_is_owed (kind : Text) (own : Fields) (now : Option Fields) (taken : List (Option Fields × Write))
    (run : Run (Step kind own) (some ∅) taken now) :
    (Follows kind own taken now ↔ ∀ one ∈ taken, ¬Overruns kind own one.2) ∧
    ∀ (carriers : List Carrier) (existing : Option Date) (held projected : Fields) (today : Date) (moved : DueMove Date),
      movedDueMomentUnderUnreadMapping kind carriers existing held projected today = some (some moved) →
        ∀ instanceFields, movedDueMomentAs kind carriers existing held projected instanceFields today = some moved := by
  obtain ⟨follows,stops⟩ := run_follows run
  refine ⟨⟨?_,?_⟩,?_⟩
  · rintro ⟨held,_,_,landed,_⟩ one member overruns
    have stopped := stops.mpr ⟨one,member,overruns⟩
    rw [landed] at stopped
    cases stopped
  · intro sound
    cases landed : now with
    | none =>
      obtain ⟨one,member,overruns⟩ := stops.mp landed
      exact absurd overruns (sound one member)
    | some held =>
      rw [←landed]
      exact follows held landed
  · intro carriers existing held projected today moved answered instanceFields
    unfold movedDueMomentUnderUnreadMapping at answered
    split at answered
    · cases answered
    · rename_i known
      obtain ⟨answer,asked,same⟩ := Option.map_eq_some_iff.mp answered
      cases Option.some.inj same
      rw [←asked]
      unfold movedDueMomentAs
      rw [unread_mapping_answers (by simpa using known)]

-- Four days of one week: enough of a calendar to run a test on.
@[reducible] def fourDays : Calendar where
  Date := Fin 4
  Number := Nat
  dates := inferInstance
  numbers := inferInstance
  parseDate text := (["2026-01-05".toList,"2026-01-06".toList,"2026-01-07".toList,"2026-01-08".toList].finIdxOf? text)
  parseNumber := digits
  isFinite _ := true
  latest := 3
  unanchored := 0
  written day := ["2026-01-05".toList,"2026-01-06".toList,"2026-01-07".toList,"2026-01-08".toList].get day
  parse_written := by decide
  addDays day count := if 0 ≤ (day : Int)+count ∧ (day : Int)+count < 4 then some (Fin.ofNat 4 ((day : Int)+count).toNat) else none
  Moment := Fin 4
  civil := some
  expand _ _ := .error []

-- One key set, and a day nobody can read, corrected two days later.
def sets (day : Fin 4) (held : Fields) (key value : Text) : @Write fourDays := @Write.mk fourDays day [key] (held.insert key value)

def landed (held : Fields) (write : @Write fourDays) : Fields := (@Write.land fourDays "thing".toList ∅ held write).getD ∅

def sentUnread : @Write fourDays := sets 0 ∅ RUNS_OUT "soon".toList

def afterUnread : Fields := landed ∅ sentUnread

def sentRead : @Write fourDays := sets 2 afterUnread RUNS_OUT "2026-01-08".toList

omit [Calendar] in
theorem sets_from (day : Fin 4) (held : Fields) {key : Text} (value : Text) (other : DUE_ON ≠ key) :
    @Write.From fourDays (sets day held key value) held := by
  refine @Write.From.mk fourDays _ _ (fun named => other (List.mem_singleton.mp named)) ?_
  intro asked unnamed
  have differ : key ≠ asked := fun same => unnamed (same ▸ List.mem_singleton_self key)
  exact ExtTreeMap.getElem?_insert.trans (if_neg (by simpa using differ))

omit [Calendar] in
theorem sets_step {day : Fin 4} {held : Fields} {key value : Text} (other : DUE_ON ≠ key)
    (lands : (@Write.land fourDays "thing".toList ∅ held (sets day held key value)).isSome = true) :
    @Step fourDays "thing".toList ∅ (some held) (sets day held key value) (some (landed held (sets day held key value))) := by
  refine ⟨held,rfl,sets_from day held value other,?_⟩
  unfold landed
  cases found : @Write.land fourDays "thing".toList ∅ held (sets day held key value) with
  | none =>
    rw [found] at lands
    cases lands
  | some left => rfl

omit [Calendar] in
theorem corrected_day_is_stored : afterUnread[DUE_ON]? = some "2026-01-05".toList ∧
    (landed afterUnread sentRead)[DUE_ON]? = some "2026-01-08".toList := by
  have run : @Run (Option Fields) (@Write fourDays) (@Step fourDays "thing".toList ∅) (some ∅)
      [(some ∅,sentUnread),(some afterUnread,sentRead)] (some (landed afterUnread sentRead)) :=
    .step (.step .start (sets_step (by decide) (by decide +kernel))) (sets_step (by decide) (by decide +kernel))
  have sound : ∀ one ∈ [(some (∅ : Fields),sentUnread),(some afterUnread,sentRead)],
      ¬@Overruns fourDays "thing".toList ∅ one.2 := by
    rintro one member ⟨_,_,schedule,_,reads,_⟩
    have unread : ∀ one ∈ [(some (∅ : Fields),sentUnread),(some afterUnread,sentRead)],
        (@scheduleOf fourDays (@Write.after fourDays one.2)).toOption.isNone = true := by decide +kernel
    have none' := unread one member
    rw [reads] at none'
    cases none'
  obtain ⟨held,due,stamp,same,owes,holds,stands⟩ :=
    (@due_moment_follows_what_is_owed fourDays _ _ _ _ run).1.mpr sound
  cases Option.some.inj same
  have dated : @owedAs fourDays "thing".toList (@shipped fourDays) (landed afterUnread sentRead) ∅ = some (.on (3 : Fin 4)) := by
    decide +kernel
  cases Option.some.inj (owes.symm.trans dated)
  rw [holds,stands]
  exact ⟨by decide +kernel,rfl⟩

-- A cadence of one day more than a span holds, and the basis that makes its schedule read.
def sentCadence : @Write fourDays := sets 0 ∅ CADENCE_DAYS "7304485".toList

def afterCadence : Fields := landed ∅ sentCadence

def sentBasis : @Write fourDays := sets 0 afterCadence COUNTS_FROM "2026-01-05".toList

omit [Calendar] in
theorem a_cadence_no_span_holds_panics :
    @Run (Option Fields) (@Write fourDays) (@Step fourDays "thing".toList ∅) (some ∅)
        [(some ∅,sentCadence),(some afterCadence,sentBasis)] none ∧
      ¬@Follows fourDays "thing".toList ∅ [(some ∅,sentCadence),(some afterCadence,sentBasis)] none := by
  refine ⟨.step (.step .start (sets_step (by decide) (by decide +kernel))) ⟨afterCadence,rfl,?_,?_⟩,?_⟩
  · exact sets_from 0 afterCadence _ (by decide)
  · exact (Option.isNone_iff_eq_none.mp (by decide +kernel)).symm
  · rintro ⟨_,_,_,landed,_⟩
    cases landed

end Attention
