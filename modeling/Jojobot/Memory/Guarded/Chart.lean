import Jojobot.Library.Climb
import Jojobot.Library.Fallible
import Jojobot.Library.Runs
import Jojobot.Memory.Bags.Newest
import Jojobot.Memory.Guarded

namespace Guarded
open Library Std Memory Merge Relation

-- The writes that reach each thing, its links served as the handles they name.
abbrev Things := Histories KeyWrite

variable [Floats] (loaded : List Text) (declared : List FoldType)

def foldOn (held : Things) (thing : EntityId) : Fields := foldedFields (entry held thing) declared

def reportsTo (held : Things) (bot : EntityId) : Option Text := (foldOn declared held bot)[REPORTS_TO]?

-- The chart of bots: each under the manager it reports to.
def chart (held : Things) (bot : EntityId) : Option EntityId := (reportsTo declared held bot).bind (managerIn loaded)

-- The chart around a write that names a manager. What else is read of it is the caller's.
def lineageWith (held : Things) (rest : Lineage) (named : Option EntityId) : Lineage :=
  { rest with
    named := named
    aboveNamed := named.elim [] (chainAbove loaded (reportsTo declared held)) }

def refusesAnUnlicensedKey (held : Things) (subject : EntityId) (exists' : Bool) (caller : EntityId) (sent : Fields)
    (rest : Lineage) : Option Refused :=
  let judged := judgedFields exists' (foldOn declared held subject) sent
  refusesUnlicensedWrite loaded subject caller judged
    ((needsTheChart loaded subject judged).map (lineageWith loaded declared held rest))

def refusesChange (held : Things) (subject caller : EntityId) (stood : List KeyWrite) (rest : Lineage) : Option Refused :=
  let before := foldOn declared held subject
  let after := foldedFields stood declared
  refusesUnlicensedChange loaded subject caller before after
    ((chartWantedByChange loaded subject before after).map (lineageWith loaded declared held rest))

-- The guards of a merge that read the chart, in their order.
def refusesMerge (held : Things) (caller : EntityId) (step : MergeStep) (rest duplicates : Lineage) : Option Refused :=
  let judged := judgedCarried (foldOn declared held step.folded) (writtenKeysOn (entry held step.folded))
  let needed := needsTheChart loaded step.survivor judged
  (refusesMergeCarrying loaded caller step.survivor step.folded judged
    (needed.map (lineageWith loaded declared held rest))
    (needed.map fun _ => lineageWith loaded declared held duplicates none)).or
  (refusesMergeBelowTheDuplicate step.survivor step.folded (chainAbove loaded (reportsTo declared held) step.survivor))

-- A link to the duplicate is one to the survivor after their merge.
def repointed (step : MergeStep) (write : KeyWrite) : KeyWrite :=
  if SERVED_KEYS.contains write.key ∧ write.value.bind (managerIn loaded) = some step.folded then
    { write with value := some step.survivor }
  else write

def mergedBy (held : Things) (step : MergeStep) : Things := fun thing =>
  (applyMerge held step thing).map (List.map (repointed loaded step))

-- What moves the chart, each by some caller: a capture or a creation; an edit, a clear, an
-- archive or a retraction, whatever it leaves of the thing's writes; and a merge.
inductive Moves (held : Things) : EntityId → Things → Prop where
  | wrote {caller subject : EntityId} {fact : Fact} {sets derived : List Text} {ownFieldsStay : Bool} {moment : Timestamp}
      {rows after : List FieldRow} (exists' : Bool) (rest : Lineage) (noRequest : isRequest subject = false)
      (stood : writesOn rows = entry held subject)
      (stored : captured rows fact sets derived declared ownFieldsStay moment = .ok after)
      (allowed : refusesAnUnlicensedKey loaded declared held subject exists' caller fact.fields rest = none) :
      Moves held caller (Function.update held subject (some (writesOn after)))
  | changed {caller subject : EntityId} {stood : List KeyWrite} (rest : Lineage) (noRequest : isRequest subject = false)
      (sorted : Sorted stood) (allowed : refusesChange loaded declared held subject caller stood rest = none) :
      Moves held caller (Function.update held subject (some stood))
  | merged {caller : EntityId} {step : MergeStep} (rest duplicates : Lineage) (noRequest : isRequest step.survivor = false)
      (handle : managerIn loaded step.survivor = some step.survivor)
      (whole : ∀ write ∈ entry held step.folded, (step.claims write.fact).isSome)
      (allowed : refusesMerge loaded declared held caller step rest duplicates = none) :
      Moves held caller (mergedBy loaded held step)

-- No chain of bots is longer than a walk reads.
def Short (next : EntityId → Option EntityId) : Prop :=
  ∀ bot chain last, Stretch next bot chain last → (bot :: chain).Nodup → chain.length ≤ MAX_CHAIN

variable {loaded} {declared} {held : Things} {subject caller named : EntityId} {rest : Lineage}

omit [Floats] in
theorem mem_superior : (⟨REPORTS_TO,.superior⟩ : GuardedKey) ∈ GUARDED_KEYS := by decide

omit [Floats] in
theorem manager_counts {value : Text} (key : Text) (names : managerIn loaded value = some named) :
    counts declared key value = true := by
  have written : holdsAValue value = true := by
    unfold holdsAValue
    apply decide_eq_true
    intro blank
    unfold managerIn at names
    rw [blank] at names
    cases names
  unfold counts
  rw [written]
  rfl

omit [Floats] in
-- The walk up a chart without a loop, none of whose chains is too long for it, reads all
-- of the chain, and then is over.
theorem walk_reads {reportsTo : EntityId → Option Text} {bot : EntityId}
    (unlooped : Unlooped fun bot => (reportsTo bot).bind (managerIn loaded))
    (short : Short fun bot => (reportsTo bot).bind (managerIn loaded)) (more : Nat) {chain : List EntityId} {last : EntityId}
    (stretch : Stretch (fun bot => (reportsTo bot).bind (managerIn loaded)) bot chain last)
    (enough : MAX_CHAIN+1 ≤ more+chain.length) :
    Whole (fun bot => (reportsTo bot).bind (managerIn loaded)) bot
      (ChainWalk.read loaded reportsTo more ⟨bot :: chain,some last⟩).above := by
  induction more generalizing chain last with
  | zero =>
    have bound := short bot chain last stretch (stretch.nodup unlooped)
    omega
  | succ more ih =>
    unfold ChainWalk.read
    dsimp only
    have bound := short bot chain last stretch (stretch.nodup unlooped)
    cases goes : (reportsTo last).bind (managerIn loaded) with
    | none =>
      have over' : ChainWalk.step loaded ⟨bot :: chain,some last⟩ (reportsTo last) = ⟨bot :: chain,none⟩ := by
        unfold ChainWalk.step
        rw [goes]
        simp
      rw [over']
      have still : ChainWalk.read loaded reportsTo more ⟨bot :: chain,none⟩ = ⟨bot :: chain,none⟩ := by
        cases more with
        | zero => rfl
        | succ more => rfl
      rw [still]
      exact ⟨last,stretch,goes⟩
    | some above =>
      have fresh := stretch.fresh unlooped goes
      have on' : ChainWalk.step loaded ⟨bot :: chain,some last⟩ (reportsTo last) = ⟨bot :: (chain ++ [above]),some above⟩ := by
        unfold ChainWalk.step
        rw [goes]
        have next : ((some above).filter fun next => !(bot :: chain).contains next).filter
            (fun _ => decide ((bot :: chain).length ≤ MAX_CHAIN)) = some above := by
          have longer := short bot _ above (stretch.up goes) ((stretch.up goes).nodup unlooped)
          rw [List.length_append] at longer
          have reads : decide ((bot :: chain).length ≤ MAX_CHAIN) = true := decide_eq_true longer
          have notSeen : (!(bot :: chain).contains above) = true := by
            simpa using fresh
          rw [Option.filter_some,if_pos notSeen,Option.filter_some,if_pos reads]
        dsimp only
        rw [next]
        rfl
      rw [on']
      apply ih (stretch.up goes)
      rw [List.length_append,List.length_singleton]
      omega

omit [Floats] in
theorem chainAbove_whole {reportsTo : EntityId → Option Text}
    (unlooped : Unlooped fun bot => (reportsTo bot).bind (managerIn loaded))
    (short : Short fun bot => (reportsTo bot).bind (managerIn loaded)) (bot : EntityId) :
    Whole (fun bot => (reportsTo bot).bind (managerIn loaded)) bot (chainAbove loaded reportsTo bot) :=
  walk_reads unlooped short (MAX_CHAIN+1) .start (Nat.le_refl _)

-- The newest standing write of a bot's manager.
def placedUnder (writes : List KeyWrite) : Option Text := (standing writes REPORTS_TO).getLast?.bind (·.value)

theorem chart_newest (newest : foldOf REPORTS_TO declared = .newest) {bot : EntityId} (sorted : Sorted (entry held bot)) :
    chart loaded declared held bot = (placedUnder (entry held bot)).bind (managerIn loaded) := by
  have value := newest_value newest (by decide) sorted
  unfold chart reportsTo foldOn
  rw [value]
  change ((placedUnder (entry held bot)).filter _).bind _ = _
  cases placedUnder (entry held bot) with
  | none => rfl
  | some value =>
    rw [Option.filter_some]
    split
    · rfl
    · rename_i blank
      cases names : managerIn loaded value with
      | none => exact names.symm
      | some named => exact absurd (manager_counts REPORTS_TO names) blank

omit [Floats] in
-- A manager the guard let through is not the thing, nor below it.
theorem clear_of_cycle {manager : EntityId} {lineage : Lineage} (names : lineage.named = some manager)
    (noCycle : superiorLicensed subject caller (some lineage) ≠ .error (.cycle manager)) :
    manager ≠ subject ∧ subject ∉ lineage.aboveNamed := by
  constructor
  · intro same
    apply noCycle
    simp [superiorLicensed,names,same,Option.filter]
  · intro above
    apply noCycle
    simp [superiorLicensed,names,above,Option.filter]

theorem clear_to_place {manager : EntityId} (unlooped : Unlooped (chart loaded declared held))
    (short : Short (chart loaded declared held))
    (noCycle : superiorLicensed subject caller (some (lineageWith loaded declared held rest (some manager))) ≠
      .error (.cycle manager)) :
    manager ≠ subject ∧ ¬Climbs (chart loaded declared held) manager subject := by
  obtain ⟨apart,above⟩ := clear_of_cycle rfl noCycle
  refine ⟨apart,?_⟩
  intro climb
  exact above ((chainAbove_whole unlooped short manager).mem_iff.mpr climb)

omit [Floats] in
theorem superior_wanted {keys : List GuardedKey} {written : Fields} (noRequest : isRequest subject = false)
    (touches : ⟨REPORTS_TO,.superior⟩ ∈ keys) {value : Text} (holds : written[REPORTS_TO]? = some value) :
    chartWanted loaded subject keys written = some (managerIn loaded value) := by
  unfold chartWanted
  dsimp only
  rw [if_pos,noRequest,if_neg Bool.false_ne_true,holds]
  · rfl
  · exact List.any_eq_true.mpr ⟨_,touches,rfl⟩

omit [Floats] in
theorem refusedBy_none {rule : GuardedKey} {lineage : Option Lineage} (allowed : refusedBy loaded rule subject caller lineage = none) :
    licensed loaded rule.may rule.key subject caller lineage = .ok () := by
  unfold refusedBy at allowed
  split at allowed
  · assumption
  · cases allowed

-- A capture the guard let through leaves the thing's manager as it is, or places it
-- under one that is not below it.
theorem wrote_clear {value : Text} {manager : EntityId} {sent : Fields} {exists' : Bool} (unlooped : Unlooped (chart loaded declared held))
    (short : Short (chart loaded declared held)) (noRequest : isRequest subject = false)
    (allowed : refusesAnUnlicensedKey loaded declared held subject exists' caller sent rest = none)
    (names : sent[REPORTS_TO]? = some value) (named : managerIn loaded value = some manager) :
    chart loaded declared held subject = some manager ∨
      (manager ≠ subject ∧ ¬Climbs (chart loaded declared held) manager subject) := by
  cases kept : (judgedFields exists' (foldOn declared held subject) sent)[REPORTS_TO]? with
  | none =>
    left
    unfold judgedFields at kept
    split at kept
    · unfold fieldsThatWouldChange at kept
      rw [ExtTreeMap.getElem?_filter',names] at kept
      have unmoved : ∃ now, (foldOn declared held subject)[REPORTS_TO]? = some now ∧ trim now = trim value := by
        have plain : trim REPORTS_TO = REPORTS_TO := by decide
        rw [plain] at kept
        have both : (∃ rule ∈ GUARDED_KEYS, rule.key = REPORTS_TO) ∧
            ((foldOn declared held subject)[REPORTS_TO]?).any (fun now => decide (trim now = trim value)) = true := by
          simpa using kept
        obtain ⟨now,holds,same⟩ := (Option.any_eq_true _ _).mp both.2
        exact ⟨now,holds,of_decide_eq_true same⟩
      obtain ⟨now,holds,same⟩ := unmoved
      unfold chart reportsTo
      rw [holds]
      change managerIn loaded now = _
      rw [←named]
      unfold managerIn
      rw [same]
    · rw [names] at kept
      cases kept
  | some judged =>
    right
    have same : judged = value := by
      unfold judgedFields at kept
      split at kept
      · unfold fieldsThatWouldChange at kept
        rw [ExtTreeMap.getElem?_filter',names] at kept
        have parts := Option.filter_eq_some_iff.mp kept
        exact (Option.some.inj parts.1).symm
      · rw [names] at kept
        exact (Option.some.inj kept).symm
    subst same
    unfold refusesAnUnlicensedKey refusesUnlicensedWrite refusesUnlicensedWriteBy at allowed
    dsimp only at allowed
    have touches : (⟨REPORTS_TO,.superior⟩ : GuardedKey) ∈
        guardedKeysIn (judgedFields exists' (foldOn declared held subject) sent) := by
      apply List.mem_filter.mpr
      refine ⟨mem_superior,?_⟩
      rw [←ExtTreeMap.isSome_getElem?_eq_contains,kept]
      rfl
    have wanted : needsTheChart loaded subject (judgedFields exists' (foldOn declared held subject) sent) =
        some (some manager) := (superior_wanted noRequest touches kept).trans (congrArg some named)
    rw [wanted] at allowed
    have letThrough := refusedBy_none (List.findSome?_eq_none_iff.mp allowed _ touches)
    apply clear_to_place unlooped short
    intro cycle
    cases cycle.symm.trans letThrough

theorem change_clear {value : Text} {manager : EntityId} {stood : List KeyWrite} (unlooped : Unlooped (chart loaded declared held))
    (short : Short (chart loaded declared held)) (noRequest : isRequest subject = false)
    (allowed : refusesChange loaded declared held subject caller stood rest = none)
    (names : (foldedFields stood declared)[REPORTS_TO]? = some value) (named : managerIn loaded value = some manager) :
    chart loaded declared held subject = some manager ∨
      (manager ≠ subject ∧ ¬Climbs (chart loaded declared held) manager subject) := by
  by_cases moved : (foldOn declared held subject)[REPORTS_TO]? = (foldedFields stood declared)[REPORTS_TO]?
  · left
    unfold chart reportsTo
    rw [moved,names]
    exact named
  · right
    unfold refusesChange refusesUnlicensedChange refusesUnlicensedChangeBy at allowed
    dsimp only at allowed
    have touches : (⟨REPORTS_TO,.superior⟩ : GuardedKey) ∈ GUARDED_KEYS.filter fun rule =>
        (foldOn declared held subject)[rule.key]? ≠ (foldedFields stood declared)[rule.key]? :=
      List.mem_filter.mpr ⟨mem_superior,decide_eq_true moved⟩
    have wanted : chartWantedByChange loaded subject (foldOn declared held subject) (foldedFields stood declared) =
        some (some manager) := (superior_wanted noRequest touches names).trans (congrArg some named)
    rw [wanted] at allowed
    have judged : (⟨REPORTS_TO,.superior⟩ : GuardedKey) ∈ (GUARDED_KEYS.filter fun rule => rule.may ≠ .requestGeneration).filter
        fun rule => (foldOn declared held subject)[rule.key]? ≠ (foldedFields stood declared)[rule.key]? :=
      List.mem_filter.mpr ⟨List.mem_filter.mpr ⟨mem_superior,rfl⟩,decide_eq_true moved⟩
    have letThrough := refusedBy_none (List.findSome?_eq_none_iff.mp allowed _ judged)
    apply clear_to_place unlooped short
    intro cycle
    cases cycle.symm.trans letThrough

theorem chart_update_other (stood : Option (List KeyWrite)) {bot : EntityId} (other : bot ≠ subject) :
    chart loaded declared (Function.update held subject stood) bot = chart loaded declared held bot := by
  unfold chart reportsTo foldOn entry
  rw [Function.update_of_ne other]

theorem chart_update_self (stood : List KeyWrite) :
    chart loaded declared (Function.update held subject (some stood)) subject =
      ((foldedFields stood declared)[REPORTS_TO]?).bind (managerIn loaded) := by
  unfold chart reportsTo foldOn entry
  rw [Function.update_self]
  rfl

-- One thing's writes anew: its manager stays, goes, or is one that is not below it.
theorem placed_unlooped {stood : List KeyWrite} (unlooped : Unlooped (chart loaded declared held))
    (clear : ∀ value manager, (foldedFields stood declared)[REPORTS_TO]? = some value → managerIn loaded value = some manager →
      chart loaded declared held subject = some manager ∨
        (manager ≠ subject ∧ ¬Climbs (chart loaded declared held) manager subject)) :
    Unlooped (chart loaded declared (Function.update held subject (some stood))) := by
  have shape : chart loaded declared (Function.update held subject (some stood)) =
      Function.update (chart loaded declared held) subject
        (((foldedFields stood declared)[REPORTS_TO]?).bind (managerIn loaded)) := by
    funext bot
    by_cases same : bot = subject
    · subst same
      rw [chart_update_self,Function.update_self]
    · rw [chart_update_other _ same,Function.update_of_ne same]
  rw [shape]
  by_cases stays : chart loaded declared held subject = ((foldedFields stood declared)[REPORTS_TO]?).bind (managerIn loaded)
  · rw [←stays,Function.update_eq_self]
    exact unlooped
  · apply unlooped.placed
    intro manager placed
    obtain ⟨value,written,names⟩ := Option.bind_eq_some_iff.mp placed
    rcases clear value manager written names with same | apart
    · exact absurd (same.trans placed.symm) stays
    · exact apart

theorem captured_fold {fact : Fact} {sets derived : List Text} {ownFieldsStay : Bool} {moment : Timestamp}
    {rows after : List FieldRow} (newest : foldOf REPORTS_TO declared = .newest)
    (stored : captured rows fact sets derived declared ownFieldsStay moment = .ok after) :
    (foldedFields (writesOn after) declared)[REPORTS_TO]? = (foldedFields (writesOn rows) declared)[REPORTS_TO]? ∨
      ∃ value, fact.fields[REPORTS_TO]? = some value ∧
        (foldedFields (writesOn after) declared)[REPORTS_TO]? = (some value).filter (counts declared REPORTS_TO) := by
  unfold captured at stored
  obtain ⟨bags,_,made⟩ := bind_ok.mp stored
  cases Except.ok.inj made
  rw [foldedFields_key,foldedFields_key,appendWrites_cell]
  split
  · rcases List.eq_nil_or_concat' (valuesFor REPORTS_TO (writtenKeys fact)) with none' | ⟨front,last,shape⟩
    · left
      rw [none']
      rfl
    · right
      have member : last ∈ valuesFor REPORTS_TO (writtenKeys fact) := by
        rw [shape]
        exact List.mem_append_right _ List.mem_cons_self
      obtain ⟨row,found,sent⟩ := List.mem_map.mp member
      obtain ⟨written,key⟩ := List.mem_filter.mp found
      obtain ⟨field,inFields,same⟩ := List.mem_map.mp written
      subst same
      subst sent
      have name : field.1 = REPORTS_TO := of_decide_eq_true key
      refine ⟨field.2,?_,?_⟩
      · rw [←name]
        exact ExtTreeMap.mem_toList_iff_getElem?_eq_some.mp inFields
      · rw [shape]
        exact newest_last newest _ _ _
  · exact Or.inl rfl

omit [Floats] in
theorem captured_sorted {fact : Fact} {sets derived : List Text} {ownFieldsStay : Bool} {moment : Timestamp}
    {rows after : List FieldRow} (sorted : Sorted (writesOn rows))
    (stored : captured rows fact sets derived declared ownFieldsStay moment = .ok after) : Sorted (writesOn after) := by
  unfold captured at stored
  obtain ⟨bags,_,made⟩ := bind_ok.mp stored
  cases Except.ok.inj made
  exact appendWrites_sorted _ sorted

omit [Floats] in
theorem entry_mergedBy (step : MergeStep) (thing : EntityId) :
    entry (mergedBy loaded held step) thing = (entry (applyMerge held step) thing).map (repointed loaded step) := by
  unfold entry mergedBy
  cases applyMerge held step thing with
  | none => rfl
  | some writes => rfl

omit [Floats] in
theorem repointed_frame (step : MergeStep) (write : KeyWrite) :
    (repointed loaded step write).key = write.key ∧ (repointed loaded step write).ordinal = write.ordinal ∧
      (repointed loaded step write).status = write.status := by
  unfold repointed
  split
  · exact ⟨rfl,rfl,rfl⟩
  · exact ⟨rfl,rfl,rfl⟩

omit [Floats] in
theorem under_repointed (step : MergeStep) (writes : List KeyWrite) (key : Text) :
    under (writes.map (repointed loaded step)) key = (under writes key).map (repointed loaded step) := by
  unfold under
  rw [List.filter_map]
  congr 1
  apply List.filter_congr
  intro write _
  exact congrArg (fun other : Text => decide (other = key)) (repointed_frame step write).1

omit [Floats] in
theorem mergedBy_ordered (ordered : Ordered held) (step : MergeStep) : Ordered (mergedBy loaded held step) := by
  intro thing key
  rw [entry_mergedBy,under_repointed]
  apply List.pairwise_map.mpr
  apply (applyMerge_ordered ordered step thing key).imp
  intro a b less
  change ((repointed loaded step a).ordinal : Int) < (repointed loaded step b).ordinal
  rw [(repointed_frame step a).2.1,(repointed_frame step b).2.1]
  exact less

omit [Floats] in
theorem standing_repointed (step : MergeStep) (writes : List KeyWrite) (key : Text) :
    standing (writes.map (repointed loaded step)) key = (standing writes key).map (repointed loaded step) := by
  unfold standing
  rw [under_repointed,List.filter_map]
  congr 1
  apply List.filter_congr
  intro write _
  exact congrArg (fun other : FactStatus => decide (other = .active)) (repointed_frame step write).2.2

omit [Floats] in
theorem placedUnder_repointed {step : MergeStep} (handle : managerIn loaded step.survivor = some step.survivor)
    (writes : List KeyWrite) : (placedUnder (writes.map (repointed loaded step))).bind (managerIn loaded) =
      ((placedUnder writes).bind (managerIn loaded)).map (renamed step.folded step.survivor) := by
  unfold placedUnder
  rw [standing_repointed,List.getLast?_map]
  cases last : (standing writes REPORTS_TO).getLast? with
  | none => rfl
  | some write =>
    have key : write.key = REPORTS_TO :=
      (mem_under.mp (List.mem_filter.mp (List.mem_of_getLast? last)).1).2
    change (repointed loaded step write).value.bind (managerIn loaded) = (write.value.bind (managerIn loaded)).map _
    unfold repointed
    split
    · rename_i named
      rw [named.2]
      change managerIn loaded step.survivor = some (renamed step.folded step.survivor step.folded)
      rw [handle,renamed,if_pos rfl]
    · rename_i unnamed
      cases names : write.value.bind (managerIn loaded) with
      | none => rfl
      | some manager =>
        have apart : manager ≠ step.folded := by
          intro same
          apply unnamed
          rw [key,names,same]
          exact ⟨rfl,rfl⟩
        rw [Option.map_some,renamed,if_neg apart]

omit [Floats] in
-- The newest write of a key on the merged thing is the newest of one of the two.
theorem placedUnder_mergeIn {ours theirs : List KeyWrite} {claims : Claims} (theirsSorted : Sorted theirs) (oursSorted : Sorted ours)
    (whole : ∀ write ∈ theirs, (claims write.fact).isSome) :
    placedUnder (mergeIn ours theirs claims) = placedUnder ours ∨ placedUnder (mergeIn ours theirs claims) = placedUnder theirs := by
  have all : mapped claims theirs = theirs := by
    apply List.filter_eq_self.mpr
    intro write member
    exact whole write member
  have read : ∀ writes : List KeyWrite, (writes.filter fun write => write.status = .active).getLast?.bind (·.value) =
      (writes.filterMap fun write => if write.status = .active then some write.value else none).getLast?.join := by
    intro writes
    have same : (writes.filterMap fun write => if write.status = .active then some write.value else none) =
        (writes.filter fun write => write.status = .active).map (·.value) := by
      induction writes with
      | nil => rfl
      | cons write rest ih =>
        rw [List.filterMap_cons,List.filter_cons]
        by_cases active : write.status = .active
        · simp [active,ih]
        · simp [active,ih]
    rw [same,List.getLast?_map]
    cases (writes.filter fun write => write.status = .active).getLast? with
    | none => rfl
    | some write => rfl
  have blind : ∀ (side : KeyWrite ⊕ KeyWrite) now, Places claims side now →
      (if now.status = .active then some now.value else none) =
        Sum.elim (fun write : KeyWrite => if write.status = .active then some write.value else none)
          (fun write : KeyWrite => if write.status = .active then some write.value else none) side := by
    intro side now made
    cases side with
    | inl write =>
      obtain ⟨turn,same⟩ := made
      subst same
      rfl
    | inr write =>
      rcases made with same | ⟨turn,same⟩
      · subst same
        rfl
      · subst same
        rfl
  unfold placedUnder standing
  rw [under_mergeIn theirsSorted oursSorted,all,read,read,read,
    places_filterMap (mergeKey_places claims (theirsSorted _) (oursSorted _)) _ blind]
  rcases weave_last (fun write : KeyWrite => if write.status = .active then some write.value else none)
      (fun write : KeyWrite => if write.status = .active then some write.value else none)
      (under theirs REPORTS_TO) (under ours REPORTS_TO) with left | right
  · exact Or.inr (congrArg Option.join left)
  · exact Or.inl (congrArg Option.join right)

omit [Floats] in
-- What the duplicate holds is judged as it holds it.
theorem judgedCarried_kept {carried : Fields} {key value : Text} (holds : carried[key]? = some value) (written : List Text) :
    (judgedCarried carried written)[key]? = some value := by
  unfold judgedCarried
  induction written generalizing carried with
  | nil => exact holds
  | cons first rest ih =>
    rw [List.foldl_cons]
    apply ih
    split
    · exact holds
    · rename_i absent
      have other : first ≠ key := by
        intro same
        apply absent
        rw [same,←ExtTreeMap.isSome_getElem?_eq_contains,holds]
        rfl
      rw [ExtTreeMap.getElem?_insert,if_neg (by simpa using other)]
      exact holds

-- What the merge's guards leave of the chart between the two.
theorem merge_clear {step : MergeStep} {duplicates : Lineage} (unlooped : Unlooped (chart loaded declared held))
    (short : Short (chart loaded declared held)) (noRequest : isRequest step.survivor = false)
    (allowed : refusesMerge loaded declared held caller step rest duplicates = none) :
    ¬Climbs (chart loaded declared held) step.folded step.survivor ∧
      ¬Climbs (chart loaded declared held) step.survivor step.folded := by
  unfold refusesMerge at allowed
  dsimp only at allowed
  obtain ⟨carrying,below⟩ := Option.or_eq_none_iff.mp allowed
  have under' : ¬Climbs (chart loaded declared held) step.survivor step.folded := by
    intro climb
    unfold refusesMergeBelowTheDuplicate at below
    rw [if_pos] at below
    · cases below
    · exact List.contains_iff_mem.mpr ((chainAbove_whole unlooped short step.survivor).mem_iff.mpr climb)
  refine ⟨?_,under'⟩
  intro climb
  by_cases self : step.folded = step.survivor
  · rw [self] at climb
    exact unlooped _ climb
  obtain ⟨manager,first,path⟩ := TransGen.head'_iff.mp climb
  obtain ⟨value,holds,names⟩ := Option.bind_eq_some_iff.mp first
  have carried : (judgedCarried (foldOn declared held step.folded) (writtenKeysOn (entry held step.folded)))[REPORTS_TO]? =
      some value := judgedCarried_kept holds _
  have held' : (judgedCarried (foldOn declared held step.folded)
      (writtenKeysOn (entry held step.folded))).contains REPORTS_TO = true := by
    rw [←ExtTreeMap.isSome_getElem?_eq_contains,carried]
    rfl
  have touches : (⟨REPORTS_TO,.superior⟩ : GuardedKey) ∈ guardedKeysIn
      (judgedCarried (foldOn declared held step.folded) (writtenKeysOn (entry held step.folded))) :=
    List.mem_filter.mpr ⟨mem_superior,held'⟩
  have wanted : needsTheChart loaded step.survivor
      (judgedCarried (foldOn declared held step.folded) (writtenKeysOn (entry held step.folded))) = some (some manager) :=
    (superior_wanted noRequest touches carried).trans (congrArg some names)
  rw [wanted] at carrying
  unfold refusesMergeCarrying refusesMergeCarryingBy at carrying
  rw [if_neg self] at carrying
  dsimp only at carrying
  split at carrying
  · cases carrying
  · rename_i noCycle
    have here := List.findSome?_eq_none_iff.mp noCycle _ touches
    have clear : manager ≠ step.survivor ∧ ¬Climbs (chart loaded declared held) manager step.survivor := by
      have judges : superiorLicensed step.survivor caller (some (lineageWith loaded declared held rest (some manager))) ≠
          .error (.cycle manager) := by
        intro cycle
        have judged : judgedOn step.survivor step.folded (some (lineageWith loaded declared held rest (some manager)))
            (some (lineageWith loaded declared held duplicates none)) ⟨REPORTS_TO,.superior⟩ =
              (step.survivor,some (lineageWith loaded declared held rest (some manager))) := by
          unfold judgedOn
          rw [if_neg]
          intro both
          rcases both.2 with same | same | same
          · cases same
          · cases same
          · cases same
        dsimp only [Option.map_some] at here
        rw [judged] at here
        unfold licensed at here
        dsimp only at here
        rw [cycle] at here
        cases here
      exact clear_to_place unlooped short judges
    rcases path.cases_head with same | ⟨next,step',onward⟩
    · exact clear.1 same
    · exact clear.2 (TransGen.head' step' onward)

theorem merge_unlooped {step : MergeStep} {duplicates : Lineage} (newest : foldOf REPORTS_TO declared = .newest)
    (ordered : Ordered held) (unlooped : Unlooped (chart loaded declared held)) (short : Short (chart loaded declared held))
    (noRequest : isRequest step.survivor = false) (handle : managerIn loaded step.survivor = some step.survivor)
    (whole : ∀ write ∈ entry held step.folded, (step.claims write.fact).isSome)
    (allowed : refusesMerge loaded declared held caller step rest duplicates = none) :
    Unlooped (chart loaded declared (mergedBy loaded held step)) := by
  obtain ⟨above,below⟩ := merge_clear unlooped short noRequest allowed
  apply unlooped.joined step.folded step.survivor above below
  have kept : renamed step.folded step.survivor step.survivor = step.survivor := by
    unfold renamed
    split
    · rfl
    · rfl
  intro a b goes
  rw [chart_newest newest (mergedBy_ordered ordered step a),entry_mergedBy,placedUnder_repointed handle,entry_applyMerge] at goes
  obtain ⟨manager,named,same⟩ := Option.map_eq_some_iff.mp goes
  by_cases survivor : a = step.survivor
  · subst survivor
    rw [if_pos rfl] at named
    have theirs := ordered step.folded
    rcases placedUnder_mergeIn theirs (oursOf_sorted ordered step) whole with ours | folded
    · rw [ours] at named
      have inOurs : placedUnder (oursOf held step) = placedUnder (entry held step.survivor) := by
        unfold oursOf
        by_cases self : step.survivor = step.folded
        · exfalso
          unfold oursOf entry at named
          rw [self,Function.update_self] at named
          cases named
        · unfold entry
          rw [Function.update_of_ne self]
      rw [inOurs] at named
      exact ⟨step.survivor,manager,kept,same,(chart_newest newest (ordered step.survivor)).trans named⟩
    · rw [folded] at named
      exact ⟨step.folded,manager,if_pos rfl,same,(chart_newest newest theirs).trans named⟩
  · rw [if_neg survivor] at named
    split at named
    · cases named
    · rename_i apart
      exact ⟨a,manager,if_neg apart,same,(chart_newest newest (ordered a)).trans named⟩

theorem moves_ordered {next : Things} (ordered : Ordered held) (moves : Moves loaded declared held caller next) : Ordered next := by
  have placed : ∀ (subject : EntityId) (stood : List KeyWrite), Sorted stood →
      Ordered (Function.update held subject (some stood)) := by
    intro subject stood sorted thing
    unfold entry
    by_cases same : thing = subject
    · subst same
      rw [Function.update_self]
      exact sorted
    · rw [Function.update_of_ne same]
      exact ordered thing
  cases moves with
  | wrote exists' rest noRequest stood stored allowed =>
    apply placed
    apply captured_sorted _ stored
    rw [stood]
    exact ordered _
  | changed rest noRequest sorted allowed => exact placed _ _ sorted
  | merged rest duplicates noRequest handle whole allowed => exact mergedBy_ordered ordered _

theorem moves_unlooped {next : Things} (newest : foldOf REPORTS_TO declared = .newest) (ordered : Ordered held)
    (unlooped : Unlooped (chart loaded declared held)) (short : Short (chart loaded declared held))
    (moves : Moves loaded declared held caller next) : Unlooped (chart loaded declared next) := by
  cases moves with
  | wrote exists' rest noRequest stood stored allowed =>
    apply placed_unlooped unlooped
    intro value manager written names
    rcases captured_fold newest stored with same | ⟨sent,inFields,laid⟩
    · left
      rw [stood] at same
      unfold chart reportsTo foldOn
      rw [←same,written]
      exact names
    · have same : sent = value := by
        rw [laid] at written
        exact (Option.filter_eq_some_iff.mp written).1 |> Option.some.inj
      subst same
      exact wrote_clear unlooped short noRequest allowed inFields names
  | changed rest noRequest sorted allowed =>
    apply placed_unlooped unlooped
    intro value manager written names
    exact change_clear unlooped short noRequest allowed written names
  | merged rest duplicates noRequest handle whole allowed =>
    exact merge_unlooped newest ordered unlooped short noRequest handle whole allowed

theorem chart_never_loops (loaded : List Text) (declared : List FoldType) (taken : List (Things × EntityId)) (held : Things)
    (newest : foldOf REPORTS_TO declared = .newest)
    (run : Run (Moves loaded declared) (fun _ => none) taken held)
    (short : (∀ one ∈ taken, Short (chart loaded declared one.1)) ∧ Short (chart loaded declared held)) :
    Unlooped (chart loaded declared held) ∧ ∀ bot,
      Whole (chart loaded declared held) bot (chainAbove loaded (reportsTo declared held) bot) ∧
        (bot :: chainAbove loaded (reportsTo declared held) bot).Nodup := by
  have empty : Unlooped (chart loaded declared fun _ => none) := by
    intro bot loop
    obtain ⟨_,step,_⟩ := TransGen.head'_iff.mp loop
    cases step
  have first : Ordered (fun _ => none : Things) := fun _ _ => List.Pairwise.nil
  have unlooped : Unlooped (chart loaded declared held) := by
    apply (@Run.strong_of_meets _ _ (Moves loaded declared) _ _ _ Ordered (fun held _ => Short (chart loaded declared held))
      (fun held => Unlooped (chart loaded declared held)) first empty moves_ordered _ run short.1).1
    intro before caller after ordered unlooped moves short
    exact moves_unlooped newest ordered unlooped short moves
  refine ⟨unlooped,?_⟩
  intro bot
  have whole := chainAbove_whole unlooped short.2 bot
  obtain ⟨last,stretch,ends⟩ := whole
  exact ⟨⟨last,stretch,ends⟩,stretch.nodup unlooped⟩

-- Bots that nothing was written on have no manager, so few written ones make short chains.
theorem short_of_few (few : List EntityId) (bound : few.length ≤ MAX_CHAIN) (outside : ∀ bot, bot ∉ few → held bot = none) :
    Short (chart loaded declared held) := by
  intro bot chain last stretch distinct
  have written : ∀ one, (chart loaded declared held one).isSome → one ∈ few := by
    intro one placed
    by_contra off
    have none' : chart loaded declared held one = none := by
      unfold chart reportsTo foldOn entry
      rw [outside one off]
      rfl
    rw [none'] at placed
    cases placed
  have among : ∀ one ∈ bot :: chain, one = last ∨ one ∈ few := by
    clear distinct
    induction stretch with
    | start =>
      intro one has
      exact Or.inl (List.mem_singleton.mp has)
    | @up chain last above _ step ih =>
      intro one has
      rw [←List.cons_append] at has
      rcases List.mem_append.mp has with before | top
      · rcases ih one before with same | known
        · exact Or.inr (written one (by rw [same,step]; rfl))
        · exact Or.inr known
      · exact Or.inl (List.mem_singleton.mp top)
  have top : last ∈ bot :: chain := by
    cases stretch with
    | start => exact List.mem_cons_self
    | up => simp
  have rest : (bot :: chain).erase last ⊆ few := by
    intro one has
    obtain ⟨apart,known⟩ := (List.Nodup.mem_erase_iff distinct).mp has
    exact (among one known).resolve_left apart
  have fits := ((distinct.erase last).subperm rest).length_le
  rw [List.length_erase_of_mem top,List.length_cons] at fits
  omega

def hire (home : String) : Memory.Fact where
  id := "f1".toList
  home := home.toList
  content := "hired".toList
  details := none
  status := .active
  fields := (∅ : Fields).insert REPORTS_TO "bot:b".toList

def hired : List FieldRow := [⟨⟨REPORTS_TO,1,some "bot:b".toList,"f1".toList,.active,some 0⟩,.sets⟩]

def underC : List KeyWrite := [⟨REPORTS_TO,2,some "bot:c".toList,"f1".toList,.active,some 1⟩]

def intoE : MergeStep := ⟨"bot:c".toList,"bot:e".toList,fun _ => some "f1".toList⟩

-- Two bots are created under one manager, the first is moved under the second, and that
-- one is merged into a bot that was nowhere yet.
def firstHired : Things := Function.update (fun _ => none) "bot:a".toList (some (writesOn hired))
def bothHired : Things := Function.update firstHired "bot:c".toList (some (writesOn hired))
def movedUnder : Things := Function.update bothHired "bot:a".toList (some underC)
def staffed : Things := mergedBy ["bot".toList] movedUnder intoE

def staff : List EntityId := ["bot:a".toList,"bot:c".toList,"bot:e".toList]

omit [Floats] in
theorem staff_outside {bot : EntityId} (off : bot ∉ staff) :
    firstHired bot = none ∧ bothHired bot = none ∧ movedUnder bot = none ∧ staffed bot = none := by
  simp only [staff,List.mem_cons,List.not_mem_nil,or_false,not_or] at off
  obtain ⟨first,second,third⟩ := off
  have one : firstHired bot = none := Function.update_of_ne first _ _
  have two : bothHired bot = none := (Function.update_of_ne second _ _).trans one
  have three : movedUnder bot = none := (Function.update_of_ne first _ _).trans two
  have merged : applyMerge movedUnder intoE bot = none :=
    (Function.update_of_ne third _ _).trans ((Function.update_of_ne second _ _).trans three)
  exact ⟨one,two,three,congrArg (Option.map _) merged⟩

omit [Floats] in
theorem staffed_run : Run (@Moves wholeFloats ["bot".toList] []) (fun _ => none) [(fun _ => none,"bot:b".toList),
    (firstHired,"bot:b".toList),(bothHired,"bot:b".toList),(movedUnder,ASSISTANT)] staffed := by
  have first : @Moves wholeFloats ["bot".toList] [] (fun _ => none) "bot:b".toList firstHired :=
    @Moves.wrote wholeFloats _ _ _ "bot:b".toList "bot:a".toList (hire "bot:a") [REPORTS_TO] [] true 0 [] hired false
      { creating := true } (by decide) rfl (by rfl) (by decide +kernel)
  have second : @Moves wholeFloats ["bot".toList] [] firstHired "bot:b".toList bothHired :=
    @Moves.wrote wholeFloats _ _ _ "bot:b".toList "bot:c".toList (hire "bot:c") [REPORTS_TO] [] true 0 [] hired false
      { creating := true } (by decide) (by decide +kernel) (by rfl) (by decide +kernel)
  have third : @Moves wholeFloats ["bot".toList] [] bothHired "bot:b".toList movedUnder :=
    @Moves.changed wholeFloats _ _ _ "bot:b".toList "bot:a".toList underC { above := ["bot:b".toList] } (by decide)
      (fun _ => (List.pairwise_singleton _ _).filter _) (by decide +kernel)
  have fourth : @Moves wholeFloats ["bot".toList] [] movedUnder ASSISTANT staffed :=
    @Moves.merged wholeFloats _ _ _ ASSISTANT intoE {} {} (by decide) (by decide +kernel) (fun _ _ => rfl) (by decide +kernel)
  exact .step (.step (.step (.step .start first) second) third) fourth

omit [Floats] in
theorem managers_stay_above :
    Unlooped (@chart wholeFloats ["bot".toList] [] staffed) ∧
      @chainAbove ["bot".toList] (@reportsTo wholeFloats [] staffed) "bot:a".toList = ["bot:e".toList,"bot:b".toList] := by
  have short : ∀ held : Things, (∀ bot, bot ∉ staff → held bot = none) → Short (@chart wholeFloats ["bot".toList] [] held) :=
    fun held => @short_of_few wholeFloats _ _ _ staff (by decide)
  refine ⟨(@chart_never_loops wholeFloats ["bot".toList] [] _ staffed (by decide) staffed_run
    ⟨?_,short staffed fun _ off => (staff_outside off).2.2.2⟩).1,by decide +kernel⟩
  intro one member
  fin_cases member
  · exact short _ fun _ _ => rfl
  · exact short _ fun _ off => (staff_outside off).1
  · exact short _ fun _ off => (staff_outside off).2.1
  · exact short _ fun _ off => (staff_outside off).2.2.1

end Guarded
