import Jojobot.Memory.Capacity

namespace Capacity
open Library Std Memory Merge Testimony Guarded Room

-- What a write that counts puts under its key; a clear puts nothing.
def counted (write : KeyWrite) : Option (Option Text) := if write.status = .active then some write.value else none

def newestOf (writes : List KeyWrite) : Option Text := ((standing writes RECORD_CAPACITY).getLast?).bind (·.value)

def limitOf (value : Option Text) : Option Nat := (value.bind fun value => parseUnsigned 64 (trim value)).filter (0 < ·)

-- A write of the ceiling on the duplicate, up to its newest that counts, is stamped later
-- than every such write on the survivor.
def DuplicateIsNewest (sides : Sides) : Prop :=
  ∃ their ∈ upToLast counted (under sides.theirs RECORD_CAPACITY),
    ∀ our ∈ upToLast counted (under sides.ours RECORD_CAPACITY), noLater their.writtenAt our.writtenAt = false

instance (sides : Sides) : Decidable (DuplicateIsNewest sides) := by
  unfold DuplicateIsNewest
  infer_instance

theorem newestOf_read (writes : List KeyWrite) :
    newestOf writes = (((under writes RECORD_CAPACITY).filterMap counted).getLast?).join := by
  have read : (under writes RECORD_CAPACITY).filterMap counted = (standing writes RECORD_CAPACITY).map (·.value) := by
    unfold standing
    induction under writes RECORD_CAPACITY with
    | nil => rfl
    | cons write rest ih =>
      by_cases active : write.status = .active
      · simp [counted,active,ih]
      · simp [counted,active,ih]
  rw [read,List.getLast?_map,newestOf]
  cases (standing writes RECORD_CAPACITY).getLast? <;> rfl

theorem noLater_total (one other : Option Timestamp) : noLater one other = true ∨ noLater other one = true := by
  cases one with
  | none => exact .inl rfl
  | some one =>
    cases other with
    | none => exact .inr rfl
    | some other =>
      simp only [noLater,decide_eq_true_eq]
      exact Int.le_total one other

theorem noLater_trans (first second third : Option Timestamp) (one : noLater first second = true)
    (two : noLater second third = true) : noLater first third = true := by
  cases first with
  | none => rfl
  | some first =>
    cases second with
    | none => cases one
    | some second =>
      cases third with
      | none => cases two
      | some third =>
        simp only [noLater,decide_eq_true_eq] at one two ⊢
        exact Int.le_trans one two

-- The ceiling's newest write after a merge is one side's own newest, by which comes out last.
theorem newestOf_merged [Floats] {sides : Sides} {claims : Claims} (theirsSorted : Sorted sides.theirs)
    (oursSorted : Sorted sides.ours) (whole : ∀ write ∈ sides.theirs, (claims write.fact).isSome) :
    newestOf (mergeIn sides.ours sides.theirs claims) =
      if DuplicateIsNewest sides then newestOf sides.theirs else newestOf sides.ours := by
  have all : mapped claims sides.theirs = sides.theirs := List.filter_eq_self.mpr whole
  have blind : ∀ side now, Places claims side now → counted now = Sum.elim counted counted side := by
    intro side now made
    cases side with
    | inl write =>
      obtain ⟨turn,rfl⟩ := made
      rfl
    | inr write =>
      rcases made with rfl | ⟨turn,rfl⟩
      · rfl
      · rfl
  have pairs := mergeKey_places claims (theirsSorted RECORD_CAPACITY) (oursSorted RECORD_CAPACITY)
  rw [newestOf_read,under_mergeIn theirsSorted oursSorted,all,places_filterMap pairs counted blind,interleave]
  have last := @weave_last_read KeyWrite (Option Text) (fun a b => noLater a.writtenAt b.writtenAt) counted
    (fun a b => noLater_total a.writtenAt b.writtenAt) (fun a b c => noLater_trans a.writtenAt b.writtenAt c.writtenAt)
    (under sides.theirs RECORD_CAPACITY) (under sides.ours RECORD_CAPACITY)
  refine (congrArg Option.join last).trans ?_
  by_cases theirs : DuplicateIsNewest sides
  · rw [if_pos theirs,newestOf_read]
    exact congrArg Option.join (if_pos theirs)
  · rw [if_neg theirs,newestOf_read]
    exact congrArg Option.join (if_neg theirs)

theorem settingOf_fits {held : Fields} {limit : Nat} (set : settingOf held = some limit) : limit < 2^64 ∧ 0 < limit := by
  obtain ⟨parsed,positive⟩ := Option.filter_eq_some_iff.mp set
  obtain ⟨value,_,parsed⟩ := Option.bind_eq_some_iff.mp parsed
  refine ⟨?_,by simpa using positive⟩
  unfold parseUnsigned at parsed
  have small := (Option.filter_eq_some_iff.mp parsed).2
  simpa using small

-- A merge that brings a number is judged by it or by a lower one of the survivor's.
theorem setting_after_a_merge (kind : Option Text) (survivor duplicate : Fields) :
    ceilingOf kind (heldAfterAMerge kind survivor duplicate) =
      match settingOf duplicate with
      | some carried =>
        if (ceilingOf kind survivor).all (carried < ·.limit) then some ⟨carried,.setting⟩ else ceilingOf kind survivor
      | none => ceilingOf kind survivor := by
  unfold heldAfterAMerge
  cases carries : settingOf duplicate with
  | none => rfl
  | some carried =>
    obtain ⟨fits,positive⟩ := settingOf_fits carries
    dsimp only
    split
    · have set : settingOf (survivor.insert RECORD_CAPACITY (printNat carried)) = some carried := by
        unfold settingOf
        simp [trim_printNat,parseUnsigned_printNat fits,positive]
      rw [ceilingOf,set]
    · rfl

section
variable [Floats] {declared : List FoldType} {sides : Sides} {loaded : List Text} {fold : Fold}

theorem settingOf_newest {writes : List KeyWrite} (newest : foldOf RECORD_CAPACITY declared = .newest) (sorted : Sorted writes) :
    settingOf (foldedFields writes declared) = limitOf (newestOf writes) := by
  unfold settingOf limitOf
  rw [newest_value newest (by decide) sorted]
  change ((Option.filter _ (newestOf writes)).bind _).filter _ = _
  cases newestOf writes with
  | none => rfl
  | some value =>
    by_cases written : counts declared RECORD_CAPACITY value = true
    · simp [Option.filter,written]
    · have blank : trim value = [] := by
        unfold counts holdsAValue at written
        simp only [Bool.or_eq_true,decide_eq_true_eq,not_or,not_not] at written
        exact written.1.1
      have nothing : parseUnsigned 64 ([] : Text) = none := by decide
      simp [Option.filter,written,blank,nothing]

-- The live records of a thing are no more than its ceiling, when it has one.
def Within (kind : Option Text) (fields : Fields) (records : List Claim) : Prop :=
  ∀ ceiling, ceilingOf kind fields = some ceiling → (liveRecords records).length ≤ ceiling.limit

omit [Floats] in
theorem live_merged {survivor : EntityId} {claims : Claims} (all : ∀ claim ∈ sides.incoming, (claims claim.id).isSome) :
    (liveRecords (sides.mergedClaims survivor claims)).length =
      (liveRecords sides.held).length + (liveRecords sides.incoming).length := by
  have moved : ∀ incoming : List Claim, (∀ claim ∈ incoming, (claims claim.id).isSome) →
      (liveRecords (incoming.filterMap fun claim => (claims claim.id).map fun given =>
        { claim with id := given,home := survivor })).length = (liveRecords incoming).length := by
    intro incoming mapped
    induction incoming with
    | nil => rfl
    | cons claim rest ih =>
      obtain ⟨given,gives⟩ := Option.isSome_iff_exists.mp (mapped claim List.mem_cons_self)
      have later := ih fun other has => mapped other (List.mem_cons_of_mem _ has)
      unfold liveRecords at later ⊢
      rw [List.filterMap_cons,gives,Option.map_some,List.filter_cons,List.filter_cons]
      dsimp only
      split
      · rw [List.length_cons,List.length_cons,later]
      · exact later
  unfold Sides.mergedClaims
  rw [liveRecords,List.filter_append,List.length_append]
  exact congrArg _ (moved sides.incoming all)

omit [Floats] in
theorem admit_refuses {container : Container} {ceiling : Ceiling} {live : List Claim} {adding : Nat}
    (given : ceilingOf container.kind container.held = some ceiling) (over' : ¬live.length + adding ≤ ceiling.limit) :
    ∃ refused, admission container live adding false = .refused refused := by
  unfold admission fits
  simp [given,over']

-- A fold that brings live records is let through only where they fit.
theorem through_fits (through : refusesMergeGuards loaded fold (sides.reads declared) = none)
    (brings : 0 < (liveRecords sides.incoming).length) (ceiling : Ceiling)
    (given : ceilingOf (kindOf loaded fold.survivor) (heldAfterAMerge (kindOf loaded fold.survivor)
      (foldedFields sides.ours declared) (foldedFields sides.theirs declared)) = some ceiling) :
    (liveRecords sides.held).length + (liveRecords sides.incoming).length ≤ ceiling.limit := by
  unfold refusesMergeGuards at through
  dsimp only at through
  split at through
  · cases through
  · split at through
    · cases through
    · unfold refusesMergeRecords at through
      rw [if_neg (fun none' => by have zero := none'.1; dsimp only [Sides.reads] at zero; omega)] at through
      dsimp only at through
      split at through
      · cases through
      · rw [if_pos (by dsimp only [Sides.reads]; exact brings)] at through
        by_contra over'
        obtain ⟨refused,answer⟩ := @admit_refuses ⟨fold.survivorNamed,kindOf loaded fold.survivor,
          heldAfterAMerge (kindOf loaded fold.survivor) (foldedFields sides.ours declared)
            (foldedFields sides.theirs declared)⟩ _ (liveRecords sides.held) _ given over'
        dsimp only [Sides.reads] at through
        rw [answer] at through
        cases through

-- What a merge leaves of the ceiling where the duplicate's own write of it comes out newest:
-- a number it holds binds a fold that brings records, and must fit one that brings none; a
-- clear leaves the kind's own ceiling.
def FitsWhatIsLeft (kind : Option Text) (sides : Sides) : Prop :=
  match limitOf (newestOf sides.theirs) with
  | some limit => 0 < (liveRecords sides.incoming).length ∨ (liveRecords sides.held).length ≤ limit
  | none => kind = some THREAD → (liveRecords sides.held).length + (liveRecords sides.incoming).length ≤ THREAD_RECORDS

theorem a_fold_keeps_the_record_ceiling {claims : Claims} (newest : foldOf RECORD_CAPACITY declared = .newest)
    (theirsSorted : Sorted sides.theirs) (oursSorted : Sorted sides.ours)
    (whole : ∀ write ∈ sides.theirs, (claims write.fact).isSome) (all : ∀ claim ∈ sides.incoming, (claims claim.id).isSome)
    (through : refusesMergeGuards loaded fold (sides.reads declared) = none)
    (before : Within (kindOf loaded fold.survivor) (foldedFields sides.ours declared) sides.held) :
    Within (kindOf loaded fold.survivor) (sides.mergedFields declared claims) (sides.mergedClaims fold.survivor claims) ↔
      (DuplicateIsNewest sides → FitsWhatIsLeft (kindOf loaded fold.survivor) sides) := by
  have setOurs := settingOf_newest newest oursSorted
  have setTheirs := settingOf_newest newest theirsSorted
  have setMerged : settingOf (sides.mergedFields declared claims) = _ :=
    settingOf_newest newest (mergeIn_sorted theirsSorted oursSorted claims)
  rw [newestOf_merged theirsSorted oursSorted whole] at setMerged
  have fitted := through_fits through
  rw [setting_after_a_merge] at fitted
  unfold Within at before ⊢
  rw [live_merged all]
  by_cases last : DuplicateIsNewest sides
  · rw [if_pos last] at setMerged
    unfold FitsWhatIsLeft
    simp only [last,forall_const]
    cases held : limitOf (newestOf sides.theirs) with
    | none =>
      rw [held] at setMerged
      rw [ceilingOf,setMerged]
      simp
    | some limit =>
      rw [held] at setMerged setTheirs
      rw [setTheirs] at fitted
      rw [ceilingOf,setMerged]
      simp only [Option.some.injEq,forall_eq']
      constructor
      · intro fits
        exact .inr (Nat.le_trans (Nat.le_add_right _ _) fits)
      · intro fits
        by_cases brings : 0 < (liveRecords sides.incoming).length
        · dsimp only at fitted
          split at fitted
          · exact fitted brings _ rfl
          · rename_i higher
            obtain ⟨own,given,least⟩ : ∃ own, ceilingOf (kindOf loaded fold.survivor) (foldedFields sides.ours declared) =
                some own ∧ own.limit ≤ limit := by
              cases given : ceilingOf (kindOf loaded fold.survivor) (foldedFields sides.ours declared) with
              | none => simp [given] at higher
              | some own => exact ⟨own,rfl,by simpa [given] using higher⟩
            exact Nat.le_trans (fitted brings own given) least
        · have alone := fits.resolve_left brings
          omega
  · rw [if_neg last,←setOurs] at setMerged
    have same : ceilingOf (kindOf loaded fold.survivor) (sides.mergedFields declared claims) =
        ceilingOf (kindOf loaded fold.survivor) (foldedFields sides.ours declared) := by
      unfold ceilingOf
      rw [setMerged]
    simp only [last,false_implies,iff_true]
    intro own given
    rw [same] at given
    by_cases brings : 0 < (liveRecords sides.incoming).length
    · have fits := fitted brings
      split at fits
      · split at fits
        · rename_i carried _ lower
          rw [given] at lower
          have less : carried < own.limit := by simpa using lower
          exact Nat.le_of_lt (Nat.lt_of_le_of_lt (fits _ rfl) less)
        · exact fits own given
      · exact fits own given
    · have alone := before own given
      omega

end

def capacityWrite (ordinal : Nat) (value : Option String) (moment : Timestamp) : KeyWrite where
  key := RECORD_CAPACITY
  ordinal := ordinal
  value := value.map String.toList
  fact := "f1".toList
  status := .active
  writtenAt := some moment

def threadClaim (id home : String) : Claim where
  id := id.toList
  home := home.toList
  content := "a line".toList
  details := none
  status := .active
  fields := {}
  provenance := .inference
  standing := .settled
  recordedAt := 0
  happenedAt := none
  happenedThrough := none
  staleAfter := none
  receipt := none
  appStamp := none
  edge := none
  derivedFrom := none
  standsFor := []
  writtenByAnother := false

-- A thread of four records under a ceiling of five, written at this moment, and one of a
-- single record whose ceiling was set and then taken off.
def threads (moment : Timestamp) : Sides where
  theirs := [capacityWrite 1 (some "2") 2,capacityWrite 2 none 3]
  ours := [capacityWrite 1 (some "5") moment]
  incoming := [threadClaim "f1" "thread:b"]
  held := [threadClaim "f1" "thread:a",threadClaim "f2" "thread:a",threadClaim "f3" "thread:a",threadClaim "f4" "thread:a"]
  lineage _ := {}
  lineageOf _ := {}
  chainAboveSurvivor := []

def threadFold : Fold where
  caller := ASSISTANT
  folded := "thread:b".toList
  survivor := "thread:a".toList
  survivorNamed := "thread:a".toList

def threadKinds : List Text := [THREAD,BOT]
def renamed : Claims := fun id => some ('m' :: id)

theorem threads_sorted (moment : Timestamp) : Sorted (threads moment).theirs ∧ Sorted (threads moment).ours := by
  constructor
  · intro name
    apply List.Pairwise.filter
    simp [threads,capacityWrite,ServedWrite.ordinal]
  · intro name
    apply List.Pairwise.filter
    simp [threads]

-- The newest write is the survivor's, so its ceiling stays.
theorem a_later_ceiling_stays :
    Within (kindOf threadKinds threadFold.survivor) (@Sides.mergedFields wholeFloats [] (threads 9) renamed)
      ((threads 9).mergedClaims threadFold.survivor renamed) := by
  refine (@a_fold_keeps_the_record_ceiling wholeFloats [] (threads 9) threadKinds threadFold renamed (by decide)
    (threads_sorted 9).1 (threads_sorted 9).2 (fun _ _ => rfl) (fun _ _ => rfl) (by decide +kernel) ?_).mpr ?_
  · intro ceiling given
    have five : @ceilingOf (kindOf threadKinds threadFold.survivor) (@foldedFields wholeFloats (threads 9).ours []) =
        some ⟨5,.setting⟩ := by decide +kernel
    cases Option.some.inj (five.symm.trans given)
    decide
  · intro last
    exact absurd last (by decide +kernel)

theorem a_cleared_ceiling_leaves_a_thread_full :
    @refusesMergeGuards threadKinds threadFold (@Sides.reads wholeFloats [] (threads 1)) = none ∧
    Within (kindOf threadKinds threadFold.survivor) (@foldedFields wholeFloats (threads 1).ours []) (threads 1).held ∧
    ¬Within (kindOf threadKinds threadFold.survivor) (@Sides.mergedFields wholeFloats [] (threads 1) renamed)
      ((threads 1).mergedClaims threadFold.survivor renamed) := by
  refine ⟨by decide +kernel,?_,?_⟩
  · intro ceiling given
    have five : @ceilingOf (kindOf threadKinds threadFold.survivor) (@foldedFields wholeFloats (threads 1).ours []) =
        some ⟨5,.setting⟩ := by decide +kernel
    cases Option.some.inj (five.symm.trans given)
    decide
  · intro within
    have three : ceilingOf (kindOf threadKinds threadFold.survivor)
        (@Sides.mergedFields wholeFloats [] (threads 1) renamed) = some ⟨3,.default⟩ := by decide +kernel
    have five := within _ three
    exact absurd five (by decide)

end Capacity
