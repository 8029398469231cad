import Jojobot.Memory.Merge.Ledger

namespace Merge
open Library Std Memory ServedWrite

variable {T : Type} [ServedWrite T] {claims : Claims} {held : Histories T} {served : Histories (Traced T)}
  {steps before after : List MergeStep} {step : MergeStep} {thing name : Text}

-- Tracing a write beside its merges changes nothing of what the merges make of it.
def nows (served : Histories (Traced T)) : Histories T := fun thing => (served thing).map (List.map Traced.now)

theorem under_now (writes : List (Traced T)) (name : Text) : under (writes.map Traced.now) name = (under writes name).map Traced.now :=
  List.filter_map

theorem mapped_now (claims : Claims) (writes : List (Traced T)) :
    mapped claims (writes.map Traced.now) = (mapped claims writes).map Traced.now := List.filter_map

theorem keysOf_now (writes : List (Traced T)) : keysOf (writes.map Traced.now) = keysOf writes := by
  unfold keysOf
  rw [List.map_map]
  rfl

theorem sortBy_now (writes : List (Traced T)) :
    sortBy (compareOn ordinal) (writes.map Traced.now) = (sortBy (compareOn ordinal) writes).map Traced.now :=
  (List.map_insertionSort _ _ Traced.now writes fun _ _ _ _ => Iff.rfl).symm

theorem placed_now (claims : Claims) (turn : Nat) (side : Traced T ⊕ Traced T) :
    placed claims turn (Sum.map Traced.now Traced.now side) = (placed claims turn side).now := by
  cases side <;> rfl

theorem mergeKey_now (claims : Claims) (theirs ours : List (Traced T)) :
    mergeKey claims (theirs.map Traced.now) (ours.map Traced.now) = (mergeKey claims theirs ours).map Traced.now := by
  unfold mergeKey
  rw [sortBy_now,sortBy_now]
  dsimp only
  rw [List.isEmpty_map]
  split
  · rfl
  · unfold interleave
    rw [weave_map]
    apply List.ext_getElem
    · simp [ServedWrite.writtenAt]
    · intro turn inLeft inRight
      rw [List.getElem_mapIdx,List.getElem_map,List.getElem_map,List.getElem_mapIdx]
      exact placed_now claims turn _

theorem mergeIn_now (ours theirs : List (Traced T)) (claims : Claims) :
    mergeIn (ours.map Traced.now) (theirs.map Traced.now) claims = (mergeIn ours theirs claims).map Traced.now := by
  unfold mergeIn
  dsimp only
  rw [mapped_now,← List.map_append,keysOf_now,List.map_flatMap]
  congr 1
  funext name
  rw [under_now,under_now,mergeKey_now]

omit [ServedWrite T] in
theorem nows_entry (served : Histories (Traced T)) (thing : Text) : entry (nows served) thing = (entry served thing).map Traced.now := by
  unfold entry nows
  cases served thing <;> rfl

omit [ServedWrite T] in
theorem nows_update (served : Histories (Traced T)) (thing : Text) (writes : Option (List (Traced T))) :
    nows (Function.update served thing writes) = Function.update (nows served) thing (writes.map (List.map Traced.now)) := by
  funext other
  unfold nows
  by_cases same : other = thing
  · subst same
    simp only [Function.update_self]
  · simp only [Function.update_of_ne same]

theorem applyMerge_sides (held : Histories T) (step : MergeStep) : applyMerge held step =
    Function.update (Function.update held step.folded none) step.survivor
      (some (mergeIn (oursOf held step) (entry held step.folded) step.claims)) := rfl

theorem nows_applyMerge (served : Histories (Traced T)) (step : MergeStep) :
    nows (applyMerge served step) = applyMerge (nows served) step := by
  have ours : oursOf (nows served) step = (oursOf served step).map Traced.now := by
    rw [oursOf,oursOf,← nows_entry,nows_update]
    rfl
  rw [applyMerge_sides,applyMerge_sides,nows_update,nows_update,ours,nows_entry,mergeIn_now]
  rfl

theorem nows_applyMerges (steps : List MergeStep) : nows (applyMerges served steps) = applyMerges (nows served) steps := by
  induction steps using List.reverseRecOn with
  | nil => rfl
  | append_singleton steps step ih => rw [applyMerges_append,applyMerges_append,nows_applyMerge,ih]

omit [ServedWrite T] in
theorem nows_traced (held : Histories T) : nows (traced held) = held := by
  funext thing
  unfold nows traced
  rw [Option.map_map]
  cases held thing with
  | none => rfl
  | some writes => simp [Function.comp_def]

-- Whether a write read on the survivor came over with the thing the step folded.
def Came (before : List MergeStep) (step : MergeStep) (write : Traced T) : Prop := location before write.home = step.folded

-- How one key's writes of the two sides of a merge stand among each other.
structure Interleaved (before : List MergeStep) (step : MergeStep) (theirs ours writes : List (Traced T)) : Prop where
  unstamped : ∀ front write back, writes = front ++ write :: back → ∀ other ∈ front,
    (Came before step other ↔ ¬Came before step write) → writtenAt write = none → writtenAt other ≠ none →
    ∃ ahead ∈ front, (Came before step ahead ↔ Came before step write) ∧ writtenAt ahead ≠ none
  ties : ∀ front write back, writes = front ++ write :: back → ∀ other ∈ front,
    ¬Came before step other → Came before step write → writtenAt other = writtenAt write →
    ∃ ahead ∈ front, Came before step ahead ∧ ¬noLater (writtenAt ahead) (writtenAt write)
  newest : writes.getLast?.map Traced.origin = (interleave theirs ours).getLast?.map (Sum.elim Traced.origin Traced.origin)

theorem Places.origin {side : Traced T ⊕ Traced T} {now : Traced T} (made : Places claims side now) :
    now.origin = Sum.elim Traced.origin Traced.origin side := by
  cases side with
  | inl write =>
    obtain ⟨turn,rfl⟩ := made
    rfl
  | inr write =>
    rcases made with rfl | ⟨turn,rfl⟩ <;> rfl

theorem noLater_refl (stamp : Option Timestamp) : noLater stamp stamp = true := by
  cases stamp <;> simp [noLater]

variable [LawfulServedWrite T]

-- A merged write beside the write of a side that it was made of.
def Seen (before : List MergeStep) (step : MergeStep) (side : Traced T ⊕ Traced T) (write : Traced T) : Prop :=
  (Came before step write ↔ side.isLeft) ∧ writtenAt write = writtenAt (side.elim id id)

def sidesOf (served : Histories (Traced T)) (step : MergeStep) (name : Text) : List (Traced T ⊕ Traced T) :=
  interleave (under (mapped step.claims (entry served step.folded)) name) (under (oursOf served step) name)

theorem Kept.seen (kept : Kept held before served) {side : Traced T ⊕ Traced T} {write : Traced T}
    (member : side ∈ sidesOf served step name) (made : Places step.claims side write) : Seen before step side write := by
  refine ⟨?_,made.write.2⟩
  have homes := congrArg Prod.fst made.origin
  rcases mem_weave.mp member with ⟨was,found,rfl⟩ | ⟨was,found,rfl⟩
  · have inFolded := (List.mem_filter.mp (mem_under.mp found).1).1
    apply iff_of_true _ rfl
    exact (congrArg (location before) homes).trans (servedAs_location (kept.origin _ _ inFolded).2.1)
  · obtain ⟨apart,inSurvivor⟩ := mem_oursOf.mp (mem_under.mp found).1
    apply iff_of_false _ Bool.false_ne_true
    intro came
    have there := servedAs_location (kept.origin _ _ inSurvivor).2.1
    exact apart (there.symm.trans ((congrArg (location before) homes).symm.trans came))

theorem Kept.pairs (kept : Kept held before served) (step : MergeStep) (name : Text) :
    List.Forall₂ (Places step.claims) (sidesOf served step name) (under (entry (applyMerge served step) step.survivor) name) := by
  rw [entry_applyMerge,if_pos rfl,under_mergeIn (kept.ordered _) (oursOf_sorted kept.ordered step)]
  exact mergeKey_places step.claims ((kept.ordered step.folded).mapped step.claims name) (oursOf_sorted kept.ordered step name)

-- Around one merged write, what stands in front of it is made of what stood in front
-- of the write it was made of.
theorem Kept.parted (kept : Kept held before served) {front back : List (Traced T)} {write : Traced T}
    (parts : under (entry (applyMerge served step) step.survivor) name = front ++ write :: back) :
    ∃ fronts side backs, sidesOf served step name = fronts ++ side :: backs ∧ Seen before step side write ∧
      (∀ other ∈ front, ∃ seen ∈ fronts, Seen before step seen other) ∧
      ∀ seen ∈ fronts, ∃ other ∈ front, Seen before step seen other := by
  have pairs := kept.pairs step name
  rw [parts] at pairs
  obtain ⟨fronts,side,backs,shape,ahead,own⟩ := paired_split pairs
  have inSides : ∀ seen ∈ fronts, seen ∈ sidesOf served step name := by
    intro seen member
    rw [shape]
    exact List.mem_append_left _ member
  refine ⟨fronts,side,backs,shape,kept.seen (by rw [shape]; simp) own,?_,?_⟩
  · intro other member
    obtain ⟨seen,found,made⟩ := paired_right ahead member
    exact ⟨seen,found,kept.seen (inSides seen found) made⟩
  · intro seen member
    obtain ⟨other,found,made⟩ := paired_left ahead member
    exact ⟨other,found,kept.seen (inSides seen member) made⟩

theorem Kept.unstamped (kept : Kept held before served) {front back : List (Traced T)} {write other : Traced T}
    (parts : under (entry (applyMerge served step) step.survivor) name = front ++ write :: back) (inFront : other ∈ front)
    (sides : Came before step other ↔ ¬Came before step write) (bare : writtenAt write = none) (stamped : writtenAt other ≠ none) :
    ∃ ahead ∈ front, (Came before step ahead ↔ Came before step write) ∧ writtenAt ahead ≠ none := by
  obtain ⟨fronts,side,backs,shape,⟨own,stamp⟩,made,makes⟩ := kept.parted parts
  obtain ⟨seen,inFronts,others,otherStamp⟩ := made other inFront
  rw [bare] at stamp
  rw [otherStamp] at stamped
  cases side with
  | inl was =>
    cases seen with
    | inl seen => exact (sides.mp (others.mpr rfl) (own.mpr rfl)).elim
    | inr seen =>
      have bareWas : writtenAt was = none := stamp.symm
      obtain ⟨held,found,later⟩ := weave_behind_right shape inFronts (by rw [bareWas]; rfl)
      obtain ⟨ahead,member,side,same⟩ := makes _ found
      refine ⟨ahead,member,iff_of_true (side.mpr rfl) (own.mpr rfl),?_⟩
      intro bareAhead
      have bareHeld : writtenAt held = none := same.symm.trans bareAhead
      rw [bareHeld] at later
      exact later rfl
  | inr was =>
    cases seen with
    | inr seen =>
      have notOther : ¬Came before step other := fun came => Bool.false_ne_true (others.mp came)
      exact (notOther (sides.mpr fun came => Bool.false_ne_true (own.mp came))).elim
    | inl seen =>
      have bareWas : writtenAt was = none := stamp.symm
      obtain ⟨moment,isMoment⟩ := Option.ne_none_iff_exists'.mp stamped
      have seenAt : writtenAt seen = some moment := isMoment
      obtain ⟨held,found,least⟩ := weave_behind_left shape inFronts (by rw [bareWas,seenAt]; simp [noLater])
      obtain ⟨ahead,member,side,same⟩ := makes _ found
      refine ⟨ahead,member,iff_of_false (fun came => Bool.false_ne_true (side.mp came))
        (fun came => Bool.false_ne_true (own.mp came)),?_⟩
      intro bareAhead
      have bareHeld : writtenAt held = none := same.symm.trans bareAhead
      rw [seenAt,bareHeld] at least
      cases least

theorem Kept.ties (kept : Kept held before served) {front back : List (Traced T)} {write other : Traced T}
    (parts : under (entry (applyMerge served step) step.survivor) name = front ++ write :: back) (inFront : other ∈ front)
    (stayed : ¬Came before step other) (came : Came before step write) (equal : writtenAt other = writtenAt write) :
    ∃ ahead ∈ front, Came before step ahead ∧ ¬noLater (writtenAt ahead) (writtenAt write) := by
  obtain ⟨fronts,side,backs,shape,⟨own,stamp⟩,made,makes⟩ := kept.parted parts
  obtain ⟨seen,inFronts,others,otherStamp⟩ := made other inFront
  cases side with
  | inr was => exact (Bool.false_ne_true (own.mp came)).elim
  | inl was =>
    cases seen with
    | inl seen => exact (stayed (others.mpr rfl)).elim
    | inr seen =>
      have level : writtenAt was = writtenAt seen := stamp.symm.trans (equal.symm.trans otherStamp)
      obtain ⟨held,found,later⟩ := weave_behind_right shape inFronts (by rw [level]; exact noLater_refl _)
      obtain ⟨ahead,member,side,same⟩ := makes _ found
      refine ⟨ahead,member,side.mpr rfl,?_⟩
      have heldAt : writtenAt held = writtenAt ahead := same.symm
      have seenAt : writtenAt seen = writtenAt write := otherStamp.symm.trans equal
      rw [heldAt,seenAt] at later
      exact later

theorem Kept.interleaved (kept : Kept held before served) (step : MergeStep) (name : Text) :
    Interleaved before step (under (mapped step.claims (entry served step.folded)) name) (under (oursOf served step) name)
      (under (entry (applyMerge served step) step.survivor) name) := by
  refine ⟨?_,?_,?_⟩
  · intro front write back parts other inFront sides bare stamped
    exact kept.unstamped parts inFront sides bare stamped
  · intro front write back parts other inFront stayed came equal
    exact kept.ties parts inFront stayed came equal
  · have origins := places_filterMap (kept.pairs step name) (fun write => some write.origin) fun side now made => by
      rw [made.origin]
      cases side <;> rfl
    have some' : Sum.elim (fun write : Traced T => some write.origin) (fun write => some write.origin) =
        some ∘ Sum.elim Traced.origin Traced.origin := by
      funext side
      cases side <;> rfl
    rw [some',List.filterMap_eq_map] at origins
    rw [← List.getLast?_map,← List.getLast?_map]
    congr 1
    rw [← List.filterMap_eq_map]
    exact origins

-- What a thing's entry holds after the merges.
structure Serves (held : Histories T) (steps : List MergeStep) (thing : Text) (writes : List (Traced T)) : Prop where
  once : (writes.map Traced.origin).Nodup
  exactly : ∀ home first, (home,first) ∈ writes.map Traced.origin ↔
    first ∈ entry held home ∧ ∃ claim, servedAs steps home (fact first) = some (thing,claim)
  claimed : ∀ write ∈ writes, servedAs steps write.home (fact write.first) = some (thing,fact write.now) ∧
    Moved write.first write.now
  numbered : Sorted writes
  inOrder : ∀ home name, ((under writes name).filterMap (fromHome home)).Sublist (under (entry held home) name)

theorem Kept.serves (kept : Kept held steps served) (ordered : Ordered held) (thing : Text) :
    Serves held steps thing (entry served thing) := by
  refine ⟨kept.once ordered thing,?_,fun write member => (kept.origin thing write member).2,kept.ordered thing,kept.order thing⟩
  intro home first
  constructor
  · intro member
    obtain ⟨write,found,same⟩ := List.mem_map.mp member
    obtain ⟨stored,there,_⟩ := kept.origin thing write found
    cases same
    exact ⟨stored,_,there⟩
  · intro due
    obtain ⟨stored,claim,there⟩ := due
    obtain ⟨write,found,same⟩ := kept.all home first thing claim stored there
    exact List.mem_map.mpr ⟨write,found,same⟩

theorem own_writes_served (steps : List MergeStep) (thing claim : Text) (stays : ∀ step ∈ steps, step.folded ≠ thing) :
    servedAs steps thing claim = some (thing,claim) := by
  induction steps using List.reverseRecOn with
  | nil => rfl
  | append_singleton steps step ih =>
    have here : thing ≠ step.folded := fun same => stays step (by simp) same.symm
    rw [servedAs_append,ih fun other member => stays other (List.mem_append_left _ member),Option.bind_some,
      MergeStep.serves,if_neg here]

theorem merges_lose_and_reorder_nothing (held : Histories T) (ordered : Ordered held) (steps : List MergeStep) :
    (∀ thing, (entry (applyMerges (traced held) steps) thing).map Traced.now = entry (applyMerges held steps) thing) ∧
    (∀ thing, Serves held steps thing (entry (applyMerges (traced held) steps) thing)) ∧
    (∀ thing, (∀ step ∈ steps, step.folded ≠ thing) → ∀ claim, servedAs steps thing claim = some (thing,claim)) ∧
    ∀ before step after, steps = before ++ step :: after → ∀ name,
      Interleaved before step
        (under (mapped step.claims (entry (applyMerges (traced held) before) step.folded)) name)
        (under (oursOf (applyMerges (traced held) before) step) name)
        (under (entry (applyMerges (traced held) (before ++ [step])) step.survivor) name) := by
  refine ⟨?_,?_,?_,?_⟩
  · intro thing
    rw [← nows_entry,nows_applyMerges,nows_traced]
  · exact (merges_kept ordered steps).serves ordered
  · intro thing stays claim
    exact own_writes_served steps thing claim stays
  · intro before step after _ name
    rw [applyMerges_append]
    exact (merges_kept ordered before).interleaved step name

-- The folded thing's clock stepped back, so its second write has the survivor's moment.
def keyWrite (ordinal : Nat) (claim : Text) (writtenAt : Option Timestamp) : KeyWrite :=
  ⟨"k".toList,ordinal,some "v".toList,claim,.active,writtenAt⟩

def drifted : Histories KeyWrite := fun thing =>
  if thing = "s".toList then some [keyWrite 1 "f1".toList (some 5)]
  else if thing = "t".toList then some [keyWrite 1 "f1".toList (some 10),keyWrite 2 "f2".toList (some 5)]
  else none

def driftedFold : MergeStep := ⟨"t".toList,"s".toList,fun claim => some ('m' :: claim)⟩

theorem drifted_ordered : Ordered drifted := by
  intro thing name
  apply List.Pairwise.sublist List.filter_sublist
  unfold entry drifted
  split
  · exact List.pairwise_singleton _ _
  · split
    · decide
    · exact List.Pairwise.nil

theorem drifted_writes : under (entry (applyMerges (traced drifted) [driftedFold]) "s".toList) "k".toList =
    [⟨"s".toList,keyWrite 1 "f1".toList (some 5),keyWrite 1 "f1".toList (some 5)⟩,
      ⟨"t".toList,keyWrite 1 "f1".toList (some 10),keyWrite 2 "mf1".toList (some 10)⟩,
      ⟨"t".toList,keyWrite 2 "f2".toList (some 5),keyWrite 3 "mf2".toList (some 5)⟩] := by
  decide +kernel

theorem a_stepped_back_clock_puts_the_survivor_first : ¬∀ (held : Histories KeyWrite) (step : MergeStep),
    Ordered held → step.folded ≠ step.survivor → ∀ name front write back,
      under (entry (applyMerges (traced held) [step]) step.survivor) name = front ++ write :: back →
      ∀ other ∈ front, ¬Came [] step other → Came [] step write → writtenAt other ≠ writtenAt write := by
  intro later
  have apart : "t".toList ≠ "s".toList := by decide
  have first := later drifted driftedFold drifted_ordered apart "k".toList
    [⟨"s".toList,keyWrite 1 "f1".toList (some 5),keyWrite 1 "f1".toList (some 5)⟩,
      ⟨"t".toList,keyWrite 1 "f1".toList (some 10),keyWrite 2 "mf1".toList (some 10)⟩]
    ⟨"t".toList,keyWrite 2 "f2".toList (some 5),keyWrite 3 "mf2".toList (some 5)⟩ [] drifted_writes _ List.mem_cons_self
  exact first (fun came => apart came.symm) rfl rfl

theorem merges_keep_every_drifted_write :
    (under (entry (applyMerges (traced drifted) [driftedFold]) "s".toList) "k".toList).length = 3 ∧
      Serves drifted [driftedFold] "s".toList (entry (applyMerges (traced drifted) [driftedFold]) "s".toList) := by
  refine ⟨?_,(merges_lose_and_reorder_nothing drifted drifted_ordered [driftedFold]).2.1 _⟩
  rw [drifted_writes]
  rfl

end Merge
