import Jojobot.Memory.Merge

namespace Merge
open Library Std Memory ServedWrite

instance keyWriteLawful : LawfulServedWrite KeyWrite where
  key_place _ _ _ := rfl
  writtenAt_place _ _ _ := rfl
  ordinal_place _ _ _ := rfl
  fact_place _ _ _ := rfl

variable {T : Type} [ServedWrite T] {claims : Claims} {theirs ours writes : List T} {name : Text}

section
variable [LawfulServedWrite T]

instance tracedLawful : LawfulServedWrite (Traced T) where
  key_place write := LawfulServedWrite.key_place write.now
  writtenAt_place write := LawfulServedWrite.writtenAt_place write.now
  ordinal_place write := LawfulServedWrite.ordinal_place write.now
  fact_place write := LawfulServedWrite.fact_place write.now

theorem Moved.keeps {first now : T} (moved : Moved first now) : key now = key first ∧ writtenAt now = writtenAt first := by
  induction moved with
  | stored => exact ⟨rfl,rfl⟩
  | placed ordinal claim _ ih =>
    rw [LawfulServedWrite.key_place,LawfulServedWrite.writtenAt_place]
    exact ih

end

instance byOrdinal_trans : TransCmp (compareOn (ordinal (T := T))) := inferInstance

-- Writes that stand in their ordinals' order are already sorted.
theorem sortBy_ordered (ordered : writes.Pairwise fun a b => ordinal a < ordinal b) :
    sortBy (compareOn ordinal) writes = writes := by
  apply sortBy_eq (List.Perm.refl writes)
  apply ordered.imp
  intro a b less
  exact compare_lt_iff_lt.mpr less

theorem keysOf_nodup (writes : List T) : (keysOf writes).Nodup :=
  (sortBy_perm compare _).nodup_iff.mpr (List.nodup_dedup _)

theorem mem_keysOf : name ∈ keysOf writes ↔ ∃ write ∈ writes, key write = name := by
  rw [keysOf,mem_sortBy,List.mem_dedup,List.mem_map]

theorem mem_under {write : T} : write ∈ under writes name ↔ write ∈ writes ∧ key write = name := by
  simp [under]

theorem under_append (front back : List T) (name : Text) : under (front ++ back) name = under front name ++ under back name :=
  List.filter_append ..

-- How each write of a merged history comes from the two it was made of.
def Places (claims : Claims) : T ⊕ T → T → Prop
  | .inl write,now => ∃ turn, now = place write turn (claims (fact write))
  | .inr write,now => now = write ∨ ∃ turn, now = place write turn none

theorem placed_places (claims : Claims) (turn : Nat) (side : T ⊕ T) : Places claims side (placed claims turn side) := by
  cases side with
  | inl write => exact ⟨_,rfl⟩
  | inr write => exact .inr ⟨_,rfl⟩

theorem mergeKey_places (claims : Claims) (theirsOrdered : theirs.Pairwise fun a b => ordinal a < ordinal b)
    (oursOrdered : ours.Pairwise fun a b => ordinal a < ordinal b) :
    List.Forall₂ (Places claims) (interleave theirs ours) (mergeKey claims theirs ours) := by
  unfold mergeKey
  rw [sortBy_ordered theirsOrdered,sortBy_ordered oursOrdered]
  cases theirs with
  | nil =>
    rw [interleave,weave]
    apply List.forall₂_map_left_iff.mpr
    apply List.forall₂_same.mpr
    intro write _
    exact .inl rfl
  | cons first theirs =>
    apply List.forall₂_iff_get.mpr
    refine ⟨List.length_mapIdx.symm,?_⟩
    intro turn inSides inMerged
    simp only [List.get_eq_getElem,List.isEmpty_cons,Bool.false_eq_true,if_false,List.getElem_mapIdx]
    exact placed_places claims turn _

theorem mergeKey_ordered [LawfulServedWrite T] (claims : Claims) (theirsOrdered : theirs.Pairwise fun a b => ordinal a < ordinal b)
    (oursOrdered : ours.Pairwise fun a b => ordinal a < ordinal b) :
    (mergeKey claims theirs ours).Pairwise fun a b => ordinal a < ordinal b := by
  unfold mergeKey
  rw [sortBy_ordered theirsOrdered,sortBy_ordered oursOrdered]
  dsimp only
  split
  · exact oursOrdered
  · apply List.pairwise_iff_getElem.mpr
    intro i j inI inJ before
    have turned : ∀ turn (side : T ⊕ T), ordinal (placed claims turn side) = ((turn+1 : Nat) : Int) := by
      intro turn side
      cases side <;> exact LawfulServedWrite.ordinal_place ..
    rw [List.getElem_mapIdx,List.getElem_mapIdx,turned,turned]
    exact_mod_cast Nat.succ_lt_succ before

theorem Places.write [LawfulServedWrite T] {side : T ⊕ T} {now : T} (made : Places claims side now) :
    key now = key (side.elim id id) ∧ writtenAt now = writtenAt (side.elim id id) := by
  cases side with
  | inl write =>
    obtain ⟨turn,rfl⟩ := made
    exact ⟨LawfulServedWrite.key_place ..,LawfulServedWrite.writtenAt_place ..⟩
  | inr write =>
    rcases made with rfl | ⟨turn,rfl⟩
    · exact ⟨rfl,rfl⟩
    · exact ⟨LawfulServedWrite.key_place ..,LawfulServedWrite.writtenAt_place ..⟩

theorem Sorted.mapped (sorted : Sorted writes) (claims : Claims) : Sorted (mapped claims writes) := by
  intro name
  unfold under Merge.mapped
  rw [List.filter_comm]
  exact (sorted name).filter _

-- The writes of one key after a merge are that key's writes of the two sides, merged.
theorem under_mergeIn [LawfulServedWrite T] (theirsSorted : Sorted theirs) (oursSorted : Sorted ours)
    (claims : Claims) (name : Text) : under (mergeIn ours theirs claims) name =
      mergeKey claims (under (mapped claims theirs) name) (under ours name) := by
  have own : ∀ name, ∀ write ∈ mergeKey claims (under (mapped claims theirs) name) (under ours name), key write = name := by
    intro name write member
    obtain ⟨side,inSides,made⟩ := paired_right (mergeKey_places claims (theirsSorted.mapped claims name) (oursSorted name)) member
    rw [made.write.1]
    rcases mem_weave.mp inSides with ⟨a,found,rfl⟩ | ⟨b,found,rfl⟩
    · exact (mem_under.mp found).2
    · exact (mem_under.mp found).2
  unfold mergeIn
  rw [under,filter_flatMap (keysOf_nodup _) own]
  split
  · rfl
  · rename_i absent
    have gone : under (mapped claims theirs ++ ours) name = [] := by
      apply List.filter_eq_nil_iff.mpr
      intro write member same
      exact absent (mem_keysOf.mpr ⟨write,member,of_decide_eq_true same⟩)
    rw [under_append] at gone
    obtain ⟨noTheirs,noOurs⟩ := List.append_eq_nil_iff.mp gone
    rw [noTheirs,noOurs]
    rfl

theorem mergeIn_sorted [LawfulServedWrite T] (theirsSorted : Sorted theirs) (oursSorted : Sorted ours)
    (claims : Claims) : Sorted (mergeIn ours theirs claims) := by
  intro name
  rw [under_mergeIn theirsSorted oursSorted]
  exact mergeKey_ordered claims (theirsSorted.mapped claims name) (oursSorted name)

section
variable {held : Histories T} {step : MergeStep} {steps : List MergeStep} {thing home claim : Text}

def oursOf (held : Histories T) (step : MergeStep) : List T := entry (Function.update held step.folded none) step.survivor

omit [ServedWrite T] in
theorem mem_oursOf {write : T} : write ∈ oursOf held step ↔ step.survivor ≠ step.folded ∧ write ∈ entry held step.survivor := by
  unfold oursOf entry
  by_cases self : step.survivor = step.folded
  · simp [self]
  · simp [self]

theorem entry_applyMerge (held : Histories T) (step : MergeStep) (thing : Text) : entry (applyMerge held step) thing =
    if thing = step.survivor then mergeIn (oursOf held step) (entry held step.folded) step.claims
    else if thing = step.folded then [] else entry held thing := by
  unfold entry applyMerge oursOf
  by_cases survivor : thing = step.survivor
  · subst survivor
    simp [entry]
  · rw [if_neg survivor]
    rw [Function.update_of_ne survivor]
    by_cases folded : thing = step.folded
    · subst folded
      simp
    · rw [Function.update_of_ne folded,if_neg folded]

theorem oursOf_sorted (ordered : Ordered held) (step : MergeStep) : Sorted (oursOf held step) := by
  unfold oursOf
  by_cases self : step.survivor = step.folded
  · intro name
    simp [entry,self,under]
  · have same : entry (Function.update held step.folded none) step.survivor = entry held step.survivor := by
      simp [entry,Function.update_of_ne self]
    rw [same]
    exact ordered step.survivor

theorem applyMerge_ordered [LawfulServedWrite T] (ordered : Ordered held) (step : MergeStep) : Ordered (applyMerge held step) := by
  intro thing
  rw [entry_applyMerge]
  split
  · exact mergeIn_sorted (ordered _) (oursOf_sorted ordered step) _
  · split
    · intro name
      exact List.Pairwise.nil
    · exact ordered thing

theorem servedAs_append (steps : List MergeStep) (step : MergeStep) (home claim : Text) :
    servedAs (steps ++ [step]) home claim = (servedAs steps home claim).bind fun at' => step.serves at'.1 at'.2 := by
  rw [servedAs,List.foldl_append]
  rfl

theorem servedAs_location (found : servedAs steps home claim = some (thing,given)) : location steps home = thing := by
  induction steps using List.reverseRecOn generalizing thing given with
  | nil => cases found; rfl
  | append_singleton steps step ih =>
    rw [servedAs_append,Option.bind_eq_some_iff] at found
    obtain ⟨before,earlier,moved⟩ := found
    have here := ih earlier
    rw [location,List.foldl_append]
    change (if location steps home = step.folded then step.survivor else location steps home) = thing
    rw [here]
    unfold MergeStep.serves at moved
    split at moved
    · rename_i folds
      obtain ⟨given,_,same⟩ := Option.map_eq_some_iff.mp moved
      cases same
      rw [if_pos folds]
    · rename_i stays
      cases moved
      rw [if_neg stays]

end

-- A write's stored self, when it was stored on the thing asked about.
def fromHome (home : Text) (write : Traced T) : Option T := if write.home = home then some write.first else none

variable {held : Histories T} {steps : List MergeStep} {served : Histories (Traced T)}

-- What the merges made so far leave: every write is one that was stored, where and as
-- the ledger serves it, none is missing, and those of one thing keep their order.
structure Kept (held : Histories T) (steps : List MergeStep) (served : Histories (Traced T)) : Prop where
  ordered : Ordered served
  origin : ∀ thing, ∀ write ∈ entry served thing, write.first ∈ entry held write.home ∧
    servedAs steps write.home (fact write.first) = some (thing,fact write.now) ∧ Moved write.first write.now
  all : ∀ home first thing claim, first ∈ entry held home → servedAs steps home (fact first) = some (thing,claim) →
    ∃ write ∈ entry served thing, write.origin = (home,first)
  order : ∀ thing home name, ((under (entry served thing) name).filterMap (fromHome home)).Sublist (under (entry held home) name)

-- What a placing leaves alone is read off a merged history as off its two sides.
theorem places_filterMap {R : Type} {sides : List (T ⊕ T)} {made : List T} (pairs : List.Forall₂ (Places claims) sides made)
    (read : T → Option R) (blind : ∀ side now, Places claims side now → read now = Sum.elim read read side) :
    made.filterMap read = sides.filterMap (Sum.elim read read) := by
  induction pairs with
  | nil => rfl
  | cons first _ ih => rw [List.filterMap_cons,List.filterMap_cons,blind _ _ first,ih]

theorem fromHome_blind (home : Text) (side : Traced T ⊕ Traced T) (now : Traced T) (made : Places claims side now) :
    fromHome home now = Sum.elim (fromHome home) (fromHome home) side := by
  cases side with
  | inl write =>
    obtain ⟨turn,rfl⟩ := made
    rfl
  | inr write =>
    rcases made with rfl | ⟨turn,rfl⟩ <;> rfl

omit [ServedWrite T] in
theorem oursOf_sublist (served : Histories (Traced T)) (step : MergeStep) :
    (oursOf served step).Sublist (entry served step.survivor) := by
  unfold oursOf
  by_cases self : step.survivor = step.folded
  · simp [entry,self]
  · simp [entry,Function.update_of_ne self]

theorem applyMerges_append (served : Histories T) (steps : List MergeStep) (step : MergeStep) :
    applyMerges served (steps ++ [step]) = applyMerge (applyMerges served steps) step := by
  rw [applyMerges,List.foldl_append]
  rfl

theorem traced_kept (ordered : Ordered held) : Kept held [] (traced held) := by
  have entries : ∀ thing, entry (traced held) thing = (entry held thing).map fun write => ⟨thing,write,write⟩ := by
    intro thing
    unfold entry traced
    cases held thing <;> rfl
  have unders : ∀ thing name, under (entry (traced held) thing) name =
      (under (entry held thing) name).map fun write => ⟨thing,write,write⟩ := by
    intro thing name
    rw [entries,under,under,List.filter_map]
    rfl
  refine ⟨?_,?_,?_,?_⟩
  · intro thing name
    rw [unders,List.pairwise_map]
    exact ordered thing name
  · intro thing write member
    rw [entries] at member
    obtain ⟨first,stored,rfl⟩ := List.mem_map.mp member
    exact ⟨stored,rfl,.stored⟩
  · intro home first thing claim stored found
    cases found
    rw [entries]
    exact ⟨_,List.mem_map_of_mem stored,rfl⟩
  · intro thing home name
    rw [unders,List.filterMap_map]
    by_cases same : thing = home
    · subst same
      simp [Function.comp_def,fromHome]
    · simp [Function.comp_def,fromHome,same]

variable [LawfulServedWrite T] {step : MergeStep} {thing home claim name : Text}

-- A write read on the survivor after a merge came from one of its two sides.
theorem Kept.merged (kept : Kept held steps served) {write : Traced T}
    (member : write ∈ mergeIn (oursOf served step) (entry served step.folded) step.claims) :
    ∃ before : Traced T, before.origin = write.origin ∧ Moved write.first write.now ∧
      (before ∈ entry served step.folded ∧ step.claims (fact before.now) = some (fact write.now) ∨
      step.survivor ≠ step.folded ∧ before ∈ entry served step.survivor ∧ fact write.now = fact before.now) := by
  have here : write ∈ under (mergeIn (oursOf served step) (entry served step.folded) step.claims) (key write) :=
    mem_under.mpr ⟨member,rfl⟩
  rw [under_mergeIn (kept.ordered _) (oursOf_sorted kept.ordered step)] at here
  obtain ⟨side,inSides,made⟩ := paired_right (mergeKey_places step.claims
    ((kept.ordered step.folded).mapped step.claims (key write)) (oursOf_sorted kept.ordered step (key write))) here
  rcases mem_weave.mp inSides with ⟨before,found,rfl⟩ | ⟨before,found,rfl⟩
  · obtain ⟨inFolded,isMapped⟩ := List.mem_filter.mp (mem_under.mp found).1
    obtain ⟨given,gives⟩ := Option.isSome_iff_exists.mp isMapped
    obtain ⟨turn,rfl⟩ := made
    refine ⟨before,rfl,(kept.origin _ _ inFolded).2.2.placed _ _,.inl ⟨inFolded,?_⟩⟩
    change step.claims (fact before) = some (fact (place before (turn : Int) (step.claims (fact before))))
    rw [LawfulServedWrite.fact_place,gives]
    rfl
  · obtain ⟨apart,inSurvivor⟩ := mem_oursOf.mp (mem_under.mp found).1
    have moved := (kept.origin _ _ inSurvivor).2.2
    rcases made with rfl | ⟨turn,rfl⟩
    · exact ⟨_,rfl,moved,.inr ⟨apart,inSurvivor,rfl⟩⟩
    · refine ⟨before,rfl,moved.placed _ _,.inr ⟨apart,inSurvivor,?_⟩⟩
      exact LawfulServedWrite.fact_place before.now turn none

theorem Kept.origin_step (kept : Kept held steps served) (step : MergeStep) : ∀ thing, ∀ write ∈ entry (applyMerge served step) thing,
    write.first ∈ entry held write.home ∧
      servedAs (steps ++ [step]) write.home (fact write.first) = some (thing,fact write.now) ∧ Moved write.first write.now := by
  intro thing write member
  rw [entry_applyMerge] at member
  rw [servedAs_append]
  split at member
  · rename_i isSurvivor
    obtain ⟨before,same,moved,side⟩ := kept.merged member
    have homes : before.home = write.home := congrArg Prod.fst same
    have firsts : before.first = write.first := congrArg Prod.snd same
    rcases side with ⟨inFolded,gives⟩ | ⟨apart,inSurvivor,claimed⟩
    · obtain ⟨stored,found,_⟩ := kept.origin _ _ inFolded
      rw [homes,firsts] at found
      rw [homes,firsts] at stored
      refine ⟨stored,?_,moved⟩
      rw [found,Option.bind_some,MergeStep.serves,if_pos rfl,gives,isSurvivor]
      rfl
    · obtain ⟨stored,found,_⟩ := kept.origin _ _ inSurvivor
      rw [homes,firsts] at found
      rw [homes,firsts] at stored
      refine ⟨stored,?_,moved⟩
      rw [found,Option.bind_some,MergeStep.serves,if_neg apart,claimed,isSurvivor]
  · split at member
    · cases member
    · rename_i stays
      obtain ⟨stored,found,moved⟩ := kept.origin _ _ member
      refine ⟨stored,?_,moved⟩
      rw [found,Option.bind_some,MergeStep.serves,if_neg stays]

-- Every write of a side that the merge serves is read on the survivor.
theorem mergeIn_origin (ordered : Ordered served) {before : Traced T}
    (side : before ∈ mapped step.claims (entry served step.folded) ∨ before ∈ oursOf served step) :
    ∃ write ∈ mergeIn (oursOf served step) (entry served step.folded) step.claims, write.origin = before.origin := by
  have pairs := mergeKey_places step.claims ((ordered step.folded).mapped step.claims (key before))
    (oursOf_sorted ordered step (key before))
  rw [← under_mergeIn (ordered _) (oursOf_sorted ordered step)] at pairs
  rcases side with theirs | ours
  · obtain ⟨write,found,turn,rfl⟩ := paired_left pairs (mem_weave.mpr (.inl ⟨before,mem_under.mpr ⟨theirs,rfl⟩,rfl⟩))
    exact ⟨_,(mem_under.mp found).1,rfl⟩
  · obtain ⟨write,found,made⟩ := paired_left pairs (mem_weave.mpr (.inr ⟨before,mem_under.mpr ⟨ours,rfl⟩,rfl⟩))
    refine ⟨write,(mem_under.mp found).1,?_⟩
    rcases made with rfl | ⟨turn,rfl⟩ <;> rfl

theorem Kept.all_step (kept : Kept held steps served) (step : MergeStep) : ∀ home first thing claim, first ∈ entry held home →
    servedAs (steps ++ [step]) home (fact first) = some (thing,claim) →
    ∃ write ∈ entry (applyMerge served step) thing, write.origin = (home,first) := by
  intro home first thing claim stored found
  rw [servedAs_append,Option.bind_eq_some_iff] at found
  obtain ⟨⟨place,given⟩,earlier,moved⟩ := found
  obtain ⟨write,member,same⟩ := kept.all home first place given stored earlier
  have claimed : fact write.now = given := by
    have read := (kept.origin _ _ member).2.1
    rw [show write.home = home from congrArg Prod.fst same,show write.first = first from congrArg Prod.snd same,earlier] at read
    exact (congrArg Prod.snd (Option.some.inj read)).symm
  rw [entry_applyMerge]
  unfold MergeStep.serves at moved
  split at moved
  · rename_i folds
    obtain ⟨name,gives,isSurvivor⟩ := Option.map_eq_some_iff.mp moved
    cases isSurvivor
    rw [if_pos rfl]
    dsimp only at folds gives
    subst folds
    have isMapped : write ∈ mapped step.claims (entry served step.folded) := by
      apply List.mem_filter.mpr
      refine ⟨member,?_⟩
      change (step.claims (fact write.now)).isSome = true
      rw [claimed,gives]
      rfl
    obtain ⟨made,inMerged,origin⟩ := mergeIn_origin kept.ordered (.inl isMapped)
    exact ⟨made,inMerged,origin.trans same⟩
  · rename_i stays
    cases moved
    dsimp only at stays
    split
    · rename_i isSurvivor
      subst isSurvivor
      obtain ⟨made,inMerged,origin⟩ := mergeIn_origin kept.ordered (.inr (mem_oursOf.mpr ⟨stays,member⟩))
      exact ⟨made,inMerged,origin.trans same⟩
    · exact ⟨write,member,same⟩

-- The writes stored on one thing are all on one side of a merge.
theorem Kept.order_step (kept : Kept held steps served) (step : MergeStep) : ∀ thing home name,
    ((under (entry (applyMerge served step) thing) name).filterMap (fromHome home)).Sublist (under (entry held home) name) := by
  intro thing home name
  rw [entry_applyMerge]
  split
  · rw [under_mergeIn (kept.ordered _) (oursOf_sorted kept.ordered step)]
    have pairs := mergeKey_places step.claims ((kept.ordered step.folded).mapped step.claims name)
      (oursOf_sorted kept.ordered step name)
    rw [places_filterMap pairs _ (fromHome_blind home)]
    by_cases theirs : location steps home = step.folded
    · rw [interleave,weave_filterMap]
      · refine List.Sublist.trans ?_ (kept.order step.folded home name)
        exact (List.filter_sublist.filter _).filterMap _
      · intro write member
        obtain ⟨apart,inSurvivor⟩ := mem_oursOf.mp (mem_under.mp member).1
        have elsewhere := servedAs_location (kept.origin _ _ inSurvivor).2.1
        unfold fromHome
        rw [if_neg]
        intro same
        rw [same,theirs] at elsewhere
        exact apart elsewhere.symm
    · rw [interleave,weave_filterMap_right]
      · refine List.Sublist.trans ?_ (kept.order step.survivor home name)
        exact ((oursOf_sublist served step).filter _).filterMap _
      · intro write member
        have inFolded := (List.mem_filter.mp (mem_under.mp member).1).1
        have there := servedAs_location (kept.origin _ _ inFolded).2.1
        unfold fromHome
        rw [if_neg]
        intro same
        rw [same] at there
        exact theirs there
  · split
    · exact List.nil_sublist _
    · exact kept.order thing home name

theorem Kept.stepped (kept : Kept held steps served) (step : MergeStep) : Kept held (steps ++ [step]) (applyMerge served step) :=
  ⟨applyMerge_ordered kept.ordered step,kept.origin_step step,kept.all_step step,kept.order_step step⟩

theorem merges_kept (ordered : Ordered held) (steps : List MergeStep) : Kept held steps (applyMerges (traced held) steps) := by
  induction steps using List.reverseRecOn with
  | nil => exact traced_kept ordered
  | append_singleton steps step ih =>
    rw [applyMerges_append]
    exact ih.stepped step

theorem Kept.once (kept : Kept held steps served) (ordered : Ordered held) (thing : Text) :
    ((entry served thing).map Traced.origin).Nodup := by
  apply List.pairwise_map.mpr
  apply List.pairwise_iff_forall_sublist.mpr
  intro one other both same
  have homes : one.home = other.home := congrArg Prod.fst same
  have firsts : one.first = other.first := congrArg Prod.snd same
  have keys : ∀ write, write ∈ [one,other] → key write = key other.first := by
    intro write member
    have moved := (kept.origin thing write (both.mem member)).2.2.keeps.1
    rcases List.mem_cons.mp member with own | last
    · rw [own] at moved ⊢
      rw [firsts] at moved
      exact moved
    · rw [List.mem_singleton.mp last] at moved ⊢
      exact moved
  have sameKey : under [one,other] (key other.first) = [one,other] :=
    List.filter_eq_self.mpr fun write member => decide_eq_true (keys write member)
  have inOrder := (both.filter (key · = key other.first)).filterMap (fromHome other.home)
  change ((under [one,other] (key other.first)).filterMap (fromHome other.home)).Sublist _ at inOrder
  rw [sameKey] at inOrder
  have twice : [one,other].filterMap (fromHome other.home) = [other.first,other.first] := by
    simp [fromHome,homes,firsts]
  rw [twice] at inOrder
  have stored := inOrder.trans (kept.order thing other.home (key other.first))
  exact lt_irrefl _ (List.pairwise_iff_forall_sublist.mp (ordered other.home (key other.first)) stored)

end Merge
