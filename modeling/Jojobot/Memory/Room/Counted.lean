import Jojobot.Memory.Room

namespace Room
open Library Std Memory Testimony

-- A claim that takes a seat, quiet or not, and one that is counted.
def seated (claim : Claim) : Bool := claim.status = .active && isThought claim

def isLive (writes : List ClaimWrite) (cutoff : Option Timestamp) (claim : Claim) : Bool :=
  seated claim && !isQuiet (touchedMoment writes claim.id) cutoff

variable {thing : BotThing} {writes : List ClaimWrite} {cutoff : Option Timestamp} {at' : Timestamp} {claim fact edited : Claim}
  {capacity : Nat} {id : Text}

theorem thoughtRoom_eq (claims : List Claim) : thoughtRoom claims = claims.filter seated := by
  unfold thoughtRoom seated
  rw [List.filter_filter]
  congr 1
  funext claim
  exact Bool.and_comm _ _

theorem live_eq (claims : List Claim) (writes : List ClaimWrite) (cutoff : Option Timestamp) (capacity : Nat) :
    (countRoom (thoughtRoom claims) (touchedMoment writes) cutoff capacity).live = claims.filter (isLive writes cutoff) := by
  unfold countRoom splitByAge
  dsimp only
  rw [List.partition_eq_filter_filter,thoughtRoom_eq]
  dsimp only
  rw [List.filter_filter]
  congr 1
  funext claim
  exact Bool.and_comm _ _

-- A cutoff no later than a moment, which what is written at that moment is not before.
def Reached (cutoff : Option Timestamp) (at' : Timestamp) : Prop := ∀ moment, cutoff = some moment → moment ≤ at'

theorem touched_frame {more : List ClaimWrite} (others : ∀ write ∈ more, write.claim ≠ id) :
    touchedMoment (writes ++ more) id = touchedMoment writes id := by
  have none' : more.filter (·.claim = id) = [] :=
    List.filter_eq_nil_iff.mpr fun write member same => others write member (of_decide_eq_true same)
  unfold touchedMoment
  rw [List.filter_append,none',List.append_nil]

theorem touched_other (other : claim.id ≠ id) : touchedMoment (writes ++ [⟨id,some at'⟩]) claim.id = touchedMoment writes claim.id := by
  apply touched_frame
  intro write member
  rw [List.mem_singleton.mp member]
  exact Ne.symm other

theorem not_quiet (reached : Reached cutoff at') : isQuiet (touchedMoment (writes ++ [⟨id,some at'⟩]) id) cutoff = false := by
  have touches : touchedMoment (writes ++ [⟨id,some at'⟩]) id =
      (((writes.filter (·.claim = id)).filterMap (·.writtenAt)) ++ [at']).max? := by
    unfold touchedMoment
    have here : ([⟨id,some at'⟩] : List ClaimWrite).filter (·.claim = id) = [⟨id,some at'⟩] := List.filter_cons_of_pos (by simp)
    rw [List.filter_append,here,List.filterMap_append]
    rfl
  rw [touches]
  cases newest : (((writes.filter (·.claim = id)).filterMap (·.writtenAt)) ++ [at']).max? with
  | none => rfl
  | some moment =>
    have latest := (List.max?_eq_some_iff.mp newest).2 at' (List.mem_append_right _ List.mem_cons_self)
    cases cutoff with
    | none => rfl
    | some cutoff =>
      apply decide_eq_false
      exact Int.not_lt.mpr ((reached cutoff rfl).trans latest)

theorem isLive_touched (reached : Reached cutoff at') : isLive (writes ++ [⟨claim.id,some at'⟩]) cutoff claim = seated claim := by
  unfold isLive
  rw [not_quiet reached]
  exact Bool.and_true _

theorem isLive_other (other : claim.id ≠ id) : isLive (writes ++ [⟨id,some at'⟩]) cutoff claim = isLive writes cutoff claim := by
  unfold isLive
  rw [touched_other other]

def BotThing.liveCount (cutoff : Option Timestamp) (thing : BotThing) : Nat := thing.claims.countP (isLive thing.claimWrites cutoff)

theorem liveCount_eq (thing : BotThing) (cutoff : Option Timestamp) (capacity : Nat) :
    (countRoom (thoughtRoom thing.claims) (touchedMoment thing.claimWrites) cutoff capacity).live.length = thing.liveCount cutoff := by
  rw [live_eq,←List.countP_eq_length_filter]
  rfl

theorem full_eq (thing : BotThing) (cutoff : Option Timestamp) (capacity : Nat) :
    (countRoom (thoughtRoom thing.claims) (touchedMoment thing.claimWrites) cutoff capacity).full =
      decide (capacity ≤ thing.liveCount cutoff) := by
  rw [←liveCount_eq thing cutoff capacity]
  rfl

theorem over_eq (thing : BotThing) (cutoff : Option Timestamp) (capacity : Nat) :
    (countRoom (thoughtRoom thing.claims) (touchedMoment thing.claimWrites) cutoff capacity).over =
      decide (capacity < thing.liveCount cutoff) := by
  rw [←liveCount_eq thing cutoff capacity]
  rfl

theorem liveCount_le (thing : BotThing) (cutoff : Option Timestamp) : thing.liveCount cutoff ≤ (thoughtRoom thing.claims).length := by
  rw [thoughtRoom_eq,←List.countP_eq_length_filter]
  apply List.countP_mono_left
  intro claim _ live
  exact (Bool.and_eq_true_iff.mp live).1

theorem kept_count (fresh : ∀ held ∈ thing.claims, held.id ≠ claim.id) (reached : Reached cutoff at') :
    (thing.keep claim at').liveCount cutoff = thing.liveCount cutoff + (seated claim).toNat := by
  unfold BotThing.liveCount BotThing.keep
  dsimp only
  rw [List.countP_append,List.countP_singleton,isLive_touched reached]
  congr 1
  · apply List.countP_congr
    intro held has
    rw [isLive_other (fresh held has)]
  · cases seated claim <;> rfl

theorem archived_count (apart : (thing.claims.map (·.id)).Nodup) (has : fact ∈ thing.claims) (same : fact.id = edited.id)
    (reached : Reached cutoff at') : (thing.archive edited at').liveCount cutoff + (isLive thing.claimWrites cutoff fact).toNat =
      thing.liveCount cutoff + (seated edited).toNat := by
  have counted := @countP_replaced _ _ _ (fun claim : Claim => claim.id) thing.claims fact edited (isLive thing.claimWrites cutoff)
    (isLive (thing.claimWrites ++ [⟨edited.id,some at'⟩]) cutoff) apart has same fun _ _ other => isLive_other other
  rw [isLive_touched reached] at counted
  exact counted

section
variable {more : List Claim} {moreWrites : List ClaimWrite}

theorem isLive_frame (others : ∀ held ∈ thing.claims, ∀ write ∈ moreWrites, write.claim ≠ held.id) (has : claim ∈ thing.claims) :
    isLive (thing.claimWrites ++ moreWrites) cutoff claim = isLive thing.claimWrites cutoff claim := by
  unfold isLive
  rw [touched_frame (others claim has)]

-- Claims that join with their own writes.
theorem joined_count (others : ∀ held ∈ thing.claims, ∀ write ∈ moreWrites, write.claim ≠ held.id) :
    ({ thing with claims := thing.claims ++ more, claimWrites := thing.claimWrites ++ moreWrites } : BotThing).liveCount cutoff ≤
      thing.liveCount cutoff + more.countP seated := by
  unfold BotThing.liveCount
  dsimp only
  rw [List.countP_append]
  apply Nat.add_le_add
  · apply Nat.le_of_eq
    apply List.countP_congr
    intro held has
    rw [isLive_frame others has]
  · apply List.countP_mono_left
    intro claim _ live
    exact (Bool.and_eq_true_iff.mp live).1

end

-- A claim outside the count may be left out of it.
theorem others_count (apart : (thing.claims.map (·.id)).Nodup) (has : fact ∈ thing.claims)
    (uncounted : isLive thing.claimWrites cutoff fact = false) :
    ({ thing with claims := thing.claims.filter (·.id ≠ fact.id) } : BotThing).liveCount cutoff = thing.liveCount cutoff := by
  unfold BotThing.liveCount
  rw [List.countP_filter]
  apply List.countP_congr
  intro held member
  by_cases same : held.id = fact.id
  · have isFact : held = fact := List.inj_on_of_nodup_map apart member has same
    rw [isFact,uncounted,Bool.false_and]
  · rw [decide_eq_true same,Bool.and_true]

end Room
