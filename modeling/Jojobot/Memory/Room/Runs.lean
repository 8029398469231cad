import Jojobot.Library.Runs
import Jojobot.Memory.Room.Landed

namespace Room
open Library Std Memory Testimony

structure Clocked where
  thing : BotThing
  clock : Timestamp

structure Attempt where
  act : Act
  letThrough : Bool
  at' : Timestamp

section
variable (loaded : List Text) (storageKey : EntityId → Option EntityId) (botOfRun : Text → Option EntityId) (handle home : EntityId)
  (capacity : Nat) (cap : Option Nat) (agesAfterRuns : Nat)

def BotThing.cutoff (thing : BotThing) : Option Timestamp := agingCutoff thing.runStarts agesAfterRuns

def BotThing.room (thing : BotThing) : RoomCount :=
  countRoom (thoughtRoom thing.claims) (touchedMoment thing.claimWrites) (thing.cutoff agesAfterRuns) capacity

def Attempt.landed (attempt : Attempt) (before : BotThing) : Except Refused BotThing :=
  land loaded storageKey botOfRun handle home (some capacity) cap before attempt.act attempt.letThrough attempt.at'

-- A write is judged with the cutoff of its moment, a capture is of an active claim, and a
-- duplicate's claims each have an id of their own.
def Sent (before : BotThing) : Act → Prop
  | .capture new => new.status = .active ∧ new.agedBefore = before.cutoff agesAfterRuns
  | .edit _ patch _ _ => patch.agedBefore = before.cutoff agesAfterRuns
  | .merge incoming _ _ => (incoming.map (·.id)).Nodup
  | .run => True

def Step (before : Clocked) (attempt : Attempt) (after : Clocked) : Prop :=
  before.clock ≤ attempt.at' ∧ Sent agesAfterRuns before.thing attempt.act ∧
    after = ⟨(attempt.landed loaded storageKey botOfRun handle home capacity cap before.thing).toOption.getD before.thing,attempt.at'⟩

-- No thought comes into the room, nor back into the count.
def NoneJoins (before after : BotThing) : Prop :=
  ∀ claim ∈ thoughtRoom after.claims, ∃ was ∈ thoughtRoom before.claims, was.id = claim.id ∧
    (claim ∈ (after.room capacity agesAfterRuns).live → was ∈ (before.room capacity agesAfterRuns).live)

-- What an act that landed did to the count, and to whom it counts.
inductive Turn (before : BotThing) (act : Act) (after : BotThing) : Prop where
  | stays (fewer : after.liveCount (after.cutoff agesAfterRuns) ≤ before.liveCount (before.cutoff agesAfterRuns))
      (none' : NoneJoins capacity agesAfterRuns before after)
  | joins (free : before.liveCount (before.cutoff agesAfterRuns) < capacity)
      (fits : after.liveCount (after.cutoff agesAfterRuns) ≤ capacity)
  | makesWay {new : NewFact} {victim : FactAddress} {reason : Text} (captures : act = .capture new)
      (drops : new.drop = some victim) (because : new.dropBecause = some reason)
      (gone : ∃ gone ∈ (before.room capacity agesAfterRuns).live, gone.id = victim.localId)
      (same : after.liveCount (after.cutoff agesAfterRuns) = before.liveCount (before.cutoff agesAfterRuns))
  | borrows {new : NewFact} (captures : act = .capture new) (borrow : new.borrow = true)
      (full : before.liveCount (before.cutoff agesAfterRuns) = capacity)
      (one : after.liveCount (after.cutoff agesAfterRuns) = capacity+1)

-- A thing whose runs all started by the clock.
structure Steady (state : Clocked) : Prop where
  sound : Sound state.thing
  started : ∀ start ∈ state.thing.runStarts, start ≤ state.clock

end

variable {loaded : List Text} {storageKey : EntityId → Option EntityId} {botOfRun : Text → Option EntityId} {handle home : EntityId}
  {capacity : Nat} {cap : Option Nat} {agesAfterRuns : Nat} {before after : BotThing} {at' : Timestamp} {letThrough : Bool} {new : NewFact}

theorem cutoff_reached (started : ∀ start ∈ before.runStarts, start ≤ at') : Reached (before.cutoff agesAfterRuns) at' :=
  fun moment cuts => started moment (agingCutoff_start cuts)

theorem room_live (thing : BotThing) :
    (thing.room capacity agesAfterRuns).live = thing.claims.filter (isLive thing.claimWrites (thing.cutoff agesAfterRuns)) :=
  live_eq ..

theorem room_length (thing : BotThing) :
    (thing.room capacity agesAfterRuns).live.length = thing.liveCount (thing.cutoff agesAfterRuns) := liveCount_eq ..

theorem noneJoins_of (was : ∀ claim ∈ after.claims, seated claim = true → ∃ was ∈ before.claims, was.id = claim.id ∧ seated was = true ∧
    (isLive after.claimWrites (after.cutoff agesAfterRuns) claim = true →
      isLive before.claimWrites (before.cutoff agesAfterRuns) was = true)) : NoneJoins capacity agesAfterRuns before after := by
  intro claim member
  rw [thoughtRoom_eq] at member
  obtain ⟨has,seat⟩ := List.mem_filter.mp member
  obtain ⟨earlier,held,same,seats,counts⟩ := was claim has seat
  refine ⟨earlier,?_,same,?_⟩
  · rw [thoughtRoom_eq]
    exact List.mem_filter.mpr ⟨held,seats⟩
  · intro live
    rw [room_live] at live ⊢
    exact List.mem_filter.mpr ⟨held,counts (List.mem_filter.mp live).2⟩

-- A drop puts the new thought in the place of the one it names.
theorem dropped_turn {archived claim : Claim} (sound : Sound before) (started : ∀ start ∈ before.runStarts, start ≤ at')
    (id : claim.id = mintedId (before.claims.length+1)) (seat : seated claim = true)
    (found : dropped storageKey home before (before.room capacity agesAfterRuns) new = some archived) :
    ∃ victim reason, new.drop = some victim ∧ new.dropBecause = some reason ∧
      ∃ gone ∈ (before.room capacity agesAfterRuns).live, gone.id = victim.localId ∧
        archived = { gone with status := .archived, details := some reason } ∧ Sound ((before.archive archived at').keep claim at') ∧
        ((before.archive archived at').keep claim at').liveCount (before.cutoff agesAfterRuns) =
          before.liveCount (before.cutoff agesAfterRuns) := by
  obtain ⟨victim,reason,drops,because,⟨one,live,oneId⟩,gone,has,goneId,made⟩ := dropped_ok found
  rw [room_live] at live
  obtain ⟨inClaims,counted⟩ := List.mem_filter.mp live
  have isGone : one = gone := List.inj_on_of_nodup_map sound.apart inClaims has (oneId.trans goneId.symm)
  subst isGone
  have archivedId : archived.id = one.id := by
    rw [made]
  have notSeated : seated archived = false := by
    rw [made]
    rfl
  have reached : Reached (before.cutoff agesAfterRuns) at' := cutoff_reached started
  have less := archived_count sound.apart has archivedId.symm reached
  rw [counted,notSeated] at less
  have again : Sound (before.archive archived at') := sound.archived has archivedId
  have fresh : claim.id = mintedId ((before.archive archived at').claims.length+1) := by
    rw [archive_length]
    exact id
  have more := @kept_count (before.archive archived at') _ at' claim
    (fun held has => fresh ▸ again.fresh (Nat.lt_succ_self _) has) reached
  rw [seat] at more
  refine ⟨victim,reason,drops,because,one,?_,oneId,made,again.kept fresh,?_⟩
  · rw [room_live]
    exact live
  · simp only [Bool.toNat_true,Bool.toNat_false] at less more
    omega

theorem capture_turn (sound : Sound before) (started : ∀ start ∈ before.runStarts, start ≤ at') (active : new.status = .active)
    (aged : new.agedBefore = before.cutoff agesAfterRuns)
    (took : capture loaded storageKey botOfRun handle home (some capacity) cap before new letThrough at' = .ok after) :
    Sound after ∧ after.runStarts = before.runStarts ∧ Turn capacity agesAfterRuns before (.capture new) after := by
  have id : (new.claim loaded storageKey botOfRun handle home (before.claims.length+1)).id = mintedId (before.claims.length+1) := rfl
  have seat : seated (new.claim loaded storageKey botOfRun handle home (before.claims.length+1)) =
      isThought (new.claim loaded storageKey botOfRun handle home (before.claims.length+1)) := by
    unfold seated
    have status : (new.claim loaded storageKey botOfRun handle home (before.claims.length+1)).status = .active := active
    rw [status]
    rfl
  have reached : Reached (before.cutoff agesAfterRuns) at' := cutoff_reached started
  have fresh : ∀ held ∈ before.claims, held.id ≠ (new.claim loaded storageKey botOfRun handle home (before.claims.length+1)).id :=
    fun held has => sound.fresh (Nat.lt_succ_self _) has
  have count := kept_count fresh reached
  rw [seat] at count
  have taken := capture_ok took
  rw [aged] at taken
  dsimp only at taken
  rcases taken with ⟨ordinary,made⟩ | ⟨thought,room | ⟨archived,full,found,made⟩ | ⟨borrow,full,_,made⟩⟩
  · subst made
    rw [ordinary] at count seat
    refine ⟨sound.kept id,rfl,.stays (Nat.le_of_eq count) ?_⟩
    apply noneJoins_of
    intro claim has seats
    rcases List.mem_append.mp has with held | isNew
    · exact ⟨claim,held,rfl,seats,fun live => isLive_other (fresh claim held) ▸ live⟩
    · rw [List.mem_singleton.mp isNew,seat] at seats
      cases seats
  · obtain ⟨free,made⟩ := room
    subst made
    rw [thought] at count
    refine ⟨sound.kept id,rfl,.joins free ?_⟩
    exact Nat.le_trans (Nat.le_of_eq count) free
  · subst made
    rw [thought] at seat
    obtain ⟨victim,reason,drops,because,gone,live,goneId,_,again,same⟩ := dropped_turn sound started id seat found
    exact ⟨again,rfl,.makesWay rfl drops because ⟨gone,live,goneId⟩ same⟩
  · subst made
    rw [thought,full] at count
    exact ⟨sound.kept id,rfl,.borrows rfl borrow full count⟩

theorem edit_turn {declared : List FoldType} {id : Text} {patch : RoomPatch} {writtenIn : Option Text} (sound : Sound before)
    (started : ∀ start ∈ before.runStarts, start ≤ at') (aged : patch.agedBefore = before.cutoff agesAfterRuns)
    (took : updateFact loaded handle home (some capacity) cap declared before id patch writtenIn letThrough at' = .ok after) :
    Sound after ∧ after.runStarts = before.runStarts ∧ Turn capacity agesAfterRuns before (.edit id patch writtenIn declared) after := by
  obtain ⟨fact,has,edited,_,sameId,_,made,joins⟩ := updateFact_ok sound took
  subst made
  rw [aged] at joins
  refine ⟨sound.archived has sameId,rfl,?_⟩
  have count := @archived_count before (before.cutoff agesAfterRuns) at' fact edited sound.apart has sameId.symm (cutoff_reached started)
  cases seat : seated edited with
  | false =>
    rw [seat] at count
    refine .stays (Nat.le_of_add_right_le (Nat.le_of_eq count)) ?_
    apply noneJoins_of
    intro claim member seats
    rcases mem_replaced member with isEdited | ⟨held,other⟩
    · rw [isEdited,seat] at seats
      cases seats
    · exact ⟨claim,held,rfl,seats,fun live => isLive_other other ▸ live⟩
  | true =>
    rw [seat] at count
    rcases joins seat with wasLive | free
    · rw [wasLive] at count
      refine .stays (Nat.le_of_eq (Nat.add_right_cancel count)) ?_
      apply noneJoins_of
      intro claim member seats
      rcases mem_replaced member with isEdited | ⟨held,other⟩
      · exact ⟨fact,has,isEdited ▸ sameId.symm,(Bool.and_eq_true_iff.mp wasLive).1,fun _ => wasLive⟩
      · exact ⟨claim,held,rfl,seats,fun live => isLive_other other ▸ live⟩
    · refine .joins free ?_
      exact Nat.le_trans (Nat.le_of_add_right_le (Nat.le_of_eq count)) free

theorem merge_turn {incoming : List Claim} {writes : List ClaimWrite} {account : Testimony.Fact} (sound : Sound before)
    (started : ∀ start ∈ before.runStarts, start ≤ at') (apart : (incoming.map (·.id)).Nodup)
    (took : merge handle home (some capacity) cap before incoming writes account letThrough at' = .ok after) :
    Sound after ∧ after.runStarts = before.runStarts ∧ Turn capacity agesAfterRuns before (.merge incoming writes account) after := by
  obtain ⟨made,room⟩ := merge_ok took
  have again := @brought_sound before home incoming sound apart
    (before.claimWrites ++ broughtWrites before.claims.length incoming writes)
  have length : (brought home before.claims.length incoming).length = incoming.length := by
    unfold brought
    rw [List.length_map]
    exact (sortBy_perm _ incoming).length_eq
  have others := @broughtWrites_apart before incoming writes sound
  have joined := @joined_count before (before.cutoff agesAfterRuns) (brought home before.claims.length incoming)
    (broughtWrites before.claims.length incoming writes) others
  rw [brought_seated] at joined
  have id : (accountClaim home account (before.claims.length+incoming.length+1)).id = mintedId ((before.claims ++ brought home before.claims.length incoming).length+1) := by
    rw [List.length_append,length]
    rfl
  have count := @kept_count _ (before.cutoff agesAfterRuns) at' _ (fun held has => id ▸ again.fresh (Nat.lt_succ_self _) has)
    (cutoff_reached started)
  have unseated : seated (accountClaim home account (before.claims.length+incoming.length+1)) = false := Bool.and_false _
  rw [unseated] at count
  subst made
  refine ⟨again.kept id,rfl,?_⟩
  by_cases none' : incoming.countP seated = 0
  · rw [none'] at joined
    refine .stays (Nat.le_trans (Nat.le_of_eq count) joined) ?_
    apply noneJoins_of
    intro claim member seats
    rcases List.mem_append.mp member with joins | isAccount
    · have other : claim.id ≠ (accountClaim home account (before.claims.length+incoming.length+1)).id :=
        id ▸ again.fresh (Nat.lt_succ_self _) joins
      rcases List.mem_append.mp joins with held | arrives
      · exact ⟨claim,held,rfl,seats,fun live => isLive_frame others held ▸ isLive_other other ▸ live⟩
      · exact absurd seats (List.countP_eq_zero.mp ((brought_seated _).trans none') claim arrives)
    · rw [List.mem_singleton.mp isAccount,unseated] at seats
      cases seats
  · rcases room with nothing | fits
    · exact absurd nothing none'
    · have below := liveCount_le before (before.cutoff agesAfterRuns)
      refine .joins (by omega) ?_
      refine Nat.le_trans (Nat.le_of_eq count) ?_
      simp only [Bool.toNat_false,Nat.add_zero]
      omega

theorem run_turn (later : ∀ start ∈ before.runStarts, start ≤ at') :
    Turn capacity agesAfterRuns before .run { before with runStarts := before.runStarts ++ [at'] } := by
  have back : ∀ claim, isLive before.claimWrites (agingCutoff (before.runStarts ++ [at']) agesAfterRuns) claim = true →
      isLive before.claimWrites (agingCutoff before.runStarts agesAfterRuns) claim = true := fun _ => live_backward later
  refine .stays (List.countP_mono_left fun claim _ => back claim) ?_
  apply noneJoins_of
  intro claim has seats
  exact ⟨claim,has,rfl,seats,back claim⟩

variable {now last start : Clocked} {attempt : Attempt} {taken : List (Clocked × Attempt)}

-- A step lands its act's turn, or leaves the thing as it was.
theorem step_turn (steady : Steady now)
    (step : Step loaded storageKey botOfRun handle home capacity cap agesAfterRuns now attempt last) :
    Steady last ∧ ((∃ refused, attempt.landed loaded storageKey botOfRun handle home capacity cap now.thing = .error refused ∧
        last.thing = now.thing) ∨
      (attempt.landed loaded storageKey botOfRun handle home capacity cap now.thing = .ok last.thing ∧
        Turn capacity agesAfterRuns now.thing attempt.act last.thing)) := by
  obtain ⟨later,sent,made⟩ := step
  obtain ⟨sound,started⟩ := steady
  have before : ∀ start ∈ now.thing.runStarts, start ≤ attempt.at' := fun start member => (started start member).trans later
  cases result : attempt.landed loaded storageKey botOfRun handle home capacity cap now.thing with
  | error refused =>
    rw [result] at made
    subst made
    exact ⟨⟨sound,before⟩,Or.inl ⟨refused,rfl,rfl⟩⟩
  | ok thing =>
    rw [result] at made
    subst made
    obtain ⟨act,letThrough,at'⟩ := attempt
    unfold Attempt.landed land at result
    cases act with
    | capture new =>
      obtain ⟨again,runs,turn⟩ := capture_turn sound before sent.1 sent.2 result
      exact ⟨⟨again,fun start member => before start (runs ▸ member)⟩,Or.inr ⟨rfl,turn⟩⟩
    | edit id patch writtenIn declared =>
      obtain ⟨again,runs,turn⟩ := edit_turn sound before sent result
      exact ⟨⟨again,fun start member => before start (runs ▸ member)⟩,Or.inr ⟨rfl,turn⟩⟩
    | merge incoming writes account =>
      obtain ⟨again,runs,turn⟩ := merge_turn sound before sent result
      exact ⟨⟨again,fun start member => before start (runs ▸ member)⟩,Or.inr ⟨rfl,turn⟩⟩
    | run =>
      cases Except.ok.inj result
      refine ⟨⟨⟨sound.minted,sound.apart⟩,?_⟩,Or.inr ⟨rfl,run_turn before⟩⟩
      intro start member
      rcases List.mem_append.mp member with earlier | new
      · exact before start earlier
      · exact Int.le_of_eq (List.mem_singleton.mp new)

theorem Turn.within {act : Act} (turn : Turn capacity agesAfterRuns before act after)
    (bounded : before.liveCount (before.cutoff agesAfterRuns) ≤ capacity+1) : after.liveCount (after.cutoff agesAfterRuns) ≤ capacity+1 := by
  cases turn with
  | stays fewer none' => exact Nat.le_trans fewer bounded
  | joins free fits => exact Nat.le_succ_of_le fits
  | makesWay captures drops because gone same => exact same ▸ bounded
  | borrows captures borrow full one => exact Nat.le_of_eq one

theorem run_bounded (steady : Steady start) (fits : (start.thing.room capacity agesAfterRuns).live.length ≤ capacity)
    (run : Run (Step loaded storageKey botOfRun handle home capacity cap agesAfterRuns) start taken now) :
    Steady now ∧ now.thing.liveCount (now.thing.cutoff agesAfterRuns) ≤ capacity+1 := by
  rw [room_length] at fits
  have first : Steady start ∧ start.thing.liveCount (start.thing.cutoff agesAfterRuns) ≤ capacity+1 :=
    ⟨steady,Nat.le_succ_of_le fits⟩
  refine (@Run.keeps _ _ _ _ _ _ (fun state : Clocked => Steady state ∧
    state.thing.liveCount (state.thing.cutoff agesAfterRuns) ≤ capacity+1) first ?_ run).1
  intro before attempt after kept step
  obtain ⟨steady,landed⟩ := step_turn kept.1 step
  refine ⟨steady,?_⟩
  rcases landed with ⟨_,_,same⟩ | ⟨_,turn⟩
  · rw [same]
    exact kept.2
  · exact turn.within kept.2

theorem room_passed_by_one_borrow (steady : Steady start) (fits : (start.thing.room capacity agesAfterRuns).live.length ≤ capacity)
    (run : Run (Step loaded storageKey botOfRun handle home capacity cap agesAfterRuns) start taken now)
    (step : Step loaded storageKey botOfRun handle home capacity cap agesAfterRuns now attempt last) :
    (now.thing.room capacity agesAfterRuns).live.length ≤ capacity+1 ∧
    ((now.thing.room capacity agesAfterRuns).live.length ≤ capacity → capacity < (last.thing.room capacity agesAfterRuns).live.length →
      ∃ new, attempt.act = .capture new ∧ new.borrow = true ∧
        attempt.landed loaded storageKey botOfRun handle home capacity cap now.thing = .ok last.thing) ∧
    (capacity < (now.thing.room capacity agesAfterRuns).live.length →
      NoneJoins capacity agesAfterRuns now.thing last.thing ∨
      ∃ new victim reason, attempt.act = .capture new ∧ new.drop = some victim ∧ new.dropBecause = some reason ∧
        ∃ gone ∈ (now.thing.room capacity agesAfterRuns).live, gone.id = victim.localId) ∧
    (∀ new victim reason, attempt.act = .capture new → new.drop = some victim → new.dropBecause = some reason →
      isThought (new.claim loaded storageKey botOfRun handle home (now.thing.claims.length+1)) = true →
      capacity ≤ (now.thing.room capacity agesAfterRuns).live.length →
      attempt.landed loaded storageKey botOfRun handle home capacity cap now.thing = .ok last.thing →
      (last.thing.room capacity agesAfterRuns).live.length = (now.thing.room capacity agesAfterRuns).live.length ∧
        ∃ gone ∈ (now.thing.room capacity agesAfterRuns).live, gone.id = victim.localId ∧
          last.thing.claims = replaced (·.id) { gone with status := .archived, details := some reason } now.thing.claims ++
            [new.claim loaded storageKey botOfRun handle home (now.thing.claims.length+1)]) ∧
    (∀ refused, attempt.landed loaded storageKey botOfRun handle home capacity cap now.thing = .error refused →
      last.thing = now.thing) := by
  obtain ⟨steadyNow,bounded⟩ := run_bounded steady fits run
  obtain ⟨_,landed⟩ := step_turn steadyNow step
  simp only [room_length]
  refine ⟨bounded,?_,?_,?_,?_⟩
  · intro within above
    rcases landed with ⟨_,_,same⟩ | ⟨accepted,turn⟩
    · rw [same] at above
      omega
    · cases turn with
      | stays fewer none' => omega
      | joins free fits => omega
      | makesWay captures drops because gone same => omega
      | @borrows new captures borrow full one => exact ⟨new,captures,borrow,accepted⟩
  · intro above
    rcases landed with ⟨_,_,same⟩ | ⟨accepted,turn⟩
    · left
      rw [same]
      exact fun claim member => ⟨claim,member,rfl,fun live => live⟩
    · cases turn with
      | stays fewer none' => exact Or.inl none'
      | joins free fits => omega
      | @makesWay new victim reason captures drops because gone same =>
        exact Or.inr ⟨new,victim,reason,captures,drops,because,gone⟩
      | borrows captures borrow full one => omega
  · intro new victim reason captures drops because thought full accepted
    obtain ⟨later,sent,_⟩ := step
    rw [captures] at sent
    unfold Attempt.landed land at accepted
    rw [captures] at accepted
    have taken := capture_ok accepted
    rw [sent.2] at taken
    dsimp only at taken
    rcases taken with ⟨ordinary,_⟩ | ⟨_,room | ⟨archived,_,found,made⟩ | ⟨_,_,noDrop,_⟩⟩
    · rw [thought] at ordinary
      cases ordinary
    · omega
    · have started : ∀ start ∈ now.thing.runStarts, start ≤ attempt.at' := fun start member => (steadyNow.started start member).trans later
      have seat : seated (new.claim loaded storageKey botOfRun handle home (now.thing.claims.length+1)) = true := by
        unfold seated
        rw [thought,Bool.and_true]
        exact decide_eq_true sent.1
      obtain ⟨victim',reason',drops',because',gone,live,goneId,isArchived,_,same⟩ :=
        dropped_turn steadyNow.sound started rfl seat found
      have isVictim : victim' = victim := Option.some.inj (drops'.symm.trans drops)
      have isReason : reason' = reason := Option.some.inj (because'.symm.trans because)
      subst isVictim isReason
      rw [made]
      refine ⟨same,gone,live,goneId,?_⟩
      rw [←isArchived]
      rfl
    · exact absurd ⟨by rw [drops]; rfl,by rw [because]; rfl⟩ noDrop
  · intro refused declined
    rw [step.2.2,declined]
    rfl

def recorded (content : String) : Testimony.Fact where
  id := []
  home := []
  content := content.toList
  details := none
  status := .active
  fields := {}
  provenance := .inference
  standing := .settled
  recordedAt := 0
  happenedAt := none
  happenedThrough := none
  staleAfter := none
  receipt := none
  appStamp := none
  edge := some ⟨.connection,"person:bo".toList⟩
  derivedFrom := none
  standsFor := []

def ana : EntityId := "bot:ana".toList

def plain (content : String) : NewFact where
  record := recorded content
  writtenByBot := none
  session := none
  drop := none
  dropBecause := none
  borrow := false
  agedBefore := none

def dropping : NewFact :=
  { plain "tea at four" with drop := some ⟨ana,"f1".toList⟩, dropBecause := some "settled".toList }

def anasRoom (before : Clocked) (attempt : Attempt) : Clocked :=
  ⟨(attempt.landed ["bot".toList] some (fun _ => none) ana ana 1 none before.thing).toOption.getD before.thing,attempt.at'⟩

def oneThought : Clocked := anasRoom ⟨{},0⟩ ⟨.capture (plain "rain at noon"),true,1⟩
def replacedThought : Clocked := anasRoom oneThought ⟨.capture dropping,true,2⟩

theorem empty_steady (clock : Timestamp) : Steady ⟨{},clock⟩ := by
  refine ⟨⟨?_,List.nodup_nil⟩,?_⟩
  · intro claim member
    exact absurd member List.not_mem_nil
  · intro start member
    exact absurd member List.not_mem_nil

theorem landed_ok {made : Except Refused BotThing} (before : BotThing) (lands : made.toOption.isSome = true) :
    made = .ok (made.toOption.getD before) := by
  cases made with
  | ok after => rfl
  | error refused => cases lands


-- A room of one seat, whose second thought drops the first.
theorem a_drop_makes_way : (replacedThought.thing.room 1 20).live.length = (oneThought.thing.room 1 20).live.length := by
  have first : Step ["bot".toList] some (fun _ => none) ana ana 1 none 20 ⟨{},0⟩ ⟨.capture (plain "rain at noon"),true,1⟩ oneThought :=
    ⟨by decide,⟨rfl,rfl⟩,rfl⟩
  have second : Step ["bot".toList] some (fun _ => none) ana ana 1 none 20 oneThought ⟨.capture dropping,true,2⟩ replacedThought :=
    ⟨by decide,⟨rfl,rfl⟩,rfl⟩
  have thinks : isThought (dropping.claim ["bot".toList] some (fun _ => none) ana ana (oneThought.thing.claims.length+1)) = true := by
    decide +kernel
  have full : 1 ≤ (oneThought.thing.room 1 20).live.length := by decide +kernel
  have accepted : (Attempt.mk (.capture dropping) true 2).landed ["bot".toList] some (fun _ => none) ana ana 1 none oneThought.thing =
      .ok replacedThought.thing := landed_ok oneThought.thing (by decide +kernel)
  have fits : ((Clocked.mk {} 0).thing.room 1 20).live.length ≤ 1 := Nat.zero_le 1
  have drops := (room_passed_by_one_borrow (empty_steady 0) fits (.step .start first) second).2.2.2.1
  exact (drops dropping ⟨ana,"f1".toList⟩ "settled".toList rfl rfl rfl thinks full accepted).1

end Room
