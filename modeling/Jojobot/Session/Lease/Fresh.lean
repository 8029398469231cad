import Jojobot.Library.Runs
import Jojobot.Memory.Bags.Predicted
import Jojobot.Session.Lease.Landed

namespace Lease
open Library Std Memory

-- A role object and the moment of the last act on it.
structure Clocked where
  object : RoleObject
  clock : Timestamp

structure Attempt where
  act : Act
  at' : Timestamp
  ownFieldsStay : Bool

section
variable [Moments] [Floats] (declared : List FoldType) (role : Text)

def Attempt.landed (attempt : Attempt) (before : Clocked) : RoleObject × Option Refused :=
  land declared role before.object attempt.act attempt.ownFieldsStay attempt.at'

-- No act is before the last.
def Step (before : Clocked) (attempt : Attempt) (after : Clocked) : Prop :=
  before.clock ≤ attempt.at' ∧ Sent before.object attempt.act ∧ after = ⟨(attempt.landed declared role before).1,attempt.at'⟩

def Clocked.lease (state : Clocked) : RoleState := state.object.lease declared

-- The session never gives the role up, and another's claim comes within the freshness less
-- one renewal's wait of a moment at which the session had no renewal due.
def keepsRenewing (holder : Text) (before : Clocked) (attempt : Attempt) : Prop :=
  (∀ freshId, attempt.act ≠ .role (.release holder) freshId) ∧
    ∀ claimant freshId, attempt.act = .role (.claim claimant) freshId → claimant ≠ holder →
      ∃ looked, attempt.at'-looked ≤ LEASE_FRESHNESS-LEASE_RENEWS_AFTER ∧
        renewalIsDue (before.lease declared).claimedAt looked = false

end

-- What the guard reads of a lease.
def stateOf (held : Held) : RoleState := ⟨held.bind (·.1),held.map (·.2)⟩

-- A lease's moment is no later than the clock while it is held, and the epoch once it is given up.
structure Timed (held : Held) (clock : Timestamp) : Prop where
  past : ∀ holder moment, held = some (some holder,moment) → moment ≤ clock
  epoch : ∀ moment, held = some (none,moment) → moment = UNIX_EPOCH

theorem stateOf_holder {held : Held} {holder : Text} : (stateOf held).holder = some holder ↔ ∃ moment, held = some (some holder,moment) := by
  unfold stateOf
  rw [Option.bind_eq_some_iff]
  constructor
  · intro both
    obtain ⟨lease,same,named⟩ := both
    refine ⟨lease.2,?_⟩
    rw [same,←named]
  · intro both
    obtain ⟨moment,same⟩ := both
    exact ⟨_,same,rfl⟩

theorem stateOf_lease {held : Held} {holder : Text} {moment : Timestamp} (same : stateOf held = ⟨some holder,some moment⟩) :
    held = some (some holder,moment) := by
  cases held with
  | none => cases same
  | some lease =>
    obtain ⟨named,stamped⟩ := RoleState.mk.inj same
    exact congrArg some (Prod.ext named (Option.some.inj stamped))

-- One turn of a lease: what an act that was let through makes of it, or nothing.
inductive Turns (held : Held) (attempt : Attempt) : Option Refused → Held → Prop where
  | took : lets held attempt.at' attempt.act → Turns held attempt none (turned held attempt.at' attempt.act)
  | refused {why : Refused} : Turns held attempt (some why) held

section
variable {held next : Held} {attempt : Attempt} {refused : Option Refused} {clock moment : Timestamp} {holder : Text}

theorem Turns.timed (turn : Turns held attempt refused next) (timed : Timed held clock) (later : clock ≤ attempt.at') :
    Timed next attempt.at' := by
  have still : Timed held attempt.at' := ⟨fun holder moment same => (timed.past holder moment same).trans later,timed.epoch⟩
  obtain ⟨act,at',ownFieldsStay⟩ := attempt
  cases turn with
  | refused => exact still
  | took =>
    cases act with
    | role write freshId =>
      cases write with
      | claim claimant =>
        refine ⟨?_,nofun⟩
        intro holder moment same
        cases same
        exact Int.le_refl _
      | renew claimant =>
        refine ⟨?_,nofun⟩
        intro holder moment same
        cases same
        exact Int.le_refl _
      | release claimant =>
        refine ⟨nofun,?_⟩
        intro moment same
        cases same
        rfl
    | capture fact sets derived => exact still
    | edit id patch => exact still

-- A fresh lease is given up by its holder or not at all.
theorem Turns.fresh_kept (turn : Turns (some (some holder,moment)) attempt refused next) (fresh : attempt.at'-moment < LEASE_FRESHNESS)
    (gone : (stateOf next).holder ≠ some holder) : ∃ freshId, attempt.act = .role (.release holder) freshId := by
  obtain ⟨act,at',ownFieldsStay⟩ := attempt
  cases turn with
  | refused => exact absurd rfl gone
  | took allowed =>
    cases act with
    | role write freshId =>
      cases write with
      | claim claimant =>
        by_cases own : holder = claimant
        · subst own
          exact absurd rfl gone
        · exact absurd fresh (Int.not_lt.mpr (allowed holder moment rfl own))
      | renew claimant =>
        obtain ⟨_,same⟩ := allowed
        cases same
        exact absurd rfl gone
      | release claimant =>
        obtain ⟨_,same⟩ := allowed
        cases same
        exact ⟨freshId,rfl⟩
    | capture fact sets derived => exact absurd rfl gone
    | edit id patch => exact absurd rfl gone

-- A lease that is not given up is lost to another's claim or not at all.
theorem Turns.stale_claimed (turn : Turns (some (some holder,moment)) attempt refused next) (gone : (stateOf next).holder ≠ some holder)
    (noRelease : ∀ freshId, attempt.act ≠ .role (.release holder) freshId) :
    ∃ claimant freshId, attempt.act = .role (.claim claimant) freshId ∧ claimant ≠ holder := by
  obtain ⟨act,at',ownFieldsStay⟩ := attempt
  cases turn with
  | refused => exact absurd rfl gone
  | took allowed =>
    cases act with
    | role write freshId =>
      cases write with
      | claim claimant =>
        refine ⟨claimant,freshId,rfl,?_⟩
        intro own
        subst own
        exact gone rfl
      | renew claimant =>
        obtain ⟨_,same⟩ := allowed
        cases same
        exact absurd rfl gone
      | release claimant =>
        obtain ⟨_,same⟩ := allowed
        cases same
        exact absurd rfl (noRelease freshId)
    | capture fact sets derived => exact absurd rfl gone
    | edit id patch => exact absurd rfl gone

-- A role comes to a session by its own claim alone.
theorem Turns.not_taken (turn : Turns held attempt refused next) (lost : (stateOf held).holder ≠ some holder)
    (noClaim : ∀ freshId, attempt.act ≠ .role (.claim holder) freshId) : (stateOf next).holder ≠ some holder := by
  obtain ⟨act,at',ownFieldsStay⟩ := attempt
  cases turn with
  | refused => exact lost
  | took allowed =>
    cases act with
    | role write freshId =>
      cases write with
      | claim claimant =>
        intro same
        have named : claimant = holder := Option.some.inj same
        exact noClaim freshId (by rw [named])
      | renew claimant =>
        obtain ⟨moment,isHeld⟩ := allowed
        intro same
        have named : claimant = holder := Option.some.inj same
        exact lost (stateOf_holder.mpr ⟨moment,named ▸ isHeld⟩)
      | release claimant => nofun
    | capture fact sets derived => exact lost
    | edit id patch => exact lost

-- A move of a session that does not hold the role is refused.
theorem Turns.move_refused {write : RoleWrite} {role freshId : Text} (turn : Turns held attempt refused next)
    (isWrite : attempt.act = .role write freshId) (moves : write.roleMove role ≠ none)
    (other : (stateOf held).holder ≠ some write.claimant) : refused ≠ none := by
  cases turn with
  | refused => nofun
  | took allowed =>
    rw [isWrite] at allowed
    cases write with
    | claim claimant => exact absurd rfl moves
    | renew claimant => exact absurd (stateOf_holder.mpr allowed) other
    | release claimant => exact absurd (stateOf_holder.mpr allowed) other

theorem Turns.given_up {freshId : Text} (turn : Turns held attempt none next) (released : attempt.act = .role (.release holder) freshId) :
    (stateOf next).holder ≠ some holder := by
  cases turn with
  | took =>
    rw [released]
    nofun

theorem Turns.renewed {freshId : Text} (turn : Turns held attempt none next) (renews : attempt.act = .role (.renew holder) freshId) :
    stateOf next = ⟨some holder,some attempt.at'⟩ := by
  cases turn with
  | took =>
    rw [renews]
    rfl

theorem Turns.forward (turn : Turns held attempt refused next) (timed : Timed held clock) (later : clock ≤ attempt.at')
    (stamped : (stateOf held).claimedAt = some moment) (noRelease : ∀ claimant freshId, attempt.act ≠ .role (.release claimant) freshId)
    (since : (stateOf held).holder = none → UNIX_EPOCH ≤ attempt.at') : ∃ then', (stateOf next).claimedAt = some then' ∧ moment ≤ then' := by
  obtain ⟨lease,isHeld,isMoment⟩ := Option.map_eq_some_iff.mp stamped
  subst isMoment
  obtain ⟨holder,moment⟩ := lease
  subst isHeld
  have past : moment ≤ attempt.at' := by
    cases holder with
    | none =>
      rw [timed.epoch moment rfl]
      exact since rfl
    | some holder => exact (timed.past holder moment rfl).trans later
  obtain ⟨act,at',ownFieldsStay⟩ := attempt
  cases turn with
  | refused => exact ⟨moment,rfl,Int.le_refl _⟩
  | took allowed =>
    cases act with
    | role write freshId =>
      cases write with
      | claim claimant => exact ⟨at',rfl,past⟩
      | renew claimant => exact ⟨at',rfl,past⟩
      | release claimant => exact absurd rfl (noRelease claimant freshId)
    | capture fact sets derived => exact ⟨moment,rfl,Int.le_refl _⟩
    | edit id patch => exact ⟨moment,rfl,Int.le_refl _⟩

end

section
variable [Moments] [Floats] [LawfulMoments] {declared : List FoldType} {role : Text} {start before now after : Clocked} {attempt : Attempt}
  {taken : List (Clocked × Attempt)} {holder : Text}

def Sound (state : Clocked) : Prop :=
  Grounded state.object ∧ ∃ held, Leased state.object held ∧ Timed held state.clock

variable (holderFolds : foldOf ROLE_HOLDER declared = .newest) (momentFolds : foldOf ROLE_CLAIMED_AT declared = .newest)

include holderFolds momentFolds

-- What one step does to the lease of a role.
theorem step_turns (sound : Sound before) (step : Step declared role before attempt after) :
    Sound after ∧ ∃ held next, before.lease declared = stateOf held ∧ after.lease declared = stateOf next ∧ Timed held before.clock ∧
      Leased before.object held ∧ Turns held attempt (attempt.landed declared role before).2 next ∧
      ((attempt.landed declared role before).2 ≠ none → after.object.rows = before.object.rows) := by
  obtain ⟨grounded,held,leased,timed⟩ := sound
  obtain ⟨later,sent,made⟩ := step
  subst made
  have lands : Landed before.object held attempt.at' attempt.act (attempt.landed declared role before) :=
    landed holderFolds momentFolds grounded leased sent
  have state := lease_held holderFolds momentFolds grounded leased
  rcases lands.either with ⟨accepted,allowed,turns⟩ | ⟨refused,still,rows⟩
  · have turn : Turns held attempt (attempt.landed declared role before).2 (turned held attempt.at' attempt.act) := by
      rw [show (attempt.landed declared role before).2 = none from accepted]
      exact .took allowed
    exact ⟨⟨lands.grounded,_,turns,turn.timed timed later⟩,held,_,state,
      lease_held holderFolds momentFolds lands.grounded turns,timed,leased,turn,fun refused => absurd accepted refused⟩
  · have turn : Turns held attempt (attempt.landed declared role before).2 held := by
      cases why : (attempt.landed declared role before).2 with
      | none => exact absurd why refused
      | some why => exact .refused
    exact ⟨⟨lands.grounded,_,still,turn.timed timed later⟩,held,_,state,
      lease_held holderFolds momentFolds lands.grounded still,timed,leased,turn,fun _ => rows⟩

omit [Floats] [LawfulMoments] holderFolds momentFolds in
theorem unclaimed_sound (clock : Timestamp) : Sound ⟨{},clock⟩ := by
  refine ⟨⟨nofun,List.nodup_nil,?_⟩,none,.unclaimed nofun,⟨nofun,nofun⟩⟩
  intro key
  exact List.Pairwise.nil

theorem run_sound (sound : Sound start) (run : Run (Step declared role) start taken now) : Sound now :=
  (run.keeps sound fun sound step => (step_turns holderFolds momentFolds sound step).1).1

-- A session that has given the role up does not hold it again before it claims it.
theorem stays_given_up (sound : Sound start) (run : Run (Step declared role) start taken now)
    (noClaim : ∀ one ∈ taken, ∀ freshId, one.2.act ≠ .role (.claim holder) freshId) (lost : (start.lease declared).holder ≠ some holder) :
    (now.lease declared).holder ≠ some holder := by
  apply (run.strong_of_meets (fun _ attempt => ∀ freshId, attempt.act ≠ .role (.claim holder) freshId) sound lost ?_ ?_ noClaim).1
  · intro before attempt after sound step
    exact (step_turns holderFolds momentFolds sound step).1
  · intro before attempt after sound lost step noClaim
    obtain ⟨_,held,next,state,turns,_,_,turn,_⟩ := step_turns holderFolds momentFolds sound step
    rw [state] at lost
    rw [turns]
    exact turn.not_taken lost noClaim

theorem kept_by_renewing (sound : Sound start) (run : Run (Step declared role) start taken now)
    (keeps : ∀ one ∈ taken, keepsRenewing declared holder one.1 one.2) (holds : (start.lease declared).holder = some holder) :
    (now.lease declared).holder = some holder := by
  apply (run.strong_of_meets (keepsRenewing declared holder) sound holds ?_ ?_ keeps).1
  · intro before attempt after sound step
    exact (step_turns holderFolds momentFolds sound step).1
  · intro before attempt after sound holds step keeps
    obtain ⟨_,held,next,state,turns,_,_,turn,_⟩ := step_turns holderFolds momentFolds sound step
    obtain ⟨noRelease,renewed⟩ := keeps
    rw [state] at holds renewed
    obtain ⟨moment,isHeld⟩ := stateOf_holder.mp holds
    subst isHeld
    rw [turns]
    by_contra gone
    by_cases fresh : attempt.at'-moment < LEASE_FRESHNESS
    · obtain ⟨freshId,released⟩ := turn.fresh_kept fresh gone
      exact noRelease freshId released
    · obtain ⟨claimant,freshId,claims,other⟩ := turn.stale_claimed gone noRelease
      obtain ⟨looked,within,notDue⟩ := renewed claimant freshId claims other
      have recent : looked-moment < LEASE_RENEWS_AFTER := by
        simpa [renewalIsDue,stateOf] using notDue
      apply fresh
      calc attempt.at'-moment = (attempt.at'-looked)+(looked-moment) := (sub_add_sub_cancel ..).symm
        _ < (LEASE_FRESHNESS-LEASE_RENEWS_AFTER)+LEASE_RENEWS_AFTER := Int.add_lt_add_of_le_of_lt within recent
        _ = LEASE_FRESHNESS := Int.sub_add_cancel ..

theorem fresh_lease_is_its_holders {clock : Timestamp} (run : Run (Step declared role) ⟨{},clock⟩ taken now)
    (step : Step declared role now attempt after) :
    (∀ holder moment, now.lease declared = ⟨some holder,some moment⟩ → attempt.at'-moment < LEASE_FRESHNESS →
      (after.lease declared).holder ≠ some holder → ∃ freshId, attempt.act = .role (.release holder) freshId) ∧
    (∀ write freshId, attempt.act = .role write freshId → write.roleMove role ≠ none →
      (now.lease declared).holder ≠ some write.claimant →
      (attempt.landed declared role now).2 ≠ none ∧ after.object.rows = now.object.rows) ∧
    (∀ holder freshId later last, attempt.act = .role (.release holder) freshId → (attempt.landed declared role now).2 = none →
      Run (Step declared role) after later last → (∀ one ∈ later, ∀ freshId, one.2.act ≠ .role (.claim holder) freshId) →
      (last.lease declared).holder ≠ some holder) ∧
    (∀ moment, (now.lease declared).claimedAt = some moment → (∀ holder freshId, attempt.act ≠ .role (.release holder) freshId) →
      ((now.lease declared).holder = none → UNIX_EPOCH ≤ attempt.at') →
      ∃ next, (after.lease declared).claimedAt = some next ∧ moment ≤ next) ∧
    (∀ holder freshId, attempt.act = .role (.renew holder) freshId → (now.lease declared).holder = some holder →
      (attempt.landed declared role now).2 = none ∧ after.lease declared = ⟨some holder,some attempt.at'⟩) ∧
    (∀ holder later last, (now.lease declared).holder = some holder → Run (Step declared role) now later last →
      (∀ one ∈ later, keepsRenewing declared holder one.1 one.2) → (last.lease declared).holder = some holder) := by
  have sound := run_sound holderFolds momentFolds (unclaimed_sound clock) run
  obtain ⟨soundAfter,held,next,state,turns,timed,leased,turn,frame⟩ := step_turns holderFolds momentFolds sound step
  refine ⟨?_,?_,?_,?_,?_,fun holder later last holds run keeps => kept_by_renewing holderFolds momentFolds sound run keeps holds⟩
  · intro holder moment lease fresh gone
    have isHeld : held = some (some holder,moment) := stateOf_lease (state.symm.trans lease)
    subst isHeld
    rw [turns] at gone
    exact turn.fresh_kept fresh gone
  · intro write freshId isWrite moves other
    rw [state] at other
    have refused := turn.move_refused isWrite moves other
    exact ⟨refused,frame refused⟩
  · intro holder freshId later last released accepted run noClaim
    apply stays_given_up holderFolds momentFolds soundAfter run noClaim
    rw [turns]
    rw [accepted] at turn
    exact turn.given_up released
  · intro moment stamped noRelease since
    rw [state] at stamped since
    rw [turns]
    exact turn.forward timed step.1 stamped noRelease since
  · intro holder freshId renews holds
    rw [state] at holds
    obtain ⟨moment,isHeld⟩ := stateOf_holder.mp holds
    subst isHeld
    have accepted : (attempt.landed declared role now).2 = none := by
      unfold Attempt.landed
      rw [renews]
      exact renew_taken holderFolds momentFolds sound.1 leased
    rw [accepted] at turn
    rw [turns]
    exact ⟨accepted,turn.renewed renews⟩

end

@[reducible] def wholeMoments : Moments where
  print := printInt
  parse := readInt

theorem wholeMoments_lawful : @LawfulMoments wholeMoments := by
  refine @LawfulMoments.mk wholeMoments readInt_printInt ?_
  intro moment
  change holdsAValue (printInt moment) = true
  unfold holdsAValue
  apply decide_eq_true
  rw [trim_solid fun _ member => printInt_solid member]
  exact printInt_ne_nil moment

def scout : Text := "scout".toList

def claimBy (claimant freshId : String) (at' : Timestamp) : Attempt := ⟨.role (.claim claimant.toList) freshId.toList,at',false⟩

def claimedAtZero : Clocked := ⟨(@Attempt.landed wholeMoments wholeFloats [] scout (claimBy "ana" "f1" 0) ⟨{},0⟩).1,0⟩

-- Another session's claim ten nanoseconds later leaves the role where it was.
theorem a_later_claim_is_refused : (@Clocked.lease wholeMoments wholeFloats []
    ⟨(@Attempt.landed wholeMoments wholeFloats [] scout (claimBy "bo" "f2" 10) claimedAtZero).1,10⟩).holder = some "ana".toList := by
  have first : Run (@Step wholeMoments wholeFloats [] scout) ⟨{},0⟩ [(⟨{},0⟩,claimBy "ana" "f1" 0)] claimedAtZero :=
    .step .start ⟨Int.le_refl _,⟨by decide,nofun⟩,rfl⟩
  have second : @Step wholeMoments wholeFloats [] scout claimedAtZero (claimBy "bo" "f2" 10)
      ⟨(@Attempt.landed wholeMoments wholeFloats [] scout (claimBy "bo" "f2" 10) claimedAtZero).1,10⟩ :=
    ⟨by decide,⟨by decide,by decide +kernel⟩,rfl⟩
  obtain ⟨kept,_⟩ := @fresh_lease_is_its_holders wholeMoments wholeFloats wholeMoments_lawful [] scout _ _ _ _ rfl rfl 0 first second
  by_contra gone
  obtain ⟨freshId,released⟩ := kept "ana".toList 0 rfl (by decide) gone
  cases released

def holderAlone : Fact where
  id := "f2".toList
  home := "role:scout".toList
  content := "took it over".toList
  details := none
  status := .active
  fields := (∅ : Fields).insert ROLE_HOLDER "bo".toList

-- A write of the holder alone is not a claim, so a fresh lease does not turn it away.
theorem a_holder_alone_is_let_through :
    @Clocked.lease wholeMoments wholeFloats [] claimedAtZero = ⟨some "ana".toList,some 0⟩ ∧ 10-0 < LEASE_FRESHNESS ∧
      @refusesRoleWrite wholeMoments scout none holderAlone.fields (@Clocked.lease wholeMoments wholeFloats [] claimedAtZero) = none ∧
      (@Clocked.lease wholeMoments wholeFloats [] ⟨(@land wholeMoments wholeFloats [] scout claimedAtZero.object
        (.capture holderAlone [ROLE_HOLDER] []) false 10).1,10⟩).holder = some "bo".toList := by
  exact ⟨rfl,by decide,rfl,rfl⟩

end Lease
