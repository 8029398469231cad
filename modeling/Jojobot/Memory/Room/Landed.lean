import Jojobot.Memory.Room.Aging
import Jojobot.Memory.Testimony.Words

namespace Room
open Library Std Memory Testimony

-- A thing whose ids are the store's own, each given once.
structure Sound (thing : BotThing) : Prop where
  minted : ∀ claim ∈ thing.claims, ∃ number, number ≤ thing.claims.length ∧ claim.id = mintedId number
  apart : (thing.claims.map (·.id)).Nodup

theorem mintedId_inj {m n : Nat} (same : mintedId m = mintedId n) : m = n :=
  printNat_inj (List.cons.inj same).2

variable {thing : BotThing} {at' : Timestamp} {claim edited gone : Claim} {cutoff : Option Timestamp} {capacity number : Nat}

theorem Sound.fresh (sound : Sound thing) (above : thing.claims.length < number) {held : Claim} (has : held ∈ thing.claims) :
    held.id ≠ mintedId number := by
  intro same
  obtain ⟨given,small,isGiven⟩ := sound.minted held has
  have clash := mintedId_inj (isGiven.symm.trans same)
  omega

theorem Sound.kept (sound : Sound thing) (id : claim.id = mintedId (thing.claims.length+1)) : Sound (thing.keep claim at') where
  minted := by
    intro held has
    unfold BotThing.keep at has ⊢
    rw [List.length_append,List.length_singleton]
    rcases List.mem_append.mp has with before | new
    · obtain ⟨number,small,same⟩ := sound.minted held before
      exact ⟨number,Nat.le_succ_of_le small,same⟩
    · rw [List.mem_singleton.mp new]
      exact ⟨_,Nat.le_refl _,id⟩
  apart := by
    unfold BotThing.keep
    rw [List.map_append]
    apply sound.apart.append (List.nodup_singleton _)
    intro one before new
    obtain ⟨held,has,same⟩ := List.mem_map.mp before
    apply sound.fresh (Nat.lt_succ_self _) has
    rw [same,List.mem_singleton.mp new]
    exact id

theorem Sound.archived (sound : Sound thing) (has : gone ∈ thing.claims) (same : edited.id = gone.id) :
    Sound (thing.archive edited at') where
  minted := by
    intro held member
    unfold BotThing.archive at member ⊢
    have length : (replaced (fun claim : Claim => claim.id) edited thing.claims).length = thing.claims.length := List.length_map ..
    rw [length]
    rcases mem_replaced member with here | ⟨before,_⟩
    · rw [here,same]
      exact sound.minted gone has
    · exact sound.minted held before
  apart := by
    unfold BotThing.archive
    rw [replaced_keys]
    exact sound.apart

theorem archive_length : (thing.archive edited at').claims.length = thing.claims.length := List.length_map ..

section
variable {storageKey : EntityId → Option EntityId} {handle home : EntityId} {cap : Option Nat} {new : NewFact}

theorem dropped_ok {counted : RoomCount} {archived : Claim} (found : dropped storageKey home thing counted new = some archived) :
    ∃ victim reason, new.drop = some victim ∧ new.dropBecause = some reason ∧ (∃ one ∈ counted.live, one.id = victim.localId) ∧
      ∃ gone ∈ thing.claims, gone.id = victim.localId ∧ archived = { gone with status := .archived, details := some reason } := by
  unfold dropped at found
  split at found
  · rename_i victim reason isVictim isReason
    split at found
    · rename_i inRoom
      obtain ⟨gone,held,made⟩ := Option.map_eq_some_iff.mp found
      have search := (Option.filter_eq_some_iff.mp held).1
      obtain ⟨one,live,same⟩ := List.any_eq_true.mp inRoom.2
      refine ⟨victim,reason,isVictim,isReason,⟨one,live,of_decide_eq_true same⟩,gone,List.mem_of_find?_eq_some search,?_,made.symm⟩
      simpa using List.find?_some search
    · cases found
  · cases found

-- The three ways a thought is let into a room.
theorem admits_ok {makesWay : Option Claim} (admitted : admits storageKey handle home (some capacity) cap thing new claim = .ok makesWay) :
    (makesWay = none ∧ thing.liveCount new.agedBefore < capacity) ∨
    (∃ archived, makesWay = some archived ∧ capacity ≤ thing.liveCount new.agedBefore ∧
      dropped storageKey home thing (countRoom (thoughtRoom thing.claims) (touchedMoment thing.claimWrites) new.agedBefore capacity) new =
        some archived) ∨
    (makesWay = none ∧ new.borrow = true ∧ thing.liveCount new.agedBefore = capacity ∧
      ¬(new.drop.isSome = true ∧ new.dropBecause.isSome = true)) := by
  have full' := full_eq thing new.agedBefore capacity
  have over' := over_eq thing new.agedBefore capacity
  unfold admits at admitted
  split at admitted
  · cases admitted
  · dsimp only at admitted
    split at admitted
    · rename_i short
      cases admitted
      exact Or.inl ⟨rfl,Nat.lt_of_le_of_lt (liveCount_le thing new.agedBefore) short⟩
    · split at admitted
      · rename_i notFull
        cases admitted
        refine Or.inl ⟨rfl,?_⟩
        simpa [full'] using notFull
      · rename_i full
        have atLeast : capacity ≤ thing.liveCount new.agedBefore := by
          simpa [full'] using full
        split at admitted
        · split at admitted
          · rename_i archived found
            cases admitted
            exact Or.inr (Or.inl ⟨archived,rfl,atLeast,found⟩)
          · cases admitted
        · rename_i noDrop
          split at admitted
          · rename_i spends
            cases admitted
            obtain ⟨borrow,notOver⟩ := Bool.and_eq_true_iff.mp spends
            have atMost : thing.liveCount new.agedBefore ≤ capacity := by
              simpa [over'] using notOver
            exact Or.inr (Or.inr ⟨rfl,borrow,Nat.le_antisymm atMost atLeast,noDrop⟩)
          · cases admitted

variable {loaded : List Text} {botOfRun : Text → Option EntityId} {letThrough : Bool} {after : BotThing}

-- What a capture that lands has met, and what it leaves.
theorem capture_ok (took : capture loaded storageKey botOfRun handle home (some capacity) cap thing new letThrough at' = .ok after) :
    let claim := new.claim loaded storageKey botOfRun handle home (thing.claims.length+1)
    (isThought claim = false ∧ after = thing.keep claim at') ∨
    (isThought claim = true ∧
      ((thing.liveCount new.agedBefore < capacity ∧ after = thing.keep claim at') ∨
      (∃ archived, capacity ≤ thing.liveCount new.agedBefore ∧
        dropped storageKey home thing (countRoom (thoughtRoom thing.claims) (touchedMoment thing.claimWrites) new.agedBefore capacity) new =
          some archived ∧ after = (thing.archive archived at').keep claim at') ∨
      (new.borrow = true ∧ thing.liveCount new.agedBefore = capacity ∧ ¬(new.drop.isSome = true ∧ new.dropBecause.isSome = true) ∧
        after = thing.keep claim at'))) := by
  unfold capture at took
  dsimp only at took ⊢
  split at took
  · cases took
  · rename_i makesWay admitted
    split at took
    · cases took
    · cases took
      cases thought : isThought (new.claim loaded storageKey botOfRun handle home (thing.claims.length+1)) with
      | false =>
        rw [thought,if_neg Bool.false_ne_true] at admitted
        cases admitted
        exact Or.inl ⟨rfl,rfl⟩
      | true =>
        rw [thought,if_pos rfl] at admitted
        right
        refine ⟨rfl,?_⟩
        rcases admits_ok admitted with ⟨none',room⟩ | ⟨archived,isSome,full,found⟩ | ⟨none',borrow,full,noDrop⟩
        · subst none'
          exact Or.inl ⟨room,rfl⟩
        · subst isSome
          exact Or.inr (Or.inl ⟨archived,full,found,rfl⟩)
        · subst none'
          exact Or.inr (Or.inr ⟨borrow,full,noDrop,rfl⟩)

theorem applied_id (fact : Testimony.Fact) (patch : FactPatch) (receipt : Option Receipt) : (applied fact patch receipt).id = fact.id := by
  unfold applied carry
  dsimp only
  split
  · rfl
  · split
    · rfl
    · rfl

theorem overflow_room {fact : Claim} (apart : (thing.claims.map (·.id)).Nodup) (has : fact ∈ thing.claims) (same : edited.id = fact.id)
    (uncounted : isLive thing.claimWrites cutoff fact = false)
    (noOverflow : refusesRoomOverflow handle (countRoom (thoughtRoom (thing.claims.filter (·.id ≠ edited.id)))
      (if capacity ≤ (thoughtRoom (thing.claims.filter (·.id ≠ edited.id))).length then touchedMoment thing.claimWrites else fun _ => none)
      cutoff capacity) = none) : thing.liveCount cutoff < capacity := by
  rw [same] at noOverflow
  have counted := others_count apart has uncounted
  by_cases short : capacity ≤ (thoughtRoom (thing.claims.filter (·.id ≠ fact.id))).length
  · rw [if_pos short] at noOverflow
    unfold refusesRoomOverflow at noOverflow
    split at noOverflow
    · cases noOverflow
    · rename_i notFull
      have full' := full_eq { thing with claims := thing.claims.filter (·.id ≠ fact.id) } cutoff capacity
      rw [full',counted] at notFull
      simpa using notFull
  · rw [←counted]
    exact Nat.lt_of_le_of_lt (liveCount_le _ _) (Nat.lt_of_not_le short)

-- What an edit that lands has met: one that puts a thought in the count found a slot free.
theorem updateFact_ok {declared : List FoldType} {id : Text} {patch : RoomPatch} {writtenIn : Option Text} (sound : Sound thing)
    (took : updateFact loaded handle home (some capacity) cap declared thing id patch writtenIn letThrough at' = .ok after) :
    ∃ fact ∈ thing.claims, ∃ edited : Claim, fact.id = id ∧ edited.id = fact.id ∧ fact.status = .active ∧
      after = thing.archive edited at' ∧
      (seated edited = true → isLive thing.claimWrites patch.agedBefore fact = true ∨ thing.liveCount patch.agedBefore < capacity) := by
  unfold updateFact at took
  split at took
  · cases took
  · rename_i fact search
    have has := List.mem_of_find?_eq_some search
    have sameId : fact.id = id := by simpa using List.find?_some search
    split at took
    · cases took
    · rename_i notArchived
      have active : fact.status = .active := by
        cases status : fact.status with
        | active => rfl
        | archived => exact absurd status notArchived
      split at took
      · cases took
      · rename_i settled _
        split at took
        · cases took
        · rename_i next applies
          have nextId : next.id = fact.id := by
            obtain ⟨receipt,made⟩ := applyFactPatch_applied applies
            rw [made]
            exact applied_id ..
          dsimp only at took
          split at took
          · cases took
          · split at took
            · cases took
            · rename_i noOverflow
              split at took
              · cases took
              · cases took
                refine ⟨fact,has,{ fact with record := next },sameId,nextId,active,rfl,?_⟩
                intro seat
                by_contra neither
                obtain ⟨quiet,full⟩ := not_or.mp neither
                have uncounted : isLive thing.claimWrites patch.agedBefore fact = false := by simpa using quiet
                have asked : (!isThought fact || isThought fact && isQuiet (touchedMoment thing.claimWrites id) patch.agedBefore) = true := by
                  rw [sameId.symm]
                  unfold isLive seated at uncounted
                  rw [active] at uncounted
                  cases thought : isThought fact with
                  | false => rfl
                  | true =>
                    rw [thought] at uncounted
                    simpa using uncounted
                unfold seated at seat
                rw [seat,asked,Bool.and_self,if_pos rfl,Option.bind_some] at noOverflow
                have editedId : ({ fact with record := next } : Claim).id = fact.id := nextId
                apply full
                apply overflow_room sound.apart has editedId uncounted
                exact noOverflow

variable {incoming : List Claim} {writes : List ClaimWrite} {account : Testimony.Fact}

theorem merge_ok (took : merge handle home (some capacity) cap thing incoming writes account letThrough at' = .ok after) :
    after = ({ thing with
        claims := thing.claims ++ brought home thing.claims.length incoming
        claimWrites := thing.claimWrites ++ broughtWrites thing.claims.length incoming writes } : BotThing).keep
      (accountClaim home account (thing.claims.length+incoming.length+1)) at' ∧
    (incoming.countP seated = 0 ∨ (thoughtRoom thing.claims).length+incoming.countP seated ≤ capacity) := by
  have arriving : (thoughtRoom incoming).length = incoming.countP seated := by
    rw [thoughtRoom_eq,←List.countP_eq_length_filter]
  unfold merge at took
  dsimp only at took
  split at took
  · cases took
  · rename_i notRefused
    split at took
    · cases took
    · cases took
      refine ⟨rfl,?_⟩
      unfold refusesMergeIntoRoom at notRefused
      dsimp only at notRefused
      split at notRefused
      · cases notRefused
      · split at notRefused
        · rename_i lets
          rw [←arriving]
          rcases lets with nothing | fits
          · left
            rw [nothing]
            rfl
          · exact Or.inr fits
        · cases notRefused

theorem brought_seated (held : Nat) : (brought home held incoming).countP seated = incoming.countP seated := by
  unfold brought
  dsimp only
  rw [List.countP_map]
  exact (sortBy_perm _ incoming).countP_eq _

theorem broughtWrites_apart (sound : Sound thing) : ∀ held ∈ thing.claims,
    ∀ write ∈ broughtWrites thing.claims.length incoming writes, write.claim ≠ held.id := by
  intro held has write member same
  obtain ⟨was,_,made⟩ := List.mem_map.mp member
  subst made
  exact sound.fresh (by omega) has same.symm

theorem brought_sound (sound : Sound thing) (apart : (incoming.map (·.id)).Nodup) (moreWrites : List ClaimWrite) :
    Sound { thing with
      claims := thing.claims ++ brought home thing.claims.length incoming
      claimWrites := moreWrites } := by
  have ids : ((brought home thing.claims.length incoming).map (·.id)) =
      ((sortBy (compareOn (claimSequence ·.toFact)) incoming).map (·.id)).map
        (movedId thing.claims.length (sortBy (compareOn (claimSequence ·.toFact)) incoming)) := by
    unfold brought
    rw [List.map_map,List.map_map]
    rfl
  have ordered : ((sortBy (compareOn (claimSequence ·.toFact)) incoming).map (·.id)).Nodup :=
    ((sortBy_perm _ incoming).map _).nodup_iff.mpr apart
  have length : (brought home thing.claims.length incoming).length = incoming.length := by
    unfold brought
    rw [List.length_map]
    exact (sortBy_perm _ incoming).length_eq
  constructor
  · intro claim member
    dsimp only at member ⊢
    rw [List.length_append,length]
    rcases List.mem_append.mp member with before | new
    · obtain ⟨number,small,same⟩ := sound.minted claim before
      exact ⟨number,Nat.le_add_right_of_le small,same⟩
    · have named := List.mem_map_of_mem (f := fun claim : Claim => claim.id) new
      rw [ids] at named
      obtain ⟨id,found,same⟩ := List.mem_map.mp named
      refine ⟨_,?_,same.symm⟩
      have place := List.idxOf_lt_length_of_mem found
      rw [List.length_map,(sortBy_perm _ incoming).length_eq] at place
      omega
  · dsimp only
    rw [List.map_append]
    refine sound.apart.append ?_ ?_
    · rw [ids]
      apply List.Nodup.map_on _ ordered
      intro one inOrder other inOrder' same
      have place := mintedId_inj same
      apply (List.idxOf_inj inOrder).mp
      omega
    · intro id before new
      rw [ids] at new
      obtain ⟨held,has,isHeld⟩ := List.mem_map.mp before
      obtain ⟨_,_,same⟩ := List.mem_map.mp new
      apply sound.fresh (Nat.lt_add_right _ (Nat.lt_succ_self _)) has
      exact isHeld.trans same.symm

end

end Room
