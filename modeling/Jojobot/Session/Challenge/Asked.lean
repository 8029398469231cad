import Jojobot.Session.Challenge.Calls

namespace Challenges
open Library Memory Std

variable [Outside] {world middle after : World} {makes : Record → Prop} {handle : EntityId} {held : Challenge}
  {address : FactAddress}

-- A store that went on as the engine may write it, with what it made on the way.
structure Extends (makes : Record → Prop) (world after : World) : Prop where
  sound : Sound after.landed
  key : after.key = world.key
  more : ∃ more, after.landed = world.landed ++ more ∧ ∀ record, .made record ∈ more → makes record

theorem Extends.refl (sound : Sound world.landed) : Extends makes world world := ⟨sound,rfl,[],by simp,by simp⟩

theorem Extends.trans (one : Extends makes world middle) (two : Extends makes middle after) : Extends makes world after := by
  obtain ⟨_,key,more,wrote,made⟩ := one
  obtain ⟨sound,key',more',wrote',made'⟩ := two
  refine ⟨sound,key'.trans key,more ++ more',by rw [wrote',wrote,List.append_assoc],?_⟩
  intro record member
  rcases List.mem_append.mp member with early | late
  · exact made record early
  · exact made' record late

theorem listed_all (kept : Kept world.records) : (listEntities world.records CHALLENGE).filter (!·.archived) =
    listEntities world.records CHALLENGE := by
  apply List.filter_eq_self.mpr
  intro record member
  obtain ⟨fields,shape⟩ := kept.shaped record (List.mem_filter.mp member).1
  rw [shape]
  rfl

theorem Extends.moved (sound : Sound world.landed) (moved : MovedOnce world after) : Extends makes world after := by
  rcases moved with rfl | ⟨handle,held,moved,patch,stands,issued,moves,rfl⟩
  · exact .refl sound
  · exact ⟨sound.snoc (.moved handle held moved patch stands issued moves),rfl,_,rfl,by simp⟩

variable [lawful : Lawful]

-- The loop over the listed challenges gives the addresses of the bot's own that
-- stand issued, each once, and leaves none of these out.
theorem pendingOrExpired_lists (kept : Kept world.records) (ask : Ask) (entities : List Record) (expired found : List FactAddress)
    (told : pendingOrExpired ask world entities expired = .ok found) :
    ∃ more, found = expired ++ more ∧ more.Sublist (entities.map fun record => (record.id,1)) ∧
      (∀ address ∈ more, ∃ handle held, address = (handle,1) ∧ Stands world.records handle held ∧ held.state = .issued) ∧
      ∀ record ∈ entities, ∀ held, Stands world.records record.id held → held.bot = ask.bot → held.state = .issued →
        (record.id,1) ∈ more := by
  induction entities generalizing expired with
  | nil =>
    cases told
    exact ⟨[],by simp⟩
  | cons entity rest ih =>
    have skip : pendingOrExpired ask world rest expired = .ok found →
        (∀ held, Stands world.records entity.id held → held.bot = ask.bot → held.state ≠ .issued) →
        ∃ more, found = expired ++ more ∧ more.Sublist ((entity :: rest).map fun record => (record.id,1)) ∧
          (∀ address ∈ more, ∃ handle held, address = (handle,1) ∧ Stands world.records handle held ∧ held.state = .issued) ∧
          ∀ record ∈ entity :: rest, ∀ held, Stands world.records record.id held → held.bot = ask.bot → held.state = .issued →
            (record.id,1) ∈ more := by
      intro later none
      obtain ⟨more,shape,sub,each,all⟩ := ih expired later
      refine ⟨more,shape,sub.cons _,each,?_⟩
      intro record member held stands own issued
      rcases List.mem_cons.mp member with rfl | member
      · exact absurd issued (none held stands own)
      · exact all record member held stands own issued
    unfold pendingOrExpired at told
    split at told
    · cases told
    · rename_i read
      apply skip told
      intro held stands
      have there := (heldAt_iff kept stands.1).mpr ⟨rfl,stands⟩
      unfold readChallenge at read
      rw [if_neg (not_ne_iff.mpr stands.1)] at read
      split at read
      · cases read
      · rw [there] at read
        cases read
    · rename_i read told'
      obtain ⟨address,stands⟩ := read_stands kept told'
      split at told
      · rename_i own
        split at told
        · cases told
        · obtain ⟨more,shape,sub,each,all⟩ := ih _ told
          refine ⟨read.1 :: more,by simp [shape],?_,?_,?_⟩
          · rw [address]
            exact sub.cons_cons _
          · intro one member
            rcases List.mem_cons.mp member with rfl | member
            · exact ⟨_,_,address,stands,own.2⟩
            · exact each one member
          · intro record member held there mine issued
            rcases List.mem_cons.mp member with rfl | member
            · exact List.mem_cons.mpr (Or.inl address.symm)
            · exact List.mem_cons_of_mem _ (all record member held there mine issued)
      · rename_i other
        apply skip told
        intro held there mine issued
        cases Stands.unique kept there stands
        exact other ⟨mine,issued⟩

theorem replaceEach_extends (ask : Ask) (addresses : List FactAddress) (sound : Sound world.landed) (apart : addresses.Nodup)
    (each : ∀ address ∈ addresses, ∃ handle held, address = (handle,1) ∧ Stands world.records handle held ∧ held.state = .issued) :
    Extends makes world (replaceEach ask world addresses).world ∧
      ((replaceEach ask world addresses).told = .ok () → ∀ handle held,
        Stands (replaceEach ask world addresses).world.records handle held → held.state = .issued →
          Stands world.records handle held ∧ (handle,1) ∉ addresses) := by
  induction addresses generalizing world with
  | nil => exact ⟨.refl sound,fun _ handle held stands _ => ⟨stands,by simp⟩⟩
  | cons address rest ih =>
    obtain ⟨alone,others⟩ := List.nodup_cons.mp apart
    obtain ⟨handle,held,rfl,stands,issued⟩ := each address List.mem_cons_self
    have moves : Moves held [(STATE,ChallengeState.replaced.asToken)] { held with state := .replaced } :=
      .ended .replaced (by decide)
    have once : Extends makes world (writeChallenge (ask.ending (handle,1)) world (handle,1)
        [(STATE,ChallengeState.replaced.asToken)]).world := .moved sound (write_moved stands issued moves)
    dsimp only [replaceEach]
    split
    · refine ⟨once,?_⟩
      intro told
      cases told
    · rename_i told
      have landed : (writeChallenge (ask.ending (handle,1)) world (handle,1) [(STATE,ChallengeState.replaced.asToken)]).world =
          world.write (.set (handle,1) [(STATE,ChallengeState.replaced.asToken)]) := by
        simp only [writeChallenge,lands_of_told told,if_true]
      rw [landed] at once ⊢
      have records : (world.write (.set (handle,1) [(STATE,ChallengeState.replaced.asToken)])).records =
          Write.apply world.records (.set (handle,1) [(STATE,ChallengeState.replaced.asToken)]) := replayed_snoc
      have later : ∀ address ∈ rest, ∃ other its, address = (other,1) ∧
          Stands (world.write (.set (handle,1) [(STATE,ChallengeState.replaced.asToken)])).records other its ∧
            its.state = .issued := by
        intro address member
        obtain ⟨other,its,rfl,there,stillIssued⟩ := each address (List.mem_cons_of_mem _ member)
        refine ⟨other,its,rfl,?_,stillIssued⟩
        rw [records]
        refine (stands_set sound.kept stands moves).mpr (Or.inr ⟨?_,there⟩)
        intro same
        exact alone (same ▸ member)
      obtain ⟨extends',ends⟩ := ih once.sound others later
      refine ⟨once.trans extends',?_⟩
      intro done other its there stillIssued
      obtain ⟨was,notRest⟩ := ends done other its there stillIssued
      rw [records] at was
      rcases (stands_set sound.kept stands moves).mp was with ⟨_,rfl⟩ | ⟨apart',was⟩
      · cases stillIssued
      · refine ⟨was,?_⟩
        intro member
        rcases List.mem_cons.mp member with same | member
        · exact apart' (congrArg Prod.fst same)
        · exact notRest member

-- The record an ask makes: a challenge for its bot, with the hash of its own code.
def MadeBy (ask : Ask) (key : Outside.Key) (record : Record) : Prop :=
  ∃ challenge : Challenge, record = firstClaim record.id challenge.fields ∧ kindOf record.id = some CHALLENGE ∧
    challenge.codeHash = hashOfCode key ask.code

theorem makeChallenge_extends (ask : Ask) (sound : Sound world.landed)
    (none : ∀ handle held, Stands world.records handle held → held.bot = ask.bot → held.state ≠ .issued) :
    Extends (MadeBy ask world.key) world (makeChallenge ask world).world := by
  let made : Challenge :=
    { bot := ask.bot,codeHash := hashOfCode world.key ask.code,state := .issued,issuedAt := ask.now,wrongTries := 0 }
  have issued := issueEngineRecord_issued world CHALLENGE made.fields ask.draws (by decide)
  have grows : ∀ id, kindOf id = some CHALLENGE → id ∉ world.records.map (·.id) →
      ∀ after : World, after.key = world.key → after.landed = world.landed ++ [.made (firstClaim id made.fields)] →
        Extends (MadeBy ask world.key) world after ∧ Stands after.records id made := by
    intro id kind fresh after key landed
    have allowed : Allowed world.records (.made (firstClaim id made.fields)) := .asked id made kind fresh rfl rfl none
    have more : Sound after.landed := by
      rw [landed]
      exact sound.snoc allowed
    refine ⟨⟨more,key,_,landed,?_⟩,?_⟩
    · intro record member
      cases List.mem_singleton.mp member
      exact ⟨made,rfl,kind,rfl⟩
    · have records : after.records = Write.apply world.records (.made (firstClaim id made.fields)) := by
        unfold World.records standing
        rw [landed]
        exact replayed_snoc
      rw [records]
      exact stands_made.mpr (Or.inr ⟨kind,rfl,rfl⟩)
  have left : Extends (MadeBy ask world.key) world (issueEngineRecord world CHALLENGE made.fields ask.draws).world := by
    rcases issued.landed with same | ⟨id,kind,fresh,wrote⟩
    · rw [World.alike issued.key same]
      exact .refl sound
    · exact (grows id kind fresh _ issued.key wrote).1
  dsimp only [makeChallenge]
  split
  · exact left
  · rename_i handle told
    obtain ⟨kind,fresh,wrote⟩ := issued.told handle told
    obtain ⟨extends',stands⟩ := grows handle kind fresh _ issued.key wrote
    split
    · exact left
    · refine extends'.trans (.moved extends'.sound ?_)
      unfold voidUnsent
      split
      · rename_i read told'
        obtain ⟨address,there⟩ := read_stands extends'.sound.kept told'
        have same : read.2 = made := Stands.unique extends'.sound.kept there stands
        rw [address]
        exact write_moved there (congrArg Challenge.state same) (.ended .void (by decide))
      · exact Or.inl rfl

theorem askForCode_extends (ask : Ask) (sound : Sound world.landed) :
    Extends (MadeBy ask world.key) world (askForCode ask world).world := by
  unfold askForCode
  split
  · exact .refl sound
  · exact .refl sound
  · split
    · exact .refl sound
    · exact .refl sound
    · split
      · exact .refl sound
      · split
        · exact .refl sound
        · split
          · exact .refl sound
          · rename_i expired told
            rw [listed_all sound.kept] at told
            obtain ⟨more,shape,sub,each,all⟩ := pendingOrExpired_lists sound.kept ask _ _ _ told
            simp only [List.nil_append] at shape
            subst shape
            have ids : ((listEntities world.records CHALLENGE).map fun record => ((record.id,1) : FactAddress)).Nodup := by
              have once : ((listEntities world.records CHALLENGE).map (·.id)).Nodup :=
                sound.kept.once.sublist (List.filter_sublist.map _)
              have pairs := once.map fun one two (same : ((one,1) : FactAddress) = (two,1)) => congrArg Prod.fst same
              simpa [Function.comp_def] using pairs
            have replaced : Extends (MadeBy ask world.key) world (replaceEach ask world expired).world ∧ _ :=
              replaceEach_extends ask expired sound (sub.nodup ids) each
            obtain ⟨extends',ends⟩ := replaced
            dsimp only
            split
            · exact extends'
            · rename_i done
              have none : ∀ handle held, Stands (replaceEach ask world expired).world.records handle held →
                  held.bot = ask.bot → held.state ≠ .issued := by
                intro handle held stands own issued
                obtain ⟨was,absent⟩ := ends done handle held stands issued
                have listed : firstClaim handle held.fields ∈ listEntities world.records CHALLENGE :=
                  List.mem_filter.mpr ⟨was.2,decide_eq_true was.1⟩
                exact absent (all _ listed held was own issued)
              have made := makeChallenge_extends ask extends'.sound none
              rw [extends'.key] at made
              exact extends'.trans made

end Challenges
