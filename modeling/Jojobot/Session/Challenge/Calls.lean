import Jojobot.Session.Challenge.Moved

namespace Challenges
open Library Memory Std

theorem same_sound {a b : Text} (alike : same a b = true) : a = b := by
  have folded : ∀ (pairs : List (Char × Char)) (start : Nat),
      pairs.foldl (fun different pair => different ||| (pair.1.toNat ^^^ pair.2.toNat)) start = 0 →
        start = 0 ∧ ∀ pair ∈ pairs, pair.1 = pair.2 := by
    intro pairs
    induction pairs with
    | nil => exact fun start zero => ⟨zero,by simp⟩
    | cons pair rest ih =>
      intro start zero
      obtain ⟨here,later⟩ := ih _ zero
      obtain ⟨first,second⟩ := Nat.or_eq_zero_iff.mp here
      refine ⟨first,?_⟩
      intro other member
      rcases List.mem_cons.mp member with rfl | member
      · have back := congrArg (· ^^^ other.2.toNat) second
        simp only [Nat.xor_assoc,Nat.xor_self,Nat.xor_zero,Nat.zero_xor] at back
        exact Char.toNat_inj.mp back
      · exact later other member
  simp only [same,Bool.and_eq_true,beq_iff_eq] at alike
  obtain ⟨length,zero⟩ := alike
  have pairs := (folded _ _ zero).2
  apply List.ext_getElem length
  intro n inA inB
  exact pairs (a[n],b[n]) (List.mem_iff_getElem.mpr ⟨n,by simp; omega,by simp⟩)

theorem kindOf_made {kind slug : Text} (plain : ':' ∉ kind) : kindOf (kind ++ ':' :: slug) = some kind := by
  have taken : (kind ++ ':' :: slug).takeWhile (· ≠ ':') = kind := by
    rw [List.takeWhile_append_of_pos]
    · simp
    · intro c member
      apply decide_eq_true
      intro same
      exact plain (same ▸ member)
  unfold kindOf
  rw [taken,if_pos (by simp)]

def Write.vouches : Write → Bool
  | .made record => kindOf record.id = some VOUCHER
  | .set _ _ => false

theorem lands_of_told {landing : Landing} (told : landing.told = .ok ()) : landing.lands = true := by
  cases landing <;> first | rfl | cases told

variable {held : Challenge}

theorem granted_stands {now : Int} {code : Bool} (granted : decideRedemption held now code = .granted) :
    held.state = .issued ∧ now - held.issuedAt ≤ WINDOW ∧ code = true := by
  unfold decideRedemption at granted
  split at granted
  · cases granted
  · cases granted
  · cases granted
  · rename_i issued
    split at granted
    · cases granted
    · rename_i inside
      split at granted
      · rename_i right
        exact ⟨issued,Int.not_lt.mp inside,right⟩
      · cases granted

theorem wrong_stands {now : Int} {code void : Bool} (wrong : decideRedemption held now code = .wrongCode void) :
    held.state = .issued ∧ void = decide (held.wrongTries + 1 ≥ MAX_WRONG) := by
  unfold decideRedemption at wrong
  split at wrong
  · cases wrong
  · cases wrong
  · cases wrong
  · rename_i issued
    split at wrong
    · cases wrong
    · split at wrong
      · cases wrong
      · cases wrong
        exact ⟨issued,rfl⟩

variable [Outside] {world after : World} {fields : Fields} {kind : Text} {id : EntityId}

-- What a creation leaves: nothing, or the one record, under a handle that was free.
structure Issued (world : World) (kind : Text) (fields : Fields) (done : Done (Except Text EntityId)) : Prop where
  key : done.world.key = world.key
  landed : done.world.landed = world.landed ∨ ∃ id, kindOf id = some kind ∧ id ∉ world.records.map (·.id) ∧
    done.world.landed = world.landed ++ [.made (firstClaim id fields)]
  told : ∀ id, done.told = .ok id → kindOf id = some kind ∧ id ∉ world.records.map (·.id) ∧
    done.world.landed = world.landed ++ [.made (firstClaim id fields)]

theorem attempt_cases (attempt : Attempt) :
    ((addEntityWithFirstClaim world id fields attempt).world = world ∧
      (addEntityWithFirstClaim world id fields attempt).told ≠ .ok .written) ∨
    (id ∉ world.records.map (·.id) ∧
      (addEntityWithFirstClaim world id fields attempt).world = world.write (.made (firstClaim id fields)) ∧
      ∀ attempted, (addEntityWithFirstClaim world id fields attempt).told ≠ .ok (.blocked attempted)) := by
  cases attempt with
  | blocked attempted =>
    refine Or.inl ⟨rfl,?_⟩
    intro told
    cases told
  | taken landing =>
    unfold addEntityWithFirstClaim
    by_cases there : world.records.any (·.id = id)
    · simp only [there,if_true]
      refine Or.inl ⟨trivial,?_⟩
      intro told
      cases told
    · have fresh : id ∉ world.records.map (·.id) := by simpa using there
      simp only [there]
      cases landed : landing.lands with
      | true =>
        refine Or.inr ⟨fresh,rfl,?_⟩
        intro attempted told
        cases landing <;> cases told
      | false =>
        refine Or.inl ⟨rfl,?_⟩
        intro told
        cases landing with
        | failed why => cases told
        | written => cases landed
        | behind => cases landed
        | lost why => cases landed

theorem issueDrawn_issued (plain : ':' ∉ kind) (draws : List Draw) : Issued world kind fields (issueDrawn world kind fields draws) := by
  induction draws with
  | nil =>
    refine ⟨rfl,Or.inl rfl,?_⟩
    intro _ told
    cases told
  | cons draw rest ih =>
    have named : kindOf (kind ++ ':' :: draw.slug) = some kind := kindOf_made plain
    have once : ∀ attempt, (addEntityWithFirstClaim world (kind ++ ':' :: draw.slug) fields attempt).told = .ok .written →
        kindOf (kind ++ ':' :: draw.slug) = some kind ∧ (kind ++ ':' :: draw.slug) ∉ world.records.map (·.id) ∧
          (addEntityWithFirstClaim world (kind ++ ':' :: draw.slug) fields attempt).world.landed =
            world.landed ++ [.made (firstClaim (kind ++ ':' :: draw.slug) fields)] := by
      intro attempt told
      rcases attempt_cases attempt with ⟨_,unwritten⟩ | ⟨fresh,wrote,_⟩
      · exact absurd told unwritten
      · exact ⟨named,fresh,by rw [wrote]; rfl⟩
    have frame : ∀ attempt, (addEntityWithFirstClaim world (kind ++ ':' :: draw.slug) fields attempt).world.key = world.key ∧
        ((addEntityWithFirstClaim world (kind ++ ':' :: draw.slug) fields attempt).world.landed = world.landed ∨
          ∃ id, kindOf id = some kind ∧ id ∉ world.records.map (·.id) ∧
            (addEntityWithFirstClaim world (kind ++ ':' :: draw.slug) fields attempt).world.landed =
              world.landed ++ [.made (firstClaim id fields)]) := by
      intro attempt
      rcases attempt_cases attempt with ⟨same,_⟩ | ⟨fresh,wrote,_⟩
      · rw [same]
        exact ⟨rfl,Or.inl rfl⟩
      · rw [wrote]
        exact ⟨rfl,Or.inr ⟨_,named,fresh,rfl⟩⟩
    have blocked : ∀ attempt attempted,
        (addEntityWithFirstClaim world (kind ++ ':' :: draw.slug) fields attempt).told = .ok (.blocked attempted) →
          (addEntityWithFirstClaim world (kind ++ ':' :: draw.slug) fields attempt).world = world := by
      intro attempt attempted told
      rcases attempt_cases attempt with ⟨same,_⟩ | ⟨_,_,unblocked⟩
      · exact same
      · exact absurd told (unblocked attempted)
    dsimp only [issueDrawn]
    split
    · exact ⟨(frame _).1,(frame _).2,fun _ told => by cases told⟩
    · rename_i told
      refine ⟨(frame _).1,(frame _).2,?_⟩
      intro id same
      cases same
      exact once _ told
    · rename_i attempted told
      split
      · exact ⟨(frame _).1,(frame _).2,fun _ told => by cases told⟩
      · rw [blocked _ _ told]
        split
        · exact ⟨(frame _).1,(frame _).2,fun _ told => by cases told⟩
        · rename_i forced
          refine ⟨(frame _).1,(frame _).2,?_⟩
          intro id same
          cases same
          exact once _ forced
        · rename_i again forced
          rw [blocked _ _ forced]
          exact ih

theorem issueEngineRecord_issued (world : World) (kind : Text) (fields : Fields) (draws : List Draw) (plain : ':' ∉ kind) :
    Issued world kind fields (issueEngineRecord world kind fields draws) := issueDrawn_issued plain _

theorem World.alike (key : after.key = world.key) (landed : after.landed = world.landed) : after = world := by
  cases after
  cases world
  cases key
  cases landed
  rfl

variable {present : Present} {verified : Verified} {handle : EntityId} {read : FactAddress × Challenge}

variable [lawful : Lawful]

theorem read_stands {unread : Option Text} (kept : Kept world.records)
    (told : readChallenge unread world handle = .ok (some read)) : read.1 = (handle,1) ∧ Stands world.records handle read.2 := by
  unfold readChallenge at told
  split at told
  · cases told
  · rename_i kind
    split at told
    · cases told
    · exact (heldAt_iff kept (not_ne_iff.mp kind)).mp (Except.ok.inj told)

-- A code that was checked and matched.
structure Checked (present : Present) (world : World) (verified : Verified) (held : Challenge) : Prop where
  handle : verified.handle = trim present.reference
  address : verified.address = (verified.handle,1)
  stands : Stands world.records verified.handle held
  issued : held.state = .issued
  bot : held.bot = present.bot ∧ verified.bot = held.bot
  inside : present.now - held.issuedAt ≤ WINDOW
  code : hashOfCode world.key present.code = held.codeHash

-- A store that did not move, or in which one challenge that stood issued did.
def MovedOnce (world after : World) : Prop :=
  after = world ∨ ∃ handle held moved patch, Stands world.records handle held ∧ held.state = .issued ∧
    Moves held patch moved ∧ after = world.write (.set (handle,1) patch)

omit lawful in
theorem write_moved {landing : Landing} {moved : Challenge} {patch : List (Text × Text)}
    (stands : Stands world.records handle held) (issued : held.state = .issued) (moves : Moves held patch moved) :
    MovedOnce world (writeChallenge landing world (handle,1) patch).world := by
  unfold writeChallenge
  dsimp only
  split
  · exact Or.inr ⟨handle,held,moved,patch,stands,issued,moves,rfl⟩
  · exact Or.inl rfl

theorem verify_cases (kept : Kept world.records) (present : Present) :
    (∃ verified held, verifyCode present world = ⟨world,.ok verified⟩ ∧ Checked present world verified held) ∨
    ∃ answer, (verifyCode present world).told = .error answer ∧ MovedOnce world (verifyCode present world).world := by
  dsimp only [verifyCode]
  split
  · exact Or.inr ⟨_,rfl,Or.inl rfl⟩
  · exact Or.inr ⟨_,rfl,Or.inl rfl⟩
  · rename_i read told
    obtain ⟨address,stands⟩ := read_stands kept told
    split
    · exact Or.inr ⟨_,rfl,Or.inl rfl⟩
    · rename_i own
      split
      · rename_i granted
        obtain ⟨issued,inside,right⟩ := granted_stands granted
        exact Or.inl ⟨_,read.2,rfl,rfl,address,stands,issued,⟨not_ne_iff.mp own,rfl⟩,inside,same_sound right⟩
      · rename_i void wrong
        obtain ⟨issued,voids⟩ := wrong_stands wrong
        have moved : MovedOnce world (writeChallenge present.counting world read.1
            ((WRONG_TRIES,printNat (read.2.wrongTries + 1)) :: if void then [(STATE,ChallengeState.void.asToken)] else [])).world := by
          rw [address]
          cases last : void with
          | true => exact write_moved stands issued .voided
          | false =>
            rw [last] at voids
            exact write_moved stands issued (.counted (Nat.not_le.mp (of_decide_eq_false voids.symm)))
        split
        · exact Or.inr ⟨_,rfl,moved⟩
        · exact Or.inr ⟨_,rfl,moved⟩
      · exact Or.inr ⟨_,rfl,Or.inl rfl⟩
      · exact Or.inr ⟨_,rfl,Or.inl rfl⟩
      · exact Or.inr ⟨_,rfl,Or.inl rfl⟩
      · exact Or.inr ⟨_,rfl,Or.inl rfl⟩

-- What a spend leaves: nothing, the challenge redeemed, or its voucher behind that.
inductive Spent (verified : Verified) (run : Text) (world : World) : World → Prop where
  | not : Spent verified run world world
  | redeemed : Spent verified run world (world.write (.set verified.address [(STATE,ChallengeState.redeemed.asToken)]))
  | vouched (operator id : EntityId) (after : World) : kindOf id = some VOUCHER →
      id ∉ (standing (world.landed ++ [.set verified.address [(STATE,ChallengeState.redeemed.asToken)]])).map (·.id) →
      after.key = world.key → after.landed = world.landed ++ [.set verified.address [(STATE,ChallengeState.redeemed.asToken)],
        .made (firstClaim id (voucherFor verified run operator).fields)] → Spent verified run world after

omit lawful in
theorem redeem_spent (boot : Boot) (verified : Verified) (run : Text) :
    Spent verified run world (redeemCode boot world verified run).world := by
  unfold redeemCode
  split
  · exact .not
  · exact .not
  · rename_i operator _
    split
    · exact .not
    · split
      · exact .not
      · dsimp only
        split
        · dsimp only [writeChallenge]
          split
          · exact .redeemed
          · exact .not
        · rename_i told
          have landed : (writeChallenge boot.spending world verified.address [(STATE,ChallengeState.redeemed.asToken)]).world =
              world.write (.set verified.address [(STATE,ChallengeState.redeemed.asToken)]) := by
            simp only [writeChallenge,lands_of_told told,if_true]
          rw [landed]
          have issued := issueEngineRecord_issued (world.write (.set verified.address
            [(STATE,ChallengeState.redeemed.asToken)])) VOUCHER (voucherFor verified run operator).fields boot.draws (by decide)
          rcases issued.landed with same | ⟨id,kind,fresh,wrote⟩
          · rw [World.alike issued.key same]
            exact .redeemed
          · refine .vouched operator id _ kind fresh issued.key ?_
            rw [wrote]
            simp [World.write]

end Challenges
