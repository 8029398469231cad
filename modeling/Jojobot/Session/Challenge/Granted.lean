import Jojobot.Session.Challenge.Asked

namespace Challenges
open Library Memory Std

-- Whether a write sets the state of the challenge of this handle.
def Write.changesState (handle : EntityId) : Write → Bool
  | .made _ => false
  | .set address fields => address.1 = handle && (fields.map (·.1)).contains STATE

section
variable [Outside] {world start now : World} {handle : EntityId} {held : Challenge} {landed : List Write}
  {taken : List (World × Act)}

-- The challenge a handle reads as, where nothing fails.
def Reads (records : List Record) (handle : EntityId) (challenge : Challenge) : Prop :=
  kindOf handle = some CHALLENGE ∧ ∃ address, heldAt records handle = some (address,challenge)

-- The writes of a call that landed.
def wrote (one : World × Act) : List Write := (one.2.next one.1).landed.drop one.1.landed.length

def Grants (one : World × Act) (handle : EntityId) : Prop :=
  ∃ present, one.2 = .present present ∧ trim present.reference = handle ∧ (wrote one).any (·.vouches)

variable [lawful : Lawful]

theorem reads_iff {records : List Record} (kept : Kept records) : Reads records handle held ↔ Stands records handle held := by
  constructor
  · intro reads
    obtain ⟨kind,address,there⟩ := reads
    exact ((heldAt_iff kept kind).mp there).2
  · intro stands
    exact ⟨stands.1,_,(heldAt_iff kept stands.1).mpr ⟨rfl,stands⟩⟩

theorem present_cases (sound : Sound world.landed) (present : Present) :
    Extends (fun _ => False) world (presentCode present world).world ∨
    ∃ verified held record voucher, Checked present world verified held ∧ record = firstClaim record.id (Voucher.fields voucher) ∧
      kindOf record.id = some VOUCHER ∧ voucher.target = held.bot ∧ Sound (presentCode present world).world.landed ∧
      (presentCode present world).world.landed =
        world.landed ++ [.set (verified.handle,1) [(STATE,ChallengeState.redeemed.asToken)],.made record] := by
  dsimp only [presentCode]
  rcases verify_cases sound.kept present with ⟨verified,held,shape,checked⟩ | ⟨answer,told,moved⟩
  · rw [shape]
    dsimp only
    split
    · exact Or.inl (.refl sound)
    · rename_i run _
      have allowed : Allowed (standing world.landed) (.set (verified.handle,1) [(STATE,ChallengeState.redeemed.asToken)]) :=
        .moved _ held _ _ checked.stands checked.issued (.ended .redeemed (by decide))
      have moved : Sound (world.landed ++ [.set (verified.handle,1) [(STATE,ChallengeState.redeemed.asToken)]]) :=
        sound.snoc allowed
      have spent : Spent verified run world (redeemCode present.boot world verified run).world :=
        redeem_spent present.boot verified run
      generalize (redeemCode present.boot world verified run).world = after at spent ⊢
      cases spent with
      | not => exact Or.inl (.refl sound)
      | redeemed =>
        rw [checked.address]
        exact Or.inl ⟨moved,rfl,_,rfl,by simp⟩
      | vouched operator id after kind fresh key landed =>
        rw [checked.address] at landed fresh
        refine Or.inr ⟨verified,held,_,_,checked,rfl,kind,checked.bot.2,?_,landed⟩
        rw [landed,List.append_cons]
        exact moved.snoc (.vouched id _ kind fresh)
  · rw [told]
    exact Or.inl (.moved sound moved)

theorem act_appends (sound : Sound world.landed) (act : Act) :
    Sound (act.next world).landed ∧ (act.next world).landed = world.landed ++ wrote (world,act) := by
  have tail : ∀ more : List Write, (act.next world).landed = world.landed ++ more → wrote (world,act) = more := by
    intro more shape
    simp [wrote,shape]
  cases act with
  | ask asking =>
    obtain ⟨later,_,more,shape,_⟩ := askForCode_extends asking sound
    exact ⟨later,shape.trans (congrArg _ (tail more shape).symm)⟩
  | present presenting =>
    rcases present_cases sound presenting with ⟨later,_,more,shape,_⟩ | ⟨_,_,_,_,_,_,_,_,later,shape⟩
    · exact ⟨later,shape.trans (congrArg _ (tail more shape).symm)⟩
    · exact ⟨later,shape.trans (congrArg _ (tail _ shape).symm)⟩
  | restart drawn => exact ⟨sound,by simp [Act.next,wrote]⟩

theorem run_sound (first : start.landed = []) (run : Run Step start taken now) :
    Sound now.landed ∧ ∀ one ∈ taken, Sound one.1.landed := by
  induction run with
  | start => exact ⟨first ▸ .nil,by simp⟩
  | @step taken before after act _ took ih =>
    refine ⟨took ▸ (act_appends ih.1 act).1,?_⟩
    intro one member
    rcases List.mem_append.mp member with old | new
    · exact ih.2 one old
    · cases List.mem_singleton.mp new
      exact ih.1

theorem landed_grows (first : start.landed = []) (run : Run Step start taken now) : ∀ one ∈ taken, one.1.landed <+: now.landed := by
  induction run with
  | start => simp
  | @step taken before after act earlier took ih =>
    have grown := (act_appends (run_sound first earlier).1 act).2
    intro one member
    rw [took,grown]
    rcases List.mem_append.mp member with old | new
    · exact (ih one old).trans (List.prefix_append _ _)
    · cases List.mem_singleton.mp new
      exact List.prefix_append _ _

-- A record of a kind a call makes was made by that call.
theorem call_made {act : Act} {record : Record} (sound : Sound world.landed) (made : .made record ∈ wrote (world,act)) :
    (∃ ask, act = .ask ask ∧ MadeBy ask world.key record) ∨ kindOf record.id = some VOUCHER := by
  have same := (act_appends sound act).2
  cases act with
  | ask asking =>
    obtain ⟨_,_,more,shape,makes⟩ := askForCode_extends asking sound
    have own : wrote (world,.ask asking) = more := List.append_cancel_left (same.symm.trans shape)
    exact Or.inl ⟨asking,rfl,makes record (own ▸ made)⟩
  | present presenting =>
    rcases present_cases sound presenting with ⟨_,_,more,shape,makes⟩ | ⟨verified,held,voucher,fields,_,_,kind,_,_,shape⟩
    · have own : wrote (world,.present presenting) = more := List.append_cancel_left (same.symm.trans shape)
      exact absurd (own ▸ made) (makes record)
    · have own := List.append_cancel_left (same.symm.trans shape)
      rw [own] at made
      simp only [List.mem_cons,reduceCtorEq,Write.made.injEq,List.not_mem_nil,or_false,false_or] at made
      subst made
      exact Or.inr kind
  | restart drawn => simp [wrote,Act.next] at made

-- Every challenge that stands was made by an ask, with the hash of the code it drew.
theorem made_by_an_ask (first : start.landed = []) (run : Run Step start taken now) {record : Record}
    (made : .made record ∈ now.landed) (kind : kindOf record.id = some CHALLENGE) :
    ∃ one ∈ taken, ∃ ask, one.2 = .ask ask ∧ .made record ∈ wrote one ∧ MadeBy ask one.1.key record := by
  induction run with
  | start => simp [first] at made
  | @step taken before after act earlier took ih =>
    have sound := (run_sound first earlier).1
    rw [took,(act_appends sound act).2] at made
    rcases List.mem_append.mp made with old | new
    · obtain ⟨one,member,found⟩ := ih old
      exact ⟨one,List.mem_append_left _ member,found⟩
    · refine ⟨(before,act),List.mem_append_right _ (List.mem_singleton.mpr rfl),?_⟩
      rcases call_made sound new with ⟨ask,rfl,by_⟩ | voucher
      · exact ⟨ask,rfl,new,by_⟩
      · rw [voucher] at kind
        exact absurd kind (by decide)

theorem stands_made_once (sound : Sound landed) (stands : Stands (standing landed) handle held) :
    ∃ first : Challenge, .made (firstClaim handle first.fields) ∈ landed ∧ first.codeHash = held.codeHash := by
  induction sound generalizing held with
  | nil => exact absurd stands.2 List.not_mem_nil
  | @snoc log entry earlier allowed ih =>
    have kept : Kept (standing log) := Sound.kept earlier
    unfold standing at stands
    rw [replayed_snoc] at stands
    have before : ∀ held, Stands (standing log) handle held → ∃ first : Challenge,
        .made (firstClaim handle first.fields) ∈ log ++ [entry] ∧ first.codeHash = held.codeHash := by
      intro held old
      obtain ⟨first,made,same⟩ := ih old
      exact ⟨first,List.mem_append_left _ made,same⟩
    cases allowed with
    | asked made challenge kind fresh issued untried none =>
      rcases stands_made.mp stands with old | ⟨_,rfl,new⟩
      · exact before held old
      · cases fields_inj new
        exact ⟨held,by simp,rfl⟩
    | vouched id fields kind fresh =>
      rcases stands_made.mp stands with old | ⟨named,rfl,_⟩
      · exact before held old
      · rw [kind] at named
        exact absurd named (by decide)
    | moved moving was after patch there issued moves =>
      rcases (stands_set kept there moves).mp stands with ⟨rfl,rfl⟩ | ⟨_,old⟩
      · obtain ⟨first,made,same⟩ := before was there
        exact ⟨first,made,same.trans moves.frame.2.1.symm⟩
      · exact before held old

omit lawful in
theorem changes_held {records : List Record} {write : Write} (allowed : Allowed records write)
    (changes : write.changesState handle = true) : ∃ held after patch, write = .set (handle,1) patch ∧
      Stands records handle held ∧ held.state = .issued ∧ Moves held patch after ∧ after.state ≠ .issued := by
  cases allowed with
  | asked made challenge kind fresh issued untried none => cases changes
  | vouched id fields kind fresh => cases changes
  | moved moving was after patch there issued moves =>
    simp only [Write.changesState,Bool.and_eq_true,decide_eq_true_eq] at changes
    obtain ⟨rfl,names⟩ := changes
    refine ⟨was,after,patch,rfl,there,issued,moves,?_⟩
    cases moves with
    | counted _ =>
      have none : ([WRONG_TRIES] : List Text).contains STATE = false := by decide
      simp only [List.map_cons,List.map_nil,none] at names
      cases names
    | voided => simp
    | ended state other => exact other

theorem changed_once (sound : Sound landed) (handle : EntityId) : landed.countP (·.changesState handle) = 0 ∨
    (landed.countP (·.changesState handle) = 1 ∧ ∃ held, Stands (standing landed) handle held ∧ held.state ≠ .issued) := by
  induction sound with
  | nil => exact Or.inl rfl
  | @snoc log entry earlier allowed ih =>
    have kept : Kept (standing log) := Sound.kept earlier
    rw [List.countP_append,List.countP_singleton]
    cases changes : entry.changesState handle with
    | false =>
      rcases ih with none | ⟨one,held,stands,over'⟩
      · exact Or.inl (by simp [none])
      · refine Or.inr ⟨by simp [one],held,?_,over'⟩
        unfold standing
        rw [replayed_snoc]
        exact stands.ended kept allowed over'
    | true =>
      obtain ⟨held,after,patch,rfl,there,issued,moves,over'⟩ := changes_held allowed changes
      rcases ih with none | ⟨_,other,stands,ended⟩
      · refine Or.inr ⟨by simp [none],after,?_,over'⟩
        unfold standing
        rw [replayed_snoc]
        exact (stands_set kept there moves).mpr (Or.inl ⟨rfl,rfl⟩)
      · cases Stands.unique kept stands there
        exact absurd issued ended

-- The call that lands a voucher, and what it found.
theorem grants_found {one : World × Act} (sound : Sound one.1.landed) {record : Record}
    (made : .made record ∈ wrote one) (kind : kindOf record.id = some VOUCHER) :
    ∃ present verified held voucher, one.2 = .present present ∧ Checked present one.1 verified held ∧
      record = firstClaim record.id (Voucher.fields voucher) ∧ voucher.target = held.bot ∧
      wrote one = [.set (verified.handle,1) [(STATE,ChallengeState.redeemed.asToken)],.made record] := by
  obtain ⟨world,act⟩ := one
  have same := (act_appends sound act).2
  cases act with
  | ask asking =>
    rcases call_made sound made with ⟨_,_,_,_,named,_⟩ | _
    · rw [named] at kind
      exact absurd kind (by decide)
    · obtain ⟨_,_,more,shape,makes⟩ := askForCode_extends asking sound
      have own : wrote (world,.ask asking) = more := List.append_cancel_left (same.symm.trans shape)
      obtain ⟨_,_,named,_⟩ := makes record (own ▸ made)
      rw [named] at kind
      exact absurd kind (by decide)
  | present presenting =>
    rcases present_cases sound presenting with ⟨_,_,more,shape,makes⟩ | ⟨verified,held,voucher,fields,checked,whole,_,target,_,shape⟩
    · have own : wrote (world,.present presenting) = more := List.append_cancel_left (same.symm.trans shape)
      exact absurd (own ▸ made) (makes record)
    · have own := List.append_cancel_left (same.symm.trans shape)
      have here := made
      rw [own] at here
      simp only [List.mem_cons,reduceCtorEq,Write.made.injEq,List.not_mem_nil,or_false,false_or] at here
      subst here
      exact ⟨presenting,verified,held,fields,rfl,checked,whole,target,own⟩
  | restart drawn => simp [wrote,Act.next] at made

theorem grants_record {one : World × Act} (sound : Sound one.1.landed) (grants : Grants one handle) :
    ∃ held, Stands one.1.records handle held ∧ held.state = .issued ∧
      ∃ after, Stands (one.2.next one.1).records handle after ∧ after.state ≠ .issued := by
  obtain ⟨present,shape,reference,vouched⟩ := grants
  obtain ⟨write,member,vouches⟩ := List.any_eq_true.mp vouched
  cases write with
  | set address fields => cases vouches
  | made record =>
    obtain ⟨presenting,verified,held,voucher,own,checked,_,_,all⟩ := grants_found sound member (of_decide_eq_true vouches)
    cases shape.symm.trans own
    have named : verified.handle = handle := checked.handle.trans reference
    subst named
    have allowed : Allowed (standing one.1.landed) (.set (verified.handle,1) [(STATE,ChallengeState.redeemed.asToken)]) :=
      .moved _ held _ _ checked.stands checked.issued (.ended .redeemed (by decide))
    have grown := act_appends sound one.2
    rw [all] at grown
    have whole := grown.1
    rw [grown.2,List.append_cons] at whole
    refine ⟨held,checked.stands,checked.issued,{ held with state := .redeemed },?_,by simp⟩
    unfold World.records
    rw [grown.2,List.append_cons]
    refine whole.stays_ended ?_ (by simp)
    unfold standing
    rw [replayed_snoc]
    exact (stands_set sound.kept checked.stands (.ended .redeemed (by decide))).mpr (Or.inl ⟨rfl,rfl⟩)

-- Whatever a code was granted for stays ended.
theorem granted_ends (first : start.landed = []) (run : Run Step start taken now) : ∀ one ∈ taken, ∀ handle, Grants one handle →
    ∃ held, Stands now.records handle held ∧ held.state ≠ .issued := by
  induction run with
  | start => simp
  | @step taken before after act earlier took ih =>
    have sound := (run_sound first earlier).1
    intro one member handle grants
    rcases List.mem_append.mp member with old | new
    · obtain ⟨held,stands,ended⟩ := ih one old handle grants
      have grown := act_appends sound act
      refine ⟨held,?_,ended⟩
      rw [took]
      unfold World.records
      rw [grown.2]
      exact Sound.stays_ended (grown.2 ▸ grown.1) stands ended
    · cases List.mem_singleton.mp new
      obtain ⟨_,_,_,held,stands,ended⟩ := grants_record sound grants
      exact ⟨held,took ▸ stands,ended⟩

theorem granted_apart (first : start.landed = []) (run : Run Step start taken now) (handle : EntityId) :
    taken.Pairwise fun one two => ¬ (Grants one handle ∧ Grants two handle) := by
  induction run with
  | start => exact .nil
  | @step taken before after act earlier took ih =>
    have sound := (run_sound first earlier).1
    refine List.pairwise_append.mpr ⟨ih,List.pairwise_singleton _ _,?_⟩
    intro one member two last both
    cases List.mem_singleton.mp last
    obtain ⟨held,stands,ended⟩ := granted_ends first earlier one member handle both.1
    obtain ⟨again,there,issued,_⟩ := grants_record sound both.2
    cases Stands.unique sound.kept stands there
    exact ended issued

theorem a_code_grants_at_most_one_voucher (first : start.landed = []) (run : Run Step start taken now) :
    (∀ before after, now.landed = before ++ after → ∀ one two (held other : Challenge),
      Reads (standing before) one held → Reads (standing before) two other →
        held.state = .issued → other.state = .issued → held.bot = other.bot → one = two) ∧
    (∀ handle, now.landed.countP (·.changesState handle) ≤ 1) ∧
    (∀ before write after, now.landed = before ++ write :: after → ∀ handle, write.changesState handle = true →
      ∃ held, Reads (standing before) handle held ∧ held.state = .issued) ∧
    (∀ one ∈ taken, (wrote one).countP (·.vouches) ≤ 1) ∧
    (∀ handle, taken.Pairwise fun one two => ¬ (Grants one handle ∧ Grants two handle)) ∧
    ∀ one ∈ taken, ∀ record, .made record ∈ wrote one → kindOf record.id = some VOUCHER →
      ∃ present held voucher, one.2 = .present present ∧ Reads one.1.records (trim present.reference) held ∧
        record = firstClaim record.id (Voucher.fields voucher) ∧ voucher.target = held.bot ∧ present.bot = held.bot ∧
        held.state = .issued ∧ held.wrongTries < MAX_WRONG ∧ present.now - held.issuedAt ≤ WINDOW ∧
        wrote one = [.set (trim present.reference,1) [(STATE,ChallengeState.redeemed.asToken)],.made record] ∧
        ∃ asked ∈ taken, ∃ ask, asked.2 = .ask ask ∧ normal ask.code = normal present.code ∧
          ∃ made, .made made ∈ wrote asked ∧ made.id = trim present.reference := by
  have sound := run_sound first run
  refine ⟨?_,?_,?_,?_,granted_apart first run,?_⟩
  · intro before after shape one two held other reads there issued issued' same
    have kept := Sound.kept (shape ▸ sound.1 : Sound (before ++ after)).left
    exact kept.alone one two held other ((reads_iff kept).mp reads) ((reads_iff kept).mp there) issued issued' same
  · intro handle
    rcases changed_once sound.1 handle with none | ⟨one,_⟩
    · omega
    · omega
  · intro before write after shape handle changes
    have whole : Sound (before ++ write :: after) := shape ▸ sound.1
    obtain ⟨held,_,_,_,there,issued,_⟩ := changes_held whole.there changes
    exact ⟨held,(reads_iff (Sound.kept whole.left)).mpr there,issued⟩
  · intro one member
    cases none : (wrote one).any (·.vouches) with
    | false =>
      have zero : (wrote one).countP (·.vouches) = 0 := List.countP_eq_zero.mpr (by simpa using none)
      omega
    | true =>
      obtain ⟨write,here,vouches⟩ := List.any_eq_true.mp none
      cases write with
      | set address fields => cases vouches
      | made record =>
        obtain ⟨_,_,_,_,_,_,_,_,all⟩ := grants_found (sound.2 one member) here (of_decide_eq_true vouches)
        rw [all]
        simp only [List.countP_cons,List.countP_nil,Write.vouches]
        split <;> simp
  · intro one member record made kind
    have here := sound.2 one member
    obtain ⟨present,verified,held,voucher,own,checked,shape,target,all⟩ := grants_found here made kind
    have stands := checked.stands
    rw [checked.handle] at stands all
    obtain ⟨was,wasMade,sameHash⟩ := stands_made_once here stands
    obtain ⟨more,grown⟩ := landed_grows first run one member
    have still : .made (firstClaim (trim present.reference) was.fields) ∈ now.landed := by
      rw [← grown]
      exact List.mem_append_left _ wasMade
    obtain ⟨asked,listed,ask,asks,madeThere,drawn,madeShape,_,drawnHash⟩ := made_by_an_ask first run still stands.1
    have inits := fields_inj (firstClaim_inj madeShape)
    have code : hashOfCode one.1.key present.code = hashOfCode asked.1.key ask.code := by
      rw [checked.code,← sameHash,inits,drawnHash]
    refine ⟨present,held,voucher,own,(reads_iff here.kept).mpr stands,shape,target,checked.bot.1.symm,checked.issued,
      (here.kept.bounded stands).2 checked.issued,checked.inside,all,asked,listed,ask,asks,?_,_,madeThere,rfl⟩
    exact lawful.apart code.symm

end

-- A hash that keeps its code apart from every other, and moments as whole numbers.
@[reducible] def plainOutside : Outside where
  Key := Unit
  hash _ code := code
  lower code := code.map Char.toLower
  shown := printInt
  readMoment := readInt

theorem plainOutside_lawful : @Lawful plainOutside := @Lawful.mk plainOutside id readInt_printInt

def asking : Ask where
  bot := "bot:gamma".toList
  operator := .ok (some "person:otto".toList)
  known := .ok true
  mailbox := .ok "otto".toList
  now := 0
  unlisted := none
  unread _ := none
  ending _ := .written
  code := "abcd".toList
  draws := [⟨"one".toList,.taken .behind,.taken .written⟩]
  sent := true
  unreadAfter := none
  voiding := .written

def presenting : Present where
  bot := "bot:gamma".toList
  reference := " challenge:one".toList
  code := "ABCD ".toList
  unread := none
  now := WINDOW
  counting := .written
  boot := ⟨some "run".toList,.ok (some "person:otto".toList),none,.behind,[⟨"two".toList,.taken (.lost []),.taken .written⟩]⟩

def asked : @World plainOutside := @Act.next plainOutside (@Act.ask plainOutside asking) (@World.mk plainOutside () [])

theorem one_voucher_of_a_lost_answer :
    (@wrote plainOutside (asked,@Act.present plainOutside presenting)).any (·.vouches) = true ∧
      (@wrote plainOutside (asked,@Act.present plainOutside presenting)).countP (·.vouches) ≤ 1 := by
  refine ⟨by decide +kernel,?_⟩
  have first : @Step plainOutside (@World.mk plainOutside () []) (@Act.ask plainOutside asking) asked := rfl
  have second : @Step plainOutside asked (@Act.present plainOutside presenting) (@Act.next plainOutside (@Act.present plainOutside presenting) asked) := rfl
  have all := @a_code_grants_at_most_one_voucher plainOutside _ _ _ plainOutside_lawful rfl (.step (.step .start first) second)
  exact all.2.2.2.1 (asked,@Act.present plainOutside presenting) (by simp)

end Challenges
