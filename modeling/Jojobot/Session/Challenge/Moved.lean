import Jojobot.Session.Challenge.Standing

namespace Challenges
open Library Memory Std

-- What one write can do to a challenge that stands: count a wrong code, count the
-- one that voids it, or end it in another state.
inductive Moves (held : Challenge) : List (Text × Text) → Challenge → Prop where
  | counted : held.wrongTries + 1 < MAX_WRONG →
      Moves held [(WRONG_TRIES,printNat (held.wrongTries + 1))] { held with wrongTries := held.wrongTries + 1 }
  | voided : Moves held [(WRONG_TRIES,printNat (held.wrongTries + 1)),(STATE,ChallengeState.void.asToken)]
      { held with wrongTries := held.wrongTries + 1,state := .void }
  | ended (state : ChallengeState) : state ≠ .issued → Moves held [(STATE,state.asToken)] { held with state }

variable {handle other : EntityId} {held after : Challenge} {fields : Fields} {patch : List (Text × Text)}

theorem Moves.frame (moves : Moves held patch after) :
    after.bot = held.bot ∧ after.codeHash = held.codeHash ∧ after.issuedAt = held.issuedAt := by
  cases moves <;> exact ⟨rfl,rfl,rfl⟩

theorem Moves.bounded (moves : Moves held patch after) (few : held.wrongTries < MAX_WRONG) :
    after.wrongTries ≤ MAX_WRONG ∧ (after.state = .issued → after.wrongTries < MAX_WRONG) := by
  cases moves with
  | counted less => exact ⟨Nat.le_of_lt less,fun _ => less⟩
  | voided => exact ⟨few,fun issued => by cases issued⟩
  | ended state other => exact ⟨Nat.le_of_lt few,fun issued => absurd issued other⟩

theorem set_own : (firstClaim handle fields).set (handle,1) patch = firstClaim handle (laid fields patch) := by
  simp [firstClaim,Record.set,Claim.set]

theorem set_other (apart : other ≠ handle) : (firstClaim other fields).set (handle,1) patch = firstClaim other fields := by
  simp [firstClaim,Record.set,Claim.set,apart]

@[simp] theorem set_id (record : Record) (address : FactAddress) : (record.set address patch).id = record.id := rfl

variable [Outside]

-- A write the engine may make over what stands.
inductive Allowed (records : List Record) : Write → Prop where
  | asked (handle : EntityId) (challenge : Challenge) : kindOf handle = some CHALLENGE → handle ∉ records.map (·.id) →
      challenge.state = .issued → challenge.wrongTries = 0 →
      (∀ (other : EntityId) (held : Challenge), Stands records other held → held.bot = challenge.bot → held.state ≠ .issued) →
      Allowed records (.made (firstClaim handle challenge.fields))
  | vouched (id : EntityId) (fields : Fields) : kindOf id = some VOUCHER → id ∉ records.map (·.id) →
      Allowed records (.made (firstClaim id fields))
  | moved (handle : EntityId) (held after : Challenge) (patch : List (Text × Text)) : Stands records handle held →
      held.state = .issued → Moves held patch after → Allowed records (.set (handle,1) patch)

variable {records : List Record} {id : EntityId} {challenge : Challenge} {write : Write}

theorem Moves.laid (moves : Moves held patch after) : laid held.fields patch = after.fields := by
  cases moves with
  | counted _ => exact laid_tries _
  | voided =>
    rw [← List.singleton_append,laid_more,laid_tries]
    exact laid_state _
  | ended state _ => exact laid_state _

theorem stands_made : Stands (Write.apply records (.made (firstClaim id fields))) other held ↔
    Stands records other held ∨ (kindOf other = some CHALLENGE ∧ other = id ∧ held.fields = fields) := by
  simp only [Stands,Write.apply,List.mem_append,List.mem_singleton]
  constructor
  · intro both
    obtain ⟨kind,old | new⟩ := both
    · exact Or.inl ⟨kind,old⟩
    · have own : other = id := congrArg Record.id new
      subst own
      exact Or.inr ⟨kind,rfl,firstClaim_inj new⟩
  · intro either
    rcases either with ⟨kind,old⟩ | ⟨kind,rfl,rfl⟩
    · exact ⟨kind,Or.inl old⟩
    · exact ⟨kind,Or.inr rfl⟩

theorem Kept.once_made (kept : Kept records) (fresh : id ∉ records.map (·.id)) :
    ((Write.apply records (.made (firstClaim id fields))).map (·.id)).Nodup := by
  simpa [Write.apply,List.nodup_append,kept.once,firstClaim] using
    fun record has same => fresh (List.mem_map.mpr ⟨record,has,same⟩)

theorem Kept.shaped_made (kept : Kept records) :
    ∀ record ∈ Write.apply records (.made (firstClaim id fields)), ∃ fields, record = firstClaim record.id fields := by
  intro record has
  rcases List.mem_append.mp has with old | new
  · exact kept.shaped record old
  · cases List.mem_singleton.mp new
    exact ⟨_,rfl⟩

variable [lawful : Lawful]

theorem stands_set (kept : Kept records) (stands : Stands records handle held) (moves : Moves held patch after) :
    Stands (Write.apply records (.set (handle,1) patch)) other challenge ↔
      (other = handle ∧ challenge = after) ∨ (other ≠ handle ∧ Stands records other challenge) := by
  simp only [Stands,Write.apply,List.mem_map]
  constructor
  · intro both
    obtain ⟨kind,record,has,made⟩ := both
    have own : record.id = other := congrArg Record.id made
    obtain ⟨fields,shape⟩ := kept.shaped record has
    by_cases here : other = handle
    · subst here
      have same : record = firstClaim other held.fields := kept.record has stands.2 own
      rw [same,set_own,moves.laid] at made
      exact Or.inl ⟨rfl,(fields_inj (firstClaim_inj made)).symm⟩
    · rw [shape,own,set_other here] at made
      refine Or.inr ⟨here,kind,?_⟩
      rw [← made,← own,← shape]
      exact has
  · intro either
    rcases either with ⟨rfl,rfl⟩ | ⟨apart,kind,has⟩
    · exact ⟨stands.1,_,stands.2,by rw [set_own,moves.laid]⟩
    · exact ⟨kind,_,has,set_other apart⟩

theorem Kept.written (kept : Kept records) (allowed : Allowed records write) : Kept (write.apply records) := by
  cases allowed with
  | asked handle challenge kind fresh issued untried none =>
    refine ⟨?_,?_,?_,?_⟩
    · exact kept.once_made fresh
    · exact kept.shaped_made
    · intro record has named
      rcases List.mem_append.mp has with old | new
      · exact kept.whole record old named
      · cases List.mem_singleton.mp new
        exact ⟨challenge,rfl,by simp [untried],fun _ => by rw [untried]; decide⟩
    · intro one two first second stood there firstIssued secondIssued same
      rcases stands_made.mp stood with old | ⟨_,rfl,new⟩
      · rcases stands_made.mp there with old' | ⟨_,rfl,new'⟩
        · exact kept.alone one two first second old old' firstIssued secondIssued same
        · cases fields_inj new'
          exact absurd firstIssued (none one first old same)
      · cases fields_inj new
        rcases stands_made.mp there with old' | ⟨_,rfl,new'⟩
        · exact absurd secondIssued (none two second old' same.symm)
        · rfl
  | vouched id fields kind fresh =>
    have notOne : kindOf id ≠ some CHALLENGE := by
      rw [kind]
      decide
    refine ⟨?_,?_,?_,?_⟩
    · exact kept.once_made fresh
    · exact kept.shaped_made
    · intro record has named
      rcases List.mem_append.mp has with old | new
      · exact kept.whole record old named
      · cases List.mem_singleton.mp new
        exact absurd named notOne
    · intro one two first second stood there firstIssued secondIssued same
      rcases stands_made.mp stood with old | ⟨named,rfl,_⟩
      · rcases stands_made.mp there with old' | ⟨named,rfl,_⟩
        · exact kept.alone one two first second old old' firstIssued secondIssued same
        · exact absurd named notOne
      · exact absurd named notOne
  | moved handle held after patch stands issued moves =>
    have bounds := moves.bounded ((kept.bounded stands).2 issued)
    refine ⟨?_,?_,?_,?_⟩
    · simpa [Write.apply,Function.comp_def] using kept.once
    · intro record has
      obtain ⟨was,there,rfl⟩ := List.mem_map.mp has
      obtain ⟨fields,shape⟩ := kept.shaped was there
      by_cases own : was.id = handle
      · exact ⟨_,by rw [shape,own,set_own]; rfl⟩
      · exact ⟨_,by rw [shape,set_other own]; rfl⟩
    · intro record has named
      obtain ⟨was,there,rfl⟩ := List.mem_map.mp has
      by_cases own : was.id = handle
      · have same : was = firstClaim handle held.fields := kept.record there stands.2 own
        refine ⟨after,?_,bounds⟩
        rw [same,set_own,moves.laid]
        rfl
      · obtain ⟨read,shape,limits⟩ := kept.whole was there named
        refine ⟨read,?_,limits⟩
        rw [shape,set_other own]
        rfl
    · intro one two first second stood there firstIssued secondIssued same
      have frame := moves.frame
      rcases (stands_set kept stands moves).mp stood with ⟨rfl,rfl⟩ | ⟨_,old⟩
      · rcases (stands_set kept stands moves).mp there with ⟨rfl,rfl⟩ | ⟨_,old'⟩
        · rfl
        · exact kept.alone one two held second stands old' issued secondIssued (frame.1.symm.trans same)
      · rcases (stands_set kept stands moves).mp there with ⟨rfl,rfl⟩ | ⟨_,old'⟩
        · exact kept.alone one two first held old stands firstIssued issued (same.trans frame.1)
        · exact kept.alone one two first second old old' firstIssued secondIssued same

-- A challenge that has ended is written no more.
theorem Stands.ended (kept : Kept records) (allowed : Allowed records write) (stands : Stands records other challenge)
    (over' : challenge.state ≠ .issued) : Stands (write.apply records) other challenge := by
  cases allowed with
  | asked handle made kind fresh issued untried none => exact stands_made.mpr (Or.inl stands)
  | vouched id fields kind fresh => exact stands_made.mpr (Or.inl stands)
  | moved handle held after patch there issued moves =>
    refine (stands_set kept there moves).mpr (Or.inr ⟨?_,stands⟩)
    intro same
    subst same
    cases Stands.unique kept stands there
    exact over' issued

abbrev Sound : List Write → Prop := Journal Write.apply Allowed []

variable {before more landed : List Write}

theorem Sound.kept (sound : Sound landed) : Kept (standing landed) := sound.keeps empty_kept Kept.written

theorem Sound.stays_ended (sound : Sound (before ++ more)) (stands : Stands (standing before) handle challenge)
    (over' : challenge.state ≠ .issued) : Stands (standing (before ++ more)) handle challenge := by
  exact sound.stays (fun records => Stands records handle challenge) empty_kept Kept.written
    (fun kept allowed stood => stood.ended kept allowed over') stands

end Challenges
