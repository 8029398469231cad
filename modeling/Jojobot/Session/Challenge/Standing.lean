import Jojobot.Session.Challenge

namespace Challenges
open Library Memory Std

@[simp] theorem fromToken_asToken (state : ChallengeState) : ChallengeState.fromToken state.asToken = some state := by
  cases state <;> rfl

theorem laid_single {table : Fields} {key value other : Text} :
    (laid table [(key,value)])[other]? = if key = other then some value else table[other]? := by
  simp only [laid,List.foldl_cons,List.foldl_nil,ExtTreeMap.getElem?_insert,Std.compare_eq_iff_eq]

theorem laid_more {table : Fields} {rows more : List (Text × Text)} : laid table (rows ++ more) = laid (laid table rows) more :=
  List.foldl_append

section
variable [Outside] {challenge : Challenge} {key : Text}

theorem fields_read : challenge.fields[key]? =
    if WRONG_TRIES = key then some (printNat challenge.wrongTries)
    else if ISSUED_AT = key then some (Outside.shown challenge.issuedAt)
    else if STATE = key then some challenge.state.asToken
    else if CODE_HASH = key then some challenge.codeHash
    else if BOT = key then some challenge.bot
    else none := by
  simp only [Challenge.fields,laid,List.foldl_cons,List.foldl_nil,ExtTreeMap.getElem?_insert,Std.compare_eq_iff_eq,
    ExtTreeMap.getElem?_empty]

theorem laid_state (state : ChallengeState) :
    laid challenge.fields [(STATE,state.asToken)] = { challenge with state }.fields := by
  apply ExtTreeMap.ext_getElem?
  intro key
  rw [laid_single,fields_read,fields_read]
  by_cases own : STATE = key
  · subst own
    rw [if_pos rfl,if_neg (by decide),if_neg (by decide),if_pos rfl]
  · simp only [if_neg own]

theorem laid_tries (tries : Nat) :
    laid challenge.fields [(WRONG_TRIES,printNat tries)] = { challenge with wrongTries := tries }.fields := by
  apply ExtTreeMap.ext_getElem?
  intro key
  rw [laid_single,fields_read,fields_read]
  by_cases own : WRONG_TRIES = key
  · rw [if_pos own,if_pos own]
  · simp only [if_neg own]

theorem fields_held : challenge.fields.contains CODE_HASH = true := by
  rw [ExtTreeMap.contains_eq_isSome_getElem?,fields_read]
  rfl

variable [lawful : Lawful]

-- What the engine writes of a challenge reads back as that challenge.
theorem fromFields_fields (few : challenge.wrongTries ≤ MAX_WRONG) : Challenge.fromFields challenge.fields = some challenge := by
  have fits : challenge.wrongTries < 2 ^ 32 := Nat.lt_of_le_of_lt few (by decide)
  have bot : challenge.fields[BOT]? = some challenge.bot := by rw [fields_read]; rfl
  have codeHash : challenge.fields[CODE_HASH]? = some challenge.codeHash := by rw [fields_read]; rfl
  have state : challenge.fields[STATE]? = some challenge.state.asToken := by rw [fields_read]; rfl
  have issuedAt : challenge.fields[ISSUED_AT]? = some (Outside.shown challenge.issuedAt) := by rw [fields_read]; rfl
  have wrongTries : challenge.fields[WRONG_TRIES]? = some (printNat challenge.wrongTries) := by rw [fields_read]; rfl
  unfold Challenge.fromFields
  rw [bot,codeHash,state,issuedAt,wrongTries]
  simp [lawful.moments,parseUnsigned_printNat fits]

theorem fields_inj {other : Challenge} (same : challenge.fields = other.fields) : challenge = other := by
  have reads : ∀ key : Text, challenge.fields[key]? = other.fields[key]? := by simp [same]
  have bot := reads BOT
  have codeHash := reads CODE_HASH
  have state := reads STATE
  have issuedAt := reads ISSUED_AT
  have wrongTries := reads WRONG_TRIES
  rw [fields_read,fields_read] at bot codeHash state issuedAt wrongTries
  have token : ChallengeState.fromToken challenge.state.asToken = ChallengeState.fromToken other.state.asToken :=
    congrArg _ (Option.some.inj state)
  have moment : Outside.readMoment (Outside.shown challenge.issuedAt) = Outside.readMoment (Outside.shown other.issuedAt) :=
    congrArg _ (Option.some.inj issuedAt)
  simp only [fromToken_asToken,lawful.moments,Option.some.injEq] at token moment
  cases challenge
  cases other
  simp only [Challenge.mk.injEq]
  exact ⟨Option.some.inj bot,Option.some.inj codeHash,token,moment,printNat_inj (Option.some.inj wrongTries)⟩

-- A challenge that stands in the store, whole.
def Stands (records : List Record) (handle : EntityId) (challenge : Challenge) : Prop :=
  kindOf handle = some CHALLENGE ∧ firstClaim handle challenge.fields ∈ records

structure Kept (records : List Record) : Prop where
  once : (records.map (·.id)).Nodup
  shaped : ∀ record ∈ records, ∃ fields, record = firstClaim record.id fields
  whole : ∀ record ∈ records, kindOf record.id = some CHALLENGE → ∃ challenge : Challenge,
    record = firstClaim record.id challenge.fields ∧ challenge.wrongTries ≤ MAX_WRONG ∧
      (challenge.state = .issued → challenge.wrongTries < MAX_WRONG)
  alone : ∀ one two (first second : Challenge), Stands records one first → Stands records two second →
    first.state = .issued → second.state = .issued → first.bot = second.bot → one = two

variable {records : List Record} {handle other : EntityId} {held after : Challenge} {address : FactAddress}

omit lawful in
theorem empty_kept : Kept [] :=
  ⟨List.nodup_nil,fun _ has => absurd has List.not_mem_nil,fun _ has => absurd has List.not_mem_nil,
    fun _ _ _ _ stands => absurd stands.2 List.not_mem_nil⟩

omit lawful in
theorem Kept.record (kept : Kept records) {one two : Record} (has : one ∈ records) (there : two ∈ records)
    (same : one.id = two.id) : one = two := List.inj_on_of_nodup_map kept.once has there same

omit [Outside] lawful in
theorem firstClaim_inj {fields more : Fields} (same : firstClaim handle fields = firstClaim handle more) : fields = more := by
  simpa [firstClaim] using same

theorem Stands.unique (kept : Kept records) (stands : Stands records handle challenge) (there : Stands records handle held) :
    challenge = held := fields_inj (firstClaim_inj (kept.record stands.2 there.2 rfl))

theorem Kept.bounded (kept : Kept records) (stands : Stands records handle challenge) :
    challenge.wrongTries ≤ MAX_WRONG ∧ (challenge.state = .issued → challenge.wrongTries < MAX_WRONG) := by
  obtain ⟨read,shape,bounds⟩ := kept.whole _ stands.2 stands.1
  cases fields_inj (firstClaim_inj shape)
  exact bounds

theorem heldAt_iff (kept : Kept records) (kind : kindOf handle = some CHALLENGE) :
    heldAt records handle = some (address,challenge) ↔ address = (handle,1) ∧ Stands records handle challenge := by
  unfold heldAt recalled
  cases found : records.find? (·.id = handle) with
  | none =>
    simp only [Option.map_none,Option.bind_eq_bind,Option.bind_none,reduceCtorEq,false_iff,not_and]
    intro _ stands
    have absent := List.find?_eq_none.mp found _ stands.2
    simp [firstClaim] at absent
  | some record =>
    have has := List.mem_of_find?_eq_some found
    have own : record.id = handle := by simpa using List.find?_some found
    subst own
    obtain ⟨read,shape,few,_⟩ := kept.whole record has kind
    have claims : record.claims = [⟨(record.id,1),read.fields⟩] := by
      rw [shape]
      rfl
    simp only [Option.map_some,Option.bind_eq_bind,Option.bind_some,claims,List.find?_cons,fields_held,fromFields_fields few]
    constructor
    · intro same
      cases same
      exact ⟨rfl,kind,shape ▸ has⟩
    · intro both
      obtain ⟨rfl,stands⟩ := both
      have same : Stands records record.id read := ⟨kind,shape ▸ has⟩
      cases Stands.unique kept same stands
      rfl

end

end Challenges
