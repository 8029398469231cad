import Jojobot.Session.Lease.Written

namespace Lease
open Library Std Memory

def Watched (key : Text) : Prop := key = ROLE_HOLDER ∨ key = ROLE_CLAIMED_AT

-- Keys that are the lease's, as an edit trims them.
def namesTheLease (keys : List Text) : Bool := keys.any fun key => trim key = ROLE_HOLDER || trim key = ROLE_CLAIMED_AT

-- What stands under a role object: each row is of a record it has, and each key's rows
-- are in their order.
structure Grounded (object : RoleObject) : Prop where
  known : ∀ row ∈ object.rows, ∃ record ∈ object.records, record.id = row.write.fact
  apart : (object.records.map (·.id)).Nodup
  sorted : Merge.Sorted (writesOn object.rows)

variable [Moments] [Floats]

-- The lease: who holds the role, if any session does, and since when.
abbrev Held := Option (Option Text × Timestamp)

-- A role object keeps its lease on one record, whose writes of it all stand.
inductive Leased (object : RoleObject) : Held → Prop where
  | unclaimed (never : ∀ row ∈ object.rows, ¬Watched row.write.key) : Leased object none
  | claimed {record : Fact} {holder : Option Text} {moment : Timestamp} (has : record ∈ object.records)
      (active : record.status = .active)
      (own : ∀ row ∈ object.rows, Watched row.write.key →
        row.write.fact = record.id ∧ row.write.status = .active ∧ reachesTheThing row.bag = true)
      (holds : newest object.rows ROLE_HOLDER = holder) (shown : ∀ name, holder = some name → holdsAValue name = true)
      (stamped : newest object.rows ROLE_CLAIMED_AT = some (Moments.print moment)) : Leased object (some (holder,moment))

-- What an act makes of a lease, when it is let through.
def turned (held : Held) (at' : Timestamp) : Act → Held
  | .role (.claim claimant) _ => some (some claimant,at')
  | .role (.renew claimant) _ => some (some claimant,at')
  | .role (.release _) _ => some (none,UNIX_EPOCH)
  | .capture .. | .edit .. => held

-- Whether a lease lets an act through.
def lets (held : Held) (at' : Timestamp) : Act → Prop
  | .role (.claim claimant) _ => ∀ holder moment, held = some (some holder,moment) → holder ≠ claimant →
      LEASE_FRESHNESS ≤ at'-moment
  | .role (.renew claimant) _ | .role (.release claimant) _ => ∃ moment, held = some (some claimant,moment)
  | .capture .. | .edit .. => True

-- An act a session or a caller may send: a capture or an edit of any other key, on a new
-- record or one that does not carry the lease off with it.
def Sent (object : RoleObject) : Act → Prop
  | .role write freshId => validSessionId write.claimant = true ∧ ∀ record ∈ object.records, record.id ≠ freshId
  | .capture fact _ _ => fact.status = .active ∧ namesTheLease fact.fields.keys = false ∧
      ∀ record ∈ object.records, record.id ≠ fact.id
  | .edit id patch => patch.roleMove = none ∧ namesTheLease (patch.fields.keys ++ patch.clearFields) = false ∧
      (patch.status = some .archived → (carriedBy object.rows id).contains ROLE_HOLDER = false ∧
        (carriedBy object.rows id).contains ROLE_CLAIMED_AT = false)

variable {declared : List FoldType} {role : Text} {object after : RoleObject} {held : Held} {at' : Timestamp}

omit [Moments] [Floats] in
theorem watched_plain {key : Text} (watched : Watched key) : trim key = key ∧ reservedKey key = false := by
  rcases watched with same | same
  · subst same
    exact ⟨by decide,by decide⟩
  · subst same
    exact ⟨by decide,by decide⟩

omit [Moments] [Floats] in
theorem Grounded.key_sorted (grounded : Grounded object) {key : Text}
    (reach : ∀ row ∈ rowsOf object.rows key, reachesTheThing row.bag = true) :
    (rowsOf object.rows key).Pairwise fun a b => a.write.ordinal < b.write.ordinal := by
  have ordered := grounded.sorted key
  have same : Merge.under (writesOn object.rows) key = (rowsOf object.rows key).map (·.write) := by
    unfold Merge.under writesOn rowsOf
    rw [List.filter_map,List.filter_filter]
    congr 1
    apply List.filter_congr
    intro row member
    by_cases here : row.write.key = key
    · simp [Merge.ServedWrite.key,here,reach row (mem_rowsOf.mpr ⟨member,here⟩)]
    · simp [Merge.ServedWrite.key,here]
  rw [same] at ordered
  apply (List.pairwise_map.mp ordered).imp
  intro a b less
  exact Int.ofNat_lt.mp less

section
variable [LawfulMoments] (holderFolds : foldOf ROLE_HOLDER declared = .newest)
  (momentFolds : foldOf ROLE_CLAIMED_AT declared = .newest)

include holderFolds momentFolds in
-- The state the guard judges is the lease.
theorem lease_held (grounded : Grounded object) (leased : Leased object held) :
    object.lease declared = ⟨held.bind (·.1),held.map (·.2)⟩ := by
  cases leased with
  | unclaimed never =>
    have none' : (object.fields declared)[ROLE_CLAIMED_AT]? = none := by
      have empty : rowsOf object.rows ROLE_CLAIMED_AT = [] := by
        apply List.filter_eq_nil_iff.mpr
        intro row member same
        exact never row member (Or.inr (of_decide_eq_true same))
      unfold RoleObject.fields
      rw [fold_newest momentFolds (by decide) grounded.sorted fun row member => by rw [empty] at member; cases member]
      unfold newest
      rw [empty]
      rfl
    unfold RoleObject.lease roleState
    have absent : (object.fields declared).contains ROLE_CLAIMED_AT = false := by
      rw [←ExtTreeMap.isSome_getElem?_eq_contains,none']
      rfl
    rw [Option.filter_some,absent,if_neg Bool.false_ne_true]
    rfl
  | @claimed record holder moment has active own holds shown stamped =>
    have stand : ∀ key, Watched key → ∀ row ∈ rowsOf object.rows key,
        row.write.status = .active ∧ reachesTheThing row.bag = true := by
      intro key watched row member
      obtain ⟨inRows,same⟩ := mem_rowsOf.mp member
      exact (own row inRows (same ▸ watched)).2
    have moments : (object.fields declared)[ROLE_CLAIMED_AT]? = some (Moments.print moment) := by
      unfold RoleObject.fields
      rw [fold_newest momentFolds (by decide) grounded.sorted (stand _ (Or.inr rfl)),stamped,Option.filter_some,if_pos]
      unfold counts
      rw [LawfulMoments.print_shown]
      rfl
    have holders : (object.fields declared)[ROLE_HOLDER]? = holder := by
      unfold RoleObject.fields
      rw [fold_newest holderFolds (by decide) grounded.sorted (stand _ (Or.inl rfl)),holds]
      cases holder with
      | none => rfl
      | some name =>
        rw [Option.filter_some,if_pos]
        unfold counts
        rw [shown name rfl]
        rfl
    unfold RoleObject.lease roleState
    have present : (object.fields declared).contains ROLE_CLAIMED_AT = true := by
      rw [←ExtTreeMap.isSome_getElem?_eq_contains,moments]
      rfl
    rw [Option.filter_some,if_pos present]
    dsimp only
    rw [moments,holders,Option.bind_some,LawfulMoments.parse_print]
    rfl

end

def Owned (object : RoleObject) (id : Text) : Prop := ∀ row ∈ object.rows, Watched row.write.key →
  row.write.fact = id ∧ row.write.status = .active ∧ reachesTheThing row.bag = true

variable {base more : List FieldRow} {record fact : Fact} {holder : Option Text} {moment : Timestamp} {bags : Bags}
  {wrote : List (Text × Option Text)} {patch : Patch} {id : Text} {sets derived : List Text} {ownFieldsStay : Bool}

omit [Moments] [Floats] in
theorem watched_in_base (same : ∀ key, Watched key → rowsOf base key = rowsOf object.rows key) {row : FieldRow} (member : row ∈ base)
    (watched : Watched row.write.key) : row ∈ object.rows := by
  have found : row ∈ rowsOf base row.write.key := mem_rowsOf.mpr ⟨member,rfl⟩
  rw [same _ watched] at found
  exact (mem_rowsOf.mp found).1

omit [Moments] [Floats] in
theorem newest_base (same : ∀ key, Watched key → rowsOf base key = rowsOf object.rows key) {key : Text} (watched : Watched key) :
    newest (base ++ more) key = ((rowsOf more key).map (·.write.value)).getLast?.getD (newest object.rows key) := by
  rw [newest_append]
  congr 1
  unfold newest
  rw [same key watched]

omit [Floats] in
theorem Leased.rewritten (has : record ∈ after.records) (active : record.status = .active) (own : Owned object record.id)
    (same : ∀ key, Watched key → rowsOf base key = rowsOf object.rows key) (rows : after.rows = base ++ more)
    (made : ∀ row ∈ more, Watched row.write.key →
      row.write.fact = record.id ∧ row.write.status = .active ∧ reachesTheThing row.bag = true)
    (holds : ((rowsOf more ROLE_HOLDER).map (·.write.value)).getLast?.getD (newest object.rows ROLE_HOLDER) = holder)
    (shown : ∀ name, holder = some name → holdsAValue name = true)
    (stamped : ((rowsOf more ROLE_CLAIMED_AT).map (·.write.value)).getLast?.getD (newest object.rows ROLE_CLAIMED_AT) =
      some (Moments.print moment)) : Leased after (some (holder,moment)) := by
  apply Leased.claimed has active
  · intro row member watched
    rw [rows] at member
    rcases List.mem_append.mp member with before | written
    · exact own row (watched_in_base same before watched) watched
    · exact made row written watched
  · rw [rows,newest_base same (Or.inl rfl)]
    exact holds
  · exact shown
  · rw [rows,newest_base same (Or.inr rfl)]
    exact stamped

omit [Floats] in
theorem Leased.kept (leased : Leased object held) (same : ∀ key, Watched key → rowsOf base key = rowsOf object.rows key)
    (rows : after.rows = base ++ more) (quiet : ∀ row ∈ more, ¬Watched row.write.key)
    (records : ∀ record ∈ object.records, record.status = .active →
      (∃ row ∈ object.rows, Watched row.write.key ∧ row.write.fact = record.id) →
      ∃ next ∈ after.records, next.id = record.id ∧ next.status = .active) : Leased after held := by
  have none' : ∀ key, Watched key → rowsOf more key = [] := by
    intro key watched
    apply List.filter_eq_nil_iff.mpr
    intro row member here
    exact quiet row member (of_decide_eq_true here ▸ watched)
  cases leased with
  | unclaimed never =>
    apply Leased.unclaimed
    intro row member watched
    rw [rows] at member
    rcases List.mem_append.mp member with before | written
    · exact never row (watched_in_base same before watched) watched
    · exact quiet row written watched
  | @claimed record holder moment has active own holds shown stamped =>
    have carries : ∃ row ∈ object.rows, Watched row.write.key ∧ row.write.fact = record.id := by
      unfold newest at stamped
      obtain ⟨last,isLast,_⟩ := Option.bind_eq_some_iff.mp stamped
      obtain ⟨inRows,here⟩ := mem_rowsOf.mp (List.mem_of_getLast? isLast)
      exact ⟨last,inRows,Or.inr here,(own last inRows (Or.inr here)).1⟩
    obtain ⟨next,found,sameId,stands⟩ := records record has active carries
    have ownNext : Owned object next.id := by
      rw [sameId]
      exact own
    apply Leased.rewritten found stands ownNext same rows
    · intro row member watched
      exact absurd watched (quiet row member)
    · rw [none' _ (Or.inl rfl)]
      exact holds
    · exact shown
    · rw [none' _ (Or.inr rfl)]
      exact stamped

omit [Moments] [Floats] in
theorem Grounded.captured (grounded : Grounded object) (fresh : ∀ record ∈ object.records, record.id ≠ fact.id) :
    Grounded ⟨object.records ++ [fact],appendWrites fact at' bags object.rows wrote⟩ where
  known := by
    obtain ⟨more,shape,own,_⟩ := appended fact at' bags object.rows wrote
    intro row member
    dsimp only at member ⊢
    rw [shape] at member
    rcases List.mem_append.mp member with before | written
    · obtain ⟨record,has,same⟩ := grounded.known row before
      exact ⟨record,List.mem_append_left _ has,same⟩
    · exact ⟨fact,List.mem_append_right _ List.mem_cons_self,(own row written).1.symm⟩
  apart := by
    rw [List.map_append]
    apply grounded.apart.append (List.nodup_singleton _)
    intro id before here
    obtain ⟨record,has,same⟩ := List.mem_map.mp before
    exact fresh record has (same.trans (List.mem_singleton.mp here))
  sorted := appendWrites_sorted wrote grounded.sorted

omit [Moments] [Floats] in
theorem mapped_ids (records : List Fact) (next : Fact) :
    (records.map fun record => if record.id = next.id then next else record).map (·.id) = records.map (·.id) := by
  rw [List.map_map]
  apply List.map_congr_left
  intro record _
  dsimp only [Function.comp]
  split
  · rename_i same
    exact same.symm
  · rfl

omit [Moments] [Floats] in
theorem mem_mapped {records : List Fact} (next : Fact) (has : record ∈ records) :
    ∃ after ∈ records.map (fun record => if record.id = next.id then next else record), after.id = record.id ∧
      (record.id ≠ next.id → after = record) := by
  refine ⟨_,List.mem_map_of_mem has,?_⟩
  split
  · rename_i same
    exact ⟨same.symm,fun other => absurd same other⟩
  · exact ⟨rfl,fun _ => rfl⟩

omit [Moments] [Floats] in
theorem Grounded.edited {next : Fact} (grounded : Grounded object) (has : fact ∈ object.records) (same : next.id = fact.id) :
    Grounded ⟨object.records.map fun record => if record.id = next.id then next else record,
      appendWrites next at' bags (restatedRows next object.rows) wrote⟩ where
  known := by
    obtain ⟨more,shape,own,_⟩ := appended next at' bags (restatedRows next object.rows) wrote
    intro row member
    dsimp only at member ⊢
    rw [shape] at member
    rcases List.mem_append.mp member with before | written
    · obtain ⟨was,inRows,made⟩ := List.mem_map.mp before
      subst made
      obtain ⟨record,inRecords,ofRow⟩ := grounded.known was inRows
      obtain ⟨after,found,sameId,_⟩ := mem_mapped next inRecords
      exact ⟨after,found,sameId.trans ofRow⟩
    · obtain ⟨after,found,sameId,_⟩ := mem_mapped next has
      exact ⟨after,found,sameId.trans (same.symm.trans (own row written).1.symm)⟩
  apart := by
    rw [mapped_ids]
    exact grounded.apart
  sorted := by
    apply appendWrites_sorted
    rw [writesOn_restated]
    intro key
    unfold Merge.under
    rw [List.filter_map]
    apply List.pairwise_map.mpr
    exact grounded.sorted key

omit [Moments] [Floats] in
theorem Grounded.restamped (grounded : Grounded object) (ordinal : Nat) (text : Text) :
    Grounded { object with rows := object.rows.map (Lease.restamped ordinal text at') } where
  known := by
    intro row member
    obtain ⟨was,inRows,made⟩ := List.mem_map.mp member
    subst made
    rw [(restamped_frame ordinal text at' was).2.2.1]
    exact grounded.known was inRows
  apart := grounded.apart
  sorted := by
    intro key
    have same : Merge.under (writesOn (object.rows.map (Lease.restamped ordinal text at'))) key =
        ((object.rows.filter fun row => reachesTheThing row.bag && decide (row.write.key = key)).map
          (Lease.restamped ordinal text at')).map (·.write) := by
      unfold Merge.under writesOn
      rw [List.filter_map,List.filter_map,List.filter_map,List.filter_filter]
      congr 2
      apply List.filter_congr
      intro row _
      obtain ⟨keys,_,_,_,bags⟩ := restamped_frame ordinal text at' row
      simp only [Function.comp,Merge.ServedWrite.key,keys,bags,Bool.and_comm]
    have before : Merge.under (writesOn object.rows) key =
        (object.rows.filter fun row => reachesTheThing row.bag && decide (row.write.key = key)).map (·.write) := by
      unfold Merge.under writesOn
      rw [List.filter_map,List.filter_filter]
      congr 1
      apply List.filter_congr
      intro row _
      exact Bool.and_comm _ _
    have ordered := grounded.sorted key
    rw [before] at ordered
    dsimp only
    rw [same]
    apply List.pairwise_map.mpr
    apply List.pairwise_map.mpr
    apply (List.pairwise_map.mp ordered).imp
    intro a b less
    change ((Lease.restamped ordinal text at' a).write.ordinal : Int) < (Lease.restamped ordinal text at' b).write.ordinal
    rw [(restamped_frame ordinal text at' a).2.1,(restamped_frame ordinal text at' b).2.1]
    exact less

theorem capture_ok (took : capture declared role object fact sets derived ownFieldsStay at' = .ok after) :
    refusesRoleWrite role none fact.fields (object.lease declared) = none ∧
      ∃ bags, classesForWrite ∅ fact.fields sets derived [] declared ownFieldsStay = .ok bags ∧
        after = ⟨object.records ++ [fact],appendWrites fact at' bags object.rows (writtenKeys fact)⟩ := by
  unfold capture at took
  split at took
  · cases took
  · rename_i allowed
    split at took
    · cases took
    · rename_i rows stored
      unfold captured at stored
      obtain ⟨bags,classed,made⟩ := bind_ok.mp stored
      cases Except.ok.inj made
      cases Except.ok.inj took
      exact ⟨allowed,bags,classed,rfl⟩

theorem updateFact_ok (took : updateFact declared role object id patch ownFieldsStay at' = .ok after) :
    ∃ fact ∈ object.records, fact.id = id ∧ fact.status = .active ∧
      refusesRoleWrite role patch.roleMove patch.fields (object.lease declared) = none ∧
      let renewed := if isAPlainRenewal patch then
        (patch.fields[ROLE_CLAIMED_AT]?).bind (overwriteLeaseMoment object.rows · at') else none
      (∃ rows, renewed = some rows ∧ after = { object with rows := rows }) ∨
        (renewed = none ∧ ∃ bags, classesForWrite (heldClasses object.rows id) patch.fields patch.sets patch.derived
            patch.clearFields declared ownFieldsStay = .ok bags ∧
          after = ⟨object.records.map fun record => if record.id = id then applied fact patch else record,
            appendWrites (applied fact patch) at' bags (restatedRows (applied fact patch) object.rows)
              (writesOf patch.toFieldPatch (carriedBy object.rows id))⟩) := by
  unfold updateFact at took
  split at took
  · cases took
  · rename_i fact found
    split at took
    · cases took
    · rename_i notArchived
      split at took
      · cases took
      · rename_i allowed
        have sameId : fact.id = id := by simpa using List.find?_some found
        have active : fact.status = .active := by
          cases status : fact.status with
          | active => rfl
          | archived => exact absurd status notArchived
        refine ⟨fact,List.mem_of_find?_eq_some found,sameId,active,allowed,?_⟩
        dsimp only at took ⊢
        split at took
        · rename_i rows renewed
          cases Except.ok.inj took
          exact Or.inl ⟨rows,renewed,rfl⟩
        · rename_i notRenewed
          right
          refine ⟨notRenewed,?_⟩
          split at took
          · cases took
          · rename_i rows stored
            unfold Memory.edited at stored
            obtain ⟨bags,classed,made⟩ := bind_ok.mp stored
            cases Except.ok.inj made
            cases Except.ok.inj took
            have nextId : (applied fact patch).id = id := sameId
            rw [nextId] at classed
            rw [nextId]
            exact ⟨bags,classed,rfl⟩

omit [Moments] [Floats] in
theorem names_own {fields : Fields} {row : Text × Text} (member : row ∈ fields.toList) : names fields.keys (trim row.1) = true := by
  have held : row.1 ∈ fields.keys := by
    rw [ExtTreeMap.mem_keys,ExtTreeMap.mem_iff_isSome_getElem?,ExtTreeMap.mem_toList_iff_getElem?_eq_some.mp member]
    rfl
  exact List.any_eq_true.mpr ⟨row.1,held,decide_eq_true rfl⟩

omit [Moments] [Floats] in
theorem idByte_solid {c : Char} (byte : isIdByte c = true) : isWhitespace c = false := by
  have either : (c.isLower = true ∨ c.isDigit = true) ∨ c = '-' := by simpa [isIdByte] using byte
  rcases either with (lower | digit) | dash
  · have bounds : 97 ≤ c.toNat ∧ c.toNat ≤ 122 := by
      simp only [Char.isLower,Bool.and_eq_true,decide_eq_true_eq] at lower
      exact lower
    simp [isWhitespace]
    omega
  · exact digit_solid digit
  · subst dash
    decide

omit [Moments] [Floats] in
theorem session_shown {claimant : Text} (valid : validSessionId claimant = true) : holdsAValue claimant = true := by
  unfold validSessionId at valid
  have parts : (claimant ≠ [] ∧ claimant.length ≤ 64) ∧ ∀ c ∈ claimant, isIdByte c = true := by simpa using valid
  unfold holdsAValue
  apply decide_eq_true
  rw [trim_solid fun c member => idByte_solid (parts.2 c member)]
  exact parts.1.1

section
variable [LawfulMoments]

omit [Floats] in
theorem lets_iff (held : Held) (at' : Timestamp) (write : RoleWrite) (freshId : Text) :
    refusesRoleWrite role (write.roleMove role) (write.fields at') ⟨held.bind (·.1),held.map (·.2)⟩ = none ↔
      lets held at' (.role write freshId) := by
  have moved : ∀ kind claimant fields, refusesRoleWrite role (some ⟨kind,role,claimant⟩) fields ⟨held.bind (·.1),held.map (·.2)⟩ = none ↔
      ∃ moment, held = some (some claimant,moment) := by
    intro kind claimant fields
    unfold refusesRoleWrite
    dsimp only
    constructor
    · intro allowed
      split at allowed
      · cases allowed
      · rename_i holds
        obtain ⟨lease,isHeld,isHolder⟩ := Option.bind_eq_some_iff.mp (not_not.mp holds)
        refine ⟨lease.2,?_⟩
        rw [isHeld,←isHolder]
    · intro holds
      obtain ⟨moment,same⟩ := holds
      rw [same,if_neg]
      exact not_not.mpr rfl
  cases write with
  | claim claimant =>
    have sent : roleClaimIn ((RoleWrite.claim claimant).fields at') = some (claimant,at') := by
      have printed : ((RoleWrite.claim claimant).fields at')[ROLE_CLAIMED_AT]? = some (Moments.print at') := rfl
      have named : ((RoleWrite.claim claimant).fields at')[ROLE_HOLDER]? = some claimant := rfl
      unfold roleClaimIn
      rw [named,printed,Option.bind_some,LawfulMoments.parse_print]
      rfl
    unfold refusesRoleWrite RoleWrite.roleMove lets
    dsimp only
    rw [sent]
    dsimp only
    cases held with
    | none => simp [claimRole]
    | some lease =>
      obtain ⟨holder,moment⟩ := lease
      cases holder with
      | none => simp [claimRole]
      | some holder =>
        by_cases own : holder = claimant
        · simp [claimRole,own]
        · by_cases fresh : at'-moment < LEASE_FRESHNESS
          · simp [claimRole,own,leaseVerdict,fresh]
          · simp [claimRole,own,leaseVerdict,fresh,Int.not_lt.mp fresh]
  | renew claimant => exact moved .renew claimant _
  | release claimant => exact moved .release claimant _

omit [Floats] [LawfulMoments] in
theorem release_values (carried : Fields) (claimant : Text) (at' : Timestamp) :
    valuesFor ROLE_CLAIMED_AT (writesOf ((RoleWrite.release claimant).patch role at').toFieldPatch carried) =
        [some (Moments.print UNIX_EPOCH)] ∧
      valuesFor ROLE_HOLDER (writesOf ((RoleWrite.release claimant).patch role at').toFieldPatch carried) =
        if carried.contains ROLE_HOLDER then [none] else [] := by
  have plain : ([ROLE_HOLDER] : List Text).map trim = [ROLE_HOLDER] := by decide
  have listed : ((RoleWrite.release claimant).fields at').toList = [(ROLE_CLAIMED_AT,Moments.print UNIX_EPOCH)] := rfl
  unfold writesOf RoleWrite.patch RoleWrite.clear
  dsimp only
  rw [plain,listed,List.filter_cons]
  split
  · exact ⟨rfl,rfl⟩
  · exact ⟨rfl,rfl⟩

variable {write : RoleWrite} {freshId : Text}

omit [Moments] [Floats] [LawfulMoments] in
theorem owned_sorted {key : Text} (grounded : Grounded object) (own : Owned object id) (watched : Watched key) :
    (rowsOf object.rows key).Pairwise fun a b => a.write.ordinal < b.write.ordinal := by
  apply grounded.key_sorted
  intro row member
  obtain ⟨inRows,here⟩ := mem_rowsOf.mp member
  exact (own row inRows (here ▸ watched)).2.2

-- A restating of the record the lease is kept on leaves the rows of it as they were.
omit [Moments] [Floats] [LawfulMoments] in
theorem owned_restated {next : Fact} {key : Text} (active : next.status = .active) (own : Owned object id) (watched : Watched key) :
    rowsOf (restatedRows next object.rows) key = rowsOf object.rows key := by
  apply restated_rowsOf
  intro row member
  obtain ⟨inRows,here⟩ := mem_rowsOf.mp member
  obtain ⟨_,stands,_⟩ := own row inRows (here ▸ watched)
  unfold restated
  split
  · rw [active,←stands]
  · rfl

-- An ordinary edit of the record, whose writes all reach the thing.
omit [Floats] [LawfulMoments] in
theorem role_edited {holder : Option Text} {moment : Timestamp} (grounded : Grounded object) (has : fact ∈ object.records)
    (active : fact.status = .active) (own : Owned object fact.id)
    (classed : classesForWrite (heldClasses object.rows fact.id) (write.fields at') [] (write.fields at').keys write.clear
      declared ownFieldsStay = .ok bags)
    (holds : ((valuesFor ROLE_HOLDER (writesOf (write.patch role at').toFieldPatch (carriedBy object.rows fact.id))).getLast?).getD
      (newest object.rows ROLE_HOLDER) = holder) (shown : ∀ name, holder = some name → holdsAValue name = true)
    (stamped : ((valuesFor ROLE_CLAIMED_AT
      (writesOf (write.patch role at').toFieldPatch (carriedBy object.rows fact.id))).getLast?).getD
        (newest object.rows ROLE_CLAIMED_AT) = some (Moments.print moment)) :
    let next := applied fact (write.patch role at')
    let after : RoleObject := ⟨object.records.map fun record => if record.id = fact.id then next else record,
      appendWrites next at' bags (restatedRows next object.rows)
        (writesOf (write.patch role at').toFieldPatch (carriedBy object.rows fact.id))⟩
    Grounded after ∧ Leased after (some (holder,moment)) := by
  intro next after
  have nextActive : next.status = .active := active
  have inAfter : next ∈ after.records := List.mem_map.mpr ⟨fact,has,if_pos rfl⟩
  refine ⟨grounded.edited has rfl,?_⟩
  obtain ⟨more,shape,ownMore,values⟩ := appended next at' bags (restatedRows next object.rows)
    (writesOf (write.patch role at').toFieldPatch (carriedBy object.rows fact.id))
  apply Leased.rewritten inAfter nextActive own (fun key watched => owned_restated nextActive own watched) shape
  · intro row member watched
    obtain ⟨ofFact,stands,bag⟩ := ownMore row member
    refine ⟨ofFact,stands.trans nextActive,?_⟩
    rw [bag]
    apply derived_reaches classed
    · intro sent member
      exact names_own member
    · exact (watched_plain watched).1
    · intro bag heldBag
      obtain ⟨before,inRows,here,isBag⟩ := heldClasses_of heldBag
      rw [←isBag]
      exact (own before inRows (here ▸ watched)).2.2
  · rw [values]
    exact holds
  · exact shown
  · rw [values]
    exact stamped

-- A plain renewal writes the moment over in place.
omit [Floats] [LawfulMoments] in
theorem role_renewed {claimant : Text} {moment : Timestamp} (at' : Timestamp) (grounded : Grounded object)
    (leased : Leased object (some (some claimant,moment))) (own : Owned object id) :
    ∃ rows, overwriteLeaseMoment object.rows (Moments.print at') at' = some rows ∧
      Grounded { object with rows := rows } ∧ Leased { object with rows := rows } (some (some claimant,at')) := by
  cases leased with
  | @claimed record _ _ inRecords stands ownRecord holds shownHolder stamped =>
    obtain ⟨ordinal,overwrote,restampedTo,others⟩ :=
      overwritten (Moments.print at') at' (owned_sorted grounded own (Or.inr rfl)) stamped
    refine ⟨_,overwrote,grounded.restamped ordinal _,?_⟩
    refine Leased.claimed inRecords stands ?_ ?_ ?_ ?_
    · intro row member watched
      obtain ⟨was,inRows,same⟩ := List.mem_map.mp member
      obtain ⟨keys,_,facts,statuses,bags⟩ := restamped_frame ordinal (Moments.print at') at' was
      rw [←same] at watched ⊢
      rw [keys] at watched
      rw [facts,statuses,bags]
      exact ownRecord was inRows watched
    · unfold newest
      rw [others ROLE_HOLDER (by decide)]
      exact holds
    · exact shownHolder
    · exact restampedTo

-- What a release writes, on a record that carries a holder.
omit [Floats] [LawfulMoments] in
theorem role_released {claimant : Text} {moment : Timestamp} (role : Text) (at' : Timestamp) (grounded : Grounded object)
    (leased : Leased object (some (some claimant,moment))) (own : Owned object id) :
    let wrote := writesOf ((RoleWrite.release claimant).patch role at').toFieldPatch (carriedBy object.rows id)
    ((valuesFor ROLE_HOLDER wrote).getLast?).getD (newest object.rows ROLE_HOLDER) = none ∧
      ((valuesFor ROLE_CLAIMED_AT wrote).getLast?).getD (newest object.rows ROLE_CLAIMED_AT) = some (Moments.print UNIX_EPOCH) := by
  intro wrote
  cases leased with
  | @claimed record _ _ inRecords stands ownRecord holds shownHolder stamped =>
    have carries : (carriedBy object.rows id).contains ROLE_HOLDER = true := by
      rw [←ExtTreeMap.isSome_getElem?_eq_contains,carried_newest (owned_sorted grounded own (Or.inl rfl)),holds]
      · rfl
      · intro row member
        obtain ⟨inRows,here⟩ := mem_rowsOf.mp member
        exact (own row inRows (Or.inl here)).1
    obtain ⟨moments,holders⟩ := @release_values _ role (carriedBy object.rows id) claimant at'
    rw [carries] at holders
    exact ⟨by rw [holders]; rfl,by rw [moments]; rfl⟩

-- A role write on the record the lease is kept on, when it is let through.
theorem role_updated (grounded : Grounded object) (state : object.lease declared = ⟨held.bind (·.1),held.map (·.2)⟩)
    (leased : Leased object held) (valid : validSessionId write.claimant = true) (own : Owned object id)
    (took : updateFact declared role object id (write.patch role at') ownFieldsStay at' = .ok after) :
    lets held at' (.role write freshId) ∧ Grounded after ∧ Leased after (turned held at' (.role write freshId)) := by
  obtain ⟨fact,has,sameId,active,allowed,either⟩ := updateFact_ok took
  subst sameId
  rw [state] at allowed
  have lets' := (lets_iff held at' write freshId).mp allowed
  refine ⟨lets',?_⟩
  have shown : ∀ name, some write.claimant = some name → holdsAValue name = true := by
    intro name same
    rw [←Option.some.inj same]
    exact session_shown valid
  cases write with
  | claim claimant =>
    dsimp only at either
    rcases either with ⟨rows,renewed,_⟩ | ⟨_,bags,classed,made⟩
    · cases renewed
    · subst made
      exact role_edited grounded has active own classed rfl shown rfl
  | renew claimant =>
    obtain ⟨moment,isHeld⟩ := lets'
    subst isHeld
    obtain ⟨rows,overwrote,kept⟩ := role_renewed at' grounded leased own
    have renewed : (if isAPlainRenewal ((RoleWrite.renew claimant).patch role at') then
        (((RoleWrite.renew claimant).patch role at').fields[ROLE_CLAIMED_AT]?).bind (overwriteLeaseMoment object.rows · at')
        else none) = some rows := overwrote
    dsimp only at either
    rw [renewed] at either
    rcases either with ⟨_,isRows,made⟩ | ⟨none',_⟩
    · cases Option.some.inj isRows
      subst made
      exact kept
    · cases none'
  | release claimant =>
    obtain ⟨moment,isHeld⟩ := lets'
    subst isHeld
    dsimp only at either
    rcases either with ⟨rows,renewed,_⟩ | ⟨_,bags,classed,made⟩
    · cases renewed
    · obtain ⟨holders,moments⟩ := role_released role at' grounded leased own
      subst made
      exact role_edited grounded has active own classed holders nofun moments

end

end Lease
