import Jojobot.Session.Lease.Held

namespace Lease
open Library Std Memory

variable [Moments] [Floats] {declared : List FoldType} {role id freshId : Text} {object after : RoleObject} {held : Held}
  {at' : Timestamp} {record fact : Fact} {write : RoleWrite} {patch : Patch} {ownFieldsStay : Bool} {sets derived : List Text}

omit [Moments] [Floats] in
theorem carries_not (none' : ∀ row ∈ object.rows, Watched row.write.key → row.write.fact ≠ id) {key : Text} (watched : Watched key) :
    (carriedBy object.rows id).contains key = false := by
  have absent : (carriedBy object.rows id)[key]? = none := by
    apply not_carried
    intro row member
    obtain ⟨inRows,here⟩ := mem_rowsOf.mp member
    exact none' row inRows (here ▸ watched)
  rw [←ExtTreeMap.isSome_getElem?_eq_contains,absent]
  rfl

omit [Floats] in
-- The record a role's writes go to is the one its lease is kept on, and a claimed role has one.
theorem claimRecord_owns (role : Text) (grounded : Grounded object) (leased : Leased object held) :
    (∀ id, roleClaimRecord role object = some id → Owned object id) ∧ (roleClaimRecord role object = none → held = none) := by
  cases leased with
  | unclaimed never => exact ⟨fun _ _ row member watched => absurd watched (never row member),fun _ => rfl⟩
  | @claimed lease holder moment has active own holds shown stamped =>
    have sorted : (rowsOf object.rows ROLE_CLAIMED_AT).Pairwise fun a b => a.write.ordinal < b.write.ordinal := by
      apply grounded.key_sorted
      intro row member
      obtain ⟨inRows,here⟩ := mem_rowsOf.mp member
      exact (own row inRows (Or.inr here)).2.2
    have carries : (carriedBy object.rows lease.id).contains ROLE_CLAIMED_AT = true := by
      rw [←ExtTreeMap.isSome_getElem?_eq_contains,carried_newest sorted,stamped]
      · rfl
      · intro row member
        obtain ⟨inRows,here⟩ := mem_rowsOf.mp member
        exact (own row inRows (Or.inr here)).1
    unfold roleClaimRecord
    dsimp only
    cases search : object.records.find? (fun record => (carriedBy object.rows record.id).contains ROLE_HOLDER ||
        (carriedBy object.rows record.id).contains ROLE_CLAIMED_AT) with
    | none =>
      have refused := List.find?_eq_none.mp search lease has
      rw [carries,Bool.or_true] at refused
      exact absurd rfl refused
    | some first =>
      have isLease : first.id = lease.id := by
        by_contra other
        have apart : ∀ row ∈ object.rows, Watched row.write.key → row.write.fact ≠ first.id := by
          intro row member watched same
          exact other (same.symm.trans (own row member watched).1)
        have neither := List.find?_some search
        rw [carries_not apart (Or.inl rfl),carries_not apart (Or.inr rfl)] at neither
        cases neither
      refine ⟨?_,fun none' => by cases none'⟩
      intro id found
      have isFirst : first.id = id := Option.some.inj found
      rw [←isFirst,isLease]
      exact own

omit [Moments] [Floats] in
-- Rows made of writes of other keys are nobody's lease.
theorem quiet_of {more : List FieldRow} {wrote : List (Text × Option Text)}
    (values : ∀ key, (rowsOf more key).map (·.write.value) = valuesFor key wrote)
    (other : ∀ key, Watched key → valuesFor key wrote = []) : ∀ row ∈ more, ¬Watched row.write.key := by
  intro row member watched
  have nothing := (values row.write.key).trans (other _ watched)
  have here : row ∈ rowsOf more row.write.key := mem_rowsOf.mpr ⟨member,rfl⟩
  rw [List.map_eq_nil_iff.mp nothing] at here
  cases here

omit [Moments] [Floats] in
theorem valuesFor_none {key : Text} {wrote : List (Text × Option Text)} (other : ∀ row ∈ wrote, row.1 ≠ key) :
    valuesFor key wrote = [] := by
  have none' : wrote.filter (·.1 = key) = [] :=
    List.filter_eq_nil_iff.mpr fun row member same => other row member (of_decide_eq_true same)
  unfold valuesFor
  rw [none']
  rfl

omit [Moments] [Floats] in
theorem unnamed {keys : List Text} (other : namesTheLease keys = false) {key : Text} (member : key ∈ keys) : ¬Watched (trim key) := by
  have neither := List.any_eq_false.mp other key member
  intro watched
  rcases watched with same | same
  · simp [same] at neither
  · simp [same] at neither

theorem ordinary_captured (grounded : Grounded object) (leased : Leased object held)
    (fresh : ∀ record ∈ object.records, record.id ≠ fact.id) (other : namesTheLease fact.fields.keys = false)
    (took : capture declared role object fact sets derived ownFieldsStay at' = .ok after) : Grounded after ∧ Leased after held := by
  obtain ⟨_,bags,_,made⟩ := capture_ok took
  subst made
  obtain ⟨more,shape,_,values⟩ := appended fact at' bags object.rows (writtenKeys fact)
  refine ⟨grounded.captured fresh,leased.kept (fun _ _ => rfl) shape (quiet_of values ?_) ?_⟩
  · intro key watched
    apply valuesFor_none
    intro row member same
    obtain ⟨sent,inFields,isRow⟩ := List.mem_map.mp member
    have named : sent.1 ∈ fact.fields.keys := by
      rw [ExtTreeMap.mem_keys,ExtTreeMap.mem_iff_isSome_getElem?,ExtTreeMap.mem_toList_iff_getElem?_eq_some.mp inFields]
      rfl
    have isKey : sent.1 = key := by
      rw [←same,←isRow]
    apply unnamed other named
    rw [isKey,(watched_plain watched).1]
    exact watched
  · intro record has active _
    exact ⟨record,List.mem_append_left _ has,rfl,active⟩

theorem ordinary_edited (grounded : Grounded object) (leased : Leased object held) (sent : Sent object (.edit id patch))
    (took : updateFact declared role object id patch ownFieldsStay at' = .ok after) : Grounded after ∧ Leased after held := by
  obtain ⟨noMove,other,keeps⟩ := sent
  obtain ⟨fact,has,sameId,active,_,either⟩ := updateFact_ok took
  subst sameId
  have plain : isAPlainRenewal patch = false := by
    unfold isAPlainRenewal
    rw [noMove]
    rfl
  dsimp only at either
  rw [plain,if_neg Bool.false_ne_true] at either
  rcases either with ⟨rows,renewed,_⟩ | ⟨_,bags,_,made⟩
  · cases renewed
  · subst made
    obtain ⟨more,shape,_,values⟩ := appended (applied fact patch) at' bags (restatedRows (applied fact patch) object.rows)
      (writesOf patch.toFieldPatch (carriedBy object.rows fact.id))
    -- The record an edit archives is not the one the lease is kept on.
    have stays : ∀ row ∈ object.rows, Watched row.write.key → row.write.fact = fact.id →
        row.write.status = .active ∧ (applied fact patch).status = .active := by
      intro row member watched ofFact
      cases leased with
      | unclaimed never => exact absurd watched (never row member)
      | @claimed lease holder moment _ _ own holds shown stamped =>
        obtain ⟨ofLease,stands,_⟩ := own row member watched
        refine ⟨stands,?_⟩
        unfold applied
        cases restates : patch.status with
        | none => exact active
        | some standing =>
          cases standing with
          | active => rfl
          | archived =>
            have carries : (carriedBy object.rows fact.id)[ROLE_CLAIMED_AT]? = some (Moments.print moment) := by
              have isLease : fact.id = lease.id := ofFact.symm.trans ofLease
              rw [carried_newest,stamped]
              · apply grounded.key_sorted
                intro row member
                obtain ⟨inRows,here⟩ := mem_rowsOf.mp member
                exact (own row inRows (Or.inr here)).2.2
              · intro row member
                obtain ⟨inRows,here⟩ := mem_rowsOf.mp member
                exact (own row inRows (Or.inr here)).1.trans isLease.symm
            have present := (keeps restates).2
            rw [←ExtTreeMap.isSome_getElem?_eq_contains,carries] at present
            cases present
    have nextId : (applied fact patch).id = fact.id := rfl
    refine ⟨grounded.edited has nextId,leased.kept ?_ shape (quiet_of values ?_) ?_⟩
    · intro key watched
      apply restated_rowsOf
      intro row member
      obtain ⟨inRows,here⟩ := mem_rowsOf.mp member
      unfold restated
      split
      · rename_i same
        obtain ⟨before,now⟩ := stays row inRows (here ▸ watched) same
        rw [now,←before]
      · rfl
    · intro key watched
      apply valuesFor_none
      intro row member same
      unfold writesOf at member
      rcases List.mem_append.mp member with cleared | written
      · obtain ⟨named,isCleared,isRow⟩ := List.mem_map.mp cleared
        obtain ⟨raw,inClear,isNamed⟩ := List.mem_map.mp (List.mem_filter.mp isCleared).1
        apply unnamed other (List.mem_append_right _ inClear)
        have isKey : named = key := by
          rw [←same,←isRow]
        rw [isNamed,isKey]
        exact watched
      · obtain ⟨raw,inFields,isRow⟩ := List.mem_map.mp written
        have named : raw.1 ∈ patch.fields.keys := by
          rw [ExtTreeMap.mem_keys,ExtTreeMap.mem_iff_isSome_getElem?,ExtTreeMap.mem_toList_iff_getElem?_eq_some.mp inFields]
          rfl
        apply unnamed other (List.mem_append_left _ named)
        have isKey : trim raw.1 = key := by
          rw [←same,←isRow]
        rw [isKey]
        exact watched
    · intro record inRecords stands carries
      obtain ⟨row,member,watched,ofRecord⟩ := carries
      obtain ⟨next,found,sameId,others⟩ := mem_mapped (applied fact patch) inRecords
      by_cases edited : record.id = fact.id
      · refine ⟨applied fact patch,?_,edited.symm,(stays row member watched (ofRecord.trans edited)).2⟩
        exact List.mem_map.mpr ⟨fact,has,if_pos rfl⟩
      · have same := others edited
        exact ⟨next,found,sameId,same ▸ stands⟩

-- The first claim of a role, on the record it makes.
theorem claim_captured {claimant : Text} (grounded : Grounded object) (leased : Leased object none)
    (valid : validSessionId claimant = true) (fresh : ∀ record ∈ object.records, record.id ≠ freshId)
    (took : capture declared role object (claimFact role freshId ((RoleWrite.claim claimant).fields at')) []
      ((RoleWrite.claim claimant).fields at').keys ownFieldsStay at' = .ok after) :
    Grounded after ∧ Leased after (some (some claimant,at')) := by
  obtain ⟨_,bags,classed,made⟩ := capture_ok took
  subst made
  obtain ⟨more,shape,own,values⟩ := appended (claimFact role freshId ((RoleWrite.claim claimant).fields at')) at' bags object.rows
    (writtenKeys (claimFact role freshId ((RoleWrite.claim claimant).fields at')))
  refine ⟨grounded.captured fresh,?_⟩
  have never : ∀ row ∈ object.rows, ¬Watched row.write.key := by
    cases leased with
    | unclaimed never => exact never
  have nobody : Owned object (claimFact role freshId ((RoleWrite.claim claimant).fields at')).id :=
    fun row member watched => absurd watched (never row member)
  refine Leased.rewritten (List.mem_append_right _ List.mem_cons_self) rfl nobody (fun _ _ => rfl) shape ?_ ?_ ?_ ?_
  · intro row member watched
    obtain ⟨ofFact,stands,bag⟩ := own row member
    refine ⟨ofFact,stands,?_⟩
    rw [bag]
    apply derived_reaches classed
    · intro sent member
      exact names_own member
    · exact (watched_plain watched).1
    · intro bag held
      simp at held
  · rw [values]
    rfl
  · intro name same
    rw [←Option.some.inj same]
    exact session_shown valid
  · rw [values]
    rfl

-- What landing an act does to a lease: what the act makes of it when it is let through, and
-- nothing when it is refused.
structure Landed (object : RoleObject) (held : Held) (at' : Timestamp) (act : Act) (landed : RoleObject × Option Refused) : Prop where
  grounded : Grounded landed.1
  either : (landed.2 = none ∧ lets held at' act ∧ Leased landed.1 (turned held at' act)) ∨
    (landed.2 ≠ none ∧ Leased landed.1 held ∧ landed.1.rows = object.rows)

variable {act : Act} {made : Except Refused RoleObject}

omit [Floats] in
theorem settled_landed (grounded : Grounded object) (leased : Leased object held)
    (took : ∀ after, made = .ok after → lets held at' act ∧ Grounded after ∧ Leased after (turned held at' act)) :
    Landed object held at' act (settled object made) := by
  cases made with
  | ok after =>
    obtain ⟨allowed,sound,next⟩ := took after rfl
    exact ⟨sound,Or.inl ⟨rfl,allowed,next⟩⟩
  | error refused => exact ⟨grounded,Or.inr ⟨nofun,leased,rfl⟩⟩

section
variable [LawfulMoments] (holderFolds : foldOf ROLE_HOLDER declared = .newest)
  (momentFolds : foldOf ROLE_CLAIMED_AT declared = .newest)

include holderFolds momentFolds

theorem role_landed (grounded : Grounded object) (leased : Leased object held) (valid : validSessionId write.claimant = true)
    (fresh : ∀ record ∈ object.records, record.id ≠ freshId) :
    Landed object held at' (.role write freshId) (writeRoleKeys declared role object write freshId ownFieldsStay at') := by
  obtain ⟨owns,claimed⟩ := claimRecord_owns role grounded leased
  unfold writeRoleKeys
  dsimp only
  cases record : roleClaimRecord role object with
  | some id =>
    apply settled_landed grounded leased
    intro after took
    exact role_updated grounded (lease_held holderFolds momentFolds grounded leased) leased valid (owns id record) took
  | none =>
    have nobody := claimed record
    subst nobody
    dsimp only
    cases moves : write.roleMove role with
    | none =>
      cases write with
      | claim claimant =>
        apply settled_landed grounded leased
        intro after took
        exact ⟨nofun,claim_captured grounded leased valid fresh took⟩
      | renew claimant => cases moves
      | release claimant => cases moves
    | some move =>
      -- A move finds no lease, on the empty record it made.
      dsimp only
      cases first : capture declared role object (claimFact role freshId ∅) [] [] ownFieldsStay at' with
      | error refused => exact ⟨grounded,Or.inr ⟨nofun,leased,rfl⟩⟩
      | ok made =>
        obtain ⟨sound,still⟩ := ordinary_captured grounded leased fresh rfl first
        obtain ⟨_,_,_,isMade⟩ := capture_ok first
        have rows : made.rows = object.rows := by
          rw [isMade]
          rfl
        have owned : Owned made freshId := by
          cases still with
          | unclaimed never => exact fun row member watched => absurd watched (never row member)
        have result : Landed made none at' (.role write freshId)
            (settled made (updateFact declared role made freshId (write.patch role at') ownFieldsStay at')) := by
          apply settled_landed sound still
          intro after took
          exact role_updated sound (lease_held holderFolds momentFolds sound still) still valid owned took
        refine ⟨result.grounded,?_⟩
        rw [←rows]
        exact result.either

theorem landed (grounded : Grounded object) (leased : Leased object held) (sent : Sent object act) :
    Landed object held at' act (land declared role object act ownFieldsStay at') := by
  cases act with
  | role write freshId => exact role_landed holderFolds momentFolds grounded leased sent.1 sent.2
  | capture fact sets derived =>
    apply settled_landed grounded leased
    intro after took
    exact ⟨trivial,ordinary_captured grounded leased sent.2.2 sent.2.1 took⟩
  | edit id patch =>
    apply settled_landed grounded leased
    intro after took
    exact ⟨trivial,ordinary_edited grounded leased sent took⟩

-- The holder's own renewal is never turned away.
theorem renew_taken {holder : Text} {moment : Timestamp} (grounded : Grounded object) (leased : Leased object (some (some holder,moment))) :
    (land declared role object (.role (.renew holder) freshId) ownFieldsStay at').2 = none := by
  have state := lease_held holderFolds momentFolds grounded leased
  obtain ⟨owns,claimed⟩ := claimRecord_owns role grounded leased
  cases leased with
  | @claimed lease _ _ has active own holds shown stamped =>
    have isLast := stamped
    unfold newest at isLast
    obtain ⟨last,found,_⟩ := Option.bind_eq_some_iff.mp isLast
    obtain ⟨inRows,here⟩ := mem_rowsOf.mp (List.mem_of_getLast? found)
    have sorted : (rowsOf object.rows ROLE_CLAIMED_AT).Pairwise fun a b => a.write.ordinal < b.write.ordinal := by
      apply grounded.key_sorted
      intro row member
      obtain ⟨inRows,here⟩ := mem_rowsOf.mp member
      exact (own row inRows (Or.inr here)).2.2
    unfold land writeRoleKeys
    dsimp only
    cases record : roleClaimRecord role object with
    | none => cases claimed record
    | some id =>
      have isLease : lease.id = id := (own last inRows (Or.inr here)).1.symm.trans (owns id record last inRows (Or.inr here)).1
      have takes : ∃ after, updateFact declared role object id ((RoleWrite.renew holder).patch role at') ownFieldsStay at' = .ok after := by
        obtain ⟨ordinal,overwrote,_,_⟩ := overwritten (Moments.print at') at' sorted stamped
        have renewed : (if isAPlainRenewal ((RoleWrite.renew holder).patch role at') then
            (((RoleWrite.renew holder).patch role at').fields[ROLE_CLAIMED_AT]?).bind (overwriteLeaseMoment object.rows · at')
            else none) = some (object.rows.map (restamped ordinal (Moments.print at') at')) := overwrote
        refine ⟨{ object with rows := object.rows.map (restamped ordinal (Moments.print at') at') },?_⟩
        unfold updateFact
        cases search : object.records.find? (·.id = id) with
        | none =>
          have absent := List.find?_eq_none.mp search lease has
          exact absurd (decide_eq_true isLease) absent
        | some fact =>
          have isFact : fact = lease := by
            apply List.inj_on_of_nodup_map grounded.apart (List.mem_of_find?_eq_some search) has
            have named : fact.id = id := by simpa using List.find?_some search
            exact named.trans isLease.symm
          dsimp only
          have allowed : refusesRoleWrite role ((RoleWrite.renew holder).patch role at').roleMove
              ((RoleWrite.renew holder).patch role at').fields (object.lease declared) = none := by
            rw [state]
            exact (lets_iff (some (some holder,moment)) at' (.renew holder) freshId).mpr ⟨moment,rfl⟩
          rw [isFact,active,if_neg (by decide),allowed]
          dsimp only
          rw [renewed]
      obtain ⟨after,took⟩ := takes
      dsimp only
      rw [took]
      rfl

end

end Lease
