import Jojobot.Memory.Testimony

namespace Testimony
open Library Std Memory

variable {loaded : List Text} {address : FactAddress} {fact next : Fact} {patch settled : FactPatch}
  {writtenIn : Option Text} {declared : List FoldType} {fields : Fields} {key : Text}

theorem settleReason_frame (fact : Fact) (patch : FactPatch) :
    (settleReason fact patch).provenance = patch.provenance ∧ (settleReason fact patch).session = patch.session := by
  unfold settleReason
  split
  · split
    · dsimp only
      split
      · exact ⟨rfl,rfl⟩
      · exact ⟨rfl,rfl⟩
    · exact ⟨rfl,rfl⟩
  · exact ⟨rfl,rfl⟩

-- What an archive says in its details is never left there.
theorem settleReason_archives (archives : (settleReason fact patch).status = some .archived) :
    (settleReason fact patch).details = none := by
  unfold settleReason at archives ⊢
  split
  · split
    · dsimp only
      split
      · rfl
      · rfl
    · rfl
  · rename_i other
    rw [if_neg other] at archives
    exact absurd archives other

-- What a patch of another session is once settled on testimony: it rewrites nothing.
structure RewritesNothing (loaded : List Text) (address : FactAddress) (fact : Fact) (declared : List FoldType)
    (settled : FactPatch) : Prop where
  content : settled.content = none
  details : ∀ details, settled.details = some details → normalizeDetails (some details) = fact.details
  values : ∀ row ∈ settled.named, rewritesValue loaded address fact declared row = false

theorem settleRewrite_foreign (testimony : fact.provenance = .testimony) (foreign : patch.session ≠ some writer)
    (accepted : settleRewrite loaded address fact patch (some writer) declared = .ok settled) :
    settled.provenance = patch.provenance ∧ RewritesNothing loaded address fact declared settled := by
  obtain ⟨provenance,session⟩ := settleReason_frame fact patch
  have unowned : ((settleReason fact patch).session.isSome &&
      decide ((settleReason fact patch).session = some writer)) = false := by
    rw [session,decide_eq_false foreign,Bool.and_false]
  unfold settleRewrite at accepted
  dsimp only at accepted
  rw [unowned] at accepted
  generalize (settleReason fact patch).content.any _ = rewritesWords at accepted
  cases rewritesWords with
  | true =>
    simp only [Bool.not_true,Bool.false_and,Bool.false_eq_true,if_false,testimony,not_false_eq_true,and_self,
      if_true] at accepted
    split at accepted
    · cases accepted
    · cases accepted
  | false =>
    simp only [Bool.not_false,Bool.true_and,Bool.false_eq_true,if_false,testimony,not_false_eq_true,and_self,
      if_true] at accepted
    split at accepted
    · rename_i quiet
      simp only [Bool.and_eq_true,Bool.not_eq_true'] at quiet
      obtain ⟨noDetails,noValues⟩ := quiet
      cases Except.ok.inj accepted
      refine ⟨provenance,rfl,?_,?_⟩
      · intro details sent
        have sent : (settleReason fact patch).details = some details := sent
        by_cases archives : (settleReason fact patch).status = some .archived
        · rw [settleReason_archives archives] at sent
          cases sent
        · simpa [archives,sent] using noDetails
      · intro row named
        have quiet := List.any_eq_false.mp noValues row named
        simpa using quiet
    · split at accepted
      · cases accepted
      · cases accepted

theorem applyFactPatch_applied (accepted : applyFactPatch loaded fact patch = .ok next) :
    ∃ receipt, next = applied fact patch receipt := by
  unfold applyFactPatch at accepted
  cases checked : checkPatch loaded fact patch with
  | error refused =>
    rw [checked] at accepted
    cases accepted
  | ok receipt =>
    simp only [checked,bind,Except.bind] at accepted
    split at accepted
    · cases accepted
    · exact ⟨receipt,(Except.ok.inj accepted).symm⟩

theorem applied_frame (fact : Fact) (patch : FactPatch) (receipt : Option Receipt) :
    (applied fact patch receipt).content = (patch.content.map normalizeContent).getD fact.content ∧
      (applied fact patch receipt).details = (if patch.details.isSome then normalizeDetails patch.details else fact.details) ∧
      (applied fact patch receipt).provenance = patch.provenance.getD fact.provenance ∧
      (applied fact patch receipt).fields = patchedFields fact.fields patch := by
  unfold applied carry
  dsimp only
  split
  · exact ⟨rfl,rfl,rfl,rfl⟩
  · split
    · exact ⟨rfl,rfl,rfl,rfl⟩
    · exact ⟨rfl,rfl,rfl,rfl⟩

-- The value under a key stands while each row naming the key sends what it holds.
theorem cleared_held (cleared : List Text) (quiet : ∀ sent ∈ cleared, trim sent = key → held = none)
    (holds : (fields[key]?).map trim = held) :
    ((cleared.foldl (fun fields key => fields.erase (trim key)) fields)[key]?).map trim = held := by
  induction cleared generalizing fields with
  | nil => exact holds
  | cons sent rest ih =>
    apply ih (fun other member => quiet other (List.mem_cons_of_mem _ member))
    by_cases same : trim sent = key
    · rw [quiet sent List.mem_cons_self same]
      simp [same]
    · simpa [ExtTreeMap.getElem?_erase,same] using holds

theorem inserted_held (rows : List (Text × Text)) (quiet : ∀ row ∈ rows, trim row.1 = key → held = some (trim row.2))
    (holds : (fields[key]?).map trim = held) :
    ((rows.foldl (fun fields row => fields.insert (trim row.1) row.2) fields)[key]?).map trim = held := by
  induction rows generalizing fields with
  | nil => exact holds
  | cons row rest ih =>
    apply ih (fun other member => quiet other (List.mem_cons_of_mem _ member))
    by_cases same : trim row.1 = key
    · rw [quiet row List.mem_cons_self same]
      simp [same]
    · simpa [ExtTreeMap.getElem?_insert,same] using holds

theorem patchedFields_held (quiet : ∀ row ∈ patch.named, row.1 = key → row.2 = (fields[key]?).map trim) :
    ((patchedFields fields patch)[key]?).map trim = (fields[key]?).map trim := by
  unfold patchedFields
  apply inserted_held
  · intro row member same
    apply Eq.symm
    exact quiet (trim row.1,some (trim row.2)) (List.mem_append_left _ (List.mem_map_of_mem member)) same
  · apply cleared_held _ _ rfl
    intro sent member same
    apply Eq.symm
    exact quiet (trim sent,none) (List.mem_append_right _ (List.mem_map_of_mem member)) same

-- A key the engine does not own and no type reads as describing is one of the words.
theorem quiet_value (owned : engineOwned loaded address key = false) (folds : foldOf key declared ≠ .describes)
    (quiet : rewritesValue loaded address fact declared (key,value) = false) : value = (fact.fields[key]?).map trim := by
  simp only [engineOwned,Bool.or_eq_false_iff,decide_eq_false_iff_not] at owned
  obtain ⟨⟨⟨⟨due,reason⟩,bookkeeping⟩,placement⟩,edges⟩ := owned
  by_contra other
  apply Bool.false_ne_true
  rw [←quiet]
  have kept : ((fact.fields[key]?).map trim ≠ value) := fun same => other same.symm
  unfold rewritesValue
  simp only [due,reason,bookkeeping,placement,folds,kept,ne_eq,not_false_eq_true,decide_true,Bool.not_false,
    Bool.true_and,Bool.and_true]
  rw [edges]
  rfl

-- What a session other than the writer leaves of a claim.
structure KeepsWords (loaded : List Text) (address : FactAddress) (folds : List (List FoldType)) (left now : Fact) : Prop where
  content : now.content = left.content
  details : now.details = left.details
  values : ∀ key, engineOwned loaded address key = false → (∀ declared ∈ folds, foldOf key declared ≠ .describes) →
    (now.fields[key]?).map trim = (left.fields[key]?).map trim

theorem apply_keeps_words {edit : Edit} (testimony : fact.provenance = .testimony) (foreign : edit.patch.session ≠ some writer)
    (accepted : edit.apply loaded address (some writer) fact = .ok next) :
    KeepsWords loaded address [edit.declared] fact next ∧
      next.provenance = edit.patch.provenance.getD .testimony := by
  unfold Edit.apply at accepted
  cases settling : settleRewrite loaded address fact edit.patch (some writer) edit.declared with
  | error refused =>
    rw [settling] at accepted
    cases accepted
  | ok settled =>
    simp only [settling,bind,Except.bind] at accepted
    obtain ⟨provenance,nothing⟩ := settleRewrite_foreign testimony foreign settling
    obtain ⟨receipt,shape⟩ := applyFactPatch_applied accepted
    obtain ⟨content,details,backed,fields⟩ := applied_frame fact settled receipt
    subst shape
    refine ⟨⟨?_,?_,?_⟩,?_⟩
    · rw [content,nothing.content]
      rfl
    · rw [details]
      cases sent : settled.details with
      | none => rfl
      | some words => exact nothing.details words sent
    · intro key owned folds
      rw [fields]
      apply patchedFields_held
      intro row named same
      subst same
      exact quiet_value owned (folds _ List.mem_cons_self) (nothing.values row named)
    · rw [backed,provenance,testimony]

theorem KeepsWords.append {folds more : List (List FoldType)} (first : KeepsWords loaded address folds left fact)
    (second : KeepsWords loaded address more fact next) : KeepsWords loaded address (folds ++ more) left next := by
  refine ⟨second.content.trans first.content,second.details.trans first.details,?_⟩
  intro key owned describes
  have early := first.values key owned fun declared member => describes declared (List.mem_append_left _ member)
  have late := second.values key owned fun declared member => describes declared (List.mem_append_right _ member)
  exact late.trans early

-- By induction on the edits: the claim stands as testimony before each of them.
theorem run_keeps_words (testimony : left.provenance = .testimony) (edits : List Edit)
    (foreign : ∀ edit ∈ edits, edit.patch.session ≠ some writer)
    (stands : ∀ edit ∈ edits.dropLast, edit.patch.provenance.getD .testimony = .testimony)
    (accepted : applyEdits loaded address (some writer) left edits = .ok now) :
    KeepsWords loaded address (edits.map (·.declared)) left now := by
  induction edits generalizing left with
  | nil =>
    cases Except.ok.inj accepted
    exact ⟨rfl,rfl,fun _ _ _ => rfl⟩
  | cons edit rest ih =>
    unfold applyEdits at accepted
    rw [List.foldlM_cons] at accepted
    cases moved : edit.apply loaded address (some writer) left with
    | error refused =>
      rw [moved] at accepted
      cases accepted
    | ok next =>
      rw [moved] at accepted
      obtain ⟨kept,backed⟩ := apply_keeps_words testimony (foreign edit List.mem_cons_self) moved
      cases rest with
      | nil =>
        cases Except.ok.inj accepted
        exact kept
      | cons second rest =>
        rw [List.dropLast_cons_cons] at stands
        have standing : next.provenance = .testimony := backed.trans (stands edit List.mem_cons_self)
        have later := ih standing (fun other member => foreign other (List.mem_cons_of_mem _ member))
          (fun other member => stands other (List.mem_cons_of_mem _ member)) accepted
        exact kept.append later

theorem testimony_keeps_its_words (loaded : List Text) (address : FactAddress) (writer : Text) (left now : Fact)
    (edits : List Edit) (testimony : left.provenance = .testimony)
    (foreign : ∀ edit ∈ edits, edit.patch.session ≠ some writer)
    (stands : ∀ edit ∈ edits.dropLast, edit.patch.provenance = none ∨ edit.patch.provenance = some .testimony)
    (accepted : applyEdits loaded address (some writer) left edits = .ok now) :
    trim now.content = trim left.content ∧ now.details = left.details ∧
      ∀ key, engineOwned loaded address key = false → (∀ edit ∈ edits, foldOf key edit.declared ≠ .describes) →
        (now.fields[key]?).map trim = (left.fields[key]?).map trim := by
  have kept : KeepsWords loaded address (edits.map (·.declared)) left now := by
    apply run_keeps_words testimony edits foreign _ accepted
    intro edit member
    rcases stands edit member with unnamed | named
    · rw [unnamed]
      rfl
    · rw [named]
      rfl
  refine ⟨congrArg trim kept.content,kept.details,?_⟩
  intro key owned describes
  apply kept.values key owned
  intro declared member
  obtain ⟨edit,held,same⟩ := List.mem_map.mp member
  rw [←same]
  exact describes edit held

def said (content : Text) : Fact where
  id := "f1".toList
  home := "person:a".toList
  content := content
  details := none
  status := .active
  fields := {}
  provenance := .testimony
  standing := .settled
  recordedAt := 0
  happenedAt := none
  happenedThrough := none
  staleAfter := none
  receipt := none
  appStamp := none
  edge := none
  derivedFrom := none
  standsFor := []

-- Another session archives the claim and then moves it down: the words stand.
theorem archived_testimony_keeps_its_words : ∃ now,
    applyEdits [] ⟨"person:a".toList,"f1".toList⟩ (some "w".toList) (said "so".toList)
      [⟨[],{ status := some .archived, details := some "wrong".toList, session := some "x".toList }⟩,
        ⟨[],{ provenance := some .inference }⟩] = .ok now ∧ trim now.content = "so".toList ∧ now.details = none := by
  obtain ⟨now,ran⟩ : ∃ now, applyEdits [] ⟨"person:a".toList,"f1".toList⟩ (some "w".toList) (said "so".toList)
      [⟨[],{ status := some .archived, details := some "wrong".toList, session := some "x".toList }⟩,
        ⟨[],{ provenance := some .inference }⟩] = .ok now := ⟨_,rfl⟩
  obtain ⟨content,details,_⟩ := testimony_keeps_its_words _ _ _ _ now _ rfl (by simp) (by simp) ran
  exact ⟨now,ran,content,details⟩

-- Moved down by another session, testimony is rewritten by the next edit.
theorem testimony_moved_down_loses_its_words : ¬∀ (loaded : List Text) (address : FactAddress) (writer : Text)
    (left now : Fact) (edits : List Edit), left.provenance = .testimony →
      (∀ edit ∈ edits, edit.patch.session ≠ some writer) →
      applyEdits loaded address (some writer) left edits = .ok now → trim now.content = trim left.content := by
  intro kept
  have same := kept [] ⟨"person:a".toList,"f1".toList⟩ "w".toList (said "so".toList) _
    [⟨[],{ provenance := some .inference, session := some "x".toList }⟩,
      ⟨[],{ content := some "not so".toList, session := some "x".toList }⟩] rfl (by simp) rfl
  exact absurd same (by decide)

end Testimony
