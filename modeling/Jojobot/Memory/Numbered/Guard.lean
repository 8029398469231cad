import Jojobot.Memory.Numbered

namespace Numbering
open Library Std Memory

variable {scope before now : Numbered} {members : List Member} {member other : Member} {handle : EntityId}
  {edit : Edit} {edits : List Edit} {n : Nat} {value : Option Text} {change : Change} {joins : Bool}

theorem mem_retiredAll : n ∈ scope.retiredAll ↔ ∃ member ∈ scope.members, n ∈ member.retired := by
  rw [Numbered.retiredAll]
  induction scope.members with
  | nil => simp
  | cons first rest ih => simp [ih]

theorem mem_held : n ∈ scope.held ↔ ∃ member ∈ scope.members, member.number = some n := by
  simp [Numbered.held]

theorem isMember_iff : scope.isMember handle = true ↔ ∃ member ∈ scope.members, member.handle = handle := by
  simp [Numbered.isMember]

theorem lt_next (issued : n ∈ scope.held ∨ n ∈ scope.retiredAll) : n < scope.next := by
  have member : n ∈ scope.held.toFinset ∪ scope.retiredAll := by simpa using issued
  exact Nat.lt_succ_of_le (Finset.le_sup (f := id) member)

-- Each handle names one member of a collection.
def Once (members : List Member) : Prop := (members.map (·.handle)).Nodup

theorem Once.same (once : Once members) (inside : member ∈ members) (there : other ∈ members)
    (named : other.handle = member.handle) : other = member := List.inj_on_of_nodup_map once there inside named

theorem memberAt_of (once : Once scope.members) (inside : member ∈ scope.members) :
    scope.memberAt member.handle = some member := by
  cases found : scope.memberAt member.handle with
  | none =>
    have misses := List.find?_eq_none.mp found member inside
    simp at misses
  | some other =>
    have named := List.find?_some found
    simp only [decide_eq_true_eq] at named
    rw [once.same inside (List.mem_of_find?_eq_some found) named]

theorem numberAt_of (once : Once scope.members) (inside : member ∈ scope.members) :
    scope.numberAt member.handle = member.number := by
  rw [Numbered.numberAt,memberAt_of once inside,Option.bind_some]

theorem numberAt_inv (found : scope.numberAt handle = some n) :
    ∃ member ∈ scope.members, member.handle = handle ∧ member.number = some n := by
  obtain ⟨member,at_handle,number⟩ := Option.bind_eq_some_iff.mp found
  have named := List.find?_some at_handle
  simp only [decide_eq_true_eq] at named
  exact ⟨member,List.mem_of_find?_eq_some at_handle,named,number⟩

theorem setValue_handles (handle : EntityId) (value : Option Text) (members : List Member) :
    (setValue handle value members).map (·.handle) =
      if handle ∈ members.map (·.handle) then members.map (·.handle) else members.map (·.handle) ++ [handle] := by
  induction members with
  | nil => simp [setValue]
  | cons first rest ih =>
    rw [setValue]
    by_cases here : first.handle = handle
    · simp [here]
    · rw [if_neg here,List.map_cons,ih]
      simp only [List.map_cons,List.mem_cons,Ne.symm here,false_or]
      split <;> rfl

theorem Once.apply (once : Once members) (edit : Edit) : Once (edit.apply members) := by
  cases edit with
  | leave handle => exact List.Nodup.sublist (List.Sublist.map _ List.filter_sublist) once
  | set handle value =>
    rw [Once,Edit.apply,setValue_handles]
    split
    · exact once
    · rename_i fresh
      exact List.nodup_append.mpr ⟨once,by simp,fun a inside b single => by
        cases List.mem_singleton.mp single
        exact fun same => fresh (same ▸ inside)⟩

theorem Once.edited (once : Once members) (edits : List Edit) : Once (edits.foldl Edit.apply members) := by
  induction edits generalizing members with
  | nil => exact once
  | cons edit rest ih => exact ih (once.apply edit)

-- Where a member an edit leaves comes from: as it was, or set, and then with no
-- number retired that its handle had not.
def Stems (members : List Member) (edits : List Edit) (member : Member) : Prop :=
  (member ∈ members ∧ member.handle ∉ edits.filterMap Edit.sets ∧ Edit.leave member.handle ∉ edits) ∨
  (member.handle ∈ edits.filterMap Edit.sets ∧
    ∀ n ∈ member.retired, ∃ was ∈ members, was.handle = member.handle ∧ n ∈ was.retired)

theorem setValue_stems (once : Once members) (inside : member ∈ setValue handle value members) :
    (member ∈ members ∧ member.handle ≠ handle) ∨
      (member.handle = handle ∧ ∀ n ∈ member.retired, ∃ was ∈ members, was.handle = member.handle ∧ n ∈ was.retired) := by
  induction members with
  | nil =>
    cases List.mem_singleton.mp inside
    exact .inr ⟨rfl,by simp⟩
  | cons first rest ih =>
    have apart := List.nodup_cons.mp once
    rw [setValue] at inside
    split at inside
    · rename_i here
      rcases List.mem_cons.mp inside with rfl | later
      · exact .inr ⟨here,fun n retired => ⟨first,List.mem_cons_self,rfl,retired⟩⟩
      · refine .inl ⟨List.mem_cons_of_mem _ later,?_⟩
        intro same
        have named : first.handle ∈ rest.map (·.handle) := by
          rw [here,← same]
          exact List.mem_map_of_mem later
        exact apart.1 named
    · rename_i elsewhere
      rcases List.mem_cons.mp inside with rfl | later
      · exact .inl ⟨List.mem_cons_self,elsewhere⟩
      · rcases ih apart.2 later with ⟨held,other⟩ | ⟨named,retired⟩
        · exact .inl ⟨List.mem_cons_of_mem _ held,other⟩
        · refine .inr ⟨named,?_⟩
          intro n member
          obtain ⟨was,there,same⟩ := retired n member
          exact ⟨was,List.mem_cons_of_mem _ there,same⟩

theorem apply_stems (once : Once members) (inside : member ∈ edit.apply members) : Stems members [edit] member := by
  cases edit with
  | leave gone =>
    simp only [Edit.apply,List.mem_filter,decide_eq_true_eq] at inside
    refine .inl ⟨inside.1,by simp [Edit.sets],?_⟩
    intro leaves
    cases List.mem_singleton.mp leaves
    exact inside.2 rfl
  | set handle value =>
    rcases setValue_stems once inside with ⟨held,other⟩ | ⟨named,retired⟩
    · exact .inl ⟨held,by simpa [Edit.sets] using other,by simp⟩
    · exact .inr ⟨by simp [Edit.sets,named],retired⟩

theorem edited_stems (once : Once members) (inside : member ∈ edits.foldl Edit.apply members) :
    Stems members edits member := by
  induction edits generalizing members with
  | nil => exact .inl ⟨inside,by simp,by simp⟩
  | cons edit rest ih =>
    rcases ih (once.apply edit) inside with ⟨held,unset,stays⟩ | ⟨sets,retired⟩
    · rcases apply_stems once held with ⟨was,unsetHere,staysHere⟩ | ⟨setHere,retired⟩
      · refine .inl ⟨was,?_,?_⟩
        · intro sets
          rw [← List.singleton_append,List.filterMap_append,List.mem_append] at sets
          exact sets.elim unsetHere unset
        · intro leaves
          rcases List.mem_cons.mp leaves with here | later
          · exact staysHere (here ▸ List.mem_singleton_self _)
          · exact stays later
      · refine .inr ⟨?_,retired⟩
        rw [← List.singleton_append,List.filterMap_append]
        exact List.mem_append_left _ setHere
    · refine .inr ⟨?_,?_⟩
      · rw [← List.singleton_append,List.filterMap_append]
        exact List.mem_append_right _ sets
      · intro n member
        obtain ⟨between,there,same,held⟩ := retired n member
        rcases apply_stems once there with ⟨was,_,_⟩ | ⟨_,before⟩
        · exact ⟨between,was,same,held⟩
        · obtain ⟨was,inside,named,had⟩ := before n held
          exact ⟨was,inside,named.trans same,had⟩

-- A member no edit takes out keeps what its handle has retired.
theorem setValue_keeps (inside : member ∈ members) :
    ∃ later ∈ setValue handle value members, later.handle = member.handle ∧ later.retired = member.retired := by
  induction members with
  | nil => cases inside
  | cons first rest ih =>
    rw [setValue]
    split
    · rcases List.mem_cons.mp inside with rfl | later
      · exact ⟨_,List.mem_cons_self,rfl,rfl⟩
      · exact ⟨member,List.mem_cons_of_mem _ later,rfl,rfl⟩
    · rcases List.mem_cons.mp inside with rfl | later
      · exact ⟨_,List.mem_cons_self,rfl,rfl⟩
      · obtain ⟨kept,there,same⟩ := ih later
        exact ⟨kept,List.mem_cons_of_mem _ there,same⟩

theorem edited_keeps (inside : member ∈ members) (stays : Edit.leave member.handle ∉ edits) :
    ∃ later ∈ edits.foldl Edit.apply members, later.handle = member.handle ∧ later.retired = member.retired := by
  induction edits generalizing members member with
  | nil => exact ⟨member,inside,rfl,rfl⟩
  | cons edit rest ih =>
    have first : ∃ later ∈ edit.apply members, later.handle = member.handle ∧ later.retired = member.retired := by
      cases edit with
      | leave gone =>
        refine ⟨member,List.mem_filter.mpr ⟨inside,?_⟩,rfl,rfl⟩
        simp only [decide_eq_true_eq]
        intro same
        exact stays (same ▸ List.mem_cons_self)
      | set handle value => exact setValue_keeps inside
    obtain ⟨later,there,named,retired⟩ := first
    obtain ⟨last,inLast,same,kept⟩ := ih there (by rw [named]; exact fun leaves => stays (List.mem_cons_of_mem _ leaves))
    exact ⟨last,inLast,same.trans named,kept.trans retired⟩

-- What the guard lets through.
structure Passes (before now : Numbered) (edits : List Edit) : Prop where
  alone : ∀ member ∈ now.members, member.handle ∈ edits.filterMap Edit.sets → ∀ n, member.number = some n →
    ∀ other ∈ now.members, other.number = some n → other.handle = member.handle
  fresh : ∀ member ∈ now.members, member.handle ∈ edits.filterMap Edit.sets → ∀ n, member.number = some n →
    n ∈ before.retiredAll → before.numberAt member.handle = some n
  still : ∀ member ∈ before.members, ∀ n, member.number = some n → ∃ holder ∈ now.members, holder.number = some n
  noneOut : keptBy before edits = false → ∀ member ∈ before.members, Edit.leave member.handle ∈ edits →
    member.retired ⊆ now.retiredAll

theorem mem_touchedBy : handle ∈ touchedBy edits ↔ handle ∈ edits.filterMap Edit.sets := by
  rw [touchedBy,mem_sortBy,List.mem_dedup]

theorem passes_of (once : Once before.members) (allowed : refusesNumbering before edits = none) :
    Passes before (before.edited edits) edits := by
  have onceNow : Once (before.edited edits).members := once.edited edits
  simp only [refusesNumbering,Option.or_eq_none_iff] at allowed
  obtain ⟨_,untaken,unissued,unfreed,kept⟩ := allowed
  refine ⟨?_,?_,?_,?_⟩
  · intro member inside sets n number other there held
    have asked := List.findSome?_eq_none_iff.mp untaken member.handle (mem_touchedBy.mpr sets)
    rw [numberAt_of onceNow inside,number] at asked
    by_contra apart
    have rival : other ∈ (before.edited edits).members.filter fun one =>
        one.handle ≠ member.handle && one.number = some n := List.mem_filter.mpr ⟨there,by simp [apart,held]⟩
    simp only [Option.bind_eq_bind,Option.bind_some,Option.bind_eq_none_iff,reduceCtorEq,imp_false] at asked
    obtain ⟨first,rest,shape⟩ := List.exists_cons_of_ne_nil (List.ne_nil_of_mem rival)
    rw [shape] at asked
    cases found : (first :: rest).find? (fun one => !(touchedBy edits).contains one.handle) with
    | none => exact asked first (by rw [found]; rfl)
    | some one => exact asked one (by rw [found]; rfl)
  · intro member inside sets n number retired
    have asked := List.findSome?_eq_none_iff.mp unissued member.handle (mem_touchedBy.mpr sets)
    rw [numberAt_of onceNow inside,number] at asked
    by_contra other
    simp [retired,other] at asked
  · intro member inside n number
    have asked := List.findSome?_eq_none_iff.mp unfreed member inside
    simp only [number,Option.bind_eq_bind,Option.bind_some,ite_eq_left_iff,reduceCtorEq,imp_false,
      Bool.not_eq_true,Option.isSome_eq_false_iff,Option.isNone_iff_eq_none] at asked
    obtain ⟨holder,found⟩ := Option.ne_none_iff_exists'.mp asked
    have holds := List.find?_some found
    exact ⟨holder,List.mem_of_find?_eq_some found,by simpa using holds⟩
  · intro unkept member inside leaves n retired
    rw [takenOut,if_neg (by simp [unkept])] at kept
    have asked := List.findSome?_eq_none_iff.mp kept _ leaves
    simp only [memberAt_of once inside,Option.bind_eq_bind,Option.bind_some,Option.bind_eq_none_iff,
      reduceCtorEq,imp_false] at asked
    cases found : (member.retired.sort (· ≤ ·)).find? (· ∉ (before.edited edits).retiredAll) with
    | none =>
      have all := List.find?_eq_none.mp found n ((Finset.mem_sort _).mpr retired)
      simpa using all
    | some lost => exact (asked lost found).elim

end Numbering
