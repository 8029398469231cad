import Mathlib.Data.List.Basic
import Std.Data.ExtTreeMap
import Std.Data.ExtTreeSet

namespace Library
open Std

-- Groups of groups with no empty one among them, as a map of maps of sets is kept
-- by a run of inserts and removals. `pruned` is what the removals keep, and two
-- pruned values with the same elements are one value.
class Grouped (G : Type) (α : outParam Type) where
  bare : G
  has : G → α → Prop
  put : G → α → G
  drop : G → α → G
  isBare : G → Bool
  pruned : G → Prop
  bare_pruned : pruned bare
  not_has_bare : ¬ has bare a
  put_pruned : pruned g → pruned (put g a)
  drop_pruned : pruned g → pruned (drop g a)
  has_put : has (put g a) b ↔ b = a ∨ has g b
  has_drop : pruned g → (has (drop g a) b ↔ b ≠ a ∧ has g b)
  isBare_iff : pruned g → (isBare g = true ↔ ∀ a, ¬ has g a)
  same : pruned g → pruned h → (∀ a, has g a ↔ has h a) → g = h

section
variable {ι : Type} {cmp : ι → ι → Ordering} [TransCmp cmp] [LawfulEqCmp cmp]

theorem treeSet_bare_iff (set : ExtTreeSet ι cmp) : set.isEmpty = true ↔ ∀ a, a ∉ set := by
  rw [ExtTreeSet.isEmpty_iff]
  constructor
  · rintro rfl a member
    simp at member
  · exact fun empty => ExtTreeSet.ext_mem fun a => by simp [empty a]

instance : Grouped (ExtTreeSet ι cmp) ι where
  bare := ∅
  has set a := a ∈ set
  put set a := set.insert a
  drop set a := set.erase a
  isBare set := set.isEmpty
  pruned _ := True
  bare_pruned := trivial
  not_has_bare := by simp
  put_pruned _ := trivial
  drop_pruned _ := trivial
  has_put := by
    intro set a b
    rw [ExtTreeSet.mem_insert,LawfulEqCmp.compare_eq_iff_eq,eq_comm]
  has_drop := by
    intro set a b _
    rw [ExtTreeSet.mem_erase,ne_eq,LawfulEqCmp.compare_eq_iff_eq,eq_comm]
  isBare_iff _ := treeSet_bare_iff _
  same _ _ alike := ExtTreeSet.ext_mem alike

end

section
variable {κ G α : Type} {cmp : κ → κ → Ordering} [TransCmp cmp] [LawfulEqCmp cmp] [Grouped G α]
open Grouped

def groupHas (groups : ExtTreeMap κ G cmp) (entry : κ × α) : Prop :=
  ∃ group, groups[entry.1]? = some group ∧ has group entry.2

def groupPut (groups : ExtTreeMap κ G cmp) (entry : κ × α) : ExtTreeMap κ G cmp :=
  groups.insert entry.1 (put ((groups[entry.1]?).getD bare) entry.2)

-- A group the removal leaves empty goes with it.
def groupDrop (groups : ExtTreeMap κ G cmp) (entry : κ × α) : ExtTreeMap κ G cmp :=
  match groups[entry.1]? with
  | none => groups
  | some group =>
    let group := drop group entry.2
    if isBare group then groups.erase entry.1 else groups.insert entry.1 group

omit [LawfulEqCmp cmp] in
theorem groupDrop_held {groups : ExtTreeMap κ G cmp} {key : κ} {group : G} {a : α}
    (held : groups[key]? = some group) : groupDrop groups (key,a) =
      if isBare (drop group a) then groups.erase key else groups.insert key (drop group a) := by
  simp [groupDrop,held]

def groupPruned (groups : ExtTreeMap κ G cmp) : Prop :=
  ∀ (key : κ) (group : G), groups[key]? = some group → pruned group ∧ isBare group = false

variable {groups others : ExtTreeMap κ G cmp} {entry other : κ × α}

omit [LawfulEqCmp cmp] in
theorem groupPut_pruned (kept : groupPruned groups) : groupPruned (groupPut groups entry) := by
  intro key group found
  rw [groupPut,ExtTreeMap.getElem?_insert] at found
  split at found
  · cases found
    have inner : pruned ((groups[entry.1]?).getD bare) := by
      cases held : groups[entry.1]? with
      | none => exact bare_pruned
      | some group => exact (kept _ _ held).1
    refine ⟨put_pruned inner,?_⟩
    rw [Bool.eq_false_iff,ne_eq,isBare_iff (put_pruned inner)]
    exact fun none => none entry.2 (has_put.mpr (.inl rfl))
  · exact kept _ _ found

omit [LawfulEqCmp cmp] in
theorem groupDrop_pruned (kept : groupPruned groups) : groupPruned (groupDrop groups entry) := by
  intro key group found
  rw [groupDrop] at found
  split at found
  · exact kept _ _ found
  next held =>
  dsimp only at found
  split at found
  · rw [ExtTreeMap.getElem?_erase] at found
    split at found
    · cases found
    · exact kept _ _ found
  · rw [ExtTreeMap.getElem?_insert] at found
    split at found
    · cases found
      exact ⟨drop_pruned (kept _ _ held).1,by simpa using ‹¬ isBare _ = true›⟩
    · exact kept _ _ found

theorem groupHas_put : groupHas (groupPut groups entry) other ↔ other = entry ∨ groupHas groups other := by
  obtain ⟨key,a⟩ := entry
  obtain ⟨at_key,b⟩ := other
  simp only [groupHas,groupPut,ExtTreeMap.getElem?_insert,LawfulEqCmp.compare_eq_iff_eq,Prod.mk.injEq]
  by_cases same : key = at_key
  · subst same
    cases held : groups[key]? with
    | none => simp [has_put,not_has_bare]
    | some group => simp [has_put]
  · simp [same,Ne.symm same]

theorem groupHas_drop (kept : groupPruned groups) :
    groupHas (groupDrop groups entry) other ↔ other ≠ entry ∧ groupHas groups other := by
  obtain ⟨key,a⟩ := entry
  obtain ⟨at_key,b⟩ := other
  cases held : groups[key]? with
  | none =>
    simp only [groupHas,groupDrop,held,ne_eq,Prod.mk.injEq,not_and,iff_and_self]
    rintro ⟨group,found,_⟩ rfl
    rw [held] at found; cases found
  | some group =>
    have clean := (kept _ _ held).1
    have drops := has_drop (a := a) (b := b) clean
    rw [groupDrop_held held]
    simp only [groupHas,ne_eq,Prod.mk.injEq]
    by_cases same : key = at_key
    · subst same
      by_cases bare : isBare (drop group a) = true
      · have none := (isBare_iff (drop_pruned clean)).mp bare b
        rw [drops] at none
        simpa [bare,held] using none
      · simp [bare,held,drops]
    · by_cases bare : isBare (drop group a) = true <;>
        simp [bare,ExtTreeMap.getElem?_erase,ExtTreeMap.getElem?_insert,same,Ne.symm same]

theorem group_bare_iff (kept : groupPruned groups) : groups.isEmpty = true ↔ ∀ entry, ¬ groupHas groups entry := by
  rw [ExtTreeMap.isEmpty_iff]
  constructor
  · rintro rfl entry ⟨group,found,_⟩
    simp at found
  · refine fun empty => ExtTreeMap.ext_getElem? fun key => ?_
    cases held : groups[key]? with
    | none => simp
    | some group =>
      have ⟨clean,full⟩ := kept _ _ held
      rw [Bool.eq_false_iff,ne_eq,isBare_iff clean] at full
      exact (full fun a member => empty (key,a) ⟨group,held,member⟩).elim

theorem group_same (kept : groupPruned groups) (others_kept : groupPruned others)
    (alike : ∀ entry, groupHas groups entry ↔ groupHas others entry) : groups = others := by
  -- A group on one side has an element, so the other side has a group under that key.
  have inside : ∀ {one two : ExtTreeMap κ G cmp} {key : κ} {group : G}, groupPruned one →
      (∀ entry, groupHas one entry → groupHas two entry) → one[key]? = some group →
      ∃ a, has group a ∧ ∃ twin, two[key]? = some twin ∧ has twin a := by
    intro one two key group kept alike held
    obtain ⟨clean,full⟩ := kept _ _ held
    rw [Bool.eq_false_iff,ne_eq,isBare_iff clean] at full
    push Not at full
    obtain ⟨a,member⟩ := full
    exact ⟨a,member,alike (key,a) ⟨group,held,member⟩⟩
  refine ExtTreeMap.ext_getElem? fun key => ?_
  cases held : groups[key]? with
  | none =>
    cases found : others[key]? with
    | none => rfl
    | some twin =>
      obtain ⟨a,_,group,there,_⟩ := inside others_kept (fun entry => (alike entry).mpr) found
      rw [held] at there; cases there
  | some group =>
    obtain ⟨a,_,twin,there,_⟩ := inside kept (fun entry => (alike entry).mp) held
    rw [there]
    refine congrArg some (same (kept _ _ held).1 (others_kept _ _ there).1 fun a => ?_)
    have twins := alike (key,a)
    simpa [groupHas,held,there] using twins

instance : Grouped (ExtTreeMap κ G cmp) (κ × α) where
  bare := ∅
  has := groupHas
  put := groupPut
  drop := groupDrop
  isBare groups := groups.isEmpty
  pruned := groupPruned
  bare_pruned := by simp [groupPruned]
  not_has_bare := by simp [groupHas]
  put_pruned := groupPut_pruned
  drop_pruned := groupDrop_pruned
  has_put := groupHas_put
  has_drop := groupHas_drop
  isBare_iff := group_bare_iff
  same := group_same

end

section
open Grouped
variable {κ σ ι : Type} {byKey : κ → κ → Ordering} {bySub : σ → σ → Ordering} {byId : ι → ι → Ordering}
  [TransCmp byKey] [LawfulEqCmp byKey] [TransCmp bySub] [LawfulEqCmp bySub] [TransCmp byId] [LawfulEqCmp byId]
  {key : κ} {sub : σ} {id : ι}

theorem has_group {groups : ExtTreeMap κ (ExtTreeSet ι byId) byKey} :
    has groups (key,id) ↔ id ∈ (groups[key]?).getD ∅ := by
  change groupHas groups (key,id) ↔ _
  cases held : groups[key]? with
  | none => simp [groupHas,held]
  | some group => simp only [groupHas,held,Option.some.injEq,exists_eq_left',Option.getD_some]; rfl

theorem has_nested {groups : ExtTreeMap κ (ExtTreeMap σ (ExtTreeSet ι byId) bySub) byKey} :
    has groups (key,sub,id) ↔ id ∈ ((groups[key]?).bind (·[sub]?)).getD ∅ := by
  change groupHas groups (key,sub,id) ↔ _
  cases held : groups[key]? with
  | none => simp [groupHas,held]
  | some group => simp only [groupHas,held,Option.some.injEq,exists_eq_left',Option.bind_some]; exact has_group

end

end Library
