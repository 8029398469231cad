import Mathlib.Data.List.Basic
import Std.Data.ExtTreeMap.Lemmas

namespace Library
open Std

variable {κ α : Type} [Ord κ] [TransOrd κ] {key : κ}

-- Rows laid on a table one after another, and keys taken off it.
def laid (table : ExtTreeMap κ α) (rows : List (κ × α)) : ExtTreeMap κ α :=
  rows.foldl (fun table row => table.insert row.1 row.2) table

def takenOff (table : ExtTreeMap κ α) (keys : List κ) : ExtTreeMap κ α := keys.foldl (·.erase ·) table

variable [LawfulEqOrd κ] [DecidableEq κ]

-- The last row of a key is what the key reads.
theorem laid_key (table : ExtTreeMap κ α) (rows : List (κ × α)) (key : κ) :
    (laid table rows)[key]? = ((rows.filter (·.1 = key)).getLast?.map (·.2)).or table[key]? := by
  induction rows generalizing table with
  | nil => rfl
  | cons row rest ih =>
    refine Eq.trans (ih (table.insert row.1 row.2)) ?_
    by_cases here : row.1 = key
    · subst here
      simp only [List.filter_cons,decide_true,if_true,List.getLast?_cons,ExtTreeMap.getElem?_insert_self]
      cases (rest.filter (·.1 = row.1)).getLast? with
      | none => rfl
      | some last => rfl
    · simp [ExtTreeMap.getElem?_insert,here]

-- A table laid over another is read first.
theorem laid_toList (table rows : ExtTreeMap κ α) (key : κ) :
    (laid table rows.toList)[key]? = rows[key]?.or table[key]? := by
  rw [laid_key]
  congr 1
  have under : ∀ row ∈ rows.toList.filter (·.1 = key), rows[key]? = some row.2 := by
    intro row member
    obtain ⟨stored,same⟩ := List.mem_filter.mp member
    rw [←of_decide_eq_true same]
    exact ExtTreeMap.mem_toList_iff_getElem?_eq_some.mp stored
  cases held : rows[key]? with
  | none =>
    have none' : rows.toList.filter (·.1 = key) = [] := by
      apply List.eq_nil_iff_forall_not_mem.mpr
      intro row member
      rw [held] at under
      cases under row member
    rw [none']
    rfl
  | some value =>
    have stored : (key,value) ∈ rows.toList.filter (·.1 = key) :=
      List.mem_filter.mpr ⟨ExtTreeMap.mem_toList_iff_getElem?_eq_some.mpr held,decide_eq_true rfl⟩
    obtain ⟨front,last,shape⟩ := (List.eq_nil_or_concat' _).resolve_left (List.ne_nil_of_mem stored)
    have found := under last (by rw [shape]; simp)
    rw [held] at found
    rw [shape,List.getLast?_concat,Option.some.inj found]
    rfl

omit [DecidableEq κ] in
theorem takenOff_kept (table : ExtTreeMap κ α) {keys : List κ} (kept : key ∉ keys) : (takenOff table keys)[key]? = table[key]? := by
  induction keys generalizing table with
  | nil => rfl
  | cons first rest ih =>
    simp only [List.mem_cons,not_or] at kept
    refine Eq.trans (ih (table.erase first) kept.2) ?_
    simp [ExtTreeMap.getElem?_erase,Ne.symm kept.1]

omit [DecidableEq κ] in
theorem takenOff_gone (table : ExtTreeMap κ α) {keys : List κ} (gone : key ∈ keys ∨ table[key]? = none) :
    (takenOff table keys)[key]? = none := by
  induction keys generalizing table with
  | nil => exact gone.resolve_left List.not_mem_nil
  | cons first rest ih =>
    apply ih (table.erase first)
    by_cases same : first = key
    · right
      simp [same]
    · rcases gone with member | absent
      · exact Or.inl ((List.mem_cons.mp member).resolve_left fun equal => same equal.symm)
      · right
        simp [ExtTreeMap.getElem?_erase,same,absent]

end Library
