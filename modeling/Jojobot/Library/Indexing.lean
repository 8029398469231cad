import Jojobot.Library.Grouped

namespace Library
open Std Grouped

variable {G α ι δ : Type} [Grouped G α] {g h : G} {a : α}

def putAll (g : G) (entries : List α) : G := entries.foldl put g
def dropAll (g : G) (entries : List α) : G := entries.foldl drop g

theorem putAll_pruned (entries : List α) (kept : pruned g) : pruned (putAll g entries) := by
  induction entries generalizing g with
  | nil => exact kept
  | cons entry rest ih => exact ih (put_pruned kept)

theorem dropAll_pruned (entries : List α) (kept : pruned g) : pruned (dropAll g entries) := by
  induction entries generalizing g with
  | nil => exact kept
  | cons entry rest ih => exact ih (drop_pruned kept)

theorem has_putAll (entries : List α) : has (putAll g entries) a ↔ a ∈ entries ∨ has g a := by
  induction entries generalizing g with
  | nil => simp [putAll]
  | cons entry rest ih =>
    have after := ih (g := put g entry)
    simp only [putAll,List.foldl_cons] at after ⊢
    rw [after,has_put,List.mem_cons]
    tauto

theorem has_dropAll (entries : List α) (kept : pruned g) :
    has (dropAll g entries) a ↔ a ∉ entries ∧ has g a := by
  induction entries generalizing g with
  | nil => simp [dropAll]
  | cons entry rest ih =>
    have after := ih (drop_pruned kept (a := entry))
    simp only [dropAll,List.foldl_cons] at after ⊢
    rw [after,has_drop kept,List.mem_cons]
    tauto

theorem putAll_append (one other : List α) : putAll g (one ++ other) = putAll (putAll g one) other :=
  List.foldl_append ..

theorem dropAll_append (one other : List α) : dropAll g (one ++ other) = dropAll (dropAll g one) other :=
  List.foldl_append ..

-- The index of these documents: it has what some current document gives it, and
-- no entry of a document that is gone or was another before.
structure Indexes (entries : ι → δ → List α) (current : ι → Option δ) (g : G) : Prop where
  kept : pruned g
  exactly : ∀ a, has g a ↔ ∃ id doc, current id = some doc ∧ a ∈ entries id doc

variable {entries : ι → δ → List α} {current : ι → Option δ} {id : ι} {doc : δ}

theorem Indexes.unique (one : Indexes entries current g) (other : Indexes entries current h) : g = h :=
  same one.kept other.kept fun a => (one.exactly a).trans (other.exactly a).symm

theorem Indexes.bare : Indexes entries (fun _ => none) (Grouped.bare : G) :=
  ⟨bare_pruned,fun a => by simp [not_has_bare]⟩

section
variable [DecidableEq ι]

theorem Indexes.put (indexed : Indexes entries current g) (fresh : current id = none) :
    Indexes entries (Function.update current id (some doc)) (putAll g (entries id doc)) := by
  refine ⟨putAll_pruned _ indexed.kept,fun a => ?_⟩
  rw [has_putAll,indexed.exactly]
  constructor
  · rintro (new | ⟨other,held,found,given⟩)
    · exact ⟨id,doc,by simp,new⟩
    · have apart : other ≠ id := by rintro rfl; rw [fresh] at found; cases found
      exact ⟨other,held,by rw [Function.update_of_ne apart,found],given⟩
  · rintro ⟨other,held,found,given⟩
    by_cases same : other = id
    · subst same
      rw [Function.update_self] at found
      cases found
      exact .inl given
    · rw [Function.update_of_ne same] at found
      exact .inr ⟨other,held,found,given⟩

theorem Indexes.drop (owner : α → ι) (indexed : Indexes entries current g)
    (owned : ∀ id doc, ∀ a ∈ entries id doc, owner a = id)
    (last : ∀ held, current id = some held → held = doc) :
    Indexes entries (Function.update current id none) (dropAll g (entries id doc)) := by
  refine ⟨dropAll_pruned _ indexed.kept,fun a => ?_⟩
  rw [has_dropAll _ indexed.kept,indexed.exactly]
  constructor
  · rintro ⟨gone,other,held,found,given⟩
    have apart : other ≠ id := by rintro rfl; exact gone (last held found ▸ given)
    exact ⟨other,held,by rw [Function.update_of_ne apart,found],given⟩
  · rintro ⟨other,held,found,given⟩
    by_cases same : other = id
    · subst same
      simp at found
    · rw [Function.update_of_ne same] at found
      refine ⟨fun also => same ?_,other,held,found,given⟩
      rw [← owned _ _ _ given,← owned _ _ _ also]

end

end Library
