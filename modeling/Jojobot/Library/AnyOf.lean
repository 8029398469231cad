import Mathlib.Data.List.Basic

namespace Library

variable {α β : Type} {answers : α → Prop} {left right : List (List α)}

-- A union of conjunctions: every term of one of them is answered.
def Answered (answers : α → Prop) (anyOf : List (List α)) : Prop :=
  ∃ held ∈ anyOf, ∀ term ∈ held, answers term

def both (left right : List (List α)) : List (List α) :=
  left.flatMap fun held => right.map fun also => held ++ also

theorem answered_nothing_asked : Answered answers [[]] := ⟨[],by simp,by simp⟩

theorem answered_nothing : ¬ Answered answers [] := fun ⟨_,member,_⟩ => by simp at member

theorem answered_single (term : α) : Answered answers [[term]] ↔ answers term := by simp [Answered]

theorem answered_each (values : List β) (term : β → α) :
    Answered answers (values.map fun value => [term value]) ↔ ∃ value ∈ values, answers (term value) := by
  simp [Answered]

theorem answered_append : Answered answers (left ++ right) ↔ Answered answers left ∨ Answered answers right := by
  simp only [Answered,List.mem_append,or_and_right,exists_or]

theorem answered_both : Answered answers (both left right) ↔ Answered answers left ∧ Answered answers right := by
  simp only [Answered,both,List.mem_flatMap,List.mem_map]
  constructor
  · rintro ⟨_,⟨held,inLeft,also,inRight,rfl⟩,each⟩
    exact ⟨⟨held,inLeft,fun term member => each term (List.mem_append_left _ member)⟩,
      also,inRight,fun term member => each term (List.mem_append_right _ member)⟩
  · rintro ⟨⟨held,inLeft,first⟩,also,inRight,second⟩
    refine ⟨held ++ also,⟨held,inLeft,also,inRight,rfl⟩,fun term member => ?_⟩
    rcases List.mem_append.mp member with member | member
    · exact first term member
    · exact second term member

end Library
