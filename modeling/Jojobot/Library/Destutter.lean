import Mathlib.Data.List.Destutter

namespace Library

variable {α : Type} {same le : α → α → Prop}

-- A list that stands in order, where items alike stand together and no two of them rank alike.
structure Ranked (same le : α → α → Prop) (l : List α) : Prop where
  sorted : l.Pairwise le
  together : ∀ a ∈ l, ∀ b ∈ l, ∀ c ∈ l, le a b → le b c → same a c → same a b
  told : ∀ a ∈ l, ∀ b ∈ l, same a b → le a b → le b a → a = b

theorem Ranked.sublist {l front : List α} (ranked : Ranked same le l) (part : front.Sublist l) : Ranked same le front := by
  refine ⟨ranked.sorted.sublist part,?_,?_⟩
  · intro a hasA b hasB c hasC
    exact ranked.together a (part.subset hasA) b (part.subset hasB) c (part.subset hasC)
  · intro a hasA b hasB
    exact ranked.told a (part.subset hasA) b (part.subset hasB)

-- No item alike ranks before this one.
def LeastAlike (same le : α → α → Prop) (l : List α) (x : α) : Prop := x ∈ l ∧ ∀ y ∈ l, same y x → le x y

section
variable [DecidableRel same] (alike : Equivalence same) (refl : ∀ a, le a a) (trans : ∀ {a b c}, le a b → le b c → le a c)
include alike refl trans

theorem mem_destutter'_least (l : List α) : ∀ a, Ranked same le (a::l) → ∀ x,
    x ∈ l.destutter' (fun b c => ¬same b c) a ↔ LeastAlike same le (a::l) x := by
  induction l with
  | nil =>
    intro a _ x
    simp only [List.destutter'_nil,LeastAlike,List.mem_singleton]
    constructor
    · intro is
      refine ⟨is,?_⟩
      intro y isY _
      rw [is,isY]
      exact refl a
    · exact And.left
  | cons b l ih =>
    intro a ranked x
    have first : ∀ y ∈ b::l, le a y := (List.pairwise_cons.mp ranked.sorted).1
    by_cases equal : same a b
    · rw [List.destutter'_cons_neg l (not_not.mpr equal)]
      have fewer : (a::l).Sublist (a::b::l) := (List.sublist_cons_self b l).cons_cons a
      rw [ih a (ranked.sublist fewer)]
      constructor
      · intro ⟨member,least⟩
        refine ⟨fewer.subset member,?_⟩
        intro y hasY likeY
        rcases List.mem_cons.mp hasY with rfl | later
        · exact least y List.mem_cons_self likeY
        · rcases List.mem_cons.mp later with rfl | later
          · exact trans (least a List.mem_cons_self (alike.trans equal likeY)) (first y List.mem_cons_self)
          · exact least y (List.mem_cons_of_mem a later) likeY
      · intro ⟨member,least⟩
        refine ⟨?_,fun y hasY likeY => least y (fewer.subset hasY) likeY⟩
        rcases List.mem_cons.mp member with rfl | later
        · exact List.mem_cons_self
        · rcases List.mem_cons.mp later with rfl | later
          · have back := least a List.mem_cons_self equal
            rw [ranked.told a List.mem_cons_self x member equal (first x List.mem_cons_self) back]
            exact List.mem_cons_self
          · exact List.mem_cons_of_mem a later
    · rw [List.destutter'_cons_pos l equal,List.mem_cons,ih b (ranked.sublist (List.sublist_cons_self a _)) x]
      constructor
      · rintro (rfl | ⟨member,least⟩)
        · refine ⟨List.mem_cons_self,?_⟩
          intro y hasY _
          rcases List.mem_cons.mp hasY with rfl | later
          · exact refl y
          · exact first y later
        · refine ⟨List.mem_cons_of_mem a member,?_⟩
          intro y hasY likeY
          rcases List.mem_cons.mp hasY with rfl | later
          · have after : le b x := by
              rcases List.mem_cons.mp member with rfl | later
              · exact refl x
              · exact (List.pairwise_cons.mp (List.pairwise_cons.mp ranked.sorted).2).1 x later
            exact absurd (ranked.together y List.mem_cons_self b (by simp) x (List.mem_cons_of_mem y member)
              (first b List.mem_cons_self) after likeY) equal
          · exact least y later likeY
      · intro ⟨member,least⟩
        rcases List.mem_cons.mp member with is | later
        · exact .inl is
        · exact .inr ⟨later,fun y hasY => least y (List.mem_cons_of_mem a hasY)⟩

-- Dropping what is like the one kept last leaves the least of each that are alike.
theorem mem_destutter_least {l : List α} (ranked : Ranked same le l) (x : α) :
    x ∈ l.destutter (fun b c => ¬same b c) ↔ LeastAlike same le l x := by
  cases l with
  | nil => simp [LeastAlike]
  | cons a l =>
    rw [List.destutter_cons']
    exact mem_destutter'_least alike refl trans l a ranked x
end

end Library
