import Mathlib

namespace Library
open Relation

section
variable {κ : Type} {kids : κ → List κ} {a b x : κ} {below other : List κ}

def Below (kids : κ → List κ) (a b : κ) : Prop := b ∈ kids a

-- Everything stands under one thing at most, and once.
structure Forest (kids : κ → List κ) : Prop where
  once : ∀ a, (kids a).Nodup
  single : ∀ a b x, x ∈ kids a → x ∈ kids b → a = b

-- All that stands below a thing, where the descent ends: each child, and what is below it.
inductive Listed (kids : κ → List κ) : κ → List κ → Prop where
  | node {a : κ} (below : κ → List κ) (each : ∀ b ∈ kids a, Listed kids b (below b)) :
      Listed kids a ((kids a).flatMap fun b => b :: below b)

theorem Listed.mem (listed : Listed kids a below) : x ∈ below ↔ TransGen (Below kids) a x := by
  induction listed generalizing x with
  | @node a below each ih =>
    rw [List.mem_flatMap]
    constructor
    · intro found
      obtain ⟨b,child,inside⟩ := found
      rcases List.mem_cons.mp inside with rfl | deeper
      · exact TransGen.single child
      · exact TransGen.head child ((ih b child).mp deeper)
    · intro reached
      obtain ⟨b,child,rest⟩ := TransGen.head'_iff.mp reached
      refine ⟨b,child,?_⟩
      rcases reflTransGen_iff_eq_or_transGen.mp rest with rfl | deeper
      · exact List.mem_cons_self
      · exact List.mem_cons_of_mem _ ((ih b child).mpr deeper)

theorem Listed.unique (listed : Listed kids a below) (again : Listed kids a other) : below = other := by
  induction listed generalizing other with
  | @node a below each ih =>
    obtain ⟨below',each'⟩ := again
    apply List.flatMap_congr
    intro b child
    rw [ih b child (each' b child)]

-- A descent that ends meets no loop.
theorem Listed.unlooped (listed : Listed kids a below) : ¬TransGen (Below kids) a a := by
  induction listed with
  | @node a below each ih =>
    intro loop
    obtain ⟨b,child,rest⟩ := TransGen.head'_iff.mp loop
    exact ih b child (TransGen.tail' rest child)

theorem Forest.chain (forest : Forest kids) (first : ReflTransGen (Below kids) a x) (second : ReflTransGen (Below kids) b x) :
    ReflTransGen (Below kids) a b ∨ ReflTransGen (Below kids) b a := by
  have climb : Relator.RightUnique (Function.swap (Below kids)) := by
    intro x p q inP inQ
    exact forest.single p q x inP inQ
  rcases ReflTransGen.total_of_right_unique climb (reflTransGen_swap.mpr first) (reflTransGen_swap.mpr second) with up | up
  · exact Or.inr (reflTransGen_swap.mp up)
  · exact Or.inl (reflTransGen_swap.mp up)

theorem Forest.below_sibling (forest : Forest kids) {p : κ} (childA : a ∈ kids p) (childB : b ∈ kids p) (apart : a ≠ b)
    (reached : ReflTransGen (Below kids) a b) : TransGen (Below kids) a a := by
  rcases reflTransGen_iff_eq_or_transGen.mp reached with same | deeper
  · exact absurd same.symm apart
  · obtain ⟨q,reachedQ,last⟩ := TransGen.tail'_iff.mp deeper
    obtain rfl := forest.single q p b last childB
    exact TransGen.tail' reachedQ childA

-- What is below two siblings does not overlap.
theorem Listed.nodup (forest : Forest kids) (listed : Listed kids a below) : below.Nodup := by
  induction listed with
  | @node a below each ih =>
    refine List.pairwise_flatMap.mpr ⟨?_,?_⟩
    · intro b child
      exact List.nodup_cons.mpr ⟨fun inside => (each b child).unlooped ((each b child).mem.mp inside),ih b child⟩
    · have within (b : κ) (child : b ∈ kids a) (x : κ) (inside : x ∈ b :: below b) : ReflTransGen (Below kids) b x := by
        rcases List.mem_cons.mp inside with rfl | deeper
        · exact ReflTransGen.refl
        · exact ((each b child).mem.mp deeper).to_reflTransGen
      refine (List.pairwise_iff_forall_sublist.mpr ?_)
      intro b c pair x inX y inY same
      subst same
      have childB := pair.subset (List.mem_cons_self : b ∈ [b,c])
      have childC := pair.subset (List.mem_cons_of_mem b (List.mem_singleton_self c))
      have apart : b ≠ c := by
        intro equal
        subst equal
        exact absurd (forest.once a) (fun distinct => by simpa using distinct.sublist pair)
      rcases forest.chain (within b childB x inX) (within c childC x inY) with down | down
      · exact (each b childB).unlooped (forest.below_sibling childB childC apart down)
      · exact (each c childC).unlooped (forest.below_sibling childC childB apart.symm down)

-- The things reached from one, itself left out.
def Reached (kids : κ → List κ) (a : κ) : Set κ := {x | TransGen (Below kids) a x ∧ x ≠ a}

theorem Listed.count (forest : Forest kids) (listed : Listed kids a below) : below.length = (Reached kids a).ncard := by
  classical
  have same : Reached kids a = ↑below.toFinset := by
    ext x
    simp only [Reached,Set.mem_ofPred_eq,List.coe_toFinset]
    rw [listed.mem]
    refine ⟨fun both => both.1,fun reached => ⟨reached,?_⟩⟩
    rintro rfl
    exact listed.unlooped reached
  rw [same,Set.ncard_coe_finset,List.toFinset_card_of_nodup (listed.nodup forest)]

end
end Library
