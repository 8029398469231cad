import Mathlib

namespace Library
open Relation
variable {κ : Type}

-- Following a partial function until it has no next value. The relation says
-- nothing of how an executable walk is bounded.
def Steps (next : κ → Option κ) (a b : κ) : Prop := next a = some b
def Ends (next : κ → Option κ) (start last : κ) : Prop :=
  ReflTransGen (Steps next) start last ∧ next last = none
def Unlooped (next : κ → Option κ) : Prop := ∀ a, ¬ TransGen (Steps next) a a

theorem Ends.here (stopped : next start = none) : Ends next start start := ⟨.refl,stopped⟩

theorem Ends.head (step : next start = some middle) (rest : Ends next middle last) : Ends next start last :=
  ⟨.head step rest.1,rest.2⟩

theorem Ends.unique (one : Ends next start left) (two : Ends next start right) : left = right := by
  obtain ⟨path,stopped⟩ := one
  induction path using ReflTransGen.head_induction_on with
  | refl =>
    rcases two.1.cases_head with equal | ⟨middle,step,_⟩
    · exact equal
    · rw [Steps,stopped] at step; cases step
  | head step _ ih =>
    rcases two.1.cases_head with equal | ⟨middle,other,path⟩
    · subst equal; rw [Steps,two.2] at step; cases step
    · cases step.symm.trans other
      exact ih ⟨path,two.2⟩

theorem Ends.stays (ends : Ends next start last) (stopped : next start = none) : last = start :=
  ends.unique (.here stopped)

theorem Ends.moves (ends : Ends next start last) (step : next start = some middle) : last ≠ start := by
  intro equal; subst equal; rw [ends.2] at step; cases step

theorem unlooped_of_rank (rank : κ → Nat) (rises : ∀ a b, next a = some b → rank a < rank b) : Unlooped next := by
  have longer : ∀ a b, TransGen (Steps next) a b → rank a < rank b := by
    intro a b path
    induction path with
    | single step => exact rises _ _ step
    | tail _ step ih => exact Nat.lt_trans ih (rises _ _ step)
  exact fun a loop => Nat.lt_irrefl _ (longer a a loop)

-- A longer table answers as the shorter one does along a path that stays in it.
theorem Ends.mono (wider : ∀ a b, next a = some b → more a = some b) (stop : more last = none)
    (ends : Ends next start last) : Ends more start last :=
  ⟨ReflTransGen.mono wider _ _ ends.1,stop⟩

-- In a finite set some one thing needs nothing of the set, when nothing needs itself in the end.
theorem least_of_acyclic {needs : κ → κ → Prop} (acyclic : ∀ a, ¬TransGen needs a a) {s : Set κ} (finite : s.Finite)
    (nonempty : s.Nonempty) : ∃ a ∈ s, ∀ b ∈ s, ¬needs a b := by
  have strict : IsStrictOrder κ fun b a => TransGen needs a b :=
    { irrefl := acyclic, trans := fun _ _ _ first second => second.trans first }
  obtain ⟨⟨a,inside⟩,_,least⟩ := (finite.wellFoundedOn (r := fun b a => TransGen needs a b)).has_min Set.univ
    (by obtain ⟨a,mem⟩ := nonempty; exact ⟨⟨a,mem⟩,trivial⟩)
  exact ⟨a,inside,fun b mem step => least ⟨b,mem⟩ trivial (.single step)⟩

end Library
