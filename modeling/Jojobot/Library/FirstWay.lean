import Mathlib.Data.List.Nodup

namespace Library

variable {κ : Type} {near : κ → List κ} {before : κ → κ → κ → Prop} {sort : List κ → Prop} {start thing one two : κ}
  {way other lead rest : List κ}

-- A way through a graph: what follows the thing it begins at, each thing near the one before.
def Way (near : κ → List κ) : κ → List κ → Prop
  | _,[] => True
  | one,two::rest => two ∈ near one ∧ Way near two rest

def wayEnd : κ → List κ → κ
  | one,[] => one
  | _,two::rest => wayEnd two rest

-- A way without short cuts: no thing on it is near one further on than the next.
def Direct (near : κ → List κ) : κ → List κ → Prop
  | _,[] => True
  | one,two::rest => two ∈ near one ∧ (∀ further ∈ rest, further ∉ near one) ∧ Direct near two rest

-- Of two ways from one thing, the first is the one whose turn comes before the other's
-- where they part.
def Sooner (before : κ → κ → κ → Prop) : κ → List κ → List κ → Prop
  | one,two::rest,other::rest' => before one two other ∨ (two = other ∧ Sooner before two rest rest')
  | _,_,_ => False

-- The first way to a thing, of the ways of a sort that meet nothing twice.
structure FirstWay (sort : List κ → Prop) (before : κ → κ → κ → Prop) (start thing : κ) (way : List κ) : Prop where
  sorted : sort way
  simple : (start::way).Nodup
  ends : wayEnd start way = thing
  first : ∀ other, sort other → (start::other).Nodup → wayEnd start other = thing → ¬Sooner before start other way

@[simp] theorem wayEnd_snoc (start : κ) (way : List κ) (one : κ) : wayEnd start (way ++ [one]) = one := by
  induction way generalizing start with
  | nil => rfl
  | cons two way ih => exact ih two

theorem wayEnd_append (start : κ) (lead rest : List κ) : wayEnd start (lead ++ rest) = wayEnd (wayEnd start lead) rest := by
  induction lead generalizing start with
  | nil => rfl
  | cons two lead ih => exact ih two

theorem wayEnd_mem (start : κ) (way : List κ) : wayEnd start way ∈ start::way := by
  induction way generalizing start with
  | nil => exact List.mem_cons_self
  | cons two way ih => exact List.mem_cons_of_mem _ (ih two)

theorem way_append : Way near start (lead ++ rest) ↔ Way near start lead ∧ Way near (wayEnd start lead) rest := by
  induction lead generalizing start with
  | nil => simp [Way,wayEnd]
  | cons two lead ih => simp [Way,wayEnd,ih,and_assoc]

theorem Direct.goes (direct : Direct near start way) : Way near start way := by
  induction way generalizing start with
  | nil => trivial
  | cons two way ih => exact ⟨direct.1,ih direct.2.2⟩

-- What a way without short cuts goes on with is near nothing it passed but its own end.
theorem Direct.beyond (direct : Direct near start (lead ++ rest)) {passed : κ} (has : passed ∈ start::lead)
    (apart : passed ≠ wayEnd start lead) : ∀ further ∈ rest, further ∉ near passed := by
  induction lead generalizing start with
  | nil => exact absurd (List.mem_singleton.mp has) apart
  | cons two lead ih =>
    rcases List.mem_cons.mp has with same | later
    · subst same
      exact fun further member => direct.2.1 further (List.mem_append_right _ member)
    · exact ih direct.2.2 later apart

theorem Direct.behind (direct : Direct near start (lead ++ rest)) : Direct near (wayEnd start lead) rest := by
  induction lead generalizing start with
  | nil => exact direct
  | cons two lead ih => exact ih direct.2.2

theorem Direct.snoc (direct : Direct near start way) (simple : (start::way).Nodup) (further : one ∈ near (wayEnd start way))
    (beyond : ∀ passed ∈ start::way, passed ≠ wayEnd start way → one ∉ near passed) : Direct near start (way ++ [one]) := by
  induction way generalizing start with
  | nil => exact ⟨further,by simp,trivial⟩
  | cons two way ih =>
    obtain ⟨off,apart⟩ := List.nodup_cons.mp simple
    refine ⟨direct.1,?_,ih direct.2.2 apart further fun passed has => beyond passed (List.mem_cons_of_mem _ has)⟩
    intro more has
    rcases List.mem_append.mp has with old | last
    · exact direct.2.1 more old
    · cases List.mem_singleton.mp last
      apply beyond start List.mem_cons_self
      intro same
      apply off
      rw [same]
      exact wayEnd_mem two way

-- Two ways part at the end of what they share.
theorem Sooner.parts (sooner : Sooner before start other way) : ∃ lead one two rest rest',
    other = lead ++ one::rest ∧ way = lead ++ two::rest' ∧ before (wayEnd start lead) one two := by
  induction other generalizing start way with
  | nil => cases sooner
  | cons one other ih =>
    cases way with
    | nil => cases sooner
    | cons two way =>
      rcases sooner with turns | ⟨same,later⟩
      · exact ⟨[],one,two,other,way,rfl,rfl,turns⟩
      · subst same
        obtain ⟨lead,first,second,rest,rest',shape,shape',turns⟩ := ih later
        exact ⟨one::lead,first,second,rest,rest',by rw [shape]; rfl,by rw [shape']; rfl,turns⟩

theorem sooner_total (total : ∀ one two other, two ∈ near one → other ∈ near one → two ≠ other → before one two other ∨ before one other two)
    (first : Way near start way) (second : Way near start other) (simple : (start::way).Nodup) (simple' : (start::other).Nodup)
    (same : wayEnd start way = wayEnd start other) (differ : way ≠ other) : Sooner before start way other ∨ Sooner before start other way := by
  induction way generalizing start other with
  | nil =>
    cases other with
    | nil => exact absurd rfl differ
    | cons two other =>
      have back : start ∈ two::other := (show start = wayEnd two other from same) ▸ wayEnd_mem two other
      exact absurd back (List.nodup_cons.mp simple').1
  | cons one way ih =>
    cases other with
    | nil =>
      have back : start ∈ one::way := (show wayEnd one way = start from same) ▸ wayEnd_mem one way
      exact absurd back (List.nodup_cons.mp simple).1
    | cons two other =>
      by_cases turn : one = two
      · subst turn
        have apart : way ≠ other := fun equal => differ (equal ▸ rfl)
        rcases ih first.2 second.2 (List.nodup_cons.mp simple).2 (List.nodup_cons.mp simple').2 same apart with sooner | later
        · exact Or.inl (Or.inr ⟨rfl,sooner⟩)
        · exact Or.inr (Or.inr ⟨rfl,later⟩)
      · rcases total start one two first.1 second.1 turn with sooner | later
        · exact Or.inl (Or.inl sooner)
        · exact Or.inr (Or.inl later)

theorem FirstWay.unique (total : ∀ one two other, two ∈ near one → other ∈ near one → two ≠ other → before one two other ∨ before one other two)
    (ways : ∀ way, sort way → Way near start way) (first : FirstWay sort before start thing way)
    (second : FirstWay sort before start thing other) : way = other := by
  by_contra differ
  rcases sooner_total total (ways _ first.sorted) (ways _ second.sorted) first.simple second.simple
    (first.ends.trans second.ends.symm) differ with sooner | later
  · exact second.first way first.sorted first.simple first.ends sooner
  · exact first.first other second.sorted second.simple second.ends later

section Named
variable [DecidableEq κ]

-- Of two things that can be gone to, the one named sooner is gone to first.
def Earlier (near : κ → List κ) (one two other : κ) : Prop := (near one).idxOf two < (near one).idxOf other

-- The one named later is gone to first.
def Later (near : κ → List κ) (one two other : κ) : Prop := Earlier near one other two

instance (near : κ → List κ) (one two other : κ) : Decidable (Earlier near one two other) :=
  inferInstanceAs (Decidable ((near one).idxOf two < (near one).idxOf other))

instance (near : κ → List κ) (one two other : κ) : Decidable (Later near one two other) :=
  inferInstanceAs (Decidable (Earlier near one other two))

theorem earlier_total (one two other : κ) (has : two ∈ near one) (_ : other ∈ near one) (differ : two ≠ other) :
    Earlier near one two other ∨ Earlier near one other two := by
  rcases Nat.lt_trichotomy ((near one).idxOf two) ((near one).idxOf other) with less | same | more
  · exact Or.inl less
  · exact absurd ((List.idxOf_inj has).mp same) differ
  · exact Or.inr more

theorem later_total (one two other : κ) (has : two ∈ near one) (also' : other ∈ near one) (differ : two ≠ other) :
    Later near one two other ∨ Later near one other two :=
  (earlier_total one two other has also' differ).symm

end Named

end Library
