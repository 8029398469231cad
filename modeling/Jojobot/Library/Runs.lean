import Mathlib.Data.List.Basic

namespace Library

-- A run of labelled steps, with the steps it took and the state each was taken in.
inductive Run {σ α : Type} (step : σ → α → σ → Prop) (start : σ) : List (σ × α) → σ → Prop where
  | start : Run step start [] start
  | step {taken : List (σ × α)} {before after : σ} {act : α} : Run step start taken before →
      step before act after → Run step start (taken ++ [(before,act)]) after

variable {σ α : Type} {step : σ → α → σ → Prop} {start now : σ} {taken : List (σ × α)} {kept : σ → Prop}

theorem Run.unstarted (run : Run step start taken now) (nothing : taken = []) : now = start := by
  cases run with
  | start => rfl
  | step _ _ => simp at nothing

theorem Run.keeps (first : kept start)
    (keeps : ∀ {before act after}, kept before → step before act after → kept after)
    (run : Run step start taken now) :
    kept now ∧ ∀ one ∈ taken, kept one.1 ∧ ∃ after, step one.1 one.2 after := by
  induction run with
  | start => exact ⟨first,by simp⟩
  | step _ took ih =>
    refine ⟨keeps ih.1 took,?_⟩
    intro one member
    rcases List.mem_append.mp member with earlier | last
    · exact ih.2 one earlier
    · cases List.mem_singleton.mp last
      exact ⟨ih.1,_,took⟩

-- Where every step meets the condition the stronger property holds all along, and
-- with it what it implies. A step that leaves what is implied met the condition.
theorem Run.strong_of_meets (meets : σ → α → Prop) {strong : σ → Prop} (first : kept start) (firstStrong : strong start)
    (keeps : ∀ {before act after}, kept before → step before act after → kept after)
    (gives : ∀ {before act after}, kept before → strong before → step before act after → meets before act → strong after)
    (run : Run step start taken now) (met : ∀ one ∈ taken, meets one.1 one.2) :
    strong now ∧ ∀ one ∈ taken, strong one.1 := by
  induction run with
  | start => exact ⟨firstStrong,by simp⟩
  | step earlier took ih =>
    simp only [List.mem_append,List.mem_singleton,or_imp,forall_and,forall_eq] at met ⊢
    obtain ⟨strongly,along⟩ := ih met.1
    exact ⟨gives (earlier.keeps first keeps).1 strongly took met.2,along,strongly⟩

theorem Run.always_iff {good strong : σ → Prop} (meets : σ → α → Prop) (first : kept start) (firstStrong : strong start)
    (keeps : ∀ {before act after}, kept before → step before act after → kept after)
    (implies : ∀ {state}, kept state → strong state → good state)
    (needs : ∀ {before act after}, kept before → strong before → step before act after → good after → meets before act)
    (gives : ∀ {before act after}, kept before → strong before → step before act after → meets before act → strong after)
    (run : Run step start taken now) :
    ((∀ one ∈ taken, good one.1) ∧ good now) ↔ ∀ one ∈ taken, meets one.1 one.2 := by
  constructor
  · induction run with
    | start => simp
    | step earlier took ih =>
      intro all
      simp only [List.mem_append,List.mem_singleton,or_imp,forall_and,forall_eq] at all ⊢
      have met := ih all.1
      have strongly := (earlier.strong_of_meets meets first firstStrong keeps gives met).1
      exact ⟨met,needs (earlier.keeps first keeps).1 strongly took all.2⟩
  · intro met
    obtain ⟨strongly,along⟩ := run.strong_of_meets meets first firstStrong keeps gives met
    obtain ⟨kept,keptAlong⟩ := run.keeps first keeps
    exact ⟨fun one member => implies (keptAlong one member).1 (along one member),implies kept strongly⟩

-- The steps of a list, each with the state it is taken in.
def played (next : σ → α → Option σ) (now : σ) : List α → List (σ × α)
  | [] => []
  | act::acts =>
    match next now act with
    | none => []
    | some after => (now,act)::played next after acts

theorem Run.plays {next : σ → α → Option σ} {last : σ} (steps : ∀ {before act after}, next before act = some after → step before act after)
    (acts : List α) (run : Run step start taken now) (done : acts.foldlM next now = some last) :
    Run step start (taken ++ played next now acts) last := by
  induction acts generalizing now taken with
  | nil =>
    obtain rfl := Option.some.inj done
    simpa [played] using run
  | cons act acts ih =>
    rw [List.foldlM_cons] at done
    cases stepped : next now act with
    | none => simp [stepped] at done
    | some after =>
      have rest := ih (.step run (steps stepped)) (by simpa [stepped] using done)
      simpa [played,stepped] using rest

end Library
