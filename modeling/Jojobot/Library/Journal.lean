import Mathlib.Data.List.Basic
import Mathlib.Data.List.Induction

namespace Library

variable {σ ω : Type} {apply : σ → ω → σ} {allowed : σ → ω → Prop} {start : σ} {kept : σ → Prop}
  {log before after : List ω} {entry : ω}

def replayed (apply : σ → ω → σ) (start : σ) (log : List ω) : σ := log.foldl apply start

@[simp] theorem replayed_nil : replayed apply start [] = start := rfl

@[simp] theorem replayed_snoc : replayed apply start (log ++ [entry]) = apply (replayed apply start log) entry := by
  simp [replayed]

-- A log each of whose entries was allowed by what the entries before it had left.
inductive Journal (apply : σ → ω → σ) (allowed : σ → ω → Prop) (start : σ) : List ω → Prop where
  | nil : Journal apply allowed start []
  | snoc {log : List ω} {entry : ω} : Journal apply allowed start log → allowed (replayed apply start log) entry →
      Journal apply allowed start (log ++ [entry])

theorem Journal.last (journal : Journal apply allowed start (log ++ [entry])) :
    Journal apply allowed start log ∧ allowed (replayed apply start log) entry := by
  generalize shape : log ++ [entry] = whole at journal
  cases journal with
  | nil => simp at shape
  | snoc earlier lets =>
    obtain ⟨rfl,same⟩ := List.append_inj' shape rfl
    cases same
    exact ⟨earlier,lets⟩

theorem Journal.left (journal : Journal apply allowed start (before ++ after)) : Journal apply allowed start before := by
  induction after using List.reverseRecOn with
  | nil => simpa using journal
  | append_singleton rest entry ih =>
    rw [← List.append_assoc] at journal
    exact ih journal.last.1

theorem Journal.there (journal : Journal apply allowed start (before ++ entry :: after)) :
    allowed (replayed apply start before) entry := by
  rw [List.append_cons] at journal
  exact journal.left.last.2

theorem Journal.keeps (first : kept start) (keeps : ∀ {state entry}, kept state → allowed state entry → kept (apply state entry))
    (journal : Journal apply allowed start log) : kept (replayed apply start log) := by
  induction journal with
  | nil => exact first
  | snoc _ lets ih =>
    rw [replayed_snoc]
    exact keeps ih lets

-- What an entry can only keep stays so from any point of the log on.
theorem Journal.stays (holds : σ → Prop) (first : kept start)
    (keeps : ∀ {state entry}, kept state → allowed state entry → kept (apply state entry))
    (stays : ∀ {state entry}, kept state → allowed state entry → holds state → holds (apply state entry))
    (journal : Journal apply allowed start (before ++ after)) (held : holds (replayed apply start before)) :
    holds (replayed apply start (before ++ after)) := by
  induction after using List.reverseRecOn with
  | nil => simpa using held
  | append_singleton rest entry ih =>
    rw [← List.append_assoc] at journal ⊢
    obtain ⟨earlier,lets⟩ := journal.last
    rw [replayed_snoc]
    exact stays (earlier.keeps first keeps) lets (ih earlier)

end Library
