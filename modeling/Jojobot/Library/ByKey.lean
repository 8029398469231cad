import Mathlib.Data.List.Basic

namespace Library

variable {α σ κ γ : Type} [DecidableEq κ]

-- A fold whose steps each touch their own item's key alone is a fold for each key, over
-- its own items in their order.
theorem foldl_by_key {name : α → κ} {step : σ → α → σ} {view : σ → γ} {lay : γ → α → γ} {key : κ}
    (other : ∀ state item, name item ≠ key → view (step state item) = view state)
    (own : ∀ state item, name item = key → view (step state item) = lay (view state) item) (items : List α) :
    ∀ state, view (items.foldl step state) = (items.filter (name · = key)).foldl lay (view state) := by
  induction items with
  | nil => intro _; rfl
  | cons item rest ih =>
    intro state
    rw [List.foldl_cons,ih,List.filter_cons]
    by_cases same : name item = key
    · simp [same,own state item same]
    · simp [same,other state item same]

omit [DecidableEq κ] in
-- Where each step starts anew, the last item is all that is left.
theorem foldl_last (given : α → γ) (items : List α) : ∀ start,
    items.foldl (fun _ item => given item) start = (items.getLast?.map given).getD start := by
  induction items with
  | nil => intro _; rfl
  | cons item rest ih =>
    intro start
    rw [List.foldl_cons,ih,List.getLast?_cons]
    cases rest.getLast? <;> rfl

end Library
