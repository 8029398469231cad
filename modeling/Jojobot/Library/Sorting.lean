import Mathlib.Data.List.Sort

namespace Library
open Std

variable {α : Type} {cmp : α → α → Ordering} {items ordered : List α}

-- A stable sort, as `sort_by` of the source is one.
def sortBy (cmp : α → α → Ordering) (items : List α) : List α :=
  items.insertionSort fun a b => (cmp a b).isLE

theorem sortBy_perm (cmp : α → α → Ordering) (items : List α) : (sortBy cmp items).Perm items :=
  List.perm_insertionSort ..

-- A map that keeps the order commutes with the sort.
theorem sortBy_map {β : Type} {by' : β → β → Ordering} {items : List α} (f : α → β)
    (same : ∀ a ∈ items, ∀ b ∈ items, by' (f a) (f b) = cmp a b) : sortBy by' (items.map f) = (sortBy cmp items).map f := by
  unfold sortBy
  apply (List.map_insertionSort ..).symm
  intro a inA b inB
  rw [same a inA b inB]

theorem mem_sortBy {a : α} : a ∈ sortBy cmp items ↔ a ∈ items := (sortBy_perm cmp items).mem_iff

section
variable [TransCmp cmp]

instance isLE_total : Std.Total fun a b => (cmp a b).isLE = true where
  total a b := by
    rw [@OrientedCmp.eq_swap _ cmp _ b a]
    cases cmp a b <;> simp

instance isLE_isTrans : IsTrans α fun a b => (cmp a b).isLE = true where
  trans _ _ _ := TransCmp.isLE_trans

theorem sortBy_pairwise (items : List α) : (sortBy cmp items).Pairwise fun a b => (cmp a b).isLE = true :=
  List.pairwise_insertionSort _ _

-- Between two places of a strictly ordered list the order is the places'.
theorem strict_antisymm (strict : ordered.Pairwise fun a b => cmp a b = .lt) {a b : α}
    (inA : a ∈ ordered) (inB : b ∈ ordered) (ab : (cmp a b).isLE = true) (ba : (cmp b a).isLE = true) : a = b := by
  obtain ⟨i,hi,rfl⟩ := List.mem_iff_getElem.mp inA
  obtain ⟨j,hj,rfl⟩ := List.mem_iff_getElem.mp inB
  have apart : ∀ i j (hi : i < ordered.length) (hj : j < ordered.length), i < j →
      (cmp ordered[j] ordered[i]).isLE = true → False := by
    intro i j hi hj before back
    have less := List.pairwise_iff_getElem.mp strict i j hi hj before
    rw [@OrientedCmp.eq_swap _ cmp,less] at back
    simp at back
  rcases Nat.lt_trichotomy i j with before | rfl | after
  · exact (apart i j hi hj before ba).elim
  · rfl
  · exact (apart j i hj hi after ab).elim

-- However the items came in, a strict order of them is the sorted list.
theorem sortBy_eq (same : ordered.Perm items) (strict : ordered.Pairwise fun a b => cmp a b = .lt) :
    sortBy cmp items = ordered := by
  have all : (sortBy cmp items).Perm ordered := (sortBy_perm cmp items).trans same.symm
  refine all.eq_of_pairwise ?_ (sortBy_pairwise items) (strict.imp fun less => by simp [less])
  intro a b inA inB ab ba
  exact strict_antisymm strict (all.mem_iff.mp inA) inB ab ba

-- And any order of them, where no two items tie.
theorem sortBy_unique (antisymm : ∀ a b, (cmp a b).isLE = true → (cmp b a).isLE = true → a = b) (same : ordered.Perm items)
    (sorted : ordered.Pairwise fun a b => (cmp a b).isLE = true) : sortBy cmp items = ordered :=
  ((sortBy_perm cmp items).trans same.symm).eq_of_pairwise (fun a b _ _ ab ba => antisymm a b ab ba) (sortBy_pairwise items) sorted

theorem sortBy_strict (apart : items.Pairwise fun a b => cmp a b ≠ .eq) :
    (sortBy cmp items).Pairwise fun a b => cmp a b = .lt := by
  have distinct : (sortBy cmp items).Pairwise fun a b => cmp a b ≠ .eq := by
    refine ((sortBy_perm cmp items).pairwise_iff ?_).mpr apart
    intro a b differ same
    exact differ (OrientedCmp.eq_symm same)
  refine ((sortBy_pairwise items).and distinct).imp ?_
  intro a b both
  obtain ⟨atMost,differ⟩ := both
  cases order : cmp a b with
  | lt => rfl
  | eq => exact (differ order).elim
  | gt => rw [order] at atMost; cases atMost

-- The sort is stable, so what is kept of it is the sort of what is kept.
theorem filter_orderedInsert (keep : α → Bool) (item : α) (sorted : items.Pairwise fun a b => (cmp a b).isLE = true) :
    (items.orderedInsert (fun a b => (cmp a b).isLE) item).filter keep =
      if keep item then (items.filter keep).orderedInsert (fun a b => (cmp a b).isLE) item else items.filter keep := by
  induction items with
  | nil =>
    cases kept : keep item with
    | true => simp [kept]
    | false => simp [kept]
  | cons first rest ih =>
    obtain ⟨least,sorted⟩ := List.pairwise_cons.mp sorted
    rw [List.orderedInsert_cons]
    by_cases before : (cmp item first).isLE = true
    · rw [if_pos before,List.filter_cons]
      cases kept : keep item with
      | false => simp
      | true =>
        simp only [if_true]
        apply Eq.symm
        cases shape : (first :: rest).filter keep with
        | nil => rfl
        | cons next more =>
          have member : next ∈ first :: rest := (List.mem_filter.mp (shape ▸ List.mem_cons_self)).1
          have below : (cmp item next).isLE = true := by
            rcases List.mem_cons.mp member with same | later
            · exact same ▸ before
            · exact TransCmp.isLE_trans before (least next later)
          rw [List.orderedInsert_cons,if_pos below]
    · rw [if_neg before,List.filter_cons,ih sorted]
      cases kept : keep first with
      | true =>
        simp only [if_true,List.filter_cons,kept,List.orderedInsert_cons,if_neg before]
        split
        · rfl
        · rfl
      | false => simp [kept]

theorem sortBy_filter (keep : α → Bool) (items : List α) :
    (sortBy cmp items).filter keep = sortBy cmp (items.filter keep) := by
  induction items with
  | nil => rfl
  | cons item rest ih =>
    have step : sortBy cmp (item :: rest) = (sortBy cmp rest).orderedInsert (fun a b => (cmp a b).isLE) item := rfl
    rw [step,filter_orderedInsert keep item (sortBy_pairwise rest),ih,List.filter_cons]
    split
    · rfl
    · rfl

end

-- What comes in last and stands no lower than the rest is sorted last.
theorem sortBy_concat {last : α} (lower : ∀ a ∈ items, (cmp a last).isLE = true) :
    sortBy cmp (items ++ [last]) = sortBy cmp items ++ [last] := by
  have inserted : ∀ (first : α) (sorted : List α), (cmp first last).isLE = true →
      (sorted ++ [last]).orderedInsert (fun a b => (cmp a b).isLE) first =
        sorted.orderedInsert (fun a b => (cmp a b).isLE) first ++ [last] := by
    intro first sorted below
    induction sorted with
    | nil => simp [below]
    | cons next rest ih =>
      simp only [List.cons_append,List.orderedInsert_cons]
      split
      · rfl
      · rw [ih]
        rfl
  induction items with
  | nil => rfl
  | cons first rest ih =>
    have earlier := ih fun a member => lower a (List.mem_cons_of_mem _ member)
    change (sortBy cmp (rest ++ [last])).orderedInsert _ first = _
    rw [earlier,inserted first _ (lower first List.mem_cons_self)]
    rfl

-- An item between its two neighbours is between all of those before and after it.
theorem pairwise_between {R : α → α → Prop} {front back : List α} {item : α}
    (trans : ∀ {a b c}, R a b → R b c → R a c) (ordered : (front ++ back).Pairwise R)
    (below : ∀ last, front.getLast? = some last → R last item)
    (above : ∀ next, back.head? = some next → R item next) : (front ++ item :: back).Pairwise R := by
  obtain ⟨fronts,backs,cross⟩ := List.pairwise_append.mp ordered
  have lower : ∀ a ∈ front, R a item := by
    intro a member
    obtain ⟨start,last,rfl⟩ := List.eq_nil_or_concat' front |>.resolve_left (List.ne_nil_of_mem member)
    have least := below last (by simp)
    rcases List.mem_append.mp member with earlier | same
    · exact trans ((List.pairwise_append.mp fronts).2.2 a earlier last (by simp)) least
    · cases List.mem_singleton.mp same
      exact least
  have upper : ∀ a ∈ back, R item a := by
    intro a member
    obtain ⟨next,rest,rfl⟩ := List.exists_cons_of_ne_nil (List.ne_nil_of_mem member)
    have first := above next rfl
    rcases List.mem_cons.mp member with same | later
    · exact same ▸ first
    · exact trans first ((List.pairwise_cons.mp backs).1 a later)
  refine List.pairwise_append.mpr ⟨fronts,List.pairwise_cons.mpr ⟨upper,backs⟩,?_⟩
  intro a member b inBack
  rcases List.mem_cons.mp inBack with same | later
  · exact same ▸ lower a member
  · exact cross a member b later

end Library
