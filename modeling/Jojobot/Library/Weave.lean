import Mathlib

namespace Library

variable {α β γ : Type} {noLater : α → α → Bool} {lefts rights : List α}

-- Two lists taken in turn, each in its own order: while both have a head, the left's
-- goes first when it is no later than the right's.
def weave (noLater : α → α → Bool) : List α → List α → List (α ⊕ α)
  | [],rights => rights.map .inr
  | left :: lefts,[] => .inl left :: weave noLater lefts []
  | left :: lefts,right :: rights =>
    if noLater left right then .inl left :: weave noLater lefts (right :: rights)
    else .inr right :: weave noLater (left :: lefts) rights
termination_by lefts rights => lefts.length+rights.length

theorem weave_rest (lefts : List α) : weave noLater lefts [] = lefts.map .inl := by
  induction lefts with
  | nil =>
    rw [weave]
    rfl
  | cons left lefts ih => rw [weave,ih,List.map_cons]

theorem weave_filterMap (left : α → Option β) (right : α → Option β) (none : ∀ a ∈ rights, right a = none) :
    (weave noLater lefts rights).filterMap (Sum.elim left right) = lefts.filterMap left := by
  fun_induction weave noLater lefts rights with
  | case1 rights =>
    rw [List.filterMap_map,List.filterMap_nil]
    exact List.filterMap_eq_nil_iff.mpr none
  | case2 a lefts ih => simp only [List.filterMap_cons,Sum.elim_inl,ih none]
  | case3 a lefts b rights first ih => simp only [List.filterMap_cons,Sum.elim_inl,ih none]
  | case4 a lefts b rights later ih =>
    obtain ⟨gone,others⟩ := List.forall_mem_cons.mp none
    simp only [List.filterMap_cons,Sum.elim_inr,gone]
    rw [ih others,List.filterMap_cons]

theorem weave_filterMap_right (left : α → Option β) (right : α → Option β) (none : ∀ a ∈ lefts, left a = none) :
    (weave noLater lefts rights).filterMap (Sum.elim left right) = rights.filterMap right := by
  fun_induction weave noLater lefts rights with
  | case1 rights => rw [List.filterMap_map]; rfl
  | case2 a lefts ih =>
    obtain ⟨gone,others⟩ := List.forall_mem_cons.mp none
    simp only [List.filterMap_cons,Sum.elim_inl,gone,ih others]
  | case3 a lefts b rights first ih =>
    obtain ⟨gone,others⟩ := List.forall_mem_cons.mp none
    simp only [List.filterMap_cons,Sum.elim_inl,gone]
    rw [ih others,List.filterMap_cons]
  | case4 a lefts b rights later ih => simp only [List.filterMap_cons,Sum.elim_inr,ih none]

-- What is read last of the two lists taken in turn is what is read last of one of them.
theorem weave_last (left right : α → Option β) (lefts rights : List α) :
    ((weave noLater lefts rights).filterMap (Sum.elim left right)).getLast? = (lefts.filterMap left).getLast? ∨
      ((weave noLater lefts rights).filterMap (Sum.elim left right)).getLast? = (rights.filterMap right).getLast? := by
  have parted : ∀ sides : List (α ⊕ α),
      (sides.filterMap (Sum.elim left right)).getLast? = (sides.filterMap (Sum.elim left fun _ => none)).getLast? ∨
        (sides.filterMap (Sum.elim left right)).getLast? = (sides.filterMap (Sum.elim (fun _ => none) right)).getLast? := by
    intro sides
    induction sides using List.reverseRecOn with
    | nil => exact Or.inl rfl
    | append_singleton sides side ih =>
      cases side with
      | inl item =>
        cases read : left item with
        | none => simpa [List.filterMap_append,read] using ih
        | some value => exact Or.inl (by simp [List.filterMap_append,read])
      | inr item =>
        cases read : right item with
        | none => simpa [List.filterMap_append,read] using ih
        | some value => exact Or.inr (by simp [List.filterMap_append,read])
  have onLeft : (weave noLater lefts rights).filterMap (Sum.elim left fun _ => none) = lefts.filterMap left :=
    weave_filterMap _ _ fun _ _ => rfl
  have onRight : (weave noLater lefts rights).filterMap (Sum.elim (fun _ => none) right) = rights.filterMap right :=
    weave_filterMap_right _ _ fun _ _ => rfl
  rw [←onLeft,←onRight]
  exact parted _

theorem mem_weave {side : α ⊕ α} : side ∈ weave noLater lefts rights ↔
    (∃ a ∈ lefts, side = .inl a) ∨ ∃ b ∈ rights, side = .inr b := by
  fun_induction weave noLater lefts rights with
  | case1 rights => simp [eq_comm]
  | case2 a lefts ih => simp [ih]
  | case3 a lefts b rights first ih => simp [ih,or_assoc]
  | case4 a lefts b rights later ih =>
    rw [List.mem_cons,ih]
    simp only [List.mem_cons,exists_eq_or_imp]
    rw [or_left_comm]

theorem weave_map (f : β → α) (lefts rights : List β) : weave noLater (lefts.map f) (rights.map f) =
    (weave (fun a b => noLater (f a) (f b)) lefts rights).map (Sum.map f f) := by
  fun_induction weave (fun a b => noLater (f a) (f b)) lefts rights with
  | case1 rights =>
    rw [List.map_nil,weave,List.map_map,List.map_map]
    rfl
  | case2 a lefts ih => rw [List.map_cons,List.map_nil,weave,List.map_cons,← ih]; rfl
  | case3 a lefts b rights first ih => rw [List.map_cons,List.map_cons,weave,if_pos first,List.map_cons,← ih]; rfl
  | case4 a lefts b rights later ih => rw [List.map_cons,List.map_cons,weave,if_neg later,List.map_cons,← ih]; rfl

-- Each side's head stands in front of the rest of its side.
theorem right_leads {a b : α} {front back : List (α ⊕ α)}
    (parts : weave noLater lefts (a :: rights) = front ++ .inr b :: back) : b = a ∨ .inr a ∈ front := by
  have own : (weave noLater lefts (a :: rights)).filterMap (Sum.elim (fun _ => none) some) = a :: rights := by
    rw [weave_filterMap_right _ _ fun _ _ => rfl,List.filterMap_some]
  rw [parts,List.filterMap_append] at own
  cases held : front.filterMap (Sum.elim (fun _ => none) some) with
  | nil =>
    rw [held] at own
    injection own with first _
    exact .inl first
  | cons head others =>
    rw [held] at own
    injection own with first _
    have member : head ∈ front.filterMap (Sum.elim (fun _ => none) some) := by rw [held]; exact List.mem_cons_self
    obtain ⟨side,inFront,read⟩ := List.mem_filterMap.mp member
    cases side with
    | inl left => cases read
    | inr right =>
      cases read
      exact .inr (first ▸ inFront)

theorem left_leads {a b : α} {front back : List (α ⊕ α)}
    (parts : weave noLater (a :: lefts) rights = front ++ .inl b :: back) : b = a ∨ .inl a ∈ front := by
  have own : (weave noLater (a :: lefts) rights).filterMap (Sum.elim some fun _ => none) = a :: lefts := by
    rw [weave_filterMap _ _ fun _ _ => rfl,List.filterMap_some]
  rw [parts,List.filterMap_append] at own
  cases held : front.filterMap (Sum.elim some fun _ => none) with
  | nil =>
    rw [held] at own
    injection own with first _
    exact .inl first
  | cons head others =>
    rw [held] at own
    injection own with first _
    have member : head ∈ front.filterMap (Sum.elim some fun _ => none) := by rw [held]; exact List.mem_cons_self
    obtain ⟨side,inFront,read⟩ := List.mem_filterMap.mp member
    cases side with
    | inl left =>
      cases read
      exact .inr (first ▸ inFront)
    | inr right => cases read

-- A right item behind a left one that is later than it: another of its own side, no
-- earlier than that left one, stands in front of it.
theorem weave_behind_left {a b : α} {front back : List (α ⊕ α)}
    (parts : weave noLater lefts rights = front ++ .inr b :: back) (before : .inl a ∈ front)
    (later : ¬noLater a b) : ∃ held, .inr held ∈ front ∧ noLater a held := by
  fun_induction weave noLater lefts rights generalizing front with
  | case1 rights =>
    have member : Sum.inl a ∈ rights.map Sum.inr := by
      rw [parts]
      exact List.mem_append_left _ before
    simp at member
  | case2 left lefts ih =>
    have member : Sum.inr b ∈ (left :: lefts).map Sum.inl := by
      rw [List.map_cons,← weave_rest,parts]
      simp
    simp at member
  | case3 left lefts right rights first ih =>
    cases front with
    | nil => cases before
    | cons head front =>
      injection parts with same parts
      subst same
      rcases List.mem_cons.mp before with own | earlier
      · cases own
        rcases right_leads parts with next | led
        · exact (later (next ▸ first)).elim
        · exact ⟨right,List.mem_cons_of_mem _ led,first⟩
      · obtain ⟨held,found,least⟩ := ih parts earlier
        exact ⟨held,List.mem_cons_of_mem _ found,least⟩
  | case4 left lefts right rights behind ih =>
    cases front with
    | nil => cases before
    | cons head front =>
      injection parts with same parts
      subst same
      rcases List.mem_cons.mp before with own | earlier
      · cases own
      · obtain ⟨held,found,least⟩ := ih parts earlier
        exact ⟨held,List.mem_cons_of_mem _ found,least⟩

-- A left item behind a right one that it is no later than: another of its own side,
-- later than that right one, stands in front of it.
theorem weave_behind_right {a b : α} {front back : List (α ⊕ α)}
    (parts : weave noLater lefts rights = front ++ .inl a :: back) (before : .inr b ∈ front)
    (earlier : noLater a b) : ∃ held, .inl held ∈ front ∧ ¬noLater held b := by
  fun_induction weave noLater lefts rights generalizing front with
  | case1 rights =>
    have member : Sum.inl a ∈ rights.map Sum.inr := by
      rw [parts]
      simp
    simp at member
  | case2 left lefts ih =>
    have member : Sum.inr b ∈ (left :: lefts).map Sum.inl := by
      rw [List.map_cons,← weave_rest,parts]
      exact List.mem_append_left _ before
    simp at member
  | case3 left lefts right rights first ih =>
    cases front with
    | nil => cases before
    | cons head front =>
      injection parts with same parts
      subst same
      rcases List.mem_cons.mp before with own | inFront
      · cases own
      · obtain ⟨held,found,least⟩ := ih parts inFront
        exact ⟨held,List.mem_cons_of_mem _ found,least⟩
  | case4 left lefts right rights behind ih =>
    cases front with
    | nil => cases before
    | cons head front =>
      injection parts with same parts
      subst same
      rcases List.mem_cons.mp before with own | inFront
      · cases own
        rcases left_leads parts with next | led
        · exact (behind (next ▸ earlier)).elim
        · exact ⟨left,List.mem_cons_of_mem _ led,behind⟩
      · obtain ⟨held,found,least⟩ := ih parts inFront
        exact ⟨held,List.mem_cons_of_mem _ found,least⟩

-- Two lists paired item by item.
theorem paired_right {R : α → β → Prop} {items : List α} {made : List β} (pairs : List.Forall₂ R items made) {b : β}
    (member : b ∈ made) : ∃ a ∈ items, R a b := by
  induction pairs with
  | nil => cases member
  | cons first _ ih =>
    rcases List.mem_cons.mp member with own | later
    · exact ⟨_,List.mem_cons_self,own ▸ first⟩
    · obtain ⟨a,found,related⟩ := ih later
      exact ⟨a,List.mem_cons_of_mem _ found,related⟩

theorem paired_left {R : α → β → Prop} {items : List α} {made : List β} (pairs : List.Forall₂ R items made) {a : α}
    (member : a ∈ items) : ∃ b ∈ made, R a b := by
  obtain ⟨b,found,related⟩ := paired_right pairs.flip member
  exact ⟨b,found,related⟩

theorem paired_split {R : α → β → Prop} {items : List α} {front back : List β} {b : β}
    (pairs : List.Forall₂ R items (front ++ b :: back)) : ∃ fronts a backs, items = fronts ++ a :: backs ∧
      List.Forall₂ R fronts front ∧ R a b := by
  induction front generalizing items with
  | nil =>
    obtain ⟨a,backs,first,_,shape⟩ := List.forall₂_cons_right_iff.mp pairs
    exact ⟨[],a,backs,shape,.nil,first⟩
  | cons c front ih =>
    obtain ⟨x,rest,first,others,shape⟩ := List.forall₂_cons_right_iff.mp pairs
    obtain ⟨fronts,a,backs,parts,before,own⟩ := ih others
    exact ⟨x :: fronts,a,backs,by rw [shape,parts]; rfl,.cons first before,own⟩

-- The items of one name, out of lists that each hold the items of their own.
theorem filter_flatMap [DecidableEq γ] {names : List γ} {named : β → γ} {items : γ → List β}
    (once : names.Nodup) (own : ∀ name, ∀ item ∈ items name, named item = name) (name : γ) :
    (names.flatMap items).filter (named · = name) = if name ∈ names then items name else [] := by
  have all : ∀ other, (items other).filter (named · = name) = if other = name then items name else [] := by
    intro other
    split
    · rename_i same
      subst same
      exact List.filter_eq_self.mpr fun item member => decide_eq_true (own other item member)
    · rename_i apart
      apply List.filter_eq_nil_iff.mpr
      intro item member same
      exact apart ((own other item member).symm.trans (of_decide_eq_true same))
  induction names with
  | nil => rfl
  | cons first names ih =>
    obtain ⟨fresh,others⟩ := List.nodup_cons.mp once
    rw [List.flatMap_cons,List.filter_append,all,ih others]
    by_cases same : first = name
    · subst same
      rw [if_pos rfl,if_neg fresh,if_pos List.mem_cons_self,List.append_nil]
    · have other : name ∈ first :: names ↔ name ∈ names := by
        rw [List.mem_cons]
        exact or_iff_right fun equal => same equal.symm
      rw [if_neg same,List.nil_append]
      simp only [other]

end Library
