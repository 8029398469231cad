import Mathlib.Data.List.Count

namespace Library

variable {α κ : Type} [DecidableEq κ] {key : α → κ} {items : List α} {one next : α}

-- The items with the one of a key put in place of what was there.
def replaced (key : α → κ) (next : α) (items : List α) : List α := items.map fun item => if key item = key next then next else item

theorem replaced_keys (next : α) (items : List α) : (replaced key next items).map key = items.map key := by
  unfold replaced
  rw [List.map_map]
  apply List.map_congr_left
  intro item _
  dsimp only [Function.comp]
  split
  · rename_i same
    exact same.symm
  · rfl

theorem mem_replaced {item : α} (found : item ∈ replaced key next items) : item = next ∨ (item ∈ items ∧ key item ≠ key next) := by
  obtain ⟨was,has,made⟩ := List.mem_map.mp found
  split at made
  · exact Or.inl made.symm
  · rename_i other
    subst made
    exact Or.inr ⟨has,other⟩

theorem replaced_absent (absent : key next ∉ items.map key) : replaced key next items = items := by
  have still : ∀ item ∈ items, (if key item = key next then next else item) = id item := by
    intro item has
    exact if_neg fun same => absent (List.mem_map.mpr ⟨item,has,same⟩)
  exact (List.map_congr_left still).trans (List.map_id _)

theorem filter_key (apart : (items.map key).Nodup) (has : one ∈ items) : (items.filter (key · = key one)) = [one] := by
  obtain ⟨front,back,rfl⟩ := List.append_of_mem has
  simp only [List.map_append,List.map_cons,List.nodup_append,List.nodup_cons,List.mem_cons,List.mem_map] at apart
  have before : front.filter (key · = key one) = [] := by
    apply List.filter_eq_nil_iff.mpr
    intro item member same
    exact apart.2.2 (key item) ⟨item,member,rfl⟩ (key one) (Or.inl rfl) (of_decide_eq_true same)
  have after : back.filter (key · = key one) = [] := by
    apply List.filter_eq_nil_iff.mpr
    intro item member same
    exact apart.2.1.1 ⟨item,member,of_decide_eq_true same⟩
  simp [before,after]

-- What a replacement does to a count, the others counting as they did.
theorem countP_replaced {before after : α → Bool} (apart : (items.map key).Nodup) (has : one ∈ items) (same : key one = key next)
    (others : ∀ item ∈ items, key item ≠ key next → after item = before item) :
    (replaced key next items).countP after + (before one).toNat = items.countP before + (after next).toNat := by
  induction items with
  | nil => cases has
  | cons first rest ih =>
    rw [List.map_cons] at apart
    obtain ⟨alone,apart⟩ := List.nodup_cons.mp apart
    rcases List.mem_cons.mp has with here | later
    · subst here
      have kept : rest.countP after = rest.countP before := by
        apply List.countP_congr
        intro item member
        have differs : key item ≠ key next := fun clash => alone (List.mem_map.mpr ⟨item,member,clash.trans same.symm⟩)
        rw [others item (List.mem_cons_of_mem _ member) differs]
      have rests : replaced key next (one :: rest) = next :: rest := by
        have rest' : replaced key next rest = rest := replaced_absent (same ▸ alone)
        unfold replaced at rest' ⊢
        rw [List.map_cons,if_pos same,rest']
      rw [rests,List.countP_cons,List.countP_cons,kept]
      cases before one <;> cases after next <;> simp
    · have differs : key first ≠ key next := fun clash => alone (List.mem_map.mpr ⟨one,later,same.trans clash.symm⟩)
      have step := ih apart later fun item member => others item (List.mem_cons_of_mem _ member)
      have shape : replaced key next (first :: rest) = first :: replaced key next rest := by
        unfold replaced
        rw [List.map_cons,if_neg differs]
      rw [shape,List.countP_cons,List.countP_cons,others first List.mem_cons_self differs]
      omega

-- Acts on one key each, no two on the same, are done at once.
theorem foldl_acts {β : Type} {named : β → κ} {apply : β → α → α} (keeps : ∀ act item, key (apply act item) = key item)
    (acts : List β) (apart : (acts.map named).Nodup) (items : List α) :
    acts.foldl (fun items act => items.map fun item => if key item = named act then apply act item else item) items =
      items.map fun item => (acts.find? (named · = key item)).elim item (apply · item) := by
  induction acts generalizing items with
  | nil => exact (List.map_id items).symm
  | cons act rest ih =>
    rw [List.map_cons] at apart
    obtain ⟨alone,apart⟩ := List.nodup_cons.mp apart
    rw [List.foldl_cons,ih apart,List.map_map]
    apply List.map_congr_left
    intro item _
    dsimp only [Function.comp]
    by_cases here : key item = named act
    · have others : rest.find? (named · = key item) = none := by
        apply List.find?_eq_none.mpr
        intro later member same
        exact alone (List.mem_map.mpr ⟨later,member,(of_decide_eq_true same).trans here⟩)
      have first : (act :: rest).find? (named · = key item) = some act := List.find?_cons_of_pos (decide_eq_true here.symm)
      rw [first]
      simp only [if_pos here,keeps]
      rw [others]
      rfl
    · have skipped : (act :: rest).find? (named · = key item) = rest.find? (named · = key item) :=
        List.find?_cons_of_neg (by simpa using Ne.symm here)
      rw [skipped]
      simp only [if_neg here]

end Library
