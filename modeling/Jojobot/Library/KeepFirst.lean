import Mathlib

namespace Library
variable {α β ι κ : Type} [DecidableEq ι] [DecidableEq κ]

-- The items that name nothing, and for each name the first item that has it.
-- `seen` holds the names already given a place.
def keepFirst (name : α → Option ι) : List ι → List α → List α
  | _,[] => []
  | seen,item::rest =>
    match name item with
    | none => item :: keepFirst name seen rest
    | some id => if id ∈ seen then keepFirst name seen rest else item :: keepFirst name (seen++[id]) rest

theorem keepFirst_sublist (name : α → Option ι) (seen : List ι) (items : List α) :
    List.Sublist (keepFirst name seen items) items := by
  induction items generalizing seen with
  | nil => exact .slnil
  | cons item rest ih =>
    unfold keepFirst
    split
    · exact (ih _).cons_cons item
    · split
      · exact (ih _).cons item
      · exact (ih _).cons_cons item

theorem keepFirst_ne_nil (name : α → Option ι) (filled : items ≠ []) : keepFirst name [] items ≠ [] := by
  obtain ⟨item,rest,rfl⟩ := List.exists_cons_of_ne_nil filled
  unfold keepFirst
  split <;> simp

theorem keepFirst_unnamed (name : α → Option ι) (seen : List ι) (items : List α) :
    (keepFirst name seen items).filter (fun item => (name item).isNone) =
      items.filter (fun item => (name item).isNone) := by
  induction items generalizing seen with
  | nil => rfl
  | cons item rest ih =>
    unfold keepFirst
    split
    · rename_i unnamed; simp [unnamed,ih]
    · rename_i id named
      split <;> simp [named,ih]

theorem keepFirst_names (name : α → Option ι) (seen : List ι) (items : List α) :
    ((keepFirst name seen items).filterMap name).Nodup ∧
      ∀ id, id ∈ (keepFirst name seen items).filterMap name ↔ id ∈ items.filterMap name ∧ id ∉ seen := by
  induction items generalizing seen with
  | nil => simp [keepFirst]
  | cons item rest ih =>
    unfold keepFirst
    split
    · rename_i unnamed
      simpa only [List.filterMap_cons,unnamed] using ih seen
    · rename_i id named
      split
      · rename_i known
        obtain ⟨distinct,kept⟩ := ih seen
        refine ⟨distinct,fun other => ?_⟩
        rw [kept,List.filterMap_cons,named]
        simp only [List.mem_cons]
        constructor
        · exact fun ⟨there,fresh⟩ => ⟨.inr there,fresh⟩
        · rintro ⟨rfl | there,fresh⟩
          · exact absurd known fresh
          · exact ⟨there,fresh⟩
      · rename_i fresh
        obtain ⟨distinct,kept⟩ := ih (seen++[id])
        simp only [List.filterMap_cons,named,List.nodup_cons,List.mem_cons]
        refine ⟨⟨fun again => ((kept id).mp again).2 (by simp),distinct⟩,fun other => ?_⟩
        rw [kept]
        by_cases equal : other = id
        · subst other; simp [fresh]
        · simp [equal]

theorem keepFirst_nodup (name : α → Option ι) (items : List α) :
    ((keepFirst name [] items).filterMap name).Nodup := (keepFirst_names name [] items).1

theorem keepFirst_mem (name : α → Option ι) (items : List α) (id : ι) :
    id ∈ (keepFirst name [] items).filterMap name ↔ id ∈ items.filterMap name := by
  simpa using (keepFirst_names name [] items).2 id

theorem keepFirst_map (name : β → Option ι) (rewrite : α → β) (seen : List ι) (items : List α) :
    keepFirst name seen (items.map rewrite) = (keepFirst (name ∘ rewrite) seen items).map rewrite := by
  induction items generalizing seen with
  | nil => rfl
  | cons item rest ih =>
    rw [List.map_cons]
    unfold keepFirst
    simp only [Function.comp_apply]
    split
    · rw [ih,List.map_cons]
    · split
      · exact ih seen
      · rw [ih,List.map_cons]

-- Rewriting after a first pass keeps what one pass after the rewriting keeps, as
-- long as the rewriting sends two items of one name to one name.
def Merges (name : α → Option ι) (after : β → Option κ) (rewrite : α → β) (items : List α) : Prop :=
  ∀ x ∈ items, ∀ y ∈ items, ∀ id, name x = some id → name y = some id →
    ∃ now, after (rewrite x) = some now ∧ after (rewrite y) = some now

theorem keepFirst_map_from (name : α → Option ι) (after : β → Option κ) (rewrite : α → β)
    (seen : List ι) (done : List κ) (items : List α) (merges : Merges name after rewrite items)
    (covered : ∀ id ∈ seen, ∀ x ∈ items, name x = some id → ∃ now ∈ done, after (rewrite x) = some now) :
    keepFirst after done ((keepFirst name seen items).map rewrite) =
      keepFirst after done (items.map rewrite) := by
  induction items generalizing seen done with
  | nil => rfl
  | cons item rest ih =>
    have onward : Merges name after rewrite rest := fun x hx y hy =>
      merges x (List.mem_cons_of_mem _ hx) y (List.mem_cons_of_mem _ hy)
    have behind : ∀ id ∈ seen, ∀ x ∈ rest, name x = some id → ∃ now ∈ done, after (rewrite x) = some now :=
      fun id known x hx => covered id known x (List.mem_cons_of_mem _ hx)
    conv_lhs => arg 3; arg 2; unfold keepFirst
    cases named : name item with
    | none =>
      simp only [List.map_cons]
      unfold keepFirst
      split
      · rw [ih seen done onward behind]
      · split
        · exact ih seen done onward behind
        · rw [ih _ _ onward]
          intro id member x hx found
          obtain ⟨now,there,same⟩ := behind id member x hx found
          exact ⟨now,by simp [there],same⟩
    | some id =>
      dsimp only
      obtain ⟨now,named',_⟩ := merges item (by simp) item (by simp) id named named
      have shared : ∀ x ∈ rest, name x = some id → after (rewrite x) = some now := by
        intro x hx found
        obtain ⟨also,first,second⟩ := merges item (by simp) x (by simp [hx]) id named found
        rw [second,←first,named']
      split
      · rename_i known
        obtain ⟨was,there,same⟩ := covered id known item (by simp) named
        rw [ih seen done onward behind]
        conv_rhs => rw [List.map_cons,keepFirst]
        simp [same,there]
      · simp only [List.map_cons]
        unfold keepFirst
        simp only [named']
        split
        · rename_i there
          apply ih _ _ onward
          intro other member x hx found
          rcases List.mem_append.mp member with old | last
          · exact behind other old x hx found
          · cases List.mem_singleton.mp last
            exact ⟨now,there,shared x hx found⟩
        · rw [ih _ _ onward]
          intro other member x hx found
          rcases List.mem_append.mp member with old | last
          · obtain ⟨was,there,same⟩ := behind other old x hx found
            exact ⟨was,by simp [there],same⟩
          · cases List.mem_singleton.mp last
            exact ⟨now,by simp,shared x hx found⟩

theorem keepFirst_map_keepFirst (name : α → Option ι) (after : β → Option κ) (rewrite : α → β)
    (items : List α) (merges : Merges name after rewrite items) :
    keepFirst after [] ((keepFirst name [] items).map rewrite) = keepFirst after [] (items.map rewrite) :=
  keepFirst_map_from name after rewrite [] [] items merges (by simp)

end Library
