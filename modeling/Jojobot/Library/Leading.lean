import Jojobot.Library.KeepFirst
import Jojobot.Library.Sorting

namespace Library
open Std

section
variable {α κ : Type} [DecidableEq κ] {cmp : α → α → Ordering} [TransCmp cmp] {name : α → Option κ}
  {items more : List α} {x y : α} {limit : Nat}

theorem strict_nodup (strict : items.Pairwise fun a b => cmp a b = .lt) : items.Nodup := by
  refine strict.imp ?_
  intro a b less same
  subst same
  rw [@ReflCmp.compare_self _ cmp] at less
  cases less

-- A strict order of the same items is one list.
theorem strict_ext (strict : items.Pairwise fun a b => cmp a b = .lt) (other : more.Pairwise fun a b => cmp a b = .lt)
    (same : ∀ x, x ∈ items ↔ x ∈ more) : items = more := by
  have perm := (List.perm_ext_iff_of_nodup (strict_nodup strict) (strict_nodup other)).mpr same
  rw [← sortBy_eq perm strict,sortBy_eq (List.Perm.refl _) other]

theorem lt_irrefl (x : α) : cmp x x ≠ .lt := by
  rw [@ReflCmp.compare_self _ cmp]
  intro equal
  cases equal

theorem isLE_self (x : α) : (cmp x x).isLE = true := by
  rw [@ReflCmp.compare_self _ cmp]
  rfl

theorem lt_of_not_isLE (above : ¬(cmp x y).isLE = true) : cmp y x = .lt := by
  rw [@OrientedCmp.eq_swap _ cmp _ y x]
  cases order : cmp x y with
  | lt => simp [order] at above
  | eq => simp [order] at above
  | gt => rfl

theorem not_isLE_of_lt (less : cmp y x = .lt) : ¬(cmp x y).isLE = true := by
  rw [@OrientedCmp.eq_swap _ cmp _ x y,less]
  simp

-- No two of the items tie, so the order is total on them.
def Apart (cmp : α → α → Ordering) (items : List α) : Prop := items.Pairwise fun a b => cmp a b ≠ .eq

theorem Apart.eq (apart : Apart cmp items) (inX : x ∈ items) (inY : y ∈ items) (xy : (cmp x y).isLE = true)
    (yx : (cmp y x).isLE = true) : x = y := by
  have strict := sortBy_strict apart
  exact strict_antisymm strict (mem_sortBy.mpr inX) (mem_sortBy.mpr inY) xy yx

-- Of the items in order, those without a name and the first of each name.
def firsts (cmp : α → α → Ordering) (name : α → Option κ) (items : List α) : List α :=
  keepFirst name [] (sortBy cmp items)

def leading (cmp : α → α → Ordering) (name : α → Option κ) (limit : Nat) (items : List α) : List α :=
  (firsts cmp name items).take limit

-- What an item stands for: its name, or itself.
def slot (name : α → Option κ) (x : α) : κ ⊕ α :=
  match name x with
  | some k => .inl k
  | none => .inr x

omit [DecidableEq κ] in
theorem slot_eq : slot name x = slot name y ↔ x = y ∨ ∃ k, name x = some k ∧ name y = some k := by
  unfold slot
  cases namedX : name x with
  | none =>
    cases namedY : name y with
    | none => simp
    | some k => simp; rintro rfl; simp [namedX] at namedY
  | some k =>
    cases namedY : name y with
    | none => simp; rintro rfl; simp [namedX] at namedY
    | some l =>
      simp only [Sum.inl.injEq,Option.some.injEq,exists_eq_left']
      constructor
      · intro same
        exact Or.inr same.symm
      · intro either
        rcases either with rfl | same
        · exact Option.some.inj (namedX.symm.trans namedY)
        · exact same.symm

theorem keepFirst_strict {seen : List κ} (strict : items.Pairwise fun a b => cmp a b = .lt) :
    x ∈ keepFirst name seen items ↔
      x ∈ items ∧ ∀ k, name x = some k → k ∉ seen ∧ ∀ y ∈ items, name y = some k → (cmp x y).isLE = true := by
  induction items generalizing seen with
  | nil => simp [keepFirst]
  | cons first rest ih =>
    obtain ⟨least,strict⟩ := List.pairwise_cons.mp strict
    unfold keepFirst
    split
    · rename_i unnamed
      rw [List.mem_cons,ih strict]
      constructor
      · intro either
        rcases either with rfl | later
        · exact ⟨List.mem_cons_self,fun k named => by simp [unnamed] at named⟩
        · refine ⟨List.mem_cons_of_mem _ later.1,fun k named => ⟨(later.2 k named).1,?_⟩⟩
          intro y inside other
          rcases List.mem_cons.mp inside with rfl | inside
          · simp [unnamed] at other
          · exact (later.2 k named).2 y inside other
      · intro both
        obtain ⟨inside,kept⟩ := both
        rcases List.mem_cons.mp inside with rfl | inside
        · exact Or.inl rfl
        · exact Or.inr ⟨inside,fun k named => ⟨(kept k named).1,fun y within => (kept k named).2 y (List.mem_cons_of_mem _ within)⟩⟩
    · rename_i id named
      split
      · rename_i known
        rw [ih strict]
        constructor
        · intro both
          obtain ⟨inside,kept⟩ := both
          refine ⟨List.mem_cons_of_mem _ inside,fun k mine => ⟨(kept k mine).1,?_⟩⟩
          intro y within other
          rcases List.mem_cons.mp within with rfl | within
          · rw [named] at other
            cases Option.some.inj other
            exact absurd known (kept _ mine).1
          · exact (kept k mine).2 y within other
        · intro both
          obtain ⟨inside,kept⟩ := both
          rcases List.mem_cons.mp inside with rfl | inside
          · exact absurd known (kept id named).1
          · exact ⟨inside,fun k mine => ⟨(kept k mine).1,fun y within => (kept k mine).2 y (List.mem_cons_of_mem _ within)⟩⟩
      · rename_i fresh
        rw [List.mem_cons,ih strict]
        constructor
        · intro either
          rcases either with rfl | later
          · refine ⟨List.mem_cons_self,fun k mine => ?_⟩
            rw [named] at mine
            cases Option.some.inj mine
            refine ⟨fresh,fun y within _ => ?_⟩
            rcases List.mem_cons.mp within with rfl | within
            · exact isLE_self _
            · simp [least y within]
          · obtain ⟨inside,kept⟩ := later
            refine ⟨List.mem_cons_of_mem _ inside,fun k mine => ?_⟩
            obtain ⟨unseen,lowest⟩ := kept k mine
            rw [List.mem_append,List.mem_singleton,not_or] at unseen
            refine ⟨unseen.1,fun y within other => ?_⟩
            rcases List.mem_cons.mp within with rfl | within
            · rw [named] at other
              exact absurd (Option.some.inj other).symm unseen.2
            · exact lowest y within other
        · intro both
          obtain ⟨inside,kept⟩ := both
          rcases List.mem_cons.mp inside with rfl | inside
          · exact Or.inl rfl
          · refine Or.inr ⟨inside,fun k mine => ?_⟩
            obtain ⟨unseen,lowest⟩ := kept k mine
            refine ⟨?_,fun y within => lowest y (List.mem_cons_of_mem _ within)⟩
            rw [List.mem_append,List.mem_singleton,not_or]
            refine ⟨unseen,fun same => ?_⟩
            subst same
            exact not_isLE_of_lt (least x inside) (lowest first List.mem_cons_self named)

theorem mem_firsts (apart : Apart cmp items) : x ∈ firsts cmp name items ↔
    x ∈ items ∧ ∀ y ∈ items, slot name y = slot name x → (cmp x y).isLE = true := by
  rw [firsts,keepFirst_strict (sortBy_strict apart),mem_sortBy]
  apply and_congr_right
  intro _
  constructor
  · intro kept y inside same
    rcases slot_eq.mp same with rfl | ⟨k,other,mine⟩
    · exact isLE_self _
    · exact (kept k mine).2 y (mem_sortBy.mpr inside) other
  · intro lowest k mine
    refine ⟨List.not_mem_nil,fun y inside other => ?_⟩
    exact lowest y (mem_sortBy.mp inside) (slot_eq.mpr (Or.inr ⟨k,other,mine⟩))

theorem firsts_strict (apart : Apart cmp items) : (firsts cmp name items).Pairwise fun a b => cmp a b = .lt :=
  (sortBy_strict apart).sublist (keepFirst_sublist _ _ _)

theorem leading_strict (apart : Apart cmp items) : (leading cmp name limit items).Pairwise fun a b => cmp a b = .lt :=
  (firsts_strict apart).sublist (List.take_sublist _ _)

omit [TransCmp cmp] in
theorem firsts_subset : firsts cmp name items ⊆ items :=
  fun _ inside => mem_sortBy.mp ((keepFirst_sublist _ _ _).subset inside)

theorem exists_first (apart : Apart cmp items) (inside : y ∈ items) :
    ∃ x ∈ firsts cmp name items, slot name x = slot name y ∧ (cmp x y).isLE = true := by
  classical
  have sorted : (sortBy cmp (items.filter fun x => slot name x = slot name y)).Pairwise fun a b => (cmp a b).isLE = true :=
    sortBy_pairwise _
  have member (x : α) : x ∈ sortBy cmp (items.filter fun x => slot name x = slot name y) ↔
      x ∈ items ∧ slot name x = slot name y := by
    rw [mem_sortBy,List.mem_filter,decide_eq_true_eq]
  have here := (member y).mpr ⟨inside,rfl⟩
  cases shape : sortBy cmp (items.filter fun x => slot name x = slot name y) with
  | nil => simp [shape] at here
  | cons least rest =>
    rw [shape] at sorted here member
    obtain ⟨within,same⟩ := (member least).mp List.mem_cons_self
    have lowest (z : α) (inZ : z ∈ least::rest) : (cmp least z).isLE = true := by
      rcases List.mem_cons.mp inZ with rfl | inZ
      · exact isLE_self _
      · exact (List.pairwise_cons.mp sorted).1 z inZ
    refine ⟨least,(mem_firsts apart).mpr ⟨within,fun z inZ alike => lowest z ?_⟩,same,lowest y here⟩
    exact (member z).mpr ⟨inZ,alike.trans same⟩

theorem take_strict (strict : items.Pairwise fun a b => cmp a b = .lt) :
    x ∈ items.take limit ↔ x ∈ items ∧ (items.filter (cmp · x = .lt)).length < limit := by
  induction items generalizing limit with
  | nil => simp
  | cons first rest ih =>
    obtain ⟨least,strict⟩ := List.pairwise_cons.mp strict
    cases limit with
    | zero => simp
    | succ limit =>
      rw [List.take_succ_cons,List.mem_cons,List.mem_cons,ih strict]
      constructor
      · intro either
        rcases either with rfl | later
        · have none : rest.filter (cmp · x = .lt) = [] := by
            rw [List.filter_eq_nil_iff]
            intro y inside
            rw [decide_eq_true_eq]
            intro less
            exact not_isLE_of_lt (least y inside) (by simp [less])
          refine ⟨Or.inl rfl,?_⟩
          rw [List.filter_cons_of_neg (by simpa using lt_irrefl x),none]
          exact Nat.succ_pos _
        · refine ⟨Or.inr later.1,?_⟩
          rw [List.filter_cons_of_pos (by simpa using least x later.1),List.length_cons]
          exact Nat.succ_lt_succ later.2
      · intro both
        obtain ⟨either,few⟩ := both
        rcases either with rfl | inside
        · exact Or.inl rfl
        · rw [List.filter_cons_of_pos (by simpa using least x inside),List.length_cons] at few
          exact Or.inr ⟨inside,Nat.lt_of_succ_lt_succ few⟩

variable [DecidableEq α]

-- What the items before an item stand for.
def ahead (cmp : α → α → Ordering) (name : α → Option κ) (items : List α) (x : α) : Finset (κ ⊕ α) :=
  ((items.filter (cmp · x = .lt)).map (slot name)).toFinset

omit [TransCmp cmp] in
theorem mem_ahead {place : κ ⊕ α} : place ∈ ahead cmp name items x ↔ ∃ y ∈ items, cmp y x = .lt ∧ slot name y = place := by
  simp [ahead,and_assoc]

omit [TransCmp cmp] in
theorem ahead_mono (fewer : items ⊆ more) : ahead cmp name items x ⊆ ahead cmp name more x := by
  intro place
  rw [mem_ahead,mem_ahead]
  intro found
  obtain ⟨y,inside,less,same⟩ := found
  exact ⟨y,fewer inside,less,same⟩

theorem ahead_le (below : (cmp x y).isLE = true) : ahead cmp name items x ⊆ ahead cmp name items y := by
  intro place
  rw [mem_ahead,mem_ahead]
  intro found
  obtain ⟨z,inside,less,same⟩ := found
  exact ⟨z,inside,TransCmp.lt_of_lt_of_isLE less below,same⟩

-- The firsts before an item stand for all that stands before it, each for something else.
theorem ahead_card (apart : Apart cmp items) :
    (ahead cmp name items x).card = ((firsts cmp name items).filter (cmp · x = .lt)).length := by
  have same : ahead cmp name items x = (((firsts cmp name items).filter (cmp · x = .lt)).map (slot name)).toFinset := by
    ext place
    rw [mem_ahead,List.mem_toFinset,List.mem_map]
    constructor
    · intro found
      obtain ⟨y,inside,less,rfl⟩ := found
      have lowest : ∃ z ∈ firsts cmp name items, slot name z = slot name y ∧ (cmp z y).isLE = true :=
        exists_first apart inside
      obtain ⟨z,first,alike,below⟩ := lowest
      refine ⟨z,List.mem_filter.mpr ⟨first,?_⟩,alike⟩
      simpa using TransCmp.lt_of_isLE_of_lt below less
    · intro found
      obtain ⟨y,inside,rfl⟩ := found
      obtain ⟨first,less⟩ := List.mem_filter.mp inside
      exact ⟨y,firsts_subset first,by simpa using less,rfl⟩
  have distinct : (((firsts cmp name items).filter (cmp · x = .lt)).map (slot name)).Nodup := by
    refine (List.nodup_map_iff_inj_on ((strict_nodup (firsts_strict apart)).filter _)).mpr ?_
    intro y inY z inZ alike
    have firstY := (mem_firsts apart).mp (List.mem_filter.mp inY).1
    have firstZ := (mem_firsts apart).mp (List.mem_filter.mp inZ).1
    exact apart.eq firstY.1 firstZ.1 (firstY.2 z firstZ.1 alike.symm) (firstZ.2 y firstY.1 alike)
  rw [same,List.toFinset_card_of_nodup distinct,List.length_map]

theorem mem_leading (apart : Apart cmp items) : x ∈ leading cmp name limit items ↔
    x ∈ firsts cmp name items ∧ (ahead cmp name items x).card < limit := by
  rw [leading,take_strict (firsts_strict apart),ahead_card apart]

-- What leads leads still when others go.
theorem leading_mono (apart : Apart cmp items) (apartMore : Apart cmp more) (fewer : items ⊆ more) (inside : x ∈ items)
    (leads : x ∈ leading cmp name limit more) : x ∈ leading cmp name limit items := by
  rw [mem_leading apartMore] at leads
  rw [mem_leading apart]
  obtain ⟨first,few⟩ := leads
  have lowest := (mem_firsts apartMore).mp first
  exact ⟨(mem_firsts apart).mpr ⟨inside,fun y within => lowest.2 y (fewer within)⟩,
    Nat.lt_of_le_of_lt (Finset.card_le_card (ahead_mono fewer)) few⟩

omit [TransCmp cmp] [DecidableEq α] in
theorem leading_subset : leading cmp name limit items ⊆ items :=
  fun _ inside => firsts_subset (List.mem_of_mem_take inside)

-- Whatever else is left out, the leading items lead as long as they are among the rest.
theorem leading_between (apart : Apart cmp items) (apartMore : Apart cmp more) (fewer : items ⊆ more)
    (kept : leading cmp name limit more ⊆ items) : leading cmp name limit items = leading cmp name limit more := by
  refine strict_ext (leading_strict apart) (leading_strict apartMore) fun x => ⟨fun leads => ?_,fun leads => ?_⟩
  · have inside := leading_subset leads
    have lowest : ∃ b ∈ firsts cmp name more, slot name b = slot name x ∧ (cmp b x).isLE = true :=
      exists_first apartMore (fewer inside)
    obtain ⟨b,first,alike,below⟩ := lowest
    obtain ⟨firstX,few⟩ := (mem_leading apart).mp leads
    by_cases leadsB : (ahead cmp name more b).card < limit
    · have inB := (mem_leading apartMore).mpr ⟨first,leadsB⟩
      have above := ((mem_firsts apart).mp firstX).2 b (kept inB) alike
      have same := apart.eq inside (kept inB) above below
      rw [same]
      exact inB
    · -- Then so many lead before `b` that none is left for `x`.
      exfalso
      have full : (leading cmp name limit more).length = limit := by
        rw [ahead_card apartMore] at leadsB
        have long := List.length_filter_le (cmp · b = .lt) (firsts cmp name more)
        rw [leading,List.length_take]
        omega
      have before : ∀ y ∈ leading cmp name limit more, cmp y x = .lt := by
        intro y inY
        have fewY := ((mem_leading apartMore).mp inY).2
        have less : cmp y b = .lt := by
          by_cases above : (cmp b y).isLE = true
          · have further : (ahead cmp name more b).card ≤ (ahead cmp name more y).card :=
              Finset.card_le_card (ahead_le above)
            omega
          · exact lt_of_not_isLE above
        exact TransCmp.lt_of_lt_of_isLE less below
      have distinct : ((leading cmp name limit more).map (slot name)).Nodup := by
        refine (List.nodup_map_iff_inj_on (strict_nodup (leading_strict apartMore))).mpr ?_
        intro y inY z inZ same
        have firstY := (mem_firsts apartMore).mp (List.mem_of_mem_take inY)
        have firstZ := (mem_firsts apartMore).mp (List.mem_of_mem_take inZ)
        exact apartMore.eq firstY.1 firstZ.1 (firstY.2 z firstZ.1 same.symm) (firstZ.2 y firstY.1 same)
      have within : ((leading cmp name limit more).map (slot name)).toFinset ⊆ ahead cmp name items x := by
        intro place inside
        rw [List.mem_toFinset,List.mem_map] at inside
        obtain ⟨y,inY,rfl⟩ := inside
        exact mem_ahead.mpr ⟨y,kept inY,before y inY,rfl⟩
      have many := Finset.card_le_card within
      rw [List.toFinset_card_of_nodup distinct,List.length_map,full] at many
      omega
  · exact leading_mono apart apartMore fewer (kept leads) leads

end
end Library
