import Jojobot.Library.Weave

namespace Library

variable {α β : Type} {noLater : α → α → Bool} {read : α → Option β}

-- The items up to the last that reads as something.
def upToLast (read : α → Option β) : List α → List α
  | [] => []
  | item :: rest =>
    match upToLast read rest with
    | [] => if (read item).isSome then [item] else []
    | next :: more => item :: next :: more

theorem upToLast_cons_nil {item : α} {rest : List α} (quiet : upToLast read rest = []) :
    upToLast read (item :: rest) = if (read item).isSome then [item] else [] := by
  simp [upToLast,quiet]

theorem upToLast_cons {item : α} {rest : List α} (sounds : upToLast read rest ≠ []) :
    upToLast read (item :: rest) = item :: upToLast read rest := by
  obtain ⟨next,more,shape⟩ := List.exists_cons_of_ne_nil sounds
  simp [upToLast,shape]

theorem upToLast_nil {items : List α} : upToLast read items = [] ↔ items.filterMap read = [] := by
  induction items with
  | nil => simp [upToLast]
  | cons item rest ih =>
    by_cases quiet : upToLast read rest = []
    · rw [upToLast_cons_nil quiet,List.filterMap_cons]
      cases reads : read item with
      | none => simp [ih.mp quiet]
      | some value => simp
    · rw [upToLast_cons quiet,List.filterMap_cons]
      cases reads : read item with
      | none => simp [mt ih.mpr quiet]
      | some value => simp

theorem getLast?_filterMap_cons (item : α) (rest : List α) :
    ((item :: rest).filterMap read).getLast? = ((rest.filterMap read).getLast?).or (read item) := by
  rw [List.filterMap_cons]
  cases read item with
  | none => simp
  | some value =>
    rw [List.getLast?_cons]
    cases (rest.filterMap read).getLast? <;> rfl

-- Some item of the left, up to its last that counts, is later than all of the right up to
-- its own.
def LeftLast (noLater : α → α → Bool) (read : α → Option β) (lefts rights : List α) : Prop :=
  ∃ a ∈ upToLast read lefts, ∀ b ∈ upToLast read rights, noLater a b = false

theorem leftLast_left {a : α} {lefts rights : List α} (first : ∃ b ∈ upToLast read rights, noLater a b = true) :
    LeftLast noLater read (a :: lefts) rights ↔ LeftLast noLater read lefts rights := by
  obtain ⟨b,has,before⟩ := first
  have idle : ¬∀ b ∈ upToLast read rights, noLater a b = false := by
    intro all
    rw [all b has] at before
    cases before
  unfold LeftLast
  by_cases quiet : upToLast read lefts = []
  · rw [upToLast_cons_nil quiet,quiet]
    split
    · simp [idle]
    · simp
  · rw [upToLast_cons quiet]
    simp [idle]

theorem leftLast_right {a b : α} {lefts rights : List α} (total : ∀ a b, noLater a b = true ∨ noLater b a = true)
    (trans : ∀ a b c, noLater a b = true → noLater b c = true → noLater a c = true) (later : noLater a b = false)
    (has : a ∈ upToLast read lefts) :
    LeftLast noLater read lefts (b :: rights) ↔ LeftLast noLater read lefts rights := by
  unfold LeftLast
  by_cases quiet : upToLast read rights = []
  · rw [upToLast_cons_nil quiet,quiet]
    constructor
    · intro ⟨one,member,_⟩
      exact ⟨one,member,by simp⟩
    · intro _
      refine ⟨a,has,?_⟩
      intro other member
      split at member
      · rw [List.mem_singleton.mp member,later]
      · cases member
  · rw [upToLast_cons quiet]
    constructor
    · intro ⟨one,member,after⟩
      exact ⟨one,member,fun other held => after other (List.mem_cons_of_mem b held)⟩
    · intro ⟨one,member,after⟩
      by_cases early : noLater one b = true
      · -- This one is no later than the right's head, so the left's own head stands for it.
        have back : noLater b a = true := by
          rcases total a b with first | second
          · rw [later] at first
            cases first
          · exact second
        refine ⟨a,has,?_⟩
        intro other held
        rcases List.mem_cons.mp held with rfl | held
        · exact later
        · by_contra reaches
          have least := trans one a other (trans one b a early back) (by simpa using reaches)
          rw [after other held] at least
          cases least
      · refine ⟨one,member,?_⟩
        intro other held
        rcases List.mem_cons.mp held with rfl | held
        · simpa using early
        · exact after other held

instance (noLater : α → α → Bool) (read : α → Option β) (lefts rights : List α) :
    Decidable (LeftLast noLater read lefts rights) := by
  unfold LeftLast
  infer_instance

theorem head_upToLast {item : α} {rest : List α} (sounds : upToLast read (item :: rest) ≠ []) :
    item ∈ upToLast read (item :: rest) := by
  by_cases quiet : upToLast read rest = []
  · rw [upToLast_cons_nil quiet] at sounds ⊢
    split at sounds
    · rw [if_pos (by assumption)]
      exact List.mem_cons_self
    · exact absurd rfl sounds
  · rw [upToLast_cons quiet]
    exact List.mem_cons_self

theorem leftLast_quiet_left {lefts rights : List α} (quiet : upToLast read lefts = []) : ¬LeftLast noLater read lefts rights := by
  intro last
  obtain ⟨_,has,_⟩ := last
  rw [quiet] at has
  cases has

theorem leftLast_quiet_right {lefts rights : List α} (quiet : upToLast read rights = []) :
    LeftLast noLater read lefts rights ↔ upToLast read lefts ≠ [] := by
  constructor
  · intro last none'
    exact leftLast_quiet_left none' last
  · intro sounds
    obtain ⟨a,more,shape⟩ := List.exists_cons_of_ne_nil sounds
    exact ⟨a,by simp [shape],by simp [quiet]⟩

theorem quiet_of_not_leftLast {lefts rights : List α} (quiet : upToLast read rights = [])
    (not : ¬LeftLast noLater read lefts rights) : lefts.filterMap read = [] :=
  upToLast_nil.mp (not_not.mp (mt (leftLast_quiet_right quiet).mpr not))

theorem last_read_or {items : List α} (other : Option β) (sounds : upToLast read items ≠ []) :
    ((items.filterMap read).getLast?).or other = (items.filterMap read).getLast? := by
  obtain ⟨front,last,shape⟩ := (List.eq_nil_or_concat' _).resolve_left (mt upToLast_nil.mpr sounds)
  simp [shape]

-- What is read last of two lists taken in turn, by the side it comes from.
theorem weave_last_read (total : ∀ a b, noLater a b = true ∨ noLater b a = true)
    (trans : ∀ a b c, noLater a b = true → noLater b c = true → noLater a c = true) (lefts rights : List α) :
    ((weave noLater lefts rights).filterMap (Sum.elim read read)).getLast? =
      if LeftLast noLater read lefts rights then (lefts.filterMap read).getLast? else (rights.filterMap read).getLast? := by
  fun_induction weave noLater lefts rights with
  | case1 rights =>
    rw [if_neg (leftLast_quiet_left rfl),List.filterMap_map]
    rfl
  | case2 a lefts ih =>
    rw [weave_rest,←List.map_cons,List.filterMap_map]
    split
    · rfl
    · rename_i not
      rw [show (Sum.elim read read ∘ Sum.inl) = read from rfl,quiet_of_not_leftLast rfl not]
      rfl
  | case3 a lefts b rights first ih =>
    rw [getLast?_filterMap_cons,ih,Sum.elim_inl]
    by_cases quiet : upToLast read (b :: rights) = []
    · by_cases sounds : LeftLast noLater read lefts (b :: rights)
      · have still := (leftLast_quiet_right quiet).mp sounds
        have more : LeftLast noLater read (a :: lefts) (b :: rights) := by
          rw [leftLast_quiet_right quiet,upToLast_cons still]
          exact List.cons_ne_nil a _
        rw [if_pos sounds,if_pos more,getLast?_filterMap_cons]
      · have nothing := quiet_of_not_leftLast quiet sounds
        rw [if_neg sounds,upToLast_nil.mp quiet]
        split
        · rw [getLast?_filterMap_cons,nothing]
        · rename_i not
          have none' := quiet_of_not_leftLast quiet not
          rw [List.filterMap_cons] at none'
          cases reads : read a with
          | none => rfl
          | some value =>
            rw [reads] at none'
            cases none'
    · have ahead : LeftLast noLater read (a :: lefts) (b :: rights) ↔ LeftLast noLater read lefts (b :: rights) :=
        leftLast_left ⟨b,head_upToLast quiet,first⟩
      by_cases sounds : LeftLast noLater read lefts (b :: rights)
      · rw [if_pos sounds,if_pos (ahead.mpr sounds),getLast?_filterMap_cons]
      · rw [if_neg sounds,if_neg (mt ahead.mp sounds)]
        exact last_read_or _ quiet
  | case4 a lefts b rights later ih =>
    rw [getLast?_filterMap_cons,ih,Sum.elim_inr]
    by_cases quiet : upToLast read (a :: lefts) = []
    · rw [if_neg (leftLast_quiet_left quiet),if_neg (leftLast_quiet_left quiet),getLast?_filterMap_cons]
    · have same : LeftLast noLater read (a :: lefts) (b :: rights) ↔ LeftLast noLater read (a :: lefts) rights :=
        leftLast_right total trans (by simpa using later) (head_upToLast quiet)
      by_cases sounds : LeftLast noLater read (a :: lefts) rights
      · rw [if_pos sounds,if_pos (same.mpr sounds)]
        exact last_read_or _ quiet
      · rw [if_neg sounds,if_neg (mt same.mp sounds),getLast?_filterMap_cons]

end Library
