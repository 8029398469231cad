import Mathlib

namespace Library

-- A string is its Unicode scalar values in order. Comparing two texts compares
-- code points, which is the order of their UTF-8 bytes.
abbrev Text := List Char

-- The White_Space property, which every trim of the standard library reads.
def isWhitespace (c : Char) : Bool :=
  (9 ≤ c.toNat && c.toNat ≤ 13) || c.toNat == 0x20 || c.toNat == 0x85 || c.toNat == 0xA0 ||
    c.toNat == 0x1680 || (0x2000 ≤ c.toNat && c.toNat ≤ 0x200A) || c.toNat == 0x2028 ||
    c.toNat == 0x2029 || c.toNat == 0x202F || c.toNat == 0x205F || c.toNat == 0x3000

def trimStart (text : Text) : Text := text.dropWhile isWhitespace
def trimEnd (text : Text) : Text := text.rdropWhile isWhitespace
def trim (text : Text) : Text := trimEnd (trimStart text)

-- Neither edge is whitespace, so a store that trims keeps the text as it is.
def Trimmed (text : Text) : Prop := trim text = text

instance (text : Text) : Decidable (Trimmed text) := inferInstanceAs (Decidable (_ = _))

@[simp] theorem trim_nil : trim [] = [] := rfl

theorem trimStart_eq_self : trimStart text = text ↔ ∀ c, text.head? = some c → isWhitespace c = false := by
  cases text with
  | nil => simp [trimStart]
  | cons c rest =>
    simp only [trimStart,List.dropWhile_cons,List.head?_cons,Option.some.injEq,forall_eq']
    cases white : isWhitespace c with
    | false => simp
    | true =>
      simp only [if_true,Bool.true_eq_false,iff_false]
      intro equal
      have shorter := (List.dropWhile_suffix (l := rest) isWhitespace).length_le
      rw [equal] at shorter
      simp at shorter

theorem trimEnd_eq_self : trimEnd text = text ↔ ∀ c, text.getLast? = some c → isWhitespace c = false := by
  have reversed := @trimStart_eq_self text.reverse
  simp only [trimStart,List.head?_reverse] at reversed
  rw [←reversed,trimEnd,List.rdropWhile]
  constructor
  · intro equal; rw [←List.reverse_reverse (List.dropWhile _ _),equal]
  · intro equal; rw [equal,List.reverse_reverse]

theorem trimEnd_initial (text : Text) : trimEnd text <+: text := List.rdropWhile_prefix ..

theorem trimEnd_nil_iff : trimEnd text = [] ↔ ∀ c ∈ text, isWhitespace c = true :=
  List.rdropWhile_eq_nil_iff

theorem trimEnd_head (text : Text) (kept : trimEnd text ≠ []) : (trimEnd text).head? = text.head? := by
  obtain ⟨rest,parts⟩ := trimEnd_initial text
  obtain ⟨c,tail,shape⟩ := List.exists_cons_of_ne_nil kept
  rw [shape] at parts ⊢
  rw [←parts]; rfl

theorem trimStart_head (found : (trimStart text).head? = some c) : isWhitespace c = false := by
  have nonempty : trimStart text ≠ [] := by intro empty; simp [empty] at found
  have first := List.head_dropWhile_not isWhitespace nonempty
  rw [List.head?_eq_some_head nonempty] at found
  cases Option.some.inj found
  exact first

theorem trimStart_trim (text : Text) : trimStart (trim text) = trim text := by
  rw [trimStart_eq_self]
  intro c found
  by_cases empty : trim text = []
  · simp [empty] at found
  · rw [trim,trimEnd_head _ empty] at found
    exact trimStart_head found

@[simp] theorem trim_trim (text : Text) : trim (trim text) = trim text := by
  conv_lhs => rw [trim,trimStart_trim]
  exact List.rdropWhile_idempotent ..

theorem trim_trimmed (text : Text) : Trimmed (trim text) := trim_trim text

theorem trimmed_iff : Trimmed text ↔ (∀ c, text.head? = some c → isWhitespace c = false) ∧
    (∀ c, text.getLast? = some c → isWhitespace c = false) := by
  rw [←trimStart_eq_self,←trimEnd_eq_self]
  constructor
  · intro trimmed
    have start : trimStart text = text := by
      have kept := trimStart_trim text
      rwa [show trim text = text from trimmed] at kept
    refine ⟨start,?_⟩
    have ended : trimEnd (trimStart text) = text := trimmed
    rwa [start] at ended
  · rintro ⟨start,ended⟩
    change trimEnd (trimStart text) = text
    rw [start,ended]

theorem trimStart_append_white (white : ∀ c ∈ lead, isWhitespace c = true) :
    trimStart (lead ++ text) = trimStart text := List.dropWhile_append_of_pos white

theorem trimEnd_append_white (white : ∀ c ∈ tail, isWhitespace c = true) :
    trimEnd (text ++ tail) = trimEnd text := by
  rw [trimEnd,List.rdropWhile,List.reverse_append,
    List.dropWhile_append_of_pos (by simpa using white)]
  rfl

theorem trim_append_white (white : ∀ c ∈ lead, isWhitespace c = true) : trim (lead ++ text) = trim text := by
  rw [trim,trimStart_append_white white,trim]

-- What a trim takes off is whitespace on both sides.
theorem trim_parts (text : Text) : ∃ lead tail, text = lead ++ trim text ++ tail ∧
    (∀ c ∈ lead, isWhitespace c = true) ∧ (∀ c ∈ tail, isWhitespace c = true) := by
  refine ⟨text.takeWhile isWhitespace,(trimStart text).rtakeWhile isWhitespace,?_,
    fun c => List.mem_takeWhile_imp,fun c => List.mem_rtakeWhile_imp⟩
  rw [List.append_assoc,trim,trimEnd,List.rdropWhile_append_rtakeWhile,trimStart,List.takeWhile_append_dropWhile]

theorem mem_trim (solid : isWhitespace c = false) : c ∈ trim text ↔ c ∈ text := by
  obtain ⟨lead,tail,parts,before,after⟩ := trim_parts text
  have out : c ∉ lead ∧ c ∉ tail :=
    ⟨fun member => by simp [before c member] at solid,fun member => by simp [after c member] at solid⟩
  conv_rhs => rw [parts]
  simp [out]

-- A trimmed text is found again between any two runs of whitespace.
theorem trim_between (trimmed : Trimmed core) (before : ∀ c ∈ lead, isWhitespace c = true)
    (after : ∀ c ∈ tail, isWhitespace c = true) : trim (lead ++ core ++ tail) = core := by
  obtain ⟨start,ended⟩ := trimmed_iff.mp trimmed
  cases core with
  | nil =>
    rw [List.append_nil,trim,trimStart_append_white before,trimEnd_nil_iff]
    exact fun c member => after c ((List.dropWhile_suffix _).mem member)
  | cons first rest =>
    have kept : trimStart (first::rest ++ tail) = first::rest ++ tail :=
      trimStart_eq_self.mpr (fun c found => start c (by simpa using found))
    rw [List.append_assoc,trim,trimStart_append_white before,kept,trimEnd_append_white after]
    exact trimEnd_eq_self.mpr ended

theorem trim_white_behind (white : ∀ c ∈ tail, isWhitespace c = true) : trim (text ++ tail) = trim text := by
  obtain ⟨lead,end',parts,before,after⟩ := trim_parts text
  have both : ∀ c ∈ end' ++ tail, isWhitespace c = true := by
    intro c member
    rcases List.mem_append.mp member with own | added
    · exact after c own
    · exact white c added
  conv_lhs => rw [parts,List.append_assoc]
  exact trim_between (trim_trimmed text) before both

-- `split(separator)` and `join(", ")` of the standard library.
def splitItems (value : Text) : List Text := (value.splitOn ',').map trim
def joinItems (items : List Text) : Text := ", ".toList.intercalate items

theorem splitItems_ne_nil (value : Text) : splitItems value ≠ [] := by
  simp [splitItems,List.splitOn_ne_nil]

theorem splitItems_trimmed (member : item ∈ splitItems value) : Trimmed item := by
  obtain ⟨raw,_,rfl⟩ := List.mem_map.mp member
  exact trim_trimmed raw

theorem mem_splitOn_clean {value part : Text} {c : Char} (member : part ∈ value.splitOn c) : c ∉ part := by
  induction value generalizing part with
  | nil => simp at member; subst part; simp
  | cons x rest ih =>
    rw [List.splitOn_cons_eq_if_modifyHead] at member
    split at member
    · rcases List.mem_cons.mp member with rfl | old
      · simp
      · exact ih old
    · rename_i different
      obtain ⟨head,tail,shape⟩ := List.exists_cons_of_ne_nil (List.splitOn_ne_nil c rest)
      rw [shape,List.modifyHead_cons] at member
      rcases List.mem_cons.mp member with rfl | old
      · have clean : c ∉ head := ih (by rw [shape]; simp)
        have fresh : ¬ c = x := by intro equal; subst equal; simp at different
        simp [fresh,clean]
      · exact ih (by rw [shape]; simp [old])

theorem trim_subset (text : Text) : ∀ c ∈ trim text, c ∈ text := by
  intro c member
  have inStart : c ∈ trimStart text := (trimEnd_initial _).subset member
  exact (List.dropWhile_suffix _).subset inStart

theorem splitItems_clean (member : item ∈ splitItems value) : ',' ∉ item := by
  obtain ⟨raw,part,rfl⟩ := List.mem_map.mp member
  exact fun comma => mem_splitOn_clean part (trim_subset raw _ comma)

theorem joinItems_cons (item next : Text) (rest : List Text) :
    joinItems (item::next::rest) = item ++ ',' :: ' ' :: joinItems (next::rest) := by
  simp [joinItems]

-- Items that are trimmed and hold no comma are read back as they were joined.
theorem splitItems_joinItems (filled : items ≠ []) (plain : ∀ item ∈ items, Trimmed item ∧ ',' ∉ item) :
    splitItems (joinItems items) = items := by
  have spaced : ∀ items : List Text, items ≠ [] → (∀ item ∈ items, Trimmed item ∧ ',' ∉ item) →
      splitItems (' ' :: joinItems items) = items ∧ splitItems (joinItems items) = items := by
    intro items
    induction items with
    | nil => simp
    | cons item rest ih =>
      intro _ plain
      obtain ⟨⟨trimmed,clean⟩,others⟩ := List.forall_mem_cons.mp plain
      have white : ∀ c ∈ [' '], isWhitespace c = true := by simp [isWhitespace]
      have lead : trim (' ' :: item) = item := by
        rw [←List.singleton_append,trim_append_white white]; exact trimmed
      cases rest with
      | nil =>
        have cleaner : ',' ∉ ' ' :: item := by simp [clean]
        have joined : joinItems [item] = item := by simp [joinItems]
        rw [joined,splitItems,splitItems,List.splitOn_eq_singleton cleaner,
          List.splitOn_eq_singleton clean]
        exact ⟨by simp [lead],by simp [show trim item = item from trimmed]⟩
      | cons next rest =>
        have tail := (ih (by simp) others).1
        have cleaner : ',' ∉ ' ' :: item := by simp [clean]
        rw [joinItems_cons,splitItems,splitItems,List.splitOn_append_cons_self_of_not_mem clean,
          ←List.cons_append,List.splitOn_append_cons_self_of_not_mem cleaner]
        rw [splitItems] at tail
        simp only [List.map_cons,tail,lead,show trim item = item from trimmed,and_self]
  exact (spaced items filled plain).2

theorem splitItems_plain {value : Text} (clean : ',' ∉ value) : splitItems value = [trim value] := by
  rw [splitItems,List.splitOn_eq_singleton clean]; rfl

-- `Vec::dedup` keeps every value that was there.
theorem mem_eraseReps {α : Type} [BEq α] [LawfulBEq α] (items : List α) (item : α) :
    item ∈ items.eraseReps ↔ item ∈ items := by
  have loop : ∀ (rest : List α) (last : α) (kept : List α),
      item ∈ List.eraseRepsBy.loop (· == ·) last rest kept ↔ item ∈ kept ∨ item = last ∨ item ∈ rest := by
    intro rest
    induction rest with
    | nil => intro last kept; simp [List.eraseRepsBy.loop,or_comm]
    | cons next rest ih =>
      intro last kept
      unfold List.eraseRepsBy.loop
      split
      · rename_i same
        rw [ih,beq_iff_eq.mp same]; simp
      · rw [ih]; simp only [List.mem_cons]; tauto
  cases items with
  | nil => simp [List.eraseReps,List.eraseRepsBy]
  | cons first rest => simpa [List.eraseReps,List.eraseRepsBy] using loop rest first []

end Library
