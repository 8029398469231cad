import Jojobot.Memory.Document.Seam.Lines

namespace Document
open Library

variable {text line tail front behind other gap : Text} {lines rest : List Text} {fence : Option (Char × Nat)}
  {frontmatter offset : Nat}

theorem lastLine_parts (run : Text) : ∃ front, run = front ++ lastLine run ∧ (front = [] ∨ front.getLast? = some '\n') ∧
    '\n' ∉ lastLine run := by
  refine ⟨run.rdropWhile (· ≠ '\n'),(List.rdropWhile_append_rtakeWhile ..).symm,?_,?_⟩
  · by_cases none' : run.rdropWhile (· ≠ '\n') = []
    · exact Or.inl none'
    · have last := List.rdropWhile_last_not (fun c : Char => decide (c ≠ '\n')) run none'
      right
      have feed : (run.rdropWhile (· ≠ '\n')).getLast none' = '\n' := by
        by_contra plain
        exact last (by simpa using plain)
      rw [List.getLast?_eq_some_getLast none',feed]
  · intro member
    have other := List.mem_rtakeWhile_imp member
    simp at other

-- The line a text ends on in words starts behind a line feed or at the text's start.
theorem EndsSolid.parts (solid : EndsSolid text) : ∃ front line, text = front ++ line ∧
    (front = [] ∨ front.getLast? = some '\n') ∧ line ≠ [] ∧ '\n' ∉ line ∧ EndsSolid line := by
  obtain ⟨front,parts,ends,clean⟩ := lastLine_parts text
  obtain ⟨c,last,plain⟩ := solid
  have filled : lastLine text ≠ [] := by
    intro none'
    rw [none',List.append_nil] at parts
    rw [parts] at last
    rcases ends with none'' | feed
    · rw [none''] at last
      cases last
    · rw [feed] at last
      cases last
      cases plain
  refine ⟨front,lastLine text,parts,ends,filled,clean,c,?_,plain⟩
  rw [parts,List.getLast?_append_of_ne_nil _ filled] at last
  exact last

-- What stands behind a line's words changes no fence.
theorem fence_behind_words (filled : line ≠ []) (clean : '\n' ∉ line) (solid : EndsSolid line)
    (white : ∀ c ∈ gap, isWhitespace c = true) (fence : Option (Char × Nat)) :
    (splitInclusive (line ++ gap)).foldl (fun fence raw => (readLine fence (bare raw)).1) fence =
      (readLine fence (bare line)).1 := by
  obtain ⟨first,more,split,parts⟩ := splitInclusive_front filled clean gap
  rw [parts] at white
  have same := @readLine_behind line solid first [] (fun c has => white c (List.mem_append_left _ has)) (by simp) fence
  rw [split,List.foldl_cons,fence_blank,same,List.append_nil]
  intro blank has c inside
  exact white c (List.mem_append_right _ (List.mem_flatten_of_mem has inside))

theorem fenceBehind_within (filled : ∀ raw ∈ lines, raw ≠ []) (within : offset+lines.flatten.length ≤ frontmatter) :
    fenceBehind frontmatter fence offset lines = fence := by
  induction lines generalizing offset with
  | nil => rfl
  | cons raw rest ih =>
    have some' := List.length_pos_of_ne_nil (filled raw List.mem_cons_self)
    rw [List.flatten_cons,List.length_append] at within
    rw [fenceBehind,if_pos (by omega)]
    exact ih (fun raw has => filled raw (List.mem_cons_of_mem _ has)) (by omega)

theorem fenceBehind_blank (blank : ∀ line ∈ lines, ∀ c ∈ line, isWhitespace c = true) :
    fenceBehind frontmatter fence offset lines = fence := by
  induction lines generalizing offset with
  | nil => rfl
  | cons raw rest ih =>
    have kept : (if offset < frontmatter then fence else (readLine fence (bare raw)).1) = fence := by
      split
      · rfl
      · exact readLine_blank fence (blank raw List.mem_cons_self)
    rw [fenceBehind,kept]
    exact ih fun line has => blank line (List.mem_cons_of_mem _ has)

-- A block that closes, closes behind some line.
theorem frontmatterClose_past (closed : frontmatterClose offset lines ≠ 0) : offset < frontmatterClose offset lines := by
  induction lines generalizing offset with
  | nil => exact absurd rfl closed
  | cons raw rest ih =>
    rw [frontmatterClose] at closed ⊢
    split
    · rename_i marks
      have filled : raw ≠ [] := by
        intro none'
        rw [none'] at marks
        revert marks
        decide
      have := List.length_pos_of_ne_nil filled
      omega
    · rename_i plain
      rw [if_neg plain] at closed
      have := ih closed
      omega

theorem frontmatterClose_stays (closed : frontmatterClose offset (lines ++ rest) ≠ 0)
    (within : frontmatterClose offset (lines ++ rest) ≤ offset+lines.flatten.length) (rest' : List Text) :
    frontmatterClose offset (lines ++ rest') = frontmatterClose offset (lines ++ rest) := by
  induction lines generalizing offset with
  | nil =>
    have past := frontmatterClose_past closed
    rw [List.flatten_nil,List.length_nil] at within
    omega
  | cons raw lines ih =>
    rw [List.cons_append,frontmatterClose] at closed within ⊢
    rw [List.cons_append,frontmatterClose]
    split
    · rfl
    · rename_i plain
      rw [if_neg plain] at closed within
      rw [List.flatten_cons,List.length_append] at within
      exact ih closed (by omega)

-- A block that closes among a text's first lines is the same before any others.
theorem frontmatterEnd_stays (ends : front = [] ∨ front.getLast? = some '\n') (closed : frontmatterEnd (front ++ behind) ≠ 0)
    (within : frontmatterEnd (front ++ behind) ≤ front.length) (other : Text) :
    frontmatterEnd (front ++ other) = frontmatterEnd (front ++ behind) := by
  have whole := splitInclusive_flatten front
  have filled : front ≠ [] := by
    intro none'
    rw [none',List.length_nil] at within
    rw [none'] at closed
    omega
  unfold frontmatterEnd at closed within ⊢
  rw [splitInclusive_behind ends] at closed within ⊢
  rw [splitInclusive_behind ends]
  cases shape : splitInclusive front with
  | nil => exact absurd (splitInclusive_eq_nil.mp shape) filled
  | cons first lines =>
    rw [shape] at closed within whole
    simp only [List.cons_append] at closed within ⊢
    split
    · rfl
    · rename_i marks
      rw [if_neg marks] at closed within
      rw [←whole,List.flatten_cons,List.length_append] at within
      exact frontmatterClose_stays closed within (splitInclusive other)

-- A block ends where a line does.
theorem frontmatterClose_line {raw : Text} {more : List Text}
    (beyond : offset+lines.flatten.length < frontmatterClose offset (lines ++ raw :: more)) :
    offset+lines.flatten.length+raw.length ≤ frontmatterClose offset (lines ++ raw :: more) := by
  induction lines generalizing offset with
  | nil =>
    rw [List.nil_append,List.flatten_nil,List.length_nil,frontmatterClose] at *
    split
    · omega
    · rename_i plain
      rw [if_neg plain] at beyond
      have := @frontmatterClose_past more (offset+raw.length) (by omega)
      omega
  | cons one lines ih =>
    rw [List.cons_append,frontmatterClose,List.flatten_cons,List.length_append] at *
    split
    · rename_i marks
      rw [if_pos marks] at beyond
      omega
    · rename_i plain
      rw [if_neg plain] at beyond
      have := @ih (offset+one.length) (by omega)
      omega

theorem frontmatterEnd_line {raw : Text} {more : List Text} (filled : lines ≠ []) (split : splitInclusive text = lines ++ raw :: more)
    (beyond : lines.flatten.length < frontmatterEnd text) : lines.flatten.length+raw.length ≤ frontmatterEnd text := by
  obtain ⟨first,rest,rfl⟩ := List.exists_cons_of_ne_nil filled
  unfold frontmatterEnd at beyond ⊢
  rw [split] at beyond ⊢
  simp only [List.cons_append,List.flatten_cons,List.length_append] at beyond ⊢
  split at beyond
  · omega
  · rename_i marks
    rw [if_neg marks]
    exact frontmatterClose_line beyond

-- A fence that is closed behind a text's words is closed behind any whitespace that follows
-- them, as long as the frontmatter the text closes stays closed.
theorem fence_kept (solid : EndsSolid text) (white : ∀ c ∈ tail, isWhitespace c = true)
    (white' : ∀ c ∈ gap, isWhitespace c = true) (closed : fenceBehind (frontmatterEnd (text ++ tail)) none 0 (splitInclusive (text ++ tail)) = none)
    (kept : frontmatterEnd (text ++ tail) ≠ 0 → frontmatterEnd (text ++ gap ++ behind) ≠ 0) :
    fenceBehind (frontmatterEnd (text ++ gap ++ behind)) none 0 (splitInclusive (text ++ gap)) = none := by
  obtain ⟨front,line,rfl,ends,filled,clean,solid'⟩ := solid.parts
  obtain ⟨first,more,split,parts⟩ := splitInclusive_front filled clean gap
  have lined := splitInclusive_linesOf front
  have apart : splitInclusive (front ++ line ++ gap) = splitInclusive front ++ splitInclusive (line ++ gap) := by
    rw [List.append_assoc,splitInclusive_behind ends]
  have apart' : splitInclusive (front ++ line ++ tail) = splitInclusive front ++ splitInclusive (line ++ tail) := by
    rw [List.append_assoc,splitInclusive_behind ends]
  have length : (splitInclusive front).flatten.length = front.length := by rw [splitInclusive_flatten]
  rw [apart,fenceBehind_append,Nat.zero_add,length]
  rw [apart',fenceBehind_append,Nat.zero_add,length] at closed
  rcases Nat.lt_or_ge front.length (frontmatterEnd (front ++ line ++ gap ++ behind)) with inside | past
  · -- The words' own line is in the block, and what is behind it is blank.
    have whole : ∀ raw ∈ splitInclusive front, raw ≠ [] := by
      intro raw has
      obtain ⟨before,after,shape⟩ := List.append_of_mem has
      exact (lined before raw after shape).1
    rw [fenceBehind_within whole (by omega),split,fenceBehind,if_pos inside,fenceBehind_blank]
    intro blank has c member
    exact white' c (by rw [parts]; exact List.mem_append_right _ (List.mem_flatten_of_mem has member))
  · have same : frontmatterEnd (front ++ line ++ tail) = frontmatterEnd (front ++ line ++ gap ++ behind) := by
      by_cases none' : frontmatterEnd (front ++ line ++ gap ++ behind) = 0
      · rw [none']
        by_contra some'
        exact kept some' none'
      · have moved := @frontmatterEnd_stays front (line ++ gap ++ behind) ends (by simpa using none') (by simpa using past) (line ++ tail)
        simpa using moved
    rw [same] at closed
    rw [fenceBehind_past _ _ _ _ past,fence_behind_words filled clean solid' white] at closed
    rw [fenceBehind_past _ _ _ _ past,fence_behind_words filled clean solid' white']
    exact closed

end Document
