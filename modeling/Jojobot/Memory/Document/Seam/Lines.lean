import Jojobot.Memory.Document.Seam

namespace Document
open Library

variable {text line tail lead front behind raw : Text} {one : Section} {sections : List Section} {lines more : List Text} {carried : Text}
  {group : List Text × Nat} {level : Nat}

theorem From.whole (taken : From text one carried group) : one.text = carried ++ group.1.flatten := by
  have own := sectionOf_text taken.words group.2
  rw [taken.made]
  conv_rhs => rw [←own]
  simp only [Section.text,List.append_assoc]

-- A section's text up to its tail ends in words.
theorem From.solid (taken : From text one carried group) : ∃ pre, one.text = pre ++ one.edges.tail ∧ EndsSolid pre ∧
    ∀ c ∈ one.edges.tail, isWhitespace c = true := by
  obtain ⟨lead,tail,parts,leadIs,tailIs⟩ := core_parts taken.words
  obtain ⟨lead',tail',parts',_,white⟩ := trim_parts group.1.flatten
  have tails : one.edges.tail = tail := by
    rw [taken.made]
    exact tailIs
  obtain ⟨_,endSolid⟩ := trimmed_iff.mp (trim_trimmed group.1.flatten)
  refine ⟨carried ++ lead ++ trim group.1.flatten,?_,?_,?_⟩
  · rw [taken.whole,tails]
    conv_lhs => rw [parts]
    simp
  · have last := List.getLast?_eq_some_getLast taken.words
    refine ⟨_,?_,endSolid _ last⟩
    rw [List.getLast?_append_of_ne_nil _ taken.words]
    exact last
  · rw [tails]
    intro c member
    have both : trimEnd group.1.flatten ++ tail = group.1.flatten := by
      rw [←tailIs]
      exact List.prefix_iff_eq_append.mp (trimEnd_initial _)
    have run := List.rdropWhile_append_rtakeWhile (p := isWhitespace) (l := group.1.flatten)
    have same : tail = group.1.flatten.rtakeWhile isWhitespace := List.append_cancel_left (both.trans run.symm)
    rw [same] at member
    exact List.mem_rtakeWhile_imp member

theorem loneReturn_append (first : ¬LoneReturn front) (second : ¬LoneReturn behind) : ¬LoneReturn (front ++ behind) := by
  intro lone
  obtain ⟨before,after,parts,unfollowed⟩ := lone
  rcases List.append_eq_append_iff.mp parts with ⟨middle,before',rest⟩ | ⟨middle,front',rest⟩
  · subst before'
    exact second ⟨middle,after,rest,unfollowed⟩
  · cases middle with
    | nil =>
      rw [List.nil_append] at rest
      exact second ⟨[],after,rest.symm,unfollowed⟩
    | cons c middle =>
      rw [List.cons_append] at rest
      cases rest
      refine first ⟨before,middle,front',?_⟩
      intro feed
      apply unfollowed
      rw [List.head?_append,feed]
      rfl

theorem accepted_clean (accepted : split text = .ok sections) : ¬LoneReturn text := by
  intro lone
  obtain ⟨found,some'⟩ := (loneReturnFrom_iff 0 text).mpr lone
  rw [(split_parts accepted).1] at some'
  cases some'

-- A section holds whole lines, so it ends in no half of a line ending.
theorem From.clean (taken : From text one carried group) (clean : ¬LoneReturn text) : ¬LoneReturn one.text := by
  obtain ⟨before,blanks,after,whole,carries⟩ := taken.lines
  have mine : one.text = (blanks ++ group.1).flatten := by
    rw [taken.whole,carries,List.flatten_append]
  have parts : text = before.flatten ++ (one.text ++ after.flatten) := by
    rw [mine,←splitInclusive_flatten text,whole]
    simp
  intro lone
  obtain ⟨first,rest,split,unfollowed⟩ := lone
  have there : text = (before.flatten ++ first) ++ '\r' :: (rest ++ after.flatten) := by
    rw [parts,split]
    simp
  apply clean
  refine ⟨_,_,there,?_⟩
  cases rest with
  | cons c rest => simpa using unfollowed
  | nil =>
    cases after with
    | nil => simp
    | cons next after =>
      -- The last line here is followed by another, so it ends in a line feed.
      obtain ⟨others,last,shape⟩ : ∃ others last, group.1 = others ++ [last] := by
        rcases List.eq_nil_or_concat group.1 with none' | ⟨others,last,some'⟩
        · exact absurd none' taken.heads.filled
        · exact ⟨others,last,by rw [some',List.concat_eq_append]⟩
      have line := splitInclusive_linesOf text (before ++ blanks ++ others) last (next :: after) (by rw [whole,shape]; simp)
      have feed := line.2.1 (List.cons_ne_nil _ _)
      have ended : one.text.getLast? = some '\n' := by
        rw [mine,shape,←List.append_assoc,List.flatten_append]
        simp only [List.flatten_cons,List.flatten_nil,List.append_nil]
        rw [List.getLast?_append_of_ne_nil _ line.1]
        exact feed
      rw [split] at ended
      simp at ended

-- Whitespace carried onto a heading's lead ends where a line does.
theorem From.carried_ends (taken : From text one carried group) : carried = [] ∨ carried.getLast? = some '\n' := by
  obtain ⟨before,blanks,after,whole,carries⟩ := taken.lines
  rcases List.eq_nil_or_concat blanks with none' | ⟨others,last,some'⟩
  · left
    rw [carries,none']
    rfl
  · right
    rw [List.concat_eq_append] at some'
    have line := splitInclusive_linesOf text (before ++ others) last (group.1 ++ after) (by rw [whole,some']; simp)
    have feed := line.2.1 (List.append_ne_nil_of_left_ne_nil taken.heads.filled _)
    rw [carries,some',List.flatten_append]
    simp only [List.flatten_cons,List.flatten_nil,List.append_nil]
    rw [List.getLast?_append_of_ne_nil _ line.1]
    exact feed

theorem linesOf_group (taken : From text one carried group) : LinesOf group.1 := by
  obtain ⟨before,blanks,after,whole,_⟩ := taken.lines
  intro front raw behind split
  have line := splitInclusive_linesOf text (before ++ blanks ++ front) raw (behind ++ after) (by rw [whole,split]; simp)
  exact ⟨line.1,fun more => line.2.1 (List.append_ne_nil_of_left_ne_nil more _),line.2.2⟩

theorem stripSuffix_front (c : Char) (front : Text) (filled : behind ≠ []) : stripSuffix c (front ++ behind) = front ++ stripSuffix c behind := by
  unfold stripSuffix
  rw [List.getLast?_append_of_ne_nil _ filled]
  split
  · exact List.dropLast_append_of_ne_nil filled
  · rfl

theorem bare_front (front rest : Text) : ∃ more, bare ('#' :: rest) = '#' :: more ∧ bare (front ++ '#' :: rest) = front ++ '#' :: more := by
  have first : ∃ more, stripSuffix '\n' ('#' :: rest) = '#' :: more := by
    unfold stripSuffix
    split
    · rename_i feed
      cases rest with
      | nil => simp at feed
      | cons d rest => exact ⟨(d :: rest).dropLast,rfl⟩
    · exact ⟨rest,rfl⟩
  obtain ⟨more,same⟩ := first
  have second : ∃ last, stripSuffix '\r' ('#' :: more) = '#' :: last := by
    unfold stripSuffix
    split
    · rename_i feed
      cases more with
      | nil => simp at feed
      | cons d more => exact ⟨(d :: more).dropLast,rfl⟩
    · exact ⟨more,rfl⟩
  obtain ⟨last,same'⟩ := second
  refine ⟨last,by rw [bare,same,same'],?_⟩
  rw [bare,stripSuffix_front _ _ (List.cons_ne_nil _ _),same,stripSuffix_front _ _ (List.cons_ne_nil _ _),same']

theorem takeWhile_spaces (n : Nat) (rest : Text) : ((List.replicate n ' ' ++ '#' :: rest).takeWhile (· = ' ')) = List.replicate n ' ' := by
  induction n with
  | zero => rfl
  | succ n ih => rw [List.replicate_succ,List.cons_append,List.takeWhile_cons_of_pos (by decide),ih]

theorem headingLevel_indent (most : n ≤ 3) (other : m ≤ 3) (rest : Text) :
    headingLevel (List.replicate n ' ' ++ '#' :: rest) = headingLevel (List.replicate m ' ' ++ '#' :: rest) := by
  have each : ∀ k ≤ 3, headingLevel (List.replicate k ' ' ++ '#' :: rest) = headingLevel ('#' :: rest) := by
    intro k few
    unfold headingLevel
    have zero := takeWhile_spaces 0 rest
    rw [List.replicate_zero,List.nil_append] at zero
    simp only [takeWhile_spaces,zero,List.length_replicate,List.length_nil,if_neg (Nat.not_lt.mpr few),if_neg (Nat.not_lt_zero 3),List.drop_zero]
    have dropped : (List.replicate k ' ' ++ '#' :: rest).drop k = '#' :: rest := by
      conv_lhs => rw [show k = (List.replicate k ' ').length by simp]
      rw [List.length_replicate]
      exact List.drop_left' (by simp)
    rw [dropped]
  rw [each n most,each m other]

theorem fenceOf_hash (n : Nat) (rest : Text) : fenceOf (List.replicate n ' ' ++ '#' :: rest) = none := by
  unfold fenceOf
  have dropped : (List.replicate n ' ' ++ '#' :: rest).drop n = '#' :: rest := List.drop_left' (by simp)
  simp only [takeWhile_spaces,List.length_replicate,dropped,List.head?_cons,Option.bind_some]
  split
  · rfl
  · simp

theorem drop_takeWhile {α : Type} (p : α → Bool) (items : List α) : items.drop (items.takeWhile p).length = items.dropWhile p := by
  induction items with
  | nil => rfl
  | cons one rest ih =>
    by_cases passes : p one = true
    · rw [List.takeWhile_cons_of_pos passes,List.dropWhile_cons_of_pos passes]
      exact ih
    · rw [List.takeWhile_cons_of_neg passes,List.dropWhile_cons_of_neg passes]
      rfl

-- A heading's line is at most three spaces and the first hash.
theorem headingLevel_shape (found : headingLevel line = some level) : ∃ n ≤ 3, ∃ rest, line = List.replicate n ' ' ++ '#' :: rest := by
  have spaces := List.takeWhile_append_dropWhile (p := fun c : Char => decide (c = ' ')) (l := line)
  have run : line.takeWhile (fun c : Char => decide (c = ' ')) = List.replicate (line.takeWhile (fun c : Char => decide (c = ' '))).length ' ' := by
    apply List.eq_replicate_iff.mpr
    refine ⟨rfl,?_⟩
    intro c member
    simpa using List.mem_takeWhile_imp member
  unfold headingLevel at found
  dsimp only at found
  split at found
  · cases found
  · rename_i few
    split at found
    · cases found
    · rename_i counted
      rw [not_not,drop_takeWhile] at counted
      cases shape : line.dropWhile (fun c : Char => decide (c = ' ')) with
      | nil =>
        rw [shape] at counted
        simp at counted
      | cons c rest =>
        have hash : c = '#' := by
          by_contra other
          rw [shape,List.takeWhile_cons_of_neg (by simpa using other)] at counted
          simp at counted
        subst hash
        refine ⟨_,Nat.not_lt.mp few,rest,?_⟩
        rw [←run,←shape]
        exact spaces.symm

end Document
