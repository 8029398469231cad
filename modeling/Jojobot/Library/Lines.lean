import Jojobot.Library.Text

namespace Library

variable {text line : Text} {c : Char}

-- `split_inclusive('\n')`: the lines of a text, each with the line feed that ends it.
def splitInclusive : Text → List Text
  | [] => []
  | c :: rest =>
    if c = '\n' then [c] :: splitInclusive rest
    else match splitInclusive rest with
      | [] => [[c]]
      | line :: lines => (c :: line) :: lines

def stripSuffix (c : Char) (text : Text) : Text := if text.getLast? = some c then text.dropLast else text

theorem splitInclusive_flatten (text : Text) : (splitInclusive text).flatten = text := by
  induction text with
  | nil => rfl
  | cons c rest ih =>
    rw [splitInclusive]
    split
    · rw [List.flatten_cons,ih]; rfl
    · split
      · rename_i empty
        rw [empty] at ih
        rw [← ih]; rfl
      · rename_i line lines shape
        rw [shape,List.flatten_cons] at ih
        rw [List.flatten_cons,List.cons_append,ih]

theorem stripSuffix_initial (c : Char) (text : Text) : stripSuffix c text <+: text := by
  rw [stripSuffix]
  split
  · exact List.dropLast_prefix text
  · exact List.prefix_refl text

-- Every line has something in it, and each but the last ends in a line feed.
def LinesOf (lines : List Text) : Prop :=
  ∀ before raw after, lines = before ++ raw :: after → raw ≠ [] ∧ (after ≠ [] → raw.getLast? = some '\n') ∧ '\n' ∉ raw.dropLast

theorem LinesOf.first {lines : List Text} (lined : LinesOf (line :: lines)) :
    line ≠ [] ∧ (lines ≠ [] → line.getLast? = some '\n') ∧ '\n' ∉ line.dropLast := lined [] line lines rfl

theorem LinesOf.rest {lines : List Text} (lined : LinesOf (line :: lines)) : LinesOf lines := by
  intro before raw after split
  exact lined (line :: before) raw after (by rw [split]; rfl)

theorem linesOf_cons {lines : List Text} (first : line ≠ [] ∧ (lines ≠ [] → line.getLast? = some '\n') ∧ '\n' ∉ line.dropLast)
    (rest : LinesOf lines) : LinesOf (line :: lines) := by
  intro before raw after split
  cases before with
  | nil =>
    cases split
    exact first
  | cons one before =>
    cases split
    exact rest before raw after rfl

theorem splitInclusive_eq_nil : splitInclusive text = [] ↔ text = [] := by
  constructor
  · intro none'
    rw [←splitInclusive_flatten text,none']
    rfl
  · intro none'
    rw [none']
    rfl

theorem splitInclusive_linesOf (text : Text) : LinesOf (splitInclusive text) := by
  induction text with
  | nil =>
    intro before raw after split
    simp [splitInclusive] at split
  | cons c rest ih =>
    rw [splitInclusive]
    split
    · rename_i feed
      exact linesOf_cons ⟨List.cons_ne_nil _ _,fun _ => by simp [feed],by simp⟩ ih
    · rename_i plain
      split
      · exact linesOf_cons ⟨List.cons_ne_nil _ _,fun more => absurd rfl more,by simp⟩ fun before raw after split => by simp at split
      · rename_i line lines shape
        rw [shape] at ih
        obtain ⟨filled,ends,clean⟩ := ih.first
        refine linesOf_cons ⟨List.cons_ne_nil _ _,?_,?_⟩ ih.rest
        · intro more
          rw [List.getLast?_cons,ends more]
          rfl
        · rw [List.dropLast_cons_of_ne_nil filled]
          intro member
          rcases List.mem_cons.mp member with same | later
          · exact plain same.symm
          · exact clean later

-- The lines of a text are the one way to cut it so.
theorem splitInclusive_flatten_lines {lines : List Text} (lined : LinesOf lines) : splitInclusive lines.flatten = lines := by
  induction lines with
  | nil => rfl
  | cons raw rest ih =>
    obtain ⟨filled,ends,clean⟩ := lined.first
    have later := ih lined.rest
    -- The first line's characters, one by one, in front of the lines behind.
    have front : ∀ piece : Text, piece ≠ [] → '\n' ∉ piece.dropLast → (rest ≠ [] → piece.getLast? = some '\n') →
        splitInclusive (piece ++ rest.flatten) = piece :: rest := by
      intro piece
      induction piece with
      | nil =>
        intro filled
        exact absurd rfl filled
      | cons c piece inner =>
        intro _ clean ends
        rw [List.cons_append,splitInclusive]
        by_cases more : piece = []
        · subst more
          rw [List.nil_append,later]
          by_cases feed : c = '\n'
          · rw [if_pos feed]
          · rw [if_neg feed]
            cases rest with
            | nil => rfl
            | cons one others =>
              have last := ends (List.cons_ne_nil _ _)
              simp at last
              exact absurd last feed
        · rw [List.dropLast_cons_of_ne_nil more] at clean
          have plain : c ≠ '\n' := fun same => clean (List.mem_cons.mpr (Or.inl same.symm))
          have ends' : rest ≠ [] → piece.getLast? = some '\n' := by
            intro some'
            have last := ends some'
            rw [List.getLast?_cons] at last
            cases top : piece.getLast? with
            | none => exact absurd (List.getLast?_eq_none_iff.mp top) more
            | some d =>
              rw [top] at last
              exact last
          rw [if_neg plain,inner more (fun has => clean (List.mem_cons_of_mem _ has)) ends']
    rw [List.flatten_cons]
    exact front raw filled clean ends

-- The first line of a text goes on behind what it starts with.
theorem splitInclusive_front (filled : line ≠ []) (clean : '\n' ∉ line) (run : Text) :
    ∃ first more, splitInclusive (line ++ run) = (line ++ first) :: more ∧ run = first ++ more.flatten := by
  induction line with
  | nil => exact absurd rfl filled
  | cons c line ih =>
    have plain : c ≠ '\n' := fun same => clean (List.mem_cons.mpr (Or.inl same.symm))
    by_cases last : line = []
    · subst last
      have whole := splitInclusive_flatten run
      rw [List.cons_append,List.nil_append,splitInclusive,if_neg plain]
      cases shape : splitInclusive run with
      | nil =>
        rw [shape] at whole
        exact ⟨[],[],rfl,whole.symm⟩
      | cons first more =>
        rw [shape] at whole
        exact ⟨first,more,rfl,whole.symm⟩
    · obtain ⟨first,more,split,parts⟩ := ih last fun has => clean (List.mem_cons_of_mem _ has)
      refine ⟨first,more,?_,parts⟩
      rw [List.cons_append,splitInclusive,if_neg plain,split]
      rfl

end Library
