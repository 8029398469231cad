import Jojobot.Memory.Document.Groups

namespace Document
open Library

-- What stands behind the last line feed of a run.
def lastLine (run : Text) : Text := run.rtakeWhile (· ≠ '\n')

-- A blank line takes two line feeds, and one more puts an indent the tail ends on
-- onto a line of its own.
def lineFeedsNeeded (tail lead : Text) (blankLine : Bool) : Nat :=
  let held := tail.count '\n'+lead.count '\n'
  let indented := (lastLine tail).any (· ≠ '\r') && lead.isEmpty
  let wanted := if blankLine || held == 0 then 2 else held
  max (wanted-held) (if indented then 1 else 0)

def leadBehind (beforeTail : Option Text) (lead : Text) : Text :=
  match beforeTail with
  | none => []
  | some tail => List.replicate (lineFeedsNeeded tail lead true) '\n' ++ lead

def tailBefore (tail : Text) (nextLead : Option Text) : Text :=
  match nextLead with
  | none => tail
  | some lead => tail ++ List.replicate (lineFeedsNeeded tail lead true) '\n'

-- The fence left open behind some lines.
def fenceBehind (frontmatter : Nat) : Option (Char × Nat) → Nat → List Text → Option (Char × Nat)
  | fence,_,[] => fence
  | fence,offset,raw :: rest =>
    fenceBehind frontmatter (if offset < frontmatter then fence else (readLine fence (bare raw)).1) (offset+raw.length) rest

def HoldsUnclosedFence (text : Text) : Prop := fenceBehind (frontmatterEnd text) none 0 (splitInclusive text) ≠ none

variable {text line tail lead front behind : Text} {lines more : List Text} {fence : Option (Char × Nat)} {c : Char}

theorem fenceBehind_append (frontmatter : Nat) (fence : Option (Char × Nat)) (offset : Nat) (lines more : List Text) :
    fenceBehind frontmatter fence offset (lines ++ more) =
      fenceBehind frontmatter (fenceBehind frontmatter fence offset lines) (offset+lines.flatten.length) more := by
  induction lines generalizing fence offset with
  | nil => rfl
  | cons raw rest ih =>
    rw [List.cons_append,fenceBehind,ih,fenceBehind,List.flatten_cons,List.length_append,Nat.add_assoc]

theorem headingStartsFrom_append (frontmatter : Nat) (fence : Option (Char × Nat)) (offset : Nat) (lines more : List Text) :
    headingStartsFrom frontmatter fence offset (lines ++ more) = headingStartsFrom frontmatter fence offset lines ++
      headingStartsFrom frontmatter (fenceBehind frontmatter fence offset lines) (offset+lines.flatten.length) more := by
  induction lines generalizing fence offset with
  | nil => rfl
  | cons raw rest ih =>
    rw [List.cons_append,headingStartsFrom,headingStartsFrom,fenceBehind,List.flatten_cons,List.length_append,←Nat.add_assoc]
    split
    · exact ih fence (offset+raw.length)
    · dsimp only
      rw [ih,List.append_assoc]

-- Lines that end in a line feed stand apart from what is put behind them.
theorem splitInclusive_behind (ends : front = [] ∨ front.getLast? = some '\n') (behind : Text) :
    splitInclusive (front ++ behind) = splitInclusive front ++ splitInclusive behind := by
  have lined : LinesOf (splitInclusive front ++ splitInclusive behind) := by
    intro before raw after split
    have first := splitInclusive_linesOf front
    have second := splitInclusive_linesOf behind
    rcases List.append_eq_append_iff.mp split with ⟨middle,before',later⟩ | ⟨middle,front',later⟩
    · subst before'
      exact second middle raw after later
    · cases middle with
      | nil =>
        rw [List.nil_append] at later
        exact second [] raw after later.symm
      | cons one middle =>
        rw [List.cons_append] at later
        cases later
        obtain ⟨filled,ended,clean⟩ := first before raw middle front'
        refine ⟨filled,?_,clean⟩
        intro _
        by_cases more : middle = []
        · subst more
          rcases ends with none' | feed
          · rw [splitInclusive_eq_nil.mpr none'] at front'
            simp at front'
          · have whole := splitInclusive_flatten front
            rw [front',List.flatten_append] at whole
            rw [←whole,List.getLast?_append_of_ne_nil _ (by simpa using filled)] at feed
            simpa using feed
        · exact ended more
  have joined : (splitInclusive front ++ splitInclusive behind).flatten = front ++ behind := by
    rw [List.flatten_append,splitInclusive_flatten,splitInclusive_flatten]
  rw [←joined]
  exact splitInclusive_flatten_lines lined

-- A line of whitespace opens and closes nothing.
theorem fenceOf_blank (blank : ∀ c ∈ line, isWhitespace c = true) : fenceOf (bare line) = none := by
  cases found : fenceOf (bare line) with
  | none => rfl
  | some shape => exact absurd (trim_nil_iff.mpr blank) (bare_words found)

theorem readLine_blank (fence : Option (Char × Nat)) (blank : ∀ c ∈ line, isWhitespace c = true) : (readLine fence (bare line)).1 = fence := by
  unfold readLine
  rw [fenceOf_blank blank]
  cases fence <;> rfl

theorem fenceBehind_past (frontmatter offset : Nat) (fence : Option (Char × Nat)) (lines : List Text) (past : frontmatter ≤ offset) :
    fenceBehind frontmatter fence offset lines = lines.foldl (fun fence raw => (readLine fence (bare raw)).1) fence := by
  induction lines generalizing fence offset with
  | nil => rfl
  | cons raw rest ih =>
    rw [fenceBehind,if_neg (by omega),List.foldl_cons]
    exact ih (offset+raw.length) (readLine fence (bare raw)).1 (by omega)

theorem fence_blank (fence : Option (Char × Nat)) (lines : List Text) (blank : ∀ line ∈ lines, ∀ c ∈ line, isWhitespace c = true) :
    lines.foldl (fun fence raw => (readLine fence (bare raw)).1) fence = fence := by
  induction lines with
  | nil => rfl
  | cons raw rest ih =>
    rw [List.foldl_cons,readLine_blank fence (blank raw List.mem_cons_self)]
    exact ih fun line has => blank line (List.mem_cons_of_mem _ has)

-- A run ends in a character that is no whitespace.
def EndsSolid (text : Text) : Prop := ∃ c, text.getLast? = some c ∧ isWhitespace c = false

theorem stripSuffix_behind (solid : EndsSolid line) (white : isWhitespace c = true) (run : Text) :
    ∃ kept, stripSuffix c (line ++ run) = line ++ kept ∧ kept <+: run := by
  unfold stripSuffix
  cases run with
  | nil =>
    obtain ⟨d,last,plain⟩ := solid
    rw [List.append_nil,last]
    split
    · rename_i same
      cases same
      rw [plain] at white
      cases white
    · exact ⟨[],(List.append_nil _).symm,List.prefix_refl _⟩
  | cons d run =>
    split
    · exact ⟨(d :: run).dropLast,List.dropLast_append_of_ne_nil (List.cons_ne_nil d run),List.dropLast_prefix _⟩
    · exact ⟨d :: run,rfl,List.prefix_refl _⟩

theorem bare_behind (solid : EndsSolid line) (run : Text) : ∃ kept, bare (line ++ run) = line ++ kept ∧ kept <+: run := by
  obtain ⟨first,same,within⟩ := stripSuffix_behind solid (by rfl : isWhitespace '\n' = true) run
  obtain ⟨second,same',within'⟩ := stripSuffix_behind solid (by rfl : isWhitespace '\r' = true) first
  exact ⟨second,by rw [bare,same,same'],within'.trans within⟩

-- Whitespace behind a line changes no fence on it.
theorem fenceOf_behind (solid : EndsSolid line) {run : Text} (white : ∀ c ∈ run, isWhitespace c = true) :
    fenceOf (line ++ run) = (fenceOf line).map fun read => (read.1,read.2.1,read.2.2 ++ run) := by
  obtain ⟨d,last,plain⟩ := solid
  have among : d ∈ line := List.mem_of_getLast? last
  have blank : d ≠ ' ' := by
    intro same
    rw [same] at plain
    cases plain
  have short : (line.takeWhile (· = ' ')).length ≠ line.length := by
    intro whole
    have same := (List.takeWhile_prefix (p := fun c : Char => decide (c = ' ')) (l := line)).eq_of_length whole
    rw [←same] at among
    have space := List.mem_takeWhile_imp among
    simp at space
    exact blank space
  have indent : (line ++ run).takeWhile (· = ' ') = line.takeWhile (· = ' ') := by
    rw [List.takeWhile_append,if_neg short]
  have less : (line.takeWhile (· = ' ')).length < line.length :=
    Nat.lt_of_le_of_ne (List.takeWhile_prefix _).length_le short
  have rest : (line ++ run).drop (line.takeWhile (· = ' ')).length = line.drop (line.takeWhile (· = ' ')).length ++ run :=
    List.drop_append_of_le_length (Nat.le_of_lt less)
  obtain ⟨c,after,shape⟩ := List.exists_cons_of_length_pos (by rw [List.length_drop]; omega :
    0 < (line.drop (line.takeWhile (· = ' ')).length).length)
  unfold fenceOf
  simp only [indent,rest,shape]
  split
  · rfl
  · simp only [List.cons_append,List.head?_cons,Option.bind_some]
    split
    · rfl
    · rename_i kind
      have solid' : isWhitespace c = false := by
        have either : c = '\x60' ∨ c = '~' := by
          by_contra neither
          exact kind ⟨fun same => neither (Or.inl same),fun same => neither (Or.inr same)⟩
        rcases either with same | same <;> (subst same; rfl)
      have none' : run.takeWhile (· = c) = [] := by
        cases run with
        | nil => rfl
        | cons d run =>
          have other : d ≠ c := by
            intro same
            have isWhite := white d List.mem_cons_self
            rw [same,solid'] at isWhite
            cases isWhite
          exact List.takeWhile_cons_of_neg (by simpa using other)
      have run' : (c :: (after ++ run)).takeWhile (· = c) = (c :: after).takeWhile (· = c) := by
        rw [←List.cons_append,List.takeWhile_append]
        split
        · rename_i whole
          rw [none',List.append_nil]
          exact ((List.takeWhile_prefix _).eq_of_length whole).symm
        · rfl
      have fits : ((c :: after).takeWhile (· = c)).length ≤ (c :: after).length := (List.takeWhile_prefix _).length_le
      rw [run']
      split
      · simp only [Option.map_some]
        rw [←List.cons_append,List.drop_append_of_le_length fits]
      · rfl

theorem readLine_behind (solid : EndsSolid line) {run other : Text} (white : ∀ c ∈ run, isWhitespace c = true) (white' : ∀ c ∈ other, isWhitespace c = true)
    (fence : Option (Char × Nat)) : (readLine fence (bare (line ++ run))).1 = (readLine fence (bare (line ++ other))).1 := by
  have alone : ∀ run : Text, (∀ c ∈ run, isWhitespace c = true) → (readLine fence (bare (line ++ run))).1 = (readLine fence line).1 := by
    intro run white
    obtain ⟨kept,same,within⟩ := bare_behind solid run
    have white'' : ∀ c ∈ kept, isWhitespace c = true := fun c has => white c (within.subset has)
    unfold readLine
    rw [same,fenceOf_behind solid white'']
    cases fence with
    | none => cases fenceOf line <;> rfl
    | some held =>
      cases fenceOf line with
      | none => rfl
      | some read => simp only [Option.map_some,trim_white_behind white'']
  rw [alone run white,alone other white']

end Document
