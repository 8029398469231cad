import Jojobot.Memory.Document.Fit.Blocks

namespace Document
open Library

variable {one : Section} {sections : List Section} {fits : Section → Bool} {pieces : List Text} {rest text : Text} {block other : Nat × Nat}
  {places : List Nat} {place : Nat} {big : TooBig}

-- What is left when no cut of it passes.
def Stuck (one : Section) (fits : Section → Bool) (rest : Text) : Prop :=
  ∃ pieces, Cuts one fits pieces rest ∧ fits (asChunk one pieces.isEmpty rest) = false ∧
    largestCut rest (fun front => fits (asChunk one pieces.isEmpty front)) = none

-- A fenced block the text begins with, behind its leading whitespace.
def BeginsWith (rest : Text) (block : Nat × Nat) : Prop := block ∈ fencedBlocks rest ∧ trim (rest.take block.1) = []

structure Names (fits : Section → Bool) (rest : Text) (big : TooBig) : Prop where
  unfit : fits big.unit = false
  fenced : big.fenced = true ↔ ∃ block, BeginsWith rest block
  whole : ∀ block, BeginsWith rest block → join [big.unit] = slice rest block

-- The text of a trimmed stretch is that of a stretch with only whitespace in front of it.
theorem trim_slice (blank : trim (text.take block.1) = []) (ordered : block.1 ≤ block.2) : trim (slice text block) = trim (text.take block.2) := by
  have parts : text.take block.2 = text.take block.1 ++ slice text block := by
    unfold slice
    rw [←List.take_add,Nat.add_sub_cancel' ordered]
  rw [parts,trim_append_white (trim_nil_iff.mp blank)]

theorem head_least (rising : places.Pairwise (· < ·)) (has : place ∈ places) (least : ∀ one ∈ places, place ≤ one) : places.head? = some place := by
  cases places with
  | nil => cases has
  | cons first rest =>
    rcases List.mem_cons.mp has with here | later
    · rw [here]
      rfl
    · have before := (List.pairwise_cons.mp rising).1 place later
      have after := least first List.mem_cons_self
      omega

theorem candidates_rising {tier : List Nat} (rising : tier.Pairwise (· < ·)) (text : Text) : (candidates text tier).Pairwise (· < ·) :=
  (rising.filter _).filter _

theorem rising_up (places : List Nat) (rising : places.Pairwise (· < ·)) : (places.map (· + 1)).Pairwise (· < ·) :=
  List.pairwise_map.mpr (rising.imp fun before => Nat.succ_lt_succ before)

theorem begins_alone (first : BeginsWith text block) (second : BeginsWith text other) : block = other := by
  have facts := (fencedBlocks_facts text).2
  have apart : ∀ one two : Nat × Nat, BeginsWith text one → BeginsWith text two → ¬one.2 ≤ two.1 := by
    intro one two begins begins' before
    apply (facts one begins.1).words
    rw [trim_slice begins.2 (Nat.le_of_lt (facts one begins.1).ordered)]
    apply trim_nil_iff.mpr
    intro c member
    exact trim_nil_iff.mp begins'.2 c (List.take_subset_take_left _ before member)
  rcases blocks_apart first.1 second.1 with same | before | behind
  · exact same
  · exact absurd before (apart _ _ first second)
  · exact absurd behind (apart _ _ second first)

-- A block the text begins with ends at the first place a line could be cut.
theorem block_unfit (reads : ReadsWords fits) (begins : BeginsWith rest block) (start : block.1 = firstText rest) (first : Bool)
    (unfit : fits (asChunk one first rest) = false)
    (missing : largestCut rest (fun front => fits (asChunk one first front)) = none) :
    fits (asChunk one first (slice rest block)) = false := by
  have is := (fencedBlocks_facts rest).2 block begins.1
  have same : trim (slice rest block) = trim (rest.take block.2) := trim_slice begins.2 (Nat.le_of_lt is.ordered)
  by_cases whole : block.2 = rest.length
  · rw [whole,List.take_length] at same
    rw [reads.same same one first first]
    exact unfit
  · have short : block.2 < rest.length := Nat.lt_of_le_of_ne is.within whole
    have among : block.2 ∈ candidates rest (lineEnds rest) := by
      refine mem_candidates.mpr ⟨mem_lineEnds.mpr ⟨by have := is.ordered; omega,is.ended.resolve_left whole⟩,
        ⟨short,by have := is.ordered; omega,fun blank => is.words (same.trans blank)⟩,?_⟩
      intro other has both
      rcases blocks_apart begins.1 has with here | before | behind
      · subst here
        omega
      · omega
      · have := is.ordered
        omega
    have least : ∀ place ∈ candidates rest (lineEnds rest), block.2 ≤ place := by
      intro place has
      obtain ⟨_,⟨_,past,_⟩,outside⟩ := mem_candidates.mp has
      by_contra inside
      exact outside block begins.1 ⟨by omega,by omega⟩
    have rising : (lineEnds rest).Pairwise (· < ·) := rising_up _ (List.pairwise_lt_range.filter _)
    rw [reads.same same one first first]
    exact largestCut_none missing (by simp) (head_least (candidates_rising rising rest) among least)

theorem character_unfit (reads : ReadsWords fits) (words : trim rest ≠ []) (none' : ∀ block, ¬BeginsWith rest block) (first : Bool)
    (unfit : fits (asChunk one first rest) = false)
    (missing : largestCut rest (fun front => fits (asChunk one first front)) = none) :
    ∃ c, (rest.drop (firstText rest)).head? = some c ∧ fits (asChunk one first [c]) = false := by
  obtain ⟨lead,parts,length,white⟩ := firstText_parts rest
  cases shape : trimStart rest with
  | nil =>
    rw [trim,shape] at words
    exact absurd rfl words
  | cons c more =>
    have solid : isWhitespace c = false := trimStart_head (by rw [shape]; rfl)
    refine ⟨c,by rw [drop_firstText,shape]; rfl,?_⟩
    rw [shape] at parts
    have total : rest.length = lead.length+1+more.length := by
      rw [parts,List.length_append,List.length_cons]
      omega
    have front : rest.take (firstText rest+1) = lead ++ [c] := by
      rw [←length,parts,List.take_append]
      simp
    have same : trim [c] = trim (rest.take (firstText rest+1)) := by
      rw [front,trim_append_white white]
    have worded : trim (rest.take (firstText rest+1)) ≠ [] := by
      rw [front]
      exact trim_ne_nil (List.mem_append_right _ List.mem_cons_self) solid
    rw [reads.same same one first first]
    by_cases whole : firstText rest+1 = rest.length
    · rw [whole,List.take_length]
      exact unfit
    · have among : firstText rest+1 ∈ candidates rest (characters rest) := by
        refine mem_candidates.mpr ⟨mem_characters.mpr ⟨Nat.succ_pos _,by omega⟩,⟨by omega,Nat.lt_succ_self _,worded⟩,?_⟩
        intro block has both
        apply none' block
        refine ⟨has,trim_nil_iff.mpr ?_⟩
        intro d member
        exact trim_nil_iff.mp (take_firstText rest) d (List.take_subset_take_left _ (by omega) member)
      have least : ∀ place ∈ candidates rest (characters rest), firstText rest+1 ≤ place := by
        intro place has
        exact (mem_candidates.mp has).2.1.2.1
      have rising : (characters rest).Pairwise (· < ·) := rising_up _ List.pairwise_lt_range
      exact largestCut_none missing (by simp) (head_least (candidates_rising rising rest) among least)

theorem tooBig_block (found : (fencedBlocks rest).find? (fun block => block.1 = firstText rest) = some block) :
    tooBig rest = ⟨{ sectionOf (slice rest block) 0 with continues := true },true⟩ := by
  unfold tooBig
  rw [found]

theorem tooBig_character (missing : (fencedBlocks rest).find? (fun block => block.1 = firstText rest) = none) :
    tooBig rest = ⟨{ sectionOf [((rest.drop (firstText rest)).head?).getD ' '] 0 with continues := true },false⟩ := by
  unfold tooBig
  rw [missing]

theorem ReadsWords.unit (reads : ReadsWords fits) (raw : Text) (one : Section) (first : Bool) :
    fits { sectionOf raw 0 with continues := true } = fits (asChunk one first raw) := reads _ _ rfl rfl

-- The refusal names what is in the way when no block the text begins with is indented.
theorem Stuck.names (reads : ReadsWords fits) (words : trim (join [one]) ≠ []) (stuck : Stuck one fits rest)
    (flush : ∀ block, BeginsWith rest block → block.1 = firstText rest) : Names fits rest (tooBig rest) := by
  obtain ⟨pieces,cuts,unfit,missing⟩ := stuck
  cases found : (fencedBlocks rest).find? fun block => block.1 = firstText rest with
  | some block =>
    have start : block.1 = firstText rest := by simpa using List.find?_some found
    have begins : BeginsWith rest block := ⟨List.mem_of_find?_eq_some found,start ▸ take_firstText rest⟩
    have is := (fencedBlocks_facts rest).2 block begins.1
    rw [tooBig_block found]
    refine ⟨?_,⟨fun _ => ⟨block,begins⟩,fun _ => rfl⟩,?_⟩
    · exact (reads.unit _ one _).trans (block_unfit reads begins start pieces.isEmpty unfit missing)
    · intro other begins'
      have text := sectionOf_text is.words 0
      rw [begins_alone begins' begins]
      simpa [join,Section.text] using text
  | none =>
    have none' : ∀ block, ¬BeginsWith rest block := by
      intro block begins
      have miss := List.find?_eq_none.mp found block begins.1
      exact miss (by simpa using flush block begins)
    obtain ⟨c,head,unfit'⟩ := character_unfit reads (cuts.left_words reads words) none' pieces.isEmpty unfit missing
    rw [tooBig_character found,head]
    refine ⟨(reads.unit [c] one _).trans unfit',?_,fun block begins => absurd begins (none' block)⟩
    constructor
    · intro same
      cases same
    · intro begins
      obtain ⟨block,begins⟩ := begins
      exact absurd begins (none' block)

-- The refusal names a piece in the way unless what is left begins with a fence that
-- stands indented: then it names the fence's first character.
theorem a_refusal_names_what_is_in_the_way (accepted : split text = .ok sections) (member : one ∈ sections) (reads : ReadsWords fits) :
    (∃ answer, Returns (fun fuel => fit fuel one fits) answer ∧
        ∀ big, answer = .error big → ∀ rest, Stuck one fits rest → Names fits rest big) ↔
      ∀ rest, Stuck one fits rest → ∀ block, BeginsWith rest block → block.1 = firstText rest := by
  have words := split_words accepted member
  constructor
  · intro named rest stuck block begins
    obtain ⟨answer,returns,names⟩ := named
    obtain ⟨pieces,cuts,unfit,missing⟩ := stuck
    have same := returns.unique (cuts.returns_error unfit missing)
    have right := names _ same rest ⟨pieces,cuts,unfit,missing⟩
    have fenced := right.fenced.mpr ⟨block,begins⟩
    cases found : (fencedBlocks rest).find? fun block => block.1 = firstText rest with
    | some other =>
      have start : other.1 = firstText rest := by simpa using List.find?_some found
      have begins' : BeginsWith rest other := ⟨List.mem_of_find?_eq_some found,start ▸ take_firstText rest⟩
      rw [begins_alone begins begins']
      exact start
    | none =>
      rw [tooBig_character found] at fenced
      cases fenced
  · intro flush
    obtain ⟨answer,returns,_⟩ := fit_ends one fits
    refine ⟨answer,returns,?_⟩
    intro big same rest stuck
    have names := stuck.names reads words (flush rest stuck)
    obtain ⟨pieces,cuts,unfit,missing⟩ := stuck
    rw [returns.unique (cuts.returns_error unfit missing)] at same
    cases same
    exact names

theorem Cuts.only (missing : largestCut (join [one]) (fun front => fits (asChunk one true front)) = none) (cuts : Cuts one fits pieces rest) :
    pieces = [] ∧ rest = join [one] := by
  induction cuts with
  | start => exact ⟨rfl,rfl⟩
  | more _ _ found ih =>
    obtain ⟨none',whole⟩ := ih
    subst none' whole
    rw [show ([] : List Text).isEmpty = true from rfl,missing] at found
    cases found

theorem a_refusal_names_a_flush_block : ∃ one answer, split "```\nxxxxxx\n```\n".toList = .ok [one] ∧
    Returns (fun fuel => fit fuel one (wordsUpTo 5)) answer ∧
      ∀ big, answer = .error big → ∀ rest, Stuck one (wordsUpTo 5) rest → Names (wordsUpTo 5) rest big := by
  have accepted : split "```\nxxxxxx\n```\n".toList = .ok [sectionOf "```\nxxxxxx\n```\n".toList 0] := by decide +kernel
  have missing : largestCut (join [sectionOf "```\nxxxxxx\n```\n".toList 0])
      (fun front => wordsUpTo 5 (asChunk (sectionOf "```\nxxxxxx\n```\n".toList 0) true front)) = none := by decide +kernel
  have blocks : fencedBlocks (join [sectionOf "```\nxxxxxx\n```\n".toList 0]) = [(0,15)] := by decide +kernel
  have flush : ∀ rest, Stuck (sectionOf "```\nxxxxxx\n```\n".toList 0) (wordsUpTo 5) rest → ∀ block, BeginsWith rest block →
      block.1 = firstText rest := by
    intro rest stuck block begins
    obtain ⟨pieces,cuts,_⟩ := stuck
    rw [(cuts.only missing).2] at begins ⊢
    have has := begins.1
    rw [blocks] at has
    cases List.mem_singleton.mp has
    decide +kernel
  obtain ⟨answer,returns,names⟩ := (a_refusal_names_what_is_in_the_way accepted List.mem_cons_self (wordsUpTo_reads 5)).mpr flush
  exact ⟨_,answer,accepted,returns,names⟩

-- A limit that answers yes to a stretch whenever it does to a longer one with it inside.
def MonotoneOnStretches (fits : Section → Bool) : Prop :=
  ∀ (one : Section) (first other : Bool) (small large : Text), small <:+: large →
    fits (asChunk one first large) = true → fits (asChunk one other small) = true

def without (c : Char) (one : Section) : Bool := !one.firstLine.contains c && !one.body.contains c

theorem without_reads (c : Char) : ReadsWords (without c) := by
  intro one other firsts bodies
  unfold without
  rw [firsts,bodies]

theorem without_chunk (one : Section) (first : Bool) (raw : Text) {c : Char} (solid : isWhitespace c = false) :
    without c (asChunk one first raw) = true ↔ c ∉ raw := by
  have front : ∀ text : Text, c ∈ trimStart text ↔ c ∈ text := by
    intro text
    obtain ⟨lead,parts,_,white⟩ := firstText_parts text
    have off : c ∉ lead := fun member => by simp [white c member] at solid
    conv_rhs => rw [parts]
    simp [off]
  have ends : ∀ text : Text, c ∈ trimEnd text ↔ c ∈ text := by
    intro text
    have both := front text.reverse
    rw [List.mem_reverse] at both
    rw [←both]
    exact List.mem_reverse
  have parts := (halves (trim_trimmed raw)).parts
  have whole : c ∈ raw ↔ c ∈ (trim raw).takeWhile (· ≠ '\n') ∨ c ∈ (trim raw).dropWhile (· ≠ '\n') := by
    rw [←mem_trim solid]
    conv_lhs => rw [parts]
    exact List.mem_append
  rw [whole,←ends,←front ((trim raw).dropWhile (· ≠ '\n'))]
  simp [without,asChunk,sectionOf]

theorem without_monotone {c : Char} (solid : isWhitespace c = false) : MonotoneOnStretches (without c) := by
  intro one first other small large within fitting
  have absent := (without_chunk one first large solid).mp fitting
  exact (without_chunk one other small solid).mpr fun has => absent (within.subset has)

-- The fence stands indented, so the refusal names its first character, which fits.
theorem an_indented_fence_is_not_named : ∃ one, split "  ```\nx\n  ```\n".toList = .ok [one] ∧
    MonotoneOnStretches (without 'x') ∧ ReadsWords (without 'x') ∧
    ¬∃ answer, Returns (fun fuel => fit fuel one (without 'x')) answer ∧
      ∀ big, answer = .error big → ∀ rest, Stuck one (without 'x') rest → Names (without 'x') rest big := by
  refine ⟨sectionOf "  ```\nx\n  ```\n".toList 0,by decide +kernel,without_monotone (by decide),without_reads 'x',?_⟩
  intro named
  obtain ⟨answer,returns,names⟩ := named
  have unfit : without 'x' (sectionOf "  ```\nx\n  ```\n".toList 0) = false := by decide +kernel
  have missing : largestCut (join [sectionOf "  ```\nx\n  ```\n".toList 0])
      (fun front => without 'x' (asChunk (sectionOf "  ```\nx\n  ```\n".toList 0) true front)) = none := by decide +kernel
  have unfit' : without 'x' (asChunk (sectionOf "  ```\nx\n  ```\n".toList 0) true (join [sectionOf "  ```\nx\n  ```\n".toList 0])) = false := by
    decide +kernel
  have cuts := Cuts.start unfit
  have right := names _ (returns.unique (cuts.returns_error unfit' missing)) _ ⟨[],cuts,unfit',missing⟩
  have fitting : without 'x' (tooBig (join [sectionOf "  ```\nx\n  ```\n".toList 0])).unit = true := by decide +kernel
  rw [right.unfit] at fitting
  cases fitting

end Document
