import Jojobot.Memory.Document.Fit.Pieces

namespace Document
open Library

variable {one : Section} {sections : List Section} {fits : Section → Bool} {pieces : List Text} {rest text raw : Text} {level : Nat}

-- A stretch that holds words has a first line, and one that holds none has no words in it.
theorem sectionOf_firstLine (words : trim raw ≠ []) (level : Nat) :
    (sectionOf raw level).firstLine ≠ [] ∧ '\n' ∉ (sectionOf raw level).firstLine := by
  obtain ⟨startSolid,_⟩ := trimmed_iff.mp (trim_trimmed raw)
  obtain ⟨c,core,shape⟩ := List.exists_cons_of_ne_nil words
  have solid : isWhitespace c = false := startSolid c (by rw [shape]; rfl)
  have plain : c ≠ '\n' := by
    intro same
    rw [same] at solid
    cases solid
  constructor
  · intro none'
    have white := trimEnd_nil_iff.mp none' c (by rw [shape,List.takeWhile_cons_of_pos (by simpa using plain)]; exact List.mem_cons_self)
    rw [solid] at white
    cases white
  · intro feed
    have within := (trimEnd_initial _).subset feed
    have other := List.mem_takeWhile_imp within
    simp at other

theorem sectionOf_blank (blank : trim raw = []) (level : Nat) : (sectionOf raw level).firstLine = [] := by
  unfold sectionOf
  rw [blank]
  rfl

theorem gather_firstLines (carried : Text) (raws : List (Text × Nat)) :
    ∀ one ∈ gather carried raws, one.firstLine ≠ [] ∧ '\n' ∉ one.firstLine := by
  induction raws generalizing carried with
  | nil =>
    intro one member
    cases member
  | cons piece rest ih =>
    obtain ⟨raw,level⟩ := piece
    intro one member
    rw [gather] at member
    split at member
    · exact ih _ one member
    · rename_i words
      rcases List.mem_cons.mp member with made | later
      · subst made
        exact sectionOf_firstLine words level
      · exact ih _ one later

theorem split_firstLines (accepted : split text = .ok sections) : ∀ one ∈ sections, one.firstLine ≠ [] ∧ '\n' ∉ one.firstLine := by
  rcases (split_parts accepted).2 with ⟨_,rfl⟩ | ⟨_,rfl⟩
  · intro one member
    cases member
  · exact gather_firstLines _ _

theorem Section.words (filled : one.firstLine ≠ []) (trimmed : Trimmed one.firstLine) : trim (join [one]) ≠ [] := by
  obtain ⟨c,rest,shape⟩ := List.exists_cons_of_ne_nil filled
  have solid := (trimmed_iff.mp trimmed).1 c (by rw [shape]; rfl)
  refine trim_ne_nil ?_ solid
  have within : c ∈ one.firstLine := by
    rw [shape]
    exact List.mem_cons_self
  simp [join,Section.text,within]

theorem asChunk_text (one : Section) (words : trim raw ≠ []) (first : Bool) : (asChunk one first raw).text = raw :=
  sectionOf_text words (if first then one.level else 0)

theorem chunksOf_join (words : ∀ piece ∈ pieces, trim piece ≠ []) : join (chunksOf one pieces) = pieces.flatten := by
  have each : ∀ (first : Bool) (some' : List Text), (∀ piece ∈ some', trim piece ≠ []) →
      join (some'.map (asChunk one first)) = some'.flatten := by
    intro first some' words
    unfold join
    rw [List.map_map]
    congr 1
    apply (List.map_congr_left fun piece has => asChunk_text one (words piece has) first).trans
    exact List.map_id _
  cases pieces with
  | nil => rfl
  | cons first later =>
    have start := asChunk_text one (words first List.mem_cons_self) true
    have others := each false later fun piece has => words piece (List.mem_cons_of_mem _ has)
    unfold join at others ⊢
    rw [chunksOf,List.map_cons,List.flatten_cons,start,others,List.flatten_cons]

theorem mem_chunksOf {chunk : Section} (has : chunk ∈ chunksOf one pieces) : ∃ first, ∃ piece ∈ pieces, chunk = asChunk one first piece := by
  cases pieces with
  | nil => cases has
  | cons start later =>
    rcases List.mem_cons.mp has with here | there
    · exact ⟨true,start,List.mem_cons_self,here⟩
    · obtain ⟨piece,among,made⟩ := List.mem_map.mp there
      exact ⟨false,piece,List.mem_cons_of_mem _ among,made.symm⟩

-- What the chunks of a section keep of it.
structure Keeps (one : Section) (fits : Section → Bool) (chunks : List Section) : Prop where
  joined : join chunks = join [one]
  fitting : ∀ chunk ∈ chunks, fits chunk = true
  words : ∀ chunk ∈ chunks, chunk.firstLine ≠ [] ∧ '\n' ∉ chunk.firstLine
  first : ∀ chunk, chunks.head? = some chunk → chunk.level = one.level ∧ chunk.continues = one.continues
  later : ∀ chunk ∈ chunks.tail, chunk.level = 0 ∧ chunk.continues = true

theorem Cuts.keeps (cuts : Cuts one fits pieces rest) (fitting : fits (asChunk one pieces.isEmpty rest) = true) (left : trim rest ≠ []) :
    Keeps one fits (chunksOf one (pieces ++ [rest])) := by
  have words : ∀ piece ∈ pieces ++ [rest], trim piece ≠ [] := by
    intro piece has
    rcases List.mem_append.mp has with old | last
    · exact cuts.words piece old
    · cases List.mem_singleton.mp last
      exact left
  refine ⟨?_,?_,?_,?_,?_⟩
  · rw [chunksOf_join words]
    simpa using cuts.whole
  · intro chunk has
    rw [chunksOf_snoc] at has
    rcases List.mem_append.mp has with old | last
    · exact cuts.fitting chunk old
    · cases List.mem_singleton.mp last
      exact fitting
  · intro chunk has
    obtain ⟨first,piece,among,made⟩ := mem_chunksOf has
    subst made
    exact sectionOf_firstLine (words piece among) (if first then one.level else 0)
  · intro chunk head
    obtain ⟨start,later,shape⟩ := List.exists_cons_of_ne_nil (List.append_ne_nil_of_right_ne_nil pieces (List.cons_ne_nil rest []))
    rw [shape] at head
    cases head
    exact ⟨rfl,rfl⟩
  · intro chunk has
    obtain ⟨start,later,shape⟩ := List.exists_cons_of_ne_nil (List.append_ne_nil_of_right_ne_nil pieces (List.cons_ne_nil rest []))
    rw [shape] at has
    obtain ⟨piece,_,made⟩ := List.mem_map.mp has
    subst made
    exact ⟨rfl,rfl⟩

-- No place that the pieces of a section too big come to leaves whitespace alone that fits.
def LeavesWords (one : Section) (fits : Section → Bool) : Prop :=
  fits one = false → ∀ place, Comes one fits place → trim ((join [one]).drop place) = [] →
    fits (asChunk one (place = 0) ((join [one]).drop place)) = false

theorem split_words (accepted : split text = .ok sections) (member : one ∈ sections) : trim (join [one]) ≠ [] :=
  Section.words (split_firstLines accepted one member).1 (split_sound accepted one member).firstLine

theorem Cuts.blank_unfit (monotone : MonotoneOnPieces one fits) (words : trim (join [one]) ≠ []) (leaves : LeavesWords one fits)
    (cuts : Cuts one fits pieces rest) (blank : trim rest = []) : fits (asChunk one pieces.isEmpty rest) = false := by
  have filled : join [one] ≠ [] := fun none' => words (by rw [none']; rfl)
  rw [cuts.left] at blank
  rw [cuts.first,cuts.left]
  exact leaves cuts.unfit _ (cuts.comes monotone filled) blank

-- The chunks keep the section unless whitespace alone that fits is left: such a rest has
-- no first line, and its whitespace is both its lead and its tail.
theorem cut_for_size_loses_nothing (accepted : split text = .ok sections) (member : one ∈ sections) (monotone : MonotoneOnPieces one fits) :
    (∃ answer, Returns (fun fuel => fit fuel one fits) answer ∧ ∀ chunks, answer = .ok chunks → Keeps one fits chunks) ↔
      LeavesWords one fits := by
  have words := split_words accepted member
  have filled : join [one] ≠ [] := fun none' => words (by rw [none']; rfl)
  constructor
  · intro kept unfit place comes blank
    obtain ⟨answer,returns,keeps⟩ := kept
    obtain ⟨pieces,cuts,length⟩ := (comes_iff monotone filled unfit place).mp comes
    have first := cuts.first
    rw [length] at first
    rw [←first]
    by_contra fitting
    have fitting' : fits (asChunk one pieces.isEmpty ((join [one]).drop place)) = true := by simpa using fitting
    have last := keeps _ (returns.unique (cuts.returns_ok fitting'))
    have among : asChunk one pieces.isEmpty ((join [one]).drop place) ∈ chunksOf one (pieces ++ [(join [one]).drop place]) := by
      rw [chunksOf_snoc]
      exact List.mem_append_right _ List.mem_cons_self
    exact (last.words _ among).1 (sectionOf_blank blank (if pieces.isEmpty then one.level else 0))
  · intro leaves
    obtain ⟨answer,returns,outcome⟩ := fit_ends one fits
    refine ⟨answer,returns,?_⟩
    intro chunks same
    cases outcome with
    | whole fitting =>
      cases same
      refine ⟨rfl,?_,?_,?_,?_⟩
      · intro chunk has
        cases List.mem_singleton.mp has
        exact fitting
      · intro chunk has
        cases List.mem_singleton.mp has
        exact split_firstLines accepted one member
      · intro chunk head
        cases head
        exact ⟨rfl,rfl⟩
      · intro chunk has
        cases has
    | cut cuts fitting =>
      cases same
      apply cuts.keeps fitting
      intro blank
      rw [cuts.blank_unfit monotone words leaves blank] at fitting
      cases fitting
    | refused => cases same

-- What a size limit reads when it reads a section's words and no whitespace around them.
def ReadsWords (fits : Section → Bool) : Prop :=
  ∀ one other : Section, one.firstLine = other.firstLine → one.body = other.body → fits one = fits other

theorem ReadsWords.same (reads : ReadsWords fits) (same : trim raw = trim text) (one : Section) (first other : Bool) :
    fits (asChunk one first raw) = fits (asChunk one other text) := by
  obtain ⟨firsts,bodies⟩ := sectionOf_parts same (if first then one.level else 0) (if other then one.level else 0)
  exact reads _ _ firsts bodies

-- Under such a limit a cut never leaves whitespace alone: with it the text fits as well.
theorem Cuts.left_words (reads : ReadsWords fits) (words : trim (join [one]) ≠ []) (cuts : Cuts one fits pieces rest) : trim rest ≠ [] := by
  cases cuts with
  | start => exact words
  | @more pieces rest cut cuts unfit found =>
    intro blank
    have passed := (largestCut_some found).1
    have white := trim_nil_iff.mp blank
    have whole : trim rest = trim (rest.take cut) := by
      conv_lhs => rw [←List.take_append_drop cut rest]
      exact trim_white_behind white
    rw [reads.same whole one pieces.isEmpty pieces.isEmpty] at unfit
    rw [unfit] at passed
    cases passed

def wordsUpTo (most : Nat) (one : Section) : Bool := one.firstLine.length+one.body.length ≤ most

theorem wordsUpTo_reads (most : Nat) : ReadsWords (wordsUpTo most) := by
  intro one other firsts bodies
  unfold wordsUpTo
  rw [firsts,bodies]

-- A limit that answers yes to a piece whenever it does to a larger one with the piece in it.
def ContainmentMonotone (fits : Section → Bool) : Prop :=
  ∀ small large : Section, small.text <:+: large.text → fits large = true → fits small = true

def textUpTo (most : Nat) (one : Section) : Bool := one.text.length ≤ most

theorem textUpTo_monotone (most : Nat) : ContainmentMonotone (textUpTo most) := by
  intro small large within fitting
  have shorter := within.length_le
  unfold textUpTo at *
  have bound := of_decide_eq_true fitting
  exact decide_eq_true (by omega)

theorem ContainmentMonotone.onPieces (monotone : ContainmentMonotone fits) (one : Section) : MonotoneOnPieces one fits := by
  intro first small large words within fitting
  refine monotone _ _ ?_ fitting
  rw [asChunk_text one words first,asChunk_text one (words_within words within) first]
  exact within

theorem a_section_cut_in_three_is_kept : ∃ one answer, split "# T\naaaa\n\nbbbb\ncccc\n".toList = .ok [one] ∧
    Returns (fun fuel => fit fuel one (textUpTo 9)) answer ∧ ∀ chunks, answer = .ok chunks → Keeps one (textUpTo 9) chunks := by
  have accepted : split "# T\naaaa\n\nbbbb\ncccc\n".toList = .ok [sectionOf "# T\naaaa\n\nbbbb\ncccc\n".toList 1] := by decide +kernel
  have monotone := (textUpTo_monotone 9).onPieces (sectionOf "# T\naaaa\n\nbbbb\ncccc\n".toList 1)
  have leaves : LeavesWords (sectionOf "# T\naaaa\n\nbbbb\ncccc\n".toList 1) (textUpTo 9) := by
    intro unfit place comes blank
    obtain ⟨pieces,cuts,_⟩ := (comes_iff monotone (by decide +kernel) unfit place).mp comes
    have among := cuts.among
      [([],"# T\naaaa\n\nbbbb\ncccc\n".toList),(["# T\naaaa\n".toList],"\nbbbb\ncccc\n".toList),
        (["# T\naaaa\n".toList,"\nbbbb\n".toList],"cccc\n".toList)] (by decide +kernel) (by decide +kernel)
    simp only [List.mem_cons,List.not_mem_nil,or_false,Prod.mk.injEq] at among
    rcases among with ⟨_,left⟩ | ⟨_,left⟩ | ⟨_,left⟩
    all_goals
      rw [left] at blank
      exact absurd blank (by decide +kernel)
  obtain ⟨answer,returns,keeps⟩ := (cut_for_size_loses_nothing accepted List.mem_cons_self monotone).mpr leaves
  exact ⟨_,answer,accepted,returns,keeps⟩

-- The last of three line feeds is left alone, and comes back as two.
theorem trailing_whitespace_is_doubled : ∃ one, split "aaa\n\n\n".toList = .ok [one] ∧ ContainmentMonotone (textUpTo 5) ∧
    ¬∃ answer, Returns (fun fuel => fit fuel one (textUpTo 5)) answer ∧ ∀ chunks, answer = .ok chunks → Keeps one (textUpTo 5) chunks := by
  refine ⟨sectionOf "aaa\n\n\n".toList 0,by decide +kernel,textUpTo_monotone 5,?_⟩
  intro kept
  obtain ⟨answer,returns,keeps⟩ := kept
  have ran : fit 8 (sectionOf "aaa\n\n\n".toList 0) (textUpTo 5) =
      some (.ok [sectionOf "aaa\n\n".toList 0,{ sectionOf "\n".toList 0 with continues := true }]) := by decide +kernel
  have same := returns.unique (Returns.of_more fit_more ran)
  have joined := (keeps _ same).joined
  have differs : join [sectionOf "aaa\n\n".toList 0,{ sectionOf "\n".toList 0 with continues := true }] ≠
      join [sectionOf "aaa\n\n\n".toList 0] := by decide +kernel
  exact differs joined

end Document
