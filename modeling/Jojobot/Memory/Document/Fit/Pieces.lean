import Jojobot.Library.Packing
import Jojobot.Memory.Document.Fit

namespace Document
open Library

variable {one : Section} {fits : Section → Bool} {pieces : List Text} {rest text : Text} {anew begun cut place : Nat} {tier places : List Nat}
  {passes : Text → Bool}

def shifted (most : Nat) (block : Nat × Nat) : Nat × Nat := (most+block.1,most+block.2)

-- The fenced blocks behind a place, as they read from there.
def blocksFrom (text : Text) (place : Nat) : List (Nat × Nat) := (fencedBlocks (text.drop place)).map (shifted place)

-- Places a piece can end at, the coarsest kind first.
def kinds (text : Text) : List (List Nat) := [blankLineEnds text,lineEnds text,characters text]

-- A piece with words in it that ends short of the text and in none of its blocks.
structure Cuttable (text : Text) (anew begun place : Nat) : Prop where
  ahead : begun < place
  short : place < text.length
  words : trim (slice text (begun,place)) ≠ []
  outside : ∀ block ∈ blocksFrom text anew, ¬(block.1 < place ∧ place < block.2)

-- A piece of the text that fits: no place of a coarser kind stands short of where it ends.
-- The fences are those that read from `anew` on.
inductive Piece (one : Section) (fits : Section → Bool) (anew begun : Nat) : Nat → Prop where
  | cut {front back : List (List Nat)} {tier : List Nat} {place : Nat} : Cuttable (join [one]) anew begun place →
      fits (asChunk one (begun = 0) (slice (join [one]) (begun,place))) = true →
      kinds (join [one]) = front ++ tier :: back → place ∈ tier →
      (∀ coarser ∈ front, ∀ other ∈ coarser, Cuttable (join [one]) anew begun other → place ≤ other) → Piece one fits anew begun place
  | rest : begun < (join [one]).length → fits (asChunk one (begun = 0) ((join [one]).drop begun)) = true →
      Piece one fits anew begun (join [one]).length

-- What is behind a place has the fenced blocks that it had from the earlier place on.
def Alike (text : Text) (anew place : Nat) : Prop :=
  ∀ block : Nat × Nat, place < block.2 → (block ∈ blocksFrom text place ↔ block ∈ blocksFrom text anew)

-- A furthest place that so many pieces come to, with the same fences read from each one before it.
def Lands (one : Section) (fits : Section → Bool) (anew place : Nat) : Prop :=
  place < (join [one]).length ∧
    Packed (Piece one fits anew) (fun begun => Alike (join [one]) anew begun ∧ ∃ ended, Piece one fits anew begun ended) anew place

-- Where the fences are first read otherwise, pieces are counted from anew.
inductive ReadAnew (one : Section) (fits : Section → Bool) : Nat → Prop where
  | whole : ReadAnew one fits 0
  | anew {anew place : Nat} : ReadAnew one fits anew → Lands one fits anew place → ¬Alike (join [one]) anew place → ReadAnew one fits place

-- The places short of the end that cuts come to.
def Comes (one : Section) (fits : Section → Bool) (place : Nat) : Prop := ∃ anew, ReadAnew one fits anew ∧ Lands one fits anew place

-- A limit that a piece with words passes when a larger one of its section with the piece
-- in it does.
def MonotoneOnPieces (one : Section) (fits : Section → Bool) : Prop :=
  ∀ (first : Bool) (small large : Text), trim small ≠ [] → small <:+: large → fits (asChunk one first large) = true →
    fits (asChunk one first small) = true

theorem lastPassing_most (rising : places.Pairwise (· ≤ ·))
    (less : ∀ one ∈ places, ∀ two ∈ places, one ≤ two → passes (text.take two) = true → passes (text.take one) = true)
    (has : place ∈ places) (passed : passes (text.take place) = true) : ∃ cut, lastPassing text passes places = some cut ∧ place ≤ cut := by
  obtain ⟨i,within,at'⟩ := List.mem_iff_getElem.mp has
  have ordered : ∀ j k (first : j < places.length) (second : k < places.length), j ≤ k → places[j] ≤ places[k] := by
    intro j k first second before
    rcases Nat.lt_or_eq_of_le before with less' | same
    · exact List.pairwise_iff_getElem.mp rising j k first second less'
    · subst same
      exact Nat.le_refl _
  rcases lastPassing_cases text passes places with ⟨cut,low,found,chosen,_,failed⟩ | ⟨_,failed⟩
  · refine ⟨cut,found,?_⟩
    obtain ⟨inside,same⟩ := List.getElem?_eq_some_iff.mp chosen
    by_contra past
    have beyond : low < i := by
      by_contra before
      have := ordered i low within inside (by omega)
      omega
    have short : low+1 < places.length := by omega
    have fails := failed places[low+1] (List.getElem?_eq_getElem short)
    rw [less _ (List.getElem_mem short) place has (at' ▸ ordered (low+1) i (by omega) within beyond) passed] at fails
    cases fails
  · cases places with
    | nil => cases has
    | cons first more =>
      have least : first ≤ place := at' ▸ ordered 0 i (Nat.succ_pos _) within (Nat.zero_le _)
      have fails := failed first rfl
      rw [less first List.mem_cons_self place has least passed] at fails
      cases fails

theorem slice_within {a b c d : Nat} (later : a ≤ c) (shorter : d ≤ b) (text : Text) : slice text (c,d) <:+: slice text (a,b) := by
  have inner : slice text (c,d) = ((slice text (a,b)).drop (c-a)).take (d-c) := by
    unfold slice
    rw [List.drop_take,List.drop_drop,List.take_take,Nat.add_sub_cancel' later,Nat.min_eq_left (by omega)]
  rw [inner]
  exact (List.take_prefix _ _).isInfix.trans (List.drop_suffix _ _).isInfix

theorem words_within {small large : Text} (words : trim small ≠ []) (within : small <:+: large) : trim large ≠ [] := by
  intro blank
  exact words (trim_nil_iff.mpr fun c has => trim_nil_iff.mp blank c (within.subset has))

theorem take_drop_slice (text : Text) (begun place : Nat) : (text.drop begun).take place = slice text (begun,begun+place) := by
  unfold slice
  rw [Nat.add_sub_cancel_left]

theorem firstText_past (words : trim (text.take place) ≠ []) : firstText text < place := by
  by_contra short
  apply words
  apply trim_nil_iff.mpr
  intro c has
  exact trim_nil_iff.mp (take_firstText text) c (List.take_subset_take_left _ (Nat.le_of_not_lt short) has)

-- Where a text goes on with words is no earlier when it is looked for later.
theorem firstText_later {a b : Nat} (text : Text) (later : a ≤ b) : a+firstText (text.drop a) ≤ b+firstText (text.drop b) := by
  rcases Nat.lt_or_ge (a+firstText (text.drop a)) b with before | past
  · omega
  · -- What stands between is whitespace, so both look for one place.
    have split : text.drop a = (text.drop a).take (b-a) ++ text.drop b := by
      conv_lhs => rw [←List.take_append_drop (b-a) (text.drop a)]
      rw [List.drop_drop,Nat.add_sub_cancel' later]
    have white : ∀ c ∈ (text.drop a).take (b-a), isWhitespace c = true := by
      intro c has
      exact trim_nil_iff.mp (take_firstText (text.drop a)) c (List.take_subset_take_left _ (by omega) has)
    have same : trimStart (text.drop a) = trimStart (text.drop b) := by
      conv_lhs => rw [split]
      exact trimStart_append_white white
    have length : (text.drop a).length = (text.drop a).length-(b-a)+((text.drop a).take (b-a)).length := by
      rw [List.length_take]
      omega
    unfold firstText
    rw [same,List.length_drop,List.length_drop]
    have shorter : (trimStart (text.drop b)).length ≤ (text.drop b).length := (List.dropWhile_suffix _).length_le
    rw [List.length_drop] at shorter
    omega

theorem mem_lineFeeds : place ∈ lineFeeds text ↔ text[place]? = some '\n' := by
  unfold lineFeeds
  rw [List.mem_filter,List.mem_range]
  constructor
  · intro both
    simpa using both.2
  · intro feed
    exact ⟨(List.getElem?_eq_some_iff.mp feed).1,by simpa using feed⟩

theorem mem_lineEnds : place ∈ lineEnds text ↔ 0 < place ∧ text[place-1]? = some '\n' := by
  unfold lineEnds
  rw [List.mem_map]
  constructor
  · intro found
    obtain ⟨before,has,same⟩ := found
    subst same
    exact ⟨Nat.succ_pos _,mem_lineFeeds.mp has⟩
  · intro both
    exact ⟨place-1,mem_lineFeeds.mpr both.2,by omega⟩

theorem mem_characters : place ∈ characters text ↔ 0 < place ∧ place ≤ text.length := by
  unfold characters
  rw [List.mem_map]
  constructor
  · intro found
    obtain ⟨before,has,same⟩ := found
    subst same
    exact ⟨Nat.succ_pos _,List.mem_range.mp has⟩
  · intro both
    exact ⟨place-1,List.mem_range.mpr (by omega),by omega⟩

theorem mem_blankLineEnds : place ∈ blankLineEnds text ↔ ∃ feed, text[feed]? = some '\n' ∧
    ((text.drop (feed+1)).dropWhile fun c => c = ' ' ∨ c = '\t' ∨ c = '\r').head? = some '\n' ∧ place = feed+1+firstText (text.drop (feed+1)) := by
  unfold blankLineEnds
  rw [List.mem_map]
  constructor
  · intro found
    obtain ⟨feed,has,same⟩ := found
    obtain ⟨fed,blank⟩ := List.mem_filter.mp has
    exact ⟨feed,mem_lineFeeds.mp fed,by simpa using blank,same.symm⟩
  · intro found
    obtain ⟨feed,fed,blank,same⟩ := found
    exact ⟨feed,List.mem_filter.mpr ⟨mem_lineFeeds.mpr fed,by simpa using blank⟩,same.symm⟩

-- The places of one kind in what is behind a place are those of the text.
structure Behind (text : Text) (begun : Nat) (tier whole : List Nat) : Prop where
  rising : tier.Pairwise (· ≤ ·)
  same : ∀ place, 0 < place → begun+place ≤ text.length → trim (slice text (begun,begun+place)) ≠ [] → (place ∈ tier ↔ begun+place ∈ whole)

theorem lineFeeds_rising (text : Text) : (lineFeeds text).Pairwise (· < ·) := List.pairwise_lt_range.filter _

theorem behind_lines (text : Text) (begun : Nat) : Behind text begun (lineEnds (text.drop begun)) (lineEnds text) where
  rising := List.pairwise_map.mpr ((lineFeeds_rising _).imp fun before => Nat.succ_le_succ (Nat.le_of_lt before))
  same := by
    intro place some _ _
    rw [mem_lineEnds,mem_lineEnds,List.getElem?_drop,Nat.add_sub_assoc some]
    simp [some]

theorem behind_characters (text : Text) (begun : Nat) : Behind text begun (characters (text.drop begun)) (characters text) where
  rising := List.pairwise_map.mpr (List.pairwise_lt_range.imp fun before => Nat.succ_le_succ (Nat.le_of_lt before))
  same := by
    intro place some within _
    rw [mem_characters,mem_characters,List.length_drop]
    omega

theorem behind_blankLines (text : Text) (begun : Nat) : Behind text begun (blankLineEnds (text.drop begun)) (blankLineEnds text) where
  rising := by
    refine List.pairwise_map.mpr (((lineFeeds_rising _).filter _).imp ?_)
    intro one two before
    exact firstText_later (text.drop begun) (Nat.succ_le_succ (Nat.le_of_lt before))
  same := by
    intro place _ _ words
    rw [mem_blankLineEnds,mem_blankLineEnds]
    constructor
    · intro found
      obtain ⟨feed,fed,blank,same⟩ := found
      rw [List.drop_drop,←Nat.add_assoc] at blank same
      rw [List.getElem?_drop] at fed
      exact ⟨begun+feed,fed,blank,by rw [same]; omega⟩
    · intro found
      obtain ⟨feed,fed,blank,same⟩ := found
      rcases Nat.lt_or_ge feed begun with before | behind
      · -- A blank line that began earlier leaves only whitespace up to its end.
        have white := take_firstText (text.drop (feed+1))
        rw [take_drop_slice,←same] at white
        exact absurd white (words_within words (slice_within before (Nat.le_refl _) text))
      · have split : begun+(feed-begun) = feed := by omega
        refine ⟨feed-begun,by rw [List.getElem?_drop,split]; exact fed,?_,?_⟩
        · rw [List.drop_drop,←Nat.add_assoc,split]
          exact blank
        · rw [List.drop_drop,←Nat.add_assoc,split]
          omega

theorem kinds_behind (text : Text) (begun : Nat) : List.Forall₂ (Behind text begun) (kinds (text.drop begun)) (kinds text) :=
  .cons (behind_blankLines text begun) (.cons (behind_lines text begun) (.cons (behind_characters text begun) .nil))

theorem mem_candidates_behind {behind tier : List Nat} (kind : Behind text begun behind tier) :
    place ∈ candidates (text.drop begun) behind ↔ begun+place ∈ tier ∧ Cuttable text begun begun (begun+place) := by
  have blocks : (∀ block ∈ fencedBlocks (text.drop begun), ¬(block.1 < place ∧ place < block.2)) ↔
      ∀ block ∈ blocksFrom text begun, ¬(block.1 < begun+place ∧ begun+place < block.2) := by
    unfold blocksFrom
    rw [List.forall_mem_map]
    simp [shifted]
  rw [mem_candidates,blocks,take_drop_slice,List.length_drop]
  constructor
  · intro found
    obtain ⟨has,⟨short,past,words⟩,outside⟩ := found
    have some : 0 < place := by omega
    exact ⟨(kind.same place some (by omega) words).mp has,by omega,by omega,words,outside⟩
  · intro found
    obtain ⟨has,ahead,short,words,outside⟩ := found
    have past : firstText (text.drop begun) < place := firstText_past (by rw [take_drop_slice]; exact words)
    exact ⟨(kind.same place (by omega) (by omega) words).mpr has,⟨by omega,past,words⟩,outside⟩

-- A limit on a text's pieces, as the cut of what is behind a place asks it.
def Bounds (text : Text) (begun : Nat) (passes : Text → Bool) : Prop :=
  ∀ one two, one ≤ two → trim (slice text (begun,one)) ≠ [] → passes (slice text (begun,two)) = true → passes (slice text (begun,one)) = true

-- The last place of a kind that passes, of what is behind a place.
theorem lastPassing_behind {behind tier : List Nat} (kind : Behind text begun behind tier) (bounds : Bounds text begun passes)
    (has : place ∈ tier) (cuttable : Cuttable text begun begun place) (passed : passes (slice text (begun,place)) = true) :
    ∃ cut, lastPassing (text.drop begun) passes (candidates (text.drop begun) behind) = some cut ∧ place ≤ begun+cut := by
  have shape : begun+(place-begun) = place := by
    have := cuttable.ahead
    omega
  have among : place-begun ∈ candidates (text.drop begun) behind := by
    rw [mem_candidates_behind kind,shape]
    exact ⟨has,cuttable⟩
  have rising : (candidates (text.drop begun) behind).Pairwise (· ≤ ·) := (kind.rising.filter _).filter _
  obtain ⟨cut,found,ahead⟩ := lastPassing_most rising (by
    intro one first two _ before passed
    rw [take_drop_slice] at passed ⊢
    exact bounds _ _ (Nat.add_le_add_left before begun) ((mem_candidates_behind kind).mp first).2.words passed) among
    (by rw [take_drop_slice,shape]; exact passed)
  exact ⟨cut,found,by omega⟩

-- Where what is behind a place is cut: at the last place that passes, of the first kind
-- that has one.
theorem findCut_some (bounds : Bounds text begun passes) {behind tiers : List (List Nat)} (kinds : List.Forall₂ (Behind text begun) behind tiers)
    (found : behind.findSome? (fun tier => lastPassing (text.drop begun) passes (candidates (text.drop begun) tier)) = some cut) :
    ∃ front tier back, tiers = front ++ tier :: back ∧ begun+cut ∈ tier ∧ Cuttable text begun begun (begun+cut) ∧
      passes (slice text (begun,begun+cut)) = true ∧
      (∀ coarser ∈ front, ∀ other ∈ coarser, Cuttable text begun begun other → passes (slice text (begun,other)) = false) ∧
      ∀ other ∈ tier, Cuttable text begun begun other → passes (slice text (begun,other)) = true → other ≤ begun+cut := by
  induction kinds with
  | nil => cases found
  | @cons one tier behind tiers kind _ ih =>
    rw [List.findSome?_cons] at found
    cases here : lastPassing (text.drop begun) passes (candidates (text.drop begun) one) with
    | some last =>
      rw [here] at found
      cases found
      obtain ⟨among,passed⟩ := lastPassing_some here
      obtain ⟨has,cuttable⟩ := (mem_candidates_behind kind).mp among
      refine ⟨[],tier,tiers,rfl,has,cuttable,by rw [←take_drop_slice]; exact passed,by simp,?_⟩
      intro other has' cuttable' passed'
      obtain ⟨last',found',ahead⟩ := lastPassing_behind kind bounds has' cuttable' passed'
      cases here.symm.trans found'
      exact ahead
    | none =>
      rw [here] at found
      obtain ⟨front,tier',back,shape,has,cuttable,passed,coarse,most⟩ := ih found
      refine ⟨tier::front,tier',back,by rw [shape]; rfl,has,cuttable,passed,?_,most⟩
      intro coarser member other has' cuttable'
      rcases List.mem_cons.mp member with same | later
      · subst same
        by_contra passed'
        obtain ⟨last',found',_⟩ := lastPassing_behind kind bounds has' cuttable' (by simpa using passed')
        cases here.symm.trans found'
      · exact coarse coarser later other has' cuttable'

theorem findCut_none (bounds : Bounds text begun passes) {behind tiers : List (List Nat)} (kinds : List.Forall₂ (Behind text begun) behind tiers)
    (missing : behind.findSome? (fun tier => lastPassing (text.drop begun) passes (candidates (text.drop begun) tier)) = none) :
    ∀ tier ∈ tiers, ∀ other ∈ tier, Cuttable text begun begun other → passes (slice text (begun,other)) = false := by
  induction kinds with
  | nil => intro tier member; cases member
  | @cons one tier behind tiers kind _ ih =>
    rw [List.findSome?_cons] at missing
    cases here : lastPassing (text.drop begun) passes (candidates (text.drop begun) one) with
    | some last =>
      rw [here] at missing
      cases missing
    | none =>
      rw [here] at missing
      intro tier' member other has cuttable
      rcases List.mem_cons.mp member with same | later
      · subst same
        by_contra passed
        obtain ⟨last,found,_⟩ := lastPassing_behind kind bounds has cuttable (by simpa using passed)
        cases here.symm.trans found
      · exact ih missing tier' later other has cuttable

theorem Alike.start (text : Text) (place : Nat) : Alike text place place := fun _ _ => Iff.rfl

theorem Alike.cuttable (alike : Alike text anew begun) : Cuttable text begun begun place ↔ Cuttable text anew begun place := by
  constructor
  · intro cuttable
    refine ⟨cuttable.ahead,cuttable.short,cuttable.words,?_⟩
    intro block has inside
    have ahead := cuttable.ahead
    exact cuttable.outside block ((alike block (by omega)).mpr has) inside
  · intro cuttable
    refine ⟨cuttable.ahead,cuttable.short,cuttable.words,?_⟩
    intro block has inside
    have ahead := cuttable.ahead
    exact cuttable.outside block ((alike block (by omega)).mp has) inside

theorem MonotoneOnPieces.bounds (monotone : MonotoneOnPieces one fits) (begun : Nat) :
    Bounds (join [one]) begun fun front => fits (asChunk one (begun = 0) front) := by
  intro one two before words passed
  exact monotone _ _ _ words (slice_within (Nat.le_refl _) before _) passed

-- The cut of what is behind a place ends the longest piece from there.
theorem largestCut_longest (monotone : MonotoneOnPieces one fits) (alike : Alike (join [one]) anew begun)
    (unfit : fits (asChunk one (begun = 0) ((join [one]).drop begun)) = false)
    (found : largestCut ((join [one]).drop begun) (fun front => fits (asChunk one (begun = 0) front)) = some cut) :
    Longest (Piece one fits anew) begun (begun+cut) := by
  obtain ⟨front,tier,back,shape,has,cuttable,passed,coarse,most⟩ :=
    findCut_some (monotone.bounds begun) (kinds_behind (join [one]) begun) found
  constructor
  · refine .cut (alike.cuttable.mp cuttable) passed shape has ?_
    intro coarser member other has' cuttable'
    by_contra short
    have known := alike.cuttable.mpr cuttable'
    have fails := coarse coarser member other has' known
    have passes := monotone.bounds begun other (begun+cut) (by omega) known.words passed
    cases fails.symm.trans passes
  · intro other piece
    cases piece with
    | rest _ fitting =>
      rw [fitting] at unfit
      cases unfit
    | @cut front' back' tier' _ cuttable' passed' shape' has' coarse' =>
      have known := alike.cuttable.mpr cuttable'
      rw [shape'] at shape
      rcases List.append_eq_append_iff.mp shape with ⟨more,front_eq,rest_eq⟩ | ⟨more,front_eq,rest_eq⟩
      · cases more with
        | nil =>
          cases rest_eq
          exact most other has' known passed'
        | cons _ more =>
          -- It is of a coarser kind, and none of that passed.
          cases rest_eq
          have fails := coarse tier' (by rw [front_eq]; simp) other has' known
          rw [passed'] at fails
          cases fails
      · cases more with
        | nil =>
          cases rest_eq
          exact most other has' known passed'
        | cons _ more =>
          cases rest_eq
          exact coarse' tier (by rw [front_eq]; simp) (begun+cut) has (alike.cuttable.mp cuttable)

theorem largestCut_stuck (monotone : MonotoneOnPieces one fits) (alike : Alike (join [one]) anew begun)
    (unfit : fits (asChunk one (begun = 0) ((join [one]).drop begun)) = false)
    (missing : largestCut ((join [one]).drop begun) (fun front => fits (asChunk one (begun = 0) front)) = none) :
    ¬∃ ended, Piece one fits anew begun ended := by
  intro some
  obtain ⟨ended,piece⟩ := some
  cases piece with
  | rest _ fitting =>
    rw [fitting] at unfit
    cases unfit
  | @cut front back tier _ cuttable passed shape has _ =>
    have fails := findCut_none (monotone.bounds begun) (kinds_behind (join [one]) begun) missing tier (by rw [shape]; simp) ended has
      (alike.cuttable.mpr cuttable)
    rw [passed] at fails
    cases fails

theorem Piece.within {ended : Nat} (piece : Piece one fits anew begun ended) : begun < ended ∧ ended ≤ (join [one]).length := by
  cases piece with
  | cut cuttable => exact ⟨cuttable.ahead,cuttable.short.le⟩
  | rest short => exact ⟨short,Nat.le_refl _⟩

-- A piece can be begun later, unless only whitespace of it is left: then every piece goes beyond it.
theorem pieces_pack (monotone : MonotoneOnPieces one fits) (anew : Nat) : Packs (Piece one fits anew) anew (join [one]).length where
  forward _ _ piece := piece.within.1
  within _ _ piece := piece.within.2
  later := by
    intro begun later ended positive ahead short piece
    have plain : decide (begun = 0) = decide (later = 0) := by
      have : begun ≠ 0 := by omega
      have : later ≠ 0 := by omega
      simp [*]
    by_cases words : trim (slice (join [one]) (later,ended)) = []
    · right
      intro further piece'
      cases piece' with
      | cut cuttable =>
        by_contra before
        exact words_within cuttable.words (slice_within (Nat.le_refl _) (by omega) _) words
      | rest => exact piece.within.2
    · left
      cases piece with
      | cut cuttable passed shape has coarse =>
        refine .cut ⟨short,cuttable.short,words,cuttable.outside⟩ ?_ shape has ?_
        · rw [←plain]
          exact monotone _ _ _ words (slice_within ahead (Nat.le_refl _) _) passed
        · intro coarser member other has' cuttable'
          refine coarse coarser member other has' ⟨by have := cuttable'.ahead; omega,cuttable'.short,?_,cuttable'.outside⟩
          exact words_within cuttable'.words (slice_within ahead (Nat.le_refl _) _)
      | rest _ fitting =>
        have whole : ∀ place, slice (join [one]) (place,(join [one]).length) = (join [one]).drop place := by
          intro place
          unfold slice
          exact List.take_of_length_le (by rw [List.length_drop])
        rw [whole] at words
        refine .rest short ?_
        rw [←plain]
        refine monotone _ _ _ words ?_ fitting
        rw [←whole,←whole]
        exact slice_within ahead (Nat.le_refl _) _

theorem Cuts.first (cuts : Cuts one fits pieces rest) : pieces.isEmpty = decide (pieces.flatten.length = 0) := by
  have words := cuts.words
  cases pieces with
  | nil => rfl
  | cons piece more =>
    have filled : piece ≠ [] := by
      intro none'
      exact words piece List.mem_cons_self (by rw [none']; rfl)
    have some : 0 < piece.length := List.length_pos_of_ne_nil filled
    simp
    intro none'
    exact absurd none' filled

theorem Cuts.left (cuts : Cuts one fits pieces rest) : rest = (join [one]).drop pieces.flatten.length := by
  rw [←cuts.whole,List.drop_left]

theorem lands_iff (monotone : MonotoneOnPieces one fits) : Lands one fits anew place ↔ place < (join [one]).length ∧
    Greedy (Piece one fits anew) (fun begun => Alike (join [one]) anew begun ∧ ∃ ended, Piece one fits anew begun ended) anew place :=
  and_congr_right fun _ => packed_iff (pieces_pack monotone anew) (fun _ => And.right) place

-- What the loop's cuts come to, the pieces come to.
theorem Cuts.comes (monotone : MonotoneOnPieces one fits) (filled : join [one] ≠ []) (cuts : Cuts one fits pieces rest) :
    Comes one fits pieces.flatten.length := by
  induction cuts with
  | start => exact ⟨0,.whole,(lands_iff monotone).mpr ⟨List.length_pos_of_ne_nil filled,.here⟩⟩
  | @more pieces rest cut cuts unfit found ih =>
    obtain ⟨anew,read,lands⟩ := ih
    have short := (largestCut_some found).2.1
    rw [cuts.first,cuts.left] at unfit found
    have length : (pieces ++ [rest.take cut]).flatten.length = pieces.flatten.length+cut := by
      rw [List.flatten_append,List.length_append]
      simp [Nat.min_eq_left (Nat.le_of_lt short)]
    have within : pieces.flatten.length+cut < (join [one]).length := by
      rw [cuts.left,List.length_drop] at short
      omega
    rw [length]
    by_cases alike : Alike (join [one]) anew pieces.flatten.length
    · have longest := largestCut_longest monotone alike unfit found
      exact ⟨anew,read,(lands_iff monotone).mpr ⟨within,.next ((lands_iff monotone).mp lands).2 ⟨alike,_,longest.taken⟩ longest⟩⟩
    · have same := Alike.start (join [one]) pieces.flatten.length
      have longest := largestCut_longest monotone same unfit found
      exact ⟨_,.anew read lands alike,(lands_iff monotone).mpr ⟨within,.next .here ⟨same,_,longest.taken⟩ longest⟩⟩

theorem Cuts.greedy (monotone : MonotoneOnPieces one fits) (begins : ∃ pieces, Cuts one fits pieces ((join [one]).drop anew) ∧ pieces.flatten.length = anew)
    (greedy : Greedy (Piece one fits anew) (fun begun => Alike (join [one]) anew begun ∧ ∃ ended, Piece one fits anew begun ended) anew place)
    (short : place < (join [one]).length) : ∃ pieces, Cuts one fits pieces ((join [one]).drop place) ∧ pieces.flatten.length = place := by
  induction greedy with
  | here => exact begins
  | @next begun ended _ onward longest ih =>
    have ahead := longest.taken.within.1
    obtain ⟨pieces,cuts,length⟩ := ih (by omega)
    have first := cuts.first
    rw [length] at first
    have unfit : fits (asChunk one (begun = 0) ((join [one]).drop begun)) = false := by
      by_contra fitting
      have whole := longest.most _ (.rest (by omega) (by simpa using fitting))
      omega
    cases found : largestCut ((join [one]).drop begun) (fun front => fits (asChunk one (begun = 0) front)) with
    | none => exact absurd ⟨ended,longest.taken⟩ (largestCut_stuck monotone onward.1 unfit found)
    | some cut =>
      have other := largestCut_longest monotone onward.1 unfit found
      have same : ended = begun+cut := Nat.le_antisymm (other.most _ longest.taken) (longest.most _ other.taken)
      have inside := (largestCut_some found).2.1
      rw [←first] at unfit found
      have next := cuts.more unfit found
      rw [List.drop_drop,←same] at next
      refine ⟨_,next,?_⟩
      rw [List.flatten_append,List.length_append,length,same]
      simp only [List.flatten_cons,List.flatten_nil,List.append_nil,List.length_take]
      omega

-- The places the pieces come to are where the loop cuts.
theorem comes_iff (monotone : MonotoneOnPieces one fits) (filled : join [one] ≠ []) (unfit : fits one = false) (place : Nat) :
    Comes one fits place ↔ ∃ pieces, Cuts one fits pieces ((join [one]).drop place) ∧ pieces.flatten.length = place := by
  constructor
  · intro comes
    obtain ⟨anew,read,lands⟩ := comes
    have begins : ∀ anew, ReadAnew one fits anew → ∃ pieces, Cuts one fits pieces ((join [one]).drop anew) ∧ pieces.flatten.length = anew := by
      intro anew read
      induction read with
      | whole => exact ⟨[],.start unfit,rfl⟩
      | anew _ lands _ ih =>
        obtain ⟨short,greedy⟩ := (lands_iff monotone).mp lands
        exact Cuts.greedy monotone ih greedy short
    obtain ⟨short,greedy⟩ := (lands_iff monotone).mp lands
    exact Cuts.greedy monotone (begins anew read) greedy short
  · intro found
    obtain ⟨pieces,cuts,length⟩ := found
    exact length ▸ cuts.comes monotone filled

end Document
