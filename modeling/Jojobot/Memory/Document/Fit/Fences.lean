import Jojobot.Memory.Document.Fit.Blocks

namespace Document
open Library

-- A cut leaves the rest of a line that was no fence and stood outside every one, and
-- that rest reads as a fence.
def falseFenceFrom : Option (Char × Nat) → Nat → List Text → Bool
  | _,_,[] => false
  | fence,cut,raw :: rest =>
    if cut < raw.length then
      decide (0 < cut) && fence.isNone && (fenceOf (bare raw)).isNone && (fenceOf (bare (raw.drop cut))).isSome
    else falseFenceFrom (readLine fence (bare raw)).1 (cut-raw.length) rest

def falseFence (text : Text) (cut : Nat) : Bool := falseFenceFrom none cut (splitInclusive text)

variable {one : Section} {fits : Section → Bool} {pieces : List Text} {rest text raw : Text} {lines : List Text} {block : Nat × Nat} {c : Char}
  {run start offset cut : Nat} {fence : Option (Char × Nat × Nat)}

theorem fencedBlocksFrom_shifted (most : Nat) (lines : List Text) (fence : Option (Char × Nat × Nat)) (offset : Nat) :
    fencedBlocksFrom (fence.map fun held => (held.1,held.2.1,most+held.2.2)) (most+offset) lines =
      (fencedBlocksFrom fence offset lines).map (shifted most) := by
  induction lines generalizing fence offset with
  | nil => cases fence <;> rfl
  | cons raw rest ih =>
    have onward := fun next => ih next (offset+raw.length)
    simp only [←Nat.add_assoc] at onward
    cases fence with
    | none =>
      cases found : fenceOf (bare raw) with
      | none =>
        simp only [fencedBlocksFrom,Option.map_none,found]
        exact onward none
      | some read =>
        obtain ⟨c,run,behind⟩ := read
        simp only [fencedBlocksFrom,Option.map_none,found]
        exact onward (some (c,run,offset))
    | some held =>
      obtain ⟨c,run,start⟩ := held
      cases found : fenceOf (bare raw) with
      | none =>
        simp only [fencedBlocksFrom,Option.map_some,found]
        exact onward (some (c,run,start))
      | some read =>
        obtain ⟨other,length,behind⟩ := read
        simp only [fencedBlocksFrom,Option.map_some,found]
        split
        · rw [List.map_cons]
          refine congrArg₂ List.cons ?_ (onward none)
          simp [shifted,Nat.add_assoc]
        · exact onward (some (c,run,start))

-- An open fence is what the first block behind it closes.
theorem held_first (rest : List Text) (raw : Text) (offset : Nat)
    (found : (fencedBlocksFrom (some (c,run,start)) offset (raw :: rest)).head? = some block) :
    block.1 = start ∧ offset+raw.length ≤ block.2 := by
  induction rest generalizing raw offset with
  | nil =>
    unfold fencedBlocksFrom at found
    split at found
    · rename_i impossible _
      cases impossible
    · rename_i same _
      cases same
      split at found
      · cases found
        exact ⟨rfl,Nat.le_refl _⟩
      · simp [fencedBlocksFrom] at found
    · rename_i impossible _
      cases impossible
    · simp [fencedBlocksFrom] at found
  | cons next rest ih =>
    have later := fun found => ih next (offset+raw.length) found
    unfold fencedBlocksFrom at found
    split at found
    · rename_i impossible _
      cases impossible
    · rename_i same _
      cases same
      split at found
      · cases found
        exact ⟨rfl,Nat.le_refl _⟩
      · obtain ⟨first,past⟩ := later found
        exact ⟨first,by omega⟩
    · rename_i impossible _
      cases impossible
    · rename_i same _
      cases same
      obtain ⟨first,past⟩ := later found
      exact ⟨first,by omega⟩

-- A fence opened before a place no block holds is never closed behind it.
theorem held_unclosed (rest : List Text) (raw : Text) (offset : Nat) {place : Nat} (before : start < place) (ahead : place < offset+raw.length)
    (outside : ∀ block ∈ fencedBlocksFrom (some (c,run,start)) offset (raw :: rest), ¬(block.1 < place ∧ place < block.2)) :
    fencedBlocksFrom (some (c,run,start)) offset (raw :: rest) = [] := by
  cases shape : fencedBlocksFrom (some (c,run,start)) offset (raw :: rest) with
  | nil => rfl
  | cons block more =>
    obtain ⟨first,past⟩ := held_first rest raw offset (by rw [shape]; rfl : _ = some block)
    have among : block ∈ fencedBlocksFrom (some (c,run,start)) offset (raw :: rest) := by
      rw [shape]
      exact List.mem_cons_self
    exact absurd ⟨by omega,by omega⟩ (outside block among)

theorem linesOf_dropped {rest : List Text} (lined : LinesOf (raw :: rest)) (within : cut < raw.length) : LinesOf (raw.drop cut :: rest) := by
  obtain ⟨_,ends,clean⟩ := lined.first
  have filled : raw.drop cut ≠ [] := List.ne_nil_of_length_pos (by rw [List.length_drop]; omega)
  refine linesOf_cons ⟨filled,?_,?_⟩ lined.rest
  · intro more
    rw [List.getLast?_drop,if_neg (by omega)]
    exact ends more
  · intro member
    apply clean
    conv => arg 1; rw [←List.take_append_drop cut raw]
    rw [List.dropLast_append_of_ne_nil filled]
    exact List.mem_append_right _ member

theorem readLine_open (raw : Text) (fence : Option (Char × Nat × Nat)) (offset : Nat) (rest : List Text) :
    ∃ next : Option (Char × Nat × Nat), next.map (fun held => (held.1,held.2.1)) = (readLine (fence.map fun held => (held.1,held.2.1)) (bare raw)).1 ∧
      (∀ c run start, next = some (c,run,start) → fence = some (c,run,start) ∨ start = offset) ∧
      ((fencedBlocksFrom fence offset (raw :: rest) = fencedBlocksFrom next (offset+raw.length) rest) ∨
        ∃ start, fencedBlocksFrom fence offset (raw :: rest) = (start,offset+raw.length) :: fencedBlocksFrom next (offset+raw.length) rest) := by
  cases fence with
  | none =>
    cases found : fenceOf (bare raw) with
    | none => exact ⟨none,by simp [readLine,found],fun _ _ _ same => (by cases same),Or.inl (by simp [fencedBlocksFrom,found])⟩
    | some read =>
      obtain ⟨c,run,behind⟩ := read
      refine ⟨some (c,run,offset),by simp [readLine,found],?_,Or.inl (by simp [fencedBlocksFrom,found])⟩
      intro c' run' start same
      cases same
      exact Or.inr rfl
  | some held =>
    obtain ⟨c,run,start⟩ := held
    cases found : fenceOf (bare raw) with
    | none =>
      exact ⟨some (c,run,start),by simp [readLine,found],fun _ _ _ same => Or.inl same,Or.inl (by simp [fencedBlocksFrom,found])⟩
    | some read =>
      obtain ⟨other,length,behind⟩ := read
      by_cases closes : other = c ∧ length ≥ run ∧ trim behind = []
      · refine ⟨none,by simp [readLine,found,closes],fun _ _ _ same => (by cases same),Or.inr ⟨start,?_⟩⟩
        simp [fencedBlocksFrom,found,closes]
      · refine ⟨some (c,run,start),by simp [readLine,found,closes],fun _ _ _ same => Or.inl same,Or.inl ?_⟩
        simp [fencedBlocksFrom,found,closes]

-- The place stands in the first line.
theorem blocks_behind_here (raw : Text) (rest : List Text) (lined : LinesOf (raw :: rest)) (fence : Option (Char × Nat × Nat))
    (offset cut : Nat) (held : ∀ c run start, fence = some (c,run,start) → start < offset) (here : cut < raw.length)
    (clear : falseFenceFrom (fence.map fun held => (held.1,held.2.1)) cut (raw :: rest) = false)
    (outside : ∀ block ∈ fencedBlocksFrom fence offset (raw :: rest), ¬(block.1 < offset+cut ∧ offset+cut < block.2)) :
    ∀ block ∈ fencedBlocksFrom fence offset (raw :: rest), offset+cut < block.2 →
      block ∈ fencedBlocksFrom none (offset+cut) (splitInclusive ((raw :: rest).flatten.drop cut)) := by
  unfold falseFenceFrom at clear
  rw [if_pos here] at clear
  have dropped : splitInclusive ((raw :: rest).flatten.drop cut) = raw.drop cut :: rest := by
    rw [List.flatten_cons,List.drop_append_of_le_length (Nat.le_of_lt here)]
    exact splitInclusive_flatten_lines (linesOf_dropped lined here)
  rw [dropped]
  cases fence with
  | some open' =>
    obtain ⟨c,run,start⟩ := open'
    have before := held c run start rfl
    rw [held_unclosed rest raw offset (by omega) (by omega) outside]
    intro block has
    cases has
  | none =>
    by_cases flush : cut = 0
    · subst flush
      exact fun block has _ => has
    · cases found : fenceOf (bare raw) with
      | some read =>
        obtain ⟨c,run,behind⟩ := read
        have opens : fencedBlocksFrom none offset (raw :: rest) = fencedBlocksFrom (some (c,run,offset)) (offset+raw.length) rest := by
          simp [fencedBlocksFrom,found]
        rw [opens] at outside ⊢
        cases shape : fencedBlocksFrom (some (c,run,offset)) (offset+raw.length) rest with
        | nil =>
          intro block has
          cases has
        | cons block more =>
          rw [shape] at outside
          cases rest with
          | nil => simp [fencedBlocksFrom] at shape
          | cons next rest =>
            obtain ⟨first,past⟩ := held_first rest next (offset+raw.length) (by rw [shape]; rfl : _ = some block)
            exact absurd ⟨by omega,by omega⟩ (outside block List.mem_cons_self)
      | none =>
        have plain : fenceOf (bare (raw.drop cut)) = none := by
          have positive : 0 < cut := Nat.pos_of_ne_zero flush
          simpa [positive,found] using clear
        have length : offset+cut+(raw.drop cut).length = offset+raw.length := by
          rw [List.length_drop]
          omega
        have same : fencedBlocksFrom none (offset+cut) (raw.drop cut :: rest) = fencedBlocksFrom none offset (raw :: rest) := by
          simp only [fencedBlocksFrom,found,plain,length]
        rw [same]
        exact fun block has _ => has

-- What a cut outside every block leaves holds the blocks that stand behind the cut.
theorem blocks_behind (lines : List Text) (lined : LinesOf lines) (fence : Option (Char × Nat × Nat)) (offset cut : Nat)
    (held : ∀ c run start, fence = some (c,run,start) → start < offset) (within : cut < lines.flatten.length)
    (clear : falseFenceFrom (fence.map fun held => (held.1,held.2.1)) cut lines = false)
    (outside : ∀ block ∈ fencedBlocksFrom fence offset lines, ¬(block.1 < offset+cut ∧ offset+cut < block.2)) :
    ∀ block ∈ fencedBlocksFrom fence offset lines, offset+cut < block.2 →
      block ∈ fencedBlocksFrom none (offset+cut) (splitInclusive (lines.flatten.drop cut)) := by
  induction lines generalizing fence offset cut with
  | nil => simp at within
  | cons raw rest ih =>
    by_cases here : cut < raw.length
    · exact blocks_behind_here raw rest lined fence offset cut held here clear outside
    · unfold falseFenceFrom at clear
      rw [if_neg here] at clear
      obtain ⟨next,state,from',blocks⟩ := readLine_open raw fence offset rest
      rw [←state] at clear
      have place : offset+raw.length+(cut-raw.length) = offset+cut := by omega
      have within' : cut-raw.length < rest.flatten.length := by
        rw [List.flatten_cons,List.length_append] at within
        omega
      have positive : 0 < raw.length := List.length_pos_of_ne_nil lined.first.1
      have held' : ∀ c run start, next = some (c,run,start) → start < offset+raw.length := by
        intro c run start same
        rcases from' c run start same with old | new
        · have := held c run start old
          omega
        · omega
      have left : (raw :: rest).flatten.drop cut = rest.flatten.drop (cut-raw.length) := by
        rw [List.flatten_cons,List.drop_append,List.drop_eq_nil_of_le (by omega),List.nil_append]
      have later := ih lined.rest next (offset+raw.length) (cut-raw.length) held' within' clear
      rw [place] at later
      rw [left]
      rcases blocks with same | ⟨start,same⟩
      · rw [same] at outside ⊢
        exact later outside
      · rw [same] at outside ⊢
        intro block has ahead
        rcases List.mem_cons.mp has with closed | more
        · subst closed
          change offset+cut < offset+raw.length at ahead
          omega
        · exact later (fun block has => outside block (List.mem_cons_of_mem _ has)) block more ahead

theorem blocksFrom_start (text : Text) : blocksFrom text 0 = fencedBlocks text := by
  have same : shifted 0 = id := by
    funext block
    simp [shifted]
  rw [blocksFrom,List.drop_zero,same,List.map_id]

-- A block behind a place outside every block is seen from there, unless the rest of a
-- line there is a fence that the line was not.
theorem block_seen (short : cut < text.length) (clear : falseFence text cut = false)
    (outside : ∀ block ∈ fencedBlocks text, ¬(block.1 < cut ∧ cut < block.2)) :
    ∀ block ∈ fencedBlocks text, cut < block.2 → block ∈ blocksFrom text cut := by
  have whole : (splitInclusive text).flatten = text := splitInclusive_flatten text
  have own := fencedBlocksFrom_shifted cut (splitInclusive (text.drop cut)) none 0
  have behind := blocks_behind (splitInclusive text) (splitInclusive_linesOf text) none 0 cut
    (fun _ _ _ same => by cases same) (whole.symm ▸ short) clear (by simpa [fencedBlocks] using outside)
  rw [whole,Nat.zero_add] at behind
  intro block has ahead
  change block ∈ (fencedBlocksFrom none 0 (splitInclusive (text.drop cut))).map (shifted cut)
  rw [←own]
  exact behind block has ahead

-- Whatever is too big where the pieces come to is read with each block of the whole text
-- that ends behind it.
def KeepsSight (one : Section) (fits : Section → Bool) : Prop :=
  fits one = false → ∀ place, Comes one fits place → fits (asChunk one (place = 0) ((join [one]).drop place)) = false →
    ∀ block ∈ fencedBlocks (join [one]), place < block.2 → block ∈ blocksFrom (join [one]) place

-- The loop cuts a rest whose fences are read without a block of the whole text.
def LosesSight (one : Section) (fits : Section → Bool) : Prop :=
  ∃ pieces rest, Cuts one fits pieces rest ∧ fits (asChunk one pieces.isEmpty rest) = false ∧
    ∃ block ∈ fencedBlocks (join [one]), pieces.flatten.length < block.2 ∧ block ∉ blocksFrom (join [one]) pieces.flatten.length

-- A cut falls inside no block that is seen from where it is looked for.
theorem Cuts.outside (cuts : Cuts one fits pieces rest) (found : largestCut rest (fun front => fits (asChunk one pieces.isEmpty front)) = some cut)
    (seen : pieces.flatten.length < block.2 → block ∈ blocksFrom (join [one]) pieces.flatten.length) :
    ¬(block.1 < (pieces ++ [rest.take cut]).flatten.length ∧ (pieces ++ [rest.take cut]).flatten.length < block.2) := by
  obtain ⟨_,short,_,_,outside⟩ := largestCut_some found
  have length : (pieces ++ [rest.take cut]).flatten.length = pieces.flatten.length+cut := by
    rw [List.flatten_append,List.length_append]
    simp [Nat.min_eq_left (Nat.le_of_lt short)]
  rw [length]
  intro inside
  have behind := seen (by omega)
  rw [blocksFrom,←cuts.left] at behind
  obtain ⟨own,has,same⟩ := List.mem_map.mp behind
  subst same
  have first : pieces.flatten.length+own.1 < pieces.flatten.length+cut := inside.1
  have second : pieces.flatten.length+cut < pieces.flatten.length+own.2 := inside.2
  exact outside own has ⟨by omega,by omega⟩

theorem Cuts.sees (monotone : MonotoneOnPieces one fits) (sight : KeepsSight one fits) (cuts : Cuts one fits pieces rest)
    (unfit : fits (asChunk one pieces.isEmpty rest) = false) (has : block ∈ fencedBlocks (join [one]))
    (ahead : pieces.flatten.length < block.2) : block ∈ blocksFrom (join [one]) pieces.flatten.length := by
  have filled : join [one] ≠ [] := by
    intro none'
    rw [none'] at has
    cases has
  rw [cuts.first,cuts.left] at unfit
  exact sight cuts.unfit _ (cuts.comes monotone filled) unfit block has ahead

theorem Cuts.boundary (monotone : MonotoneOnPieces one fits) (sight : KeepsSight one fits) (cuts : Cuts one fits pieces rest)
    (has : block ∈ fencedBlocks (join [one])) : ¬(block.1 < pieces.flatten.length ∧ pieces.flatten.length < block.2) := by
  cases cuts with
  | start =>
    intro inside
    exact Nat.not_lt_zero _ inside.1
  | more cuts unfit found => exact cuts.outside found fun ahead => cuts.sees monotone sight unfit has ahead

theorem Cuts.short (filled : join [one] ≠ []) (cuts : Cuts one fits pieces rest) : pieces.flatten.length < (join [one]).length := by
  have whole := congrArg List.length cuts.whole
  rw [List.length_append] at whole
  cases cuts with
  | start => exact List.length_pos_of_ne_nil filled
  | more cuts _ found =>
    have short := (largestCut_some found).2.1
    rw [List.length_drop] at whole
    omega

theorem Cuts.seen (filled : join [one] ≠ []) (true' : ∀ place < (join [one]).length, falseFence (join [one]) place = false)
    (cuts : Cuts one fits pieces rest) :
    ∀ block ∈ fencedBlocks (join [one]), pieces.flatten.length < block.2 → block ∈ blocksFrom (join [one]) pieces.flatten.length := by
  induction cuts with
  | start =>
    intro block has _
    rw [List.flatten_nil,List.length_nil,blocksFrom_start]
    exact has
  | more cuts unfit found ih =>
    have short := (cuts.more unfit found).short filled
    apply block_seen short (true' _ short)
    intro block has
    exact cuts.outside found (ih block has)

-- In a text where no rest of a line reads as a fence, no block is lost from sight.
theorem keepsSight_of_true_fences (monotone : MonotoneOnPieces one fits)
    (true' : ∀ place < (join [one]).length, falseFence (join [one]) place = false) : KeepsSight one fits := by
  intro unfit place comes _ block has ahead
  have filled : join [one] ≠ [] := by
    intro none'
    rw [none'] at has
    cases has
  obtain ⟨pieces,cuts,length⟩ := (comes_iff monotone filled unfit place).mp comes
  subst length
  exact cuts.seen filled true' block has ahead

theorem Cuts.earlier {front back : List Text} (cuts : Cuts one fits pieces rest) (split : pieces = front ++ back) : ∃ rest, Cuts one fits front rest := by
  induction cuts generalizing back with
  | start unfit =>
    have none' := (List.append_eq_nil_iff.mp split.symm).1
    exact ⟨_,none' ▸ Cuts.start unfit⟩
  | @more pieces rest cut cuts unfit found ih =>
    rcases List.eq_nil_or_concat back with none' | ⟨before,last,some'⟩
    · subst none'
      rw [List.append_nil] at split
      exact ⟨_,split ▸ cuts.more unfit found⟩
    · subst some'
      rw [List.concat_eq_append,←List.append_assoc] at split
      exact ih (List.append_inj' split rfl).1

-- Where one chunk ends and the next begins, in the section's own text.
def Boundary (chunks : List Section) (place : Nat) : Prop :=
  ∃ front back, chunks = front ++ back ∧ front ≠ [] ∧ back ≠ [] ∧ place = (join front).length

def KeepsBlocks (one : Section) (chunks : List Section) : Prop :=
  ∀ place, Boundary chunks place → ∀ block ∈ fencedBlocks (join [one]), ¬(block.1 < place ∧ place < block.2)

theorem chunksOf_front {front back : List Section} (split : chunksOf one pieces = front ++ back) :
    ∃ first later, pieces = first ++ later ∧ front = chunksOf one first ∧ back.length = later.length := by
  have length : pieces.length = front.length+back.length := by
    have same : (chunksOf one pieces).length = pieces.length := by cases pieces <;> simp [chunksOf]
    rw [←same,split,List.length_append]
  refine ⟨pieces.take front.length,pieces.drop front.length,(List.take_append_drop _ _).symm,?_,by rw [List.length_drop]; omega⟩
  have taken : (chunksOf one pieces).take front.length = front := by rw [split,List.take_left]
  rw [←taken]
  cases pieces with
  | nil => simp [chunksOf]
  | cons start others =>
    cases front with
    | nil => simp [chunksOf]
    | cons one front => simp [chunksOf,List.map_take]

-- No cut falls inside a block when no block is lost from sight; where one is, the loop
-- cuts what it is lost from.
theorem a_cut_falls_inside_no_block (one : Section) (fits : Section → Bool) (monotone : MonotoneOnPieces one fits) :
    (KeepsSight one fits → ∃ answer, Returns (fun fuel => fit fuel one fits) answer ∧ ∀ chunks, answer = .ok chunks → KeepsBlocks one chunks) ∧
      (¬KeepsSight one fits → LosesSight one fits) := by
  constructor
  · intro sight
    obtain ⟨answer,returns,outcome⟩ := fit_ends one fits
    refine ⟨answer,returns,?_⟩
    intro chunks same place boundary block has
    obtain ⟨front,back,split,filled,filled',ends⟩ := boundary
    cases outcome with
    | whole =>
      cases same
      cases front with
      | nil => exact absurd rfl filled
      | cons first front =>
        cases back with
        | nil => exact absurd rfl filled'
        | cons last back => simp at split
    | @cut pieces rest cuts _ =>
      cases same
      obtain ⟨first,later,parts,made,length⟩ := chunksOf_front split
      -- The front takes whole pieces off, for the last chunk is among the back.
      have within : ∃ back', pieces = first ++ back' := by
        rcases List.eq_nil_or_concat later with none' | ⟨before,last,some'⟩
        · rw [none'] at length
          exact absurd (List.length_eq_zero_iff.mp length) filled'
        · subst some'
          rw [List.concat_eq_append,←List.append_assoc] at parts
          exact ⟨before,(List.append_inj' parts rfl).1⟩
      obtain ⟨back',parts'⟩ := within
      obtain ⟨left,cuts'⟩ := cuts.earlier parts'
      rw [ends,made,chunksOf_join cuts'.words]
      exact cuts'.boundary monotone sight has
    | refused => cases same
  · intro blind
    unfold KeepsSight at blind
    push Not at blind
    obtain ⟨unfit,place,comes,unfit',block,has,ahead,lost⟩ := blind
    have filled : join [one] ≠ [] := by
      intro none'
      rw [none'] at has
      cases has
    obtain ⟨pieces,cuts,length⟩ := (comes_iff monotone filled unfit place).mp comes
    have first := cuts.first
    rw [length] at first
    refine ⟨pieces,_,cuts,?_,block,has,by rw [length]; exact ahead,by rw [length]; exact lost⟩
    rw [first]
    exact unfit'

def blockBelow : Section := sectionOf "xxxxxxxxxxxx\n```\nb\n```\nyyyy\n".toList 0

-- A long line is cut, then the block is taken whole, then what follows it.
theorem a_block_is_kept_whole :
    ∃ answer, Returns (fun fuel => fit fuel blockBelow (textUpTo 10)) answer ∧ ∀ chunks, answer = .ok chunks → KeepsBlocks blockBelow chunks := by
  have monotone := (textUpTo_monotone 10).onPieces blockBelow
  have true' : ∀ place < (join [blockBelow]).length, falseFence (join [blockBelow]) place = false := by decide +kernel
  exact (a_cut_falls_inside_no_block blockBelow (textUpTo 10) monotone).1 (keepsSight_of_true_fences monotone true')

def ticksBehind : Section := sectionOf "xxxxxxxxxx```\n```\ncode\ncode\n```\n".toList 0

-- The first cut leaves the ticks of a long line in front, which the block's own opening
-- line then closes.
theorem a_cut_falls_inside_a_block : split "xxxxxxxxxx```\n```\ncode\ncode\n```\n".toList = .ok [ticksBehind] ∧ ContainmentMonotone (textUpTo 10) ∧
    ¬∃ answer, Returns (fun fuel => fit fuel ticksBehind (textUpTo 10)) answer ∧ ∀ chunks, answer = .ok chunks → KeepsBlocks ticksBehind chunks := by
  refine ⟨by decide +kernel,textUpTo_monotone 10,?_⟩
  intro kept
  obtain ⟨answer,returns,keeps⟩ := kept
  have ran : fit 40 ticksBehind (textUpTo 10) = some (.ok (chunksOf ticksBehind
      ["xxxxxxxxxx".toList,"```\n```\n".toList,"code\ncode\n".toList,"```\n".toList])) := by decide +kernel
  have right := keeps _ (returns.unique (Returns.of_more fit_more ran))
  have boundary : Boundary (chunksOf ticksBehind ["xxxxxxxxxx".toList,"```\n```\n".toList,"code\ncode\n".toList,"```\n".toList]) 18 :=
    ⟨chunksOf ticksBehind ["xxxxxxxxxx".toList,"```\n```\n".toList],["code\ncode\n".toList,"```\n".toList].map (asChunk ticksBehind false),
      rfl,by simp [chunksOf],by simp,by decide +kernel⟩
  exact right 18 boundary (14,32) (by decide +kernel) ⟨by decide,by decide⟩

end Document
