import Jojobot.Library.Bisect
import Jojobot.Library.Lasso
import Jojobot.Memory.Document.Sections

namespace Document
open Library

-- The ranges of the fenced blocks, each from its opening line to behind its closing one.
def fencedBlocksFrom : Option (Char × Nat × Nat) → Nat → List Text → List (Nat × Nat)
  | _,_,[] => []
  | fence,offset,raw :: rest =>
    match fence,fenceOf (bare raw) with
    | none,some (c,run,_) => fencedBlocksFrom (some (c,run,offset)) (offset+raw.length) rest
    | some (c,run,start),some (other,length,behind) =>
      if other = c ∧ length ≥ run ∧ trim behind = [] then (start,offset+raw.length) :: fencedBlocksFrom none (offset+raw.length) rest
      else fencedBlocksFrom (some (c,run,start)) (offset+raw.length) rest
    | none,none => fencedBlocksFrom none (offset+raw.length) rest
    | some held,none => fencedBlocksFrom (some held) (offset+raw.length) rest

def fencedBlocks (text : Text) : List (Nat × Nat) := fencedBlocksFrom none 0 (splitInclusive text)

structure TooBig where
  unit : Section
  fenced : Bool
deriving DecidableEq

-- How much whitespace a text begins with.
def firstText (text : Text) : Nat := text.length-(trimStart text).length

def slice (text : Text) (block : Nat × Nat) : Text := (text.drop block.1).take (block.2-block.1)

def tooBig (rest : Text) : TooBig :=
  match (fencedBlocks rest).find? fun block => block.1 = firstText rest with
  | some block => ⟨{ sectionOf (slice rest block) 0 with continues := true },true⟩
  | none => ⟨{ sectionOf [((rest.drop (firstText rest)).head?).getD ' '] 0 with continues := true },false⟩

def lineFeeds (text : Text) : List Nat := (List.range text.length).filter fun place => text[place]? = some '\n'

def blankLineEnds (text : Text) : List Nat :=
  ((lineFeeds text).filter fun place =>
      ((text.drop (place+1)).dropWhile fun c => c = ' ' ∨ c = '\t' ∨ c = '\r').head? = some '\n').map
    fun place => place+1+firstText (text.drop (place+1))

def lineEnds (text : Text) : List Nat := (lineFeeds text).map (· + 1)

def characters (text : Text) : List Nat := (List.range text.length).map (· + 1)

def inside (place : Nat) (block : Nat × Nat) : Bool := block.1 < place && place < block.2

def candidates (text : Text) (tier : List Nat) : List Nat :=
  (tier.filter fun place => decide (place < text.length) && decide (firstText text < place) && decide (trim (text.take place) ≠ [])).filter
    fun place => !(fencedBlocks text).any (inside place)

def lastPassing (text : Text) (passes : Text → Bool) (places : List Nat) : Option Nat :=
  match bisect (fun middle => passes (text.take (places[middle]?.getD 0))) places.length 0 places.length with
  | 0 => none
  | low+1 => places[low]?

def largestCut (text : Text) (passes : Text → Bool) : Option Nat :=
  [blankLineEnds text,lineEnds text,characters text].findSome? fun tier => lastPassing text passes (candidates text tier)

-- The first chunk keeps the section's level and what it carries on; a later one has neither.
def asChunk (one : Section) (first : Bool) (raw : Text) : Section :=
  { sectionOf raw (if first then one.level else 0) with continues := if first then one.continues else true }

-- The source loops until what is left fits or no cut does; `fuel` bounds the cuts.
def fitFrom (one : Section) (fits : Section → Bool) : Nat → List Section → Text → Option (Except TooBig (List Section))
  | 0,_,_ => none
  | fuel+1,chunks,rest =>
    if fits (asChunk one chunks.isEmpty rest) then some (.ok (chunks ++ [asChunk one chunks.isEmpty rest]))
    else
      match largestCut rest fun front => fits (asChunk one chunks.isEmpty front) with
      | none => some (.error (tooBig rest))
      | some cut => fitFrom one fits fuel (chunks ++ [asChunk one chunks.isEmpty (rest.take cut)]) (rest.drop cut)

def fit (fuel : Nat) (one : Section) (fits : Section → Bool) : Option (Except TooBig (List Section)) :=
  if fits one then some (.ok [one]) else fitFrom one fits fuel [] (join [one])

-- The pieces the cuts have taken off a section's text, and what they left.
inductive Cuts (one : Section) (fits : Section → Bool) : List Text → Text → Prop where
  | start : fits one = false → Cuts one fits [] (join [one])
  | more {pieces : List Text} {rest : Text} {cut : Nat} : Cuts one fits pieces rest → fits (asChunk one pieces.isEmpty rest) = false →
      largestCut rest (fun front => fits (asChunk one pieces.isEmpty front)) = some cut →
      Cuts one fits (pieces ++ [rest.take cut]) (rest.drop cut)

def chunksOf (one : Section) : List Text → List Section
  | [] => []
  | first :: later => asChunk one true first :: later.map (asChunk one false)

variable {one : Section} {fits : Section → Bool} {pieces : List Text} {rest text raw : Text} {cut place fuel : Nat} {tier places : List Nat}
  {passes : Text → Bool}

theorem chunksOf_isEmpty (one : Section) (pieces : List Text) : (chunksOf one pieces).isEmpty = pieces.isEmpty := by
  cases pieces <;> rfl

theorem chunksOf_snoc (one : Section) (pieces : List Text) (last : Text) :
    chunksOf one (pieces ++ [last]) = chunksOf one pieces ++ [asChunk one pieces.isEmpty last] := by
  cases pieces <;> simp [chunksOf]

theorem firstText_parts (text : Text) : ∃ lead, text = lead ++ trimStart text ∧ lead.length = firstText text ∧ ∀ c ∈ lead, isWhitespace c = true := by
  have parts : text.takeWhile isWhitespace ++ trimStart text = text := List.takeWhile_append_dropWhile
  refine ⟨text.takeWhile isWhitespace,parts.symm,?_,fun c => List.mem_takeWhile_imp⟩
  have total := congrArg List.length parts
  rw [List.length_append] at total
  unfold firstText
  omega

theorem take_firstText (text : Text) : trim (text.take (firstText text)) = [] := by
  obtain ⟨lead,parts,length,white⟩ := firstText_parts text
  apply trim_nil_iff.mpr
  rw [←length,parts,List.take_left]
  exact white

theorem drop_firstText (text : Text) : text.drop (firstText text) = trimStart text := by
  obtain ⟨lead,parts,length,_⟩ := firstText_parts text
  conv_lhs => rw [←length,parts]
  exact List.drop_left

theorem mem_candidates : place ∈ candidates text tier ↔ place ∈ tier ∧ (place < text.length ∧ firstText text < place ∧ trim (text.take place) ≠ []) ∧
    ∀ block ∈ fencedBlocks text, ¬(block.1 < place ∧ place < block.2) := by
  unfold candidates inside
  rw [List.mem_filter,List.mem_filter]
  simp [and_assoc]

theorem lastPassing_cases (text : Text) (passes : Text → Bool) (places : List Nat) :
    (∃ cut low, lastPassing text passes places = some cut ∧ places[low]? = some cut ∧ passes (text.take cut) = true ∧
        ∀ next, places[low+1]? = some next → passes (text.take next) = false) ∨
      (lastPassing text passes places = none ∧ ∀ first, places.head? = some first → passes (text.take first) = false) := by
  have answers := bisect_answers (fun middle => passes (text.take (places[middle]?.getD 0))) (by omega : places.length-0 ≤ places.length)
    (Nat.zero_le _) (Or.inl rfl) (Or.inl rfl)
  unfold lastPassing
  cases low : bisect (fun middle => passes (text.take (places[middle]?.getD 0))) places.length 0 places.length with
  | zero =>
    rw [low] at answers
    refine Or.inr ⟨rfl,?_⟩
    intro first head
    cases places with
    | nil => cases head
    | cons one rest =>
      cases head
      simpa using answers.2.1
  | succ low' =>
    rw [low] at answers
    have within : low' < places.length := by omega
    have at' : places[low']? = some places[low'] := List.getElem?_eq_getElem within
    refine Or.inl ⟨places[low'],low',at',at',?_,?_⟩
    · simpa [at'] using answers.1
    · intro next found
      rcases answers.2.1 with last | failed
      · rw [last,List.getElem?_eq_none (Nat.le_refl _)] at found
        cases found
      · simpa [found] using failed

theorem lastPassing_some (found : lastPassing text passes places = some cut) : cut ∈ places ∧ passes (text.take cut) = true := by
  rcases lastPassing_cases text passes places with ⟨other,low,same,at',passed,_⟩ | ⟨missing,_⟩
  · cases found.symm.trans same
    exact ⟨List.mem_of_getElem? at',passed⟩
  · cases found.symm.trans missing

theorem lastPassing_none (missing : lastPassing text passes places = none) :
    ∀ first, places.head? = some first → passes (text.take first) = false := by
  rcases lastPassing_cases text passes places with ⟨other,low,same,_⟩ | ⟨_,failed⟩
  · cases missing.symm.trans same
  · exact failed

theorem largestCut_some (found : largestCut text passes = some cut) : passes (text.take cut) = true ∧
    cut < text.length ∧ firstText text < cut ∧ trim (text.take cut) ≠ [] ∧ ∀ block ∈ fencedBlocks text, ¬(block.1 < cut ∧ cut < block.2) := by
  obtain ⟨tier,_,last⟩ := List.exists_of_findSome?_eq_some found
  obtain ⟨among,passed⟩ := lastPassing_some last
  obtain ⟨_,⟨short,past,words⟩,outside⟩ := mem_candidates.mp among
  exact ⟨passed,short,past,words,outside⟩

theorem largestCut_none (missing : largestCut text passes = none) (among : tier ∈ [blankLineEnds text,lineEnds text,characters text])
    (head : (candidates text tier).head? = some place) : passes (text.take place) = false := by
  have each := List.findSome?_eq_none_iff.mp missing tier among
  exact lastPassing_none each place head

theorem Cuts.unfit (cuts : Cuts one fits pieces rest) : fits one = false := by
  induction cuts with
  | start unfit => exact unfit
  | more _ _ _ ih => exact ih

theorem Cuts.whole (cuts : Cuts one fits pieces rest) : pieces.flatten ++ rest = join [one] := by
  induction cuts with
  | start => rfl
  | more _ _ _ ih => simpa using ih

theorem Cuts.words (cuts : Cuts one fits pieces rest) : ∀ piece ∈ pieces, trim piece ≠ [] := by
  induction cuts with
  | start =>
    intro piece has
    cases has
  | more _ _ found ih =>
    intro piece has
    rcases List.mem_append.mp has with old | last
    · exact ih piece old
    · cases List.mem_singleton.mp last
      exact (largestCut_some found).2.2.2.1

theorem Cuts.fitting (cuts : Cuts one fits pieces rest) : ∀ chunk ∈ chunksOf one pieces, fits chunk = true := by
  induction cuts with
  | start =>
    intro chunk has
    cases has
  | more _ _ found ih =>
    intro chunk has
    rw [chunksOf_snoc] at has
    rcases List.mem_append.mp has with old | last
    · exact ih chunk old
    · cases List.mem_singleton.mp last
      exact (largestCut_some found).1

-- Steps that hold each cut of one of them hold the whole run.
theorem Cuts.among (cuts : Cuts one fits pieces rest) (steps : List (List Text × Text)) (start : ([],join [one]) ∈ steps)
    (closed : ∀ step ∈ steps, fits (asChunk one step.1.isEmpty step.2) = true ∨
      ∀ cut ∈ largestCut step.2 (fun front => fits (asChunk one step.1.isEmpty front)),
        (step.1 ++ [step.2.take cut],step.2.drop cut) ∈ steps) : (pieces,rest) ∈ steps := by
  induction cuts with
  | start => exact start
  | more _ unfit found ih =>
    rcases closed _ ih with fitting | next
    · rw [fitting] at unfit
      cases unfit
    · exact next _ found

-- What the loop does from what some cuts left, the whole call does.
theorem Cuts.runs {answer : Except TooBig (List Section)} (cuts : Cuts one fits pieces rest)
    (ran : fitFrom one fits fuel (chunksOf one pieces) rest = some answer) : ∃ fuel, fit fuel one fits = some answer := by
  induction cuts generalizing fuel with
  | start unfit => exact ⟨fuel,by simpa [fit,unfit,chunksOf] using ran⟩
  | @more pieces rest cut cuts unfit found ih =>
    rw [chunksOf_snoc] at ran
    have before : fitFrom one fits (fuel+1) (chunksOf one pieces) rest = some answer := by
      rw [fitFrom,chunksOf_isEmpty,unfit,found]
      exact ran
    exact ih before

-- The loop ends where what is left fits, or where no cut of it does.
theorem fitFrom_ends (cuts : Cuts one fits pieces rest) (enough : rest.length < fuel) :
    ∃ pieces' rest', Cuts one fits pieces' rest' ∧
      (fits (asChunk one pieces'.isEmpty rest') = true ∧
          fitFrom one fits fuel (chunksOf one pieces) rest = some (.ok (chunksOf one (pieces' ++ [rest']))) ∨
        fits (asChunk one pieces'.isEmpty rest') = false ∧
          largestCut rest' (fun front => fits (asChunk one pieces'.isEmpty front)) = none ∧
          fitFrom one fits fuel (chunksOf one pieces) rest = some (.error (tooBig rest'))) := by
  induction fuel generalizing pieces rest with
  | zero => omega
  | succ fuel ih =>
    unfold fitFrom
    rw [chunksOf_isEmpty]
    by_cases whole : fits (asChunk one pieces.isEmpty rest) = true
    · exact ⟨pieces,rest,cuts,Or.inl ⟨whole,by rw [if_pos whole,chunksOf_snoc]⟩⟩
    · have unfit : fits (asChunk one pieces.isEmpty rest) = false := by simpa using whole
      rw [if_neg whole]
      cases found : largestCut rest fun front => fits (asChunk one pieces.isEmpty front) with
      | none => exact ⟨pieces,rest,cuts,Or.inr ⟨unfit,found,rfl⟩⟩
      | some cut =>
        obtain ⟨_,short,past,_,_⟩ := largestCut_some found
        have shorter : (rest.drop cut).length < fuel := by
          rw [List.length_drop]
          omega
        have next := ih (cuts.more unfit found) shorter
        rw [chunksOf_snoc] at next
        exact next

theorem fitFrom_more {answer : Except TooBig (List Section)} {chunks : List Section} (ran : fitFrom one fits fuel chunks rest = some answer) :
    fitFrom one fits (fuel+1) chunks rest = some answer := by
  induction fuel generalizing chunks rest with
  | zero => cases ran
  | succ fuel ih =>
    unfold fitFrom at ran ⊢
    split
    · rename_i whole
      rwa [if_pos whole] at ran
    · rename_i whole
      rw [if_neg whole] at ran
      cases found : largestCut rest fun front => fits (asChunk one chunks.isEmpty front) with
      | none => simpa only [found] using ran
      | some cut =>
        simp only [found] at ran ⊢
        exact ih ran

theorem fit_more {answer : Except TooBig (List Section)} (fuel : Nat) (ran : fit fuel one fits = some answer) :
    fit (fuel+1) one fits = some answer := by
  unfold fit at ran ⊢
  split
  · rename_i whole
    rwa [if_pos whole] at ran
  · rename_i whole
    rw [if_neg whole] at ran
    exact fitFrom_more ran

-- How a call can end: the section fits, its pieces do, or no cut of what is left does.
inductive Outcome (one : Section) (fits : Section → Bool) : Except TooBig (List Section) → Prop where
  | whole : fits one = true → Outcome one fits (.ok [one])
  | cut {pieces : List Text} {rest : Text} : Cuts one fits pieces rest → fits (asChunk one pieces.isEmpty rest) = true →
      Outcome one fits (.ok (chunksOf one (pieces ++ [rest])))
  | refused {pieces : List Text} {rest : Text} : Cuts one fits pieces rest → fits (asChunk one pieces.isEmpty rest) = false →
      largestCut rest (fun front => fits (asChunk one pieces.isEmpty front)) = none → Outcome one fits (.error (tooBig rest))

theorem fit_ends (one : Section) (fits : Section → Bool) :
    ∃ answer, Returns (fun fuel => fit fuel one fits) answer ∧ Outcome one fits answer := by
  by_cases whole : fits one = true
  · exact ⟨.ok [one],⟨0,fun fuel _ => by simp [fit,whole]⟩,.whole whole⟩
  · have unfit : fits one = false := by simpa using whole
    obtain ⟨pieces,rest,cuts,ended⟩ := fitFrom_ends (Cuts.start unfit) (Nat.lt_succ_self (join [one]).length)
    rcases ended with ⟨fitting,ran⟩ | ⟨unfit',missing,ran⟩
    · exact ⟨_,Returns.of_more fit_more (by simpa [fit,unfit,chunksOf] using ran),.cut cuts fitting⟩
    · exact ⟨_,Returns.of_more fit_more (by simpa [fit,unfit,chunksOf] using ran),.refused cuts unfit' missing⟩

-- A run has one way to end, so what some cuts leave settles it.
theorem Cuts.returns_ok (cuts : Cuts one fits pieces rest) (fitting : fits (asChunk one pieces.isEmpty rest) = true) :
    Returns (fun fuel => fit fuel one fits) (.ok (chunksOf one (pieces ++ [rest]))) := by
  have last : fitFrom one fits 1 (chunksOf one pieces) rest = some (.ok (chunksOf one (pieces ++ [rest]))) := by
    rw [fitFrom,chunksOf_isEmpty,if_pos fitting,chunksOf_snoc]
  obtain ⟨fuel,ran⟩ := cuts.runs last
  exact Returns.of_more fit_more ran

theorem Cuts.returns_error (cuts : Cuts one fits pieces rest) (unfit : fits (asChunk one pieces.isEmpty rest) = false)
    (missing : largestCut rest (fun front => fits (asChunk one pieces.isEmpty front)) = none) :
    Returns (fun fuel => fit fuel one fits) (.error (tooBig rest)) := by
  have last : fitFrom one fits 1 (chunksOf one pieces) rest = some (.error (tooBig rest)) := by
    rw [fitFrom,chunksOf_isEmpty,unfit,missing]
    rfl
  obtain ⟨fuel,ran⟩ := cuts.runs last
  exact Returns.of_more fit_more ran

end Document
