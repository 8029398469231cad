import Jojobot.Memory.Document.Seam.Kept

namespace Document
open Library

variable {text tail lead front behind gap carried raw : Text} {one other : Section} {lines more : List Text}
  {pieces : List (Text × Nat)} {level n m : Nat}

-- Where a mended seam leaves a tail's indent and a lead's on one line, the heading's indent
-- has to allow for both.
def Flush (tail lead : Text) : Prop :=
  lead = [] ∨ '\n' ∈ lead ∨ tail.count '\n' < 2 ∨ ∃ n ≤ 3, lastLine tail ++ lead = List.replicate n ' '

def feeds (tail lead : Text) : Text := List.replicate (lineFeedsNeeded tail lead true) '\n'

theorem getLast?_feed (run : Text) (count : 0 < n) : (run ++ List.replicate n '\n').getLast? = some '\n' := by
  obtain ⟨n,rfl⟩ := Nat.exists_eq_add_one_of_ne_zero (Nat.ne_of_gt count)
  rw [List.replicate_succ',←List.append_assoc,List.getLast?_concat]

theorem count_spaces (n : Nat) : (List.replicate n ' ').count '\n' = 0 :=
  List.count_replicate.trans (if_neg (by decide))

-- A mended seam: whitespace that ends in a line feed and holds two, and the heading's indent.
theorem seam_shape (clean : ¬LoneReturn (text ++ tail)) (ends : carried = [] ∨ carried.getLast? = some '\n') (few : m ≤ 3)
    (flush : Flush tail (carried ++ List.replicate m ' ')) :
    ∃ gap n, n ≤ 3 ∧ tail ++ (feeds tail (carried ++ List.replicate m ' ') ++ (carried ++ List.replicate m ' ')) = gap ++ List.replicate n ' ' ∧
      gap.getLast? = some '\n' ∧ 2 ≤ gap.count '\n' := by
  have held : 2 ≤ tail.count '\n'+carried.count '\n'+lineFeedsNeeded tail (carried ++ List.replicate m ' ') true := by
    unfold lineFeedsNeeded
    rw [List.count_append,count_spaces]
    simp only [Bool.true_or,if_true]
    omega
  unfold feeds
  generalize needed : lineFeedsNeeded tail (carried ++ List.replicate m ' ') true = added at held ⊢
  have count : (List.replicate added '\n').count '\n' = added := List.count_replicate_self
  rcases ends with none' | feed
  · subst none'
    rw [List.nil_append] at flush needed ⊢
    rw [List.count_nil] at held
    by_cases positive : 0 < added
    · exact ⟨tail ++ List.replicate added '\n',m,few,by simp,getLast?_feed tail positive,by rw [List.count_append,count]; omega⟩
    · have zero : added = 0 := by omega
      obtain ⟨front,parts,ends,plain⟩ := lastLine_parts tail
      have several : 2 ≤ front.count '\n' := by
        have none'' := List.count_eq_zero.mpr plain
        have total := congrArg (List.count '\n') parts
        rw [List.count_append] at total
        omega
      have feed : front.getLast? = some '\n' := by
        rcases ends with none'' | feed
        · rw [none'',List.count_nil] at several
          omega
        · exact feed
      have spaces : ∃ n ≤ 3, lastLine tail ++ List.replicate m ' ' = List.replicate n ' ' := by
        by_cases flat : m = 0
        · subst flat
          -- Nothing was added, so the tail's last line holds returns alone, and none of them.
          have returns : ∀ c ∈ lastLine tail, c = '\r' := by
            intro c has
            by_contra other
            have indented : (lastLine tail).any (· ≠ '\r') = true := List.any_eq_true.mpr ⟨c,has,by simpa using other⟩
            unfold lineFeedsNeeded at needed
            simp only [indented,List.replicate_zero,List.isEmpty_nil,Bool.and_true,if_true] at needed
            omega
          have nothing : lastLine tail = [] := by
            rcases List.eq_nil_or_concat (lastLine tail) with none'' | ⟨others,last,shape⟩
            · exact none''
            · rw [List.concat_eq_append] at shape
              have return' := returns last (by rw [shape]; simp)
              subst return'
              exact absurd ⟨text ++ front ++ others,[],by rw [parts,shape]; simp,by simp⟩ clean
          exact ⟨0,by omega,by rw [nothing]; rfl⟩
        · rcases flush with none'' | feed' | short | fits
          · simp [flat] at none''
          · simp at feed'
          · omega
          · exact fits
      obtain ⟨n,most,same⟩ := spaces
      refine ⟨front,n,most,?_,feed,several⟩
      rw [zero,←same,List.replicate_zero,List.nil_append,←List.append_assoc,←parts]
  · have filled : carried ≠ [] := by
      intro none'
      rw [none'] at feed
      cases feed
    refine ⟨tail ++ List.replicate added '\n' ++ carried,m,few,by simp,?_,?_⟩
    · rw [List.getLast?_append_of_ne_nil _ filled]
      exact feed
    · rw [List.count_append,List.count_append,count]
      omega

-- Two line feeds leave a line of whitespace behind the words.
theorem blank_line (white : ∀ c ∈ gap, isWhitespace c = true) (feed : gap.getLast? = some '\n') (several : 2 ≤ gap.count '\n') :
    ∃ lines blank, splitInclusive (text ++ gap) = lines ++ [blank] ∧ ∀ c ∈ blank, isWhitespace c = true := by
  obtain ⟨run,rfl⟩ := List.getLast?_eq_some_iff.mp feed
  obtain ⟨front,parts,ends,plain⟩ := lastLine_parts run
  have ends' : text ++ front = [] ∨ (text ++ front).getLast? = some '\n' := by
    rcases ends with none' | feed'
    · rw [none',List.nil_append] at parts
      rw [parts,List.count_append,List.count_eq_zero.mpr plain] at several
      simp at several
    · right
      rw [List.getLast?_append,feed']
      rfl
  have own : splitInclusive (lastLine run ++ ['\n']) = [lastLine run ++ ['\n']] := by
    have lined : LinesOf [lastLine run ++ ['\n']] :=
      linesOf_cons ⟨by simp,fun more => absurd rfl more,by simpa using plain⟩ fun before raw after split => by simp at split
    simpa using splitInclusive_flatten_lines lined
  refine ⟨splitInclusive (text ++ front),lastLine run ++ ['\n'],?_,?_⟩
  · rw [←own,←splitInclusive_behind ends']
    conv_lhs => rw [parts]
    simp
  · intro c has
    apply white c
    rw [parts]
    rcases List.mem_append.mp has with inside | last
    · simp [inside]
    · simp [List.mem_singleton.mp last]

theorem stretches_snoc (text : Text) (first last : Nat × Nat) (cuts : List (Nat × Nat)) :
    ∃ pieces, stretches text (first :: (cuts ++ [last])) = pieces ++ [(text.drop last.1,last.2)] := by
  induction cuts generalizing first with
  | nil => exact ⟨[_],rfl⟩
  | cons next rest ih =>
    obtain ⟨pieces,made⟩ := ih next
    exact ⟨_ :: pieces,by rw [List.cons_append,stretches,made]; rfl⟩

-- A last piece with words is the last section, whatever is carried to it.
theorem gather_last (words : trim raw ≠ []) (pieces : List (Text × Nat)) (carried : Text) :
    ∃ before lead, gather carried (pieces ++ [(raw,level)]) =
      before ++ [{ sectionOf raw level with edges := { (sectionOf raw level).edges with lead := lead } }] ∧
      ((∃ piece ∈ pieces, trim piece.1 ≠ []) → before ≠ []) := by
  induction pieces generalizing carried with
  | nil =>
    refine ⟨[],carried ++ (sectionOf raw level).edges.lead,?_,fun some' => by simp at some'⟩
    rw [List.nil_append,gather,if_neg words,gather]
    rfl
  | cons piece pieces ih =>
    obtain ⟨own,deep⟩ := piece
    rw [List.cons_append,gather]
    split
    · rename_i blank
      obtain ⟨before,lead,made,some'⟩ := ih (carried ++ own)
      refine ⟨before,lead,made,fun found => some' ?_⟩
      obtain ⟨piece,has,words'⟩ := found
      rcases List.mem_cons.mp has with here | later
      · subst here
        exact absurd blank words'
      · exact ⟨piece,later,words'⟩
    · obtain ⟨before,lead,made,_⟩ := ih []
      exact ⟨_ :: before,lead,by rw [made]; rfl,fun _ => List.cons_ne_nil _ _⟩

-- The last heading of a text begins its last section, and words before it make others.
theorem split_last {offset : Nat} {headings : List (Nat × Nat)} (clean : ¬LoneReturn text)
    (starts : headingStarts text = headings ++ [(offset,level)]) (words : trim (text.take offset) ≠ []) (words' : trim (text.drop offset) ≠ []) :
    ∃ before lead, split text = .ok (before ++ [{ sectionOf (text.drop offset) level with
      edges := { (sectionOf (text.drop offset) level).edges with lead := lead } }]) ∧ before ≠ [] := by
  have whole : trim text ≠ [] := by
    intro none'
    apply words
    apply trim_nil_iff.mpr
    intro c has
    exact trim_nil_iff.mp none' c (List.mem_of_mem_take has)
  obtain ⟨top,rest,cuts,ordered,_⟩ := cutsOf_facts whole
  have last : (cutsOf text).getLast? = some (offset,level) := by
    unfold cutsOf
    dsimp only
    rw [starts]
    split
    · rw [List.getLast?_cons,List.getLast?_concat]
      rfl
    · exact List.getLast?_concat
  obtain ⟨cutsFront,shape⟩ := List.getLast?_eq_some_iff.mp last
  obtain ⟨middle,rest'⟩ : ∃ middle, rest = middle ++ [(offset,level)] := by
    rw [cuts] at shape
    cases cutsFront with
    | nil =>
      have zero := congrArg Prod.fst (List.cons.inj shape).1
      change 0 = offset at zero
      rw [←zero,List.take_zero] at words
      exact absurd rfl words
    | cons first middle =>
      cases shape
      exact ⟨middle,rfl⟩
  obtain ⟨pieces,made⟩ := stretches_snoc text (0,top) (offset,level) middle
  rw [←rest'] at made
  have flat := @stretches_flatten text rest (0,top) ordered
  rw [made,List.map_append,List.flatten_append] at flat
  have before : (pieces.map Prod.fst).flatten = text.take offset := by
    have parts := (List.take_append_drop offset text).symm
    exact List.append_cancel_right ((by simpa using flat : (pieces.map Prod.fst).flatten ++ text.drop offset = text).trans parts)
  have someWords : ∃ piece ∈ pieces, trim piece.1 ≠ [] := by
    by_contra blank
    push Not at blank
    apply words
    apply trim_nil_iff.mpr
    intro c has
    rw [←before] at has
    obtain ⟨run,member,inside⟩ := List.mem_flatten.mp has
    obtain ⟨piece,among,rfl⟩ := List.mem_map.mp member
    exact trim_nil_iff.mp (blank piece among) c inside
  obtain ⟨sections,lead,gathered,filled⟩ := @gather_last _ level words' pieces []
  refine ⟨sections,lead,?_,filled someWords⟩
  have noReturn : loneReturnFrom 0 text = none := by
    cases found : loneReturnFrom 0 text with
    | none => rfl
    | some place => exact absurd ((loneReturnFrom_iff 0 text).mp ⟨place,found⟩) clean
  have filled' : text ≠ [] := by
    intro none'
    rw [none'] at whole
    exact whole rfl
  unfold split
  rw [noReturn]
  simp only [if_neg filled',if_neg whole]
  rw [cuts,made,gathered]

-- A heading behind lines that leave no fence and no frontmatter open is the last heading.
theorem starts_behind (ends : front.getLast? = some '\n')
    (closed : fenceBehind (frontmatterEnd (front ++ (raw :: more).flatten)) none 0 (splitInclusive front) = none)
    (past : frontmatterEnd (front ++ (raw :: more).flatten) ≤ front.length) (lined : LinesOf (raw :: more))
    (heading : readLine none (bare raw) = (none,some level)) (quiet : headingStartsFrom 0 none 0 more = []) :
    splitInclusive (front ++ (raw :: more).flatten) = splitInclusive front ++ raw :: more ∧
      ∃ headings, headingStarts (front ++ (raw :: more).flatten) = headings ++ [(front.length,level)] := by
  have apart : splitInclusive (front ++ (raw :: more).flatten) = splitInclusive front ++ raw :: more := by
    rw [splitInclusive_behind (Or.inr ends),splitInclusive_flatten_lines lined]
  have after := (headingStartsFrom_quiet (frontmatterEnd (front ++ (raw :: more).flatten)) none (front.length+raw.length) more (by omega)).mpr quiet
  refine ⟨apart,headingStartsFrom (frontmatterEnd (front ++ (raw :: more).flatten)) none 0 (splitInclusive front),?_⟩
  rw [headingStarts,apart,headingStartsFrom_append,closed,splitInclusive_flatten,Nat.zero_add]
  rw [headingStartsFrom,if_neg (by omega),heading]
  simp only [Option.map_some,Option.toList_some,List.singleton_append]
  rw [after]

-- A section that starts at a heading: its first line, with the indent its lead ends on.
theorem From.headed {group : List Text × Nat} (taken : From text one carried group) (deep : 0 < one.level) :
    ∃ m ≤ 3, ∃ rest more, group.1 = (List.replicate m ' ' ++ '#' :: rest) :: more ∧ group.2 = one.level ∧
      headingLevel (bare (List.replicate m ' ' ++ '#' :: rest)) = some one.level ∧ headingStartsFrom 0 none 0 more = [] ∧
      one.edges.lead = carried ++ List.replicate m ' ' := by
  have same : one.level = group.2 := by
    rw [taken.made]
    rfl
  obtain ⟨raw,more,lines,found,quiet⟩ := taken.heads.headed (same ▸ deep)
  obtain ⟨m,few,rest,shape⟩ := headingLevel_shape found
  obtain ⟨behind,whole⟩ := bare_initial raw
  rw [shape] at whole
  have parts : raw = List.replicate m ' ' ++ '#' :: (rest ++ behind) := by
    rw [←whole]
    simp
  rw [parts] at lines found
  refine ⟨m,few,rest ++ behind,more,lines,same.symm,by rw [same]; exact found,quiet,?_⟩
  rw [taken.made]
  change carried ++ group.1.flatten.take (group.1.flatten.length-(trimStart group.1.flatten).length) = _
  have white : ∀ c ∈ List.replicate m ' ', isWhitespace c = true := by
    intro c has
    rw [(List.mem_replicate.mp has).2]
    rfl
  have trimmed : trimStart group.1.flatten = '#' :: ((rest ++ behind) ++ more.flatten) := by
    rw [lines,List.flatten_cons,List.append_assoc,trimStart_append_white white]
    rfl
  rw [trimmed,lines,List.flatten_cons,List.append_assoc,List.length_append,List.length_replicate]
  congr 1
  exact List.take_left' (by simp)

theorem heading_indent (few : n ≤ 3) (few' : m ≤ 3) {rest : Text}
    (found : headingLevel (bare (List.replicate m ' ' ++ '#' :: rest)) = some level) :
    headingLevel (bare (List.replicate n ' ' ++ '#' :: rest)) = some level ∧
      readLine none (bare (List.replicate n ' ' ++ '#' :: rest)) = (none,some level) := by
  obtain ⟨more,own,first⟩ := bare_front (List.replicate m ' ') rest
  obtain ⟨more',own',second⟩ := bare_front (List.replicate n ' ') rest
  have same : more' = more := List.cons.inj (own'.symm.trans own) |>.2
  subst same
  have level' : headingLevel (bare (List.replicate n ' ' ++ '#' :: rest)) = some level := by
    rw [second,headingLevel_indent few few',←first]
    exact found
  refine ⟨level',?_⟩
  unfold readLine
  rw [second,fenceOf_hash,←second,level']

theorem sectionOf_trim {raw' : Text} (same : trim raw = trim raw') (level : Nat) :
    (sectionOf raw level).firstLine = (sectionOf raw' level).firstLine ∧ (sectionOf raw level).body = (sectionOf raw' level).body := by
  unfold sectionOf
  simp only [same,and_self]

-- The lines of a heading's section do not depend on its indent.
theorem linesOf_indent {rest : Text} (lined : LinesOf ((List.replicate m ' ' ++ '#' :: rest) :: more)) (n : Nat) :
    LinesOf ((List.replicate n ' ' ++ '#' :: rest) :: more) := by
  obtain ⟨_,ends,clean⟩ := lined.first
  refine linesOf_cons ⟨by simp,?_,?_⟩ lined.rest
  · intro some'
    have last := ends some'
    rw [List.getLast?_append_of_ne_nil _ (List.cons_ne_nil _ _)] at last ⊢
    exact last
  · rw [List.dropLast_append_of_ne_nil (List.cons_ne_nil _ _)] at clean ⊢
    intro has
    rcases List.mem_append.mp has with space | inside
    · have := (List.mem_replicate.mp space).2
      cases this
    · exact clean (List.mem_append_right _ inside)

theorem trim_indent (n : Nat) (text : Text) : trim (List.replicate n ' ' ++ text) = trim text := by
  apply trim_append_white
  intro c has
  rw [(List.mem_replicate.mp has).2]
  rfl

-- The joined text is cut back into sections of which the last is the one that came behind, with a
-- blank line before its heading.
def NextStands (joined : Text) (next : Section) : Prop :=
  (∃ before last, split joined = .ok (before ++ [last]) ∧ before ≠ [] ∧
    last.firstLine = next.firstLine ∧ last.body = next.body ∧ last.level = next.level) ∧
  ∃ lines blank heading more, splitInclusive joined = lines ++ blank :: heading :: more ∧ (∀ c ∈ blank, isWhitespace c = true) ∧
    headingLevel (bare heading) = some next.level ∧ trim (heading :: more).flatten = trim next.text

-- Of two frontmatter marks none stands on the other side of the seam: no line of the section
-- behind closes a block, and a block the section before closes stays closed.
def FrontmatterStays (one : Section) (before : Text) (joined : Text) : Prop :=
  frontmatterEnd joined ≤ before.length ∧ (frontmatterEnd one.text ≠ 0 → frontmatterEnd joined ≠ 0)

def mended (one next : Section) : Text := one.text ++ (feeds one.edges.tail next.edges.lead ++ next.text)

theorem mended_stands {source source' : Text} {sections sections' : List Section} {next : Section}
    (accepted : split source = .ok sections) (accepted' : split source' = .ok sections') (has : one ∈ sections) (has' : next ∈ sections')
    (deep : 0 < next.level) (closed : ¬HoldsUnclosedFence one.text) (flush : Flush one.edges.tail next.edges.lead)
    (stays : FrontmatterStays one (one.text ++ feeds one.edges.tail next.edges.lead ++ next.edges.lead) (mended one next)) :
    NextStands (mended one next) next := by
  obtain ⟨carried,group,taken⟩ := split_from accepted has
  obtain ⟨carried',group',taken'⟩ := split_from accepted' has'
  obtain ⟨pre,whole,solid,white⟩ := taken.solid
  obtain ⟨m,few,rest,more,lines,sameLevel,found,quiet,leads⟩ := taken'.headed deep
  have clean := taken.clean (accepted_clean accepted)
  have cleanNext := taken'.clean (accepted_clean accepted')
  rw [leads] at flush stays
  rw [whole] at clean
  obtain ⟨gap,n,few',seam,feed,several⟩ := seam_shape clean taken'.carried_ends few flush
  have headed := heading_indent few' few found
  have lined := linesOf_indent (lines ▸ linesOf_group taken') n
  generalize raws : List.replicate n ' ' ++ '#' :: rest = raw at headed lined
  have joined : mended one next = (pre ++ gap) ++ (raw :: more).flatten := by
    have parts := congrArg (fun run => pre ++ run ++ '#' :: rest ++ more.flatten) seam
    rw [mended,whole,leads,taken'.whole,lines,←raws]
    simpa using parts
  have whiteGap : ∀ c ∈ gap, isWhitespace c = true := by
    intro c member
    have inside : c ∈ one.edges.tail ++ (feeds one.edges.tail (carried' ++ List.replicate m ' ') ++ (carried' ++ List.replicate m ' ')) := by
      rw [seam]
      exact List.mem_append_left _ member
    simp only [List.mem_append,feeds,List.mem_replicate] at inside
    rcases inside with own | ⟨_,rfl⟩ | led | ⟨_,rfl⟩
    · exact white c own
    · rfl
    · exact taken'.blank c led
    · rfl
  have length : (one.text ++ feeds one.edges.tail (carried' ++ List.replicate m ' ') ++ (carried' ++ List.replicate m ' ')).length =
      (pre ++ gap).length+n := by
    have total := congrArg List.length seam
    rw [whole]
    simp only [List.length_append,List.length_replicate] at total ⊢
    omega
  obtain ⟨within,kept⟩ := stays
  rw [length] at within
  rw [joined] at within kept ⊢
  rw [whole] at kept
  have unfenced := fence_kept solid white whiteGap (by rw [←whole]; exact not_not.mp closed) kept
  have ends : (pre ++ gap).getLast? = some '\n' := by
    rw [List.getLast?_append,feed]
    rfl
  have apart := splitInclusive_behind (Or.inr ends) (raw :: more).flatten
  rw [splitInclusive_flatten_lines lined] at apart
  have past : frontmatterEnd ((pre ++ gap) ++ (raw :: more).flatten) ≤ (pre ++ gap).length := by
    by_contra beyond
    have long : n < raw.length := by
      rw [←raws]
      simp
    have filled : splitInclusive (pre ++ gap) ≠ [] := by
      intro none'
      rw [splitInclusive_eq_nil.mp none'] at ends
      cases ends
    have further := frontmatterEnd_line filled apart (by rw [splitInclusive_flatten]; omega)
    rw [splitInclusive_flatten] at further
    omega
  obtain ⟨_,headings,starts⟩ := starts_behind ends unfenced past lined headed.2 quiet
  have core : trim (raw :: more).flatten = trim group'.1.flatten := by
    rw [lines,←raws,List.flatten_cons,List.flatten_cons,List.append_assoc,List.append_assoc,trim_indent,trim_indent]
  have words : trim (raw :: more).flatten ≠ [] := by
    rw [core]
    exact taken'.words
  have unreturned : ¬LoneReturn ((pre ++ gap) ++ (raw :: more).flatten) := by
    rw [←joined,mended]
    refine loneReturn_append (whole ▸ clean) (loneReturn_append ?_ cleanNext)
    intro lone
    obtain ⟨first,after,parts,_⟩ := lone
    have inside : '\r' ∈ feeds one.edges.tail next.edges.lead := by
      rw [parts]
      simp
    have := (List.mem_replicate.mp inside).2
    cases this
  have solidFront : trim (((pre ++ gap) ++ (raw :: more).flatten).take (pre ++ gap).length) ≠ [] := by
    obtain ⟨c,last,plain⟩ := solid
    rw [List.take_left]
    exact trim_ne_nil (List.mem_append_left _ (List.mem_of_getLast? last)) plain
  obtain ⟨before,lead,cut,filled⟩ := split_last unreturned starts solidFront (by rw [List.drop_left]; exact words)
  rw [List.drop_left] at cut
  obtain ⟨firstLine,body⟩ := sectionOf_trim core next.level
  obtain ⟨blanks,blank,blankLines,isBlank⟩ := @blank_line pre gap whiteGap feed several
  refine ⟨⟨before,_,cut,filled,?_,?_,rfl⟩,blanks,blank,raw,more,by rw [apart,blankLines]; simp,isBlank,headed.1,?_⟩
  · rw [firstLine,←sameLevel]
    conv_rhs => rw [taken'.made]
  · rw [body,←sameLevel]
    conv_rhs => rw [taken'.made]
  · rw [core,taken'.whole,trim_append_white taken'.blank]

-- Either side of the seam can carry the line feeds.
theorem a_mended_seam_keeps_the_heading {source source' : Text} {sections sections' : List Section} {next : Section}
    (accepted : split source = .ok sections) (accepted' : split source' = .ok sections') (has : one ∈ sections) (has' : next ∈ sections')
    (deep : 0 < next.level) (closed : ¬HoldsUnclosedFence one.text) (flush : Flush one.edges.tail next.edges.lead)
    (stays : FrontmatterStays one (one.text ++ feeds one.edges.tail next.edges.lead ++ next.edges.lead) (mended one next)) :
    NextStands (join [one,{ next with edges := { next.edges with lead := leadBehind (some one.edges.tail) next.edges.lead } }]) next ∧
    NextStands (join [{ one with edges := { one.edges with tail := tailBefore one.edges.tail (some next.edges.lead) } },next]) next := by
  have stands := mended_stands accepted accepted' has has' deep closed flush stays
  have first : join [one,{ next with edges := { next.edges with lead := leadBehind (some one.edges.tail) next.edges.lead } }] =
      mended one next := by
    simp [join,Section.text,leadBehind,mended,feeds]
  have second : join [{ one with edges := { one.edges with tail := tailBefore one.edges.tail (some next.edges.lead) } },next] =
      mended one next := by
    simp [join,Section.text,tailBefore,mended,feeds]
  rw [first,second]
  exact ⟨stands,stands⟩

def wordsOnly : Section := ⟨['a'],0,[],⟨[],[],[],['\n']⟩,false⟩
def headingOnly : Section := ⟨['#',' ','H'],1,[],⟨[' '],[],[],[]⟩,false⟩

theorem a_line_feed_is_added : NextStands (join [wordsOnly,{ headingOnly with edges := { headingOnly.edges with
      lead := leadBehind (some wordsOnly.edges.tail) headingOnly.edges.lead } }]) headingOnly ∧
    NextStands (join [{ wordsOnly with edges := { wordsOnly.edges with
      tail := tailBefore wordsOnly.edges.tail (some headingOnly.edges.lead) } },headingOnly]) headingOnly :=
  @a_mended_seam_keeps_the_heading wordsOnly ['a','\n'] [' ','#',' ','H'] [wordsOnly] [headingOnly] headingOnly rfl rfl
    List.mem_cons_self List.mem_cons_self (by decide) (fun held => held rfl) (Or.inr (Or.inr (Or.inl (by decide))))
    ⟨by decide,fun open' => absurd rfl open'⟩

-- A line of the section behind closes the frontmatter the section before opens.
theorem a_mark_behind_closes_the_block : ∃ one next : Section, split "---\nwords".toList = .ok [one] ∧
    split "# H\ntext\n---\n".toList = .ok [next] ∧ 0 < next.level ∧ ¬HoldsUnclosedFence one.text ∧
    ¬NextStands (join [one,{ next with edges := { next.edges with lead := leadBehind (some one.edges.tail) next.edges.lead } }]) next := by
  refine ⟨_,_,rfl,rfl,by decide,fun held => held rfl,?_⟩
  intro stands
  obtain ⟨⟨before,last,cut,filled,_⟩,_⟩ := stands
  have one : ∃ whole, Document.split "---\nwords\n\n# H\ntext\n---\n".toList = .ok [whole] := ⟨_,rfl⟩
  obtain ⟨whole,made⟩ := one
  have same : before ++ [last] = [whole] := Except.ok.inj (cut.symm.trans made)
  have length := congrArg List.length same
  rw [List.length_append] at length
  exact filled (List.length_eq_zero_iff.mp (by simpa using length))

end Document
