import Jojobot.Memory.Document

namespace Document
open Library Std Memory

variable {text raw line : Text} {one : Section} {level offset : Nat}

-- What a line's fence and heading are read off starts at the line's own characters.
theorem bare_initial (raw : Text) : bare raw <+: raw :=
  (stripSuffix_initial '\r' _).trans (stripSuffix_initial '\n' raw)

theorem headingLevel_bounds (found : headingLevel line = some level) : '#' ∈ line ∧ level ≤ 6 := by
  unfold headingLevel at found
  dsimp only at found
  split at found
  · cases found
  · split at found
    · cases found
    · rename_i counted
      have sized : 1 ≤ level ∧ level ≤ 6 ∧
          ((line.drop (line.takeWhile (· = ' ')).length).takeWhile (· = '#')).length = level := by
        split at found
        all_goals first
          | cases found; simp only [not_not] at counted; exact ⟨counted.1,counted.2,rfl⟩
          | cases found
      obtain ⟨least,most,run⟩ := sized
      obtain ⟨c,rest,shape⟩ := List.exists_cons_of_length_pos (by rw [run]; exact least)
      have first : c ∈ (line.drop (line.takeWhile (· = ' ')).length).takeWhile (· = '#') := by simp [shape]
      have hash : c = '#' := by simpa using List.mem_takeWhile_imp first
      subst hash
      exact ⟨List.mem_of_mem_drop ((List.takeWhile_prefix _).mem first),most⟩

theorem readLine_heading {fence : Option (Char × Nat)} (found : (readLine fence line).2 = some level) :
    headingLevel line = some level := by
  unfold readLine at found
  split at found
  · cases found
  · split at found <;> cases found
  · exact found
  · cases found

theorem headingStartsFrom_cons (frontmatter : Nat) (fence : Option (Char × Nat)) (offset : Nat) (raw : Text)
    (rest : List Text) : ∃ behind, headingStartsFrom frontmatter fence offset (raw :: rest) =
      (if offset < frontmatter then [] else ((readLine fence (bare raw)).2.map (offset,·)).toList) ++
        headingStartsFrom frontmatter behind (offset+raw.length) rest := by
  rw [headingStartsFrom]
  split
  · exact ⟨fence,rfl⟩
  · exact ⟨(readLine fence (bare raw)).1,rfl⟩

theorem own_heading {fence : Option (Char × Nat)} {start : Nat × Nat}
    (member : start ∈ if offset < frontmatter then [] else ((readLine fence (bare raw)).2.map (offset,·)).toList) :
    start.1 = offset ∧ headingLevel (bare raw) = some start.2 := by
  split at member
  · cases member
  · simp only [Option.mem_toList,Option.map_eq_some_iff] at member
    obtain ⟨level,read,same⟩ := member
    subst same
    exact ⟨rfl,readLine_heading read⟩

-- A heading stands at or behind the place the scan has come to, its hash is in what
-- the text holds from there on, and the scan finds them in the text's order.
theorem headingStartsFrom_facts (frontmatter : Nat) (fence : Option (Char × Nat)) (lines : List Text) {front : Text}
    (shape : text = front ++ lines.flatten) (reached : front.length = offset) :
    (∀ start ∈ headingStartsFrom frontmatter fence offset lines,
      offset ≤ start.1 ∧ '#' ∈ text.drop start.1 ∧ start.2 ≤ 6) ∧
    (headingStartsFrom frontmatter fence offset lines).Pairwise fun a b => a.1 ≤ b.1 := by
  induction lines generalizing offset front fence with
  | nil =>
    refine ⟨?_,List.Pairwise.nil⟩
    intro start member
    cases member
  | cons raw rest ih =>
    obtain ⟨behind,unfolded⟩ := headingStartsFrom_cons frontmatter fence offset raw rest
    have moved : text = (front ++ raw) ++ rest.flatten := by rw [shape,List.flatten_cons,List.append_assoc]
    obtain ⟨later,ordered⟩ := ih behind moved (by rw [List.length_append,reached])
    rw [unfolded]
    constructor
    · intro start member
      rcases List.mem_append.mp member with own | after
      · obtain ⟨here,read⟩ := own_heading own
        obtain ⟨hash,most⟩ := headingLevel_bounds read
        refine ⟨Nat.le_of_eq here.symm,?_,most⟩
        rw [here,shape,← reached,List.drop_left,List.flatten_cons]
        exact List.mem_append_left _ ((bare_initial raw).mem hash)
      · obtain ⟨past,rest⟩ := later start after
        exact ⟨by omega,rest⟩
    · apply List.pairwise_append.mpr
      refine ⟨?_,ordered,?_⟩
      · split
        · exact List.Pairwise.nil
        · cases (readLine fence (bare raw)).2 <;> simp
      · intro start own other after
        rw [(own_heading own).1]
        have past := (later other after).1
        omega

theorem headingStarts_facts (text : Text) : (∀ start ∈ headingStarts text, '#' ∈ text.drop start.1 ∧ start.2 ≤ 6) ∧
    (headingStarts text).Pairwise fun a b => a.1 ≤ b.1 := by
  have whole : text = [] ++ (splitInclusive text).flatten := by rw [List.nil_append,splitInclusive_flatten]
  obtain ⟨each,ordered⟩ := headingStartsFrom_facts (frontmatterEnd text) none _ whole rfl
  exact ⟨fun start member => (each start member).2,ordered⟩

theorem trim_ne_nil (solid : c ∈ text) (plain : isWhitespace c = false) : trim text ≠ [] := by
  intro empty
  have kept := (mem_trim plain).mpr solid
  rw [empty] at kept
  cases kept

-- The cuts start at the text's first character, and behind each there are words.
theorem cutsOf_facts (words : trim text ≠ []) : ∃ level rest, cutsOf text = (0,level) :: rest ∧
    ((0,level) :: rest).Pairwise (fun a b => a.1 ≤ b.1) ∧
    ∀ cut ∈ (0,level) :: rest, trim (text.drop cut.1) ≠ [] ∧ cut.2 ≤ 6 := by
  obtain ⟨each,ordered⟩ := headingStarts_facts text
  have solid : ∀ cut ∈ headingStarts text, trim (text.drop cut.1) ≠ [] ∧ cut.2 ≤ 6 := fun cut member =>
    ⟨trim_ne_nil (each cut member).1 rfl,(each cut member).2⟩
  unfold cutsOf
  dsimp only
  split
  · refine ⟨0,headingStarts text,rfl,List.pairwise_cons.mpr ⟨fun _ _ => Nat.zero_le _,ordered⟩,?_⟩
    intro cut member
    rcases List.mem_cons.mp member with first | later
    · cases first
      exact ⟨words,Nat.zero_le _⟩
    · exact solid cut later
  · rename_i first
    cases shape : headingStarts text with
    | nil => simp [shape] at first
    | cons head rest =>
      obtain ⟨start,level⟩ := head
      have zero : start = 0 := by simpa [shape] using first
      subst zero
      rw [shape] at ordered solid
      exact ⟨level,rest,rfl,ordered,solid⟩

theorem stretches_flatten (cuts : List (Nat × Nat)) (cut : Nat × Nat)
    (ordered : (cut :: cuts).Pairwise fun a b => a.1 ≤ b.1) :
    ((stretches text (cut :: cuts)).map Prod.fst).flatten = text.drop cut.1 := by
  induction cuts generalizing cut with
  | nil => simp [stretches]
  | cons next rest ih =>
    obtain ⟨first,others⟩ := List.pairwise_cons.mp ordered
    have after : cut.1 ≤ next.1 := first next List.mem_cons_self
    have joined : (text.drop cut.1).drop (next.1-cut.1) = text.drop next.1 := by
      rw [List.drop_drop,Nat.add_sub_cancel' after]
    rw [stretches,List.map_cons,List.flatten_cons,ih next others,← joined,List.take_append_drop]

theorem stretches_last (text : Text) (cuts : List (Nat × Nat)) (cut : Nat × Nat) :
    ∃ last ∈ cut :: cuts, (stretches text (cut :: cuts)).getLast? = some (text.drop last.1,last.2) := by
  induction cuts generalizing cut with
  | nil => exact ⟨cut,List.mem_cons_self,rfl⟩
  | cons next rest ih =>
    obtain ⟨last,member,found⟩ := ih next
    refine ⟨last,List.mem_cons_of_mem _ member,?_⟩
    rw [stretches,List.getLast?_cons,found]
    rfl

theorem stretches_level (cuts : List (Nat × Nat)) (piece : Text × Nat) (member : piece ∈ stretches text cuts) :
    ∃ cut ∈ cuts, piece.2 = cut.2 := by
  induction cuts with
  | nil => cases member
  | cons cut cuts ih =>
    cases cuts with
    | nil =>
      cases List.mem_singleton.mp member
      exact ⟨cut,List.mem_cons_self,rfl⟩
    | cons next rest =>
      rcases List.mem_cons.mp member with first | later
      · cases first
        exact ⟨cut,List.mem_cons_self,rfl⟩
      · obtain ⟨found,inRest,same⟩ := ih later
        exact ⟨found,List.mem_cons_of_mem _ inRest,same⟩

-- The parts of a stretch that holds words, and what a trim leaves of each.
theorem core_parts (words : trim raw ≠ []) : ∃ lead tail, raw = lead ++ trim raw ++ tail ∧
    raw.take (raw.length-(trimStart raw).length) = lead ∧ raw.drop (trimEnd raw).length = tail := by
  obtain ⟨lead,tail,parts,before,after⟩ := trim_parts raw
  obtain ⟨startSolid,endSolid⟩ := trimmed_iff.mp (trim_trimmed raw)
  have started : trimStart raw = trim raw ++ tail := by
    conv_lhs => rw [parts,List.append_assoc,trimStart_append_white before]
    apply trimStart_eq_self.mpr
    intro c found
    rw [List.head?_append_of_ne_nil _ words] at found
    exact startSolid c found
  have ended : trimEnd raw = lead ++ trim raw := by
    conv_lhs => rw [parts,trimEnd_append_white after]
    apply trimEnd_eq_self.mpr
    intro c found
    rw [List.getLast?_append_of_ne_nil _ words] at found
    exact endSolid c found
  refine ⟨lead,tail,parts,?_,?_⟩
  · have length : raw.length-(trimStart raw).length = lead.length := by
      have total := congrArg List.length parts
      simp only [List.length_append] at total
      rw [started,List.length_append]
      omega
    rw [length]
    conv_lhs => rw [parts,List.append_assoc]
    exact List.take_left
  · have cut : (lead ++ trim raw ++ tail).drop (lead ++ trim raw).length = tail := List.drop_left
    rw [ended]
    rwa [← parts] at cut

-- What stands before the first line feed of a text that begins and ends in words, and
-- what stands behind it.
structure Halves (core first rest : Text) : Prop where
  parts : core = first ++ rest
  head : ∀ c, first.head? = some c → isWhitespace c = false
  last : ∀ c, rest.getLast? = some c → isWhitespace c = false
  feed : rest ≠ [] → rest.head? = some '\n'

theorem halves (trimmed : Trimmed core) : Halves core (core.takeWhile (· ≠ '\n')) (core.dropWhile (· ≠ '\n')) := by
  obtain ⟨startSolid,endSolid⟩ := trimmed_iff.mp trimmed
  have parts := (List.takeWhile_append_dropWhile (p := (· ≠ '\n')) (l := core)).symm
  refine ⟨parts,?_,?_,?_⟩
  · intro c found
    apply startSolid c
    rw [parts,List.head?_append,found]
    rfl
  · intro c found
    apply endSolid c
    rw [parts,List.getLast?_append,found]
    rfl
  · intro filled
    have first := List.head_dropWhile_not (· ≠ '\n') filled
    rw [List.head?_eq_some_head filled]
    simpa using first

theorem sectionOf_text (words : trim raw ≠ []) (level : Nat) : (sectionOf raw level).text = raw := by
  obtain ⟨lead,tail,parts,leadIs,tailIs⟩ := core_parts words
  have split := (halves (trim_trimmed raw)).parts
  have firstIs := List.prefix_iff_eq_append.mp (trimEnd_initial ((trim raw).takeWhile (· ≠ '\n')))
  have restIs := List.suffix_iff_eq_append.mp
    (List.dropWhile_suffix (l := (trim raw).dropWhile (· ≠ '\n')) isWhitespace)
  simp only [Section.text,sectionOf,leadIs,tailIs,List.append_assoc]
  rw [← List.append_assoc (trimEnd _),firstIs,← List.append_assoc (List.take _ _),trimStart,restIs,
    ← List.append_assoc (List.takeWhile _ _),← split,← List.append_assoc]
  exact parts.symm

-- What a store's trimming keeps of a section, and what the reader's repairs leave alone.
structure Sound (one : Section) : Prop where
  firstLine : Trimmed one.firstLine
  body : Trimmed one.body
  bare : one.body = [] → one.edges.sep = []
  parted : one.body ≠ [] → '\n' ∈ one.edges.sep
  level : one.level ≤ 6
  whole : one.continues = false

theorem Halves.bare (halves : Halves core first rest) (empty : trimStart rest = []) : rest = [] := by
  by_cases gone : rest = []
  · exact gone
  · have final := List.getLast?_eq_some_getLast gone
    have white : isWhitespace (rest.getLast gone) = true :=
      List.dropWhile_eq_nil_iff.mp empty _ (List.getLast_mem gone)
    rw [halves.last _ final] at white
    cases white

theorem Halves.parted (halves : Halves core first rest) (filled : trimStart rest ≠ []) :
    '\n' ∈ rest.take (rest.length-(trimStart rest).length) := by
  cases rest with
  | nil => exact (filled rfl).elim
  | cons c rest =>
    have isFeed : c = '\n' := by simpa using halves.feed (by simp)
    subst isFeed
    have shorter := (List.dropWhile_suffix (l := rest) isWhitespace).length_le
    have started : trimStart ('\n' :: rest) = rest.dropWhile isWhitespace := by
      rw [trimStart,List.dropWhile_cons_of_pos (by decide)]
    rw [started,List.length_cons,Nat.succ_sub shorter,List.take_succ_cons]
    exact List.mem_cons_self

theorem Halves.firstTrimmed (halves : Halves core first rest) : Trimmed (trimEnd first) := by
  apply trimmed_iff.mpr
  constructor
  · intro c found
    apply halves.head c
    by_cases empty : trimEnd first = []
    · rw [empty] at found
      cases found
    · rw [← trimEnd_head _ empty]
      exact found
  · exact trimEnd_eq_self.mp (List.rdropWhile_idempotent ..)

theorem Halves.restTrimmed (halves : Halves core first rest) : Trimmed (trimStart rest) := by
  apply trimmed_iff.mpr
  constructor
  · intro c found
    exact trimStart_head found
  · intro c found
    apply halves.last c
    obtain ⟨front,shape⟩ := List.dropWhile_suffix (l := rest) isWhitespace
    rw [trimStart] at found
    rw [← shape,List.getLast?_append,found]
    rfl

theorem sectionOf_sound (raw : Text) (most : level ≤ 6) : Sound (sectionOf raw level) := by
  have parts := halves (trim_trimmed raw)
  refine ⟨parts.firstTrimmed,parts.restTrimmed,?_,parts.parted,most,rfl⟩
  intro empty
  change List.take _ _ = []
  rw [parts.bare empty]
  rfl

theorem gather_sound (carried : Text) (raws : List (Text × Nat)) (levels : ∀ piece ∈ raws, piece.2 ≤ 6) :
    ∀ one ∈ gather carried raws, Sound one := by
  induction raws generalizing carried with
  | nil =>
    intro one member
    cases member
  | cons piece rest ih =>
    obtain ⟨raw,level⟩ := piece
    obtain ⟨own,others⟩ := List.forall_mem_cons.mp levels
    intro one member
    rw [gather] at member
    split at member
    · exact ih _ others one member
    · rcases List.mem_cons.mp member with made | later
      · rw [made]
        have sound := sectionOf_sound raw own
        exact ⟨sound.firstLine,sound.body,sound.bare,sound.parted,sound.level,sound.whole⟩
      · exact ih _ others one later

-- Blank stretches are carried to the next one, so only a blank last one would be lost.
theorem gather_text (carried : Text) (raws : List (Text × Nat)) (filled : raws = [] → carried = [])
    (last : ∀ piece, raws.getLast? = some piece → trim piece.1 ≠ []) :
    join (gather carried raws) = carried ++ (raws.map Prod.fst).flatten := by
  induction raws generalizing carried with
  | nil => simp [gather,join,filled]
  | cons piece rest ih =>
    obtain ⟨raw,level⟩ := piece
    have lastRest : ∀ piece, rest.getLast? = some piece → trim piece.1 ≠ [] := by
      intro piece found
      apply last piece
      rw [List.getLast?_cons,found]
      rfl
    rw [gather,List.map_cons,List.flatten_cons]
    split
    · rename_i blank
      rw [ih _ _ lastRest,List.append_assoc]
      intro none
      subst none
      exact (last (raw,level) rfl blank).elim
    · rename_i words
      have made := sectionOf_text words level
      have after := ih [] (fun _ => rfl) lastRest
      rw [Section.text] at made
      rw [join] at after
      rw [join,List.map_cons,List.flatten_cons,after,List.nil_append,← List.append_assoc]
      congr 1
      conv_rhs => rw [← made]
      simp only [Section.text,List.append_assoc]

variable {sections : List Section}

theorem split_parts (accepted : split text = .ok sections) :
    loneReturnFrom 0 text = none ∧ (text = [] ∧ sections = [] ∨
      trim text ≠ [] ∧ sections = gather [] (stretches text (cutsOf text))) := by
  unfold split at accepted
  split at accepted
  · cases accepted
  · rename_i clean
    refine ⟨clean,?_⟩
    split at accepted
    · rename_i empty
      cases accepted
      exact .inl ⟨empty,rfl⟩
    · split at accepted
      · cases accepted
      · rename_i words
        cases accepted
        exact .inr ⟨words,rfl⟩

theorem split_sound (accepted : split text = .ok sections) : ∀ one ∈ sections, Sound one := by
  rcases (split_parts accepted).2 with ⟨_,rfl⟩ | ⟨words,rfl⟩
  · intro one member
    cases member
  · obtain ⟨level,rest,cuts,_,each⟩ := cutsOf_facts words
    apply gather_sound
    intro piece member
    obtain ⟨cut,inCuts,same⟩ := stretches_level (cutsOf text) piece member
    rw [cuts] at inCuts
    rw [same]
    exact (each cut inCuts).2

theorem join_split (accepted : split text = .ok sections) : join sections = text := by
  rcases (split_parts accepted).2 with ⟨rfl,rfl⟩ | ⟨words,rfl⟩
  · rfl
  · obtain ⟨level,rest,cuts,ordered,each⟩ := cutsOf_facts words
    obtain ⟨last,inCuts,found⟩ := stretches_last text rest (0,level)
    rw [cuts,gather_text _ _ (fun _ => rfl),stretches_flatten _ _ ordered]
    · rfl
    · intro piece isLast
      rw [found] at isLast
      cases isLast
      exact (each last inCuts).1

-- A carriage return that no line feed follows.
def LoneReturn (text : Text) : Prop := ∃ before after, text = before ++ '\r' :: after ∧ after.head? ≠ some '\n'

theorem loneReturnFrom_iff (place : Nat) (text : Text) : (∃ found, loneReturnFrom place text = some found) ↔ LoneReturn text := by
  induction text generalizing place with
  | nil => simp [loneReturnFrom,LoneReturn]
  | cons c rest ih =>
    rw [loneReturnFrom]
    split
    · rename_i lone
      obtain ⟨rfl,unfollowed⟩ := lone
      exact ⟨fun _ => ⟨[],rest,rfl,unfollowed⟩,fun _ => ⟨place,rfl⟩⟩
    · rename_i fine
      rw [ih]
      constructor
      · intro found
        obtain ⟨before,after,parts,unfollowed⟩ := found
        exact ⟨c :: before,after,by rw [parts]; rfl,unfollowed⟩
      · intro found
        obtain ⟨before,after,parts,unfollowed⟩ := found
        cases before with
        | nil =>
          cases parts
          exact (fine ⟨rfl,unfollowed⟩).elim
        | cons b before =>
          cases parts
          exact ⟨before,after,rfl,unfollowed⟩

theorem trim_nil_iff : trim text = [] ↔ ∀ c ∈ text, isWhitespace c = true := by
  constructor
  · intro empty c member
    cases white : isWhitespace c with
    | true => rfl
    | false => exact (trim_ne_nil member white empty).elim
  · intro white
    have kept : trim (text ++ []) = trim [] := trim_append_white white
    rwa [List.append_nil] at kept

theorem split_refuses : (∃ error, split text = .error error) ↔
    LoneReturn text ∨ text ≠ [] ∧ ∀ c ∈ text, isWhitespace c = true := by
  rw [← loneReturnFrom_iff 0,← trim_nil_iff,split]
  cases loneReturnFrom 0 text with
  | some place => simp
  | none =>
    by_cases empty : text = []
    · simp [empty]
    · by_cases blank : trim text = []
      · simp [empty,blank]
      · simp [empty,blank]

-- A fence has words on its line.
theorem bare_words {shape : Char × Nat × Text} (found : fenceOf (bare raw) = some shape) : trim raw ≠ [] := by
  intro blank
  have white := trim_nil_iff.mp blank
  unfold fenceOf at found
  dsimp only at found
  split at found
  · cases found
  · obtain ⟨c,head,made⟩ := Option.bind_eq_some_iff.mp found
    have within : c ∈ raw := (bare_initial raw).subset (List.drop_subset _ _ (List.mem_of_head? head))
    have isWhite := white c within
    split at made
    · cases made
    · rename_i kind
      have either : c = '\x60' ∨ c = '~' := by
        by_contra neither
        exact kind ⟨fun same => neither (Or.inl same),fun same => neither (Or.inr same)⟩
      rcases either with same | same <;> (subst same; cases isWhite)

theorem sectionOf_parts {raw text : Text} (same : trim raw = trim text) (level other : Nat) :
    (sectionOf raw level).firstLine = (sectionOf text other).firstLine ∧ (sectionOf raw level).body = (sectionOf text other).body := by
  simp [sectionOf,same]

end Document
