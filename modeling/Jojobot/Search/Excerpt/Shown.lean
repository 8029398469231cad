import Jojobot.Search.Excerpt

namespace Excerpt
open Library

variable {text word cut before after front lead tail rest : Text} {found : List Match} {passage : Passage} {m : Match}
  {start stop : Nat}

def OnBoundaries (text : Text) (m : Match) : Prop :=
  isCharBoundary text m.start = true ∧ isCharBoundary text m.stop = true

instance (text : Text) (m : Match) : Decidable (OnBoundaries text m) := inferInstanceAs (Decidable (_ ∧ _))

-- The match neither begins nor ends with white space, which is what the trim takes off.
def Worded (text : Text) (m : Match) : Prop := ∃ word, slice text m.start m.stop = some word ∧ word ≠ [] ∧ Trimmed word

def PartOf (passage : Passage) (m : Match) : Prop := passage.start ≤ m.start ∧ m.stop ≤ passage.start+passage.span

-- Where in the text the snippet's own part begins and ends: the range without the white
-- space at its ends.
def shownAt (text : Text) (found : List Match) : Option (Nat × Nat) := do
  let passage ← window found
  let (start,stop) ← shownRange text passage
  let cut ← slice text start stop
  let first := start+byteLength (cut.takeWhile isWhitespace)
  some (first,first+byteLength (trim cut))

-- The snippet is one part of the text of at most 323 bytes, with an ellipsis on either side.
def Shows (text : Text) (found : List Match) (first last : Nat) : Prop :=
  shownAt text found = some (first,last) ∧ last ≤ first+323 ∧ ∃ shown lead tail, slice text first last = some shown ∧
    (lead = [] ∨ lead = ['…']) ∧ (tail = [] ∨ tail = ['…']) ∧ snippet text found = some (lead++shown++tail)

-- The part shown holds every match of the passage that is picked.
def ShowsItsPassage (text : Text) (found : List Match) : Prop :=
  ∃ passage first last, window found = some passage ∧ Densest found passage ∧ Shows text found first last ∧
    ∀ m ∈ found, PartOf passage m → first ≤ m.start ∧ m.stop ≤ last

-- Where the 320 bytes centred on a passage begin, moved back to a boundary, and where they
-- end, moved on to one.
def Begins (text : Text) (passage : Passage) (start : Nat) : Prop :=
  IsGreatest {b | isCharBoundary text b = true ∧ b ≤ passage.start-(320-passage.span)/2} start

def Ends (text : Text) (start stop : Nat) : Prop :=
  IsLeast {b | isCharBoundary text b = true ∧ min (start+320) (byteLength text) ≤ b} stop

-- No boundary past the 320 bytes lies inside the passage.
def Roomy (text : Text) (passage : Passage) : Prop :=
  ∀ start b, Begins text passage start → isCharBoundary text b = true → start+320 ≤ b → passage.start+passage.span ≤ b

def Blank (text : Text) (start stop : Nat) : Prop := ∃ cut, slice text start stop = some cut ∧ ∀ c ∈ cut, isWhitespace c = true

-- The white space at either end of the range does not reach into the passage.
def Clear (text : Text) (passage : Passage) : Prop :=
  ∀ start stop, Begins text passage start → Ends text start stop →
    (∀ b, passage.start < b → b ≤ stop → ¬Blank text start b) ∧
      ∀ b, start ≤ b → b < passage.start+passage.span → Blank text b stop → Blank text start stop

theorem shownRange_run (ended : isCharBoundary text (passage.start+passage.span) = true) (fits : passage.span ≤ 320) :
    ∃ start stop, shownRange text passage = some (start,stop) ∧ Begins text passage start ∧ Ends text start stop := by
  have within := boundary_le ended
  have first : min (passage.start-(320-min passage.span 320)/2) (byteLength text) = passage.start-(320-passage.span)/2 := by
    omega
  have greatest := boundaryBefore_greatest text (passage.start-(320-passage.span)/2)
  obtain ⟨stop,ran,least⟩ := @boundaryAfter_least text
    (min (boundaryBefore text (passage.start-(320-passage.span)/2)+320) (byteLength text)) (byteLength text)
    (byteLength text+1) (boundary_last text) (Nat.min_le_right _ _) (by omega)
  refine ⟨_,stop,?_,greatest,least⟩
  unfold shownRange
  simp [first,ran]

-- The range: within three bytes of 320, and from before the passage on.
theorem range_bounds (begins : Begins text passage start) (ends : Ends text start stop) :
    start ≤ passage.start ∧ start ≤ stop ∧ stop ≤ start+323 := by
  have inside := boundary_le begins.1.1
  have under := begins.1.2
  have above := ends.1.2
  obtain ⟨_,high,_,atHigh,_,beyond,_,near⟩ := @boundary_near text (min (start+320) (byteLength text)) (Nat.min_le_right _ _)
  have far := ends.2 ⟨atHigh,beyond⟩
  exact ⟨by omega,by omega,by omega⟩

theorem reaches_iff (ended : isCharBoundary text (passage.start+passage.span) = true) (begins : Begins text passage start)
    (ends : Ends text start stop) : passage.start+passage.span ≤ stop ↔ Roomy text passage := by
  have within := boundary_le ended
  constructor
  · intro reaches other b begins' on past
    cases begins.unique begins'
    exact Nat.le_trans reaches (ends.2 ⟨on,by omega⟩)
  · intro roomy
    rcases Nat.lt_or_ge (byteLength text) (start+320) with short | long
    · have above := ends.1.2
      omega
    · exact roomy start stop begins ends.1.1 (by have := ends.1.2; omega)

-- White space that a trim takes off ahead of a word does not reach into it.
theorem white_ahead (whole : front++lead++rest = before++word++after) (white : ∀ c ∈ lead, isWhitespace c = true)
    (behind : byteLength front ≤ byteLength before) (some' : word ≠ []) (clean : Trimmed word) :
    byteLength (front++lead) ≤ byteLength before := by
  obtain ⟨c,others,rfl⟩ := List.exists_cons_of_ne_nil some'
  have solid := (trimmed_iff.mp clean).1 c rfl
  rw [List.append_assoc before] at whole
  rcases List.append_eq_append_iff.mp whole with ⟨middle,same,_⟩ | ⟨middle,same,same'⟩
  · rw [same,byteLength_append (front++lead)]
    omega
  · cases middle with
    | nil => simp [same]
    | cons d middle =>
      obtain ⟨rfl,_⟩ := List.cons.inj same'
      exfalso
      have inside : c ∈ lead := by
        rcases List.append_eq_append_iff.mp same with ⟨gap,_,parts⟩ | ⟨gap,parts,parts'⟩
        · rw [parts]
          simp
        · rw [parts,byteLength_append] at behind
          have none : gap = [] := byteLength_zero.mp (by omega)
          subst none
          rw [List.nil_append] at parts'
          rw [← parts']
          exact List.mem_cons_self
      rw [white c inside] at solid
      cases solid

theorem white_behind (whole : front++tail++rest = before++word++after) (white : ∀ c ∈ tail, isWhitespace c = true)
    (ahead : byteLength (before++word) ≤ byteLength (front++tail)) (some' : word ≠ []) (clean : Trimmed word) :
    byteLength (before++word) ≤ byteLength front := by
  have turned : rest.reverse++tail.reverse++front.reverse = after.reverse++word.reverse++before.reverse := by
    simpa using congrArg List.reverse whole
  have size := congrArg byteLength whole
  simp only [byteLength_append] at size ahead ⊢
  have clean' : Trimmed word.reverse := by
    obtain ⟨first,last⟩ := trimmed_iff.mp clean
    exact trimmed_iff.mpr ⟨by simpa using last,by simpa using first⟩
  have less := white_ahead turned (by simpa using white) (by simp only [byteLength_reverse]; omega) (by simpa using some') clean'
  simp only [byteLength_append,byteLength_reverse] at less
  omega

theorem same_front {other : Text} (whole : front++rest = before++other) (length : byteLength front = byteLength before) :
    front = before ∧ rest = other := by
  rcases List.append_eq_append_iff.mp whole with ⟨middle,same,same'⟩ | ⟨middle,same,same'⟩
  · rw [same,byteLength_append] at length
    have none' : middle = [] := byteLength_zero.mp (by omega)
    subst none'
    exact ⟨by simpa using same.symm,by simpa using same'⟩
  · rw [same,byteLength_append] at length
    have none' : middle = [] := byteLength_zero.mp (by omega)
    subst none'
    exact ⟨by simpa using same,by simpa using same'.symm⟩

theorem trim_blank (white : ∀ c ∈ cut, isWhitespace c = true) : trim cut = [] ∧ cut.takeWhile isWhitespace = cut := by
  have all : cut.takeWhile isWhitespace = cut := List.takeWhile_eq_self_iff.mpr white
  have none' : trimStart cut = [] := List.dropWhile_eq_nil_iff.mpr white
  exact ⟨by rw [trim,none']; rfl,all⟩

-- The lead of a cut is its longest blank start.
theorem lead_iff (whole : text = before++cut++after) (begun : byteLength before = start) (ended : byteLength (before++cut) = stop)
    (point : Nat) : start+byteLength (cut.takeWhile isWhitespace) ≤ point ↔ ∀ b, point < b → b ≤ stop → ¬Blank text start b := by
  have parts := List.takeWhile_append_dropWhile (p := isWhitespace) (l := cut)
  constructor
  · intro short b past within blank
    obtain ⟨white,sliced,all⟩ := blank
    obtain ⟨before',after',whole',begun',ended'⟩ := slice_some sliced
    have line : before++(cut++after) = before'++(white++after') := by simpa using whole.symm.trans whole'
    obtain ⟨same,rests⟩ := same_front line (begun.trans begun'.symm)
    subst same
    rw [byteLength_append] at ended ended'
    rcases List.append_eq_append_iff.mp rests with ⟨middle,extended,_⟩ | ⟨middle,shortened,_⟩
    · rw [extended,byteLength_append] at ended'
      have none' : middle = [] := byteLength_zero.mp (by omega)
      rw [none',List.append_nil] at extended
      rw [extended] at all
      rw [(trim_blank all).2] at short
      omega
    · -- A blank start of the cut is a start of its lead.
      rw [shortened,List.takeWhile_append_of_pos all,byteLength_append] at short
      omega
  · intro none'
    by_contra long
    refine none' (start+byteLength (cut.takeWhile isWhitespace)) (by omega) ?_ ⟨cut.takeWhile isWhitespace,?_,?_⟩
    · have size := congrArg byteLength parts
      rw [byteLength_append] at size ended
      omega
    · have line : text = before++cut.takeWhile isWhitespace++(cut.dropWhile isWhitespace++after) := by
        rw [whole,List.append_assoc before,List.append_assoc before,←List.append_assoc (cut.takeWhile _),parts]
      rw [line,←begun]
      exact slice_middle _ _ _
    · exact fun c => List.mem_takeWhile_imp

theorem trim_parts_of (cut : Text) : ∃ tail, cut = cut.takeWhile isWhitespace++trim cut++tail ∧ ∀ c ∈ tail, isWhitespace c = true := by
  refine ⟨(trimStart cut).rtakeWhile isWhitespace,?_,fun c => List.mem_rtakeWhile_imp⟩
  rw [List.append_assoc,trim,trimEnd,List.rdropWhile_append_rtakeWhile,trimStart,List.takeWhile_append_dropWhile]

theorem slice_cut (whole : text = before++cut++after) (begun : byteLength before = start) (ended : byteLength (before++cut) = stop) :
    slice text start stop = some cut := by
  rw [whole,←begun,←ended,byteLength_append]
  exact slice_middle before cut after

-- What is left behind the trimmed part is the longest blank end of the cut.
theorem trail_iff (whole : text = before++cut++after) (begun : byteLength before = start) (ended : byteLength (before++cut) = stop)
    {point : Nat} (within : point ≤ stop) :
    point ≤ start+byteLength (cut.takeWhile isWhitespace)+byteLength (trim cut) ↔
      ∀ b, start ≤ b → b < point → Blank text b stop → Blank text start stop := by
  obtain ⟨tail,parts,white⟩ := trim_parts_of cut
  have size := congrArg byteLength parts
  simp only [byteLength_append] at size
  constructor
  · intro reaches b forward past blank
    obtain ⟨space,sliced,all⟩ := blank
    obtain ⟨front,rest,whole',begun',ended'⟩ := slice_some sliced
    have line : front++space++rest = before++cut.takeWhile isWhitespace++trim cut++(tail++after) := by
      rw [←whole',whole]
      conv_lhs => rw [parts]
      simp
    by_cases some' : trim cut = []
    · refine ⟨cut,slice_cut whole begun ended,?_⟩
      intro c inside
      rw [parts,some',List.append_nil] at inside
      rcases List.mem_append.mp inside with ahead | behind
      · exact List.mem_takeWhile_imp ahead
      · exact white c behind
    · have short := white_behind line all (by simp only [byteLength_append] at ended ended' ⊢; omega) some' (trim_trimmed cut)
      simp only [byteLength_append] at short begun' ended
      omega
  · intro none'
    by_contra short
    have blank : Blank text (start+byteLength (cut.takeWhile isWhitespace)+byteLength (trim cut)) stop := by
      refine ⟨tail,?_,white⟩
      have line : text = before++cut.takeWhile isWhitespace++trim cut++tail++after := by
        rw [whole]
        conv_lhs => rw [parts]
        simp
      apply slice_cut line
      · simp only [byteLength_append]
        omega
      · simp only [byteLength_append] at ended ⊢
        omega
    obtain ⟨space,sliced,all⟩ := none' _ (by omega) (by omega) blank
    cases Option.some.inj ((slice_cut whole begun ended).symm.trans sliced)
    obtain ⟨none'',same⟩ := trim_blank all
    rw [same,none''] at short
    rw [byteLength_append] at ended
    simp only [byteLength_nil] at short
    omega

-- A passage begins with a match and ends with one, and is 320 bytes wide at most.
theorem densest_edges (ordered : InOrder found) (short : ∀ m ∈ found, m.stop ≤ m.start+240) (densest : Densest found passage) :
    passage.span ≤ 320 ∧ ∃ first ∈ found, ∃ last ∈ found, PartOf passage first ∧ PartOf passage last ∧
      first.start = passage.start ∧ last.stop = passage.start+passage.span := by
  obtain ⟨⟨a,inside,rfl⟩,_⟩ := densest
  obtain ⟨first,last,_,_,isFirst,isLast,edges,same⟩ :=
    passage_edges (heldAt_ordered ordered (a.start-80)) (anchor_held inside (short a inside))
  obtain ⟨member,late,_⟩ := mem_heldAt.mp isFirst
  obtain ⟨member',_,early⟩ := mem_heldAt.mp isLast
  have wide := edges first isFirst
  have wide' := edges last isLast
  have width := ordered.1 first member
  have ended : first.start+(last.stop-first.start) = last.stop := by omega
  unfold passageAt PartOf
  rw [same]
  dsimp only
  rw [ended]
  exact ⟨by omega,first,member,last,member',⟨Nat.le_refl _,wide.2⟩,⟨wide'.1,Nat.le_refl _⟩,rfl,rfl⟩

theorem shown_run (picked : window found = some passage) (fits : passage.span ≤ 320)
    (ended : isCharBoundary text (passage.start+passage.span) = true) :
    ∃ start stop before cut after, Begins text passage start ∧ Ends text start stop ∧ text = before++cut++after ∧
      byteLength before = start ∧ byteLength (before++cut) = stop ∧
      Shows text found (start+byteLength (cut.takeWhile isWhitespace))
        (start+byteLength (cut.takeWhile isWhitespace)+byteLength (trim cut)) := by
  obtain ⟨start,stop,ran,begins,ends⟩ := shownRange_run ended fits
  obtain ⟨_,forward,near⟩ := range_bounds begins ends
  obtain ⟨before,cut,after,whole,length,length'⟩ := cut_in_three begins.1.1 ends.1.1 forward
  have sliced := slice_cut whole length length'
  obtain ⟨tail,parts,_⟩ := trim_parts_of cut
  have size := congrArg byteLength parts
  simp only [byteLength_append] at size
  refine ⟨start,stop,before,cut,after,begins,ends,whole,length,length',?_,?_,trim cut,if 0 < start then ['…'] else [],
    if stop < byteLength text then ['…'] else [],?_,?_,?_,?_⟩
  · simp [shownAt,picked,ran,sliced]
  · rw [byteLength_append] at length'
    omega
  · have line : text = before++cut.takeWhile isWhitespace++trim cut++(tail++after) := by
      rw [whole]
      conv_lhs => rw [parts]
      simp
    apply slice_cut line
    · rw [byteLength_append,length]
    · simp only [byteLength_append,length]
  · split <;> simp
  · split <;> simp
  · simp [snippet,picked,ran,sliced]

-- What is shown holds the matches of the passage when it holds the first and the last.
theorem holds_iff (ordered : InOrder found) (short : ∀ m ∈ found, m.stop ≤ m.start+240) (densest : Densest found passage)
    {first last : Nat} : (∀ m ∈ found, PartOf passage m → first ≤ m.start ∧ m.stop ≤ last) ↔
      first ≤ passage.start ∧ passage.start+passage.span ≤ last := by
  obtain ⟨_,opening,inside,closing,inside',part,part',begins,ends⟩ := densest_edges ordered short densest
  constructor
  · intro holds
    exact ⟨begins ▸ (holds opening inside part).1,ends ▸ (holds closing inside' part').2⟩
  · intro reaches m _ part
    exact ⟨Nat.le_trans reaches.1 part.1,Nat.le_trans part.2 reaches.2⟩

-- A range that reaches the end of its passage is trimmed of no word's letters.
theorem worded_clear (ordered : InOrder found) (short : ∀ m ∈ found, m.stop ≤ m.start+240) (on : ∀ m ∈ found, OnBoundaries text m)
    (worded : ∀ m ∈ found, Worded text m) (densest : Densest found passage) (roomy : Roomy text passage) : Clear text passage := by
  obtain ⟨_,opening,inside,closing,inside',_,_,begun,ended⟩ := densest_edges ordered short densest
  intro start stop begins ends
  have reaches := (reaches_iff (ended ▸ (on closing inside').2) begins ends).mpr roomy
  obtain ⟨early,_,_⟩ := range_bounds begins ends
  refine ⟨?_,?_⟩
  · intro b past _ blank
    obtain ⟨space,sliced,white⟩ := blank
    obtain ⟨front,rest,whole,length,length'⟩ := slice_some sliced
    obtain ⟨word,cut,some',clean⟩ := worded opening inside
    obtain ⟨before,after,whole',size,_⟩ := slice_some cut
    have := white_ahead (whole.symm.trans whole') white (by omega) some' clean
    omega
  · intro b _ short blank
    obtain ⟨space,sliced,white⟩ := blank
    obtain ⟨front,rest,whole,length,length'⟩ := slice_some sliced
    obtain ⟨word,cut,some',clean⟩ := worded closing inside'
    obtain ⟨before,after,whole',_,size⟩ := slice_some cut
    have := white_behind (whole.symm.trans whole') white (by omega) some' clean
    omega

-- A snippet is always one part of the text, cut where characters begin. It shows the passage
-- it picked where the range reaches the passage's end and the trim takes off nothing of it,
-- which for matches that are words it never does.
theorem a_snippet_shows_its_passage (some' : found ≠ []) (ordered : InOrder found)
    (short : ∀ m ∈ found, m.stop ≤ m.start+240) (on : ∀ m ∈ found, OnBoundaries text m) :
    (∃ passage first last, window found = some passage ∧ Densest found passage ∧ Shows text found first last) ∧
      (ShowsItsPassage text found ↔ ∃ passage, Picked found passage ∧ Roomy text passage ∧ Clear text passage) ∧
      ((∀ m ∈ found, Worded text m) → (ShowsItsPassage text found ↔ ∃ passage, Picked found passage ∧ Roomy text passage)) := by
  obtain ⟨passage,named,picked,only⟩ := window_picked some' ordered short
  have densest := picked_densest picked
  obtain ⟨fits,_,_,closing,inside,_,_,_,ended⟩ := densest_edges ordered short densest
  have boundary : isCharBoundary text (passage.start+passage.span) = true := ended ▸ (on closing inside).2
  obtain ⟨start,stop,before,cut,after,begins,ends,whole,length,length',shows⟩ := shown_run named fits boundary
  obtain ⟨tail,parts,_⟩ := trim_parts_of cut
  have size := congrArg byteLength parts
  simp only [byteLength_append] at size
  have total := length'
  rw [byteLength_append] at total
  have lead := lead_iff whole length length' passage.start
  have general : ShowsItsPassage text found ↔ ∃ passage, Picked found passage ∧ Roomy text passage ∧ Clear text passage := by
    constructor
    · intro whole'
      obtain ⟨other,first,last,named',_,shows',holds⟩ := whole'
      cases Option.some.inj (named.symm.trans named')
      cases Option.some.inj (shows.1.symm.trans shows'.1)
      obtain ⟨ahead,behind⟩ := (holds_iff ordered short densest).mp holds
      refine ⟨passage,picked,(reaches_iff boundary begins ends).mp (by omega),?_⟩
      intro start' stop' begins' ends'
      cases begins.unique begins'
      cases ends.unique ends'
      exact ⟨lead.mp ahead,(trail_iff whole length length' (by omega)).mp behind⟩
    · intro fitting
      obtain ⟨other,picked',roomy,clear⟩ := fitting
      cases only other picked'
      obtain ⟨ahead,behind⟩ := clear start stop begins ends
      have reaches := (reaches_iff boundary begins ends).mpr roomy
      refine ⟨passage,_,_,named,densest,shows,(holds_iff ordered short densest).mpr ⟨lead.mpr ahead,?_⟩⟩
      exact (trail_iff whole length length' reaches).mpr behind
  refine ⟨⟨passage,_,_,named,densest,shows⟩,general,?_⟩
  intro worded
  rw [general]
  constructor
  · intro fitting
    obtain ⟨other,picked',roomy,_⟩ := fitting
    exact ⟨other,picked',roomy⟩
  · intro fitting
    obtain ⟨other,picked',roomy⟩ := fitting
    exact ⟨other,picked',roomy,worded_clear ordered short on worded (picked_densest picked') roomy⟩

-- Three letters, and one of four bytes ahead of them.
def spread (gap : Nat) : Text := ['🦀','a']++List.replicate 79 ' '++['b']++List.replicate gap ' '++['c']

def spreadMatches (gap : Nat) : List Match := [⟨0,4,5⟩,⟨1,84,85⟩,⟨2,85+gap,86+gap⟩]

theorem spread_ordered (gap : Nat) : InOrder (spreadMatches gap) ∧ ∀ m ∈ spreadMatches gap, m.stop ≤ m.start+240 := by
  refine ⟨⟨?_,?_⟩,?_⟩
  · intro m inside
    simp only [spreadMatches,List.mem_cons,List.not_mem_nil,or_false] at inside
    rcases inside with same | same | same <;> subst same <;> simp
  · simp [spreadMatches]
    omega
  · intro m inside
    simp only [spreadMatches,List.mem_cons,List.not_mem_nil,or_false] at inside
    rcases inside with same | same | same <;> subst same <;> dsimp only <;> omega

theorem letter_worded {c : Char} (cut : slice text m.start m.stop = some [c]) (solid : isWhitespace c = false) : Worded text m := by
  refine ⟨[c],cut,List.cons_ne_nil c [],trimmed_iff.mpr ⟨?_,?_⟩⟩
  · intro d first
    cases first
    exact solid
  · intro d final
    cases final
    exact solid

theorem spread_worded {gap : Nat} (cuts : (spreadMatches gap).map (fun m => slice (spread gap) m.start m.stop) = [some ['a'],some ['b'],some ['c']]) :
    ∀ m ∈ spreadMatches gap, Worded (spread gap) m := by
  simp only [spreadMatches,List.map_cons,List.map_nil,List.cons.injEq,and_true] at cuts
  simp only [spreadMatches,List.mem_cons,List.not_mem_nil,or_false,forall_eq_or_imp,forall_eq]
  exact ⟨letter_worded cuts.1 (by decide),letter_worded cuts.2.1 (by decide),letter_worded cuts.2.2 (by decide)⟩

-- The range begins two bytes further back than it is centred, and still reaches the end.
theorem three_letters_are_shown : ShowsItsPassage (spread 233) (spreadMatches 233) := by
  obtain ⟨ordered,short⟩ := spread_ordered 233
  have on : ∀ m ∈ spreadMatches 233, OnBoundaries (spread 233) m := by decide +kernel
  obtain ⟨_,_,words⟩ := a_snippet_shows_its_passage (List.cons_ne_nil _ _) ordered short on
  refine (words (spread_worded (by decide +kernel))).mpr ⟨⟨3,315,4⟩,?_,?_⟩
  · exact ⟨[⟨0,4,5⟩],⟨1,84,85⟩,[⟨2,318,319⟩],rfl,by decide +kernel,by decide +kernel,by decide +kernel⟩
  · intro start b begins on past
    dsimp only
    omega

-- Three bytes more between the last two, and the range stops before the last.
theorem the_last_letter_is_cut_off : InOrder (spreadMatches 236) ∧ (∀ m ∈ spreadMatches 236, m.stop ≤ m.start+240) ∧
    (∀ m ∈ spreadMatches 236, OnBoundaries (spread 236) m ∧ Worded (spread 236) m) ∧
    ¬ShowsItsPassage (spread 236) (spreadMatches 236) := by
  obtain ⟨ordered,short⟩ := spread_ordered 236
  refine ⟨ordered,short,fun m inside => ⟨?_,spread_worded (by decide +kernel) m inside⟩,?_⟩
  · revert m
    decide +kernel
  · intro shows
    obtain ⟨passage,first,last,picked,_,⟨shown,_⟩,holds⟩ := shows
    have named : window (spreadMatches 236) = some ⟨3,318,4⟩ := by decide +kernel
    have ran : shownAt (spread 236) (spreadMatches 236) = some (0,85) := by decide +kernel
    cases Option.some.inj (named.symm.trans picked)
    cases Option.some.inj (ran.symm.trans shown)
    have cut := holds ⟨2,321,322⟩ (by decide) ⟨by decide,by decide⟩
    exact absurd cut.2 (by decide)

end Excerpt
