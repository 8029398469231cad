import Jojobot.Memory.Document.Sections

namespace Document
open Library

variable {text raw : Text} {one : Section} {sections : List Section} {lines : List Text} {level : Nat}

-- The lines of a text, a group for each stretch the cuts make of it.
structure Heads (group : List Text × Nat) : Prop where
  filled : group.1 ≠ []
  headed : 0 < group.2 → ∃ raw more, group.1 = raw :: more ∧ headingLevel (bare raw) = some group.2 ∧ headingStartsFrom 0 none 0 more = []

theorem headingStartsFrom_quiet (frontmatter : Nat) (fence : Option (Char × Nat)) (offset : Nat) (lines : List Text) (past : frontmatter ≤ offset) :
    headingStartsFrom frontmatter fence offset lines = [] ↔ headingStartsFrom 0 fence 0 lines = [] := by
  have shifts : ∀ (fence : Option (Char × Nat)) (offset other : Nat), frontmatter ≤ offset →
      (headingStartsFrom frontmatter fence offset lines = [] ↔ headingStartsFrom 0 fence other lines = []) := by
    induction lines with
    | nil =>
      intro _ _ _ _
      simp [headingStartsFrom]
    | cons raw rest ih =>
      intro fence offset other past
      have not : ¬offset < frontmatter := by omega
      rw [headingStartsFrom,headingStartsFrom,if_neg not,if_neg (Nat.not_lt_zero _)]
      have later := ih (readLine fence (bare raw)).1 (offset+raw.length) (other+raw.length) (by omega)
      simp only [List.append_eq_nil_iff,later]
      cases (readLine fence (bare raw)).2 <;> simp
  exact shifts fence offset 0 past

theorem stretches_cons (text : Text) (start level : Nat) (cuts : List (Nat × Nat)) (front : List Text)
    (here : text.drop start = front.flatten ++ text.drop (start+front.flatten.length))
    (next : ∀ cut, cuts.head? = some cut → cut.1 = start+front.flatten.length)
    (none' : cuts = [] → text.drop (start+front.flatten.length) = []) :
    stretches text ((start,level) :: cuts) = (front.flatten,level) :: stretches text cuts := by
  cases cuts with
  | nil =>
    have whole := none' rfl
    rw [whole,List.append_nil] at here
    simp only [stretches,here]
  | cons cut cuts =>
    have at' := next cut rfl
    obtain ⟨other,deeper⟩ := cut
    change other = start+front.flatten.length at at'
    subst at'
    rw [stretches,Nat.add_sub_cancel_left,here,List.take_left]

-- The headings of a run of lines cut it into the lines before the first and a group for each.
theorem heads_grouped (frontmatter : Nat) (lines : List Text) (fence : Option (Char × Nat)) (offset : Nat) (lined : LinesOf lines)
    (left : text.drop offset = lines.flatten) (within : offset ≤ text.length) :
    ∃ (front : List Text) (groups : List (List Text × Nat)), lines = front ++ (groups.map Prod.fst).flatten ∧
      headingStartsFrom frontmatter fence offset front = [] ∧
      stretches text (headingStartsFrom frontmatter fence offset lines) = groups.map (fun group => (group.1.flatten,group.2)) ∧
      (∀ cut, (headingStartsFrom frontmatter fence offset lines).head? = some cut → cut.1 = offset+front.flatten.length) ∧
      (headingStartsFrom frontmatter fence offset lines = [] → groups = []) ∧ ∀ group ∈ groups, Heads group := by
  induction lines generalizing fence offset with
  | nil =>
    refine ⟨[],[],rfl,rfl,rfl,?_,fun _ => rfl,?_⟩
    · intro cut head
      cases head
    · intro group has
      cases has
  | cons raw rest ih =>
    have total : text.length = offset+(raw.length+rest.flatten.length) := by
      have length := congrArg List.length left
      rw [List.length_drop,List.flatten_cons,List.length_append] at length
      omega
    have left' : text.drop (offset+raw.length) = rest.flatten := by
      rw [←List.drop_drop,left,List.flatten_cons,List.drop_left]
    rw [headingStartsFrom]
    split
    · rename_i before
      obtain ⟨front,groups,split,quiet,made,first,none',heads⟩ := ih fence (offset+raw.length) lined.rest left' (by omega)
      refine ⟨raw :: front,groups,by rw [split]; rfl,?_,made,?_,none',heads⟩
      · rw [headingStartsFrom,if_pos before]
        exact quiet
      · intro cut head
        rw [first cut head,List.flatten_cons,List.length_append]
        omega
    · rename_i past
      obtain ⟨front,groups,split,quiet,made,first,none',heads⟩ :=
        ih (readLine fence (bare raw)).1 (offset+raw.length) lined.rest left' (by omega)
      dsimp only
      cases read : (readLine fence (bare raw)).2 with
      | none =>
        refine ⟨raw :: front,groups,by rw [split]; rfl,?_,by simpa using made,?_,by simpa using none',heads⟩
        · rw [headingStartsFrom,if_neg past]
          simp only [read]
          simpa using quiet
        · intro cut head
          have place := first cut (by simpa using head)
          rw [place,List.flatten_cons,List.length_append]
          omega
      | some level =>
        have open' : (readLine fence (bare raw)).1 = none := by
          unfold readLine at read ⊢
          split at read
          · cases read
          · split at read <;> cases read
          · simp [*]
          · cases read
        have own : headingLevel (bare raw) = some level := readLine_heading read
        refine ⟨[],(raw :: front,level) :: groups,by rw [split]; rfl,rfl,?_,?_,?_,?_⟩
        · have cut := stretches_cons text offset level (headingStartsFrom frontmatter (readLine fence (bare raw)).1 (offset+raw.length) rest)
            (raw :: front) ?_ ?_ ?_
          · simp only [Option.map_some,Option.toList_some,List.singleton_append]
            rw [cut,made]
            rfl
          · rw [left,split]
            simp only [List.flatten_cons,List.length_append,List.flatten_append]
            rw [←Nat.add_assoc,←List.drop_drop,left',split,List.flatten_append,List.drop_left,List.append_assoc]
          · intro cut head
            rw [first cut head,List.flatten_cons,List.length_append]
            omega
          · intro nothing
            have groups' := none' nothing
            rw [groups'] at split
            rw [List.flatten_cons,List.length_append,←Nat.add_assoc,←List.drop_drop,left',split]
            simp
        · intro cut head
          simp at head
          rw [←head]
          simp
        · intro nothing
          simp at nothing
        · intro group has
          rcases List.mem_cons.mp has with here | later
          · subst here
            refine ⟨List.cons_ne_nil _ _,fun _ => ⟨raw,front,rfl,own,?_⟩⟩
            rw [open'] at quiet
            exact (headingStartsFrom_quiet frontmatter none (offset+raw.length) front (by omega)).mp quiet
          · exact heads group later

-- Every stretch of a text is a group of its whole lines.
theorem stretches_grouped (filled : text ≠ []) : ∃ groups : List (List Text × Nat), splitInclusive text = (groups.map Prod.fst).flatten ∧
    stretches text (cutsOf text) = groups.map (fun group => (group.1.flatten,group.2)) ∧ ∀ group ∈ groups, Heads group := by
  obtain ⟨front,groups,split,_,made,first,none',heads⟩ :=
    heads_grouped (frontmatterEnd text) (splitInclusive text) none 0 (splitInclusive_linesOf text)
      (by rw [List.drop_zero,splitInclusive_flatten]) (Nat.zero_le _)
  have whole : text = front.flatten ++ (groups.map Prod.fst).flatten.flatten := by
    rw [←List.flatten_append,←split,splitInclusive_flatten]
  have lined := splitInclusive_linesOf text
  unfold cutsOf
  dsimp only
  split
  · rename_i away
    have filled' : front ≠ [] := by
      intro none''
      subst none''
      cases shape : headingStarts text with
      | nil =>
        have groups' := none' shape
        subst groups'
        exact filled whole
      | cons cut cuts =>
        have zero := first cut (by rw [headingStarts] at shape; rw [shape]; rfl)
        rw [shape] at away
        simp at away
        exact away (by simpa using zero)
    refine ⟨(front,0) :: groups,by rw [split]; rfl,?_,?_⟩
    · have behind : text.drop front.flatten.length = (groups.map Prod.fst).flatten.flatten := by
        conv_lhs => rw [whole]
        exact List.drop_left
      have cut := stretches_cons text 0 0 (headingStarts text) front ?_ ?_ ?_
      · rw [cut]
        exact congrArg _ made
      · rw [Nat.zero_add,behind,List.drop_zero]
        exact whole
      · exact first
      · intro nothing
        rw [Nat.zero_add,behind,none' nothing]
        rfl
    · intro group has
      rcases List.mem_cons.mp has with here | later
      · subst here
        exact ⟨filled',fun level => absurd level (Nat.lt_irrefl 0)⟩
      · exact heads group later
  · rename_i flush
    have front' : front = [] := by
      cases shape : headingStarts text with
      | nil => simp [shape] at flush
      | cons cut cuts =>
        have zero := first cut (by rw [headingStarts] at shape; rw [shape]; rfl)
        have start : cut.1 = 0 := by simpa [shape] using flush
        cases front with
        | nil => rfl
        | cons raw front =>
          have something := (lined [] raw (front ++ (groups.map Prod.fst).flatten) split).1
          have positive := List.length_pos_of_ne_nil something
          rw [List.flatten_cons,List.length_append] at zero
          omega
    subst front'
    exact ⟨groups,split,made,heads⟩

-- Where a section comes from: the lines of blank stretches in front of it, and those of
-- its own stretch.
structure From (text : Text) (one : Section) (carried : Text) (group : List Text × Nat) : Prop where
  lines : ∃ before blanks after, splitInclusive text = before ++ (blanks ++ group.1) ++ after ∧ carried = blanks.flatten
  blank : ∀ c ∈ carried, isWhitespace c = true
  words : trim group.1.flatten ≠ []
  heads : Heads group
  made : one = { sectionOf group.1.flatten group.2 with
    edges := { (sectionOf group.1.flatten group.2).edges with lead := carried ++ (sectionOf group.1.flatten group.2).edges.lead } }

theorem gather_from (groups : List (List Text × Nat)) (heads : ∀ group ∈ groups, Heads group) (before blanks : List Text)
    (whole : splitInclusive text = before ++ blanks ++ (groups.map Prod.fst).flatten) (blank : ∀ c ∈ blanks.flatten, isWhitespace c = true) :
    ∀ one ∈ gather blanks.flatten (groups.map fun group => (group.1.flatten,group.2)), ∃ carried group, From text one carried group := by
  induction groups generalizing before blanks with
  | nil =>
    intro one has
    cases has
  | cons group rest ih =>
    intro one has
    rw [List.map_cons,gather] at has
    have heads' := fun other member => heads other (List.mem_cons_of_mem _ member)
    split at has
    · rename_i white
      have joined : blanks.flatten ++ group.1.flatten = (blanks ++ group.1).flatten := List.flatten_append.symm
      rw [joined] at has
      refine ih heads' before (blanks ++ group.1) (by rw [whole]; simp) ?_ one has
      intro c member
      rw [List.flatten_append] at member
      rcases List.mem_append.mp member with old | own
      · exact blank c old
      · exact trim_nil_iff.mp white c own
    · rename_i words
      rcases List.mem_cons.mp has with here | later
      · refine ⟨blanks.flatten,group,⟨before,blanks,(rest.map Prod.fst).flatten,by rw [whole]; simp,rfl⟩,blank,words,
          heads group List.mem_cons_self,here⟩
      · refine ih heads' (before ++ blanks ++ group.1) [] (by rw [whole]; simp) ?_ one later
        intro c member
        cases member

theorem split_from (accepted : split text = .ok sections) (member : one ∈ sections) : ∃ carried group, From text one carried group := by
  rcases (split_parts accepted).2 with ⟨_,none'⟩ | ⟨words,made⟩
  · subst none'
    cases member
  · have filled : text ≠ [] := by
      intro empty
      rw [empty] at words
      exact words rfl
    obtain ⟨groups,whole,stretches',heads⟩ := stretches_grouped filled
    subst made
    rw [stretches'] at member
    exact gather_from groups heads [] [] (by simpa using whole) (fun c member => by cases member) one member

end Document
