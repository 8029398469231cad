import Jojobot.Memory.Filter.Expression

namespace Expression
open Library Memory

-- What a token may hold, and what may not come right behind it.
def Kind.Lexable : Kind → Prop
  | .word written => written ≠ [] ∧ ∀ c ∈ written, endsAWord c = false
  | .quoted written => '"' ∉ written
  | _ => True

def Kind.Apart : Kind → Text → Prop
  | .word _,rest => ∀ c, rest.head? = some c → endsAWord c = true
  | .not,rest | .less,rest | .greater,rest => rest.head? ≠ some '='
  | _,_ => True

-- The tokens of a text from a position on: blanks, a token as it is spelled, and so on, and
-- blanks behind the last.
inductive Tiled : Nat → Text → List Token → Prop where
  | done {position text} (white : ∀ c ∈ text, isWhitespace c = true) : Tiled position text []
  | token {position lead kind rest tokens} (white : ∀ c ∈ lead, isWhitespace c = true) (lexable : kind.Lexable)
      (apart : kind.Apart rest) (others : Tiled (position+lead.length+kind.spelled.length) rest tokens) :
      Tiled position (lead++(kind.spelled++rest))
        (⟨kind,position+lead.length,position+lead.length+kind.spelled.length⟩::tokens)

theorem Tiled.blank {position : Nat} {c : Char} {text : Text} {tokens : List Token} (white : isWhitespace c = true)
    (tiled : Tiled (position+1) text tokens) : Tiled position (c::text) tokens := by
  cases tiled with
  | done whites => exact .done (List.forall_mem_cons.mpr ⟨white,whites⟩)
  | @token _ lead kind rest tokens whites lexable apart others =>
    have places : position+1+lead.length = position+(c::lead).length := by
      rw [List.length_cons]
      omega
    rw [places] at others ⊢
    exact .token (List.forall_mem_cons.mpr ⟨white,whites⟩) lexable apart others

theorem word_lexable {c : Char} {rest : Text} (inside : endsAWord c = false) :
    (Kind.word ((c::rest).takeWhile (!endsAWord ·))).Lexable := by
  constructor
  · simp [inside]
  · intro d found
    have kept := List.mem_takeWhile_imp found
    simpa using kept

theorem word_apart (text : Text) : (Kind.word (text.takeWhile (!endsAWord ·))).Apart (text.dropWhile (!endsAWord ·)) := by
  intro c found
  have stopped := List.head?_dropWhile_not (!endsAWord ·) text
  rw [found] at stopped
  simpa using stopped

theorem drop_word (text : Text) (inside : Char → Bool) : text.drop (text.takeWhile inside).length = text.dropWhile inside := by
  have parts := @List.takeWhile_append_dropWhile _ inside text
  calc text.drop (text.takeWhile inside).length
      = (text.takeWhile inside++text.dropWhile inside).drop (text.takeWhile inside).length := by rw [parts]
    _ = text.dropWhile inside := List.drop_left

theorem quote_found {rest : Text} {close : Nat} (found : rest.idxOf? '"' = some close) :
    '"' ∉ rest.take close ∧ rest = rest.take close++ '"'::rest.drop (close+1) := by
  obtain ⟨inside,at',before⟩ := List.idxOf?_eq_some_iff.mp found
  constructor
  · intro member
    obtain ⟨place,short,same⟩ := List.getElem_of_mem member
    rw [List.getElem_take] at same
    exact before place (by rw [List.length_take] at short; omega) same
  · rw [← at',← List.drop_eq_getElem_cons inside,List.take_append_drop]

theorem quote_behind {written : Text} (clean : '"' ∉ written) (rest : Text) :
    (written++ '"'::rest).idxOf? '"' = some written.length := by
  induction written with
  | nil => simp [List.idxOf?_cons]
  | cons c written ih =>
    simp only [List.mem_cons,not_or] at clean
    obtain ⟨other,clean⟩ := clean
    rw [List.cons_append,List.idxOf?_cons,ih clean]
    have apart : (c == '"') = false := beq_false_of_ne (Ne.symm other)
    simp [apart]

-- A sign of two characters, and the one that is its first alone.
theorem second_found {c : Char} {rest : Text} (found : rest.head? = some c) : rest = c::rest.drop 1 := by
  cases rest with
  | nil => cases found
  | cons d rest =>
    cases found
    rfl

theorem tokenAt_sound {position width : Nat} {c : Char} {rest : Text} {kind : Kind} (solid : isWhitespace c = false)
    (one : tokenAt position c rest = .ok (kind,width)) :
    kind.Lexable ∧ width = kind.spelled.length ∧ c::rest = kind.spelled++(c::rest).drop width ∧
      kind.Apart ((c::rest).drop width) ∧ 0 < width := by
  unfold tokenAt at one
  by_cases opens : c = '('
  · subst opens
    cases one
    exact ⟨trivial,rfl,rfl,trivial,Nat.one_pos⟩
  rw [if_neg opens] at one
  by_cases closes : c = ')'
  · subst closes
    cases one
    exact ⟨trivial,rfl,rfl,trivial,Nat.one_pos⟩
  rw [if_neg closes] at one
  by_cases comma : c = ','
  · subst comma
    cases one
    exact ⟨trivial,rfl,rfl,trivial,Nat.one_pos⟩
  rw [if_neg comma] at one
  by_cases and : c = '&'
  · subst and
    rw [if_pos rfl] at one
    split at one
    · rename_i again
      cases one
      exact ⟨trivial,rfl,congrArg ('&'::·) (second_found again),trivial,Nat.two_pos⟩
    · cases one
  rw [if_neg and] at one
  by_cases or : c = '|'
  · subst or
    rw [if_pos rfl] at one
    split at one
    · rename_i again
      cases one
      exact ⟨trivial,rfl,congrArg ('|'::·) (second_found again),trivial,Nat.two_pos⟩
    · cases one
  rw [if_neg or] at one
  by_cases negates : c = '!'
  · subst negates
    rw [if_pos rfl] at one
    split at one
    · rename_i equals
      cases one
      exact ⟨trivial,rfl,congrArg ('!'::·) (second_found equals),trivial,Nat.two_pos⟩
    · rename_i alone
      cases one
      exact ⟨trivial,rfl,rfl,alone,Nat.one_pos⟩
  rw [if_neg negates] at one
  by_cases less : c = '<'
  · subst less
    rw [if_pos rfl] at one
    split at one
    · rename_i equals
      cases one
      exact ⟨trivial,rfl,congrArg ('<'::·) (second_found equals),trivial,Nat.two_pos⟩
    · rename_i alone
      cases one
      exact ⟨trivial,rfl,rfl,alone,Nat.one_pos⟩
  rw [if_neg less] at one
  by_cases greater : c = '>'
  · subst greater
    rw [if_pos rfl] at one
    split at one
    · rename_i equals
      cases one
      exact ⟨trivial,rfl,congrArg ('>'::·) (second_found equals),trivial,Nat.two_pos⟩
    · rename_i alone
      cases one
      exact ⟨trivial,rfl,rfl,alone,Nat.one_pos⟩
  rw [if_neg greater] at one
  by_cases equals : c = '='
  · subst equals
    cases one
    exact ⟨trivial,rfl,rfl,trivial,Nat.one_pos⟩
  rw [if_neg equals] at one
  by_cases quotes : c = '"'
  · subst quotes
    rw [if_pos rfl] at one
    cases found : rest.idxOf? '"' with
    | none =>
      rw [found] at one
      cases one
    | some close =>
      rw [found] at one
      cases one
      obtain ⟨clean,parts⟩ := quote_found found
      have short := congrArg List.length parts
      rw [List.length_append,List.length_cons,List.length_drop] at short
      refine ⟨clean,?_,?_,trivial,Nat.succ_pos _⟩
      · simp only [Kind.spelled,List.length_cons,List.length_append,List.length_take,List.length_nil]
        simp only [List.length_take] at short
        omega
      · have behind : ('"'::rest).drop (close+2) = rest.drop (close+1) := rfl
        rw [behind]
        simpa [Kind.spelled] using parts
  rw [if_neg quotes] at one
  cases one
  have inside : endsAWord c = false := by simp_all [endsAWord]
  refine ⟨word_lexable inside,rfl,?_,?_,?_⟩
  · rw [Kind.spelled,drop_word,List.takeWhile_append_dropWhile]
  · rw [drop_word]
    exact word_apart _
  · exact List.length_pos_iff.mpr (word_lexable inside).1

theorem tokenAt_complete {kind : Kind} {rest : Text} (lexable : kind.Lexable) (apart : kind.Apart rest) (position : Nat) :
    ∃ c more, kind.spelled++rest = c::more ∧ isWhitespace c = false ∧
      tokenAt position c more = .ok (kind,kind.spelled.length) := by
  cases kind with
  | opening => exact ⟨_,_,rfl,rfl,rfl⟩
  | closing => exact ⟨_,_,rfl,rfl,rfl⟩
  | comma => exact ⟨_,_,rfl,rfl,rfl⟩
  | and => exact ⟨_,_,rfl,rfl,rfl⟩
  | or => exact ⟨_,_,rfl,rfl,rfl⟩
  | equals => exact ⟨_,_,rfl,rfl,rfl⟩
  | notEquals => exact ⟨_,_,rfl,rfl,rfl⟩
  | lessOrEqual => exact ⟨_,_,rfl,rfl,rfl⟩
  | greaterOrEqual => exact ⟨_,_,rfl,rfl,rfl⟩
  | not =>
    refine ⟨_,_,rfl,rfl,?_⟩
    simp only [Kind.Apart] at apart
    simp [tokenAt,apart,Kind.spelled]
  | less =>
    refine ⟨_,_,rfl,rfl,?_⟩
    simp only [Kind.Apart] at apart
    simp [tokenAt,apart,Kind.spelled]
  | greater =>
    refine ⟨_,_,rfl,rfl,?_⟩
    simp only [Kind.Apart] at apart
    simp [tokenAt,apart,Kind.spelled]
  | word written =>
    obtain ⟨filled,inside⟩ := lexable
    obtain ⟨c,more,rfl⟩ := List.exists_cons_of_ne_nil filled
    have first := inside c List.mem_cons_self
    refine ⟨c,more++rest,rfl,?_,?_⟩
    · simp only [endsAWord,Bool.or_eq_false_iff] at first
      exact first.1
    · have whole : (c::(more++rest)).takeWhile (!endsAWord ·) = c::more := by
        rw [← List.cons_append,List.takeWhile_append_of_pos (fun d found => by simpa using inside d found)]
        cases rest with
        | nil => simp
        | cons d rest => simp [apart d rfl]
      have other : c ≠ '(' ∧ c ≠ ')' ∧ c ≠ ',' ∧ c ≠ '&' ∧ c ≠ '|' ∧ c ≠ '!' ∧ c ≠ '<' ∧ c ≠ '>' ∧ c ≠ '=' ∧ c ≠ '"' := by
        refine ⟨?_,?_,?_,?_,?_,?_,?_,?_,?_,?_⟩ <;> intro same <;> subst same <;> cases first
      simp only [tokenAt,other,if_false,whole,Kind.spelled]
  | quoted written =>
    refine ⟨_,_,rfl,rfl,?_⟩
    have found := quote_behind lexable rest
    simp [tokenAt,Kind.spelled,found]

theorem lexFrom_sound {fuel position : Nat} {text : Text} {tokens : List Token} (enough : text.length ≤ fuel)
    (lexed : lexFrom fuel position text = .ok tokens) : Tiled position text tokens := by
  induction fuel generalizing position text tokens with
  | zero =>
    rw [List.length_eq_zero_iff.mp (Nat.le_zero.mp enough)] at lexed ⊢
    cases lexed
    exact .done (fun c found => absurd found List.not_mem_nil)
  | succ fuel ih =>
    cases text with
    | nil =>
      cases lexed
      exact .done (fun c found => absurd found List.not_mem_nil)
    | cons c rest =>
      rw [List.length_cons] at enough
      rw [lexFrom] at lexed
      split at lexed
      · rename_i white
        exact (ih (by omega) lexed).blank white
      · rename_i solid
        cases one : tokenAt position c rest with
        | error why =>
          rw [one] at lexed
          cases lexed
        | ok pair =>
          obtain ⟨kind,width⟩ := pair
          obtain ⟨lexable,wide,parts,apart,filled⟩ := tokenAt_sound (Bool.eq_false_iff.mpr solid) one
          simp only [bind,Except.bind,one] at lexed
          cases others : lexFrom fuel (position+width) ((c::rest).drop width) with
          | error why =>
            rw [others] at lexed
            cases lexed
          | ok more =>
            rw [others] at lexed
            cases lexed
            have tiled := ih (by rw [List.length_drop,List.length_cons]; omega) others
            rw [parts,wide]
            rw [wide] at tiled apart
            exact @Tiled.token position [] kind _ more (fun c found => absurd found List.not_mem_nil) lexable apart tiled

theorem Kind.spelled_filled (kind : Kind) (lexable : kind.Lexable) : kind.spelled ≠ [] := by
  cases kind with
  | word written => exact lexable.1
  | _ => exact List.cons_ne_nil _ _

theorem lexFrom_lead {fuel position : Nat} {lead rest : Text} (white : ∀ c ∈ lead, isWhitespace c = true) :
    lexFrom (fuel+lead.length) position (lead++rest) = lexFrom fuel (position+lead.length) rest := by
  induction lead generalizing position with
  | nil => rfl
  | cons c lead ih =>
    obtain ⟨first,white⟩ := List.forall_mem_cons.mp white
    rw [List.cons_append,List.length_cons,← Nat.add_assoc,lexFrom,if_pos first,ih white]
    congr 1
    omega

theorem lexFrom_white {fuel position : Nat} {text : Text} (enough : text.length ≤ fuel)
    (white : ∀ c ∈ text, isWhitespace c = true) : lexFrom fuel position text = .ok [] := by
  obtain ⟨fuel,rfl⟩ := Nat.exists_eq_add_of_le' enough
  have whole := @lexFrom_lead fuel position text [] white
  rw [List.append_nil] at whole
  rw [whole]
  cases fuel <;> rfl

theorem Tiled.lexes {fuel position : Nat} {text : Text} {tokens : List Token} (enough : text.length ≤ fuel)
    (tiled : Tiled position text tokens) : lexFrom fuel position text = .ok tokens := by
  induction tiled generalizing fuel with
  | @done position text white => exact lexFrom_white enough white
  | @token position lead kind rest tokens white lexable apart others ih =>
    obtain ⟨c,more,parts,solid,one⟩ := tokenAt_complete lexable apart (position+lead.length)
    rw [List.length_append,List.length_append] at enough
    obtain ⟨fuel,rfl⟩ := Nat.exists_eq_add_of_le' (Nat.le_of_add_right_le enough)
    rw [lexFrom_lead white]
    have long := congrArg List.length parts
    rw [List.length_append,List.length_cons] at long
    obtain ⟨fuel,rfl⟩ := Nat.exists_eq_add_one_of_ne_zero (show fuel ≠ 0 by omega)
    have behind : (c::more).drop kind.spelled.length = rest := by rw [← parts,List.drop_left]
    have wide : kind.spelled ≠ [] := kind.spelled_filled lexable
    have positive := List.length_pos_iff.mpr wide
    rw [parts,lexFrom,if_neg (by rw [solid]; simp)]
    simp only [bind,Except.bind,one,behind]
    rw [ih (by omega)]

-- The lexer finds exactly the tokens a text is tiled with.
theorem lex_tiles (text : Text) (tokens : List Token) : lex text = .ok tokens ↔ Tiled 1 text tokens :=
  ⟨lexFrom_sound (Nat.le_refl _),Tiled.lexes (Nat.le_refl _)⟩

end Expression
