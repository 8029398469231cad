import Jojobot.Memory.Filter.Expression.Grammar
import Jojobot.Memory.Filter.Expression.Lexing
import Jojobot.Memory.Filter.Expression.Shape

namespace Expression
open Library Memory

-- `standing` from the place that is copied up to: each `$name` is as many zeros.
def standFrom (chars : Text) : Nat → List Token → Text
  | cut,[] => chars.drop cut
  | cut,token::tokens =>
    if (inputOf token.kind).isSome then
      (chars.take (token.position-1)).drop cut++(List.replicate token.kind.spelled.length '0'++standFrom chars (token.stop-1) tokens)
    else standFrom chars cut tokens

def standing (text : Text) : Text :=
  match lex text with
  | .error _ => text
  | .ok tokens => standFrom text 0 tokens

section
variable [Scalars] [Days]

def readsSaved (text : Text) : Except Text Unit := (read (standing text) Days.fixed).map fun _ => ()
def savedValueWords (text : Text) : Except Text (List ValueWord) := valueWords (standing text)

end

-- What a token of the saved line is in the line that stands for it.
def Token.stand (token : Token) : Token :=
  if (inputOf token.kind).isSome then {token with kind := .word (List.replicate token.kind.spelled.length '0')} else token

theorem input_spelled {kind : Kind} (input : (inputOf kind).isSome = true) :
    ∃ name, kind = .word ('$'::name) ∧ kind.spelled = '$'::name := by
  unfold inputOf at input
  split at input
  · exact ⟨_,rfl,rfl⟩
  · cases input

-- The lines start alike, but for an input that is a zero in the one that stands for it.
def Heads (text stood : Text) : Prop := stood.head? = text.head? ∨ (text.head? = some '$' ∧ stood.head? = some '0')

theorem Heads.apart {kind : Kind} {text stood : Text} (heads : Heads text stood) (apart : kind.Apart text) : kind.Apart stood := by
  rcases heads with same | ⟨dollar,zero⟩
  · cases kind with
    | word written => exact fun c found => apart c (same.symm.trans found)
    | not => exact fun found => apart (same.symm.trans found)
    | less => exact fun found => apart (same.symm.trans found)
    | greater => exact fun found => apart (same.symm.trans found)
    | _ => trivial
  · cases kind with
    | word written => exact absurd (apart '$' dollar) (by decide)
    | not => simp [Kind.Apart,zero]
    | less => simp [Kind.Apart,zero]
    | greater => simp [Kind.Apart,zero]
    | _ => trivial

theorem heads_behind {lead text stood : Text} (heads : Heads text stood) : Heads (lead++text) (lead++stood) := by
  cases lead with
  | nil => exact heads
  | cons c lead => exact Or.inl rfl

theorem heads_same {lead text stood : Text} (filled : lead ≠ []) : Heads (lead++text) (lead++stood) := by
  cases lead with
  | nil => exact absurd rfl filled
  | cons c lead => exact Or.inl rfl

theorem Kind.Lexable.spelled_filled {kind : Kind} (lexable : kind.Lexable) : kind.spelled ≠ [] := by
  cases kind with
  | word written => exact lexable.1
  | _ => simp [Kind.spelled]

theorem standFrom_tiles {position : Nat} {text : Text} {tokens : List Token} (tiled : Tiled position text tokens)
    {before : Text} {cut : Nat} (place : position = before.length+1) (copied : cut ≤ before.length) :
    ∃ stood, standFrom (before++text) cut tokens = before.drop cut++stood ∧ stood.length = text.length ∧ Heads text stood ∧
      Tiled position stood (tokens.map Token.stand) := by
  induction tiled generalizing before cut with
  | @done position text white =>
    refine ⟨text,?_,rfl,Or.inl rfl,.done white⟩
    rw [standFrom,List.drop_append_of_le_length copied]
  | @token position lead kind rest tokens white lexable apart others ih =>
    subst place
    have whole : before++(lead++(kind.spelled++rest)) = before++lead++kind.spelled++rest := by simp
    have place : before.length+1+lead.length+kind.spelled.length = (before++lead++kind.spelled).length+1 := by
      rw [List.length_append,List.length_append]
      omega
    rw [whole,standFrom]
    split
    · rename_i input
      obtain ⟨name,_,spelled⟩ := input_spelled input
      obtain ⟨stood,stands,long,heads,tiled⟩ := @ih (before++lead++kind.spelled) (before++lead++kind.spelled).length place (Nat.le_refl _)
      rw [List.drop_length,List.nil_append] at stands
      refine ⟨lead++(List.replicate kind.spelled.length '0'++stood),?_,?_,?_,?_⟩
      · have stop : before.length+1+lead.length+kind.spelled.length-1 = (before++lead++kind.spelled).length := by
          rw [place]
          rfl
        have start : before.length+1+lead.length-1 = (before++lead).length := by
          rw [List.length_append]
          omega
        have taken : (before++lead++kind.spelled++rest).take (before++lead).length = before++lead := by
          rw [List.append_assoc (before++lead),List.take_left]
        dsimp only
        rw [stop,start,taken,stands,List.drop_append_of_le_length copied,List.append_assoc]
      · simp [long]
      · refine heads_behind (Or.inr ?_)
        rw [spelled]
        exact ⟨rfl,rfl⟩
      · rw [List.map_cons,Token.stand,if_pos input]
        have zeros : (Kind.word (List.replicate kind.spelled.length '0')).Lexable := by
          refine ⟨?_,?_⟩
          · rw [spelled]
            simp
          · intro c found
            rw [List.eq_of_mem_replicate found]
            rfl
        have behind : (Kind.word (List.replicate kind.spelled.length '0')).Apart stood := by
          obtain ⟨name,word,_⟩ := input_spelled input
          rw [show kind = .word ('$'::name) from word] at apart
          exact heads.apart apart
        have width : (Kind.word (List.replicate kind.spelled.length '0')).spelled.length = kind.spelled.length := List.length_replicate
        have stands := @Tiled.token (before.length+1) lead _ stood _ white zeros behind (by rw [width]; exact tiled)
        rw [width] at stands
        exact stands
    · rename_i plain
      have kept : cut ≤ (before++lead++kind.spelled).length := by
        rw [List.append_assoc,List.length_append]
        omega
      obtain ⟨stood,stands,long,heads,tiled⟩ := ih place kept
      refine ⟨lead++(kind.spelled++stood),?_,?_,?_,?_⟩
      · rw [stands,List.append_assoc,List.drop_append_of_le_length copied]
        simp
      · simp [long]
      · exact heads_behind (heads_same lexable.spelled_filled)
      · rw [List.map_cons,Token.stand,if_neg plain]
        exact .token white lexable (heads.apart apart) tiled

theorem standing_lexes {text : Text} {tokens : List Token} (lexed : lex text = .ok tokens) :
    (standing text).length = text.length ∧ lex (standing text) = .ok (tokens.map Token.stand) := by
  obtain ⟨stood,stands,long,_,tiled⟩ := @standFrom_tiles _ _ _ (lexFrom_sound (Nat.le_refl _) lexed) [] 0 rfl (Nat.le_refl _)
  have same : standing text = stood := by
    rw [standing,lexed]
    exact stands
  rw [same]
  exact ⟨long,tiled.lexes (Nat.le_refl _)⟩

-- A line let through when it is saved is, with its names as zeros, a line of the grammar.
theorem saved_line [Scalars] [Days] {text : Text} {tokens : List Token} (saved : readsSaved text = .ok ()) (lexed : lex text = .ok tokens) :
    text.length ≤ MAX_LENGTH ∧ ∃ tree values,
      OrOf (filters Days.fixed) (UnaryOf (filters Days.fixed) (asked Days.fixed) MAX_DEPTH) (tokens.map Token.stand) tree values := by
  obtain ⟨long,lexed'⟩ := standing_lexes lexed
  unfold readsSaved at saved
  cases done : read (standing text) Days.fixed with
  | error why =>
    rw [done] at saved
    cases saved
  | ok both =>
    obtain ⟨tree,values⟩ := both
    obtain ⟨short,tokens',lexed'',taken⟩ := read_sound done
    rw [lexed'] at lexed''
    cases lexed''
    rw [long] at short
    exact ⟨short,tree,values,taken⟩

-- A saved line is checked as its own words in their own places, each `$name` a value: it reads, and notes
-- its values, exactly when its tokens with the names as zeros are a line of the grammar.
theorem a_saved_line_keeps_its_places [Scalars] [Days] (text : Text) : (standing text).length = text.length ∧
    (readsSaved text = .ok () ↔ ∃ values, savedValueWords text = .ok values) ∧
      ∀ values, savedValueWords text = .ok values ↔ text.length ≤ MAX_LENGTH ∧ ∃ tokens tree, lex text = .ok tokens ∧
        OrOf (filters Days.fixed) (UnaryOf (filters Days.fixed) (asked Days.fixed) MAX_DEPTH) (tokens.map Token.stand) tree values := by
  have long : (standing text).length = text.length := by
    cases lexed : lex text with
    | error why => rw [standing,lexed]
    | ok tokens => exact (standing_lexes lexed).1
  refine ⟨long,?_,?_⟩
  · rw [readsSaved,savedValueWords,valueWords]
    cases read (standing text) Days.fixed with
    | error why =>
      constructor
      · intro reads
        cases reads
      · intro reads
        obtain ⟨_,reads⟩ := reads
        cases reads
    | ok both => exact ⟨fun _ => ⟨_,rfl⟩,fun _ => rfl⟩
  · intro values
    have reads : savedValueWords text = .ok values ↔ ∃ tree, read (standing text) Days.fixed = .ok (tree,values) := by
      rw [savedValueWords,valueWords]
      cases read (standing text) Days.fixed with
      | error why =>
        constructor
        · intro same
          cases same
        · intro same
          obtain ⟨_,same⟩ := same
          cases same
      | ok both =>
        obtain ⟨tree,others⟩ := both
        constructor
        · intro same
          cases same
          exact ⟨tree,rfl⟩
        · intro same
          obtain ⟨_,same⟩ := same
          cases same
          rfl
    rw [reads]
    constructor
    · intro found
      obtain ⟨tree,found⟩ := found
      obtain ⟨short,tokens',lexed',taken⟩ := read_sound found
      rw [long] at short
      cases lexed : lex text with
      | error why =>
        have same : standing text = text := by rw [standing,lexed]
        rw [same,lexed] at lexed'
        cases lexed'
      | ok tokens =>
        rw [(standing_lexes lexed).2] at lexed'
        cases lexed'
        exact ⟨short,tokens,tree,rfl,taken⟩
    · intro found
      obtain ⟨short,tokens,tree,lexed,taken⟩ := found
      obtain ⟨_,lexed'⟩ := standing_lexes lexed
      exact ⟨tree,read_complete (by rw [long]; exact short) lexed' taken⟩

end Expression
