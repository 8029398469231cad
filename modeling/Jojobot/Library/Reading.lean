import Mathlib.Data.List.Basic

namespace Library

section
variable {τ ω ε α : Type}

-- What is left of a line's tokens, and what was noted of those that were read.
structure Cursor (τ ω : Type) where
  rest : List τ
  noted : List ω

abbrev Reading (τ ω ε α : Type) := Cursor τ ω → Except ε (α × Cursor τ ω)

-- The lines a grammar takes, each with what it stands for and what is noted of it.
abbrev Phrase (τ ω α : Type) := List τ → α → List ω → Prop

-- The reader takes a phrase off the front, and takes every phrase that one of these rests follows.
structure Accepts (phrase : Phrase τ ω α) (ends : List τ → Prop) (reads : Reading τ ω ε α) : Prop where
  sound : ∀ cursor value next, reads cursor = .ok (value,next) →
    ∃ front noted, cursor.rest = front++next.rest ∧ next.noted = cursor.noted++noted ∧ phrase front value noted
  complete : ∀ front value noted rest before, phrase front value noted → ends rest →
    reads ⟨front++rest,before⟩ = .ok (value,⟨rest,before++noted⟩)

variable {phrase : Phrase τ ω α} {ends : List τ → Prop} {reads : Reading τ ω ε α} {sep : τ → Bool}

theorem Accepts.unique {front : List τ} {value other : α} {noted noted' : List ω} (accepts : Accepts phrase ends reads)
    (final : ends []) (first : phrase front value noted) (second : phrase front other noted') : value = other ∧ noted = noted' := by
  have same := (accepts.complete front value noted [] [] first final).symm.trans
    (accepts.complete front other noted' [] [] second final)
  simpa using same

-- Where it takes a whole line, the line is one phrase.
theorem Accepts.whole {line : List τ} {value : α} {noted : List ω} (accepts : Accepts phrase ends reads) (final : ends []) :
    reads ⟨line,[]⟩ = .ok (value,⟨[],noted⟩) ↔ phrase line value noted := by
  constructor
  · intro read
    obtain ⟨front,new,parts,notes,is⟩ := accepts.sound _ _ _ read
    simp only [List.append_nil,List.nil_append] at parts notes
    rw [parts,notes]
    exact is
  · intro is
    have read := accepts.complete line value noted [] [] is final
    simpa using read

theorem Accepts.before {ends' : List τ → Prop} (accepts : Accepts phrase ends reads) (fewer : ∀ rest, ends' rest → ends rest) :
    Accepts phrase ends' reads :=
  ⟨accepts.sound,fun front value noted rest before is final => accepts.complete front value noted rest before is (fewer rest final)⟩

-- What is read, made into something else.
theorem Accepts.map {β : Type} (accepts : Accepts phrase ends reads) (make : α → β) :
    Accepts (fun line value noted => ∃ parts, phrase line parts noted ∧ value = make parts) ends
      (fun cursor => do let (parts,next) ← reads cursor; .ok (make parts,next)) where
  sound cursor value next done := by
    cases one : reads cursor with
    | error why =>
      rw [one] at done
      cases done
    | ok pair =>
      obtain ⟨parts,after⟩ := pair
      rw [one] at done
      cases done
      obtain ⟨front,noted,split,notes,is⟩ := accepts.sound _ _ _ one
      exact ⟨front,noted,split,notes,parts,is,rfl⟩
  complete front value noted rest before is final := by
    obtain ⟨parts,is,same⟩ := is
    rw [accepts.complete front parts noted rest before is final,same]
    rfl

-- One phrase after another with a separator between two.
inductive Joined (phrase : Phrase τ ω α) (sep : τ → Bool) : Phrase τ ω (List α) where
  | one {front value noted} (first : phrase front value noted) : Joined phrase sep front [value] noted
  | more {front value noted token rest values notes} (first : phrase front value noted) (apart : sep token = true)
      (others : Joined phrase sep rest values notes) : Joined phrase sep (front++token::rest) (value::values) (noted++notes)

-- Where a phrase is never the empty line, a row of them is not either.
theorem Joined.filled (filled : ∀ value noted, ¬phrase [] value noted) {values : List α} {noted : List ω} :
    ¬Joined phrase sep [] values noted := by
  intro joined
  generalize empty : [] = line at joined
  cases joined with
  | one first =>
    rw [← empty] at first
    exact filled _ _ first
  | more first apart others => cases (List.append_eq_nil_iff.mp empty.symm).2

-- The loop behind the first: it goes on for as long as a separator comes next.
def severalFrom (reads : Reading τ ω ε α) (sep : τ → Bool) : Nat → List α → Reading τ ω ε (List α)
  | 0,values,cursor => .ok (values,cursor)
  | fuel+1,values,cursor =>
    match cursor.rest with
    | [] => .ok (values,cursor)
    | token::rest =>
      if sep token then do
        let (value,next) ← reads ⟨rest,cursor.noted⟩
        severalFrom reads sep fuel (values++[value]) next
      else .ok (values,cursor)

def several (reads : Reading τ ω ε α) (sep : τ → Bool) : Reading τ ω ε (List α) := fun cursor => do
  let (value,next) ← reads cursor
  severalFrom reads sep next.rest.length [value] next

def EndsRow (sep : τ → Bool) (rest : List τ) : Prop := ∀ token, rest.head? = some token → sep token = false

theorem severalFrom_sound (accepts : Accepts phrase ends reads) {fuel : Nat} {values read : List α} {cursor next : Cursor τ ω}
    (done : severalFrom reads sep fuel values cursor = .ok (read,next)) :
    (read = values ∧ next = cursor) ∨ ∃ token front new noted, sep token = true ∧ cursor.rest = token::(front++next.rest) ∧
      next.noted = cursor.noted++noted ∧ read = values++new ∧ Joined phrase sep front new noted := by
  induction fuel generalizing values cursor with
  | zero =>
    cases done
    exact Or.inl ⟨rfl,rfl⟩
  | succ fuel ih =>
    rw [severalFrom] at done
    split at done
    · cases done
      exact Or.inl ⟨rfl,rfl⟩
    · rename_i token rest shape
      split at done
      · rename_i apart
        cases one : reads ⟨rest,cursor.noted⟩ with
        | error why =>
          rw [one] at done
          cases done
        | ok pair =>
          obtain ⟨value,after⟩ := pair
          rw [one] at done
          obtain ⟨front,noted,parts,notes,is⟩ := accepts.sound _ _ _ one
          dsimp only at parts notes
          right
          rcases ih done with ⟨same,still⟩ | ⟨token',front',new,noted',apart',parts',notes',read',joined⟩
          · subst same
            subst still
            exact ⟨token,front,[value],noted,apart,by rw [shape,parts],notes,rfl,.one is⟩
          · refine ⟨token,front++token'::front',value::new,noted++noted',apart,?_,?_,?_,.more is apart' joined⟩
            · rw [shape,parts,parts']
              simp
            · rw [notes',notes,List.append_assoc]
            · rw [read']
              simp
      · cases done
        exact Or.inl ⟨rfl,rfl⟩

theorem severalFrom_stops {fuel : Nat} {values : List α} {rest : List τ} {noted : List ω} (apart : EndsRow sep rest) :
    severalFrom reads sep fuel values ⟨rest,noted⟩ = .ok (values,⟨rest,noted⟩) := by
  cases fuel with
  | zero => rfl
  | succ fuel =>
    cases rest with
    | nil => rfl
    | cons token rest => simp [severalFrom,apart token rfl]

theorem severalFrom_complete (accepts : Accepts phrase ends reads) (goes : ∀ token rest, sep token = true → ends (token::rest))
    {line rest : List τ} {new : List α} {noted : List ω} (joined : Joined phrase sep line new noted) (final : ends rest)
    (apart : EndsRow sep rest) {token : τ} (isSep : sep token = true) (fuel : Nat) (enough : line.length < fuel) (values : List α)
    (before : List ω) :
    severalFrom reads sep fuel values ⟨token::(line++rest),before⟩ = .ok (values++new,⟨rest,before++noted⟩) := by
  induction joined generalizing fuel values before token with
  | one first =>
    obtain ⟨fuel,rfl⟩ := Nat.exists_eq_add_one_of_ne_zero (by omega : fuel ≠ 0)
    rw [severalFrom]
    simp only [isSep,if_true,accepts.complete _ _ _ _ before first final]
    exact severalFrom_stops apart
  | @more front value noted token' behind more notes first isSep' others ih =>
    obtain ⟨fuel,rfl⟩ := Nat.exists_eq_add_one_of_ne_zero (by omega : fuel ≠ 0)
    rw [List.length_append,List.length_cons] at enough
    have one := accepts.complete _ _ _ (token'::(behind++rest)) before first (goes token' _ isSep')
    have whole : front++token'::behind++rest = front++token'::(behind++rest) := by simp
    rw [severalFrom]
    simp only [isSep,if_true,whole,one]
    have later := ih isSep' fuel (by omega) (values++[value]) (before++noted)
    rw [List.append_assoc,List.append_assoc] at later
    exact later

-- A row of phrases is read as one, up to a token that is no separator.
theorem several_accepts (accepts : Accepts phrase ends reads) (goes : ∀ token rest, sep token = true → ends (token::rest)) :
    Accepts (Joined phrase sep) (fun rest => ends rest ∧ EndsRow sep rest) (several reads sep) where
  sound cursor values next done := by
    unfold several at done
    cases one : reads cursor with
    | error why =>
      rw [one] at done
      cases done
    | ok pair =>
      obtain ⟨value,after⟩ := pair
      rw [one] at done
      obtain ⟨front,noted,parts,notes,is⟩ := accepts.sound _ _ _ one
      rcases severalFrom_sound accepts done with ⟨same,still⟩ | ⟨token,front',new,noted',apart,parts',notes',read,joined⟩
      · subst same
        subst still
        exact ⟨front,noted,parts,notes,.one is⟩
      · refine ⟨front++token::front',noted++noted',by rw [parts,parts']; simp,by rw [notes',notes,List.append_assoc],?_⟩
        rw [read]
        exact .more is apart joined
  complete front values noted rest before joined final := by
    unfold several
    cases joined with
    | one first =>
      rw [accepts.complete _ _ _ rest before first final.1]
      exact severalFrom_stops final.2
    | @more front value noted token behind more notes first isSep others =>
      have one := accepts.complete _ _ _ (token::(behind++rest)) before first (goes token _ isSep)
      have whole : front++token::behind++rest = front++token::(behind++rest) := by simp
      rw [whole,one]
      have later := severalFrom_complete accepts goes others final.1 final.2 isSep (token::(behind++rest)).length
        (by rw [List.length_cons,List.length_append]; omega) [value] (before++noted)
      rw [List.append_assoc] at later
      exact later

-- One stands for itself; more are combined.
def oneOr (combine : List α → α) : List α → α
  | [one] => one
  | parts => combine parts

def row (combine : List α → α) (reads : Reading τ ω ε α) (sep : τ → Bool) : Reading τ ω ε α := fun cursor => do
  let (parts,next) ← several reads sep cursor
  .ok (oneOr combine parts,next)

def RowOf (combine : List α → α) (phrase : Phrase τ ω α) (sep : τ → Bool) : Phrase τ ω α := fun line value noted =>
  ∃ parts, Joined phrase sep line parts noted ∧ value = oneOr combine parts

theorem row_accepts (combine : List α → α) (accepts : Accepts phrase ends reads)
    (goes : ∀ token rest, sep token = true → ends (token::rest)) :
    Accepts (RowOf combine phrase sep) (fun rest => ends rest ∧ EndsRow sep rest) (row combine reads sep) :=
  (several_accepts accepts goes).map (oneOr combine)

theorem Joined.weaken {wider : Phrase τ ω α} (each : ∀ line value noted, phrase line value noted → wider line value noted)
    {line : List τ} {values : List α} {noted : List ω} (joined : Joined phrase sep line values noted) :
    Joined wider sep line values noted := by
  induction joined with
  | one first => exact .one (each _ _ _ first)
  | more first apart others ih => exact .more (each _ _ _ first) apart ih

theorem RowOf.weaken {combine : List α → α} {wider : Phrase τ ω α}
    (each : ∀ line value noted, phrase line value noted → wider line value noted) (line : List τ) (value : α) (noted : List ω)
    (is : RowOf combine phrase sep line value noted) : RowOf combine wider sep line value noted := by
  obtain ⟨parts,joined,same⟩ := is
  exact ⟨parts,joined.weaken each,same⟩

-- A row holds a phrase at least.
theorem RowOf.holds_one {combine : List α → α} {line : List τ} {value : α} {noted : List ω}
    (is : RowOf combine phrase sep line value noted) : ∃ front one noted, phrase front one noted := by
  obtain ⟨parts,joined,_⟩ := is
  cases joined with
  | one first => exact ⟨_,_,_,first⟩
  | more first apart others => exact ⟨_,_,_,first⟩

-- What is taken, whatever is noted of it.
def Takes (phrase : Phrase τ ω α) (line : List τ) (value : α) : Prop := ∃ noted, phrase line value noted

-- One grammar in the terms of another, part by part.
theorem Joined.translated {β ω' : Type} {other : Phrase τ ω' β} {related : β → α → Prop}
    (each : ∀ line value, Takes phrase line value → ∃ made, Takes other line made ∧ related made value) {line : List τ}
    {values : List α} (taken : Takes (Joined phrase sep) line values) :
    ∃ mades, Takes (Joined other sep) line mades ∧ List.Forall₂ related mades values := by
  obtain ⟨noted,joined⟩ := taken
  induction joined with
  | one first =>
    obtain ⟨made,⟨noted,taken⟩,is⟩ := each _ _ ⟨_,first⟩
    exact ⟨[made],⟨noted,.one taken⟩,.cons is .nil⟩
  | more first apart others ih =>
    obtain ⟨made,⟨noted,taken⟩,is⟩ := each _ _ ⟨_,first⟩
    obtain ⟨mades,⟨noted',joined⟩,are⟩ := ih
    exact ⟨made::mades,⟨_,.more taken apart joined⟩,.cons is are⟩

theorem Joined.translated_back {β ω' : Type} {other : Phrase τ ω' β} {related : β → α → Prop}
    (each : ∀ line value made, Takes other line made → related made value → Takes phrase line value) {line : List τ}
    {values : List α} {mades : List β} (taken : Takes (Joined other sep) line mades) (are : List.Forall₂ related mades values) :
    Takes (Joined phrase sep) line values := by
  obtain ⟨noted,joined⟩ := taken
  induction joined generalizing values with
  | one first =>
    cases are with
    | cons is none' =>
      cases none'
      obtain ⟨noted,taken⟩ := each _ _ _ ⟨_,first⟩ is
      exact ⟨noted,.one taken⟩
  | more first apart others ih =>
    cases are with
    | cons is are =>
      obtain ⟨noted,taken⟩ := each _ _ _ ⟨_,first⟩ is
      obtain ⟨noted',joined⟩ := ih are
      exact ⟨_,.more taken apart joined⟩

-- A grammar that looks at its tokens through `look` alone.
def LooksAt {κ : Type} (look : τ → κ) (phrase : Phrase τ ω α) : Prop :=
  ∀ line other value, line.map look = other.map look → Takes phrase line value → Takes phrase other value

theorem LooksAt.joined {κ : Type} {look : τ → κ} (looks : LooksAt look phrase)
    (signs : ∀ token other, look token = look other → sep token = sep other) : LooksAt look (Joined phrase sep) := by
  intro line other values alike taken
  obtain ⟨noted,joined⟩ := taken
  induction joined generalizing other with
  | one first =>
    obtain ⟨noted,taken⟩ := looks _ other _ alike ⟨_,first⟩
    exact ⟨noted,.one taken⟩
  | @more front value noted token rest values notes first apart others ih =>
    rw [List.map_append,List.map_cons] at alike
    obtain ⟨front',behind,rfl,same,alike⟩ := List.map_eq_append_iff.mp alike.symm
    obtain ⟨token',rest',rfl,sign,alike⟩ := List.map_eq_cons_iff.mp alike
    obtain ⟨noted,taken⟩ := looks _ front' _ same.symm ⟨_,first⟩
    obtain ⟨noted',joined⟩ := ih rest' alike.symm
    exact ⟨_,.more taken ((signs _ _ sign).trans apart) joined⟩

theorem LooksAt.row {κ : Type} {look : τ → κ} {combine : List α → α} (looks : LooksAt look phrase)
    (signs : ∀ token other, look token = look other → sep token = sep other) : LooksAt look (RowOf combine phrase sep) := by
  intro line other value alike taken
  obtain ⟨noted,parts,joined,same⟩ := taken
  obtain ⟨noted,joined⟩ := looks.joined signs line other parts alike ⟨_,joined⟩
  exact ⟨noted,parts,joined,same⟩

theorem RowOf.filled {combine : List α → α} (filled : ∀ value noted, ¬phrase [] value noted) (value : α) (noted : List ω) :
    ¬RowOf combine phrase sep [] value noted := by
  intro is
  obtain ⟨parts,joined,_⟩ := is
  exact joined.filled filled

end
end Library
