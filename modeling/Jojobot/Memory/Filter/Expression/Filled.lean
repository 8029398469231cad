import Jojobot.Memory.Filter.Expression.Lexing
import Jojobot.Memory.Filter.Expression.Shaped

namespace Expression
open Library Memory ViewInputs

-- Where a token stands makes no difference to what a line stands for.
abbrev ByKind {ω α : Type} (phrase : Phrase Token ω α) : Prop := LooksAt Token.kind phrase

theorem one_alike {token : Token} {other : List Token} (alike : [token].map Token.kind = other.map Token.kind) :
    ∃ token', other = [token'] ∧ token'.kind = token.kind := by
  obtain ⟨token',rest,rfl,same,none'⟩ := List.map_eq_cons_iff.mp alike.symm
  exact ⟨token',by rw [List.map_eq_nil_iff.mp none'],same⟩

-- A line between two tokens of a kind of their own.
theorem between_alike {first last : Token} {inside other : List Token}
    (alike : (first::(inside++[last])).map Token.kind = other.map Token.kind) :
    ∃ first' inside' last', other = first'::(inside'++[last']) ∧ first'.kind = first.kind ∧ last'.kind = last.kind ∧
      inside.map Token.kind = inside'.map Token.kind := by
  obtain ⟨first',behind,rfl,opens,alike⟩ := List.map_eq_cons_iff.mp alike.symm
  rw [List.map_append] at alike
  obtain ⟨inside',tail,rfl,same,alike⟩ := List.map_eq_append_iff.mp alike
  obtain ⟨last',rfl,closes⟩ := one_alike alike.symm
  exact ⟨first',inside',last',rfl,opens,closes,same.symm⟩

section
variable [Scalars] [Days] {today : Scalars.Date} {tree : Filter}

theorem readWord_anywhere {written : Text} {token : Token} {operand : Operand} (reads : readWord today written token = .ok operand)
    (other : Token) : readWord today written other = .ok operand := by
  unfold readWord at reads ⊢
  split
  · rename_i apart
    rw [if_pos apart] at reads
    exact reads
  · rename_i starts
    rw [if_neg starts] at reads
    split at reads
    · exact reads
    · split
      · rename_i unsigned
        rw [if_pos unsigned] at reads
        exact reads
      · rename_i signed
        rw [if_neg signed] at reads
        split at reads
        · exact reads
        · cases reads

theorem ByKind.value : ByKind (ValueOf today) := by
  intro line other wanted alike taken
  obtain ⟨noted,is⟩ := taken
  cases is with
  | word spelled reads =>
    obtain ⟨token,rfl,same⟩ := one_alike alike
    exact ⟨_,.word (same.trans spelled) (readWord_anywhere reads token)⟩
  | quoted spelled =>
    obtain ⟨token,rfl,same⟩ := one_alike alike
    exact ⟨_,.quoted (same.trans spelled)⟩

theorem ByKind.operand : ByKind (OperandOf today) := by
  intro line other wanted alike taken
  obtain ⟨noted,is⟩ := taken
  cases is with
  | day spelled reads =>
    obtain ⟨token,rfl,same⟩ := one_alike alike
    exact ⟨_,.day (same.trans spelled) (readWord_anywhere reads token)⟩
  | date spelled reads parses =>
    obtain ⟨token,rfl,same⟩ := one_alike alike
    exact ⟨_,.date (same.trans spelled) (readWord_anywhere reads token) parses⟩
  | number spelled reads apart parses =>
    obtain ⟨token,rfl,same⟩ := one_alike alike
    exact ⟨_,.number (same.trans spelled) (readWord_anywhere reads token) apart parses⟩

theorem ByKind.list : ByKind (ListOf today) := by
  intro line other items alike taken
  obtain ⟨noted,first,inside,last,rfl,opens,closes,joined⟩ := taken
  obtain ⟨first',inside',last',rfl,same,same',alike⟩ := between_alike alike
  have signs : ∀ token other : Token, token.kind = other.kind → isComma token = isComma other := by
    intro token other same
    rw [isComma,isComma,same]
  obtain ⟨noted',joined'⟩ := (ByKind.value.joined signs) inside inside' items alike ⟨noted,joined⟩
  exact ⟨noted',first',inside',last',rfl,same.trans opens,same'.trans closes,joined'⟩

theorem ByKind.behind (key : Text) : ByKind (AskedOf today key) := by
  intro line other tree alike taken
  obtain ⟨noted,is⟩ := taken
  cases is with
  | carried =>
    rw [List.map_nil,eq_comm,List.map_eq_nil_iff] at alike
    subst alike
    exact ⟨_,.carried⟩
  | equals op compared =>
    obtain ⟨token,rest,rfl,same,alike⟩ := List.map_eq_cons_iff.mp alike.symm
    obtain ⟨noted,is⟩ := ByKind.value _ rest _ alike.symm ⟨_,compared⟩
    exact ⟨noted,.equals (same.trans op) is⟩
  | notEquals op compared =>
    obtain ⟨token,rest,rfl,same,alike⟩ := List.map_eq_cons_iff.mp alike.symm
    obtain ⟨noted,is⟩ := ByKind.value _ rest _ alike.symm ⟨_,compared⟩
    exact ⟨noted,.notEquals (same.trans op) is⟩
  | contains op compared =>
    obtain ⟨token,rest,rfl,same,alike⟩ := List.map_eq_cons_iff.mp alike.symm
    obtain ⟨noted,is⟩ := ByKind.value _ rest _ alike.symm ⟨_,compared⟩
    exact ⟨noted,.contains (same.trans op) is⟩
  | isIn op compared =>
    obtain ⟨token,rest,rfl,same,alike⟩ := List.map_eq_cons_iff.mp alike.symm
    obtain ⟨noted,is⟩ := ByKind.list _ rest _ alike.symm ⟨_,compared⟩
    exact ⟨noted,.isIn (same.trans op) is⟩
  | order op compared =>
    obtain ⟨token,rest,rfl,same,alike⟩ := List.map_eq_cons_iff.mp alike.symm
    obtain ⟨noted,is⟩ := ByKind.operand _ rest _ alike.symm ⟨_,compared⟩
    exact ⟨noted,.order (by rw [same]; exact op) is⟩

theorem ByKind.term : ByKind (TermOf (asked today)) := by
  intro line other tree alike taken
  obtain ⟨noted,token,key,rest,rfl,spelled,is⟩ := taken
  obtain ⟨token',rest',rfl,same,alike⟩ := List.map_eq_cons_iff.mp alike.symm
  obtain ⟨noted',is'⟩ := ByKind.behind key rest rest' tree alike.symm ⟨noted,is⟩
  exact ⟨noted',token',key,rest',rfl,same.trans spelled,is'⟩

theorem ByKind.or {phrase : Phrase Token ValueWord Filter} (looks : ByKind phrase) : ByKind (OrOf (filters today) phrase) := by
  refine (looks.row ?_).row ?_
  · intro token other same
    rw [isAnd,isAnd,same]
  · intro token other same
    rw [isOr,isOr,same]

theorem ByKind.unary (levels : Nat) : ByKind (UnaryOf (filters today) (asked today) levels) := by
  induction levels with
  | zero => exact ByKind.term
  | succ levels ih =>
    intro line other tree alike taken
    obtain ⟨noted,is | ⟨first,rest,inner,rfl,negates,is,made⟩ | ⟨first,inside,last,inner,rfl,opens,closes,is,made⟩⟩ := taken
    · obtain ⟨noted,is⟩ := ByKind.term line other tree alike ⟨noted,is⟩
      exact ⟨noted,Or.inl is⟩
    · obtain ⟨first',rest',rfl,same,alike⟩ := List.map_eq_cons_iff.mp alike.symm
      obtain ⟨noted',is⟩ := ih rest rest' inner alike.symm ⟨noted,is⟩
      exact ⟨noted',Or.inr (Or.inl ⟨first',rest',inner,rfl,same.trans negates,is,made⟩)⟩
    · obtain ⟨first',inside',last',rfl,same,same',alike⟩ := between_alike alike
      obtain ⟨noted',is⟩ := ih.or inside inside' inner alike ⟨noted,is⟩
      exact ⟨noted',Or.inr (Or.inr ⟨first',inside',last',inner,rfl,same.trans opens,same'.trans closes,is,made⟩)⟩

end

-- What a text lexes to, the places left out.
def Tiles (text : Text) (kinds : List Kind) : Prop := ∀ position, ∃ tokens, Tiled position text tokens ∧ tokens.map Token.kind = kinds

-- What comes behind a part of a filled line.
def Follows (rest : Text) : Prop := ∀ c, rest.head? = some c → c = ' ' ∨ c = ')' ∨ c = ','

def Spells (text : Text) (kinds : List Kind) : Prop :=
  ∀ rest more, Follows rest → Tiles rest more → Tiles (text++rest) (kinds++more)

theorem Tiles.done : Tiles [] [] := fun _ => ⟨[],.done (fun _ found => absurd found List.not_mem_nil),rfl⟩

theorem Tiles.blank {rest : Text} {kinds : List Kind} (tiles : Tiles rest kinds) : Tiles (' '::rest) kinds := by
  intro position
  obtain ⟨tokens,tiled,same⟩ := tiles (position+1)
  exact ⟨tokens,tiled.blank rfl,same⟩

theorem Tiles.token {kind : Kind} {rest : Text} {kinds : List Kind} (lexable : kind.Lexable) (apart : kind.Apart rest)
    (tiles : Tiles rest kinds) : Tiles (kind.spelled++rest) (kind::kinds) := by
  intro position
  obtain ⟨tokens,tiled,same⟩ := tiles (position+kind.spelled.length)
  have first := @Tiled.token position [] kind rest tokens (fun _ found => absurd found List.not_mem_nil) lexable apart tiled
  exact ⟨_,first,by rw [List.map_cons,same]⟩

theorem Follows.apart {rest : Text} (follows : Follows rest) (kind : Kind) : kind.Apart rest := by
  have stops : ∀ c, rest.head? = some c → endsAWord c = true := by
    intro c found
    rcases follows c found with rfl | rfl | rfl <;> rfl
  have alone : rest.head? ≠ some '=' := by
    intro found
    rcases follows '=' found with same | same | same <;> cases same
  cases kind <;> first | exact trivial | exact alone | exact stops

theorem follows_of {c : Char} (is : c = ' ' ∨ c = ')' ∨ c = ',') (rest : Text) : Follows (c::rest) := by
  intro d found
  cases found
  exact is

theorem Follows.nil : Follows [] := by
  intro c found
  cases found

theorem asAValue_spells {text spelled : Text} (made : asAValue text = .ok spelled) :
    spelled = (valueKind text).spelled ∧ (valueKind text).Lexable := by
  unfold asAValue at made
  split at made
  · cases made
  · rename_i clean
    unfold valueKind
    split at made
    · rename_i quotes
      cases made
      rw [if_pos quotes]
      exact ⟨rfl,clean⟩
    · rename_i plain
      cases made
      rw [if_neg plain]
      obtain ⟨filled,inside⟩ := not_or.mp plain
      refine ⟨rfl,filled,?_⟩
      intro c found
      by_contra ends
      exact inside (List.any_eq_true.mpr ⟨c,found,Bool.not_eq_false _ ▸ ends⟩)

section
variable {bound : Bound}

theorem filledKind_same {token : Token} (other : inputOf token.kind = none) : filledKind bound token = some token := by
  rw [filledKind,other]
  rfl

theorem filledKind_value {token made : Token} (is : token.kind.isValue = true) (filled : filledKind bound token = some made) :
    made.kind.isValue = true := by
  unfold filledKind at filled
  split at filled
  · cases filled
  · cases filled
    dsimp only
    unfold valueKind
    split <;> rfl
  · cases filled
    exact is

-- A word of a term as it is printed is the token it is filled with.
theorem filledWord_spells {previous : Kind} {token : Token} {out : Option Text} (lexable : token.kind.Lexable)
    (filled : filledWord bound (some previous) token.kind = .ok out) :
    (out = none ∧ filledKind bound token = none) ∨
      ∃ made, out = some made.kind.spelled ∧ filledKind bound token = some made ∧ made.kind.Lexable := by
  simp only [filledWord,Option.isSome_some,if_true] at filled
  unfold filledKind
  split at filled
  · rename_i found
    cases filled
    rw [found]
    exact Or.inl ⟨rfl,rfl⟩
  · rename_i value found
    rw [found]
    cases written : asAValue value.text with
    | error why =>
      rw [written] at filled
      cases filled
    | ok spelled =>
      rw [written] at filled
      cases filled
      obtain ⟨same,lexable⟩ := asAValue_spells written
      exact Or.inr ⟨{token with kind := valueKind value.text},congrArg some same,rfl,lexable⟩
  · rename_i found
    cases filled
    rw [found]
    exact Or.inr ⟨token,rfl,rfl,lexable⟩

theorem tight_made {token made : Token} {previous : Option Kind} (filled : filledKind bound token = some made)
    (close : tight previous token.kind = true) : made.kind = .comma ∨ made.kind = .closing ∨ previous = none ∨ previous = some .opening := by
  have marks : token.kind = .comma ∨ token.kind = .closing → made = token := by
    intro mark
    have other : inputOf token.kind = none := by rcases mark with mark | mark <;> rw [mark] <;> rfl
    rw [filledKind_same other] at filled
    exact (Option.some.inj filled).symm
  simp only [tight,Bool.or_eq_true,decide_eq_true_eq] at close
  rcases close with ((comma | closing) | none') | opening
  · exact Or.inl (by rw [marks (Or.inl comma)]; exact comma)
  · exact Or.inr (Or.inl (by rw [marks (Or.inr closing)]; exact closing))
  · exact Or.inr (Or.inr (Or.inl none'))
  · exact Or.inr (Or.inr (Or.inr opening))

theorem filledTerm_spells {words : List Token} {previous : Kind} {line : Text} {out : Option Text}
    (lexable : ∀ word ∈ words, word.kind.Lexable) (filled : filledTerm bound (some previous) line words = .ok out) :
    (out = none ∧ words.mapM (filledKind bound) = none) ∨
      ∃ text made, out = some (line++text) ∧ words.mapM (filledKind bound) = some made ∧
        ∀ rest more, Follows rest → Tiles rest more → Tiles (text++rest) (made.map Token.kind++more) ∧
          (previous = .opening ∨ Follows (text++rest)) := by
  induction words generalizing previous line with
  | nil =>
    cases filled
    exact Or.inr ⟨[],[],by rw [List.append_nil],rfl,fun rest more follows tiles => ⟨tiles,Or.inr follows⟩⟩
  | cons word words ih =>
    obtain ⟨first,lexable⟩ := List.forall_mem_cons.mp lexable
    rw [filledTerm] at filled
    cases one : filledWord bound (some previous) word.kind with
    | error why =>
      rw [one] at filled
      cases filled
    | ok out' =>
      simp only [bind,Except.bind,one] at filled
      rw [List.mapM_cons]
      rcases filledWord_spells first one with ⟨rfl,none'⟩ | ⟨made,rfl,same,lexable'⟩
      · cases filled
        rw [none']
        exact Or.inl ⟨rfl,rfl⟩
      · rw [same]
        rcases ih lexable filled with ⟨rfl,none'⟩ | ⟨text,others,rfl,same',spells⟩
        · rw [none']
          exact Or.inl ⟨rfl,rfl⟩
        · rw [same']
          refine Or.inr ⟨(if tight (some previous) word.kind then [] else [' '])++made.kind.spelled++text,made::others,?_,rfl,?_⟩
          · simp
          · intro rest more follows tiles
            obtain ⟨tiles,follows⟩ := spells rest more follows tiles
            have apart : made.kind.Apart (text++rest) := by
              rcases follows with opening | follows
              · have other : inputOf word.kind = none := by
                  rw [opening]
                  rfl
                rw [filledKind_same other] at same
                cases same
                rw [opening]
                trivial
              · exact follows.apart _
            have printed := tiles.token lexable' apart
            split
            · rename_i close
              simp only [List.nil_append,List.append_assoc]
              refine ⟨printed,?_⟩
              rcases tight_made same close with comma | closing | none' | opening
              · rw [comma]
                exact Or.inr (follows_of (Or.inr (Or.inr rfl)) _)
              · rw [closing]
                exact Or.inr (follows_of (Or.inr (Or.inl rfl)) _)
              · cases none'
              · exact Or.inl (Option.some.inj opening)
            · simp only [List.append_assoc,List.cons_append,List.nil_append]
              exact ⟨printed.blank,Or.inr (follows_of (Or.inl rfl) _)⟩

theorem filled_cons {token : Token} {words made : List Token} (filled : (token::words).mapM (filledKind bound) = some made) :
    ∃ first rest, made = first::rest ∧ filledKind bound token = some first ∧ words.mapM (filledKind bound) = some rest := by
  rw [List.mapM_cons] at filled
  obtain ⟨first,is,more⟩ := Option.bind_eq_some_iff.mp filled
  obtain ⟨rest,others,same⟩ := Option.bind_eq_some_iff.mp more
  exact ⟨first,rest,(Option.some.inj same).symm,is,others⟩

theorem filled_sign {token : Token} {words made : List Token} (sign : inputOf token.kind = none)
    (filled : (token::words).mapM (filledKind bound) = some made) :
    ∃ rest, made = token::rest ∧ words.mapM (filledKind bound) = some rest := by
  obtain ⟨first,rest,rfl,is,others⟩ := filled_cons filled
  rw [filledKind_same sign] at is
  cases is
  exact ⟨rest,rfl,others⟩

theorem Items.filled {words made : List Token} (is : Items words) (filled : words.mapM (filledKind bound) = some made) : Items made := by
  induction is generalizing made with
  | done closes =>
    obtain ⟨rest,rfl,none'⟩ := filled_sign (by rw [closes]; rfl) filled
    cases none'
    exact .done closes
  | more apart is others ih =>
    have sign := of_decide_eq_true apart
    obtain ⟨behind,rfl,more⟩ := filled_sign (by rw [sign]; rfl) filled
    obtain ⟨item,rest,rfl,is',others'⟩ := filled_cons more
    exact .more apart (filledKind_value is is') (ih others')

theorem Asks.filled {words made : List Token} (is : Asks words) (filled : words.mapM (filledKind bound) = some made) : Asks made := by
  cases is with
  | nothing =>
    cases filled
    exact .nothing
  | @one op item asks is =>
    have sign : inputOf op.kind = none := by
      cases kind : op.kind with
      | word written =>
        rw [kind] at asks
        rw [of_decide_eq_true asks]
        rfl
      | _ => rfl
    obtain ⟨behind,rfl,more⟩ := filled_sign sign filled
    obtain ⟨item',rest,rfl,is',none'⟩ := filled_cons more
    cases none'
    exact .one asks (filledKind_value is is')
  | isIn asks opens is others =>
    obtain ⟨behind,rfl,more⟩ := filled_sign (by rw [asks]; rfl) filled
    obtain ⟨inside,rfl,listed⟩ := filled_sign (by rw [opens]; rfl) more
    obtain ⟨item',rest,rfl,is',others'⟩ := filled_cons listed
    exact .isIn asks opens (filledKind_value is is') (others.filled others')

-- What a part of a line is filled with, in text and in shape.
def FilledAs (bound : Bound) (shapes : Phrase Token Unit Node) (node : Node) (out : Option Text) : Prop :=
  (out = none ∧ node.bind bound = none) ∨ ∃ text made line, out = some text ∧ node.bind bound = some made ∧
    Takes shapes line made ∧ Spells text (line.map Token.kind) ∧ ∃ c behind, text = c::behind ∧ c ≠ '='

def Fills (bound : Bound) (shapes : Phrase Token Unit Node) : Prop :=
  ∀ line node out, Takes shapes line node → (∀ token ∈ line, token.kind.Lexable) → filled bound node = .ok out →
    FilledAs bound shapes node out

theorem Fills.term : Fills bound (TermOf shapeAsked) := by
  intro line node out taken lexable filled
  obtain ⟨noted,token,key,rest,rfl,spelled,asks,rfl,rfl⟩ := taken
  obtain ⟨first,lexable⟩ := List.forall_mem_cons.mp lexable
  have written : filledWord bound none token.kind = .ok (some token.kind.spelled) := rfl
  rw [Expression.filled,filledTerm] at filled
  simp only [written,bind,Except.bind] at filled
  have close : tight none token.kind = true := by simp [tight]
  rw [if_pos close] at filled
  rcases filledTerm_spells lexable filled with ⟨rfl,none'⟩ | ⟨text,made,rfl,same,spells⟩
  · refine Or.inl ⟨rfl,?_⟩
    rw [Node.bind,none']
    rfl
  · refine Or.inr ⟨_,.term (token::made),token::made,rfl,?_,⟨[],token,key,made,rfl,spelled,asks.filled same,rfl,rfl⟩,?_,?_⟩
    · rw [Node.bind,same]
      rfl
    · intro rest more follows tiles
      obtain ⟨tiles,follows⟩ := spells rest more follows tiles
      have apart : token.kind.Apart (text++rest) := by
        rcases follows with opening | follows
        · rw [spelled] at opening
          cases opening
        · exact follows.apart _
      simpa using tiles.token first apart
    · rw [spelled] at first ⊢
      obtain ⟨filled,inside⟩ := first
      obtain ⟨c,behind,rfl⟩ := List.exists_cons_of_ne_nil filled
      refine ⟨c,behind++text,rfl,?_⟩
      rintro rfl
      cases inside '=' List.mem_cons_self

theorem Fills.not {shapes : Phrase Token Unit Node} (fills : Fills bound shapes) : Fills bound (NotOf nodes shapes) := by
  intro line node out taken lexable filled
  obtain ⟨noted,first,rest,inner,rfl,negates,is,rfl⟩ := taken
  obtain ⟨_,lexable⟩ := List.forall_mem_cons.mp lexable
  change (do let line ← Expression.filled bound inner; .ok (line.map ('!'::·))) = Except.ok out at filled
  cases within : Expression.filled bound inner with
  | error why =>
    rw [within] at filled
    cases filled
  | ok out' =>
    rw [within] at filled
    cases filled
    rcases fills rest inner out' ⟨noted,is⟩ lexable within with ⟨rfl,none'⟩ | ⟨text,made,line,rfl,same,⟨noted,taken⟩,spells,c,behind,rfl,other⟩
    · refine Or.inl ⟨rfl,?_⟩
      change (inner.bind bound).map Node.not = none
      rw [none']
      rfl
    · refine Or.inr ⟨_,.not made,first::line,rfl,?_,⟨noted,first,line,made,rfl,negates,taken,rfl⟩,?_,'!',_,rfl,by simp⟩
      · change (inner.bind bound).map Node.not = some (.not made)
        rw [same]
        rfl
      · intro rest more follows tiles
        rw [List.map_cons,negates]
        have apart : Kind.not.Apart (c::behind++rest) := by simpa [Kind.Apart] using other
        exact @Tiles.token .not _ _ trivial apart (spells rest more follows tiles)

theorem Fills.group {shapes : Phrase Token Unit Node} (fills : Fills bound (OrOf nodes shapes)) : Fills bound (GroupOf nodes shapes) := by
  intro line node out taken lexable filled
  obtain ⟨noted,first,inside,last,inner,rfl,opens,closes,is,rfl⟩ := taken
  have lexable' : ∀ token ∈ inside, token.kind.Lexable := fun token found => lexable token (by simp [found])
  change (do let line ← Expression.filled bound inner; .ok (line.map fun line => '('::(line++[')']))) = Except.ok out at filled
  cases within : Expression.filled bound inner with
  | error why =>
    rw [within] at filled
    cases filled
  | ok out' =>
    rw [within] at filled
    cases filled
    rcases fills inside inner out' ⟨noted,is⟩ lexable' within with ⟨rfl,none'⟩ | ⟨text,made,line,rfl,same,⟨noted,taken⟩,spells,_⟩
    · refine Or.inl ⟨rfl,?_⟩
      change (inner.bind bound).map Node.group = none
      rw [none']
      rfl
    · refine Or.inr ⟨_,.group made,first::(line++[last]),rfl,?_,⟨noted,first,line,last,made,rfl,opens,closes,taken,rfl⟩,?_,'(',_,rfl,by simp⟩
      · change (inner.bind bound).map Node.group = some (.group made)
        rw [same]
        rfl
      · intro rest more follows tiles
        have closed := @Tiles.token .closing _ _ trivial trivial tiles
        have inside := spells (')'::rest) (.closing::more) (follows_of (Or.inr (Or.inl rfl)) rest) closed
        have opened := @Tiles.token .opening _ _ trivial trivial inside
        simpa [opens,closes,Kind.spelled] using opened

-- The text between two parts is a sign of the line with a blank at each end.
def between (sign : Kind) : Text := ' '::(sign.spelled++[' '])

theorem Spells.between {sign : Kind} {text more : Text} {kinds kinds' : List Kind} (lexable : sign.Lexable) (spells : Spells text kinds)
    (others : Spells more kinds') : Spells (text++between sign++more) (kinds++sign::kinds') := by
  intro rest behind follows tiles
  have blank : Follows (' '::(more++rest)) := follows_of (Or.inl rfl) _
  have signed := (others rest behind follows tiles).blank.token lexable (blank.apart sign)
  have whole := spells _ _ (follows_of (Or.inl rfl) (sign.spelled++ ' '::(more++rest))) signed.blank
  simpa [Expression.between] using whole

theorem filledParts_cons {part : Node} {parts : List Node} {kept : List Text} (filled : filledParts bound (part::parts) = .ok kept) :
    ∃ out others, Expression.filled bound part = .ok out ∧ filledParts bound parts = .ok others ∧ kept = out.toList++others := by
  rw [filledParts] at filled
  cases one : Expression.filled bound part with
  | error why =>
    rw [one] at filled
    cases filled
  | ok out =>
    simp only [bind,Except.bind,one] at filled
    cases more : filledParts bound parts with
    | error why =>
      rw [more] at filled
      cases filled
    | ok others =>
      rw [more] at filled
      cases filled
      exact ⟨out,others,rfl,rfl,rfl⟩

-- A row keeps the parts that are not dropped, with the sign between two that are left.
theorem filled_row {shapes : Phrase Token Unit Node} {sign : Kind} {sep : Token → Bool} (fills : Fills bound shapes)
    (lexable : sign.Lexable) (signs : ∀ token, sep token = true → token.kind = sign) {line : List Token} {parts : List Node}
    {noted : List Unit} {kept : List Text} (joined : Joined shapes sep line parts noted) (lexes : ∀ token ∈ line, token.kind.Lexable)
    (filled : filledParts bound parts = .ok kept) :
    (kept = [] ∧ bindParts bound parts = []) ∨ ∃ line', kept ≠ [] ∧ Takes (Joined shapes sep) line' (bindParts bound parts) ∧
      Spells ((between sign).intercalate kept) (line'.map Token.kind) ∧ ∃ c behind, (between sign).intercalate kept = c::behind ∧ c ≠ '=' := by
  induction joined generalizing kept with
  | @one line part noted first =>
    obtain ⟨out,others,is,none',rfl⟩ := filledParts_cons filled
    cases none'
    rw [bindParts,bindParts]
    rcases fills line part out ⟨noted,first⟩ lexes is with ⟨rfl,same⟩ | ⟨text,made,line',rfl,same,⟨noted,taken⟩,spells,begins⟩
    · rw [same]
      exact Or.inl ⟨rfl,rfl⟩
    · rw [same]
      refine Or.inr ⟨line',List.cons_ne_nil _ _,⟨noted,.one taken⟩,?_⟩
      simp only [Option.toList_some,List.append_nil,List.intercalate_singleton]
      exact ⟨spells,begins⟩
  | @more line part noted token rest parts notes first apart others ih =>
    obtain ⟨out,texts,is,more,rfl⟩ := filledParts_cons filled
    rw [bindParts]
    have later := ih (fun token found => lexes token (by simp [found])) more
    rcases fills line part out ⟨noted,first⟩ (fun token found => lexes token (by simp [found])) is with
      ⟨rfl,same⟩ | ⟨text,made,line',rfl,same,⟨noted,taken⟩,spells,c,behind,rfl,begins⟩
    · rw [same]
      exact later
    · rw [same]
      rcases later with ⟨rfl,none'⟩ | ⟨line'',filled,⟨noted',joined⟩,spells',_⟩
      · rw [none']
        refine Or.inr ⟨line',List.cons_ne_nil _ _,⟨noted,.one taken⟩,?_⟩
        simp only [Option.toList_some,List.append_nil,List.intercalate_singleton]
        exact ⟨spells,c,behind,rfl,begins⟩
      · refine Or.inr ⟨line'++token::line'',List.cons_ne_nil _ _,⟨noted++noted',.more taken apart joined⟩,?_⟩
        simp only [Option.toList_some,List.singleton_append,List.intercalate_cons_of_ne_nil filled]
        rw [List.map_append,List.map_cons,signs token apart]
        exact ⟨spells.between lexable spells',c,_,rfl,begins⟩

-- A row is left out where every part of it is, and one part left of it stands alone.
theorem row_bind {combine : List Node → Node}
    (binds : ∀ parts, (combine parts).bind bound = if bindParts bound parts = [] then none else some (oneOr combine (bindParts bound parts)))
    (parts : List Node) :
    (oneOr combine parts).bind bound = if bindParts bound parts = [] then none else some (oneOr combine (bindParts bound parts)) := by
  rcases parts with _ | ⟨one,_ | ⟨second,more⟩⟩
  · exact binds _
  · change one.bind bound = _
    rw [bindParts,bindParts]
    cases one.bind bound with
    | none => rfl
    | some made => rfl
  · exact binds _

theorem Fills.row {shapes : Phrase Token Unit Node} {sign : Kind} {sep : Token → Bool} {combine : List Node → Node} (fills : Fills bound shapes)
    (lexable : sign.Lexable) (signs : ∀ token, sep token = true → token.kind = sign)
    (prints : ∀ parts out, Expression.filled bound (combine parts) = .ok out → ∃ kept, filledParts bound parts = .ok kept ∧
      out = if kept = [] then none else some ((between sign).intercalate kept))
    (binds : ∀ parts, (combine parts).bind bound = if bindParts bound parts = [] then none else some (oneOr combine (bindParts bound parts))) :
    Fills bound (RowOf combine shapes sep) := by
  intro line node out taken lexes filled
  obtain ⟨noted,parts,joined,rfl⟩ := taken
  have printed : ∃ kept, filledParts bound parts = .ok kept ∧ out = if kept = [] then none else some ((between sign).intercalate kept) := by
    rcases parts with _ | ⟨one,_ | ⟨second,more⟩⟩
    · exact prints _ _ filled
    · refine ⟨out.toList,?_,?_⟩
      · change Expression.filled bound one = .ok out at filled
        rw [filledParts,filled]
        simp [filledParts,bind,Except.bind]
      · cases out with
        | none => rfl
        | some text => simp
    · exact prints _ _ filled
  have made := row_bind binds parts
  obtain ⟨kept,printed,rfl⟩ := printed
  rcases filled_row fills lexable signs joined lexes printed with ⟨rfl,none'⟩ | ⟨line',kept',⟨noted',joined'⟩,spells,begins⟩
  · rw [if_pos none'] at made
    exact Or.inl ⟨rfl,made⟩
  · have filled' : bindParts bound parts ≠ [] := by
      intro none'
      rw [none'] at joined'
      cases joined'
    rw [if_neg filled'] at made
    exact Or.inr ⟨_,_,line',if_neg kept',made,⟨noted',_,joined',rfl⟩,spells,begins⟩

theorem Fills.or {shapes : Phrase Token Unit Node} (fills : Fills bound shapes) : Fills bound (OrOf nodes shapes) := by
  have and : Fills bound (AndOf nodes shapes) := by
    refine @Fills.row bound shapes .and isAnd nodes.all fills trivial (fun _ is => of_decide_eq_true is) ?_ ?_
    · intro parts out filled
      change (do let kept ← filledParts bound parts; .ok (glued " && " kept)) = Except.ok out at filled
      cases parts' : filledParts bound parts with
      | error why =>
        rw [parts'] at filled
        cases filled
      | ok kept =>
        rw [parts'] at filled
        cases filled
        exact ⟨kept,rfl,rfl⟩
    · intro parts
      change (Node.all parts).bind bound = _
      rw [Node.bind]
      rfl
  refine @Fills.row bound _ .or isOr nodes.any and trivial (fun _ is => of_decide_eq_true is) ?_ ?_
  · intro parts out filled
    change (do let kept ← filledParts bound parts; .ok (glued " || " kept)) = Except.ok out at filled
    cases parts' : filledParts bound parts with
    | error why =>
      rw [parts'] at filled
      cases filled
    | ok kept =>
      rw [parts'] at filled
      cases filled
      exact ⟨kept,rfl,rfl⟩
  · intro parts
    change (Node.any parts).bind bound = _
    rw [Node.bind]
    rfl

theorem Fills.unary (levels : Nat) : Fills bound (UnaryOf nodes shapeAsked levels) := by
  induction levels with
  | zero => exact Fills.term
  | succ levels ih =>
    intro line node out taken lexable filled
    have wider : ∀ {shapes : Phrase Token Unit Node}, (∀ line node noted, shapes line node noted → UnaryOf nodes shapeAsked (levels+1) line node noted) →
        FilledAs bound shapes node out → FilledAs bound (UnaryOf nodes shapeAsked (levels+1)) node out := by
      intro shapes fewer is
      rcases is with dropped | ⟨text,made,line,same,bound',⟨noted,taken⟩,spells⟩
      · exact Or.inl dropped
      · exact Or.inr ⟨text,made,line,same,bound',⟨noted,fewer _ _ _ taken⟩,spells⟩
    obtain ⟨noted,is | is | is⟩ := taken
    · exact wider (fun _ _ _ => Or.inl) (Fills.term line node out ⟨noted,is⟩ lexable filled)
    · exact wider (fun _ _ _ is => Or.inr (Or.inl is)) (ih.not line node out ⟨noted,is⟩ lexable filled)
    · exact wider (fun _ _ _ is => Or.inr (Or.inr is)) (ih.or.group line node out ⟨noted,is⟩ lexable filled)

theorem Tiled.lexable {position : Nat} {text : Text} {tokens : List Token} (tiled : Tiled position text tokens) :
    ∀ token ∈ tokens, token.kind.Lexable := by
  induction tiled with
  | done white => exact fun _ found => absurd found List.not_mem_nil
  | token white lexable apart others ih => exact List.forall_mem_cons.mpr ⟨lexable,ih⟩

theorem withInputs_shape {text : Text} {tokens : List Token} {node : Node} (asked : bound.isEmpty = false)
    (short : text.length ≤ MAX_LENGTH) (lexed : lex text = .ok tokens) (shaped : shape tokens = some node) :
    withInputs text bound = Expression.filled bound node := by
  have reads : ¬(bound.isEmpty = true ∨ text.length > MAX_LENGTH) := by
    intro handed
    rcases handed with none' | long
    · rw [none'] at asked
      cases asked
    · exact Nat.not_lt_of_le short long
  rw [withInputs,if_neg reads,lexed]
  simp only [shaped]

-- What is written of a line reads as the shape of the line with its inputs filled.
theorem filled_line [Scalars] [Days] {text line : Text} {tokens : List Token} {node : Node} (asked : bound.isEmpty = false)
    (short : text.length ≤ MAX_LENGTH) (lexed : lex text = .ok tokens) (shaped : shape tokens = some node)
    (sent : withInputs text bound = .ok (some line)) : ∃ made, node.bind bound = some made ∧
      (line.length ≤ MAX_LENGTH → ∀ today tree, parse line today = .ok tree ↔ made.tree today = some tree) := by
  have taken := (shape_of tokens node).mp shaped
  have lexable := (lexFrom_sound (Nat.le_refl _) lexed).lexable
  rw [withInputs_shape asked short lexed shaped] at sent
  rcases (Fills.unary 31).or tokens node (some line) taken lexable sent with ⟨dropped,_⟩ | ⟨_,made,line',written,same,taken',spells,_⟩
  · cases dropped
  · cases written
    refine ⟨made,same,?_⟩
    intro short' today tree
    obtain ⟨tokens',tiled,alike⟩ := spells [] [] Follows.nil Tiles.done 1
    rw [List.append_nil] at tiled alike
    rw [parse_iff short' (tiled.lexes (Nat.le_refl _)),← shape_trees taken']
    exact ⟨(ByKind.unary MAX_DEPTH).or tokens' line' tree alike,(ByKind.unary MAX_DEPTH).or line' tokens' tree alike.symm⟩

-- A line's inputs filled in its text are its inputs filled in its shape: what is written reads as
-- the tree with each name in it replaced and each term that was left out gone.
theorem a_filled_line_reads_as_bound [Scalars] [Days] {text : Text} {tokens : List Token} {node : Node} (asked : bound.isEmpty = false)
    (short : text.length ≤ MAX_LENGTH) (lexed : lex text = .ok tokens) (shaped : shape tokens = some node) :
    (withInputs text bound = .ok none → node.bind bound = none) ∧
      ∀ line, withInputs text bound = .ok (some line) → ∃ made, node.bind bound = some made ∧
        (line.length ≤ MAX_LENGTH → ∀ today tree, parse line today = .ok tree ↔ made.tree today = some tree) := by
  constructor
  · intro filled
    have taken := (shape_of tokens node).mp shaped
    have lexable := (lexFrom_sound (Nat.le_refl _) lexed).lexable
    rw [withInputs_shape asked short lexed shaped] at filled
    rcases (Fills.unary 31).or tokens node none taken lexable filled with ⟨_,dropped⟩ | ⟨_,_,_,kept,_⟩
    · exact dropped
    · cases kept
  · intro line sent
    exact filled_line asked short lexed shaped sent

end

theorem fills_one_and_drops_one : ∃ made,
    Node.bind ⟨[("b".toList,some ⟨"x y".toList,none⟩),("d".toList,none)]⟩
      (.all [.term [⟨.word ['a'],1,2⟩,⟨.equals,2,3⟩,⟨.word ['$','b'],3,5⟩],
        .term [⟨.word ['c'],7,8⟩,⟨.equals,8,9⟩,⟨.word ['$','d'],9,11⟩]]) = some made ∧
      ("a = \"x y\"".toList.length ≤ MAX_LENGTH → ∀ today tree,
        @parse plainScalars plainDays "a = \"x y\"".toList today = .ok tree ↔ @Node.tree plainScalars plainDays today made = some tree) := by
  have short : "a=$b&&c=$d".toList.length ≤ MAX_LENGTH := by decide
  have lexed : lex "a=$b&&c=$d".toList = .ok [⟨.word ['a'],1,2⟩,⟨.equals,2,3⟩,⟨.word ['$','b'],3,5⟩,⟨.and,5,7⟩,
      ⟨.word ['c'],7,8⟩,⟨.equals,8,9⟩,⟨.word ['$','d'],9,11⟩] := rfl
  have shaped : shape [⟨.word ['a'],1,2⟩,⟨.equals,2,3⟩,⟨.word ['$','b'],3,5⟩,⟨.and,5,7⟩,⟨.word ['c'],7,8⟩,⟨.equals,8,9⟩,
      ⟨.word ['$','d'],9,11⟩] = some (.all [.term [⟨.word ['a'],1,2⟩,⟨.equals,2,3⟩,⟨.word ['$','b'],3,5⟩],
        .term [⟨.word ['c'],7,8⟩,⟨.equals,8,9⟩,⟨.word ['$','d'],9,11⟩]]) := rfl
  have filled := @withInputs_shape ⟨[("b".toList,some ⟨"x y".toList,none⟩),("d".toList,none)]⟩ _ _ _ rfl short lexed shaped
  exact (@a_filled_line_reads_as_bound _ plainScalars plainDays _ _ _ rfl short lexed shaped).2 _ filled

end Expression
