import Jojobot.Memory.Filter.Expression

namespace Expression
open Library Memory

-- What may follow a term, and what may follow the whole of a group.
def Ends (rest : List Token) : Prop :=
  ∀ token, rest.head? = some token → token.kind = .and ∨ token.kind = .or ∨ token.kind = .closing

def Closed (rest : List Token) : Prop := ∀ token, rest.head? = some token → token.kind = .closing

theorem Ends.goes_and (token : Token) (rest : List Token) (is : isAnd token = true) : Ends (token::rest) := by
  intro other found
  cases found
  exact Or.inl (of_decide_eq_true is)

theorem Ends.goes_or (token : Token) (rest : List Token) (is : isOr token = true) :
    Ends (token::rest) ∧ EndsRow isAnd (token::rest) := by
  have or := of_decide_eq_true is
  constructor
  · intro other found
    cases found
    exact Or.inr (Or.inl or)
  · intro other found
    cases found
    exact decide_eq_false (by rw [or]; simp)

theorem Closed.ends {rest : List Token} (closed : Closed rest) : (Ends rest ∧ EndsRow isAnd rest) ∧ EndsRow isOr rest := by
  refine ⟨⟨fun token found => Or.inr (Or.inr (closed token found)),?_⟩,?_⟩
  · intro token found
    exact decide_eq_false (by rw [closed token found]; simp)
  · intro token found
    exact decide_eq_false (by rw [closed token found]; simp)

section
variable {ω ε α : Type} (makes : Makes ω ε α)

-- `!` binds tightest, then `&&`, then `||`.
def AndOf (phrase : Phrase Token ω α) : Phrase Token ω α := RowOf makes.all phrase isAnd
def OrOf (phrase : Phrase Token ω α) : Phrase Token ω α := RowOf makes.any (AndOf makes phrase) isOr

def NotOf (phrase : Phrase Token ω α) : Phrase Token ω α := fun line tree noted =>
  ∃ first rest inner, line = first::rest ∧ first.kind = .not ∧ phrase rest inner noted ∧ tree = makes.negated inner

def GroupOf (phrase : Phrase Token ω α) : Phrase Token ω α := fun line tree noted =>
  ∃ first inside last inner, line = first::(inside++[last]) ∧ first.kind = .opening ∧ last.kind = .closing ∧
    OrOf makes phrase inside inner noted ∧ tree = makes.grouped inner

-- A key and what the term asks of it.
def TermOf (asked : Token → Text → Phrase Token ω α) : Phrase Token ω α := fun line tree noted =>
  ∃ token key rest, line = token::rest ∧ token.kind = .word key ∧ asked token key rest tree noted

def UnaryOf (asked : Token → Text → Phrase Token ω α) : Nat → Phrase Token ω α
  | 0 => TermOf asked
  | levels+1 => fun line tree noted => TermOf asked line tree noted ∨ NotOf makes (UnaryOf asked levels) line tree noted ∨
      GroupOf makes (UnaryOf asked levels) line tree noted

variable {makes} {asked : Token → Text → Phrase Token ω α} {phrase : Phrase Token ω α} {line : List Token} {tree : α} {noted : List ω}

theorem orBy_accepts {reads : Reading Token ω ε α} (accepts : Accepts phrase Ends reads) :
    Accepts (OrOf makes phrase) Closed (orBy makes reads) :=
  (row_accepts makes.any (row_accepts makes.all accepts Ends.goes_and) Ends.goes_or).before fun _ => Closed.ends

-- One level: what stands behind `!` and inside `(` is the phrase one level in, where there is one.
theorem unaryBy_sound (terms : ∀ token key, Accepts (asked token key) Ends (makes.term token key)) {nested : Token → Except ε (Reading Token ω ε α)}
    (accepts : ∀ token inner, nested token = .ok inner → Accepts phrase Ends inner) {reader next : Cursor Token ω}
    (done : unaryBy makes nested reader = .ok (tree,next)) :
    ∃ front noted, reader.rest = front++next.rest ∧ next.noted = reader.noted++noted ∧ (TermOf asked front tree noted ∨
      (∃ token inner, nested token = .ok inner) ∧ (NotOf makes phrase front tree noted ∨ GroupOf makes phrase front tree noted)) := by
  unfold unaryBy at done
  split at done
  · cases done
  · rename_i token rest shape
    split at done
    · rename_i negates
      cases deeper : nested token with
      | error why =>
        rw [deeper] at done
        cases done
      | ok inner =>
        rw [deeper] at done
        obtain ⟨front,noted,parts,notes,one,is,same⟩ := ((accepts token inner deeper).map makes.negated).sound ⟨rest,reader.noted⟩ _ _ done
        refine ⟨token::front,noted,by rw [shape]; exact congrArg (token::·) parts,notes,Or.inr ⟨⟨token,inner,deeper⟩,Or.inl ?_⟩⟩
        exact ⟨token,front,one,rfl,negates,is,same⟩
    · rename_i opens
      cases deeper : nested token with
      | error why =>
        rw [deeper] at done
        cases done
      | ok inner =>
        rw [deeper] at done
        cases inside : orBy makes inner ⟨rest,reader.noted⟩ with
        | error why => simp [bind,Except.bind,inside] at done
        | ok pair =>
          obtain ⟨one,middle⟩ := pair
          simp only [bind,Except.bind,inside] at done
          obtain ⟨front,noted,parts,notes,is⟩ := (orBy_accepts (accepts token inner deeper)).sound _ _ _ inside
          dsimp only at parts notes
          split at done
          · cases done
          · rename_i last after left
            split at done
            · rename_i closes
              cases done
              refine ⟨token::(front++[last]),noted,?_,notes,Or.inr ⟨⟨token,inner,deeper⟩,Or.inr ?_⟩⟩
              · rw [shape,parts,left]
                simp
              · exact ⟨token,front,last,one,rfl,opens,closes,is,rfl⟩
            · cases done
    · rename_i key spelled
      obtain ⟨front,noted,parts,notes,is⟩ := (terms token key).sound _ _ _ done
      refine ⟨token::front,noted,by rw [shape]; exact congrArg (token::·) parts,notes,Or.inl ⟨token,key,front,rfl,spelled,is⟩⟩
    · cases done

theorem unaryBy_term (terms : ∀ token key, Accepts (asked token key) Ends (makes.term token key)) {nested : Token → Except ε (Reading Token ω ε α)} {rest : List Token} {before : List ω}
    (is : TermOf asked line tree noted) (final : Ends rest) :
    unaryBy makes nested ⟨line++rest,before⟩ = .ok (tree,⟨rest,before++noted⟩) := by
  obtain ⟨token,key,asked,rfl,spelled,is⟩ := is
  simp only [unaryBy,List.cons_append,spelled]
  exact (terms token key).complete asked tree noted rest before is final

theorem unaryBy_not {inner : Reading Token ω ε α} {rest : List Token} {before : List ω}
    (accepts : Accepts phrase Ends inner) (is : NotOf makes phrase line tree noted) (final : Ends rest) :
    unaryBy makes (fun _ => .ok inner) ⟨line++rest,before⟩ = .ok (tree,⟨rest,before++noted⟩) := by
  obtain ⟨token,inside,one,rfl,negates,is,same⟩ := is
  simp only [unaryBy,List.cons_append,negates]
  exact (accepts.map makes.negated).complete inside tree noted rest before ⟨one,is,same⟩ final

theorem unaryBy_group {inner : Reading Token ω ε α} {rest : List Token} {before : List ω}
    (accepts : Accepts phrase Ends inner) (is : GroupOf makes phrase line tree noted) :
    unaryBy makes (fun _ => .ok inner) ⟨line++rest,before⟩ = .ok (tree,⟨rest,before++noted⟩) := by
  obtain ⟨token,inside,last,inner',rfl,opens,closes,is,rfl⟩ := is
  have closed : Closed (last::rest) := by
    intro other found
    cases found
    exact closes
  have read := (orBy_accepts accepts).complete inside inner' noted (last::rest) before is closed
  have whole : token::(inside++[last])++rest = token::(inside++last::rest) := by simp
  rw [whole]
  simp only [unaryBy,opens,bind,Except.bind,read,closes,if_true]

-- Where nothing is one level in.
theorem unaryBy_flat (terms : ∀ token key, Accepts (asked token key) Ends (makes.term token key))
    {nested : Token → Except ε (Reading Token ω ε α)} (none' : ∀ token inner, nested token ≠ .ok inner) :
    Accepts (TermOf asked) Ends (unaryBy makes nested) where
  sound reader tree next done := by
    have never : ∀ token inner, nested token = .ok inner → Accepts (TermOf asked) Ends inner :=
      fun token inner found => absurd found (none' token inner)
    obtain ⟨front,noted,parts,notes,is | ⟨⟨token,inner,found⟩,_⟩⟩ := unaryBy_sound terms never done
    · exact ⟨front,noted,parts,notes,is⟩
    · exact absurd found (none' token inner)
  complete front tree noted rest before is final := unaryBy_term terms is final

theorem unaryBy_nested (terms : ∀ token key, Accepts (asked token key) Ends (makes.term token key))
    {inner : Reading Token ω ε α} (accepts : Accepts phrase Ends inner) :
    Accepts (fun line tree noted => TermOf asked line tree noted ∨ NotOf makes phrase line tree noted ∨
      GroupOf makes phrase line tree noted) Ends (unaryBy makes fun _ => .ok inner) where
  sound reader tree next done := by
    have within : ∀ token inner', (fun _ : Token => (Except.ok inner : Except ε (Reading Token ω ε α))) token = .ok inner' →
        Accepts phrase Ends inner' := by
      intro token inner' found
      cases found
      exact accepts
    obtain ⟨front,noted,parts,notes,is⟩ := unaryBy_sound terms within done
    exact ⟨front,noted,parts,notes,is.imp_right And.right⟩
  complete front tree noted rest before is final := by
    rcases is with is | is | is
    · exact unaryBy_term terms is final
    · exact unaryBy_not accepts is final
    · exact unaryBy_group accepts is

theorem OrOf.weaken {wider : Phrase Token ω α} (each : ∀ line tree noted, phrase line tree noted → wider line tree noted) :
    ∀ line tree noted, OrOf makes phrase line tree noted → OrOf makes wider line tree noted :=
  RowOf.weaken (RowOf.weaken each)

theorem UnaryOf.deeper {levels : Nat} (line : List Token) (tree : α) (noted : List ω) (is : UnaryOf makes asked levels line tree noted) :
    UnaryOf makes asked (levels+1) line tree noted := by
  induction levels generalizing line tree noted with
  | zero => exact Or.inl is
  | succ levels ih =>
    rcases is with is | ⟨first,rest,inner,shape,negates,is,same⟩ | ⟨first,inside,last,inner,shape,opens,closes,is,same⟩
    · exact Or.inl is
    · exact Or.inr (Or.inl ⟨first,rest,inner,shape,negates,ih _ _ _ is,same⟩)
    · exact Or.inr (Or.inr ⟨first,inside,last,inner,shape,opens,closes,OrOf.weaken ih _ _ _ is,same⟩)

theorem UnaryOf.filled (levels : Nat) (tree : α) (noted : List ω) : ¬UnaryOf makes asked levels [] tree noted := by
  intro is
  cases levels with
  | zero =>
    obtain ⟨token,key,rest,shape,_⟩ := is
    cases shape
  | succ levels => rcases is with ⟨token,key,rest,shape,_⟩ | ⟨first,rest,inner,shape,_⟩ | ⟨first,inside,last,inner,shape,_⟩ <;> cases shape

end

section
variable [Scalars] [Days] {today : Scalars.Date} {key : Text} {line : List Token} {tree : Filter} {noted : List ValueWord}

-- The grammar of a line. A value is one word, or words in quotes; it is noted where it sits.
inductive ValueOf (today : Scalars.Date) : Phrase Token ValueWord Text where
  | word {token written operand} (spelled : token.kind = .word written) (reads : readWord today written token = .ok operand) :
      ValueOf today [token] operand.words [⟨token.position-1,token.stop-1,written⟩]
  | quoted {token written} (spelled : token.kind = .quoted written) :
      ValueOf today [token] (trim written) [⟨token.position,token.stop-2,written⟩]

def ListOf (today : Scalars.Date) : Phrase Token ValueWord (List Text) := fun line items noted =>
  ∃ first inside last, line = first::(inside++[last]) ∧ first.kind = .opening ∧ last.kind = .closing ∧
    Joined (ValueOf today) isComma inside items noted

inductive OperandOf (today : Scalars.Date) : Phrase Token ValueWord (ValueType × Text) where
  | day {token written day} (spelled : token.kind = .word written) (reads : readWord today written token = .ok (.day day)) :
      OperandOf today [token] (.date,day) []
  | date {token written text} (spelled : token.kind = .word written) (reads : readWord today written token = .ok (.text text))
      (parses : (Scalars.parseDate text).isSome) : OperandOf today [token] (.date,text) []
  | number {token written text} (spelled : token.kind = .word written) (reads : readWord today written token = .ok (.text text))
      (other : ¬(Scalars.parseDate text).isSome) (parses : isANumber text = true) : OperandOf today [token] (.number,text) []

-- What stands behind a key.
inductive AskedOf (today : Scalars.Date) (key : Text) : Phrase Token ValueWord Filter where
  | carried : AskedOf today key [] (.exists key) []
  | equals {token line wanted noted} (op : token.kind = .equals) (compared : ValueOf today line wanted noted) :
      AskedOf today key (token::line) (.equals key wanted) noted
  | notEquals {token line wanted noted} (op : token.kind = .notEquals) (compared : ValueOf today line wanted noted) :
      AskedOf today key (token::line) (.notEquals key wanted) noted
  | isIn {token line items noted} (op : token.kind = .word "in".toList) (compared : ListOf today line items noted) :
      AskedOf today key (token::line) (.isIn key items) noted
  | contains {token line item noted} (op : token.kind = .word "contains".toList) (compared : ValueOf today line item noted) :
      AskedOf today key (token::line) (.contains key item) noted
  | order {token line op holds wanted noted} (is : token.kind.op = some op) (compared : OperandOf today line (holds,wanted) noted) :
      AskedOf today key (token::line) (.ordering key op holds wanted) noted

theorem value_accepts : Accepts (ValueOf today) (fun _ => True) (value today) where
  sound reader wanted next done := by
    unfold value at done
    split at done
    · cases done
    · rename_i token rest shape
      split at done
      · rename_i written spelled
        cases reads : readWord today written token with
        | error why =>
          rw [reads] at done
          cases done
        | ok operand =>
          rw [reads] at done
          cases done
          exact ⟨[token],_,shape,rfl,.word spelled reads⟩
      · rename_i written spelled
        cases done
        exact ⟨[token],_,shape,rfl,.quoted spelled⟩
      · cases done
      · cases done
  complete front wanted noted rest before is _ := by
    cases is with
    | word spelled reads => simp [value,spelled,reads]; rfl
    | quoted spelled => simp [value,spelled]

theorem operand_accepts (op : Token) : Accepts (OperandOf today) (fun _ => True) (operand today op) where
  sound reader wanted next done := by
    unfold operand at done
    split at done
    · cases done
    · rename_i token rest shape
      split at done
      · cases done
      · rename_i written spelled
        cases reads : readWord today written token with
        | error why =>
          rw [reads] at done
          cases done
        | ok operand =>
          rw [reads] at done
          cases operand with
          | day day =>
            cases done
            exact ⟨[token],[],shape,(List.append_nil _).symm,.day spelled reads⟩
          | text text =>
            simp only [bind,Except.bind] at done
            split at done
            · rename_i parses
              cases done
              exact ⟨[token],[],shape,(List.append_nil _).symm,.date spelled reads parses⟩
            · rename_i other
              split at done
              · rename_i parses
                cases done
                exact ⟨[token],[],shape,(List.append_nil _).symm,.number spelled reads other parses⟩
              · cases done
      · cases done
  complete front wanted noted rest before is _ := by
    cases is with
    | day spelled reads => simp [operand,spelled,reads]; rfl
    | date spelled reads parses => simp [operand,spelled,reads,bind,Except.bind,parses]
    | number spelled reads other parses => simp [operand,spelled,reads,bind,Except.bind,other,parses]

-- The loop over a list is the loop over a row of values, and the `)` behind it.
theorem listFrom_row {fuel : Nat} {items all : List Text} {reader next : Reader} (enough : reader.rest.length ≤ fuel) :
    listFrom today (fuel+1) items reader = .ok (all,next) ↔
      ∃ middle last, severalFrom (value today) isComma fuel items reader = .ok (all,middle) ∧
        last.kind = .closing ∧ middle.rest = last::next.rest ∧ next.noted = middle.noted := by
  induction fuel generalizing items reader with
  | zero =>
    have none' : reader.rest = [] := List.length_eq_zero_iff.mp (Nat.le_zero.mp enough)
    rw [listFrom,none']
    constructor
    · intro done
      cases done
    · intro found
      obtain ⟨middle,last,same,_,more,_⟩ := found
      cases same
      rw [none'] at more
      cases more
  | succ fuel ih =>
    rw [listFrom,severalFrom]
    cases shape : reader.rest with
    | nil =>
      constructor
      · intro done
        cases done
      · intro found
        obtain ⟨middle,last,same,_,more,_⟩ := found
        cases same
        rw [shape] at more
        cases more
    | cons token rest =>
      rw [shape,List.length_cons] at enough
      by_cases comma : token.kind = .comma
      · simp only [comma,isComma,decide_true,if_true]
        cases one : value today ⟨rest,reader.noted⟩ with
        | error why =>
          constructor
          · intro done
            cases done
          · intro found
            obtain ⟨middle,last,same,_⟩ := found
            cases same
        | ok pair =>
          obtain ⟨item,after⟩ := pair
          obtain ⟨front,_,parts,_⟩ := value_accepts.sound _ _ _ one
          have shorter := congrArg List.length parts
          rw [List.length_append] at shorter
          dsimp only at shorter
          exact ih (show after.rest.length ≤ fuel by omega)
      · have apart : isComma token = false := decide_eq_false comma
        simp only [apart]
        constructor
        · intro done
          split at done
          · rename_i is
            exact absurd is comma
          · rename_i is
            cases done
            exact ⟨reader,token,rfl,is,shape,rfl⟩
          · cases done
        · intro found
          obtain ⟨middle,last,same,is,more,notes⟩ := found
          cases same
          rw [shape] at more
          obtain ⟨rfl,same⟩ := List.cons.inj more
          obtain ⟨left,noted⟩ := next
          simp only [is]
          dsimp only at same notes
          rw [same,notes]

theorem list_accepts : Accepts (ListOf today) (fun _ => True) (list today) where
  sound reader items next done := by
    unfold list at done
    split at done
    · cases done
    · rename_i first rest shape
      split at done
      · rename_i opens
        cases one : value today ⟨rest,reader.noted⟩ with
        | error why =>
          rw [one] at done
          cases done
        | ok pair =>
          obtain ⟨item,after⟩ := pair
          rw [one] at done
          obtain ⟨middle,last,row,closes,more,notes⟩ := (listFrom_row (Nat.le_refl _)).mp done
          have all : several (value today) isComma ⟨rest,reader.noted⟩ = .ok (items,middle) := by
            unfold several
            rw [one]
            exact row
          obtain ⟨inside,noted,parts,noted',joined⟩ := (several_accepts value_accepts (fun _ _ _ => trivial)).sound _ _ _ all
          refine ⟨first::(inside++[last]),noted,?_,by rw [notes]; exact noted',first,inside,last,rfl,opens,closes,joined⟩
          dsimp only at parts
          rw [shape,parts,more]
          simp
      · cases done
  complete line items noted rest before is _ := by
    obtain ⟨first,inside,last,rfl,opens,closes,joined⟩ := is
    have apart : EndsRow isComma (last::rest) := by
      intro token found
      cases found
      exact decide_eq_false (by rw [closes]; simp)
    have all := (several_accepts (@value_accepts _ _ today) (fun _ _ _ => trivial)).complete inside items noted (last::rest) before joined
      ⟨trivial,apart⟩
    have whole : first::(inside++[last])++rest = first::(inside++last::rest) := by simp
    rw [whole,list]
    simp only [opens]
    unfold several at all
    cases one : value today ⟨inside++last::rest,before⟩ with
    | error why =>
      rw [one] at all
      cases all
    | ok pair =>
      obtain ⟨item,after⟩ := pair
      rw [one] at all
      exact (listFrom_row (Nat.le_refl _)).mpr ⟨_,last,all,closes,rfl,rfl⟩

theorem term_accepts (key : Text) : Accepts (AskedOf today key) Ends (term today key) where
  sound reader tree next done := by
    unfold term at done
    split at done
    · cases done
      exact ⟨[],[],rfl,(List.append_nil _).symm,.carried⟩
    · rename_i token rest shape
      split at done
      · cases done
        exact ⟨[],[],rfl,(List.append_nil _).symm,.carried⟩
      · cases done
        exact ⟨[],[],rfl,(List.append_nil _).symm,.carried⟩
      · cases done
        exact ⟨[],[],rfl,(List.append_nil _).symm,.carried⟩
      · rename_i op
        obtain ⟨front,noted,parts,notes,wanted,is,same⟩ := (value_accepts.map (Filter.equals key)).sound ⟨rest,reader.noted⟩ _ _ done
        exact ⟨token::front,noted,by rw [shape]; exact congrArg (token::·) parts,notes,same ▸ .equals op is⟩
      · rename_i op
        obtain ⟨front,noted,parts,notes,wanted,is,same⟩ := (value_accepts.map (Filter.notEquals key)).sound ⟨rest,reader.noted⟩ _ _ done
        exact ⟨token::front,noted,by rw [shape]; exact congrArg (token::·) parts,notes,same ▸ .notEquals op is⟩
      · rename_i word op
        split at done
        · rename_i isIn
          obtain ⟨front,noted,parts,notes,items,is,same⟩ := (list_accepts.map (Filter.isIn key)).sound ⟨rest,reader.noted⟩ _ _ done
          exact ⟨token::front,noted,by rw [shape]; exact congrArg (token::·) parts,notes,same ▸ .isIn (isIn ▸ op) is⟩
        · split at done
          · rename_i contains
            obtain ⟨front,noted,parts,notes,item,is,same⟩ := (value_accepts.map (Filter.contains key)).sound ⟨rest,reader.noted⟩ _ _ done
            exact ⟨token::front,noted,by rw [shape]; exact congrArg (token::·) parts,notes,same ▸ .contains (contains ▸ op) is⟩
          · cases done
      · split at done
        · rename_i op is
          obtain ⟨front,noted,parts,notes,⟨holds,wanted⟩,compared,same⟩ := ((operand_accepts token).map
            fun pair : ValueType × Text => Filter.ordering key op pair.1 pair.2).sound ⟨rest,reader.noted⟩ _ _ done
          exact ⟨token::front,noted,by rw [shape]; exact congrArg (token::·) parts,notes,same ▸ .order is compared⟩
        · cases done
  complete line tree noted rest before is final := by
    cases is with
    | carried =>
      rw [List.append_nil,List.nil_append]
      cases rest with
      | nil => rfl
      | cons token rest =>
        unfold term
        rcases final token rfl with is | is | is <;> simp [is]
    | @equals token line wanted _ op compared =>
      simp only [term,List.cons_append,op]
      exact (value_accepts.map (Filter.equals key)).complete _ _ _ rest before ⟨wanted,compared,rfl⟩ trivial
    | @notEquals token line wanted _ op compared =>
      simp only [term,List.cons_append,op]
      exact (value_accepts.map (Filter.notEquals key)).complete _ _ _ rest before ⟨wanted,compared,rfl⟩ trivial
    | @isIn token line items _ op compared =>
      simp only [term,List.cons_append,op,if_true]
      exact (list_accepts.map (Filter.isIn key)).complete _ _ _ rest before ⟨items,compared,rfl⟩ trivial
    | @contains token line item _ op compared =>
      have other : "contains".toList ≠ "in".toList := by decide
      simp only [term,List.cons_append,op,if_neg other,if_true]
      exact (value_accepts.map (Filter.contains key)).complete _ _ _ rest before ⟨item,compared,rfl⟩ trivial
    | @order token line op holds wanted _ is compared =>
      have read := ((operand_accepts token).map fun pair : ValueType × Text => Filter.ordering key op pair.1 pair.2).complete
        line _ noted rest before ⟨(holds,wanted),compared,rfl⟩ trivial
      cases kind : token.kind <;> rw [kind] at is <;> cases is <;> simp only [term,List.cons_append,kind,Kind.op] <;> exact read

def asked (today : Scalars.Date) (_ : Token) (key : Text) : Phrase Token ValueWord Filter := AskedOf today key

theorem unary_accepts (left : Nat) : Accepts (UnaryOf (filters today) (asked today) left) Ends (unary today left) := by
  induction left with
  | zero => exact unaryBy_flat (fun _ key => term_accepts key) (fun _ _ found => by cases found)
  | succ left ih => exact unaryBy_nested (fun _ key => term_accepts key) ih

-- A line is read where its tokens, all of them, are a line of the grammar.
theorem orBy_line (tokens : List Token) (values : List ValueWord) :
    orBy (filters today) (unary today MAX_DEPTH) ⟨tokens,[]⟩ = .ok (tree,⟨[],values⟩) ↔
      OrOf (filters today) (UnaryOf (filters today) (asked today) MAX_DEPTH) tokens tree values := by
  have final : Closed [] := by
    intro token found
    cases found
  exact (orBy_accepts (unary_accepts MAX_DEPTH)).whole final

theorem read_sound {text : Text} {values : List ValueWord} (done : read text today = .ok (tree,values)) :
    text.length ≤ MAX_LENGTH ∧ ∃ tokens, lex text = .ok tokens ∧
      OrOf (filters today) (UnaryOf (filters today) (asked today) MAX_DEPTH) tokens tree values := by
  unfold read at done
  split at done
  · cases done
  · rename_i short
    cases lexed : lex text with
    | error why =>
      rw [lexed] at done
      cases done
    | ok tokens =>
      simp only [bind,Except.bind,lexed] at done
      split at done
      · cases done
      · cases one : orBy (filters today) (unary today MAX_DEPTH) ⟨tokens,[]⟩ with
        | error why =>
          rw [one] at done
          cases done
        | ok pair =>
          obtain ⟨tree',next⟩ := pair
          obtain ⟨left,noted⟩ := next
          rw [one] at done
          cases left with
          | cons token left => cases done
          | nil =>
            cases done
            exact ⟨Nat.le_of_not_lt short,tokens,rfl,(orBy_line tokens _).mp one⟩

theorem read_complete {text : Text} {tokens : List Token} {values : List ValueWord} (short : text.length ≤ MAX_LENGTH)
    (lexed : lex text = .ok tokens) (is : OrOf (filters today) (UnaryOf (filters today) (asked today) MAX_DEPTH) tokens tree values) :
    read text today = .ok (tree,values) := by
  have filled : tokens ≠ [] := by
    intro none'
    exact RowOf.filled (RowOf.filled (UnaryOf.filled MAX_DEPTH)) tree values (none' ▸ is)
  unfold read
  rw [if_neg (Nat.not_lt_of_le short)]
  simp only [bind,Except.bind,lexed,if_neg filled,(orBy_line tokens values).mpr is]

-- The reader takes exactly the lines of the grammar, each as its tree and its values.
theorem reads_the_grammar (text : Text) (values : List ValueWord) :
    read text today = .ok (tree,values) ↔
      text.length ≤ MAX_LENGTH ∧ ∃ tokens, lex text = .ok tokens ∧ OrOf (filters today) (UnaryOf (filters today) (asked today) MAX_DEPTH) tokens tree values := by
  constructor
  · exact read_sound
  · intro found
    obtain ⟨short,tokens,lexed,is⟩ := found
    exact read_complete short lexed is

end
end Expression
