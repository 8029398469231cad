import Jojobot.Memory.Filter.Expression.Filled
import Jojobot.Memory.Filter.Expression.Saved

namespace Expression
open Library Memory ViewInputs

theorem stand_same {token : Token} (plain : inputOf token.kind = none) : token.stand = token := by
  rw [Token.stand,plain]
  rfl

-- A token that is no word of zeros stands for itself.
theorem stand_sign {token : Token} {kind : Kind} (is : token.stand.kind = kind) (sign : ∀ n, kind ≠ .word (List.replicate (n+1) '0')) :
    token.stand = token ∧ inputOf token.kind = none := by
  cases input : inputOf token.kind with
  | none => exact ⟨stand_same input,rfl⟩
  | some name =>
    have some' : (inputOf token.kind).isSome = true := by rw [input]; rfl
    obtain ⟨written,_,spelled⟩ := input_spelled some'
    rw [Token.stand,if_pos some',spelled] at is
    exact absurd is.symm (sign written.length)

theorem stand_value {token : Token} (is : token.kind.isValue = true) : token.stand.kind.isValue = true := by
  unfold Token.stand
  split
  · rfl
  · exact is

theorem in_sign (n : Nat) : Kind.word "in".toList ≠ .word (List.replicate (n+1) '0') := by
  intro same
  cases Kind.word.inj same

theorem contains_sign (n : Nat) : Kind.word "contains".toList ≠ .word (List.replicate (n+1) '0') := by
  intro same
  cases Kind.word.inj same

theorem isComma_plain {token : Token} (is : isComma token = true) : inputOf token.kind = none := by
  rw [of_decide_eq_true is]
  rfl

theorem Items.stand {words : List Token} (is : Items words) : Items (words.map Token.stand) := by
  induction is with
  | @done last closes =>
    have plain : inputOf last.kind = none := by rw [closes]; rfl
    rw [List.map_singleton,stand_same plain]
    exact .done closes
  | more apart is others ih =>
    rw [List.map_cons,List.map_cons,stand_same (isComma_plain apart)]
    exact .more apart (stand_value is) ih

theorem Asks.stand {words : List Token} (is : Asks words) : Asks (words.map Token.stand) := by
  cases is with
  | nothing => exact .nothing
  | @one op item asks is =>
    have plain : inputOf op.kind = none := by
      cases kind : op.kind with
      | word written =>
        rw [kind] at asks
        rw [of_decide_eq_true asks]
        rfl
      | _ => rfl
    rw [List.map_cons,List.map_singleton,stand_same plain]
    exact .one asks (stand_value is)
  | @isIn op first item rest asks opens is others =>
    have plain : inputOf op.kind = none := by rw [asks]; rfl
    have plain' : inputOf first.kind = none := by rw [opens]; rfl
    rw [List.map_cons,List.map_cons,List.map_cons,stand_same plain,stand_same plain']
    exact .isIn asks opens (stand_value is) others.stand

-- A sign and one value behind it, saved and filled.
theorem pair_sent {bound : Bound} {rest made : List Token} {op item : Token} (shape : rest.map Token.stand = [op,item])
    (sign : ∀ n, op.kind ≠ .word (List.replicate (n+1) '0')) (filled : rest.mapM (filledKind bound) = some made) :
    ∃ item' made', rest = [op,item'] ∧ item'.stand = item ∧ made = [op,made'] ∧ filledKind bound item' = some made' := by
  obtain ⟨first,behind,rfl,same,shape⟩ := List.map_eq_cons_iff.mp shape
  obtain ⟨item',none',rfl,is,shape⟩ := List.map_eq_cons_iff.mp shape
  cases List.map_eq_nil_iff.mp shape
  obtain ⟨stands,plain⟩ := stand_sign (congrArg Token.kind same) sign
  rw [stands] at same
  subst same
  obtain ⟨behind,rfl,more⟩ := filled_sign plain filled
  obtain ⟨made',rest',rfl,one,none'⟩ := filled_cons more
  cases none'
  exact ⟨item',made',rfl,is,rfl,one⟩

theorem filled_append {bound : Bound} {before behind made : List Token} (filled : (before++behind).mapM (filledKind bound) = some made) :
    ∃ first last, made = first++last ∧ before.mapM (filledKind bound) = some first ∧ behind.mapM (filledKind bound) = some last := by
  induction before generalizing made with
  | nil => exact ⟨[],made,rfl,rfl,filled⟩
  | cons token before ih =>
    obtain ⟨one,rest,rfl,is,others⟩ := filled_cons filled
    obtain ⟨first,last,rfl,firsts,lasts⟩ := ih others
    refine ⟨one::first,last,rfl,?_,lasts⟩
    rw [List.mapM_cons,is,firsts]
    rfl

section
variable [Scalars] [Days]

-- What a call's day and values owe a line: its relative days are days from then too, and each value reads
-- where it comes to stand, behind an ordering sign as a day or a number.
structure Fit (today : Scalars.Date) (bound : Bound) (line : List Token) : Prop where
  relative : ∀ token ∈ line, ∀ written operand, token.kind = .word written → readWord Days.fixed written token = .ok operand →
    ∃ operand', readWord today written token = .ok operand'
  value : ∀ token ∈ line, inputOf token.kind ≠ none → ∀ made, filledKind bound token = some made → ∃ wanted, Takes (ValueOf today) [made] wanted
  operand : ∀ op item, [op,item] <:+: line → op.kind.op ≠ none → inputOf item.kind ≠ none → ∀ made, filledKind bound item = some made →
    ∃ wanted, Takes (OperandOf today) [made] wanted

variable {today : Scalars.Date} {bound : Bound} {line : List Token}

theorem Fit.within {more : List Token} (fit : Fit today bound more) (inside : line <:+: more) : Fit today bound line where
  relative token found := fit.relative token (inside.subset found)
  value token found := fit.value token (inside.subset found)
  operand op item pair := fit.operand op item (pair.trans inside)

theorem readWord_alike {written : Text} {token : Token} {first second : Operand} (one : readWord Days.fixed written token = .ok first)
    (other : readWord today written token = .ok second) : (∃ day day', first = .day day ∧ second = .day day') ∨ first = second := by
  unfold readWord at one other
  split at one
  · rename_i plain
    rw [if_pos plain] at other
    cases one
    cases other
    exact Or.inr rfl
  · rename_i relative
    rw [if_neg relative] at other
    split at one
    · rename_i none'
      rw [none'] at other
      cases one
      cases other
      exact Or.inl ⟨_,_,rfl,rfl⟩
    · rename_i sign digits some'
      rw [some'] at other
      dsimp only at other
      split at one
      · rename_i plain
        rw [if_pos plain] at other
        cases one
        cases other
        exact Or.inr rfl
      · rename_i signed
        rw [if_neg signed] at other
        split at one
        · split at other
          · cases one
            cases other
            exact Or.inl ⟨_,_,rfl,rfl⟩
          · cases other
        · cases one

theorem OperandOf.single {day : Scalars.Date} {wanted : ValueType × Text} {noted : List ValueWord} (is : OperandOf day line wanted noted) :
    ∃ item, line = [item] := by
  cases is <;> exact ⟨_,rfl⟩

-- A value of the saved line, once it is filled, is a value on the day of the call.
theorem value_sent {item made : Token} {wanted : Text} {noted : List ValueWord} (fit : Fit today bound [item])
    (reads : ValueOf Days.fixed [item.stand] wanted noted) (filled : filledKind bound item = some made) :
    ∃ wanted', Takes (ValueOf today) [made] wanted' := by
  by_cases plain : inputOf item.kind = none
  · rw [filledKind_same plain] at filled
    cases filled
    rw [stand_same plain] at reads
    cases reads with
    | word spelled reads =>
      obtain ⟨operand,reads⟩ := fit.relative item List.mem_cons_self _ _ spelled reads
      exact ⟨_,_,.word spelled reads⟩
    | quoted spelled => exact ⟨_,_,.quoted spelled⟩
  · exact fit.value item List.mem_cons_self plain made filled

theorem operand_sent {op item made : Token} {wanted : ValueType × Text} {noted : List ValueWord} (fit : Fit today bound [op,item])
    (orders : op.kind.op ≠ none) (reads : OperandOf Days.fixed [item.stand] wanted noted) (filled : filledKind bound item = some made) :
    ∃ wanted', Takes (OperandOf today) [made] wanted' := by
  by_cases plain : inputOf item.kind = none
  · rw [filledKind_same plain] at filled
    cases filled
    rw [stand_same plain] at reads
    have again : ∀ written operand, item.kind = .word written → readWord Days.fixed written item = .ok operand →
        ∃ operand', readWord today written item = .ok operand' := fit.relative item (List.mem_cons_of_mem _ List.mem_cons_self)
    cases reads with
    | day spelled reads =>
      obtain ⟨operand,later⟩ := again _ _ spelled reads
      rcases readWord_alike reads later with ⟨_,day,_,rfl⟩ | rfl
      · exact ⟨_,_,.day spelled later⟩
      · exact ⟨_,_,.day spelled later⟩
    | date spelled reads parses =>
      obtain ⟨operand,later⟩ := again _ _ spelled reads
      rcases readWord_alike reads later with ⟨_,_,same,_⟩ | rfl
      · cases same
      · exact ⟨_,_,.date spelled later parses⟩
    | number spelled reads other parses =>
      obtain ⟨operand,later⟩ := again _ _ spelled reads
      rcases readWord_alike reads later with ⟨_,_,same,_⟩ | rfl
      · cases same
      · exact ⟨_,_,.number spelled later other parses⟩
  · exact fit.operand op item (List.infix_refl _) orders plain made filled

theorem items_sent {inside made : List Token} {line : List Token} {items : List Text} {noted : List ValueWord}
    (joined : Joined (ValueOf Days.fixed) isComma line items noted) (shape : inside.map Token.stand = line)
    (fit : Fit today bound inside) (filled : inside.mapM (filledKind bound) = some made) :
    ∃ items', Takes (Joined (ValueOf today) isComma) made items' := by
  induction joined generalizing inside made with
  | one first =>
    obtain ⟨item,rfl,_⟩ := first.one
    obtain ⟨item',none',rfl,rfl,ended⟩ := List.map_eq_cons_iff.mp shape
    cases List.map_eq_nil_iff.mp ended
    obtain ⟨made',rest,rfl,one,none'⟩ := filled_cons filled
    cases none'
    obtain ⟨wanted,noted,is⟩ := value_sent fit first one
    exact ⟨[wanted],noted,.one is⟩
  | @more line value noted token rest values notes first apart others ih =>
    obtain ⟨item,rfl,_⟩ := first.one
    obtain ⟨item',behind,rfl,rfl,later⟩ := List.map_eq_cons_iff.mp shape
    obtain ⟨comma,after,rfl,same,ended⟩ := List.map_eq_cons_iff.mp later
    have sign : ∀ n, token.kind ≠ .word (List.replicate (n+1) '0') := by
      intro n
      rw [of_decide_eq_true apart]
      exact Kind.noConfusion
    obtain ⟨stands,plain⟩ := stand_sign (congrArg Token.kind same) sign
    rw [stands] at same
    subst same
    obtain ⟨made',rest',rfl,one,more⟩ := filled_cons filled
    obtain ⟨after',rfl,others'⟩ := filled_sign plain more
    have near : [item'] <:+: item'::comma::after := ⟨[],comma::after,rfl⟩
    have far : after <:+: item'::comma::after := ⟨[item',comma],[],by simp⟩
    obtain ⟨wanted,noted',is⟩ := value_sent (fit.within near) first one
    obtain ⟨values',notes',joined⟩ := ih ended (fit.within far) others'
    exact ⟨wanted::values',noted'++notes',.more is apart joined⟩

-- What a key is asked, saved and filled.
theorem asked_sent {rest made line : List Token} {key key' : Text} {tree : Filter} {noted : List ValueWord}
    (asks : AskedOf Days.fixed key line tree noted) (shape : rest.map Token.stand = line) (fit : Fit today bound rest)
    (filled : rest.mapM (filledKind bound) = some made) : ∃ tree', Takes (AskedOf today key') made tree' := by
  cases asks with
  | carried =>
    cases List.map_eq_nil_iff.mp shape
    cases filled
    exact ⟨_,_,.carried⟩
  | equals op compared =>
    obtain ⟨item,rfl,_⟩ := compared.one
    obtain ⟨item',made',rfl,rfl,rfl,one⟩ := pair_sent shape (by rw [op]; exact fun _ => Kind.noConfusion) filled
    obtain ⟨wanted,noted,is⟩ := value_sent (fit.within ⟨[_],[],rfl⟩) compared one
    exact ⟨_,_,.equals op is⟩
  | notEquals op compared =>
    obtain ⟨item,rfl,_⟩ := compared.one
    obtain ⟨item',made',rfl,rfl,rfl,one⟩ := pair_sent shape (by rw [op]; exact fun _ => Kind.noConfusion) filled
    obtain ⟨wanted,noted,is⟩ := value_sent (fit.within ⟨[_],[],rfl⟩) compared one
    exact ⟨_,_,.notEquals op is⟩
  | contains op compared =>
    obtain ⟨item,rfl,_⟩ := compared.one
    obtain ⟨item',made',rfl,rfl,rfl,one⟩ := pair_sent shape (by rw [op]; exact contains_sign) filled
    obtain ⟨wanted,noted,is⟩ := value_sent (fit.within ⟨[_],[],rfl⟩) compared one
    exact ⟨_,_,.contains op is⟩
  | @order token behind sign holds wanted noted is compared =>
    have signed : ∀ n, token.kind ≠ .word (List.replicate (n+1) '0') := by
      intro n same
      rw [same] at is
      cases is
    have orders : token.kind.op ≠ none := by
      rw [is]
      exact Option.some_ne_none _
    obtain ⟨item,rfl⟩ := compared.single
    obtain ⟨item',made',rfl,rfl,rfl,one⟩ := pair_sent shape signed filled
    obtain ⟨⟨holds',wanted'⟩,noted',operand⟩ := operand_sent fit orders compared one
    exact ⟨_,_,.order is operand⟩
  | @isIn op listed items noted is compared =>
    obtain ⟨first,inside,last,rfl,opens,closes,joined⟩ := compared
    obtain ⟨op',behind,rfl,same,behinds⟩ := List.map_eq_cons_iff.mp shape
    obtain ⟨first',after,rfl,same',afters⟩ := List.map_eq_cons_iff.mp behinds
    obtain ⟨inside',tail,rfl,within,tails⟩ := List.map_eq_append_iff.mp afters
    obtain ⟨last',none',rfl,same'',ended⟩ := List.map_eq_cons_iff.mp tails
    cases List.map_eq_nil_iff.mp ended
    obtain ⟨stands,plain⟩ := stand_sign (congrArg Token.kind same) (by rw [is]; exact in_sign)
    obtain ⟨stands',plain'⟩ := stand_sign (congrArg Token.kind same') (by rw [opens]; exact fun _ => Kind.noConfusion)
    obtain ⟨stands'',plain''⟩ := stand_sign (congrArg Token.kind same'') (by rw [closes]; exact fun _ => Kind.noConfusion)
    rw [stands] at same
    rw [stands'] at same'
    rw [stands''] at same''
    subst same same' same''
    obtain ⟨more,rfl,filled'⟩ := filled_sign plain filled
    obtain ⟨more',rfl,filled''⟩ := filled_sign plain' filled'
    obtain ⟨made,closing,rfl,written,closed⟩ := filled_append filled''
    obtain ⟨none',rfl,ended'⟩ := filled_sign plain'' closed
    cases ended'
    obtain ⟨items',noted',joined'⟩ := items_sent joined within (fit.within ⟨[op',first'],[last'],by simp⟩) written
    exact ⟨_,_,.isIn is ⟨_,made,_,rfl,opens,closes,joined'⟩⟩

-- A part of a line has a part that stands for it, and where that reads so does what the part is filled with.
def Sends (today : Scalars.Date) (bound : Bound) (shapes : Phrase Token Unit Node) : Prop :=
  ∀ line node, Takes shapes line node → Fit today bound line → ∃ stood, Takes shapes (line.map Token.stand) stood ∧
    ∀ tree, stood.tree Days.fixed = some tree → ∀ made, node.bind bound = some made → ∃ tree', made.tree today = some tree'

theorem Sends.term : Sends today bound (TermOf shapeAsked) := by
  intro line node taken fit
  obtain ⟨noted,token,key,rest,rfl,spelled,asks,rfl,rfl⟩ := taken
  have keyed : ∃ key', token.stand.kind = .word key' := by
    unfold Token.stand
    split
    · exact ⟨_,rfl⟩
    · exact ⟨key,spelled⟩
  obtain ⟨key',spelled'⟩ := keyed
  refine ⟨.term (token.stand::rest.map Token.stand),⟨[],token.stand,key',rest.map Token.stand,rfl,spelled',asks.stand,rfl,rfl⟩,?_⟩
  intro tree reads made filled
  rw [Node.tree] at reads
  obtain ⟨noted,asked⟩ := (termTree_iff spelled').mp reads
  rw [Node.bind] at filled
  obtain ⟨words,written,rfl⟩ := Option.map_eq_some_iff.mp filled
  have later : ∃ tree', Takes (AskedOf today key) words tree' := asked_sent asked rfl (fit.within ⟨[token],[],by simp⟩) written
  obtain ⟨tree',later⟩ := later
  refine ⟨tree',?_⟩
  rw [Node.tree]
  exact (termTree_iff spelled).mpr later

theorem Sends.not {shapes : Phrase Token Unit Node} (sends : Sends today bound shapes) : Sends today bound (NotOf nodes shapes) := by
  intro line node taken fit
  obtain ⟨noted,first,rest,inner,rfl,negates,is,rfl⟩ := taken
  have plain : inputOf first.kind = none := by rw [negates]; rfl
  obtain ⟨stood,⟨noted',is'⟩,sent⟩ := sends rest inner ⟨noted,is⟩ (fit.within ⟨[first],[],by simp⟩)
  refine ⟨.not stood,⟨noted',first,rest.map Token.stand,stood,by rw [List.map_cons,stand_same plain],negates,is',rfl⟩,?_⟩
  intro tree reads made filled
  rw [Node.tree] at reads
  obtain ⟨inside,reads,_⟩ := Option.map_eq_some_iff.mp reads
  change (Node.not inner).bind bound = some made at filled
  rw [Node.bind] at filled
  obtain ⟨kept,written,rfl⟩ := Option.map_eq_some_iff.mp filled
  obtain ⟨tree',later⟩ := sent inside reads kept written
  exact ⟨_,by rw [Node.tree,later]; rfl⟩

theorem Sends.group {shapes : Phrase Token Unit Node} (sends : Sends today bound (OrOf nodes shapes)) :
    Sends today bound (GroupOf nodes shapes) := by
  intro line node taken fit
  obtain ⟨noted,first,inside,last,inner,rfl,opens,closes,is,rfl⟩ := taken
  have plain : inputOf first.kind = none := by rw [opens]; rfl
  have plain' : inputOf last.kind = none := by rw [closes]; rfl
  obtain ⟨stood,⟨noted',is'⟩,sent⟩ := sends inside inner ⟨noted,is⟩ (fit.within ⟨[first],[last],by simp⟩)
  refine ⟨.group stood,⟨noted',first,inside.map Token.stand,last,stood,?_,opens,closes,is',rfl⟩,?_⟩
  · rw [List.map_cons,List.map_append,List.map_singleton,stand_same plain,stand_same plain']
  · intro tree reads made filled
    rw [Node.tree] at reads
    change (Node.group inner).bind bound = some made at filled
    rw [Node.bind] at filled
    obtain ⟨kept,written,rfl⟩ := Option.map_eq_some_iff.mp filled
    obtain ⟨tree',later⟩ := sent tree reads kept written
    exact ⟨tree',by rw [Node.tree,later]⟩

theorem row_sent {shapes : Phrase Token Unit Node} {sep : Token → Bool} {parts : List Node} {noted : List Unit} (sends : Sends today bound shapes)
    (signs : ∀ token, sep token = true → inputOf token.kind = none) (joined : Joined shapes sep line parts noted) (fit : Fit today bound line) :
    ∃ stoods, Takes (Joined shapes sep) (line.map Token.stand) stoods ∧
      ∀ each, List.Forall₂ (fun part tree => part.tree Days.fixed = some tree) stoods each →
        ∃ each', List.Forall₂ (fun part tree => part.tree today = some tree) (bindParts bound parts) each' := by
  induction joined with
  | @one front part noted first =>
    obtain ⟨stood,⟨noted',is⟩,sent⟩ := sends front part ⟨_,first⟩ fit
    refine ⟨[stood],⟨noted',.one is⟩,?_⟩
    intro each are
    cases are with
    | cons read none' =>
      rw [bindParts,bindParts]
      cases kept : part.bind bound with
      | none => exact ⟨[],.nil⟩
      | some made =>
        obtain ⟨tree',later⟩ := sent _ read made kept
        exact ⟨[tree'],.cons later .nil⟩
  | @more front part noted token rest parts notes first apart others ih =>
    obtain ⟨stood,⟨noted',is⟩,sent⟩ := sends front part ⟨_,first⟩ (fit.within ⟨[],token::rest,rfl⟩)
    obtain ⟨stoods,⟨notes',joined⟩,sents⟩ := ih (fit.within ⟨front++[token],[],by simp⟩)
    refine ⟨stood::stoods,⟨noted'++notes',?_⟩,?_⟩
    · rw [List.map_append,List.map_cons,stand_same (signs token apart)]
      exact .more is apart joined
    · intro each are
      cases are with
      | cons read reads =>
        obtain ⟨each',laters⟩ := sents _ reads
        rw [bindParts]
        cases kept : part.bind bound with
        | none => exact ⟨each',laters⟩
        | some made =>
          obtain ⟨tree',later⟩ := sent _ read made kept
          exact ⟨tree'::each',.cons later laters⟩

theorem Sends.row {shapes : Phrase Token Unit Node} {sep : Token → Bool} {combine : List Node → Node} {joins : List Filter → Filter}
    (sends : Sends today bound shapes) (signs : ∀ token, sep token = true → inputOf token.kind = none)
    (makes : ∀ day parts, (combine parts).tree day = (trees day parts).map joins)
    (binds : ∀ parts, (combine parts).bind bound = if bindParts bound parts = [] then none else some (oneOr combine (bindParts bound parts))) :
    Sends today bound (RowOf combine shapes sep) := by
  intro line node taken fit
  obtain ⟨noted,parts,joined,rfl⟩ := taken
  obtain ⟨stoods,⟨noted',joined'⟩,sents⟩ := row_sent sends signs joined fit
  refine ⟨oneOr combine stoods,⟨noted',stoods,joined',rfl⟩,?_⟩
  intro tree reads made filled
  obtain ⟨each,are,_⟩ := (row_tree (makes Days.fixed) stoods).mp reads
  obtain ⟨each',laters⟩ := sents each are
  rw [row_bind binds] at filled
  split at filled
  · cases filled
  · cases filled
    exact ⟨_,(row_tree (makes today) _).mpr ⟨each',laters,rfl⟩⟩

theorem Sends.or {shapes : Phrase Token Unit Node} (sends : Sends today bound shapes) : Sends today bound (OrOf nodes shapes) := by
  have signs : ∀ token, isAnd token = true ∨ isOr token = true → inputOf token.kind = none := by
    intro token sign
    rcases sign with is | is <;> rw [of_decide_eq_true is] <;> rfl
  have and : Sends today bound (AndOf nodes shapes) := by
    refine @Sends.row _ _ today bound shapes isAnd nodes.all .all sends (fun token is => signs token (Or.inl is)) ?_ ?_
    · intro day parts
      change (Node.all parts).tree day = _
      rw [Node.tree]
    · intro parts
      change (Node.all parts).bind bound = _
      rw [Node.bind]
      rfl
  refine @Sends.row _ _ today bound _ isOr nodes.any .any and (fun token is => signs token (Or.inr is)) ?_ ?_
  · intro day parts
    change (Node.any parts).tree day = _
    rw [Node.tree]
  · intro parts
    change (Node.any parts).bind bound = _
    rw [Node.bind]
    rfl

theorem Sends.unary (levels : Nat) : Sends today bound (UnaryOf nodes shapeAsked levels) := by
  induction levels with
  | zero => exact Sends.term
  | succ levels ih =>
    intro line node taken fit
    obtain ⟨noted,is | is | is⟩ := taken
    · obtain ⟨stood,⟨noted',is'⟩,sent⟩ := Sends.term line node ⟨noted,is⟩ fit
      exact ⟨stood,⟨noted',Or.inl is'⟩,sent⟩
    · obtain ⟨stood,⟨noted',is'⟩,sent⟩ := ih.not line node ⟨noted,is⟩ fit
      exact ⟨stood,⟨noted',Or.inr (Or.inl is')⟩,sent⟩
    · obtain ⟨stood,⟨noted',is'⟩,sent⟩ := ih.or.group line node ⟨noted,is⟩ fit
      exact ⟨stood,⟨noted',Or.inr (Or.inr is')⟩,sent⟩

-- A line that was let through when it was saved reads at a call, whatever is left out of it, where the
-- day and the values of the call owe it nothing.
theorem a_saved_line_reads_as_sent {text written : Text} {tokens : List Token} {node : Node} (asked : bound.isEmpty = false)
    (saved : readsSaved text = .ok ()) (lexed : lex text = .ok tokens) (shaped : shape tokens = some node) (fit : Fit today bound tokens)
    (sent : withInputs text bound = .ok (some written)) (short : written.length ≤ MAX_LENGTH) : ∃ tree, parse written today = .ok tree := by
  obtain ⟨short',tree,values,reads⟩ := saved_line saved lexed
  obtain ⟨stood,taken,sends⟩ := (Sends.unary 31).or tokens node ((shape_of tokens node).mp shaped) fit
  obtain ⟨made,kept,same⟩ := filled_line asked short' lexed shaped sent
  obtain ⟨tree',later⟩ := sends tree ((shape_trees taken).mp ⟨values,reads⟩) made kept
  exact ⟨tree',(same short today tree').mpr later⟩

end

def savedLine : Text := "a < $b && (c = $d || e)".toList

def savedTokens : List Token := [⟨.word ['a'],1,2⟩,⟨.less,3,4⟩,⟨.word ['$','b'],5,7⟩,⟨.and,8,10⟩,⟨.opening,11,12⟩,
  ⟨.word ['c'],12,13⟩,⟨.equals,14,15⟩,⟨.word ['$','d'],16,18⟩,⟨.or,19,21⟩,⟨.word ['e'],22,23⟩,⟨.closing,23,24⟩]

-- A call that sends a number for one input and leaves the other out.
def numberSent : ViewInputs.Bound := ⟨[(['b'],some ⟨['5'],none⟩),(['d'],none)]⟩

theorem saved_fits : @Fit plainScalars plainDays (20261009 : Nat) numberSent savedTokens := by
  have inputs : ∀ token ∈ savedTokens, inputOf token.kind ≠ none → token = ⟨.word ['$','b'],5,7⟩ ∨ token = ⟨.word ['$','d'],16,18⟩ := by
    decide
  refine @Fit.mk plainScalars plainDays _ _ _ ?_ ?_ ?_
  · intro token found written _ spelled _
    have plain : ∀ token ∈ savedTokens, token.kind.spelled.take 5 ≠ "today".toList := by decide
    have other := plain token found
    rw [spelled] at other
    exact ⟨_,if_pos other⟩
  · intro token found input made filled
    rcases inputs token found input with rfl | rfl
    · cases filled
      exact ⟨_,_,@ValueOf.word plainScalars plainDays _ _ ['5'] _ rfl rfl⟩
    · cases filled
  · intro op item pair _ input made filled
    have found : item ∈ savedTokens := pair.subset (List.mem_cons_of_mem op List.mem_cons_self)
    rcases inputs item found input with rfl | rfl
    · cases filled
      exact ⟨_,_,@OperandOf.number plainScalars plainDays _ _ ['5'] _ rfl rfl (by decide) rfl⟩
    · cases filled

def stoodLine : Text := "a < 00 && (c = 00 || e)".toList

def stoodTokens : List Token := [⟨.word ['a'],1,2⟩,⟨.less,3,4⟩,⟨.word ['0','0'],5,7⟩,⟨.and,8,10⟩,⟨.opening,11,12⟩,
  ⟨.word ['c'],12,13⟩,⟨.equals,14,15⟩,⟨.word ['0','0'],16,18⟩,⟨.or,19,21⟩,⟨.word ['e'],22,23⟩,⟨.closing,23,24⟩]

theorem saved_reads : @readsSaved plainScalars plainDays savedLine = .ok () := by
  have stands : standing savedLine = stoodLine := by decide +kernel
  have lexed : lex stoodLine = .ok stoodTokens := by decide +kernel
  have parsed := (@parse_iff plainScalars plainDays (@Days.fixed _ plainDays) _ stoodLine _ (by decide) lexed).mpr
    ((@shape_trees plainScalars plainDays _ _ _ _ ((shape_of _ _).mp rfl)).mpr rfl)
  rw [@parse.eq_def plainScalars plainDays] at parsed
  rw [@readsSaved.eq_def plainScalars plainDays,stands]
  cases reads : @read plainScalars plainDays stoodLine (@Days.fixed _ plainDays) with
  | error why =>
    rw [reads] at parsed
    cases parsed
  | ok _ => rfl

theorem a_line_with_a_term_left_out_reads :
    withInputs savedLine numberSent = .ok (some "a < 5 && (e)".toList) ∧
      ∃ tree, @parse plainScalars plainDays "a < 5 && (e)".toList (20261009 : Nat) = .ok tree := by
  have lexed : lex savedLine = .ok savedTokens := by decide +kernel
  obtain ⟨node,shaped,fills⟩ : ∃ node, shape savedTokens = some node ∧
      filled numberSent node = .ok (some "a < 5 && (e)".toList) := ⟨_,rfl,rfl⟩
  have sent := (withInputs_shape rfl (by decide) lexed shaped).trans fills
  exact ⟨sent,@a_saved_line_reads_as_sent plainScalars plainDays _ _ _ _ _ _ rfl saved_reads lexed shaped saved_fits sent
    (by decide)⟩

end Expression
