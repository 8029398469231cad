import Jojobot.Memory.Filter.Expression.Grammar
import Jojobot.Memory.Filter.Expression.Shape

namespace Expression
open Library Memory

-- The grammar of a shape: what may stand behind a key, whatever its values are.
inductive Items : List Token → Prop where
  | done {last} (closes : last.kind = .closing) : Items [last]
  | more {comma item rest} (apart : isComma comma = true) (is : item.kind.isValue = true) (others : Items rest) :
      Items (comma::item::rest)

inductive Asks : List Token → Prop where
  | nothing : Asks []
  | one {op item} (asks : op.kind.asksOne = true) (is : item.kind.isValue = true) : Asks [op,item]
  | isIn {op first item rest} (asks : op.kind = .word "in".toList) (opens : first.kind = .opening)
      (is : item.kind.isValue = true) (others : Items rest) : Asks (op::first::item::rest)

def shapeAsked (key : Token) (_ : Text) : Phrase Token Unit Node := fun line node noted =>
  Asks line ∧ node = .term (key::line) ∧ noted = []

abbrev ShapeOf (levels : Nat) : Phrase Token Unit Node := OrOf nodes (UnaryOf nodes shapeAsked levels)

theorem shapeValue_sound {reader next : Cursor Token Unit} {item : Token} (done : shapeValue reader = .ok (item,next)) :
    reader.rest = item::next.rest ∧ next.noted = reader.noted ∧ item.kind.isValue = true := by
  unfold shapeValue at done
  split at done
  · cases done
  · rename_i token rest shape
    split at done
    · rename_i is
      cases done
      exact ⟨shape,rfl,is⟩
    · cases done

theorem shapeItems_sound {fuel : Nat} {words all : List Token} {reader next : Cursor Token Unit}
    (done : shapeItems fuel words reader = .ok (all,next)) :
    ∃ items, reader.rest = items++next.rest ∧ next.noted = reader.noted ∧ all = words++items ∧ Items items := by
  induction fuel generalizing words reader with
  | zero => cases done
  | succ fuel ih =>
    rw [shapeItems] at done
    split at done
    · cases done
    · rename_i token rest shape
      split at done
      · rename_i apart
        cases one : shapeValue ⟨rest,reader.noted⟩ with
        | error why =>
          rw [one] at done
          cases done
        | ok pair =>
          obtain ⟨item,after⟩ := pair
          rw [one] at done
          obtain ⟨first,notes,is⟩ := shapeValue_sound one
          obtain ⟨items,parts,notes',read,others⟩ := ih done
          dsimp only at first notes
          refine ⟨token::item::items,?_,notes'.trans notes,?_,.more apart is others⟩
          · rw [shape,first,parts]
            rfl
          · rw [read]
            simp
      · split at done
        · rename_i closes
          cases done
          exact ⟨[token],shape,rfl,rfl,.done closes⟩
        · cases done

theorem shapeItems_complete {items : List Token} (is : Items items) {fuel : Nat} (enough : items.length ≤ fuel)
    (words rest : List Token) (noted : List Unit) :
    shapeItems fuel words ⟨items++rest,noted⟩ = .ok (words++items,⟨rest,noted⟩) := by
  induction is generalizing fuel words with
  | done closes =>
    obtain ⟨fuel,rfl⟩ := Nat.exists_eq_add_one_of_ne_zero (Nat.ne_of_gt (Nat.lt_of_lt_of_le Nat.one_pos enough))
    simp [shapeItems,isComma,closes]
  | @more comma item behind apart is others ih =>
    rw [List.length_cons,List.length_cons] at enough
    obtain ⟨fuel,rfl⟩ := Nat.exists_eq_add_one_of_ne_zero (show fuel ≠ 0 by omega)
    have later := ih (show behind.length ≤ fuel by omega) (words++[comma,item])
    have whole : words++comma::item::behind = words++[comma,item]++behind := by simp
    rw [whole]
    simp only [shapeItems,List.cons_append,apart,if_true,shapeValue,is]
    exact later

theorem shapeTerm_accepts (key : Token) (name : Text) : Accepts (shapeAsked key name) Ends (shapeTerm key) where
  sound reader node next done := by
    unfold shapeTerm at done
    split at done
    · cases done
      exact ⟨[],[],rfl,(List.append_nil _).symm,.nothing,rfl,rfl⟩
    · rename_i op rest shape
      split at done
      · cases done
        exact ⟨[],[],rfl,(List.append_nil _).symm,.nothing,rfl,rfl⟩
      · split at done
        · rename_i asks
          cases one : shapeValue ⟨rest,reader.noted⟩ with
          | error why =>
            rw [one] at done
            cases done
          | ok pair =>
            obtain ⟨item,after⟩ := pair
            rw [one] at done
            cases done
            obtain ⟨first,notes,is⟩ := shapeValue_sound one
            dsimp only at first notes
            exact ⟨[op,item],[],by rw [shape,first]; rfl,by rw [notes,List.append_nil],.one asks is,rfl,rfl⟩
        · split at done
          · rename_i asks
            unfold shapeList at done
            cases rest with
            | nil => cases done
            | cons first rest =>
              simp only at done
              split at done
              · rename_i opens
                cases one : shapeValue ⟨rest,reader.noted⟩ with
                | error why =>
                  rw [one] at done
                  cases done
                | ok pair =>
                  obtain ⟨item,after⟩ := pair
                  simp only [bind,Except.bind,one] at done
                  cases read : shapeItems (after.rest.length+1) ([key,op]++[first,item]) after with
                  | error why =>
                    rw [read] at done
                    cases done
                  | ok pair =>
                    obtain ⟨words,last⟩ := pair
                    rw [read] at done
                    cases done
                    obtain ⟨first',notes,is⟩ := shapeValue_sound one
                    obtain ⟨items,parts,notes',all,others⟩ := shapeItems_sound read
                    dsimp only at first' notes
                    refine ⟨op::first::item::items,[],?_,?_,.isIn asks opens is others,?_,rfl⟩
                    · rw [shape,first',parts]
                      rfl
                    · rw [notes',notes,List.append_nil]
                    · rw [all]
                      rfl
              · cases done
          · cases done
  complete line node noted rest before is final := by
    obtain ⟨asks,rfl,rfl⟩ := is
    rw [List.append_nil]
    cases asks with
    | nothing =>
      cases rest with
      | nil => rfl
      | cons token rest =>
        have stops := final token rfl
        simp [shapeTerm,stops]
    | @one op item asks is =>
      have other : ¬(op.kind = .and ∨ op.kind = .or ∨ op.kind = .closing) := by
        intro stops
        rcases stops with same | same | same <;> rw [same] at asks <;> cases asks
      simp only [shapeTerm,List.cons_append,if_neg other,asks,shapeValue,is]
      rfl
    | @isIn op first item items asks opens is others =>
      have other : ¬(op.kind = .and ∨ op.kind = .or ∨ op.kind = .closing) := by
        rw [asks]
        simp
      have notOne : op.kind.asksOne = false := by
        rw [asks]
        decide
      have read := shapeItems_complete others (Nat.le_succ_of_le (Nat.le_add_right items.length rest.length))
        ([key,op]++[first,item]) rest before
      rw [← List.length_append] at read
      have listed : shapeList [key,op] ⟨first::item::(items++rest),before⟩ =
          .ok ([key,op]++[first,item]++items,⟨rest,before⟩) := by
        simp only [shapeList,opens,if_true,shapeValue,is]
        exact read
      simp only [shapeTerm,List.cons_append,if_neg other,notOne,Bool.false_eq_true,if_false,if_pos asks,listed]
      rfl

theorem nothing_accepts : Accepts (fun _ _ _ => False : Phrase Token Unit Node) Ends (shapeUnary 0) :=
  ⟨fun _ _ _ done => (by cases done),fun _ _ _ _ _ never => never.elim⟩

theorem shapeUnary_accepts (left : Nat) : Accepts (UnaryOf nodes shapeAsked left) Ends (shapeUnary (left+1)) := by
  induction left with
  | zero =>
    have terms : ∀ token key, Accepts (shapeAsked token key) Ends (nodes.term token key) := shapeTerm_accepts
    have flat := unaryBy_nested terms nothing_accepts
    constructor
    · intro reader node next done
      obtain ⟨front,noted,parts,notes,is | ⟨_,_,_,_,_,never,_⟩ | ⟨_,_,_,_,_,_,_,never,_⟩⟩ := flat.sound _ _ _ done
      · exact ⟨front,noted,parts,notes,is⟩
      · exact never.elim
      · obtain ⟨_,_,_,others⟩ := never.holds_one
        obtain ⟨_,_,_,never⟩ := others.holds_one
        exact never.elim
    · intro front node noted rest before is final
      exact flat.complete _ _ _ _ _ (Or.inl is) final
  | succ left ih => exact unaryBy_nested shapeTerm_accepts ih

theorem shape_of (tokens : List Token) (node : Node) : shape tokens = some node ↔ Takes (ShapeOf 31) tokens node := by
  have final : Closed [] := by
    intro token found
    cases found
  have whole : ∀ noted, orBy nodes (shapeUnary MAX_DEPTH) ⟨tokens,[]⟩ = .ok (node,⟨[],noted⟩) ↔ ShapeOf 31 tokens node noted :=
    fun noted => (orBy_accepts (shapeUnary_accepts 31)).whole final
  unfold shape
  constructor
  · intro found
    split at found
    · rename_i tree noted read
      cases found
      exact ⟨noted,(whole noted).mp read⟩
    · cases found
  · intro found
    obtain ⟨noted,is⟩ := found
    rw [(whole noted).mpr is]

theorem shape_unique {levels : Nat} {line : List Token} {node other : Node} (first : Takes (ShapeOf levels) line node)
    (second : Takes (ShapeOf levels) line other) : node = other := by
  have final : Closed [] := by
    intro token found
    cases found
  obtain ⟨noted,first⟩ := first
  obtain ⟨noted',second⟩ := second
  exact ((orBy_accepts (shapeUnary_accepts levels)).unique final first second).1

section
variable [Scalars] [Days] {today : Scalars.Date} {line : List Token} {tree : Filter}

-- The tree of a shape, part by part.
theorem trees_iff (parts : List Node) (made : List Filter) :
    trees today parts = some made ↔ List.Forall₂ (fun part tree => part.tree today = some tree) parts made := by
  induction parts generalizing made with
  | nil =>
    rw [trees]
    constructor
    · intro same
      cases same
      exact .nil
    · intro are
      cases are
      rfl
  | cons part parts ih =>
    rw [trees]
    constructor
    · intro same
      obtain ⟨first,is,more⟩ := Option.bind_eq_some_iff.mp same
      obtain ⟨others,are,same⟩ := Option.bind_eq_some_iff.mp more
      cases same
      exact .cons is ((ih others).mp are)
    · intro are
      cases are with
      | cons is are =>
        rw [is,(ih _).mpr are]
        rfl

theorem row_tree {combine : List Node → Node} {made : List Filter → Filter}
    (makes : ∀ parts, (combine parts).tree today = (trees today parts).map made) (parts : List Node) :
    (oneOr combine parts).tree today = some tree ↔
      ∃ each, List.Forall₂ (fun part tree => part.tree today = some tree) parts each ∧ tree = oneOr made each := by
  have general : (combine parts).tree today = some tree ↔
      ∃ each, List.Forall₂ (fun part tree => part.tree today = some tree) parts each ∧ tree = made each := by
    rw [makes,Option.map_eq_some_iff]
    constructor
    · intro found
      obtain ⟨each,are,same⟩ := found
      exact ⟨each,(trees_iff parts each).mp are,same.symm⟩
    · intro found
      obtain ⟨each,are,same⟩ := found
      exact ⟨each,(trees_iff parts each).mpr are,same.symm⟩
  cases parts with
  | nil =>
    refine general.trans ⟨?_,?_⟩ <;> intro found <;> obtain ⟨each,are,same⟩ := found <;> cases are <;> exact ⟨[],.nil,same⟩
  | cons first parts =>
    cases parts with
    | nil =>
      constructor
      · intro is
        exact ⟨[tree],.cons is .nil,rfl⟩
      · intro found
        obtain ⟨each,are,same⟩ := found
        cases are with
        | cons is are =>
          cases are
          rw [same]
          exact is
    | cons second more =>
      refine general.trans ⟨?_,?_⟩ <;> intro found <;> obtain ⟨each,are,same⟩ := found <;> refine ⟨each,are,?_⟩ <;>
        cases are with | cons is are => cases are with | cons => exact same

-- Two grammars of a line agree where the tree of what the one makes is what the other makes.
def Agree (today : Scalars.Date) (phrase : Phrase Token ValueWord Filter) (shapes : Phrase Token Unit Node) : Prop :=
  ∀ line tree, Takes phrase line tree ↔ ∃ node, Takes shapes line node ∧ node.tree today = some tree

theorem Agree.row {phrase : Phrase Token ValueWord Filter} {shapes : Phrase Token Unit Node} {combine : List Node → Node}
    {made : List Filter → Filter} {sep : Token → Bool} (agree : Agree today phrase shapes)
    (makes : ∀ parts, (combine parts).tree today = (trees today parts).map made) :
    Agree today (RowOf made phrase sep) (RowOf combine shapes sep) := by
  intro line tree
  constructor
  · intro taken
    obtain ⟨noted,branches,joined,same⟩ := taken
    obtain ⟨parts,⟨noted',joined'⟩,are⟩ := Joined.translated (fun line tree => (agree line tree).mp) ⟨noted,joined⟩
    exact ⟨_,⟨noted',parts,joined',rfl⟩,(row_tree makes parts).mpr ⟨branches,are,same⟩⟩
  · intro found
    obtain ⟨node,⟨noted,parts,joined,rfl⟩,is⟩ := found
    obtain ⟨each,are,same⟩ := (row_tree makes parts).mp is
    obtain ⟨noted',joined'⟩ := Joined.translated_back (fun line tree node taken is => (agree line tree).mpr ⟨node,taken,is⟩)
      ⟨noted,joined⟩ are
    exact ⟨noted',each,joined',same⟩

theorem Agree.or {phrase : Phrase Token ValueWord Filter} {shapes : Phrase Token Unit Node} (agree : Agree today phrase shapes) :
    Agree today (OrOf (filters today) phrase) (OrOf nodes shapes) :=
  Agree.row (Agree.row agree fun parts => by rw [nodes,Node.tree]; rfl) fun parts => by rw [nodes,Node.tree]; rfl

theorem ValueOf.one {wanted : Text} {noted : List ValueWord} (is : ValueOf today line wanted noted) :
    ∃ item, line = [item] ∧ item.kind.isValue = true := by
  cases is with
  | word spelled reads => exact ⟨_,rfl,by rw [spelled]; rfl⟩
  | quoted spelled => exact ⟨_,rfl,by rw [spelled]; rfl⟩

theorem items_of_values {inside : List Token} {items : List Text} {noted : List ValueWord} {last : Token}
    (joined : Joined (ValueOf today) isComma inside items noted) (closes : last.kind = .closing) :
    ∃ item rest, inside = item::rest ∧ item.kind.isValue = true ∧ Items (rest++[last]) := by
  induction joined with
  | one first =>
    obtain ⟨item,rfl,is⟩ := first.one
    exact ⟨item,[],rfl,is,.done closes⟩
  | more first apart others ih =>
    obtain ⟨item,rfl,is⟩ := first.one
    obtain ⟨item',rest,rfl,is',items⟩ := ih
    exact ⟨item,_,rfl,is,.more apart is' items⟩

theorem AskedOf.asks {key : Text} {noted : List ValueWord} (is : AskedOf today key line tree noted) : Asks line := by
  cases is with
  | carried => exact .nothing
  | equals op compared =>
    obtain ⟨item,rfl,is⟩ := compared.one
    exact .one (by rw [op]; rfl) is
  | notEquals op compared =>
    obtain ⟨item,rfl,is⟩ := compared.one
    exact .one (by rw [op]; rfl) is
  | contains op compared =>
    obtain ⟨item,rfl,is⟩ := compared.one
    exact .one (by rw [op]; rfl) is
  | isIn op compared =>
    obtain ⟨first,inside,last,rfl,opens,closes,joined⟩ := compared
    obtain ⟨item,rest,rfl,is,items⟩ := items_of_values joined closes
    exact .isIn op opens is items
  | @order token _ op _ _ _ is compared =>
    have one : token.kind.asksOne = true := by
      cases kind : token.kind <;> rw [kind] at is <;> cases is <;> rfl
    cases compared with
    | day spelled reads => exact .one one (by rw [spelled]; rfl)
    | date spelled reads parses => exact .one one (by rw [spelled]; rfl)
    | number spelled reads other parses => exact .one one (by rw [spelled]; rfl)

theorem termTree_iff {token : Token} {key : Text} {rest : List Token} (spelled : token.kind = .word key) :
    termTree today (token::rest) = some tree ↔ Takes (AskedOf today key) rest tree := by
  have final : Ends [] := by
    intro token found
    cases found
  simp only [termTree,spelled]
  constructor
  · intro found
    split at found
    · rename_i tree' noted read
      cases found
      exact ⟨noted,((term_accepts key).whole final).mp read⟩
    · cases found
  · intro taken
    obtain ⟨noted,is⟩ := taken
    rw [((term_accepts key).whole final).mpr is]

theorem Agree.term : Agree today (TermOf (asked today)) (TermOf shapeAsked) := by
  intro line tree
  constructor
  · intro taken
    obtain ⟨noted,token,key,rest,rfl,spelled,is⟩ := taken
    exact ⟨.term (token::rest),⟨[],token,key,rest,rfl,spelled,is.asks,rfl,rfl⟩,(termTree_iff spelled).mpr ⟨noted,is⟩⟩
  · intro found
    obtain ⟨node,⟨_,token,key,rest,rfl,spelled,_,rfl,_⟩,is⟩ := found
    obtain ⟨noted,asks⟩ := (termTree_iff spelled).mp is
    exact ⟨noted,token,key,rest,rfl,spelled,asks⟩

theorem Agree.unary (levels : Nat) : Agree today (UnaryOf (filters today) (asked today) levels) (UnaryOf nodes shapeAsked levels) := by
  induction levels with
  | zero => exact Agree.term
  | succ levels ih =>
    intro line tree
    constructor
    · intro taken
      obtain ⟨noted,is | ⟨first,rest,inner,rfl,negates,is,rfl⟩ | ⟨first,inside,last,inner,rfl,opens,closes,is,made⟩⟩ := taken
      · obtain ⟨node,⟨noted,is⟩,same⟩ := (Agree.term line tree).mp ⟨noted,is⟩
        exact ⟨node,⟨noted,Or.inl is⟩,same⟩
      · obtain ⟨node,⟨noted,is⟩,same⟩ := (ih rest inner).mp ⟨noted,is⟩
        refine ⟨.not node,⟨noted,Or.inr (Or.inl ⟨first,rest,node,rfl,negates,is,rfl⟩)⟩,?_⟩
        rw [Node.tree,same]
        rfl
      · obtain ⟨node,⟨noted,is⟩,same⟩ := (ih.or inside inner).mp ⟨noted,is⟩
        refine ⟨.group node,⟨noted,Or.inr (Or.inr ⟨first,inside,last,node,rfl,opens,closes,is,rfl⟩)⟩,?_⟩
        rw [Node.tree,same,made]
        rfl
    · intro found
      obtain ⟨node,⟨noted,is⟩,same⟩ := found
      rcases is with is | ⟨first,rest,inner,rfl,negates,is,rfl⟩ | ⟨first,inside,last,inner,rfl,opens,closes,is,rfl⟩
      · obtain ⟨noted,is⟩ := (Agree.term line tree).mpr ⟨node,⟨noted,is⟩,same⟩
        exact ⟨noted,Or.inl is⟩
      · change (Node.not inner).tree today = some tree at same
        rw [Node.tree,Option.map_eq_some_iff] at same
        obtain ⟨tree,same,rfl⟩ := same
        obtain ⟨noted,is⟩ := (ih rest tree).mpr ⟨inner,⟨noted,is⟩,same⟩
        exact ⟨noted,Or.inr (Or.inl ⟨first,rest,tree,rfl,negates,is,rfl⟩)⟩
      · change (Node.group inner).tree today = some tree at same
        rw [Node.tree] at same
        obtain ⟨noted,is⟩ := (ih.or inside tree).mpr ⟨inner,⟨noted,is⟩,same⟩
        exact ⟨noted,Or.inr (Or.inr ⟨first,inside,last,tree,rfl,opens,closes,is,rfl⟩)⟩

theorem parse_iff {text : Text} {tokens : List Token} (short : text.length ≤ MAX_LENGTH) (lexed : lex text = .ok tokens) :
    parse text today = .ok tree ↔ Takes (OrOf (filters today) (UnaryOf (filters today) (asked today) MAX_DEPTH)) tokens tree := by
  constructor
  · intro parsed
    unfold parse at parsed
    cases done : read text today with
    | error why =>
      rw [done] at parsed
      cases parsed
    | ok pair =>
      obtain ⟨tree',values⟩ := pair
      rw [done] at parsed
      cases parsed
      obtain ⟨_,tokens',lexed',is⟩ := read_sound done
      cases lexed.symm.trans lexed'
      exact ⟨values,is⟩
  · intro taken
    obtain ⟨values,is⟩ := taken
    rw [parse,read_complete short lexed is]
    rfl

-- What the tree of a shape is, the line is read as.
theorem shape_trees {node : Node} (shaped : Takes (ShapeOf 31) line node) :
    Takes (OrOf (filters today) (UnaryOf (filters today) (asked today) MAX_DEPTH)) line tree ↔ node.tree today = some tree := by
  constructor
  · intro taken
    obtain ⟨other,taken,is⟩ := ((Agree.unary MAX_DEPTH).or line tree).mp taken
    obtain ⟨noted,shaped⟩ := shaped
    have deep : Takes (ShapeOf MAX_DEPTH) line node := ⟨noted,OrOf.weaken UnaryOf.deeper _ _ _ shaped⟩
    rw [shape_unique deep taken]
    exact is
  · intro is
    obtain ⟨noted,taken⟩ := ((Agree.unary 31).or line tree).mpr ⟨node,shaped,is⟩
    exact ⟨noted,OrOf.weaken UnaryOf.deeper _ _ _ taken⟩

-- A shape stands for the tree its line is read as, and a line that is read has one unless it
-- nests as deep as it may.
theorem the_readers_agree {text : Text} {tokens : List Token} (short : text.length ≤ MAX_LENGTH) (lexed : lex text = .ok tokens) :
    (∀ node tree, shape tokens = some node → (parse text today = .ok tree ↔ node.tree today = some tree)) ∧
      ∀ tree, parse text today = .ok tree → (shape tokens = none ↔
        ¬∃ values, OrOf (filters today) (UnaryOf (filters today) (asked today) 31) tokens tree values) := by
  constructor
  · intro node tree shaped
    exact (parse_iff short lexed).trans (shape_trees ((shape_of tokens node).mp shaped))
  · intro tree parsed
    constructor
    · intro none' found
      obtain ⟨node,shaped,_⟩ := ((Agree.unary 31).or tokens tree).mp found
      rw [(shape_of tokens node).mpr shaped] at none'
      cases none'
    · intro flat
      cases shaped : shape tokens with
      | none => rfl
      | some node =>
        have taken := (shape_of tokens node).mp shaped
        have is := (shape_trees taken).mp ((parse_iff short lexed).mp parsed)
        exact absurd (((Agree.unary 31).or tokens tree).mpr ⟨node,taken,is⟩) flat

end

def grouped : Text := "a && (b = 5 || !c)".toList

def groupedTokens : List Token := [⟨.word ['a'],1,2⟩,⟨.and,3,5⟩,⟨.opening,6,7⟩,⟨.word ['b'],7,8⟩,⟨.equals,9,10⟩,
  ⟨.word ['5'],11,12⟩,⟨.or,13,15⟩,⟨.not,16,17⟩,⟨.word ['c'],17,18⟩,⟨.closing,18,19⟩]

theorem the_readers_agree_on_a_group : ∃ node tree, shape groupedTokens = some node ∧
    @Node.tree plainScalars plainDays (20261009 : Nat) node = some tree ∧
    @parse plainScalars plainDays grouped (20261009 : Nat) = .ok tree ∧
    ∃ values, OrOf (@filters plainScalars plainDays (20261009 : Nat))
      (UnaryOf (@filters plainScalars plainDays (20261009 : Nat)) (@asked plainScalars plainDays (20261009 : Nat)) 31)
      groupedTokens tree values := by
  have lexed : lex grouped = .ok groupedTokens := by decide +kernel
  obtain ⟨agrees,shapes⟩ := @the_readers_agree plainScalars plainDays (20261009 : Nat) grouped _ (by decide) lexed
  refine ⟨_,_,rfl,rfl,?_⟩
  have reads := (agrees _ _ rfl).mpr rfl
  refine ⟨reads,?_⟩
  by_contra none'
  exact nomatch (shapes _ reads).mpr none'

end Expression
