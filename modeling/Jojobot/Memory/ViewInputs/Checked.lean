import Jojobot.Library.Runs
import Jojobot.Memory.Filter.Expression.Shape
import Jojobot.Memory.Numbered
import Jojobot.Memory.Screen.Guard
import Jojobot.Memory.ViewInputs.Declared

namespace Expression
open Library Memory ViewInputs

-- The inputs a saved line names, in the order written.
def placeholders (text : Text) : List Text :=
  match lex text with
  | .error _ => []
  | .ok tokens => tokens.filterMap fun token => inputOf token.kind

-- `walk` of the source: the inputs named where a key goes.
mutual
def Node.keyed : Node → List Text
  | .term words => (words.head?.bind fun word => inputOf word.kind).toList
  | .not inner => inner.keyed
  | .group inner => inner.keyed
  | .all parts => keyedParts parts
  | .any parts => keyedParts parts
def keyedParts : List Node → List Text
  | [] => []
  | part::parts => part.keyed++keyedParts parts
end

def placeholdersInKeyPosition (text : Text) : List Text :=
  match lex text with
  | .error _ => []
  | .ok tokens => ((shape tokens).map Node.keyed).getD []

-- The terms of a line as they stand in its shape, the key first in each.
mutual
def Node.terms : Node → List (List Token)
  | .term words => [words]
  | .not inner => inner.terms
  | .group inner => inner.terms
  | .all parts => termsOf parts
  | .any parts => termsOf parts
def termsOf : List Node → List (List Token)
  | [] => []
  | part::parts => part.terms++termsOf parts
end

-- No input stands for the key of a term.
def KeysWritten (terms : List (List Token)) : Prop :=
  ∀ words ∈ terms, ∀ key, words.head? = some key → inputOf key.kind = none

mutual
theorem Node.keysWritten (node : Node) (unkeyed : node.keyed = []) : KeysWritten node.terms := by
  cases node with
  | term words =>
    intro others found key first
    cases List.mem_singleton.mp found
    rw [Node.keyed,first] at unkeyed
    exact Option.toList_eq_nil_iff.mp unkeyed
  | not inner => exact inner.keysWritten unkeyed
  | group inner => exact inner.keysWritten unkeyed
  | all parts => exact keysWritten_parts parts unkeyed
  | any parts => exact keysWritten_parts parts unkeyed
theorem keysWritten_parts (parts : List Node) (unkeyed : keyedParts parts = []) : KeysWritten (termsOf parts) := by
  cases parts with
  | nil => exact fun words found => absurd found List.not_mem_nil
  | cons part parts =>
    obtain ⟨here,there⟩ := List.append_eq_nil_iff.mp unkeyed
    intro words found
    rcases List.mem_append.mp found with first | later
    · exact part.keysWritten here words first
    · exact keysWritten_parts parts there words later
end

theorem placeholdersInKeyPosition_none {text : Text} {tokens : List Token} {tree : Node} (none' : placeholdersInKeyPosition text = [])
    (lexed : lex text = .ok tokens) (shaped : shape tokens = some tree) : KeysWritten tree.terms := by
  unfold placeholdersInKeyPosition at none'
  rw [lexed] at none'
  dsimp only at none'
  rw [shaped] at none'
  exact tree.keysWritten none'

end Expression

namespace ViewInputs
open Library Memory Expression

def KEY : Text := "inputs".toList
def AS_OF : Text := "as_of".toList
def WHERE : Text := "where".toList
def PARENT : Text := "parent".toList
def ANSWERS_TYPE : Text := "answers_type".toList
def ASKS : Text := "asks".toList
def RESERVED_NAMES : List Text := ["history".toList]

-- A write that leaves these as they were is not checked.
def watched : List Text := [KEY,WHERE,PARENT,ANSWERS_TYPE,AS_OF,ASKS]

def reserved (name : Text) : Text :=
  "'".toList++name++"' cannot be the name of an input: the page of a view reads it for itself, so a link could never ".toList++
    "fill it. Reserved: ".toList++joinItems RESERVED_NAMES

def inAKeyPlace (name : Text) : Text :=
  "the view puts $".toList++name++" where a key goes. An input stands for a value: write \x60key = $".toList++name++"\x60".toList

def undeclared (declared : List InputDecl) (name : Text) : Text :=
  "the view uses $".toList++name++", which its \x60inputs\x60 do not declare. ".toList++
    (if declared = [] then "it declares no inputs".toList else "It declares: ".toList++spelled declared)

def notOverdue : Text :=
  "the view names a day and does not ask what is overdue: \x60as_of\x60 belongs to a view with \x60asks: overdue\x60".toList

def notAnInput : Text :=
  "the view's \x60as_of\x60 is an input written \x60$name\x60, and a day is the value a call sends: declare ".toList++
    "\x60by: date? = today+7d\x60 and write \x60as_of: $by\x60".toList

def notADay (name : Text) : Text :=
  "the view's \x60as_of\x60 is the input $".toList++name++", and a day is a date: declare it as \x60".toList++name++": date\x60".toList

def notAThing (name : Text) : Text :=
  "the view's \x60parent\x60 is the input $".toList++name++", and a parent is a thing: declare it as \x60".toList++name++
    ": kind <kind>\x60 or \x60".toList++name++": handle\x60".toList

def notInWords (name : Text) : Text :=
  "the view's \x60answers_type\x60 is the input $".toList++name++", and a type is named in words: declare it as \x60".toList++
    name++": text\x60".toList

-- The input a whole value stands for.
def named (value : Text) : Option Text :=
  match trim value with
  | '$'::name => if isAName name then some name else none
  | _ => none

def InputType.isAThing : InputType → Bool
  | .kind _ | .handle => true
  | _ => false

def uses (fields : Fields) : List (Text × Text) :=
  ((fields[WHERE]?.map placeholders).getD []).map (WHERE,·)++(fields[PARENT]?.bind named).toList.map (PARENT,·)++
    (fields[ANSWERS_TYPE]?.bind named).toList.map (ANSWERS_TYPE,·)

def breaksADay (fields : Fields) (declared : List InputDecl) : Option (Text × Text) :=
  match fields[AS_OF]? with
  | none => none
  | some day =>
    if fields[ASKS]? ≠ some "overdue".toList then some (AS_OF,notOverdue)
    else
      match named day with
      | none => some (AS_OF,notAnInput)
      | some name =>
        match declared.find? (·.name = name) with
        | none => some (AS_OF,undeclared declared name)
        | some decl => if decl.type ≠ .date then some (AS_OF,notADay name) else none

def breaksAUse (declared : List InputDecl) (use : Text × Text) : Option (Text × Text) :=
  match declared.find? (·.name = use.2) with
  | none => some (use.1,undeclared declared use.2)
  | some decl =>
    if use.1 = PARENT ∧ decl.type.isAThing = false then some (use.1,notAThing use.2)
    else if use.1 = ANSWERS_TYPE ∧ decl.type ≠ .text then some (use.1,notInWords use.2)
    else none

section
variable [Scalars] [Days]

def breaksAView (before after : Fields) : Option (Text × Text) :=
  if watched.all fun key => before[key]? = after[key]? then none
  else
    match ViewInputs.parse (after[KEY]?.getD []) with
    | .error words => some (KEY,words)
    | .ok declared =>
      match declared.find? fun decl => RESERVED_NAMES.contains decl.name with
      | some decl => some (KEY,reserved decl.name)
      | none =>
        match after[WHERE]?.bind fun line => (placeholdersInKeyPosition line).head? with
        | some name => some (WHERE,inAKeyPlace name)
        | none => (breaksADay after declared).or ((uses after).findSome? (breaksAUse declared))

end

-- A thing as a binding knows it, and a handle that a thing with this badge went by.
structure Known where
  entity : Screen.Entity
  badge : Option Text

structure FormerHandle where
  former : Text
  badge : Text

def flat (known : List Known) (former : List FormerHandle) (id : Text) : Option Known :=
  match known.find? (·.entity.id.text = id) with
  | some direct => some direct
  | none => (former.find? (·.former = id)).bind fun held => known.find? (·.badge = some held.badge)

def numberedHandle (id : Text) : Option (Text × Nat) :=
  let number := id.rtakeWhile (· ≠ '/')
  let collection := (id.rdropWhile (· ≠ '/')).dropLast
  if id.contains '/' = false ∨ trim number ≠ number ∨ collection.contains ':' = false then none
  else (Numbering.wholeNumber number).map (collection,·)

-- `resolve_walk`: what is in front of the last slash is shorter, so the handle's length is turns enough.
def resolveFrom (lookup : Text → Option Known) : Nat → Text → Option Known
  | 0,id => lookup id
  | fuel+1,id =>
    match lookup id with
    | some found => some found
    | none => do
      let (outer,number) ← numberedHandle id
      let inner ← resolveFrom lookup fuel outer
      lookup (inner.entity.id.text++ '/'::printNat number)

def resolveHandle (id : Text) (known : List Known) (former : List FormerHandle) : Option Known :=
  resolveFrom (flat known former) id.length id

structure Refusal where
  words : Text
  nearest : List Screen.EntityMatch

def refusal (words : Text) : Refusal := ⟨words,[]⟩

def takes (view : Text) (decls : List InputDecl) : Text :=
  if decls = [] then view++" takes no inputs".toList else view++" takes these inputs: ".toList++spelled decls

section
variable (view : Text) (decls : List InputDecl)

def notTaken (name : Text) : Refusal :=
  refusal ("Nothing was read: '".toList++name++"' is not an input of ".toList++view++". ".toList++takes view decls)

def needed (decl : InputDecl) : Refusal :=
  refusal ("Nothing was read: ".toList++view++" needs a value for its input '".toList++decl.name++"'. ".toList++takes view decls)

def wrong (decl : InputDecl) (why : Text) : Refusal :=
  refusal ("Nothing was read: the input '".toList++decl.name++"' of ".toList++view++" is ".toList++decl.type.spelling++
    ", and ".toList++why++". ".toList++takes view decls)

end

section
variable [Scalars] [Days] [Screen.Letters] [Screen.Kinds] (known : List Known) (former : List FormerHandle) (today : Scalars.Date)

def bindHandle (wrong : Text → Refusal) (sent : Text) : Except Refusal Known :=
  match resolveHandle sent known former with
  | some found => .ok found
  | none => .error ⟨(wrong ("'".toList++sent++"' names nothing".toList)).words,Screen.screen ⟨sent⟩ [] (known.map Known.entity)⟩

def Known.value (found : Known) : Value := ⟨found.entity.id.text,some found.entity.id.text⟩

def bindValue (wrong : Text → Refusal) (type : InputType) (sent : Text) : Except Refusal Value :=
  match type with
  | .text => if sent = [] then .error (wrong "it was sent empty".toList) else .ok ⟨sent,none⟩
  | .number =>
    if isANumber sent then .ok ⟨sent,none⟩ else .error (wrong ("'".toList++sent++"' is not a number".toList))
  | .date =>
    match dateWord today sent with
    | .ok day => .ok ⟨day,none⟩
    | .error why => .error (wrong why)
  | .handle =>
    if (⟨sent⟩ : Screen.EntityId).kind = none then
      .error (wrong ("'".toList++sent++"' is not a handle (kind:slug)".toList))
    else do
      let found ← bindHandle known former wrong sent
      .ok found.value
  | .kind kind =>
    if (⟨sent⟩ : Screen.EntityId).kind ≠ some kind ∧ numberedHandle sent = none then
      .error (wrong ("'".toList++sent++"' is not a handle of kind ".toList++kind))
    else do
      let found ← bindHandle known former wrong sent
      if found.entity.id.kind ≠ some kind then
        .error (wrong ("'".toList++found.entity.id.text++"' is not a thing of kind ".toList++kind))
      else .ok found.value

section
variable (view : Text) (decls : List InputDecl) (given : Fields)

-- A value left out is the default, read like a value that was sent.
def sentFor (decl : InputDecl) : Option Text := (given[decl.name]?.map trim).or decl.fallback

def bindOne (decl : InputDecl) : Except Refusal (Option Value) :=
  match sentFor given decl with
  | none => if decl.optional then .ok none else .error (needed view decls decl)
  | some sent => (bindValue known former today (wrong view decls decl) decl.type sent).map some

def bindEach : List InputDecl → Except Refusal (List (Text × Option Value))
  | [] => .ok []
  | decl::rest => do
    let value ← bindOne known former today view decls given decl
    let values ← bindEach rest
    .ok ((decl.name,value)::values)

def bind : Except Refusal Bound :=
  match given.keys.find? fun name => !decls.any (·.name = name) with
  | some name => .error (notTaken view decls name)
  | none => (bindEach known former today view decls given decls).map Bound.mk

end

end

theorem breaksAUse_none {declared : List InputDecl} {key name : Text} (lets : breaksAUse declared (key,name) = none) :
    ∃ decl ∈ declared, decl.name = name ∧ (key = PARENT → decl.type.isAThing = true) ∧ (key = ANSWERS_TYPE → decl.type = .text) := by
  unfold breaksAUse at lets
  split at lets
  · cases lets
  · rename_i decl found
    have named : decl.name = name := by simpa using List.find?_some found
    refine ⟨decl,List.mem_of_find?_eq_some found,named,?_,?_⟩
    · intro parent
      split at lets
      · cases lets
      · rename_i thing
        cases is : decl.type.isAThing with
        | true => rfl
        | false => exact absurd ⟨parent,is⟩ thing
    · intro asked
      split at lets
      · cases lets
      · split at lets
        · cases lets
        · rename_i words
          by_contra other
          exact words ⟨asked,other⟩

theorem breaksADay_none {fields : Fields} {declared : List InputDecl} (lets : breaksADay fields declared = none) {day : Text}
    (found : fields[AS_OF]? = some day) : fields[ASKS]? = some "overdue".toList ∧
      ∃ name, named day = some name ∧ ∃ decl ∈ declared, decl.name = name ∧ decl.type = .date := by
  rw [breaksADay,found] at lets
  dsimp only at lets
  split at lets
  · cases lets
  · rename_i asks
    refine ⟨not_not.mp asks,?_⟩
    split at lets
    · cases lets
    · rename_i name input
      split at lets
      · cases lets
      · rename_i decl one
        refine ⟨name,input,decl,List.mem_of_find?_eq_some one,by simpa using List.find?_some one,?_⟩
        by_contra other
        rw [if_pos other] at lets
        cases lets

section
variable [Scalars] [Days]

-- What a write that is let through leaves: the inputs read, and the question uses those it declares.
structure Checked (fields : Fields) (declared : List InputDecl) : Prop where
  reads : ViewInputs.parse (fields[KEY]?.getD []) = .ok declared
  keys : ∀ line, fields[WHERE]? = some line → placeholdersInKeyPosition line = []
  day : breaksADay fields declared = none
  used : ∀ use ∈ uses fields, breaksAUse declared use = none

theorem checked_start : Checked ∅ [] where
  reads := rfl
  keys line found := by simp at found
  day := by simp [breaksADay]
  used use found := by simp [uses] at found

-- What is checked reads the watched keys alone.
theorem Checked.same {before after : Fields} {declared : List InputDecl} (same : ∀ key ∈ watched, before[key]? = after[key]?)
    (checked : Checked before declared) : Checked after declared := by
  simp only [watched,List.forall_mem_cons] at same
  obtain ⟨inputs,line,parent,asked,day,asks,_⟩ := same
  obtain ⟨reads,keys,dayed,used⟩ := checked
  refine ⟨?_,?_,?_,?_⟩
  · rw [← inputs]
    exact reads
  · rw [← line]
    exact keys
  · rw [breaksADay,← day,← asks]
    exact dayed
  · rw [uses,← line,← parent,← asked]
    exact used

def Sound (fields : Fields) : Prop := ∃ declared, Checked fields declared

theorem Sound.written {before after : Fields} (lets : breaksAView before after = none) (known : Sound before) : Sound after := by
  unfold breaksAView at lets
  split at lets
  · rename_i same
    obtain ⟨declared,checked⟩ := known
    exact ⟨declared,checked.same fun key found => of_decide_eq_true (List.all_eq_true.mp same key found)⟩
  · split at lets
    · cases lets
    · rename_i declared reads
      split at lets
      · cases lets
      · split at lets
        · cases lets
        · rename_i unkeyed
          obtain ⟨day,used⟩ := Option.or_eq_none_iff.mp lets
          refine ⟨declared,reads,?_,day,List.findSome?_eq_none_iff.mp used⟩
          intro line found
          rw [found] at unkeyed
          exact List.head?_eq_none_iff.mp unkeyed

-- A view's keys are written one write after another, each let through.
def writing (before after now : Fields) : Prop := now = after ∧ breaksAView before after = none

theorem written_checked {taken : List (Fields × Fields)} {fields : Fields} (run : Run writing ∅ taken fields) : Sound fields := by
  have start : Sound ∅ := ⟨[],checked_start⟩
  refine (run.keeps start ?_).1
  intro before after now known written
  obtain ⟨rfl,lets⟩ := written
  exact known.written lets

end

theorem flat_known {known : List Known} {former : List FormerHandle} {id : Text} {found : Known}
    (looked : flat known former id = some found) : found ∈ known := by
  unfold flat at looked
  split at looked
  · rename_i direct is
    cases looked
    exact List.mem_of_find?_eq_some is
  · obtain ⟨held,_,worn⟩ := Option.bind_eq_some_iff.mp looked
    exact List.mem_of_find?_eq_some worn

theorem resolveHandle_known {known : List Known} {former : List FormerHandle} {id : Text} {found : Known}
    (resolved : resolveHandle id known former = some found) : found ∈ known := by
  have walked : ∀ fuel id, resolveFrom (flat known former) fuel id = some found → found ∈ known := by
    intro fuel
    induction fuel with
    | zero => exact fun id looked => flat_known looked
    | succ fuel ih =>
      intro id looked
      rw [resolveFrom] at looked
      split at looked
      · rename_i direct is
        cases looked
        exact flat_known is
      · obtain ⟨parts,_,looked⟩ := Option.bind_eq_some_iff.mp looked
        obtain ⟨inner,_,looked⟩ := Option.bind_eq_some_iff.mp looked
        exact flat_known looked
  exact walked _ _ resolved

theorem bindHandle_known [Screen.Letters] [Screen.Kinds] {known : List Known} {former : List FormerHandle} {wrong : Text → Refusal} {sent : Text}
    {found : Known} (bound : bindHandle known former wrong sent = .ok found) : found ∈ known := by
  unfold bindHandle at bound
  split at bound
  · rename_i one resolved
    cases bound
    exact resolveHandle_known resolved
  · cases bound

section
variable [Scalars] [Days] [Screen.Letters] [Screen.Kinds] (known : List Known) (today : Scalars.Date)

-- What a bound value of a type is, whether it was sent or is the default.
def Fits (type : InputType) (value : Value) : Prop :=
  match type with
  | .text => value.handle = none ∧ value.text ≠ []
  | .number => value.handle = none ∧ isANumber value.text = true
  | .date => value.handle = none ∧ ∃ word, dateWord today word = .ok value.text
  | .handle => ∃ found ∈ known, value = found.value
  | .kind kind => ∃ found ∈ known, value = found.value ∧ found.entity.id.kind = some kind

end

section
variable [Scalars] [Days] [Screen.Letters] [Screen.Kinds] {known : List Known} {former : List FormerHandle} {today : Scalars.Date}
  {view : Text} {decls : List InputDecl} {given : Fields}

theorem bindValue_fits {wrong : Text → Refusal} {type : InputType} {sent : Text} {value : Value}
    (bound : bindValue known former today wrong type sent = .ok value) : Fits known today type value := by
  cases type with
  | text =>
    by_cases empty : sent = []
    · rw [bindValue,if_pos empty] at bound
      cases bound
    · rw [bindValue,if_neg empty] at bound
      cases bound
      exact ⟨rfl,empty⟩
  | number =>
    by_cases is : isANumber sent = true
    · rw [bindValue,if_pos is] at bound
      cases bound
      exact ⟨rfl,is⟩
    · rw [bindValue,if_neg is] at bound
      cases bound
  | date =>
    cases read : dateWord today sent with
    | error why =>
      rw [bindValue,read] at bound
      cases bound
    | ok day =>
      rw [bindValue,read] at bound
      cases bound
      exact ⟨rfl,sent,read⟩
  | handle =>
    rw [bindValue] at bound
    split at bound
    · cases bound
    · obtain ⟨found,one,made⟩ := bind_ok.mp bound
      cases made
      exact ⟨found,bindHandle_known one,rfl⟩
  | kind kind =>
    rw [bindValue] at bound
    split at bound
    · cases bound
    · obtain ⟨found,one,made⟩ := bind_ok.mp bound
      by_cases other : found.entity.id.kind ≠ some kind
      · rw [if_pos other] at made
        cases made
      · rw [if_neg other] at made
        cases made
        exact ⟨found,bindHandle_known one,rfl,not_not.mp other⟩

-- An input is bound to a value that fits it, or is left out where it may be.
def BoundTo (known : List Known) (today : Scalars.Date) (given : Fields) (decl : InputDecl) (value : Option Value) : Prop :=
  (value = none → decl.optional = true ∧ decl.fallback = none ∧ given[decl.name]? = none) ∧
    ∀ v, value = some v → Fits known today decl.type v

theorem bindEach_binds {rest : List InputDecl} {values : List (Text × Option Value)}
    (bound : bindEach known former today view decls given rest = .ok values) (apart : (rest.map (·.name)).Nodup) :
    ∀ decl ∈ rest, ∃ value, values.lookup decl.name = some value ∧ BoundTo known today given decl value := by
  induction rest generalizing values with
  | nil => exact fun decl found => absurd found List.not_mem_nil
  | cons first rest ih =>
    obtain ⟨value,one,behind⟩ := bind_ok.mp bound
    obtain ⟨others,more,made⟩ := bind_ok.mp behind
    cases made
    obtain ⟨fresh,apart⟩ := List.nodup_cons.mp apart
    have binds : BoundTo known today given first value := by
      unfold bindOne at one
      split at one
      · rename_i unsent
        split at one
        · rename_i optional
          cases one
          obtain ⟨unsent,undefaulted⟩ := Option.or_eq_none_iff.mp unsent
          exact ⟨fun _ => ⟨optional,undefaulted,Option.map_eq_none_iff.mp unsent⟩,fun v found => (by cases found)⟩
        · cases one
      · rename_i sent _
        cases fits : bindValue known former today (wrong view decls first) first.type sent with
        | error refused =>
          rw [fits] at one
          cases one
        | ok v =>
          rw [fits] at one
          cases one
          refine ⟨fun none' => (by cases none'),?_⟩
          intro w same
          cases same
          exact bindValue_fits fits
    intro decl found
    rcases List.mem_cons.mp found with rfl | later
    · exact ⟨value,List.lookup_cons_self,binds⟩
    · obtain ⟨other,looked,others⟩ := ih more apart decl later
      refine ⟨other,?_,others⟩
      have different : decl.name ≠ first.name := by
        intro same
        exact fresh (List.mem_map.mpr ⟨decl,later,same⟩)
      rw [List.lookup_cons,beq_false_of_ne different]
      exact looked

theorem bind_binds {bound : Bound} (declared : Declared decls) (binds : ViewInputs.bind known former today view decls given = .ok bound) :
    ∀ decl ∈ decls, ∃ value, bound.get decl.name = some value ∧ BoundTo known today given decl value := by
  unfold ViewInputs.bind at binds
  split at binds
  · cases binds
  · cases each : bindEach known former today view decls given decls with
    | error refused =>
      rw [each] at binds
      cases binds
    | ok values =>
      rw [each] at binds
      cases binds
      exact bindEach_binds each declared.apart

-- A view whose writes were all let through reads its inputs, and a call that binds them binds every name
-- its question uses, each to what its place takes. Nothing is said of the keys of a line whose shape is not
-- read: a term is a level there, so a line the filter takes can be one level too deep for it.
theorem a_written_view_is_bound {taken : List (Fields × Fields)} {fields : Fields} (run : Run writing ∅ taken fields)
    (known : List Known) (former : List FormerHandle) (today : Scalars.Date) (view : Text) (given : Fields) :
    ∃ declared, ViewInputs.parse (fields[KEY]?.getD []) = .ok declared ∧
      ∀ bound, ViewInputs.bind known former today view declared given = .ok bound →
        (∀ line, fields[WHERE]? = some line →
          (∀ tokens tree, lex line = .ok tokens → shape tokens = some tree → KeysWritten tree.terms) ∧
          ∀ name ∈ placeholders line, ∃ decl ∈ declared, decl.name = name ∧
            ∃ value, bound.get name = some value ∧ BoundTo known today given decl value) ∧
        (∀ parent name, fields[PARENT]? = some parent → named parent = some name → ∃ value, bound.get name = some value ∧
          ∀ v, value = some v → ∃ found ∈ known, v = found.value) ∧
        (∀ asked name, fields[ANSWERS_TYPE]? = some asked → named asked = some name → ∃ value, bound.get name = some value ∧
          ∀ v, value = some v → v.handle = none ∧ v.text ≠ []) ∧
        (∀ day, fields[AS_OF]? = some day → fields[ASKS]? = some "overdue".toList ∧ ∃ name value, named day = some name ∧
          bound.get name = some value ∧ ∀ v, value = some v → v.handle = none ∧ ∃ word, dateWord today word = .ok v.text) := by
  obtain ⟨declared,checked⟩ := written_checked run
  refine ⟨declared,checked.reads,?_⟩
  intro bound binds
  have each := bind_binds (parse_plain checked.reads) binds
  refine ⟨?_,?_,?_,?_⟩
  · intro line found
    refine ⟨fun tokens tree => placeholdersInKeyPosition_none (checked.keys line found),?_⟩
    intro name used
    have use : (WHERE,name) ∈ uses fields := by simp [uses,found,used]
    obtain ⟨decl,known',rfl,_,_⟩ := breaksAUse_none (checked.used _ use)
    exact ⟨decl,known',rfl,each decl known'⟩
  · intro parent name found input
    have use : (PARENT,name) ∈ uses fields := by simp [uses,found,input]
    obtain ⟨decl,known',rfl,thing,_⟩ := breaksAUse_none (checked.used _ use)
    obtain ⟨value,got,_,fits⟩ := each decl known'
    refine ⟨value,got,?_⟩
    intro v same
    have is := fits v same
    have things := thing rfl
    cases type : decl.type with
    | handle =>
      rw [type] at is
      exact is
    | kind kind =>
      rw [type] at is
      obtain ⟨one,inside,made,_⟩ := is
      exact ⟨one,inside,made⟩
    | date => rw [type] at things; cases things
    | number => rw [type] at things; cases things
    | text => rw [type] at things; cases things
  · intro asked name found input
    have use : (ANSWERS_TYPE,name) ∈ uses fields := by simp [uses,found,input]
    obtain ⟨decl,known',rfl,_,words⟩ := breaksAUse_none (checked.used _ use)
    obtain ⟨value,got,_,fits⟩ := each decl known'
    refine ⟨value,got,?_⟩
    intro v same
    have is := fits v same
    rw [words rfl] at is
    exact is
  · intro day found
    obtain ⟨asks,name,input,decl,known',rfl,dated⟩ := breaksADay_none checked.day found
    obtain ⟨value,got,_,fits⟩ := each decl known'
    refine ⟨asks,_,value,input,got,?_⟩
    intro v same
    have is := fits v same
    rw [dated] at is
    exact is

-- A key behind more `!` than the reader of shapes goes down is not seen.
example : placeholdersInKeyPosition "!$a".toList = ["a".toList] ∧ placeholdersInKeyPosition (List.replicate 32 '!'++"$a".toList) = [] := by
  decide +kernel

-- What a default needs of the day and of the roster, which the check of a declaration cannot see.
def Holds (known : List Known) (former : List FormerHandle) (today : Scalars.Date) (type : InputType) (fallback : Text) : Prop :=
  match type with
  | .date => ∃ day, dateWord today fallback = .ok day
  | .handle => (⟨fallback⟩ : Screen.EntityId).kind ≠ none ∧ ∃ found, resolveHandle fallback known former = some found
  | _ => True

theorem checkDefault_binds {wrong : Text → Refusal} {name fallback : Text} {type : InputType}
    (checked : checkDefault name type fallback = .ok ()) :
    (∃ value, bindValue known former today wrong type fallback = .ok value) ↔ Holds known former today type fallback := by
  have filled := checkDefault_filled checked
  unfold checkDefault at checked
  rw [if_neg filled] at checked
  cases type with
  | kind kind => cases checked
  | text => exact ⟨fun _ => trivial,fun _ => ⟨_,if_neg filled⟩⟩
  | number =>
    cases is : isANumber fallback with
    | false =>
      rw [is] at checked
      cases checked
    | true => exact ⟨fun _ => trivial,fun _ => ⟨_,if_pos is⟩⟩
  | date =>
    cases read : dateWord today fallback with
    | error why =>
      constructor
      · intro bound
        obtain ⟨value,bound⟩ := bound
        rw [bindValue,read] at bound
        cases bound
      · intro holds
        obtain ⟨day,reads⟩ := holds
        rw [read] at reads
        cases reads
    | ok day =>
      refine ⟨fun _ => ⟨day,read⟩,fun _ => ⟨⟨day,none⟩,?_⟩⟩
      rw [bindValue,read]
  | handle =>
    rw [bindValue]
    split
    · rename_i none'
      constructor
      · intro bound
        obtain ⟨value,bound⟩ := bound
        cases bound
      · intro holds
        exact absurd none' holds.1
    · rename_i some'
      constructor
      · intro bound
        obtain ⟨value,bound⟩ := bound
        obtain ⟨found,one,_⟩ := bind_ok.mp bound
        unfold bindHandle at one
        split at one
        · rename_i _ resolved
          exact ⟨some',_,resolved⟩
        · cases one
      · intro holds
        obtain ⟨_,found,resolved⟩ := holds
        refine ⟨found.value,bind_ok.mpr ⟨found,?_,rfl⟩⟩
        rw [bindHandle,resolved]

theorem bindOne_left_out {decl : InputDecl} (plain : Plain decl) :
    (∃ value, bindOne known former today view decls ∅ decl = .ok value) ↔ (decl.fallback = none → decl.optional = true) ∧
      ∀ fallback, decl.fallback = some fallback → Holds known former today decl.type fallback := by
  have unsent : sentFor ∅ decl = decl.fallback := by simp [sentFor]
  rw [bindOne,unsent]
  cases given : decl.fallback with
  | none =>
    dsimp only
    split
    · rename_i optional
      exact ⟨fun _ => ⟨fun _ => optional,fun fallback none' => (by cases none')⟩,fun _ => ⟨_,rfl⟩⟩
    · rename_i needed
      constructor
      · intro bound
        obtain ⟨value,bound⟩ := bound
        cases bound
      · intro lets
        exact absurd (lets.1 rfl) needed
  | some fallback =>
    dsimp only
    have binds := @checkDefault_binds _ _ _ _ known former today (wrong view decls decl) _ _ _ (plain.fallback fallback given).2.2
    constructor
    · intro bound
      obtain ⟨value,bound⟩ := bound
      refine ⟨fun none' => (by cases none'),?_⟩
      intro other same
      cases same
      refine binds.mp ?_
      cases one : bindValue known former today (wrong view decls decl) decl.type fallback with
      | error refused =>
        rw [one] at bound
        cases bound
      | ok v => exact ⟨v,rfl⟩
    · intro lets
      obtain ⟨v,one⟩ := binds.mpr (lets.2 fallback rfl)
      rw [one]
      exact ⟨some v,rfl⟩

theorem bindEach_ok {rest : List InputDecl} : (∃ values, bindEach known former today view decls given rest = .ok values) ↔
    ∀ decl ∈ rest, ∃ value, bindOne known former today view decls given decl = .ok value := by
  induction rest with
  | nil => exact ⟨fun _ decl found => absurd found List.not_mem_nil,fun _ => ⟨[],rfl⟩⟩
  | cons first rest ih =>
    rw [List.forall_mem_cons,← ih]
    constructor
    · intro bound
      obtain ⟨values,bound⟩ := bound
      obtain ⟨value,one,behind⟩ := bind_ok.mp bound
      obtain ⟨others,more,_⟩ := bind_ok.mp behind
      exact ⟨⟨value,one⟩,others,more⟩
    · intro each
      obtain ⟨⟨value,one⟩,others,more⟩ := each
      exact ⟨_,bind_ok.mpr ⟨value,one,bind_ok.mpr ⟨others,more,rfl⟩⟩⟩

-- A view opened with nothing sent: what was declared binds but for an input that is needed, a default day
-- the calendar does not hold from today, and a default handle that names nothing.
theorem a_view_opens_on_its_defaults {list : Text} (read : ViewInputs.parse list = .ok decls) (known : List Known)
    (former : List FormerHandle) (today : Scalars.Date) (view : Text) :
    (∃ bound, ViewInputs.bind known former today view decls ∅ = .ok bound) ↔ ∀ decl ∈ decls,
      (decl.fallback = none → decl.optional = true) ∧
        ∀ fallback, decl.fallback = some fallback → Holds known former today decl.type fallback := by
  have declared := parse_plain read
  have each : (∃ bound, ViewInputs.bind known former today view decls ∅ = .ok bound) ↔
      ∃ values, bindEach known former today view decls ∅ decls = .ok values := by
    have unsent : (∅ : Fields).keys.find? (fun name => !decls.any (·.name = name)) = none := by simp
    rw [ViewInputs.bind,unsent]
    cases bindEach known former today view decls ∅ decls with
    | error refused =>
      constructor
      all_goals
        intro bound
        obtain ⟨_,bound⟩ := bound
        cases bound
    | ok values => exact ⟨fun _ => ⟨values,rfl⟩,fun _ => ⟨⟨values⟩,rfl⟩⟩
  rw [each,bindEach_ok]
  constructor
  · intro bound decl found
    exact (bindOne_left_out (declared.plain decl found)).mp (bound decl found)
  · intro lets decl found
    exact (bindOne_left_out (declared.plain decl found)).mpr (lets decl found)

end

-- A view that takes words and has some to fall back on, and asks with them.
def asking : Fields := ((∅ : Fields).insert KEY "a: text = x".toList).insert WHERE "b = $a".toList

theorem asking_inputs : asking[KEY]? = some "a: text = x".toList := by
  rw [asking,Std.ExtTreeMap.getElem?_insert,if_neg (by decide),Std.ExtTreeMap.getElem?_insert_self]

theorem asking_line : asking[WHERE]? = some "b = $a".toList := Std.ExtTreeMap.getElem?_insert_self

theorem asking_no_more {key : Text} (notInputs : key ≠ KEY) (notLine : key ≠ WHERE) : asking[key]? = none := by
  simp [asking,Ne.symm notInputs,Ne.symm notLine]

theorem asking_is_let_through : @breaksAView plainScalars plainDays ∅ asking = none := by
  have changed : ¬(watched.all fun key => decide ((∅ : Fields)[key]? = asking[key]?)) = true := by
    intro same
    have inputs := of_decide_eq_true (List.all_eq_true.mp same KEY List.mem_cons_self)
    rw [asking_inputs] at inputs
    simp at inputs
  have reads : @ViewInputs.parse plainScalars plainDays "a: text = x".toList = .ok [⟨['a'],.text,false,some ['x']⟩] := rfl
  have day : breaksADay asking [⟨['a'],.text,false,some ['x']⟩] = none := by
    rw [breaksADay,asking_no_more (by decide) (by decide)]
  have used : uses asking = [(WHERE,['a'])] := by
    rw [uses,asking_line,asking_no_more (by decide) (by decide),asking_no_more (by decide) (by decide)]
    rfl
  unfold breaksAView
  rw [if_neg changed,asking_inputs,Option.getD_some,reads]
  dsimp only
  rw [asking_line,day,used]
  rfl

theorem an_input_left_out_is_its_default : ∃ decl, decl.name = ['a'] ∧ ∃ value,
    Bound.get ⟨[(['a'],some ⟨['x'],none⟩)]⟩ ['a'] = some value ∧
      @BoundTo plainScalars plainDays ⟨[]⟩ [] (20261009 : Nat) ∅ decl value := by
  obtain ⟨declared,reads,binds⟩ := @a_written_view_is_bound plainScalars plainDays Screen.asciiLetters ⟨[]⟩ _ _
    (.step .start ⟨rfl,asking_is_let_through⟩) [] [] (20261009 : Nat) "view:b".toList ∅
  rw [asking_inputs] at reads
  cases reads
  obtain ⟨decl,_,named,bound⟩ := ((binds ⟨[(['a'],some ⟨['x'],none⟩)]⟩ rfl).1 _ asking_line).2 ['a'] List.mem_cons_self
  exact ⟨decl,named,bound⟩

theorem words_open_on_their_default : ∃ bound, @ViewInputs.bind plainScalars plainDays Screen.asciiLetters ⟨[]⟩ [] [] (20261009 : Nat)
    "view:b".toList [⟨['a'],.text,false,some ['x']⟩] ∅ = .ok bound := by
  have read : @ViewInputs.parse plainScalars plainDays "a: text = x".toList = .ok [⟨['a'],.text,false,some ['x']⟩] := rfl
  refine (@a_view_opens_on_its_defaults plainScalars plainDays Screen.asciiLetters ⟨[]⟩ _ _ read _ _ _ _).mpr ?_
  intro decl found
  cases List.mem_singleton.mp found
  exact ⟨fun none' => (by cases none'),fun _ _ => trivial⟩

end ViewInputs
