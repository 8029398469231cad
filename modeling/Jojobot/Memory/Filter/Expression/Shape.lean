import Jojobot.Memory.Filter.Expression
import Jojobot.Memory.ViewInputs

namespace Expression
open Library Memory ViewInputs

-- A line's terms and what combines them, the words of a term as they were written.
inductive Node where
  | term (words : List Token)
  | not (inner : Node)
  | group (inner : Node)
  | all (parts : List Node)
  | any (parts : List Node)

-- The reader of a shape notes nothing and does not say where it stops.
abbrev Shapes (α : Type) : Type := Reading Token Unit Unit α

def Kind.isValue : Kind → Bool
  | .word _ | .quoted _ => true
  | _ => false

def shapeValue : Shapes Token := fun shape =>
  match shape.rest with
  | [] => .error ()
  | token::rest => if token.kind.isValue then .ok (token,⟨rest,shape.noted⟩) else .error ()

def shapeItems : Nat → List Token → Shapes (List Token)
  | 0,_,_ => .error ()
  | fuel+1,words,shape =>
    match shape.rest with
    | [] => .error ()
    | token::rest =>
      if isComma token then do
        let (item,next) ← shapeValue ⟨rest,shape.noted⟩
        shapeItems fuel (words++[token,item]) next
      else if token.kind = .closing then .ok (words++[token],⟨rest,shape.noted⟩)
      else .error ()

def shapeList (words : List Token) : Shapes (List Token) := fun shape =>
  match shape.rest with
  | [] => .error ()
  | token::rest =>
    if token.kind = .opening then do
      let (item,next) ← shapeValue ⟨rest,shape.noted⟩
      shapeItems (next.rest.length+1) (words++[token,item]) next
    else .error ()

-- What one value is asked for behind.
def Kind.asksOne : Kind → Bool
  | .equals | .notEquals | .less | .lessOrEqual | .greater | .greaterOrEqual => true
  | .word written => written = "contains".toList
  | _ => false

def shapeTerm (key : Token) : Shapes Node := fun shape =>
  match shape.rest with
  | [] => .ok (.term [key],shape)
  | token::rest =>
    if token.kind = .and ∨ token.kind = .or ∨ token.kind = .closing then .ok (.term [key],shape)
    else if token.kind.asksOne then do
      let (item,next) ← shapeValue ⟨rest,shape.noted⟩
      .ok (.term [key,token,item],next)
    else if token.kind = .word "in".toList then do
      let (words,next) ← shapeList [key,token] ⟨rest,shape.noted⟩
      .ok (.term words,next)
    else .error ()

def nodes : Makes Unit Unit Node where
  all := .all
  any := .any
  negated := .not
  grouped := .group
  term token _ := shapeTerm token
  noStart := ()
  notAStart _ := ()
  unclosed := ()
  notClosing _ := ()

-- A term is a level here, as each `(` and each `!` is.
def shapeUnary : Nat → Shapes Node
  | 0 => fun _ => .error ()
  | left+1 => unaryBy nodes fun _ => .ok (shapeUnary left)

def shape (tokens : List Token) : Option Node :=
  match orBy nodes (shapeUnary MAX_DEPTH) ⟨tokens,[]⟩ with
  | .ok (tree,⟨[],_⟩) => some tree
  | _ => none

-- The name of the input a `$name` word stands for.
def inputOf : Kind → Option Text
  | .word ('$'::name) => if isAName name then some name else none
  | _ => none

def holdsAQuote : Text :=
  "an input cannot hold a double quote, which is how an expression ends a quoted value".toList

-- A bound value as one value of a line: in quotes where a character would end the word.
def asAValue (text : Text) : Except Text Text :=
  if '"' ∈ text then .error holdsAQuote
  else if text = [] ∨ text.any endsAWord then .ok ('"'::(text++['"']))
  else .ok text

def tight (previous : Option Kind) (kind : Kind) : Bool :=
  kind = .comma || kind = .closing || previous = none || previous = some .opening

section
variable (bound : Bound)

-- A key is never an input. A `$name` that was not declared is a word.
def filledWord (previous : Option Kind) (word : Kind) : Except Text (Option Text) :=
  match (if previous.isSome then inputOf word else none).bind bound.get with
  | some none => .ok none
  | some (some value) => (asAValue value.text).map some
  | none => .ok (some word.spelled)

def filledTerm : Option Kind → Text → List Token → Except Text (Option Text)
  | _,line,[] => .ok (some line)
  | previous,line,word::words => do
    match ← filledWord bound previous word.kind with
    | none => .ok none
    | some spelled =>
      filledTerm (some word.kind) (line++(if tight previous word.kind then [] else [' '])++spelled) words

def glued (glue : String) (kept : List Text) : Option Text :=
  if kept = [] then none else some (glue.toList.intercalate kept)

mutual
def filled : Node → Except Text (Option Text)
  | .term words => filledTerm bound none [] words
  | .not inner => do
    let line ← filled inner
    .ok (line.map ('!'::·))
  | .group inner => do
    let line ← filled inner
    .ok (line.map fun line => '('::(line++[')']))
  | .all parts => do
    let kept ← filledParts parts
    .ok (glued " && " kept)
  | .any parts => do
    let kept ← filledParts parts
    .ok (glued " || " kept)
def filledParts : List Node → Except Text (List Text)
  | [] => .ok []
  | part::parts => do
    let line ← filled part
    let kept ← filledParts parts
    .ok (line.toList++kept)
end

end

-- A line whose shape it cannot read is handed back as written.
def withInputs (text : Text) (bound : Bound) : Except Text (Option Text) :=
  if bound.isEmpty ∨ text.length > MAX_LENGTH then .ok (some text)
  else
    match lex text with
    | .error _ => .ok (some text)
    | .ok tokens =>
      match shape tokens with
      | none => .ok (some text)
      | some tree => filled bound tree

-- What filling a line means, on its shape: each `$name` becomes the value it is bound to,
-- and a term that uses an input left out goes, with what combined it.
def valueKind (text : Text) : Kind := if text = [] ∨ text.any endsAWord then .quoted text else .word text

section
variable (bound : Bound)

def filledKind (word : Token) : Option Token :=
  match (inputOf word.kind).bind bound.get with
  | some none => none
  | some (some value) => some {word with kind := valueKind value.text}
  | none => some word

mutual
def Node.bind : Node → Option Node
  | .term [] => some (.term [])
  | .term (key::words) => (words.mapM (filledKind bound)).map fun words => .term (key::words)
  | .not inner => inner.bind.map .not
  | .group inner => inner.bind.map .group
  | .all parts =>
    let kept := bindParts parts
    if kept = [] then none else some (oneOr .all kept)
  | .any parts =>
    let kept := bindParts parts
    if kept = [] then none else some (oneOr .any kept)
def bindParts : List Node → List Node
  | [] => []
  | part::parts => part.bind.toList++bindParts parts
end

end

section
variable [Scalars] [Days] (today : Scalars.Date)

-- The filter a shape stands for.
def termTree : List Token → Option Filter
  | [] => none
  | token::rest =>
    match token.kind with
    | .word key =>
      match term today key ⟨rest,[]⟩ with
      | .ok (tree,⟨[],_⟩) => some tree
      | _ => none
    | _ => none

mutual
def Node.tree : Node → Option Filter
  | .term words => termTree today words
  | .not inner => inner.tree.map .negated
  | .group inner => inner.tree
  | .all parts => (trees parts).map .all
  | .any parts => (trees parts).map .any
def trees : List Node → Option (List Filter)
  | [] => some []
  | part::parts => do
    let tree ← part.tree
    let others ← trees parts
    some (tree::others)
end

end
end Expression
