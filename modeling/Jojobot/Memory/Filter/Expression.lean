import Jojobot.Library.Reading
import Jojobot.Memory.Filter

namespace Expression
open Library Memory

def MAX_LENGTH : Nat := 4096

-- Each `(` and each `!` before a term is one level.
def MAX_DEPTH : Nat := 32

-- A day as it is printed, a day some days on where the calendar holds it, and the fixed
-- day a line is checked against.
class Days [Scalars] where
  written : Scalars.Date → Text
  moved : Scalars.Date → Int → Option Scalars.Date
  fixed : Scalars.Date

def padded (width n : Nat) : Text := List.replicate (width-(printNat n).length) '0'++printNat n

-- Days that move within the first weeks of a month: enough of what is read to run a test on.
@[reducible] def plainDays : @Days plainScalars :=
  letI := plainScalars
  { written := fun day : Nat => padded 4 (day/10000)++ '-'::(padded 2 (day/100%100)++ '-'::padded 2 (day%100))
    moved := fun (day : Nat) days =>
      let moved := (day%100 : Nat)+days
      if 1 ≤ moved ∧ moved ≤ 28 then some (day/100*100+moved.toNat) else none
    fixed := (20000101 : Nat) }

-- `Open` and `Close` of the source are `opening` and `closing`.
inductive Kind where
  | opening | closing | comma | not | and | or | equals | notEquals | less | lessOrEqual | greater | greaterOrEqual
  | word (word : Text)
  | quoted (word : Text)
deriving DecidableEq, Repr

-- A token, the character it starts at and one past its last, both counted from 1.
structure Token where
  kind : Kind
  position : Nat
  stop : Nat
deriving DecidableEq, Repr

def Kind.spelled : Kind → Text
  | .opening => ['(']
  | .closing => [')']
  | .comma => [',']
  | .not => ['!']
  | .and => ['&','&']
  | .or => ['|','|']
  | .equals => ['=']
  | .notEquals => ['!','=']
  | .less => ['<']
  | .lessOrEqual => ['<','=']
  | .greater => ['>']
  | .greaterOrEqual => ['>','=']
  | .word written => written
  | .quoted written => '"'::(written++['"'])

def endsAWord (c : Char) : Bool := isWhitespace c || c ∈ "()!=<>&|\",".toList

def notAWord (position : Nat) (mark : Text) (accepted : String) : Text :=
  "the expression does not parse: '".toList++mark++"' at position ".toList++printNat position++
    " is not a word. Accepted: ".toList++accepted.toList

-- The token a character that is no whitespace starts, and how wide it is.
def tokenAt (position : Nat) (c : Char) (rest : Text) : Except Text (Kind × Nat) :=
  if c = '(' then .ok (.opening,1)
  else if c = ')' then .ok (.closing,1)
  else if c = ',' then .ok (.comma,1)
  else if c = '&' then
    if rest.head? = some '&' then .ok (.and,2) else .error (notAWord position ['&'] "'&&' for and")
  else if c = '|' then
    if rest.head? = some '|' then .ok (.or,2) else .error (notAWord position ['|'] "'||' for or")
  else if c = '!' then
    if rest.head? = some '=' then .ok (.notEquals,2) else .ok (.not,1)
  else if c = '<' then
    if rest.head? = some '=' then .ok (.lessOrEqual,2) else .ok (.less,1)
  else if c = '>' then
    if rest.head? = some '=' then .ok (.greaterOrEqual,2) else .ok (.greater,1)
  else if c = '=' then .ok (.equals,1)
  else if c = '"' then
    match rest.idxOf? '"' with
    | none => .error ("the expression does not parse: the quote at position ".toList++printNat position++
        " is never closed. A quoted value ends with a second '\"'".toList)
    | some close => .ok (.quoted (rest.take close),close+2)
  else
    let word := (c::rest).takeWhile (!endsAWord ·)
    .ok (.word word,word.length)

-- Each turn takes a character at least, so the text's length is turns enough.
def lexFrom : Nat → Nat → Text → Except Text (List Token)
  | _,_,[] => .ok []
  | 0,_,_::_ => .ok []
  | fuel+1,position,c::rest =>
    if isWhitespace c then lexFrom fuel (position+1) rest
    else do
      let (kind,width) ← tokenAt position c rest
      let tokens ← lexFrom fuel (position+width) ((c::rest).drop width)
      .ok (⟨kind,position,position+width⟩::tokens)

def lex (text : Text) : Except Text (List Token) := lexFrom text.length 1 text

-- A value the line compares against and where it sits, counted from 0. A quoted value
-- starts behind its quote.
structure ValueWord where
  start : Nat
  stop : Nat
  text : Text
deriving DecidableEq, Repr

abbrev Reader : Type := Cursor Token ValueWord
abbrev Reads (α : Type) : Type := Reading Token ValueWord Text α

inductive Operand where
  | text (text : Text)
  | day (text : Text)

def Operand.words : Operand → Text
  | .text words | .day words => words

def unexpected (token : Token) (accepted : String) : Text :=
  "the expression does not parse: '".toList++token.kind.spelled++"' at position ".toList++printNat token.position++
    " is not accepted here. Accepted: ".toList++accepted.toList

def ended (accepted : String) : Text :=
  "the expression does not parse: it ends before the term is finished. Accepted at the end: ".toList++accepted.toList

def tooDeep (token : Token) : Text :=
  "the expression does not parse: '".toList++token.kind.spelled++"' at position ".toList++printNat token.position++
    " nests deeper than ".toList++printNat MAX_DEPTH++" levels. Write a flatter line".toList

def tooLong : Text :=
  "the expression does not parse: it is longer than ".toList++printNat MAX_LENGTH++
    " characters, and the first character over the limit is at position ".toList++printNat (MAX_LENGTH+1)++
    ". Write a shorter line".toList

def emptyLine : Text :=
  "the expression is empty. Write what the things must hold, for example \x60status != done\x60".toList

def notRelative (word : Text) (token : Token) : Text :=
  "the expression does not parse: '".toList++word++"' at position ".toList++printNat token.position++
    " is not a relative date. Accepted: today, today+3d, today-2w (whole days 'd' and weeks 'w')".toList

def doubled (token : Token) : Text :=
  "the expression does not parse: '=' at position ".toList++printNat token.position++
    " follows an '=', and equality is written with one: status = done, not status == done".toList

def aValue : String := "a value: a word, or words in double quotes"
def anOrdering : String := "a date, a number, or today with days or weeks added"
def aStart : String := "a key, '!' or '('"
def afterAKey : String := "=, !=, <, <=, >, >=, in, contains, &&, ||, ')' or the end"

def literalText (word : Text) (token : Token) : Text :=
  "the expression does not parse: a value in quotes is literal text, so \"".toList++word++"\" at position ".toList++
    printNat token.position++" is not a date or a number. Write it without the quotes. Accepted: ".toList++anOrdering.toList

def neitherOne (op token : Token) (word : Text) : Text :=
  "the expression does not parse: '".toList++op.kind.spelled++"' compares dates and numbers, and '".toList++word++
    "' at position ".toList++printNat token.position++" is neither. Accepted: ".toList++anOrdering.toList

section
variable [Scalars] [Days] (today : Scalars.Date)

def isANumber (text : Text) : Bool := (Scalars.parseNumber text).any Scalars.isFinite

-- How many days on a relative word asks for: a count and the unit, its last character.
def daysAway (digits : Text) : Option Nat :=
  match parseUnsigned 32 digits.dropLast,digits.getLast? with
  | some count,some unit => if unit = 'd' then some count else if unit = 'w' then some (count*7) else none
  | _,_ => none

-- `read` of the source: a word, with a relative date turned into the day it names.
def readWord (word : Text) (token : Token) : Except Text Operand :=
  if word.take 5 ≠ "today".toList then .ok (.text word)
  else match word.drop 5 with
    | [] => .ok (.day (Days.written today))
    | sign::digits =>
      if sign ≠ '+' ∧ sign ≠ '-' then .ok (.text word)
      else
        match (daysAway digits).bind fun days => Days.moved today (if sign = '+' then days else -days) with
        | some day => .ok (.day (Days.written day))
        | none => .error (notRelative word token)

def value : Reads Text := fun reader =>
  match reader.rest with
  | [] => .error (ended aValue)
  | token::rest =>
    match token.kind with
    | .word word => do
      let operand ← readWord today word token
      .ok (operand.words,⟨rest,reader.noted++[⟨token.position-1,token.stop-1,word⟩]⟩)
    | .quoted word => .ok (trim word,⟨rest,reader.noted++[⟨token.position,token.stop-2,word⟩]⟩)
    | .equals => .error (doubled token)
    | _ => .error (unexpected token aValue)

def listFrom : Nat → List Text → Reads (List Text)
  | 0,_,_ => .error (ended "',' or ')' to close the list")
  | fuel+1,items,reader =>
    match reader.rest with
    | [] => .error (ended "',' or ')' to close the list")
    | token::rest =>
      match token.kind with
      | .comma => do
        let (item,next) ← value today ⟨rest,reader.noted⟩
        listFrom fuel (items++[item]) next
      | .closing => .ok (items,⟨rest,reader.noted⟩)
      | _ => .error (unexpected token "',' or ')'")

def list : Reads (List Text) := fun reader =>
  match reader.rest with
  | [] => .error (ended "'(' to open the list")
  | token::rest =>
    match token.kind with
    | .opening => do
      let (first,next) ← value today ⟨rest,reader.noted⟩
      listFrom today (next.rest.length+1) [first] next
    | _ => .error (unexpected token "'(' to open the list")

def operand (op : Token) : Reads (ValueType × Text) := fun reader =>
  match reader.rest with
  | [] => .error (ended anOrdering)
  | token::rest =>
    match token.kind with
    | .quoted word => .error (literalText word token)
    | .word word => do
      match ← readWord today word token with
      | .day day => .ok ((.date,day),⟨rest,reader.noted⟩)
      | .text text =>
        if (Scalars.parseDate text).isSome then .ok ((.date,text),⟨rest,reader.noted⟩)
        else if isANumber text then .ok ((.number,text),⟨rest,reader.noted⟩)
        else .error (neitherOne op token word)
    | _ => .error (unexpected token anOrdering)

def Kind.op : Kind → Option Op
  | .less => some .less
  | .lessOrEqual => some .lessOrEqual
  | .greater => some .greater
  | .greaterOrEqual => some .greaterOrEqual
  | _ => none

def term (key : Text) : Reads Filter := fun reader =>
  match reader.rest with
  | [] => .ok (.exists key,reader)
  | token::rest =>
    match token.kind with
    | .and | .or | .closing => .ok (.exists key,reader)
    | .equals => do
      let (wanted,next) ← value today ⟨rest,reader.noted⟩
      .ok (.equals key wanted,next)
    | .notEquals => do
      let (wanted,next) ← value today ⟨rest,reader.noted⟩
      .ok (.notEquals key wanted,next)
    | .word word =>
      if word = "in".toList then do
        let (items,next) ← list today ⟨rest,reader.noted⟩
        .ok (.isIn key items,next)
      else if word = "contains".toList then do
        let (item,next) ← value today ⟨rest,reader.noted⟩
        .ok (.contains key item,next)
      else .error (unexpected token afterAKey)
    | kind =>
      match kind.op with
      | some op => do
        let ((holds,wanted),next) ← operand today token ⟨rest,reader.noted⟩
        .ok (.ordering key op holds wanted,next)
      | none => .error (unexpected token afterAKey)

def isComma (token : Token) : Bool := token.kind = .comma
def isAnd (token : Token) : Bool := token.kind = .and
def isOr (token : Token) : Bool := token.kind = .or

-- What a reader of lines makes of the parts of one, and what it stops with. The readers of
-- a filter and of a shape walk a line alike.
structure Makes (ω ε α : Type) where
  all : List α → α
  any : List α → α
  negated : α → α
  grouped : α → α
  term : Token → Text → Reading Token ω ε α
  noStart : ε
  notAStart : Token → ε
  unclosed : ε
  notClosing : Token → ε

section
variable {ω ε α : Type} (makes : Makes ω ε α)

def andBy (unary : Reading Token ω ε α) : Reading Token ω ε α := row makes.all unary isAnd
def orBy (unary : Reading Token ω ε α) : Reading Token ω ε α := row makes.any (andBy makes unary) isOr

-- `nested` is the reader one level in, or the refusal of a token that is one level too deep.
def unaryBy (nested : Token → Except ε (Reading Token ω ε α)) : Reading Token ω ε α := fun reader =>
  match reader.rest with
  | [] => .error makes.noStart
  | token::rest =>
    match token.kind with
    | .not => do
      let inner ← nested token
      let (tree,next) ← inner ⟨rest,reader.noted⟩
      .ok (makes.negated tree,next)
    | .opening => do
      let inner ← nested token
      let (tree,next) ← orBy makes inner ⟨rest,reader.noted⟩
      match next.rest with
      | [] => .error makes.unclosed
      | other::rest =>
        if other.kind = .closing then .ok (makes.grouped tree,⟨rest,next.noted⟩)
        else .error (makes.notClosing other)
    | .word key => makes.term token key ⟨rest,reader.noted⟩
    | _ => .error (makes.notAStart token)

end

def filters : Makes ValueWord Text Filter where
  all := .all
  any := .any
  negated := .negated
  grouped := id
  term _ key := term today key
  noStart := ended aStart
  notAStart token := unexpected token aStart
  unclosed := ended "')' to close the '(' that opened the group"
  notClosing token := unexpected token "&&, || or ')'"

-- By the levels that are left to step in, `MAX_DEPTH` less the source's `depth`.
def unary : Nat → Reads Filter
  | 0 => unaryBy (filters today) fun token => .error (tooDeep token)
  | left+1 => unaryBy (filters today) fun _ => .ok (unary left)

def read (text : Text) (today : Scalars.Date) : Except Text (Filter × List ValueWord) :=
  if text.length > MAX_LENGTH then .error tooLong
  else do
    let tokens ← lex text
    if tokens = [] then .error emptyLine
    else do
      let (tree,next) ← orBy (filters today) (unary today MAX_DEPTH) ⟨tokens,[]⟩
      match next.rest with
      | [] => .ok (tree,next.noted)
      | token::_ => .error (unexpected token "&&, ||, ')' or the end")

def parse (text : Text) (today : Scalars.Date) : Except Text Filter := (read text today).map (·.1)

-- Whether a line reads does not depend on the day.
def valueWords (text : Text) : Except Text (List ValueWord) := (read text Days.fixed).map (·.2)

def notADate (word : Text) : Text :=
  "'".toList++word++"' is not a date. Accepted: a date such as 2026-10-09, or today with days or weeks added: today, today+3d, today-2w".toList

def dateWord (word : Text) : Except Text Text := do
  match ← readWord today word ⟨.word word,1,word.length+1⟩ with
  | .day day => .ok day
  | .text text => if (Scalars.parseDate text).isSome then .ok text else .error (notADate word)

end
end Expression
