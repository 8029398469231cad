import Jojobot.Library.Lines
import Jojobot.Memory.Facts
import Jojobot.Memory.Order

namespace Document
open Library Std Memory

-- The whitespace trimmed off a section's parts, kept so the join restores it.
structure Edges where
  lead : Text
  mid : Text
  sep : Text
  tail : Text
deriving DecidableEq

def escapeChar (c : Char) : Text :=
  if c = '\n' then "\\n".toList
  else if c = '\r' then "\\r".toList
  else if c = '\t' then "\\t".toList
  else if c = ' ' then "\\s".toList
  else "\\u\x7b".toList ++ printHex c.toNat ++ "\x7d".toList

def escape (run : Text) : Text := run.flatMap escapeChar

def charFromU32 (n : Nat) : Option Char := if n.isValidChar then some (Char.ofNat n) else none

-- What stands before the closing brace, and what comes behind it.
def hexRun : Text → Option (Text × Text)
  | [] => none
  | '}' :: rest => some ([],rest)
  | h :: rest => (hexRun rest).map fun run => (h :: run.1,run.2)

def unescapeFrom : Nat → Text → Option Text
  | _,[] => some []
  | 0,_ :: _ => none
  | fuel+1,'\\' :: 'n' :: rest => (unescapeFrom fuel rest).map ('\n' :: ·)
  | fuel+1,'\\' :: 'r' :: rest => (unescapeFrom fuel rest).map ('\r' :: ·)
  | fuel+1,'\\' :: 't' :: rest => (unescapeFrom fuel rest).map ('\t' :: ·)
  | fuel+1,'\\' :: 's' :: rest => (unescapeFrom fuel rest).map (' ' :: ·)
  | fuel+1,'\\' :: 'u' :: '{' :: rest => do
    let (hex,rest) ← hexRun rest
    let c ← charFromU32 (← parseHex 32 hex)
    let out ← unescapeFrom fuel rest
    some (c :: out)
  | _+1,_ :: _ => none

-- Each turn reads at least one character, so a text's length is turns enough.
def unescape (text : Text) : Option Text := unescapeFrom text.length text

def Edges.encode (edges : Edges) : Text :=
  escape edges.lead ++ ';' :: escape edges.mid ++ ';' :: escape edges.sep ++ ';' :: escape edges.tail

def Edges.decode (encoded : Text) : Option Edges :=
  match encoded.splitOn ';' with
  | [lead,mid,sep,tail] => do some ⟨← unescape lead,← unescape mid,← unescape sep,← unescape tail⟩
  | _ => none

structure Section where
  firstLine : Text
  level : Nat
  body : Text
  edges : Edges
  continues : Bool
deriving DecidableEq

-- The byte a lone carriage return stands at.
inductive SplitError where
  | blank
  | loneCarriageReturn (place : Nat)
deriving DecidableEq

def headingLevel (line : Text) : Option Nat :=
  let indent := (line.takeWhile (· = ' ')).length
  if indent > 3 then none
  else
    let rest := line.drop indent
    let hashes := (rest.takeWhile (· = '#')).length
    if ¬(1 ≤ hashes ∧ hashes ≤ 6) then none
    else match (rest.drop hashes).head? with
      | none | some ' ' | some '\t' => some hashes
      | _ => none

def fenceOf (line : Text) : Option (Char × Nat × Text) :=
  let indent := (line.takeWhile (· = ' ')).length
  if indent > 3 then none
  else
    let rest := line.drop indent
    rest.head?.bind fun c =>
      if c ≠ '\x60' ∧ c ≠ '~' then none
      else
        let run := (rest.takeWhile (· = c)).length
        if run ≥ 3 then some (c,run,rest.drop run) else none

def bare (raw : Text) : Text := stripSuffix '\r' (stripSuffix '\n' raw)

def frontmatterClose : Nat → List Text → Nat
  | _,[] => 0
  | offset,raw :: rest =>
    if bare raw = "---".toList ∨ bare raw = "...".toList then offset+raw.length
    else frontmatterClose (offset+raw.length) rest

-- Where a leading frontmatter block ends. Places in a text are counted in its
-- characters here: only their order and the slices between them are read.
def frontmatterEnd (text : Text) : Nat :=
  match splitInclusive text with
  | [] => 0
  | first :: lines => if bare first ≠ "---".toList then 0 else frontmatterClose first.length lines

-- One line against the fence that is open: the fence open behind it, and the level of
-- the heading the line is.
def readLine (fence : Option (Char × Nat)) (line : Text) : Option (Char × Nat) × Option Nat :=
  match fence,fenceOf line with
  | none,some (c,run,_) => (some (c,run),none)
  | some (c,run),some (other,length,behind) =>
    if other = c ∧ length ≥ run ∧ trim behind = [] then (none,none) else (some (c,run),none)
  | none,none => (none,headingLevel line)
  | some held,none => (some held,none)

def headingStartsFrom (frontmatter : Nat) : Option (Char × Nat) → Nat → List Text → List (Nat × Nat)
  | _,_,[] => []
  | fence,offset,raw :: rest =>
    if offset < frontmatter then headingStartsFrom frontmatter fence (offset+raw.length) rest
    else
      let read := readLine fence (bare raw)
      (read.2.map (offset,·)).toList ++ headingStartsFrom frontmatter read.1 (offset+raw.length) rest

def headingStarts (text : Text) : List (Nat × Nat) :=
  headingStartsFrom (frontmatterEnd text) none 0 (splitInclusive text)

def sectionOf (raw : Text) (level : Nat) : Section :=
  let core := trim raw
  let firstRaw := core.takeWhile (· ≠ '\n')
  let restRaw := core.dropWhile (· ≠ '\n')
  let firstLine := trimEnd firstRaw
  let body := trimStart restRaw
  { firstLine
    level
    body
    edges :=
      { lead := raw.take (raw.length-(trimStart raw).length)
        mid := firstRaw.drop firstLine.length
        sep := restRaw.take (restRaw.length-body.length)
        tail := raw.drop (trimEnd raw).length }
    continues := false }

-- The stretches between the cuts, each with its level.
def stretches (text : Text) : List (Nat × Nat) → List (Text × Nat)
  | [] => []
  | [(start,level)] => [(text.drop start,level)]
  | (start,level) :: (next,other) :: rest =>
    ((text.drop start).take (next-start),level) :: stretches text ((next,other) :: rest)

-- Whitespace before the first heading, when it is all that precedes it, rides on
-- that heading's lead.
def gather : Text → List (Text × Nat) → List Section
  | _,[] => []
  | carried,(raw,level) :: rest =>
    if trim raw = [] then gather (carried ++ raw) rest
    else
      let made := sectionOf raw level
      { made with edges := { made.edges with lead := carried ++ made.edges.lead } } :: gather [] rest

def cutsOf (text : Text) : List (Nat × Nat) :=
  let headings := headingStarts text
  if headings.head?.all (·.1 ≠ 0) then (0,0) :: headings else headings

def utf8Length (text : Text) : Nat := (text.map Char.utf8Size).sum

def loneReturnFrom : Nat → Text → Option Nat
  | _,[] => none
  | place,c :: rest =>
    if c = '\r' ∧ rest.head? ≠ some '\n' then some place
    else loneReturnFrom (place+c.utf8Size) rest

def split (text : Text) : Except SplitError (List Section) :=
  match loneReturnFrom 0 text with
  | some place => .error (.loneCarriageReturn place)
  | none =>
    if text = [] then .ok []
    else if trim text = [] then .error .blank
    else .ok (gather [] (stretches text (cutsOf text)))

def Section.text (one : Section) : Text :=
  one.edges.lead ++ one.firstLine ++ one.edges.mid ++ one.edges.sep ++ one.body ++ one.edges.tail

def join (sections : List Section) : Text := (sections.map Section.text).flatten

def LEVEL : Text := "level".toList
def EDGES : Text := "edges".toList
def CONTINUES : Text := "continues".toList

def recordFields (one : Section) (order : Text) : Fields :=
  let fields : Fields := ((({} : Fields).insert LEVEL (printNat one.level)).insert ORDER order).insert EDGES one.edges.encode
  if one.continues then fields.insert CONTINUES "true".toList else fields

def fromRecord (content : Text) (details : Option Text) (fields : Fields) : Option (Text × Section) := do
  let order ← fields[ORDER]?
  let body := details.getD []
  let edges := ((fields[EDGES]?).bind Edges.decode).getD ⟨[],[],"\n\n".toList,"\n\n".toList⟩
  let edges :=
    if body = [] then { edges with sep := [] }
    else if '\n' ∉ edges.sep then { edges with sep := "\n\n".toList }
    else edges
  some (order,
    { firstLine := content
      level := ((fields[LEVEL]?).bind (parseUnsigned 8)).getD 0
      body
      edges
      continues := (fields[CONTINUES]?).any fun value => value ≠ [] ∧ value ≠ "false".toList })

-- A store trims both edges of a claim's words, its details and every field value.
structure Stored (one : Section) (order : Text) (fact : Fact) : Prop where
  content : fact.content = trim one.firstLine
  details : fact.details = if one.body = [] then none else some (trim one.body)
  fields : fact.fields = (recordFields one order).map fun _ value => trim value

def readRecord (fact : Fact) : Option (Text × Section) := fromRecord fact.content fact.details fact.fields

end Document
