import Jojobot.Library.Fallible
import Jojobot.Memory.Filter.Expression
import Jojobot.Memory.ViewInputs

namespace ViewInputs
open Library Memory

inductive InputType where
  | kind (kind : Text)
  | handle | date | number | text
deriving DecidableEq, Repr

-- `ty` and `default` of the source are `type` and `fallback`.
structure InputDecl where
  name : Text
  type : InputType
  optional : Bool
  fallback : Option Text
deriving DecidableEq, Repr

def InputType.spelling : InputType → Text
  | .kind named => "kind ".toList++named
  | .handle => "handle".toList
  | .date => "date".toList
  | .number => "number".toList
  | .text => "text".toList

-- A lowercase letter, then lowercase letters, digits and `-`.
def isAKind : Text → Bool
  | [] => false
  | first::rest => first.isLower && rest.all fun c => c.isLower || c.isDigit || c = '-'

-- `split_once`.
def splitOnce (c : Char) : Text → Option (Text × Text)
  | [] => none
  | d::rest => if d = c then some ([],rest) else (splitOnce c rest).map fun parts => (d::parts.1,parts.2)

def notWritten (piece : Text) : Text :=
  "the input '".toList++piece++"' is not written \x60name: type\x60. Write each input as a name, a colon and a type: ".toList++
    "\x60project: kind project?\x60, \x60due: date\x60".toList

def notAName (name : Text) : Text :=
  "'".toList++name++"' is not a name an input can have. A name is lowercase letters, digits and _, and starts with a letter".toList

def noKind (name : Text) : Text :=
  "the input '".toList++name++"' is a \x60kind\x60 and does not say which: write \x60kind project\x60, the kind of thing it takes".toList

def notAType (other name : Text) : Text :=
  "'".toList++other++"' is not a type for the input '".toList++name++"'. A type is \x60kind <kind>\x60, \x60handle\x60, ".toList++
    "\x60date\x60, \x60number\x60 or \x60text\x60, with a trailing \x60?\x60 when it may be left out".toList

def twice (name : Text) : Text :=
  "the input '".toList++name++"' is declared twice. Each input has one name and one type".toList

def unreadable (name fallback why : Text) : Text :=
  "the default of the input '".toList++name++"' is '".toList++fallback++"', and ".toList++why++
    ". A default is written after an \x60=\x60 as a value of the input's own type: \x60by: date? = today+7d\x60".toList

def readType (name other : Text) : Except Text InputType :=
  if other = "date".toList then .ok .date
  else if other = "number".toList then .ok .number
  else if other = "text".toList then .ok .text
  else if other = "handle".toList then .ok .handle
  else
    match "kind".toList.isPrefixOf? other with
    | some rest => if isAKind (trim rest) then .ok (.kind (trim rest)) else .error (noKind name)
    | none => .error (notAType other name)

section
variable [Scalars] [Expression.Days]

-- `DECLARING_DAY` is the day a line is checked against.
def checkDefault (name : Text) (type : InputType) (fallback : Text) : Except Text Unit :=
  if fallback = [] then .error (unreadable name fallback "it is empty".toList)
  else
    match type with
    | .kind _ => .error (unreadable name fallback "a \x60kind\x60 input names a thing, and no default can stand for one".toList)
    | .number => if Expression.isANumber fallback then .ok () else .error (unreadable name fallback "it is not a number".toList)
    | .date =>
      match Expression.dateWord Expression.Days.fixed fallback with
      | .ok _ => .ok ()
      | .error why => .error (unreadable name fallback ("invalid query: ".toList++why))
    | _ => .ok ()

def parsePiece (read : List InputDecl) (piece : Text) : Except Text InputDecl :=
  match splitOnce ':' piece with
  | none => .error (notWritten piece)
  | some (name,rest) => do
    let name := trim name
    if isAName name = false then .error (notAName name)
    else do
      let (written,fallback) := match splitOnce '=' rest with
        | some (written,fallback) => (trim written,some (trim fallback))
        | none => (trim rest,none)
      let (written,optional) := if written.getLast? = some '?' then (trim written.dropLast,true) else (written,false)
      let type ← readType name written
      if read.any (·.name = name) then .error (twice name)
      else do
        match fallback with
        | some fallback => checkDefault name type fallback
        | none => .ok ()
        .ok ⟨name,type,optional,fallback⟩

def parsePieces : List InputDecl → List Text → Except Text (List InputDecl)
  | read,[] => .ok read
  | read,piece::pieces => do
    let decl ← parsePiece read piece
    parsePieces (read++[decl]) pieces

def parse (list : Text) : Except Text (List InputDecl) := parsePieces [] ((splitItems list).filter (· ≠ []))

end

def InputDecl.spelled (decl : InputDecl) : Text :=
  decl.name++": ".toList++decl.type.spelling++(if decl.optional then ['?'] else [])++
    ((decl.fallback.map fun fallback => " = ".toList++fallback).getD [])

def spelled (decls : List InputDecl) : Text := joinItems (decls.map InputDecl.spelled)

theorem splitOnce_some {c : Char} {text before after : Text} :
    splitOnce c text = some (before,after) ↔ text = before++c::after ∧ c ∉ before := by
  induction text generalizing before with
  | nil =>
    constructor
    · intro found
      cases found
    · intro found
      simp at found
  | cons d rest ih =>
    rw [splitOnce]
    split
    · rename_i same
      subst same
      constructor
      · intro found
        cases found
        exact ⟨rfl,List.not_mem_nil⟩
      · intro found
        obtain ⟨parts,clean⟩ := found
        cases before with
        | nil =>
          cases parts
          rfl
        | cons e before =>
          cases parts
          exact absurd List.mem_cons_self clean
    · rename_i other
      rw [Option.map_eq_some_iff]
      constructor
      · intro found
        obtain ⟨⟨before',after'⟩,found,same⟩ := found
        cases same
        obtain ⟨rfl,clean⟩ := ih.mp found
        exact ⟨rfl,by simp [clean,Ne.symm other]⟩
      · intro found
        obtain ⟨parts,clean⟩ := found
        cases before with
        | nil =>
          cases parts
          exact absurd rfl other
        | cons e before =>
          cases parts
          exact ⟨(before,after),ih.mpr ⟨rfl,fun found => clean (List.mem_cons_of_mem _ found)⟩,rfl⟩

theorem splitOnce_none {c : Char} {text : Text} (clean : c ∉ text) : splitOnce c text = none := by
  cases found : splitOnce c text with
  | none => rfl
  | some parts =>
    obtain ⟨rfl,_⟩ := splitOnce_some.mp found
    exact absurd (List.mem_append_right _ List.mem_cons_self) clean

-- A character of a name or of a kind.
def isPlain (c : Char) : Prop := c.isLower = true ∨ c.isDigit = true ∨ c = '_' ∨ c = '-'

theorem isPlain.apart {c : Char} (plain : isPlain c) :
    isWhitespace c = false ∧ c ≠ ',' ∧ c ≠ ':' ∧ c ≠ '=' ∧ c ≠ '?' := by
  refine ⟨?_,?_,?_,?_,?_⟩
  · rcases plain with lower | digit | rfl | rfl
    · have bounds : 97 ≤ c.toNat ∧ c.toNat ≤ 122 := by
        simp only [Char.isLower,Bool.and_eq_true,decide_eq_true_eq] at lower
        exact lower
      simp [isWhitespace]
      omega
    · exact digit_solid digit
    · rfl
    · rfl
  all_goals
    intro same
    subst same
    rcases plain with is | is | is | is <;> cases is

theorem isAName_plain {name : Text} (is : isAName name = true) : name ≠ [] ∧ ∀ c ∈ name, isPlain c := by
  cases name with
  | nil => cases is
  | cons first rest =>
    simp only [isAName,Bool.and_eq_true,List.all_eq_true,Bool.or_eq_true,decide_eq_true_eq] at is
    refine ⟨List.cons_ne_nil _ _,List.forall_mem_cons.mpr ⟨Or.inl is.1,?_⟩⟩
    intro c found
    rcases is.2 c found with (lower | digit) | under
    · exact Or.inl lower
    · exact Or.inr (Or.inl digit)
    · exact Or.inr (Or.inr (Or.inl under))

theorem isAKind_plain {named : Text} (is : isAKind named = true) : named ≠ [] ∧ ∀ c ∈ named, isPlain c := by
  cases named with
  | nil => cases is
  | cons first rest =>
    simp only [isAKind,Bool.and_eq_true,List.all_eq_true,Bool.or_eq_true,decide_eq_true_eq] at is
    refine ⟨List.cons_ne_nil _ _,List.forall_mem_cons.mpr ⟨Or.inl is.1,?_⟩⟩
    intro c found
    rcases is.2 c found with (lower | digit) | dash
    · exact Or.inl lower
    · exact Or.inr (Or.inl digit)
    · exact Or.inr (Or.inr (Or.inr dash))

-- What a type is spelled with holds no mark of a declaration.
structure Spelled (text : Text) : Prop where
  filled : text ≠ []
  trimmed : Trimmed text
  clean : ∀ c ∈ text, c ≠ ',' ∧ c ≠ ':' ∧ c ≠ '=' ∧ c ≠ '?'

theorem plain_spelled {text : Text} (filled : text ≠ []) (plain : ∀ c ∈ text, isPlain c) : Spelled text where
  filled := filled
  trimmed := trim_solid fun c found => (plain c found).apart.1
  clean c found := (plain c found).apart.2

theorem InputType.spells {type : InputType} (kinds : ∀ named, type = .kind named → isAKind named = true) : Spelled type.spelling := by
  cases type with
  | kind named =>
    obtain ⟨filled,plain⟩ := isAKind_plain (kinds named rfl)
    obtain ⟨_,lead⟩ := isAName_plain (show isAName "kind".toList = true from rfl)
    have shape : (InputType.kind named).spelling = "kind".toList++ ' '::named := rfl
    rw [shape]
    refine ⟨by simp,trimmed_iff.mpr ⟨?_,?_⟩,?_⟩
    · intro c found
      cases found
      rfl
    · intro c found
      rw [List.getLast?_append_of_ne_nil _ (List.cons_ne_nil _ _),List.getLast?_cons_of_ne_nil filled] at found
      exact (plain c (List.mem_of_mem_getLast? found)).apart.1
    · intro c found
      rcases List.mem_append.mp found with first | behind
      · exact (lead c first).apart.2
      · rcases List.mem_cons.mp behind with rfl | inside
        · simp
        · exact (plain c inside).apart.2
  | handle => exact plain_spelled (by simp [InputType.spelling]) (isAName_plain (show isAName "handle".toList = true from rfl)).2
  | date => exact plain_spelled (by simp [InputType.spelling]) (isAName_plain (show isAName "date".toList = true from rfl)).2
  | number => exact plain_spelled (by simp [InputType.spelling]) (isAName_plain (show isAName "number".toList = true from rfl)).2
  | text => exact plain_spelled (by simp [InputType.spelling]) (isAName_plain (show isAName "text".toList = true from rfl)).2

theorem readType_back {type : InputType} (kinds : ∀ named, type = .kind named → isAKind named = true) (name : Text) :
    readType name type.spelling = .ok type := by
  cases type with
  | kind named =>
    obtain ⟨_,plain⟩ := isAKind_plain (kinds named rfl)
    have solid : trim named = named := trim_solid fun c found => (plain c found).apart.1
    have white : ∀ c ∈ [' '], isWhitespace c = true := by simp [isWhitespace]
    have kept : trim (' '::named) = named := by rw [← List.singleton_append,trim_append_white white,solid]
    simp [readType,InputType.spelling,List.isPrefixOf?,kept,kinds named rfl]
  | _ => rfl

theorem readType_plain {name written : Text} {type : InputType} (made : readType name written = .ok type) :
    ∀ named, type = .kind named → isAKind named = true := by
  intro named same
  subst same
  unfold readType at made
  iterate 4
    split at made
    · cases made
  split at made
  · rename_i rest _
    cases is : isAKind (trim rest) with
    | false =>
      rw [is] at made
      cases made
    | true =>
      rw [is] at made
      cases made
      exact is
  · cases made

-- A default is what stands behind the first `=`, trimmed.
theorem fallback_of {rest written : Text} {fallback : Option Text}
    (parts : (match splitOnce '=' rest with
      | some (written,fallback) => (trim written,some (trim fallback))
      | none => (trim rest,none)) = (written,fallback)) {text : Text} (given : fallback = some text) :
    Trimmed text ∧ ∀ c ∈ text, c ∈ rest := by
  split at parts
  · rename_i before after cut
    obtain ⟨rfl,_⟩ := splitOnce_some.mp cut
    cases parts
    cases given
    exact ⟨trim_trimmed after,fun c found => List.mem_append_right _ (List.mem_cons_of_mem _ (trim_subset after c found))⟩
  · cases parts
    cases given

-- The words of a type and the mark behind them are told apart again.
theorem Spelled.marked {text : Text} (spelled : Spelled text) (optional : Bool) :
    let shown := text++(if optional then ['?'] else [])
    Trimmed shown ∧ '=' ∉ shown ∧ ',' ∉ shown ∧
      (if shown.getLast? = some '?' then (trim shown.dropLast,true) else (shown,false)) = (text,optional) := by
  obtain ⟨filled,trimmed,clean⟩ := spelled
  have apart : text.getLast? ≠ some '?' := fun found => (clean '?' (List.mem_of_mem_getLast? found)).2.2.2 rfl
  cases optional with
  | false =>
    simp only [Bool.false_eq_true,if_false,List.append_nil]
    exact ⟨trimmed,fun found => (clean _ found).2.2.1 rfl,fun found => (clean _ found).1 rfl,by rw [if_neg apart]⟩
  | true =>
    simp only [if_true]
    refine ⟨trimmed_iff.mpr ⟨?_,?_⟩,?_,?_,?_⟩
    · rw [List.head?_append_of_ne_nil _ filled]
      exact (trimmed_iff.mp trimmed).1
    · intro c found
      rw [List.getLast?_concat] at found
      cases found
      rfl
    · intro found
      rcases List.mem_append.mp found with inside | mark
      · exact (clean _ inside).2.2.1 rfl
      · simp at mark
    · intro found
      rcases List.mem_append.mp found with inside | mark
      · exact (clean _ inside).1 rfl
      · simp at mark
    · rw [List.getLast?_concat,if_pos rfl,List.dropLast_concat,show trim text = text from trimmed]

section
variable [Scalars] [Expression.Days]

-- What a line of declarations reads to, each by itself.
structure Plain (decl : InputDecl) : Prop where
  name : isAName decl.name = true
  kinds : ∀ named, decl.type = .kind named → isAKind named = true
  fallback : ∀ text, decl.fallback = some text → Trimmed text ∧ ',' ∉ text ∧ checkDefault decl.name decl.type text = .ok ()

structure Declared (decls : List InputDecl) : Prop where
  plain : ∀ decl ∈ decls, Plain decl
  apart : (decls.map (·.name)).Nodup

theorem checkDefault_filled {name fallback : Text} {type : InputType} (checked : checkDefault name type fallback = .ok ()) :
    fallback ≠ [] := by
  rintro rfl
  cases checked

-- How a declaration is spelled, cut where it is read.
theorem Plain.spelled {decl : InputDecl} (plain : Plain decl) : ∃ behind,
    decl.spelled = decl.name++ ':'::(' '::behind) ∧ ',' ∉ behind ∧ Trimmed behind ∧ behind ≠ [] ∧
      (match splitOnce '=' (' '::behind) with
        | some (written,fallback) => (trim written,some (trim fallback))
        | none => (trim (' '::behind),none)) = (decl.type.spelling++(if decl.optional then ['?'] else []),decl.fallback) := by
  have spells := InputType.spells plain.kinds
  obtain ⟨trimmed,clean,clean',_⟩ := spells.marked decl.optional
  have white : ∀ c ∈ [' '], isWhitespace c = true := by simp [isWhitespace]
  have kept : ∀ tail : Text, (∀ c ∈ tail, isWhitespace c = true) →
      trim (' '::(decl.type.spelling++(if decl.optional then ['?'] else [])++tail)) = decl.type.spelling++(if decl.optional then ['?'] else []) := by
    intro tail after
    have between := trim_between trimmed white after
    simpa using between
  have shown : decl.type.spelling++(if decl.optional then ['?'] else []) ≠ [] := by simp [spells.filled]
  cases given : decl.fallback with
  | none =>
    refine ⟨decl.type.spelling++(if decl.optional then ['?'] else []),by simp [InputDecl.spelled,given],clean',trimmed,shown,?_⟩
    rw [splitOnce_none (by simpa using clean)]
    simpa using kept [] (fun _ found => absurd found List.not_mem_nil)
  | some fallback =>
    obtain ⟨trimmed',comma,checked⟩ := plain.fallback fallback given
    have filled := checkDefault_filled checked
    refine ⟨decl.type.spelling++(if decl.optional then ['?'] else [])++ ' ':: '=':: ' '::fallback,?_,?_,?_,by simp,?_⟩
    · simp [InputDecl.spelled,given]
    · intro found
      rcases List.mem_append.mp found with inside | after
      · exact clean' inside
      · simp [comma] at after
    · refine trimmed_iff.mpr ⟨?_,?_⟩
      · rw [List.head?_append_of_ne_nil _ shown]
        exact (trimmed_iff.mp trimmed).1
      · have last : (' ':: '=':: ' '::fallback).getLast? = fallback.getLast? := by
          rw [List.getLast?_cons_of_ne_nil (by simp),List.getLast?_cons_of_ne_nil (by simp),List.getLast?_cons_of_ne_nil filled]
        rw [List.getLast?_append_of_ne_nil _ (by simp),last]
        exact (trimmed_iff.mp trimmed').2
    · have cut : splitOnce '=' (' '::(decl.type.spelling++(if decl.optional then ['?'] else [])++ ' ':: '=':: ' '::fallback)) =
          some (' '::(decl.type.spelling++(if decl.optional then ['?'] else [])++[' ']),' '::fallback) := by
        refine splitOnce_some.mpr ⟨by simp,?_⟩
        simpa using clean
      have behind : trim (' '::fallback) = fallback := by rw [← List.singleton_append,trim_append_white white,show trim fallback = fallback from trimmed']
      rw [cut]
      dsimp only
      rw [kept [' '] white,behind]

theorem parsePiece_back {decl : InputDecl} {read : List InputDecl} (plain : Plain decl) (fresh : ∀ other ∈ read, other.name ≠ decl.name) :
    parsePiece read decl.spelled = .ok decl := by
  obtain ⟨behind,shape,_,_,_,parts⟩ := plain.spelled
  obtain ⟨_,named⟩ := isAName_plain plain.name
  have cut : splitOnce ':' decl.spelled = some (decl.name,' '::behind) :=
    splitOnce_some.mpr ⟨shape,fun found => (named _ found).apart.2.2.1 rfl⟩
  have solid : trim decl.name = decl.name := trim_solid fun c found => (named c found).apart.1
  have marks := ((InputType.spells plain.kinds).marked decl.optional).2.2.2
  have unseen : read.any (·.name = decl.name) = false := List.any_eq_false.mpr fun other found => by simpa using fresh other found
  rw [parsePiece,cut]
  dsimp only
  rw [solid,plain.name,if_neg Bool.noConfusion,parts]
  dsimp only
  rw [marks]
  dsimp only
  rw [readType_back plain.kinds]
  simp only [bind,Except.bind]
  rw [unseen,if_neg Bool.noConfusion]
  cases given : decl.fallback with
  | none =>
    cases decl
    cases given
    rfl
  | some fallback =>
    dsimp only
    rw [(plain.fallback fallback given).2.2]
    cases decl
    cases given
    rfl

theorem parsePiece_plain {decl : InputDecl} {read : List InputDecl} {piece : Text} (clean : ',' ∉ piece)
    (made : parsePiece read piece = .ok decl) : Plain decl ∧ ∀ other ∈ read, other.name ≠ decl.name := by
  unfold parsePiece at made
  split at made
  · cases made
  · rename_i name rest cut
    obtain ⟨rfl,_⟩ := splitOnce_some.mp cut
    dsimp only at made
    cases named : isAName (trim name) with
    | false =>
      rw [named] at made
      cases made
    | true =>
      rw [named,if_neg Bool.noConfusion] at made
      generalize parts : (match splitOnce '=' rest with
        | some (written,fallback) => (trim written,some (trim fallback))
        | none => (trim rest,none)) = both at made
      obtain ⟨written,fallback⟩ := both
      dsimp only at made
      generalize (if written.getLast? = some '?' then (trim written.dropLast,true) else (written,false)) = shown at made
      obtain ⟨shown,optional⟩ := shown
      obtain ⟨type,reads,made⟩ := bind_ok.mp made
      split at made
      · cases made
      · rename_i unseen
        have fresh : ∀ other ∈ read, other.name ≠ trim name := by
          intro other found same
          exact unseen (List.any_eq_true.mpr ⟨other,found,decide_eq_true same⟩)
        have kinds := readType_plain reads
        cases fallback with
        | none =>
          cases made
          exact ⟨⟨named,kinds,fun text given => by cases given⟩,fresh⟩
        | some fallback =>
          obtain ⟨⟨⟩,checked,made⟩ := bind_ok.mp made
          cases made
          refine ⟨⟨named,kinds,?_⟩,fresh⟩
          intro text given
          obtain ⟨trimmed,inside⟩ := fallback_of parts given
          cases given
          exact ⟨trimmed,fun comma => clean (List.mem_append_right _ (List.mem_cons_of_mem _ (inside _ comma))),checked⟩

-- Pieces without a comma read to declarations that each read back, behind those already read.
theorem parsePieces_plain {pieces : List Text} {read decls : List InputDecl} (clean : ∀ piece ∈ pieces, ',' ∉ piece)
    (known : Declared read) (made : parsePieces read pieces = .ok decls) : Declared decls := by
  induction pieces generalizing read with
  | nil =>
    cases made
    exact known
  | cons piece pieces ih =>
    obtain ⟨first,clean⟩ := List.forall_mem_cons.mp clean
    obtain ⟨decl,one,made⟩ := bind_ok.mp made
    obtain ⟨plain,fresh⟩ := parsePiece_plain first one
    refine ih clean ⟨?_,?_⟩ made
    · intro other found
      rcases List.mem_append.mp found with old | new
      · exact known.plain other old
      · rw [List.mem_singleton.mp new]
        exact plain
    · rw [List.map_append,List.map_singleton]
      refine known.apart.append (List.nodup_singleton _) ?_
      intro name old new
      obtain ⟨other,found,rfl⟩ := List.mem_map.mp old
      exact fresh other found (List.mem_singleton.mp new)

theorem parsePieces_back {more read : List InputDecl} (declared : Declared (read++more)) :
    parsePieces read (more.map InputDecl.spelled) = .ok (read++more) := by
  induction more generalizing read with
  | nil => rw [List.append_nil]; rfl
  | cons decl more ih =>
    have plain := declared.plain decl (List.mem_append_right _ List.mem_cons_self)
    have fresh : ∀ other ∈ read, other.name ≠ decl.name := by
      intro other found same
      have apart := declared.apart
      rw [List.map_append] at apart
      have again : other.name ∈ (decl::more).map (·.name) := List.mem_map.mpr ⟨decl,List.mem_cons_self,same.symm⟩
      exact List.disjoint_of_nodup_append apart (List.mem_map_of_mem found) again
    have shape : read++decl::more = read++[decl]++more := by simp
    rw [shape] at declared ⊢
    exact bind_ok.mpr ⟨decl,parsePiece_back plain fresh,ih declared⟩

theorem Plain.item {decl : InputDecl} (plain : Plain decl) : Trimmed decl.spelled ∧ ',' ∉ decl.spelled ∧ decl.spelled ≠ [] := by
  obtain ⟨behind,shape,comma,trimmed,filled,_⟩ := plain.spelled
  obtain ⟨named,letters⟩ := isAName_plain plain.name
  rw [shape]
  refine ⟨trimmed_iff.mpr ⟨?_,?_⟩,?_,by simp⟩
  · intro c found
    rw [List.head?_append_of_ne_nil _ named] at found
    exact (letters c (List.mem_of_mem_head? found)).apart.1
  · rw [List.getLast?_append_of_ne_nil _ (List.cons_ne_nil _ _),List.getLast?_cons_of_ne_nil (List.cons_ne_nil _ _),
      List.getLast?_cons_of_ne_nil filled]
    exact (trimmed_iff.mp trimmed).2
  · intro found
    rcases List.mem_append.mp found with inside | after
    · exact (letters _ inside).apart.2.1 rfl
    · simp [comma] at after

theorem parse_plain {list : Text} {decls : List InputDecl} (made : parse list = .ok decls) : Declared decls := by
  have none' : Declared [] := ⟨fun _ found => absurd found List.not_mem_nil,List.nodup_nil⟩
  exact parsePieces_plain (fun piece found => splitItems_clean (List.mem_of_mem_filter found)) none' made

theorem parse_back {decls : List InputDecl} (declared : Declared decls) : parse (spelled decls) = .ok decls := by
  have items : ∀ item ∈ decls.map InputDecl.spelled, Trimmed item ∧ ',' ∉ item ∧ item ≠ [] := by
    intro item found
    obtain ⟨decl,one,rfl⟩ := List.mem_map.mp found
    exact (declared.plain decl one).item
  by_cases filled : decls.map InputDecl.spelled = []
  · cases List.map_eq_nil_iff.mp filled
    rfl
  · rw [parse,ViewInputs.spelled,splitItems_joinItems filled fun item found => ⟨(items item found).1,(items item found).2.1⟩,
      List.filter_eq_self.mpr fun item found => by simpa using (items item found).2.2]
    exact parsePieces_back declared

-- What a view's `inputs` read to is what a reader is told, read again: the declarations that some text
-- reads to are those their own spelling reads to.
theorem the_spelling_reads_back (decls : List InputDecl) :
    (Declared decls ↔ ∃ list, parse list = .ok decls) ∧ (Declared decls ↔ parse (spelled decls) = .ok decls) := by
  refine ⟨⟨fun declared => ⟨_,parse_back declared⟩,?_⟩,parse_back,parse_plain⟩
  intro read
  obtain ⟨list,made⟩ := read
  exact parse_plain made

end

end ViewInputs
