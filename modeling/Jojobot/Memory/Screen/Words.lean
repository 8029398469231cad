import Jojobot.Library.Text

namespace Screen
open Library

-- What the Unicode tables of the standard library answer.
class Letters where
  lower : Text → Text
  isAlphabetic : Char → Bool
  isNumeric : Char → Bool
  isLowercase : Char → Bool
  isUppercase : Char → Bool

@[reducible] def asciiLetters : Letters where
  lower := List.map Char.toLower
  isAlphabetic := Char.isAlpha
  isNumeric := Char.isDigit
  isLowercase := Char.isLower
  isUppercase := Char.isUpper

-- The tokens this process loaded as kinds.
class Kinds where
  loaded : List Text

abbrev EntityKind := Text

structure EntityId where
  text : Text
deriving DecidableEq

def splitOnce (c : Char) : Text → Option (Text × Text)
  | [] => none
  | d::rest => if d = c then some ([],rest) else (splitOnce c rest).map fun (before,after) => (d::before,after)

def EntityId.kind [Kinds] (id : EntityId) : Option EntityKind :=
  (splitOnce ':' id.text).bind fun parts => if Kinds.loaded.contains parts.1 then some parts.1 else none

def EntityId.slug (id : EntityId) : Text := ((splitOnce ':' id.text).map (·.2)).getD []

structure Archived where
  reason : Text
deriving DecidableEq

structure Entity where
  id : EntityId
  mergedInto : Option EntityId := none
  kind : EntityKind
  name : Text
  aliases : List Text := []
  foldedNames : List Text := []
  source : Text
  parent : Option EntityId := none
  archived : Option Archived := none
deriving DecidableEq

def Entity.labels (entity : Entity) : List Text :=
  ((entity.name :: entity.aliases ++ entity.foldedNames).map trim).filter (· ≠ [])

def Entity.browsable (entity : Entity) : Bool := entity.archived.isNone && entity.mergedInto.isNone

def MIN_WORD : Nat := 4

def STOP_WORDS : List Text := [
  "about","above","after","again","also","among","around","because","been","before","being","below",
  "between","both","cannot","could","does","doing","down","during","each","either","else","from","further",
  "have","having","here","hers","into","itself","just","might","more","most","must","never","only","other",
  "over","same","shall","should","since","some","such","than","that","their","them","then","there","these",
  "they","this","those","through","thus","under","until","upon","very","were","what","when","where",
  "whether","which","while","whom","whose","will","with","within","without","would","your","yours"].map String.toList

section
variable [Letters]

def isAlphanumeric (c : Char) : Bool := Letters.isAlphabetic c || Letters.isNumeric c

-- The list is kept sorted, so the bisection finds every word it holds.
def isStopWord (word : Text) : Bool := STOP_WORDS.contains (Letters.lower word)

def segments (text : Text) : List Text := text.splitOnP fun c => !isAlphanumeric c

def words (text : Text) : Finset Text :=
  ((segments (Letters.lower text)).filter fun word =>
    decide (MIN_WORD ≤ word.length) && word.any Letters.isAlphabetic).toFinset

-- The parts of one segment that a capital starts, given the letter before and the part so far.
def camelParts (before : Option Char) (part : Text) : Text → List Text
  | [] => [part]
  | c::rest =>
    let afterLower := before.any fun b => Letters.isLowercase b || Letters.isNumeric b
    let beforeLower := rest.head?.any Letters.isLowercase
    if Letters.isUppercase c && part ≠ [] && (afterLower || (before.any Letters.isUppercase && beforeLower)) then
      part :: camelParts (some c) [c] rest
    else camelParts (some c) (part++[c]) rest

def camelWords (text : Text) : Finset Text :=
  ((segments text).flatMap (camelParts none [])).foldl (fun found part => found ∪ words part) (words text)

def COMMON_AT : Nat := 3

def countedFor (entity : Entity) : Finset Text :=
  (entity.labels ++ [entity.id.slug]).foldl (fun found label => found ∪ camelWords label) ∅

-- How many things of each kind carry each word; a word nobody was counted for has none.
structure Rarity where
  carriers : EntityKind → Text → Nat

variable [Kinds]

def Rarity.count (rarity : Rarity) (entity : Entity) : Rarity :=
  match entity.id.kind with
  | none => rarity
  | some own => ⟨fun kind word => rarity.carriers kind word + if own = kind ∧ word ∈ countedFor entity then 1 else 0⟩

def Rarity.of (entities : List Entity) : Rarity :=
  (entities.filter Entity.browsable).foldl Rarity.count ⟨fun _ _ => 0⟩

def Rarity.isRare (rarity : Rarity) (kind : EntityKind) (word : Text) : Bool :=
  decide (1 ≤ rarity.carriers kind word) && decide (rarity.carriers kind word < COMMON_AT)

end

theorem mem_foldl_union {α β : Type} [DecidableEq β] (f : α → Finset β) (items : List α) (start : Finset β) (b : β) :
    b ∈ items.foldl (fun found item => found ∪ f item) start ↔ b ∈ start ∨ ∃ item ∈ items, b ∈ f item := by
  induction items generalizing start with
  | nil => simp
  | cons item items ih => simp [ih,or_assoc]

section
variable [Letters] [Kinds] {entity : Entity} {entities : List Entity} {kind : EntityKind} {word label : Text}

omit [Kinds] in
theorem counted_of_label (worn : label ∈ entity.labels) (within : word ∈ camelWords label) : word ∈ countedFor entity := by
  rw [countedFor,mem_foldl_union]
  exact Or.inr ⟨label,List.mem_append_left _ worn,within⟩

def Carries (kind : EntityKind) (word : Text) (entity : Entity) : Prop :=
  entity.browsable = true ∧ entity.id.kind = some kind ∧ word ∈ countedFor entity

instance (kind : EntityKind) (word : Text) : DecidablePred (Carries kind word) := fun _ => instDecidableAnd

theorem count_carriers (rarity : Rarity) (listed : entity.browsable = true) :
    (rarity.count entity).carriers kind word = rarity.carriers kind word + if Carries kind word entity then 1 else 0 := by
  unfold Rarity.count
  split
  · rename_i unknown
    simp [Carries,unknown]
  · rename_i own known
    simp [Carries,known,listed]

-- The count of a word is the number of things that carry it, in whatever order they are listed.
theorem carriers_of (entities : List Entity) :
    (Rarity.of entities).carriers kind word = entities.countP (Carries kind word ·) := by
  have run (rarity : Rarity) : ((entities.filter Entity.browsable).foldl Rarity.count rarity).carriers kind word =
      rarity.carriers kind word + entities.countP (Carries kind word ·) := by
    induction entities generalizing rarity with
    | nil => rfl
    | cons entity entities ih =>
      by_cases listed : entity.browsable = true
      · rw [List.filter_cons_of_pos listed,List.foldl_cons,ih,count_carriers rarity listed,List.countP_cons]
        simp only [decide_eq_true_eq]
        omega
      · have absent : ¬Carries kind word entity := fun carried => listed carried.1
        rw [List.filter_cons_of_neg listed,ih,List.countP_cons]
        simp [absent]
  simpa [Rarity.of] using run ⟨fun _ _ => 0⟩

-- Two stores that differ in one thing each count a word alike where both of those carry it.
theorem carriers_of_either {a b : Entity} {withA withB : List Entity} (carriedA : Carries kind word a)
    (carriedB : Carries kind word b) (listA : withA.Perm (a::entities)) (listB : withB.Perm (b::entities)) :
    (Rarity.of withA).carriers kind word = (Rarity.of withB).carriers kind word := by
  rw [carriers_of,carriers_of,listA.countP_eq,listB.countP_eq,List.countP_cons,List.countP_cons]
  simp [carriedA,carriedB]

end
end Screen
