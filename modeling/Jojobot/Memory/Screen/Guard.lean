import Jojobot.Library.Sorting
import Jojobot.Memory.Screen.Distance
import Jojobot.Memory.Screen.Likeness

namespace Screen
open Library

-- In the order they are reported in.
inductive MatchReason where
  | exactHandle | cardNumber | selfParent | sameName | sameNameOtherKind | nearSlug | contains | nearName
  | heldNumber | nickname | sharedWord
deriving DecidableEq, Repr

def MatchReason.rank : MatchReason → Nat
  | .exactHandle => 0
  | .cardNumber => 1
  | .selfParent => 2
  | .sameName => 3
  | .sameNameOtherKind => 4
  | .nearSlug => 5
  | .contains => 6
  | .nearName => 7
  | .heldNumber => 8
  | .nickname => 9
  | .sharedWord => 10

structure EntityMatch where
  handle : EntityId
  kind : EntityKind
  name : Text
  source : Text
  reason : MatchReason
  toldApartBy : Option Text
deriving DecidableEq

def NEAR : Nat := 2

def slugify (name : Text) : Text :=
  let out := name.foldl (fun out c =>
    if c.isAlphanum then out++[c.toLower] else if out.getLast? ≠ some '-' then out++['-'] else out) []
  (out.dropWhile (· = '-')).rdropWhile (· = '-')

def contained (a b : Text) : Bool :=
  if a = b then false
  else
    let tokens := fun (slug : Text) => (slug.splitOn '-').filter (· ≠ [])
    let subset := fun (small large : List Text) => decide (small.length < large.length) && small.all large.contains
    subset (tokens a) (tokens b) || subset (tokens b) (tokens a)

-- The letters with each run of digits as one mark, and the runs, from the run read so far on.
def runsFrom (run : Text) : Text → Text × List Text
  | [] => if run = [] then ([],[]) else (['#'],[run])
  | c::rest =>
    if c.isDigit then runsFrom (run++[c]) rest
    else
      let (skeleton,runs) := runsFrom [] rest
      if run = [] then (c::skeleton,runs) else ('#' :: c :: skeleton,run::runs)

def digitRuns (slug : Text) : Text × List Text := runsFrom [] slug

def namesRepeatANumber (incoming existing : List Text) : Bool :=
  incoming.any fun a => (digitRuns a).2 ≠ [] && existing.any fun b => (digitRuns b).2 = (digitRuns a).2

-- Reads a text from its end: what is left once every part `-#` there is taken off.
def trimParts : Text → Text
  | '#' :: '-' :: rest => trimParts rest
  | rest => rest

def addedParts (short long : Text) : Bool :=
  (List.range short.length).any fun mark => short[mark]? = some '#' &&
    ((long.dropPrefix? (short.take (mark+1))).bind (·.dropSuffix? (short.drop (mark+1)))).any fun extra =>
      extra ≠ [] && trimParts extra.reverse = []

def numberedApart (a b : Text) : Bool :=
  let (skeletonA,runsA) := digitRuns a
  let (skeletonB,runsB) := digitRuns b
  runsA ≠ [] && runsB ≠ [] && runsA ≠ runsB &&
    (skeletonA = skeletonB || addedParts skeletonA skeletonB || addedParts skeletonB skeletonA)

section
variable [Letters]

def normalizeName (name : Text) : Text := [' '].intercalate ((splitWhitespace name).map Letters.lower)

def folded (labels : List Text) : List Text := (labels.map normalizeName).filter (· ≠ [])

def siblingNameReason (reason : Option MatchReason) (incoming : List Text) (existing : Entity) : Option MatchReason :=
  if namesRepeatANumber incoming (folded existing.labels) then reason
  else reason.filter fun reason => reason = .sameName || reason = .sameNameOtherKind || reason = .nickname

-- What the weak name reasons read beyond the folded names; only a creation asks them.
structure Words where
  written : List Text
  rarity : Rarity
  likeness : Bool

def nameReason (kind : Option EntityKind) (incoming incomingSlugs : List Text) (siblings : Bool) (existing : Entity)
    (words : Words) : Option MatchReason :=
  let sameKind := decide (kind = some existing.kind)
  let existingNames := folded existing.labels
  let agree := incoming.any (fun a => existingNames.any fun b => a = b) || incomingSlugs.any (· = existing.id.slug)
  if agree then some (if sameKind then .sameName else .sameNameOtherKind)
  else if !sameKind then none
  else
    let near := incoming.any fun a => existingNames.any fun b =>
      (editDistanceWithin a b NEAR).isSome && !(siblings && numberedApart (slugify a) (slugify b))
    if near then some .nearName
    else if !words.likeness then none
    else if incoming.any fun a => existingNames.any fun b => sameThroughNicknames a b then some .nickname
    else if words.written.any fun a => existing.labels.any fun b =>
        decide (SHARED_WORDS_NEEDED ≤ (sharedWords a b (words.rarity.isRare existing.kind)).card) &&
          !(siblings && numberedApart (slugify a) (slugify b)) then some .sharedWord
    else none

variable [Kinds]

def reasonFor (handle : EntityId) (incomingSlug : Text) (incomingNames incomingNameSlugs : List Text)
    (parent : Option EntityId) (existing : Entity) (words : Words) : Option MatchReason :=
  if existing.id = handle then some .exactHandle
  else
    let sameKind := decide (handle.kind = some existing.kind)
    if (folded existing.labels).any fun n => slugify n = incomingSlug then
      some (if sameKind then .sameName else .sameNameOtherKind)
    else
      let siblings := parent.isSome && parent = existing.parent
      let numberedSiblings := sameKind && siblings && numberedApart incomingSlug existing.id.slug
      let byName := nameReason handle.kind incomingNames incomingNameSlugs siblings existing words
      if byName = some .sameName || byName = some .sameNameOtherKind then byName
      else if !sameKind then none
      else if numberedSiblings then siblingNameReason byName incomingNames existing
      else if (editDistanceWithin incomingSlug existing.id.slug NEAR).isSome then some .nearSlug
      else if (byName = none || byName = some .nickname || byName = some .sharedWord) &&
          contained incomingSlug existing.id.slug then some .contains
      else byName

def screenWith (handle : EntityId) (labels : List Text) (parent : Option EntityId) (index : List Entity)
    (likeness : Bool) : List EntityMatch :=
  let incomingNames := folded labels
  let words : Words := ⟨labels,Rarity.of index,likeness⟩
  sortBy (compareLex (compareOn (·.reason.rank)) (compareOn (·.handle.text))) (index.filterMap fun e =>
    (reasonFor handle handle.slug incomingNames (incomingNames.map slugify) parent e words).map fun reason =>
      ⟨e.id,e.kind,e.name,e.source,reason,none⟩)

def screenUnder (handle : EntityId) (labels : List Text) (parent : Option EntityId) (index : List Entity) :
    List EntityMatch := screenWith handle labels parent index false

def screen (handle : EntityId) (labels : List Text) (index : List Entity) : List EntityMatch :=
  screenUnder handle labels none index

-- A creation also asks the weak name reasons.
def screenCreating (handle : EntityId) (labels : List Text) (parent : Option EntityId) (index : List Entity) :
    List EntityMatch := screenWith handle labels parent index true

end
end Screen
