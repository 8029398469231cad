import Jojobot.Memory.Screen.Words

namespace Screen
open Library

-- The lines of the vendored table.
def NICKNAMES : List Text := [
  "# Given-name short forms, one family per line: the full name, a colon, then the",
  "# short forms that go with it. Public English naming conventions; no person is",
  "# named here. A short form may head more than one family (chris: christopher and",
  "# christine), and two names are linked when their families meet.",
  "alexander: alex al xander sandy lex",
  "alexandra: alex alexa sandra sandy lexi",
  "andrew: andy drew",
  "anthony: tony ant",
  "barbara: barb barbie babs",
  "bartholomew: bart barty",
  "benjamin: ben benny benji",
  "catherine: cathy kate katie kat cat",
  "charles: charlie chuck chas",
  "christine: chris christy tina",
  "christopher: chris kit topher",
  "daniel: dan danny",
  "david: dave davey",
  "deborah: deb debbie",
  "edward: ed eddie ted teddy ned",
  "eleanor: ellie nell nora",
  "elizabeth: liz lisa beth betty eliza lizzie libby",
  "frederick: fred freddie fritz",
  "gerald: gerry jerry",
  "gregory: greg",
  "henry: hank harry",
  "isabel: izzy bella",
  "jacob: jake",
  "james: jim jimmy jamie",
  "jennifer: jen jenny",
  "jeremy: jerry",
  "john: jack johnny jon",
  "jonathan: jon nathan",
  "joseph: joe joey",
  "katherine: kathy kate katie kat",
  "kenneth: ken kenny",
  "lawrence: larry laurie",
  "leonard: leo len lenny",
  "margaret: maggie meg peggy marge",
  "matthew: matt",
  "maurice: moe morrie maury",
  "michael: mike mikey mick",
  "nicholas: nick nicky",
  "patricia: pat patty trish",
  "patrick: pat paddy",
  "peter: pete",
  "philip: phil",
  "rebecca: becky becca",
  "richard: rick dick rich ricky",
  "robert: bob bobby rob robbie bert",
  "ronald: ron ronnie",
  "samuel: sam sammy",
  "stephen: steve stevie",
  "steven: steve stevie",
  "susan: sue susie suzy",
  "theodore: ted teddy theo",
  "thomas: tom tommy",
  "timothy: tim timmy",
  "victoria: vicky vicki tori",
  "walter: walt wally",
  "william: bill billy will willy"].map String.toList

def splitWhitespace (text : Text) : List Text := (text.splitOnP isWhitespace).filter (· ≠ [])

def SHARED_WORDS_NEEDED : Nat := 2

section
variable [Letters]

-- A name that heads several lines has the short forms of each.
def families : List (Text × List Text) :=
  ((((NICKNAMES.map trim).filter fun line => line ≠ [] && line.head? ≠ some '#').filterMap (splitOnce ':'))).map
    fun (full,shorts) => (Letters.lower (trim full),(splitWhitespace shorts).map Letters.lower)

def nameWords (name : Text) : List Text := ((segments name).filter (· ≠ [])).map Letters.lower

def shortFormOf (short full : Text) : Bool := families.any fun (name,shorts) => name = full && shorts.contains short

def linked : List (Text × Text) → Bool → Bool
  | [],found => found
  | (x,y)::rest,found =>
    if x = y then linked rest found
    else if shortFormOf x y || shortFormOf y x then linked rest true
    else false

def sameThroughNicknames (a b : Text) : Bool :=
  if nameWords a = [] || (nameWords a).length ≠ (nameWords b).length then false
  else linked ((nameWords a).zip (nameWords b)) false

def sharedWords (a b : Text) (isRare : Text → Bool) : Finset Text :=
  (camelWords a ∩ camelWords b).filter fun word => !isStopWord word && isRare word

variable {a b : Text} {isRare rareToo : Text → Bool}

theorem linked_swap (pairs : List (Text × Text)) (found : Bool) :
    linked (pairs.map Prod.swap) found = linked pairs found := by
  induction pairs generalizing found with
  | nil => rfl
  | cons pair rest ih =>
    obtain ⟨x,y⟩ := pair
    simp only [List.map_cons,Prod.swap_prod_mk,linked,ih,@eq_comm _ y x,Bool.or_comm (shortFormOf y x)]

theorem sameThroughNicknames_comm (a b : Text) : sameThroughNicknames a b = sameThroughNicknames b a := by
  unfold sameThroughNicknames
  by_cases lengths : (nameWords a).length = (nameWords b).length
  · have empty : nameWords a = [] ↔ nameWords b = [] := by
      rw [← List.length_eq_zero_iff,lengths,List.length_eq_zero_iff]
    rw [← List.zip_swap (nameWords b),linked_swap]
    simp only [empty,lengths]
  · have turned : ¬(nameWords b).length = (nameWords a).length := fun equal => lengths equal.symm
    simp [lengths,turned]

theorem sharedWords_comm (same : ∀ word ∈ camelWords a ∩ camelWords b, isRare word = rareToo word) :
    sharedWords a b isRare = sharedWords b a rareToo := by
  unfold sharedWords
  rw [Finset.inter_comm (camelWords b)]
  apply Finset.filter_congr
  intro word both
  rw [same word both]

end
end Screen
