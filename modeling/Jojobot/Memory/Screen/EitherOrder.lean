import Jojobot.Memory.Screen.Guard

namespace Screen
open Library

section
variable {a b : Text} {α β : Type}

theorem contained_comm (a b : Text) : contained a b = contained b a := by
  unfold contained
  simp only [@eq_comm _ b a]
  rw [Bool.or_comm]

theorem numberedApart_comm (a b : Text) : numberedApart a b = numberedApart b a := by
  unfold numberedApart
  rw [Bool.eq_iff_iff]
  simp only [Bool.and_eq_true,Bool.or_eq_true,decide_eq_true_eq,ne_eq,@eq_comm _ (digitRuns b).2 (digitRuns a).2,
    @eq_comm _ (digitRuns b).1 (digitRuns a).1]
  tauto

theorem any_swap {xs : List α} {ys : List β} {f : α → β → Bool} {g : β → α → Bool}
    (same : ∀ x ∈ xs, ∀ y ∈ ys, f x y = g y x) : (xs.any fun x => ys.any (f x)) = ys.any fun y => xs.any (g y) := by
  rw [Bool.eq_iff_iff]
  simp only [List.any_eq_true]
  constructor
  · intro found
    obtain ⟨x,inX,y,inY,both⟩ := found
    exact ⟨y,inY,x,inX,by rwa [← same x inX y inY]⟩
  · intro found
    obtain ⟨y,inY,x,inX,both⟩ := found
    exact ⟨x,inX,y,inY,by rwa [same x inX y inY]⟩

theorem namesRepeatANumber_comm (xs ys : List Text) : namesRepeatANumber xs ys = namesRepeatANumber ys xs := by
  have both (xs ys : List Text) : namesRepeatANumber xs ys =
      xs.any fun a => ys.any fun b => (digitRuns a).2 ≠ [] && (digitRuns b).2 = (digitRuns a).2 := by
    unfold namesRepeatANumber
    congr 1
    funext a
    cases decide ((digitRuns a).2 ≠ []) <;> simp
  rw [both,both]
  apply any_swap
  intro a _ b _
  by_cases same : (digitRuns b).2 = (digitRuns a).2
  · simp [same]
  · simp [same,Ne.symm same]

end

-- What two things have in common, one question a field.
structure Resemblance where
  sameKind : Bool
  spelled : Bool
  nearName : Bool
  nicknamed : Bool
  sharing : Bool
  numberedSiblings : Bool
  repeating : Bool
  nearSlug : Bool
  containing : Bool

def Resemblance.byName (r : Resemblance) : Option MatchReason :=
  if r.nearName then some .nearName else if r.nicknamed then some .nickname
  else if r.sharing then some .sharedWord else none

-- The answer the guard gives of two things that are not one.
def Resemblance.reason (r : Resemblance) : Option MatchReason :=
  if r.spelled then some (if r.sameKind then .sameName else .sameNameOtherKind)
  else if !r.sameKind then none
  else if r.numberedSiblings then
    if r.repeating then r.byName else r.byName.filter (· = .nickname)
  else if r.nearSlug then some .nearSlug
  else if r.containing && !r.nearName then some .contains
  else r.byName

section
variable [Letters] {a b : Entity} {likeness : Bool} {rarity : Rarity}

def areSiblings (a b : Entity) : Bool := a.parent.isSome && a.parent = b.parent

def spelledAlike (a b : Entity) : Bool :=
  (folded b.labels).any (fun n => slugify n = a.id.slug) ||
    ((folded a.labels).any (fun x => (folded b.labels).any fun y => x = y) ||
      ((folded a.labels).map slugify).any (· = b.id.slug))

def resemblance (likeness : Bool) (rarity : Rarity) (a b : Entity) : Resemblance where
  sameKind := a.kind = b.kind
  spelled := spelledAlike a b
  nearName := (folded a.labels).any fun x => (folded b.labels).any fun y =>
    (editDistanceWithin x y NEAR).isSome && !(areSiblings a b && numberedApart (slugify x) (slugify y))
  nicknamed := likeness && (folded a.labels).any fun x => (folded b.labels).any fun y => sameThroughNicknames x y
  sharing := likeness && a.labels.any fun x => b.labels.any fun y =>
    decide (SHARED_WORDS_NEEDED ≤ (sharedWords x y (rarity.isRare b.kind)).card) &&
      !(areSiblings a b && numberedApart (slugify x) (slugify y))
  numberedSiblings := areSiblings a b && numberedApart a.id.slug b.id.slug
  repeating := namesRepeatANumber (folded a.labels) (folded b.labels)
  nearSlug := (editDistanceWithin a.id.slug b.id.slug NEAR).isSome
  containing := contained a.id.slug b.id.slug

omit [Letters] in
theorem areSiblings_comm (a b : Entity) : areSiblings a b = areSiblings b a := by
  unfold areSiblings
  by_cases same : a.parent = b.parent
  · rw [same]
  · simp [same,Ne.symm same]

theorem spelledAlike_comm (a b : Entity) : spelledAlike a b = spelledAlike b a := by
  have names : ((folded a.labels).any fun x => (folded b.labels).any fun y => x = y) =
      (folded b.labels).any fun x => (folded a.labels).any fun y => x = y := by
    apply any_swap
    intro x _ y _
    simp only [@eq_comm _ y x]
  unfold spelledAlike
  rw [names]
  simp only [List.any_map,Function.comp_def]
  ac_rfl

-- Each question is asked of both things alike, once the words they share are as rare for the one as for the other.
theorem resemblance_comm {rarityToo : Rarity} (rare : ∀ x ∈ a.labels, ∀ y ∈ b.labels,
    ∀ word ∈ camelWords x ∩ camelWords y, rarity.isRare b.kind word = rarityToo.isRare a.kind word) : resemblance likeness rarity a b = resemblance likeness rarityToo b a := by
  have apart (x y : Text) : (areSiblings a b && numberedApart (slugify x) (slugify y)) =
      (areSiblings b a && numberedApart (slugify y) (slugify x)) := by
    rw [areSiblings_comm,numberedApart_comm]
  unfold resemblance
  congr 1
  · simp only [eq_comm]
  · exact spelledAlike_comm a b
  · apply any_swap
    intro x _ y _
    rw [apart,editDistanceWithin_comm]
  · congr 1
    apply any_swap
    intro x _ y _
    exact sameThroughNicknames_comm x y
  · congr 1
    apply any_swap
    intro x wornX y wornY
    rw [apart,sharedWords_comm (rare x wornX y wornY)]
  · rw [areSiblings_comm,numberedApart_comm]
  · exact namesRepeatANumber_comm _ _
  · rw [editDistanceWithin_comm]
  · exact contained_comm _ _

theorem nameReason_resemblance (likeness : Bool) (rarity : Rarity) (a b : Entity) :
    nameReason (some a.kind) (folded a.labels) ((folded a.labels).map slugify) (areSiblings a b) b
        ⟨a.labels,rarity,likeness⟩ =
      if (folded a.labels).any (fun x => (folded b.labels).any fun y => x = y) ||
          ((folded a.labels).map slugify).any (· = b.id.slug) then
        some (if a.kind = b.kind then .sameName else .sameNameOtherKind)
      else if a.kind ≠ b.kind then none else (resemblance likeness rarity a b).byName := by
  unfold nameReason
  simp only [Option.some.injEq,decide_eq_true_eq]
  split
  · rfl
  · by_cases kinds : a.kind = b.kind
    · simp only [kinds,decide_true,Bool.not_true,Bool.false_eq_true,if_false,ne_eq,not_true_eq_false]
      unfold Resemblance.byName resemblance
      cases likeness <;> simp
    · simp [kinds]

variable [Kinds]

theorem reasonFor_resemblance (ownA : a.id.kind = some a.kind) (apart : b.id ≠ a.id) :
    reasonFor a.id a.id.slug (folded a.labels) ((folded a.labels).map slugify) a.parent b ⟨a.labels,rarity,likeness⟩ =
      (resemblance likeness rarity a b).reason := by
  have byName := nameReason_resemblance likeness rarity a b
  have kinds : (resemblance likeness rarity a b).sameKind = decide (a.kind = b.kind) := rfl
  have spelled : (resemblance likeness rarity a b).spelled = spelledAlike a b := rfl
  have numbered : (resemblance likeness rarity a b).numberedSiblings =
    (a.parent.isSome && decide (a.parent = b.parent) && numberedApart a.id.slug b.id.slug) := rfl
  have repeating : (resemblance likeness rarity a b).repeating =
    namesRepeatANumber (folded a.labels) (folded b.labels) := rfl
  have nearSlug : (resemblance likeness rarity a b).nearSlug =
    (editDistanceWithin a.id.slug b.id.slug NEAR).isSome := rfl
  have containing : (resemblance likeness rarity a b).containing = contained a.id.slug b.id.slug := rfl
  unfold areSiblings at byName
  unfold reasonFor Resemblance.reason siblingNameReason
  unfold spelledAlike at spelled
  simp only [if_neg apart,ownA,byName,Option.some.injEq,kinds,spelled,numbered,repeating,nearSlug,containing]
  generalize resemblance likeness rarity a b = r
  generalize (folded b.labels).any (fun n => decide (slugify n = a.id.slug)) = front
  generalize ((folded a.labels).any (fun x => (folded b.labels).any fun y => decide (x = y)) ||
      ((folded a.labels).map slugify).any fun x => decide (x = b.id.slug)) = agree
  cases front with
  | true => simp
  | false =>
    cases agree with
    | true => by_cases kinds : a.kind = b.kind <;> simp [kinds]
    | false =>
      -- Neither is spelled like the other: of one kind, the weaker questions decide.
      by_cases kinds : a.kind = b.kind
      · unfold Resemblance.byName
        cases r.nearName <;> cases r.nicknamed <;> cases r.sharing <;> simp [kinds,Option.filter]
      · simp [kinds]

def Reports (matches' : List EntityMatch) (handle : EntityId) (reason : MatchReason) : Prop :=
  ∃ found ∈ matches', found.handle = handle ∧ found.reason = reason

theorem screenWith_reports {index listed : List Entity} (ownA : a.id.kind = some a.kind) (apart : a.id ≠ b.id)
    (fresh : ∀ e ∈ index, e.id ≠ b.id) (list : listed.Perm (b::index)) (likeness : Bool) (reason : MatchReason) :
    Reports (screenWith a.id a.labels a.parent listed likeness) b.id reason ↔
      (resemblance likeness (Rarity.of listed) a b).reason = some reason := by
  have answer : reasonFor a.id a.id.slug (folded a.labels) ((folded a.labels).map slugify) a.parent b
      ⟨a.labels,Rarity.of listed,likeness⟩ = (resemblance likeness (Rarity.of listed) a b).reason :=
    reasonFor_resemblance ownA apart.symm
  unfold Reports screenWith
  constructor
  · intro reported
    obtain ⟨found,within,same,because⟩ := reported
    rw [mem_sortBy,List.mem_filterMap] at within
    obtain ⟨e,inside,made⟩ := within
    obtain ⟨given,because',made⟩ := Option.map_eq_some_iff.mp made
    subst made
    rcases List.mem_cons.mp (list.mem_iff.mp inside) with rfl | inside
    · rw [← answer,because',← because]
    · exact absurd same (fresh e inside)
  · intro because
    refine ⟨⟨b.id,b.kind,b.name,b.source,reason,none⟩,?_,rfl,rfl⟩
    rw [mem_sortBy,List.mem_filterMap]
    exact ⟨b,list.mem_iff.mpr List.mem_cons_self,by rw [answer,because]; rfl⟩

theorem resemblance_reason_comm {index withA withB : List Entity} (ownA : a.id.kind = some a.kind)
    (ownB : b.id.kind = some b.kind) (listedA : a.browsable = true) (listedB : b.browsable = true)
    (listA : withA.Perm (a::index)) (listB : withB.Perm (b::index)) (likeness : Bool) :
    (resemblance likeness (Rarity.of withB) a b).reason = (resemblance likeness (Rarity.of withA) b a).reason := by
  by_cases kinds : a.kind = b.kind
  · congr 1
    apply resemblance_comm
    intro x wornX y wornY word both
    have within := Finset.mem_inter.mp both
    have carriedA : Carries b.kind word a := ⟨listedA,by rw [ownA,kinds],counted_of_label wornX within.1⟩
    have carriedB : Carries b.kind word b := ⟨listedB,ownB,counted_of_label wornY within.2⟩
    unfold Rarity.isRare
    rw [kinds,carriers_of_either carriedA carriedB listA listB]
  · -- Of two kinds only the spelling is asked, and no count enters it.
    have spelled := spelledAlike_comm a b
    simp [Resemblance.reason,resemblance,kinds,Ne.symm kinds,spelled]

theorem the_guard_asks_in_either_order {index withA withB : List Entity} (ownA : a.id.kind = some a.kind)
    (ownB : b.id.kind = some b.kind) (apart : a.id ≠ b.id) (newA : ∀ e ∈ index, e.id ≠ a.id)
    (newB : ∀ e ∈ index, e.id ≠ b.id) (listedA : a.browsable = true) (listedB : b.browsable = true)
    (listA : withA.Perm (a::index)) (listB : withB.Perm (b::index)) (reason : MatchReason) :
    (Reports (screenCreating a.id a.labels a.parent withB) b.id reason ↔
      Reports (screenCreating b.id b.labels b.parent withA) a.id reason) ∧
    (Reports (screenUnder a.id a.labels a.parent withB) b.id reason ↔
      Reports (screenUnder b.id b.labels b.parent withA) a.id reason) := by
  have either (likeness : Bool) : Reports (screenWith a.id a.labels a.parent withB likeness) b.id reason ↔
      Reports (screenWith b.id b.labels b.parent withA likeness) a.id reason := by
    rw [screenWith_reports ownA apart newB listB,screenWith_reports ownB apart.symm newA listA,
      resemblance_reason_comm ownA ownB listedA listedB listA listB]
  exact ⟨either true,either false⟩

end

@[reducible] def onlyPlaces : Kinds := ⟨["place".toList]⟩

def plant : Entity where
  id := ⟨"place:springfield-nuclear-plant".toList⟩
  kind := "place".toList
  name := "Springfield Nuclear Plant".toList
  source := "operator".toList

def tours : Entity where
  id := ⟨"place:nuclear-plant-tours".toList⟩
  kind := "place".toList
  name := "NuclearPlant Tours".toList
  source := "operator".toList

theorem a_plant_and_its_tours_share_two_words :
    Reports (@screenCreating asciiLetters onlyPlaces tours.id tours.labels tours.parent [plant]) plant.id .sharedWord ∧
      Reports (@screenCreating asciiLetters onlyPlaces plant.id plant.labels plant.parent [tours]) tours.id .sharedWord := by
  have either := (@the_guard_asks_in_either_order asciiLetters plant tours onlyPlaces [] [plant] [tours] rfl rfl
    (by decide) (by simp) (by simp) rfl rfl (List.Perm.refl _) (List.Perm.refl _) .sharedWord).1
  have asked : Reports (@screenCreating asciiLetters onlyPlaces plant.id plant.labels plant.parent [tours])
      tours.id .sharedWord := by
    unfold Reports
    decide +kernel
  exact ⟨either.mp asked,asked⟩

end Screen
