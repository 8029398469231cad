import Jojobot.Library.AnyOf
import Jojobot.Memory.Filter

namespace Memory
open Library

-- One term an index of the keys a thing holds can look up. `ask` is a test only
-- the store answers, and then the term names no value.
structure Term where
  key : Text
  value : Option Text
  ask : Option Test
deriving DecidableEq, Repr

structure Routed where
  anyOf : List (List Term)
  exact : Bool
deriving DecidableEq, Repr

def mostConjunctions : Nat := 16

def Leaf.routed (leaf : Leaf) : Option Routed :=
  match leaf.key with
  | none => none
  | some key =>
    let key := trim key
    let one := fun value => Term.mk key value none
    match leaf.test with
    | .exists => some ⟨[[one none]],true⟩
    | .equals wanted => some ⟨[[one (some (trim wanted))]],true⟩
    | .isIn wanted =>
      if wanted ≠ [] then some ⟨wanted.map fun value => [one (some (trim value))],true⟩
      -- Held only as the key being carried: the evaluator decides the rest.
      else some ⟨[[one none]],false⟩
    | test => some ⟨[[⟨key,none,some test⟩]],true⟩

-- The loop of `&&`: each served child multiplies the conjunctions held so far.
def multiplied : List (List Term) → List Routed → Option (List (List Term))
  | anyOf,[] => some anyOf
  | anyOf,child::rest =>
    let next := both anyOf child.anyOf
    if mostConjunctions < next.length then none else multiplied next rest

-- The loop of `||`: every child has to be served.
def joined : List (Option Routed) → Option Routed
  | [] => some ⟨[],true⟩
  | child::rest => do
    let child ← child
    let others ← joined rest
    some ⟨child.anyOf ++ others.anyOf,child.exact && others.exact⟩

mutual
def Filter.routed : Filter → Option Routed
  | .leaf leaf => leaf.routed
  | .all children =>
    let served := routedEach children
    let exact := served.all (fun child => child.any (·.exact))
    match multiplied [[]] (served.filterMap id) with
    | none => none
    | some anyOf => if served.filterMap id = [] then none else some ⟨anyOf,exact⟩
  | .any children =>
    if children.isEmpty then none else
    match joined (routedEach children) with
    | none => none
    | some routed => if routed.anyOf.length ≤ mostConjunctions then some routed else none
  | .not _ | .refs .. | .finished => none
def routedEach : List Filter → List (Option Routed)
  | [] => []
  | child::rest => child.routed :: routedEach rest
end

variable {filters : List Filter} {filter child : Filter} {routed : Routed} {children : List Routed}
  {anyOf result : List (List Term)}

theorem routedEach_eq (filters : List Filter) : routedEach filters = filters.map Filter.routed := by
  induction filters with
  | nil => rfl
  | cons child rest ih => rw [routedEach,ih,List.map_cons]

theorem mem_served : routed ∈ (routedEach filters).filterMap id ↔ ∃ child ∈ filters, child.routed = some routed := by
  simp [routedEach_eq]

-- Each served child multiplies, and none is left out of the product.
theorem multiplied_length (most : anyOf.length ≤ mostConjunctions)
    (product : multiplied anyOf children = some result) : result.length ≤ mostConjunctions := by
  induction children generalizing anyOf with
  | nil => cases product; exact most
  | cons child rest ih =>
    simp only [multiplied] at product
    split at product
    · cases product
    · exact ih (by omega) product

theorem multiplied_answered (answers : Term → Prop) (product : multiplied anyOf children = some result) :
    Answered answers result ↔ Answered answers anyOf ∧ ∀ child ∈ children, Answered answers child.anyOf := by
  induction children generalizing anyOf with
  | nil => cases product; simp
  | cons child rest ih =>
    simp only [multiplied] at product
    split at product
    · cases product
    · rw [ih product,answered_both,List.forall_mem_cons,and_assoc]

theorem joined_answered (answers : Term → Prop) (union : joined (routedEach filters) = some routed) :
    Answered answers routed.anyOf ↔
      ∃ child ∈ filters, ∃ served, child.routed = some served ∧ Answered answers served.anyOf := by
  induction filters generalizing routed with
  | nil => cases union; simp [answered_nothing]
  | cons child rest ih =>
    simp only [routedEach,joined,Option.bind_eq_bind,Option.bind_eq_some_iff,Option.some.injEq] at union
    obtain ⟨first,servedFirst,others,servedOthers,rfl⟩ := union
    simp [answered_append,ih servedOthers,servedFirst]

theorem joined_each (union : joined (routedEach filters) = some routed) :
    ∀ child ∈ filters, ∃ served, child.routed = some served ∧ (routed.exact = true → served.exact = true) := by
  induction filters generalizing routed with
  | nil => simp
  | cons child rest ih =>
    simp only [routedEach,joined,Option.bind_eq_bind,Option.bind_eq_some_iff,Option.some.injEq] at union
    obtain ⟨first,servedFirst,others,servedOthers,rfl⟩ := union
    simp only [List.forall_mem_cons,Bool.and_eq_true]
    refine ⟨⟨first,servedFirst,And.left⟩,fun child member => ?_⟩
    obtain ⟨served,found,exact⟩ := ih servedOthers child member
    exact ⟨served,found,fun both => exact both.2⟩

-- A bare `in` is the one tree no bound is asked of.
theorem routed_length (built : filter.Built) (served : filter.routed = some routed) :
    routed.anyOf.length ≤ mostConjunctions ∨
      ∃ key wanted, filter = .isIn key wanted ∧ routed.anyOf.length = wanted.length := by
  cases built with
  | leafOf key test =>
    cases key with
    | none => cases served
    | some key =>
      cases test with
      | isIn wanted =>
        by_cases empty : wanted = []
        · subst empty
          cases served
          left; simp [mostConjunctions]
        · simp only [Filter.leafOf,Filter.routed,Leaf.routed,Option.map_some,ne_eq,empty,not_false_eq_true,
            if_true,Option.some.injEq] at served
          subst served
          exact .inr ⟨key,wanted,rfl,List.length_map _⟩
      | _ => cases served; left; simp [mostConjunctions]
  | all each =>
    rw [Filter.routed] at served
    split at served
    · cases served
    · split at served
      · cases served
      · cases served
        next product _ => exact .inl (multiplied_length (by decide) product)
  | any each =>
    rw [Filter.routed] at served
    split at served
    · cases served
    · split at served
      · cases served
      · split at served
        · cases served
          left; assumption
        · cases served
  | negated | refs | finished => cases served

-- What a bag of fields says to one term: the test the store is asked, a trimmed
-- equality, or else the key being carried.
def Term.answeredBy [Scalars] (term : Term) (fields : Fields) : Bool :=
  match term.ask,term.value with
  | some test,_ => Leaf.holds ⟨some term.key,test⟩ fields
  | none,some value => fields[term.key]?.any (fun held => trim held = trim value)
  | none,none => fields.contains term.key

def Routed.selects [Scalars] (routed : Routed) (fields : Fields) : Prop :=
  Answered (fun term => term.answeredBy fields = true) routed.anyOf

section
variable [Scalars] {lookup : Lookup} {subject : Subject} {fields : Fields}

-- The conjunctions lose no thing that holds, and when they are exact they find no other.
structure Serves (routed : Routed) (holds : Bool) (fields : Fields) : Prop where
  kept : holds = true → routed.selects fields
  found : routed.exact = true → routed.selects fields → holds = true

theorem allHold_iff : allHold lookup filters subject = true ↔
    ∀ child ∈ filters, child.holdsIn lookup subject = true := by
  induction filters with
  | nil => simp [allHold]
  | cons child rest ih => simp [allHold,ih]

theorem anyHolds_iff : anyHolds lookup filters subject = true ↔
    ∃ child ∈ filters, child.holdsIn lookup subject = true := by
  induction filters with
  | nil => simp [anyHolds]
  | cons child rest ih => simp [anyHolds,ih]

theorem leaf_serves (key : Text) (test : Test) (served : Leaf.routed ⟨some (trim key),test⟩ = some routed) :
    Serves routed (Leaf.holds ⟨some (trim key),test⟩ fields) fields := by
  have agree : ∀ held value : Text, (trim held = trim (trim value)) = (trim held = trim value) := by
    intro held value; rw [trim_trim]
  cases test with
  | isIn wanted =>
    by_cases empty : wanted = []
    · subst empty
      cases served
      constructor
      · intro holds
        cases held : fields[trim key]? <;> simp [Leaf.holds,Test.passes,held] at holds
      · intro exact; cases exact
    · simp only [Leaf.routed,trim_trim,ne_eq,empty,not_false_eq_true,if_true,Option.some.injEq] at served
      subst served
      have meet : Routed.selects ⟨wanted.map fun value => [⟨trim key,some (trim value),none⟩],true⟩ fields ↔
          Leaf.holds ⟨some (trim key),.isIn wanted⟩ fields = true := by
        rw [Routed.selects,answered_each]
        cases held : fields[trim key]? <;>
          simp [Leaf.holds,Test.passes,Term.answeredBy,equals_holds,held]
      exact ⟨meet.mpr,fun _ => meet.mp⟩
  | _ =>
    simp only [Leaf.routed,trim_trim,Option.some.injEq] at served
    subst served
    constructor
    · intro holds
      rw [Routed.selects,answered_single]
      simpa [Term.answeredBy,Leaf.holds,Test.passes,equals_holds,agree,Compare.holdsBetween] using holds
    · intro _ selected
      rw [Routed.selects,answered_single] at selected
      simpa [Term.answeredBy,Leaf.holds,Test.passes,equals_holds,agree,Compare.holdsBetween] using selected

theorem all_serves (each : ∀ child ∈ filters, ∀ served, child.routed = some served →
    Serves served (child.holdsIn lookup subject) subject.fields)
    (served : (Filter.all filters).routed = some routed) :
    Serves routed ((Filter.all filters).holdsIn lookup subject) subject.fields := by
  rw [Filter.routed] at served
  split at served
  · cases served
  next anyOf product =>
  split at served
  · cases served
  cases served
  have answered := multiplied_answered (fun term => term.answeredBy subject.fields = true) product
  simp only [answered_nothing_asked,true_and,mem_served] at answered
  rw [Filter.holdsIn]
  constructor
  · intro holds
    refine answered.mpr ?_
    rintro served ⟨child,member,found⟩
    exact (each child member served found).kept (allHold_iff.mp holds child member)
  · intro exact selected
    refine allHold_iff.mpr fun child member => ?_
    simp only [routedEach_eq,List.all_map,List.all_eq_true,Function.comp_apply] at exact
    obtain ⟨served,found,whole⟩ := Option.any_eq_true _ _ |>.mp (exact child member)
    exact (each child member served found).found whole (answered.mp selected served ⟨child,member,found⟩)

theorem any_serves (each : ∀ child ∈ filters, ∀ served, child.routed = some served →
    Serves served (child.holdsIn lookup subject) subject.fields)
    (served : (Filter.any filters).routed = some routed) :
    Serves routed ((Filter.any filters).holdsIn lookup subject) subject.fields := by
  rw [Filter.routed] at served
  split at served
  · cases served
  split at served
  · cases served
  next union =>
  split at served
  · cases served
    have answered := joined_answered (fun term => term.answeredBy subject.fields = true) union
    rw [Filter.holdsIn]
    constructor
    · intro holds
      obtain ⟨child,member,one⟩ := anyHolds_iff.mp holds
      obtain ⟨served,found,_⟩ := joined_each union child member
      exact answered.mpr ⟨child,member,served,found,(each child member served found).kept one⟩
    · intro exact selected
      obtain ⟨child,member,served,found,one⟩ := answered.mp selected
      obtain ⟨again,same,whole⟩ := joined_each union child member
      cases found.symm.trans same
      exact anyHolds_iff.mpr ⟨child,member,(each child member served found).found (whole exact) one⟩
  · cases served

theorem serves (built : filter.Built) (served : filter.routed = some routed) :
    Serves routed (filter.holdsIn lookup subject) subject.fields := by
  induction built generalizing routed with
  | leafOf key test =>
    cases key with
    | none => cases served
    | some key => rw [Filter.leafOf,Filter.holdsIn]; exact leaf_serves key test served
  | all each ih => exact all_serves (fun child member _ => ih child member) served
  | any each ih => exact any_serves (fun child member _ => ih child member) served
  | negated | refs | finished => cases served

def RoutesWithinBound (filter : Filter) : Prop :=
  ∀ routed, filter.routed = some routed →
    (∀ lookup subject, filter.holdsIn lookup subject = true → routed.selects subject.fields) ∧
    (routed.exact = true → ∀ lookup subject, routed.selects subject.fields →
      filter.holdsIn lookup subject = true) ∧
    routed.anyOf.length ≤ mostConjunctions

theorem routes_within_bound_iff (built : filter.Built) :
    RoutesWithinBound filter ↔
      ¬ ∃ key wanted, filter = .isIn key wanted ∧ mostConjunctions < wanted.length := by
  constructor
  · rintro within ⟨key,wanted,rfl,more⟩
    have some : wanted ≠ [] := by rintro rfl; simp at more
    have bound := (within ⟨wanted.map fun value => [⟨trim key,Option.some (trim value),none⟩],true⟩ (by
      simp [Filter.isIn,Filter.leafOf,Filter.routed,Leaf.routed,trim_trim,some])).2.2
    rw [List.length_map] at bound
    omega
  · intro small routed served
    refine ⟨fun lookup subject => (serves built served).kept,
      fun exact lookup subject => (serves built served).found exact,?_⟩
    rcases routed_length built served with bound | ⟨key,wanted,rfl,length⟩
    · exact bound
    · rw [length]
      by_contra more
      exact small ⟨key,wanted,rfl,by omega⟩

end

-- Seventeen values of one `in` are seventeen conjunctions.
theorem long_in_passes_the_bound :
    ¬ @RoutesWithinBound plainScalars (.isIn "tag".toList ("abcdefghijklmnopq".toList.map ([·]))) := by
  intro within
  exact absurd (within _ rfl).2.2 (by decide)

-- Two values of one key for each of three, and a child that no index serves.
def crossedLists : Filter :=
  .all [.isIn "tag".toList ["a".toList,"b".toList],
    .any [.equals "state".toList "open".toList,.isIn "owner".toList ["x".toList,"y".toList]],
    .negated (.exists "hidden".toList)]

example : crossedLists.routed.map (·.anyOf.length) = some 6 := by decide

theorem crossed_lists_route_within_bound : @RoutesWithinBound plainScalars crossedLists := by
  have built : crossedLists.Built := by
    refine .all ?_
    intro filter member
    fin_cases member
    · exact .leafOf _ _
    · refine .any ?_
      intro filter member
      fin_cases member <;> exact .leafOf _ _
    · exact .negated (.leafOf _ _)
  refine (@routes_within_bound_iff _ plainScalars built).mpr ?_
  intro long
  obtain ⟨_,_,same,_⟩ := long
  cases same

end Memory
