import Jojobot.Memory.Filter
import Jojobot.Library.Chase

namespace Memory
open Library Relation

def dependsOn : Text := "depends_on".toList
def waitingOn : Text := "waiting_on".toList

-- What a view asks about readiness.
inductive Ask where
  | ready
  | plan
  deriving DecidableEq

-- Why one dependency does not let the work start.
inductive Why where
  | unfinished
  | archived
  | dangling
  deriving DecidableEq

inductive Blocker where
  | finished
  | archived
  | dependency (handle : Text) (why : Why)
  | waitingOn (waiting : Text)
  deriving DecidableEq

def Blocker.ends : Blocker → Bool
  | .finished => true
  | .archived => true
  | _ => false

def Ask.keeps (ask : Ask) (ready : Bool) (blockers : List Blocker) : Bool :=
  match ask with
  | .ready => ready
  | .plan => !blockers.any Blocker.ends

def dependencies : Filter := .refs dependsOn .all .finished

def tree : Filter := .all [.negated .finished,dependencies,.negated (.exists waitingOn)]

section
variable [Scalars]

def whyOf (lookup : Lookup) (handle : Text) : Option Why :=
  match lookup.thing handle with
  | none => some .dangling
  | some named =>
    if named.archived then some .archived
    else if !Filter.finished.holdsIn lookup named then some .unfinished
    else none

def heldItems (subject : Subject) : List Text := listItems (subject.fields[dependsOn]?.getD [])

def blockedBy (subject : Subject) (lookup : Lookup) : List Blocker :=
  (if subject.archived then [.archived] else []) ++
    (if Filter.finished.holdsIn lookup subject then [.finished] else []) ++
    (heldItems subject).filterMap (fun handle => (whyOf lookup handle).map (.dependency handle)) ++
    (match subject.fields[waitingOn]? with
    | some waiting => [.waitingOn waiting]
    | none => [])

def isReady (subject : Subject) (lookup : Lookup) : Bool := !subject.archived && tree.holdsIn lookup subject

variable {subject named : Subject} {lookup : Lookup} {handle : Text}

-- Nothing is said of a dependency exactly when it is there and finished.
theorem whyOf_eq_none : whyOf lookup handle = none ↔
    ∃ named, lookup.thing handle = some named ∧ Filter.finished.holdsIn lookup named = true := by
  unfold whyOf
  cases found : lookup.thing handle with
  | none => simp
  | some named =>
    cases away : named.archived with
    | true => simp [away,Filter.holdsIn]
    | false => cases done : Filter.finished.holdsIn lookup named <;> simp [away,done]

theorem dependencies_holds : dependencies.holdsIn lookup subject = true ↔ ∀ handle ∈ heldItems subject, whyOf lookup handle = none := by
  simp only [dependencies,Filter.holdsIn,List.all_eq_true,heldItems,whyOf_eq_none]
  refine forall₂_congr fun handle _ => ?_
  cases lookup.thing handle <;> simp

theorem waiting_free (lookup : Lookup) : (Filter.exists waitingOn).holdsIn lookup subject = false ↔ subject.fields[waitingOn]? = none := by
  have key : trim waitingOn = waitingOn := by decide +kernel
  simp only [Filter.exists,Filter.leafOf,Option.map_some,key,Filter.holdsIn,Leaf.holds,
    Std.ExtTreeMap.contains_eq_isSome_getElem?,Option.isSome_eq_false_iff,Option.isNone_iff_eq_none]

theorem isReady_iff : isReady subject lookup = true ↔ subject.archived = false ∧
    Filter.finished.holdsIn lookup subject = false ∧ (∀ handle ∈ heldItems subject, whyOf lookup handle = none) ∧
      subject.fields[waitingOn]? = none := by
  have reads : tree.holdsIn lookup subject = (!Filter.finished.holdsIn lookup subject &&
      (dependencies.holdsIn lookup subject && !(Filter.exists waitingOn).holdsIn lookup subject)) := by
    simp only [tree,Filter.negated,Filter.holdsIn,allHold,Bool.and_true]
  rw [isReady,reads,← dependencies_holds,← waiting_free lookup]
  simp only [Bool.and_eq_true,Bool.not_eq_true']

theorem blockedBy_eq_nil : blockedBy subject lookup = [] ↔ subject.archived = false ∧
    Filter.finished.holdsIn lookup subject = false ∧ (∀ handle ∈ heldItems subject, whyOf lookup handle = none) ∧
      subject.fields[waitingOn]? = none := by
  have quiet : (heldItems subject).filterMap (fun handle => (whyOf lookup handle).map (Blocker.dependency handle)) = [] ↔
      ∀ handle ∈ heldItems subject, whyOf lookup handle = none := by
    simp [List.filterMap_eq_nil_iff]
  unfold blockedBy
  simp only [List.append_eq_nil_iff,quiet,and_assoc]
  cases subject.archived <;> cases Filter.finished.holdsIn lookup subject <;> cases subject.fields[waitingOn]? <;> simp

theorem dependency_blocks : (∃ why, Blocker.dependency handle why ∈ blockedBy subject lookup) ↔
    handle ∈ heldItems subject ∧ whyOf lookup handle ≠ none := by
  have away : ∀ why, Blocker.dependency handle why ∉ (if subject.archived then [Blocker.archived] else []) ∧
      Blocker.dependency handle why ∉ (if Filter.finished.holdsIn lookup subject then [Blocker.finished] else []) ∧
      Blocker.dependency handle why ∉ (match subject.fields[waitingOn]? with
        | some waiting => [Blocker.waitingOn waiting]
        | none => []) := by
    intro why
    refine ⟨?_,?_,?_⟩
    · split <;> simp
    · split <;> simp
    · split <;> simp
  have listed : ∀ why, Blocker.dependency handle why ∈
      (heldItems subject).filterMap (fun handle => (whyOf lookup handle).map (Blocker.dependency handle)) ↔
        handle ∈ heldItems subject ∧ whyOf lookup handle = some why := by
    intro why
    simp only [List.mem_filterMap,Option.map_eq_some_iff,Blocker.dependency.injEq]
    constructor
    · rintro ⟨one,member,_,same,rfl,rfl⟩
      exact ⟨member,same⟩
    · rintro ⟨member,same⟩
      exact ⟨handle,member,why,same,rfl,rfl⟩
  simp only [blockedBy,List.mem_append,listed,away,false_or,or_false,exists_and_left,Option.ne_none_iff_exists']

-- One item of a list is the whole of a list of its own.
omit [Scalars] in
theorem listItems_item (item : handle ∈ heldItems subject) : listItems handle = [handle] := by
  obtain ⟨member,filled⟩ := List.mem_filter.mp item
  have same : trim handle = handle := splitItems_trimmed member
  rw [listItems,splitItems_plain (splitItems_clean member),same]
  simpa using filled

def alone (subject : Subject) (handle : Text) : Subject := { subject with fields := subject.fields.insert dependsOn handle }

theorem alone_fails (item : handle ∈ heldItems subject) :
    dependencies.holdsIn lookup (alone subject handle) = false ↔ whyOf lookup handle ≠ none := by
  have held : heldItems (alone subject handle) = [handle] := by
    simp only [heldItems,alone,Std.ExtTreeMap.getElem?_insert_self,Option.getD_some,listItems_item item]
  rw [← Bool.not_eq_true,dependencies_holds,held]
  simp

-- The relation the items of every thing's list make.
def Needs (lookup : Lookup) (handle item : Text) : Prop := ∃ named, lookup.thing handle = some named ∧ item ∈ heldItems named

theorem readiness_and_its_reasons_agree (lookup : Lookup) :
    (∀ subject, (isReady subject lookup = true ↔ blockedBy subject lookup = []) ∧
      (∀ handle ∈ heldItems subject, (∃ why, Blocker.dependency handle why ∈ blockedBy subject lookup) ↔
        dependencies.holdsIn lookup (alone subject handle) = false) ∧
      (Ask.ready.keeps (isReady subject lookup) (blockedBy subject lookup) = true →
        Ask.plan.keeps (isReady subject lookup) (blockedBy subject lookup) = true)) ∧
    ({handle | lookup.thing handle ≠ none}.Finite →
      (∀ handle named, lookup.thing handle = some named → named.archived = false ∧ named.fields[waitingOn]? = none ∧
        ∀ item ∈ heldItems named, lookup.thing item ≠ none) →
      (∀ handle, ¬TransGen (Needs lookup) handle handle) →
      (∀ handle named, lookup.thing handle = some named → Filter.finished.holdsIn lookup named = true) ∨
        ∃ handle named, lookup.thing handle = some named ∧ isReady named lookup = true) := by
  refine ⟨?_,?_⟩
  · intro subject
    refine ⟨isReady_iff.trans blockedBy_eq_nil.symm,?_,?_⟩
    · intro handle item
      rw [dependency_blocks,alone_fails item]
      exact and_iff_right item
    · intro ready
      have free : blockedBy subject lookup = [] := blockedBy_eq_nil.mpr (isReady_iff.mp ready)
      simp [Ask.keeps,free]
  · intro finite plain acyclic
    by_cases every : ∀ handle named, lookup.thing handle = some named → Filter.finished.holdsIn lookup named = true
    · exact Or.inl every
    · right
      push Not at every
      obtain ⟨handle,named,found,unfinished⟩ := every
      obtain ⟨last,⟨left,there,open'⟩,least⟩ := least_of_acyclic acyclic
        (s := {handle | ∃ named, lookup.thing handle = some named ∧ Filter.finished.holdsIn lookup named ≠ true})
        (finite.subset (by rintro handle ⟨named,found,_⟩; simp [found])) ⟨handle,named,found,unfinished⟩
      obtain ⟨present,waiting,answered⟩ := plain last left there
      refine ⟨last,left,there,isReady_iff.mpr ⟨present,by simpa using open',?_,waiting⟩⟩
      intro item member
      obtain ⟨needed,known⟩ := Option.ne_none_iff_exists'.mp (answered item member)
      refine whyOf_eq_none.mpr ⟨needed,known,?_⟩
      by_contra unfinished
      exact least item ⟨needed,known,unfinished⟩ ⟨left,there,member⟩

end

-- A plan of two steps: the second needs the first, which is done.
def firstStep : Subject := ⟨"work".toList,(∅ : Fields).insert statusKey finished,false⟩
def secondStep : Subject := ⟨"work".toList,(∅ : Fields).insert dependsOn ['a'],false⟩
def twoSteps : Lookup := ⟨fun handle => if handle = ['a'] then some firstStep else if handle = ['b'] then some secondStep else none,∅⟩

theorem twoSteps_cases {handle : Text} {named : Subject} (found : twoSteps.thing handle = some named) :
    handle = ['a'] ∧ named = firstStep ∨ handle = ['b'] ∧ named = secondStep := by
  simp only [twoSteps] at found
  split at found
  · exact Or.inl ⟨by assumption,(Option.some.inj found).symm⟩
  · split at found
    · exact Or.inr ⟨by assumption,(Option.some.inj found).symm⟩
    · cases found

theorem firstStep_free : heldItems firstStep = [] := by
  have other : firstStep.fields[dependsOn]? = none := by decide +kernel
  rw [heldItems,other]
  rfl

theorem secondStep_needs : heldItems secondStep = [['a']] := by decide +kernel

theorem twoSteps_needs {handle item : Text} (needs : Needs twoSteps handle item) : handle = ['b'] ∧ item = ['a'] := by
  obtain ⟨named,found,member⟩ := needs
  rcases twoSteps_cases found with ⟨rfl,rfl⟩ | ⟨rfl,rfl⟩
  · rw [firstStep_free] at member
    cases member
  · rw [secondStep_needs] at member
    exact ⟨rfl,List.mem_singleton.mp member⟩

theorem a_plan_goes_on : ∃ handle named, twoSteps.thing handle = some named ∧ @isReady plainScalars named twoSteps = true := by
  have finite : {handle | twoSteps.thing handle ≠ none}.Finite := by
    refine (Set.toFinite {['a'],['b']}).subset ?_
    intro handle known
    obtain ⟨named,found⟩ := Option.ne_none_iff_exists'.mp known
    rcases twoSteps_cases found with ⟨rfl,_⟩ | ⟨rfl,_⟩ <;> simp
  have plain : ∀ handle named, twoSteps.thing handle = some named → named.archived = false ∧ named.fields[waitingOn]? = none ∧
      ∀ item ∈ heldItems named, twoSteps.thing item ≠ none := by
    intro handle named found
    rcases twoSteps_cases found with ⟨rfl,rfl⟩ | ⟨rfl,rfl⟩
    · exact ⟨rfl,by decide +kernel,by simp [firstStep_free]⟩
    · exact ⟨rfl,by decide +kernel,by simp [secondStep_needs,twoSteps]⟩
  have acyclic : ∀ handle, ¬TransGen (Needs twoSteps) handle handle := by
    intro handle path
    obtain ⟨_,first,_⟩ := TransGen.head'_iff.mp path
    obtain ⟨_,_,last⟩ := TransGen.tail'_iff.mp path
    have one := (twoSteps_needs first).1.symm.trans (twoSteps_needs last).2
    cases one
  rcases (@readiness_and_its_reasons_agree plainScalars twoSteps).2 finite plain acyclic with every | some
  · have done := every ['b'] secondStep rfl
    have still : @Filter.holdsIn plainScalars twoSteps .finished secondStep = false := by decide +kernel
    rw [still] at done
    cases done
  · exact some

end Memory
