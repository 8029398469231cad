import Jojobot.Library.Chase
import Jojobot.Library.Text

namespace ClaimWalk
open Library Relation
variable {κ : Type} [DecidableEq κ]

-- The things (or the claim addresses) the loop passes through, in the order met.
structure MergeLoop (κ : Type) where
  things : List κ
deriving DecidableEq, Repr

-- `at` of the source is `stands` here, `at` being a word of Lean's.
structure ThingWalk (κ : Type) where
  stands : κ
  passed : List κ
  path : List κ
  looped : Option Nat
deriving DecidableEq, Repr

def ThingWalk.new (start : κ) : ThingWalk κ := ⟨start,[start],[start],none⟩

-- Take the survivor of the thing the walk stands at. True asks for another step.
def ThingWalk.step (walk : ThingWalk κ) (survivor : Option κ) : ThingWalk κ × Bool :=
  match survivor with
  | none => (walk,false)
  | some next =>
    if next ∈ walk.passed then ({walk with looped := walk.path.findIdx? (· = next)},false)
    else (⟨next,next::walk.passed,walk.path++[next],walk.looped⟩,true)

def ThingWalk.finish (walk : ThingWalk κ) : Except (MergeLoop κ) κ :=
  match walk.looped with
  | some start => .error ⟨walk.path.drop start⟩
  | none => .ok walk.stands

-- The source loops until a step says stop; `fuel` bounds the steps and `none` is
-- a walk cut off by it, which `followThing_answers` excludes.
def followFrom (survivorOf : κ → Except (MergeLoop κ) (Option κ)) :
    Nat → ThingWalk κ → Option (Except (MergeLoop κ) κ)
  | 0,_ => none
  | fuel+1,walk =>
    match survivorOf walk.stands with
    | .error looped => some (.error looped)
    | .ok survivor =>
      let (next,moved) := walk.step survivor
      if moved then followFrom survivorOf fuel next else some next.finish

def followThing (fuel : Nat) (start : κ) (survivorOf : κ → Except (MergeLoop κ) (Option κ)) :
    Option (Except (MergeLoop κ) κ) := followFrom survivorOf fuel (.new start)

structure MergeEvent (κ : Type) where
  folded : κ
  survivor : κ
deriving DecidableEq, Repr

-- The survivor of the newest event that folded the thing.
def survivorIn (events : List (MergeEvent κ)) (folded : κ) : Except (MergeLoop κ) (Option κ) :=
  .ok ((events.reverse.find? (·.folded = folded)).map (·.survivor))

-- The same answer without the error a store's read could give.
def survivorOf (events : List (MergeEvent κ)) (folded : κ) : Option κ :=
  (events.reverse.find? (·.folded = folded)).map (·.survivor)

variable {events : List (MergeEvent κ)} {walk : ThingWalk κ} {start folded survivor next : κ} {fuel : Nat}

theorem survivorIn_ok (events : List (MergeEvent κ)) (folded : κ) :
    survivorIn events folded = .ok (survivorOf events folded) := rfl

theorem survivorOf_event (found : survivorOf events folded = some survivor) :
    ∃ event ∈ events, event.folded = folded ∧ event.survivor = survivor := by
  obtain ⟨event,there,equal⟩ := Option.map_eq_some_iff.mp found
  exact ⟨event,by simpa using List.mem_of_find?_eq_some there,
    by simpa using List.find?_some there,equal⟩

theorem survivorOf_none : survivorOf events folded = none ↔ ∀ event ∈ events, event.folded ≠ folded := by
  simp [survivorOf,List.find?_eq_none]

theorem survivorOf_cons (event : MergeEvent κ) (rest : List (MergeEvent κ)) (folded : κ) :
    survivorOf (event::rest) folded =
      (survivorOf rest folded).or (if event.folded = folded then some event.survivor else none) := by
  unfold survivorOf
  rw [List.reverse_cons,List.find?_append,Option.map_or]
  congr 1
  by_cases equal : event.folded = folded <;> simp [equal]

-- What every walk keeps: each thing passed leads to where it stands, and the
-- things passed are distinct and come from the start and the events.
structure Walking (events : List (MergeEvent κ)) (start : κ) (walk : ThingWalk κ) : Prop where
  whole : walk.looped = none
  leads : ReflTransGen (Steps (survivorOf events)) start walk.stands
  reach : ∀ thing ∈ walk.passed, ReflTransGen (Steps (survivorOf events)) thing walk.stands
  distinct : walk.passed.Nodup
  known : walk.passed ⊆ start :: events.map (·.survivor)
  same : ∀ thing, thing ∈ walk.path ↔ thing ∈ walk.passed

theorem Walking.new (events : List (MergeEvent κ)) (start : κ) : Walking events start (.new start) :=
  ⟨rfl,.refl,by simp [ThingWalk.new,ReflTransGen.refl],by simp [ThingWalk.new],by simp [ThingWalk.new],
    by simp [ThingWalk.new]⟩

theorem Walking.bound (walking : Walking events start walk) : walk.passed.length ≤ events.length + 1 := by
  simpa using (walking.distinct.subperm walking.known).length_le

theorem Walking.step (walking : Walking events start walk)
    (found : survivorOf events walk.stands = some next) (fresh : next ∉ walk.passed) :
    Walking events start ⟨next,next::walk.passed,walk.path++[next],walk.looped⟩ := by
  have moved : ReflTransGen (Steps (survivorOf events)) walk.stands next := .single found
  refine ⟨walking.whole,walking.leads.trans moved,?_,?_,?_,?_⟩
  · intro thing member
    rcases List.mem_cons.mp member with rfl | old
    · exact .refl
    · exact (walking.reach thing old).trans moved
  · exact List.nodup_cons.mpr ⟨fresh,walking.distinct⟩
  · intro thing member
    rcases List.mem_cons.mp member with rfl | old
    · obtain ⟨event,there,_,rfl⟩ := survivorOf_event found
      exact List.mem_cons_of_mem _ (List.mem_map_of_mem there)
    · exact walking.known old
  · intro thing
    simp only [List.mem_append,List.mem_cons,walking.same,List.not_mem_nil,or_false]
    exact or_comm

-- One step past every event is fuel enough, and the answer is the end of the
-- walk unless the walk came back to a thing it had passed.
theorem followFrom_answers (walking : Walking events start walk)
    (enough : events.length + 1 < fuel + walk.passed.length) :
    ∃ answer, followFrom (survivorIn events) fuel walk = some answer ∧
      (∀ last, answer = .ok last → Ends (survivorOf events) start last) ∧
      (∀ looped, answer = .error looped → ∃ thing, TransGen (Steps (survivorOf events)) thing thing) := by
  induction fuel generalizing walk with
  | zero => have bound := walking.bound; omega
  | succ fuel ih =>
    unfold followFrom
    simp only [survivorIn_ok]
    cases found : survivorOf events walk.stands with
    | none =>
      refine ⟨.ok walk.stands,by simp [ThingWalk.step,ThingWalk.finish,walking.whole],?_,by simp⟩
      intro last equal
      cases equal
      exact ⟨walking.leads,found⟩
    | some next =>
      by_cases again : next ∈ walk.passed
      · have inPath := (walking.same next).mpr again
        obtain ⟨index,placed⟩ := Option.isSome_iff_exists.mp
          (show (walk.path.findIdx? (· = next)).isSome by simpa [List.findIdx?_isSome] using inPath)
        refine ⟨.error ⟨walk.path.drop index⟩,?_,by simp,?_⟩
        · simp [ThingWalk.step,again,ThingWalk.finish,placed]
        · intro _ _
          exact ⟨walk.stands,TransGen.head' found (walking.reach next again)⟩
      · obtain ⟨answer,ran,ends,loops⟩ := ih (walking.step found again)
          (by simp only [List.length_cons]; omega)
        exact ⟨answer,by simpa [ThingWalk.step,again] using ran,ends,loops⟩

theorem followThing_answers (events : List (MergeEvent κ)) (start : κ) (enough : events.length < fuel) :
    ∃ answer, followThing fuel start (survivorIn events) = some answer ∧
      (∀ last, answer = .ok last → Ends (survivorOf events) start last) ∧
      (∀ looped, answer = .error looped → ∃ thing, TransGen (Steps (survivorOf events)) thing thing) :=
  followFrom_answers (.new events start) (by simp only [ThingWalk.new,List.length_singleton]; omega)

theorem followThing_ends (unlooped : Unlooped (survivorOf events)) (start : κ) (enough : events.length < fuel) :
    ∃ last, followThing fuel start (survivorIn events) = some (.ok last) ∧ Ends (survivorOf events) start last := by
  obtain ⟨answer,ran,ends,loops⟩ := followThing_answers events start enough
  cases answer with
  | ok last => exact ⟨last,ran,ends last rfl⟩
  | error looped => obtain ⟨thing,loop⟩ := loops looped rfl; exact absurd loop (unlooped thing)

-- What a store keeps when it repoints at each merge: one event after the other.
def landing (events : List (MergeEvent κ)) (thing : κ) : κ :=
  events.foldl (fun standing event => if standing = event.folded then event.survivor else standing) thing

def FoldedOnce (events : List (MergeEvent κ)) : Prop := (events.map (·.folded)).Nodup

-- No event folds into a thing an earlier event had folded away.
def IntoStanding (events : List (MergeEvent κ)) : Prop :=
  events.Pairwise (fun earlier later => later.survivor ≠ earlier.folded)

theorem landing_ends (once : FoldedOnce events) (unlooped : Unlooped (survivorOf events))
    (standing : IntoStanding events) (thing : κ) : Ends (survivorOf events) thing (landing events thing) := by
  induction events generalizing thing with
  | nil => exact .here (by simp [survivorOf])
  | cons event rest ih =>
    obtain ⟨notAgain,restOnce⟩ := List.nodup_cons.mp once
    obtain ⟨notInto,restStanding⟩ := List.pairwise_cons.mp standing
    have unfolded : survivorOf rest event.folded = none :=
      survivorOf_none.mpr (fun other there equal => notAgain (List.mem_map.mpr ⟨other,there,equal⟩))
    have wider : ∀ a b, survivorOf rest a = some b → survivorOf (event::rest) a = some b := by
      intro a b step; rw [survivorOf_cons,step]; rfl
    have first : survivorOf (event::rest) event.folded = some event.survivor := by
      rw [survivorOf_cons,unfolded]; simp
    have restUnlooped : Unlooped (survivorOf rest) :=
      fun a loop => unlooped a (TransGen.mono wider a a loop)
    -- The walk over the later events never comes back to the folded thing.
    have later : ∀ start, start ≠ event.folded → Ends (survivorOf (event::rest)) start (landing rest start) := by
      intro start apart
      have ends := ih restOnce restUnlooped restStanding start
      refine ends.mono wider ?_
      rw [survivorOf_cons,ends.2]
      have away : event.folded ≠ landing rest start := by
        rcases ends.1.cases_tail with equal | ⟨before,_,step⟩
        · rw [equal]; exact apart.symm
        · obtain ⟨other,there,_,equal⟩ := survivorOf_event step
          rw [←equal]; exact (notInto other there).symm
      simp [away]
    by_cases equal : thing = event.folded
    · subst thing
      have apart : event.survivor ≠ event.folded := by
        intro same; exact unlooped event.folded (.single (by rw [Steps,first,same]))
      simpa [landing] using (later _ apart).head first
    · simpa [landing,equal] using later thing equal

end ClaimWalk
