import Jojobot.Fold.Held.Front

namespace Fold
open Library Memory Std

section
variable [Scalars]

-- One call of the maps' upkeep, and the documents it leaves: what each thing holds
-- now, and what was last put on for it.
inductive Call where
  | add (id : EntityId) (fields : Fields)
  | replace (id : EntityId) (old : Option Fields) (new : Fields)
  | remove (id : EntityId) (fields : Fields)

structure Documents where
  current : ExtTreeMap EntityId Fields
  last : ExtTreeMap EntityId Fields

def Call.run (held : Held) : Call → Held
  | .add id fields => held.add id fields
  | .replace id old new => held.replace id old new
  | .remove id fields => held.remove id fields

def Documents.putOn (documents : Documents) (id : EntityId) (fields : Fields) : Documents :=
  ⟨documents.current.insert id fields,documents.last.insert id fields⟩

def Documents.after (documents : Documents) : Call → Documents
  | .add id fields => documents.putOn id fields
  | .replace id _ new => documents.putOn id new
  | .remove id _ => { documents with current := documents.current.erase id }

-- Every removal is given the fields last put on for that thing.
def Call.GivenLast (documents : Documents) : Call → Prop
  | .add _ _ => True
  | .replace id old _ => ∀ fields, old = some fields → documents.last[id]? = some fields
  | .remove id fields => documents.last[id]? = some fields

-- Nothing is put on over what a thing still holds.
def Call.TakesOff (documents : Documents) : Call → Prop
  | .add id _ => documents.current[id]? = none
  | .replace id old _ => old = none → documents.current[id]? = none
  | .remove _ _ => True

inductive Run (types : List DeclaredType) : Held → Documents → Prop where
  | start : Run types (Held.declaring types) ⟨∅,∅⟩
  | call (before : Run types held documents) (call : Call) (given : call.GivenLast documents)
      (takes : call.TakesOff documents) : Run types (call.run held) (documents.after call)

variable {held : Held} {types : List DeclaredType} {documents : Documents} {call : Call}

-- What holds in every state of a run: the maps are the indexes of the current
-- documents, and a thing that is on holds what was last put on for it.
structure Upkept (types : List DeclaredType) (held : Held) (documents : Documents) : Prop where
  mirrors : held.Mirrors types (documents.current[·]?)
  last : ∀ (id : EntityId) (fields : Fields), documents.current[id]? = some fields → documents.last[id]? = some fields

omit [Scalars] in
theorem current_putOn (documents : Documents) (id : EntityId) (fields : Fields) :
    ((documents.putOn id fields).current[·]?) = Function.update (documents.current[·]?) id (some fields) := by
  funext other
  by_cases same : other = id
  · simp [Documents.putOn,same]
  · simp [Documents.putOn,ExtTreeMap.getElem?_insert,Function.update_of_ne same,Ne.symm same]

omit [Scalars] in
theorem current_erase (documents : Documents) (id : EntityId) :
    (((documents.current.erase id))[·]?) = Function.update (documents.current[·]?) id none := by
  funext other
  by_cases same : other = id
  · simp [same]
  · simp [ExtTreeMap.getElem?_erase,Function.update_of_ne same,Ne.symm same]

omit [Scalars] in
theorem last_putOn {id : EntityId} {fields : Fields}
    (last : ∀ (id : EntityId) (fields : Fields), documents.current[id]? = some fields → documents.last[id]? = some fields) :
    ∀ (other : EntityId) (on : Fields), (documents.putOn id fields).current[other]? = some on →
      (documents.putOn id fields).last[other]? = some on := by
  intro other on found
  simp only [Documents.putOn,ExtTreeMap.getElem?_insert] at found ⊢
  split
  · rwa [if_pos ‹_›] at found
  · rw [if_neg ‹_›] at found
    exact last other on found

theorem call_upkept (upkept : Upkept types held documents) (given : call.GivenLast documents)
    (takes : call.TakesOff documents) : Upkept types (call.run held) (documents.after call) := by
  obtain ⟨mirrors,last⟩ := upkept
  cases call with
  | add id fields =>
    refine ⟨?_,last_putOn last⟩
    change (held.add id fields).Mirrors types ((documents.putOn id fields).current[·]?)
    rw [current_putOn]
    exact mirrors.add fields takes
  | replace id old new =>
    refine ⟨?_,last_putOn last⟩
    change (held.replace id old new).Mirrors types ((documents.putOn id new).current[·]?)
    rw [current_putOn]
    cases old with
    | none => exact mirrors.add new (takes rfl)
    | some old =>
      have off := mirrors.remove id old (fun on there => by
        have same := last id on there
        rw [given old rfl] at same
        exact (Option.some.inj same).symm)
      have free : Function.update (documents.current[·]?) id none id = none := by simp
      have on := off.add new free
      rwa [Function.update_idem] at on
  | remove id fields =>
    refine ⟨?_,?_⟩
    · change (held.remove id fields).Mirrors types ((documents.current.erase id)[·]?)
      rw [current_erase]
      refine mirrors.remove id fields fun on there => ?_
      have same := last id on there
      rw [show documents.last[id]? = some fields from given] at same
      exact (Option.some.inj same).symm
    · intro other on found
      simp only [Documents.after,ExtTreeMap.getElem?_erase] at found
      split at found
      · cases found
      · exact last other on found

theorem run_upkept (run : Run types held documents) : Upkept types held documents := by
  induction run with
  | start =>
    refine ⟨?_,by simp⟩
    have bare := declaring_mirrors types
    simpa using bare
  | call _ call given takes ih => exact call_upkept ih given takes

-- Some type declares the key as this one, and it is one an ordering reads.
def Declares (types : List DeclaredType) (key : Text) (holds : ValueType) : Prop :=
  (Placing.of holds).isSome = true ∧ ∃ type ∈ types, ∃ field ∈ type.fields, field.key = key ∧ field.holds = holds

theorem declares_iff {key : Text} {holds : ValueType} : Declares types key holds ↔
    ∃ placing, Placing.of holds = some placing ∧
      (Held.declaring types).declared.contains (toLex (key,placing)) = true := by
  have one : ∀ (other : ValueType) (placing : Placing), Placing.of holds = some placing →
      (Placing.of other = some placing ↔ other = holds) := by
    intro other placing placed
    cases holds <;> cases placed <;> cases other <;> simp [Placing.of]
  have contains : ∀ placing, (Held.declaring types).declared.contains (toLex (key,placing)) = true ↔
      ∃ type ∈ types, ∃ field ∈ type.fields, field.key = key ∧ Placing.of field.holds = some placing := by
    intro placing
    simp only [Held.declaring,ExtTreeSet.contains_iff_mem,ExtTreeSet.mem_ofList,List.contains_iff_mem,
      List.mem_filterMap,List.mem_flatMap,Option.map_eq_some_iff]
    constructor
    · rintro ⟨field,⟨type,member,among⟩,placing,placed,same⟩
      cases same
      exact ⟨type,member,field,among,rfl,placed⟩
    · rintro ⟨type,member,field,among,rfl,placed⟩
      exact ⟨field,⟨type,member,among⟩,placing,placed,rfl⟩
  constructor
  · rintro ⟨ordered,type,member,field,among,named,same⟩
    obtain ⟨placing,placed⟩ := Option.isSome_iff_exists.mp ordered
    exact ⟨placing,placed,(contains placing).mpr ⟨type,member,field,among,named,same ▸ placed⟩⟩
  · rintro ⟨placing,placed,there⟩
    obtain ⟨type,member,field,among,named,same⟩ := (contains placing).mp there
    exact ⟨by simp [placed],type,member,field,among,named,(one _ _ placed).mp same⟩

-- After any history of upkeep the maps are what a build over the current documents
-- makes, in whatever order it reads them, and each answer is the evaluator's.
theorem run_answers (run : Run types held documents) :
    (∀ order : List (EntityId × Fields), order.Perm documents.current.toList → held = Held.build types order) ∧
    (∀ key test holders, held.holding key test = some holders →
      ∀ id, id ∈ holders ↔ ∃ fields, documents.current[id]? = some fields ∧
        Leaf.holds ⟨some key,test⟩ fields = true) ∧
    (∀ key holds direction k counts,
      (held.front key holds direction k counts = none ↔ ¬ Declares types key holds) ∧
      ∀ things : List (Orderable × EntityId × Text),
      things.Perm (placedThings documents.current counts key holds) →
      ∀ front, held.front key holds direction k counts = some front →
        front.cut = (headOf things direction k).cut ∧
        front.placed.map (fun one => (one.1,some one.2)) =
          (headOf things direction k).head.map fun one => (one.1,Orderable.readToOrder holds one.2)) := by
  have mirrors := (run_upkept run).mirrors
  refine ⟨fun order all => mirrors.unique (build_mirrors all),
    fun key test holders answered id => mirrors.holding answered,?_⟩
  intro key holds direction k counts
  rw [declares_iff,← mirrors.declared]
  by_cases answers : ∃ placing, Placing.of holds = some placing ∧
      held.declared.contains (toLex (key,placing)) = true
  · obtain ⟨placing,placed,declared⟩ := answers
    obtain ⟨given,found,_⟩ := mirrors.front direction k counts placed declared (.refl _)
    have answers : held.front key holds direction k counts ≠ none := by rw [found]; simp
    refine ⟨⟨fun silent => (answers silent).elim,fun undeclared => (undeclared ⟨placing,placed,declared⟩).elim⟩,?_⟩
    intro things all front answered
    obtain ⟨same,again,cut,head⟩ := mirrors.front direction k counts placed declared all
    cases answered.symm.trans again
    exact ⟨cut,head⟩
  · have silent : held.front key holds direction k counts = none := by
      cases placed : Placing.of holds with
      | none => simp [Held.front,placed]
      | some placing =>
        have undeclared : held.declared.contains (toLex (key,placing)) = false := by
          exact Bool.eq_false_iff.mpr fun declared => answers ⟨placing,placed,declared⟩
        simp [Held.front,placed,undeclared]
    exact ⟨⟨fun _ => answers,fun _ => silent⟩,by simp [silent]⟩

end

def ranked : List DeclaredType := [⟨"task".toList,[⟨"rank".toList,.number,false⟩]⟩]
def firstRank : Fields := {("rank".toList,"3".toList)}
def nextRank : Fields := {("rank".toList,"7".toList),("tags".toList,"a, b".toList)}

theorem run_answers_after_a_replace :
    let calls : List Call := [.add "x".toList firstRank,.replace "x".toList (some firstRank) nextRank]
    calls.foldl (@Call.run plainScalars) (@Held.declaring plainScalars ranked) =
      @Held.build plainScalars ranked [("x".toList,nextRank)] := by
  have first := @Run.call plainScalars _ _ _ (@Run.start plainScalars ranked) (.add "x".toList firstRank)
    trivial (by simp [Call.TakesOff])
  have second := @Run.call plainScalars _ _ _ first (.replace "x".toList (some firstRank) nextRank)
    (by intro fields same; cases same; simp [Documents.after,Documents.putOn]) (by intro none; cases none)
  exact (@run_answers plainScalars _ _ _ second).1 [("x".toList,nextRank)] (.of_eq rfl)

-- Putting on over what is still held leaves the old value in the maps: nothing takes
-- it off, and no removal was asked to.
theorem added_over_is_not_a_build :
    let calls : List Call := [.add "x".toList firstRank,.add "x".toList ∅]
    (∀ documents, ∀ call ∈ calls, call.GivenLast documents) ∧
    calls.foldl (@Call.run plainScalars) (@Held.declaring plainScalars ranked) ≠
      @Held.build plainScalars ranked (calls.foldl Documents.after ⟨∅,∅⟩).current.toList := by
  refine ⟨?_,?_⟩
  · simp [Call.GivenLast]
  · intro same
    have carriers := congrArg (fun held => (@Held.carriers plainScalars held)["rank".toList]?.isSome) same
    revert carriers
    decide

end Fold
