import Jojobot.Library.KeepFirst
import Jojobot.Memory.ClaimWalk

namespace AtWrite
open Library Relation ClaimWalk

-- What marks a resolved mention in stored text.
def mark : Text := "@#".toList

-- A permanent id as a store draws it: a word no list value takes apart.
structure PermanentId where
  text : Text
  named : text ≠ []
  trimmed : Trimmed text
  whole : ',' ∉ text

def spelled (event : MergeEvent PermanentId) : MergeEvent Text := ⟨event.folded.text,event.survivor.text⟩

def markedStoredHandle (id : Text) : Text := mark ++ id

def storedHandleId (item : Text) : Option Text := mark.isPrefixOf? (trim item)

-- `targets.sort(); targets.dedup();` of the source.
def fieldLinkTargets (value : Text) : List Text :=
  (((value.splitOn ',').filterMap storedHandleId).filter (· ≠ [])).insertionSort (· ≤ ·) |>.eraseReps

def repointItem (source target : Text) (raw : Text) : Option Text × Text :=
  let item := trim raw
  match storedHandleId item with
  | some id => if id = source then (some target,markedStoredHandle target) else (some id,item)
  | none => (none,item)

-- The `seen` and `kept` loop of the source is `keepFirst` of the library.
def repointFieldValue (value source target : Text) : Option Text :=
  if (fieldLinkTargets value).any (· = source) then
    some (joinItems ((keepFirst Prod.fst [] ((value.splitOn ',').map (repointItem source target))).map Prod.snd))
  else none

-- One target of the loop in `forward_field_value`, over what is forwarded so far.
def forwardTarget (fuel : Nat) (survivor : Text → Except (MergeLoop Text) (Option Text))
    (state : Text × Bool) (target : Text) : Option (Except (MergeLoop Text) (Text × Bool)) :=
  match followThing fuel target survivor with
  | none => none
  | some (.error looped) => some (.error looped)
  | some (.ok last) =>
    if last = target then some (.ok state)
    else match repointFieldValue state.1 target last with
      | some now => some (.ok (now,true))
      | none => some (.ok state)

def forwardTargets (fuel : Nat) (survivor : Text → Except (MergeLoop Text) (Option Text)) :
    Text × Bool → List Text → Option (Except (MergeLoop Text) (Text × Bool))
  | state,[] => some (.ok state)
  | state,target::rest =>
    match forwardTarget fuel survivor state target with
    | none => none
    | some (.error looped) => some (.error looped)
    | some (.ok next) => forwardTargets fuel survivor next rest

-- `none` outside is a walk cut off by the fuel, which no walk over events is.
def forwardFieldValue (fuel : Nat) (value : Text)
    (survivor : Text → Except (MergeLoop Text) (Option Text)) :
    Option (Except (MergeLoop Text) (Option Text)) :=
  match forwardTargets fuel survivor (value,false) (fieldLinkTargets value) with
  | none => none
  | some (.error looped) => some (.error looped)
  | some (.ok (forwarded,changed)) => some (.ok (if changed then some forwarded else none))

-- What a store that repoints at every merge comes to hold, and `none` when no
-- merge changed the value.
def repointAtEach (value : Text) (events : List (MergeEvent Text)) : Option Text :=
  events.foldl (fun changed event =>
    (repointFieldValue (changed.getD value) event.folded event.survivor).or changed) none

example : repointFieldValue "@#a, loose,@#b".toList "a".toList "b".toList = some "@#b, loose".toList := by
  decide

-- A link spelled with the name `move` sends its thing to; loose text as it is.
def served (move : Text → Text) (item : Text) : Text :=
  match storedHandleId item with
  | some id => markedStoredHandle (move id)
  | none => item

-- The items of a value once every link is sent on and each thing is named once.
def pass (move : Text → Text) (items : List Text) : List Text :=
  keepFirst storedHandleId [] (items.map (served move))

def redirect (source target id : Text) : Text := if id = source then target else id

-- An id that is read back from the item it is marked in.
def Tidy (id : Text) : Prop := Trimmed (markedStoredHandle id) ∧ ',' ∉ id

variable {value item id source target : Text} {items : List Text} {move other : Text → Text}

theorem storedHandleId_some : storedHandleId item = some id ↔ trim item = markedStoredHandle id := by
  rw [storedHandleId,List.isPrefixOf?_eq_some_iff_append_eq,markedStoredHandle]
  exact eq_comm

theorem storedHandleId_trim (item : Text) : storedHandleId (trim item) = storedHandleId item := by
  rw [storedHandleId,trim_trim]; rfl

theorem storedHandleId_marked (tidy : Tidy id) : storedHandleId (markedStoredHandle id) = some id :=
  storedHandleId_some.mpr tidy.1

theorem tidy_of_item (member : item ∈ splitItems value) (named : storedHandleId item = some id) : Tidy id := by
  have shape := storedHandleId_some.mp named
  rw [show trim item = item from splitItems_trimmed member] at shape
  have clean := splitItems_clean member
  refine ⟨shape ▸ splitItems_trimmed member,fun comma => clean ?_⟩
  rw [shape]
  exact List.mem_append_right _ comma

theorem PermanentId.tidy (id : PermanentId) : Tidy id.text := by
  refine ⟨trimmed_iff.mpr ⟨?_,?_⟩,id.whole⟩
  · intro c found
    cases (show some '@' = some c from found)
    decide
  · intro c found
    obtain ⟨first,rest,shape⟩ := List.exists_cons_of_ne_nil id.named
    apply (trimmed_iff.mp id.trimmed).2
    rwa [markedStoredHandle,shape,List.getLast?_append_cons,←shape] at found

theorem served_named (move : Text → Text) (named : storedHandleId item = some id) :
    served move item = markedStoredHandle (move id) := by simp [served,named]

theorem served_unnamed (move : Text → Text) (loose : storedHandleId item = none) : served move item = item := by
  simp [served,loose]

theorem served_congr (same : ∀ id, storedHandleId item = some id → move id = other id) :
    served move item = served other item := by
  unfold served
  split
  · rename_i id named; rw [same id named]
  · rfl

theorem pass_congr (same : ∀ item ∈ items, ∀ id, storedHandleId item = some id → move id = other id) :
    pass move items = pass other items := by
  unfold pass
  rw [List.map_congr_left (fun item member => served_congr (same item member))]

-- What `pass` leaves is read back from the value it is joined to.
def Keeps (move : Text → Text) (items : List Text) : Prop :=
  ∀ item ∈ items, ∀ id, storedHandleId item = some id → Tidy (move id)

theorem pass_plain (shape : ∀ item ∈ items, Trimmed item ∧ ',' ∉ item) (keeps : Keeps move items) :
    ∀ item ∈ pass move items, Trimmed item ∧ ',' ∉ item := by
  intro item member
  obtain ⟨old,there,rfl⟩ := List.mem_map.mp ((keepFirst_sublist ..).subset member)
  unfold served
  split
  · rename_i id named
    have tidy := keeps old there id named
    refine ⟨tidy.1,?_⟩
    simp [markedStoredHandle,mark,tidy.2]
  · exact shape old there

theorem splitItems_pass (filled : items ≠ []) (shape : ∀ item ∈ items, Trimmed item ∧ ',' ∉ item)
    (keeps : Keeps move items) : splitItems (joinItems (pass move items)) = pass move items :=
  splitItems_joinItems (keepFirst_ne_nil _ (by simpa using filled)) (pass_plain shape keeps)

theorem name_served (keeps : Keeps move items) (member : item ∈ items) :
    storedHandleId (served move item) = (storedHandleId item).map move := by
  unfold served
  split
  · rename_i id named; simp [named,storedHandleId_marked (keeps item member id named)]
  · rename_i loose; simp [loose]

theorem unmarked_served (keeps : Keeps move items) :
    (items.map (served move)).filter (fun item => (storedHandleId item).isNone) =
      items.filter (fun item => (storedHandleId item).isNone) := by
  induction items with
  | nil => rfl
  | cons item rest ih =>
    have tail := ih (fun other there => keeps other (List.mem_cons_of_mem _ there))
    rw [List.map_cons,List.filter_cons,List.filter_cons,tail,name_served keeps (by simp)]
    cases named : storedHandleId item with
    | none => simp [served_unnamed _ named]
    | some id => simp

theorem names_pass (keeps : Keeps move items) (id : Text) :
    id ∈ (pass move items).filterMap storedHandleId ↔
      ∃ old ∈ items.filterMap storedHandleId, move old = id := by
  rw [pass,keepFirst_mem]
  simp only [List.mem_filterMap,List.mem_map,exists_exists_and_eq_and]
  constructor
  · rintro ⟨item,member,named⟩
    rw [name_served keeps member] at named
    obtain ⟨old,was,rfl⟩ := Option.map_eq_some_iff.mp named
    exact ⟨old,⟨item,member,was⟩,rfl⟩
  · rintro ⟨old,⟨item,member,was⟩,rfl⟩
    exact ⟨item,member,by rw [name_served keeps member,was]; rfl⟩

theorem pass_pass (first : Keeps move items) (second : Keeps (other ∘ move) items) :
    pass other (pass move items) = pass (other ∘ move) items := by
  have rewritten : ∀ item ∈ items, served other (served move item) = served (other ∘ move) item := by
    intro item member
    cases named : storedHandleId item with
    | none => rw [served_unnamed _ named,served_unnamed _ named,served_unnamed _ named]
    | some id =>
      rw [served_named move named,served_named _ named,
        served_named _ (storedHandleId_marked (first item member id named))]
      rfl
  rw [pass,pass,keepFirst_map_keepFirst,List.map_map]
  · rw [List.map_congr_left (g := served (other ∘ move)) (by simpa using rewritten)]
    rfl
  · intro x hx y hy id namedX namedY
    obtain ⟨a,ha,rfl⟩ := List.mem_map.mp hx
    obtain ⟨b,hb,rfl⟩ := List.mem_map.mp hy
    rw [name_served first ha] at namedX
    rw [name_served first hb] at namedY
    refine ⟨other id,?_,?_⟩
    · rw [rewritten a ha,name_served second ha,←Option.map_map,namedX]; rfl
    · rw [rewritten b hb,name_served second hb,←Option.map_map,namedY]; rfl

theorem mem_fieldLinkTargets : id ∈ fieldLinkTargets value ↔
    id ≠ [] ∧ id ∈ (splitItems value).filterMap storedHandleId := by
  have read : (value.splitOn ',').filterMap storedHandleId = (splitItems value).filterMap storedHandleId := by
    rw [splitItems,List.filterMap_map]
    exact List.filterMap_congr (fun item _ => (storedHandleId_trim item).symm)
  rw [fieldLinkTargets,mem_eraseReps,List.mem_insertionSort,List.mem_filter,read]
  simp [and_comm]

theorem repointItem_served (source target : Text) (raw : Text) (kept : Tidy target) :
    repointItem source target raw =
      (storedHandleId (served (redirect source target) (trim raw)),served (redirect source target) (trim raw)) := by
  unfold repointItem
  dsimp only
  rw [storedHandleId_trim]
  cases named : storedHandleId raw with
  | none =>
    have loose : storedHandleId (trim raw) = none := by rw [storedHandleId_trim,named]
    simp [served_unnamed _ loose,loose]
  | some id =>
    have linked : storedHandleId (trim raw) = some id := by rw [storedHandleId_trim,named]
    have shape : trim raw = markedStoredHandle id := storedHandleId_some.mp named
    rw [served_named _ linked]
    by_cases equal : id = source
    · simp [redirect,equal,storedHandleId_marked kept]
    · simp [redirect,equal,←shape,linked]

-- A repoint is one pass that sends `source` to `target`, made only when a link
-- names `source`.
theorem repointFieldValue_pass (kept : Tidy target) (value source : Text) :
    repointFieldValue value source target =
      if source ∈ fieldLinkTargets value then
        some (joinItems (pass (redirect source target) (splitItems value)))
      else none := by
  have names : (value.splitOn ',').map (repointItem source target) =
      (splitItems value).map (fun item => (storedHandleId (served (redirect source target) item),
        served (redirect source target) item)) := by
    rw [splitItems,List.map_map]
    exact List.map_congr_left (fun raw _ => repointItem_served source target raw kept)
  unfold repointFieldValue
  rw [names,keepFirst_map,List.map_map]
  unfold pass
  rw [keepFirst_map]
  simp [Function.comp_def]

theorem items_shape (value : Text) : ∀ item ∈ splitItems value, Trimmed item ∧ ',' ∉ item :=
  fun _ member => ⟨splitItems_trimmed member,splitItems_clean member⟩

theorem keeps_of_tidy (tidy : ∀ id, Tidy id → Tidy (move id)) (value : Text) : Keeps move (splitItems value) :=
  fun _ member _ named => tidy _ (tidy_of_item member named)

theorem items_of_pass (tidy : ∀ id, Tidy id → Tidy (move id)) (value : Text) :
    splitItems (joinItems (pass move (splitItems value))) = pass move (splitItems value) :=
  splitItems_pass (splitItems_ne_nil value) (items_shape value) (keeps_of_tidy tidy value)

theorem targets_of_pass (tidy : ∀ id, Tidy id → Tidy (move id)) (value : Text) :
    id ∈ fieldLinkTargets (joinItems (pass move (splitItems value))) ↔
      id ≠ [] ∧ ∃ old ∈ (splitItems value).filterMap storedHandleId, move old = id := by
  rw [mem_fieldLinkTargets,items_of_pass tidy,names_pass (keeps_of_tidy tidy value)]

theorem redirect_tidy (kept : Tidy target) (source : Text) : ∀ id, Tidy id → Tidy (redirect source target id) := by
  intro id tidy
  unfold redirect
  split
  · exact kept
  · exact tidy

-- Repointing a value a pass has already served is one longer pass.
theorem repoint_served (tidy : ∀ id, Tidy id → Tidy (move id)) (kept : Tidy target) (value source : Text) :
    repointFieldValue (joinItems (pass move (splitItems value))) source target =
      if source ∈ fieldLinkTargets (joinItems (pass move (splitItems value))) then
        some (joinItems (pass (redirect source target ∘ move) (splitItems value)))
      else none := by
  rw [repointFieldValue_pass kept,items_of_pass tidy,pass_pass (keeps_of_tidy tidy value)]
  exact keeps_of_tidy (fun id old => redirect_tidy kept source _ (tidy id old)) value

abbrev moves (events : List (MergeEvent PermanentId)) : List (MergeEvent Text) := events.map spelled

theorem landing_tidy (events : List (MergeEvent PermanentId)) : ∀ id, Tidy id → Tidy (landing (moves events) id) := by
  induction events with
  | nil => exact fun _ tidy => tidy
  | cons event rest ih =>
    intro id tidy
    change Tidy (landing (moves rest) (redirect event.folded.text event.survivor.text id))
    exact ih _ (redirect_tidy event.survivor.tidy _ id tidy)

theorem landing_cons (event : MergeEvent PermanentId) (rest : List (MergeEvent PermanentId)) :
    landing (moves (event::rest)) = landing (moves rest) ∘ redirect event.folded.text event.survivor.text := rfl

theorem landing_unfolded (unfolded : survivorOf (moves events) id = none) : landing (moves events) id = id := by
  induction events with
  | nil => rfl
  | cons event rest ih =>
    have apart := survivorOf_none.mp unfolded
    have here : id ≠ event.folded.text := (apart (spelled event) (by simp)).symm
    rw [landing_cons,Function.comp_apply,redirect,if_neg here]
    exact ih (survivorOf_none.mpr (fun other there => apart other (List.mem_cons_of_mem _ there)))

theorem bare_unfolded (events : List (MergeEvent PermanentId)) : survivorOf (moves events) [] = none := by
  rw [survivorOf_none]
  intro event there
  obtain ⟨was,_,rfl⟩ := List.mem_map.mp there
  exact was.folded.named

-- The names of links that some event folded; a value without one is not rewritten.
def Folds (events : List (MergeEvent PermanentId)) (value : Text) : Prop :=
  ∃ id ∈ fieldLinkTargets value, survivorOf (moves events) id ≠ none

-- A value already served once is served on by every later event.
theorem repointFrom_served (events : List (MergeEvent PermanentId)) (value : Text)
    (tidy : ∀ id, Tidy id → Tidy (move id)) :
    (moves events).foldl (fun changed event =>
        (repointFieldValue (changed.getD value) event.folded event.survivor).or changed)
      (some (joinItems (pass move (splitItems value)))) =
      some (joinItems (pass (landing (moves events) ∘ move) (splitItems value))) := by
  induction events generalizing move with
  | nil => rfl
  | cons event rest ih =>
    have turned := redirect_tidy event.survivor.tidy event.folded.text
    have turn : ∀ id, Tidy id → Tidy ((redirect event.folded.text event.survivor.text ∘ move) id) :=
      fun id old => turned _ (tidy id old)
    change List.foldl _ ((repointFieldValue (joinItems (pass move (splitItems value)))
      event.folded.text event.survivor.text).or _) (moves rest) = _
    rw [repoint_served tidy event.survivor.tidy]
    by_cases linked : event.folded.text ∈ fieldLinkTargets (joinItems (pass move (splitItems value)))
    · rw [if_pos linked,Option.some_or,ih turn]
      rfl
    · rw [if_neg linked,Option.none_or,ih tidy]
      congr 2
      apply pass_congr
      intro item member id named
      have apart : move id ≠ event.folded.text := by
        intro equal
        apply linked
        rw [targets_of_pass tidy]
        exact ⟨event.folded.named,id,List.mem_filterMap.mpr ⟨item,member,named⟩,equal⟩
      rw [landing_cons]
      simp [redirect,apart]

theorem repointAtEach_pass (value : Text) (events : List (MergeEvent PermanentId)) :
    (Folds events value →
      repointAtEach value (moves events) = some (joinItems (pass (landing (moves events)) (splitItems value)))) ∧
    (¬ Folds events value → repointAtEach value (moves events) = none) := by
  induction events with
  | nil => exact ⟨fun ⟨_,_,folded⟩ => absurd rfl folded,fun _ => rfl⟩
  | cons event rest ih =>
    have first : repointAtEach value (moves (event::rest)) =
        (moves rest).foldl (fun changed event =>
          (repointFieldValue (changed.getD value) event.folded event.survivor).or changed)
        (repointFieldValue value event.folded.text event.survivor.text) := by
      simp [repointAtEach,spelled]
    by_cases linked : event.folded.text ∈ fieldLinkTargets value
    · refine ⟨fun _ => ?_,fun still => absurd ⟨_,linked,?_⟩ still⟩
      · rw [first,repointFieldValue_pass event.survivor.tidy,if_pos linked,
          repointFrom_served rest value (redirect_tidy event.survivor.tidy _),landing_cons]
      · exact fun none => survivorOf_none.mp none (spelled event) (by simp) rfl
    · have apart : ∀ id ∈ fieldLinkTargets value, id ≠ event.folded.text := by
        rintro id there rfl; exact linked there
      have same : Folds (event::rest) value ↔ Folds rest value := by
        refine exists_congr fun id => and_congr_right fun there => ?_
        rw [moves,List.map_cons,survivorOf_cons]
        have other := (apart id there).symm
        simp [spelled,other]
      have still : repointAtEach value (moves (event::rest)) = repointAtEach value (moves rest) := by
        rw [first,repointFieldValue_pass event.survivor.tidy,if_neg linked]; rfl
      have served : pass (landing (moves (event::rest))) (splitItems value) =
          pass (landing (moves rest)) (splitItems value) := by
        apply pass_congr
        intro item member id named
        have other : id ≠ event.folded.text := by
          by_cases bare : id = []
          · rw [bare]; exact event.folded.named.symm
          · exact apart id (mem_fieldLinkTargets.mpr ⟨bare,List.mem_filterMap.mpr ⟨item,member,named⟩⟩)
        rw [landing_cons]
        simp [redirect,other]
      rw [still,served,same]
      exact ih

-- Where the walk has sent the links it has followed so far.
def sent (done : List Text) (last : Text → Text) (id : Text) : Text := if id ∈ done then last id else id

-- What the forwarding loop holds once it has followed the targets `done`.
def forwarded (value : Text) (done : List Text) (last : Text → Text) : Text × Bool :=
  if ∃ target ∈ done, last target ≠ target then (joinItems (pass (sent done last) (splitItems value)),true)
  else (value,false)

variable {fuel : Nat} {survivor : Text → Except (MergeLoop Text) (Option Text)} {last : Text → Text}
  {next : Text → Option Text} {events : List (MergeEvent PermanentId)}

theorem sent_again {done : List Text} {target : Text} (fixed : target ∈ done ∨ last target = target) :
    sent (target::done) last = sent done last := by
  funext id
  by_cases equal : id = target
  · subst equal
    rcases fixed with known | still
    · simp [sent,known]
    · by_cases known : id ∈ done <;> simp [sent,known,still]
  · simp [sent,equal]

theorem sent_redirect {done : List Text} {target : Text} (ends : ∀ id, Ends next id (last id))
    (moved : last target ≠ target) :
    redirect target (last target) ∘ sent done last = sent (target::done) last := by
  funext id
  by_cases known : id ∈ done
  · have apart : last id ≠ target := by
      intro equal
      have stopped := (ends id).2
      rw [equal] at stopped
      exact moved ((ends target).stays stopped)
    simp [sent,known,redirect,apart]
  · by_cases equal : id = target
    · subst equal; simp [sent,known,redirect]
    · simp [sent,known,redirect,equal]

theorem forwardTarget_step (follows : ∀ id, followThing fuel id survivor = some (.ok (last id)))
    (ends : ∀ id, Ends next id (last id)) (tidy : ∀ id, Tidy id → Tidy (last id)) (done : List Text)
    {target : Text} (linked : target ∈ fieldLinkTargets value) :
    forwardTarget fuel survivor (forwarded value done last) target =
      some (.ok (forwarded value (target::done) last)) := by
  have kept : Tidy target := by
    obtain ⟨item,member,named⟩ := List.mem_filterMap.mp (mem_fieldLinkTargets.mp linked).2
    exact tidy_of_item member named
  have sentTidy : ∀ id, Tidy id → Tidy (sent done last id) := by
    intro id old
    unfold sent
    split
    · exact tidy id old
    · exact old
  unfold forwardTarget
  rw [follows]
  dsimp only
  by_cases still : last target = target
  · rw [if_pos still]
    simp [forwarded,sent_again (.inr still),still]
  · rw [if_neg still]
    have any : ∃ other ∈ target::done, last other ≠ other := ⟨target,by simp,still⟩
    by_cases before : ∃ other ∈ done, last other ≠ other
    · simp only [forwarded,if_pos before,if_pos any]
      rw [repoint_served sentTidy (tidy target kept)]
      by_cases there : target ∈ fieldLinkTargets (joinItems (pass (sent done last) (splitItems value)))
      · rw [if_pos there,sent_redirect ends still]
      · rw [if_neg there]
        -- The link is gone from the value only when it was followed before.
        have known : target ∈ done := by
          by_contra fresh
          apply there
          rw [targets_of_pass sentTidy]
          obtain ⟨named,member⟩ := mem_fieldLinkTargets.mp linked
          exact ⟨named,target,member,by simp [sent,fresh]⟩
        rw [sent_again (.inl known)]
    · simp only [forwarded,if_neg before,if_pos any]
      rw [repointFieldValue_pass (tidy target kept),if_pos linked,←sent_redirect ends still]
      have unsent : sent done last = id := by
        funext other
        by_cases known : other ∈ done
        · have fixed : last other = other := by by_contra moved; exact before ⟨other,known,moved⟩
          simp [sent,known,fixed]
        · simp [sent,known]
      rw [unsent]
      rfl

theorem forwardTargets_run (follows : ∀ id, followThing fuel id survivor = some (.ok (last id)))
    (ends : ∀ id, Ends next id (last id)) (tidy : ∀ id, Tidy id → Tidy (last id)) (done targets : List Text)
    (linked : ∀ target ∈ targets, target ∈ fieldLinkTargets value) :
    forwardTargets fuel survivor (forwarded value done last) targets =
      some (.ok (forwarded value (targets.reverse ++ done) last)) := by
  induction targets generalizing done with
  | nil => rfl
  | cons target rest ih =>
    rw [forwardTargets,forwardTarget_step follows ends tidy done (linked target (by simp))]
    dsimp only
    rw [ih _ (fun other there => linked other (List.mem_cons_of_mem _ there))]
    simp

theorem forwardFieldValue_pass (follows : ∀ id, followThing fuel id survivor = some (.ok (last id)))
    (ends : ∀ id, Ends (survivorOf (moves events)) id (last id)) (tidy : ∀ id, Tidy id → Tidy (last id))
    (value : Text) :
    (Folds events value → forwardFieldValue fuel value survivor =
      some (.ok (some (joinItems (pass last (splitItems value)))))) ∧
    (¬ Folds events value → forwardFieldValue fuel value survivor = some (.ok none)) := by
  have ran : forwardTargets fuel survivor (value,false) (fieldLinkTargets value) =
      some (.ok (forwarded value (fieldLinkTargets value).reverse last)) := by
    have started := forwardTargets_run follows ends tidy [] (fieldLinkTargets value) (fun _ there => there)
    simpa [forwarded] using started
  have folds : (∃ target ∈ (fieldLinkTargets value).reverse, last target ≠ target) ↔ Folds events value := by
    simp only [List.mem_reverse,Folds]
    refine exists_congr fun target => and_congr_right fun _ => ?_
    constructor
    · exact fun moved stopped => moved ((ends target).stays stopped)
    · intro folded
      obtain ⟨there,step⟩ := Option.ne_none_iff_exists'.mp folded
      exact (ends target).moves step
  have served : pass (sent (fieldLinkTargets value).reverse last) (splitItems value) =
      pass last (splitItems value) := by
    apply pass_congr
    intro item member id named
    by_cases bare : id = []
    · subst bare
      rw [(ends []).stays (bare_unfolded events)]
      simp [sent,mem_fieldLinkTargets]
    · have there : id ∈ fieldLinkTargets value :=
        mem_fieldLinkTargets.mpr ⟨bare,List.mem_filterMap.mpr ⟨item,member,named⟩⟩
      simp [sent,there]
  unfold forwardFieldValue
  rw [ran]
  unfold forwarded
  constructor
  · intro some
    rw [if_pos (folds.mpr some),served]; rfl
  · intro none
    rw [if_neg (mt folds.mp none)]; rfl

-- Repointing at each merge, in the order the merges were made, and following the
-- links at the read come to one value. What either makes of a value names the
-- ends of the walks, each once, and leaves the items that wear no mark in place.
theorem repoint_agrees_with_forward (value : Text) (events : List (MergeEvent PermanentId))
    (once : FoldedOnce (moves events)) (unlooped : Unlooped (survivorOf (moves events)))
    (standing : IntoStanding (moves events)) :
    ∃ last : Text → Text,
      (∀ thing, followThing (events.length+1) thing (survivorIn (moves events)) = some (.ok (last thing))) ∧
      forwardFieldValue (events.length+1) value (survivorIn (moves events)) =
        some (.ok (repointAtEach value (moves events))) ∧
      ∀ result, repointAtEach value (moves events) = some result →
        (∀ id ∈ fieldLinkTargets result, ∃ link ∈ fieldLinkTargets value, last link = id) ∧
        ((splitItems result).filterMap storedHandleId).Nodup ∧
        (splitItems result).filter (fun item => (storedHandleId item).isNone) =
          (splitItems value).filter (fun item => (storedHandleId item).isNone) ∧
        List.Sublist (splitItems result) ((splitItems value).map (served last)) := by
  have follows : ∀ thing, followThing (events.length+1) thing (survivorIn (moves events)) =
      some (.ok (landing (moves events) thing)) := by
    intro thing
    obtain ⟨last,ran,ends⟩ := followThing_ends unlooped thing (show (moves events).length < events.length+1 by simp)
    rw [ran,ends.unique (landing_ends once unlooped standing thing)]
  have ends := landing_ends once unlooped standing
  have tidy := landing_tidy events
  have passes : (Folds events value → _) ∧ (¬ Folds events value → _) :=
    forwardFieldValue_pass follows ends tidy value
  obtain ⟨forwardSome,forwardNone⟩ := passes
  obtain ⟨eachSome,eachNone⟩ := repointAtEach_pass value events
  refine ⟨landing (moves events),follows,?_,?_⟩
  · by_cases folds : Folds events value
    · rw [forwardSome folds,eachSome folds]
    · rw [forwardNone folds,eachNone folds]
  · intro result changed
    by_cases folds : Folds events value
    · rw [eachSome folds] at changed
      cases changed
      rw [items_of_pass tidy]
      refine ⟨?_,keepFirst_nodup _ _,?_,keepFirst_sublist ..⟩
      · intro id there
        obtain ⟨named,old,member,rfl⟩ := (targets_of_pass tidy value).mp there
        refine ⟨old,mem_fieldLinkTargets.mpr ⟨?_,member⟩,rfl⟩
        rintro rfl
        exact named (landing_unfolded (bare_unfolded events))
      · rw [pass,keepFirst_unnamed]
        exact unmarked_served (keeps_of_tidy tidy value)
    · rw [eachNone folds] at changed; cases changed

-- Two folds into a thing that stood, the second of them into the first's survivor.
def chain : List (MergeEvent PermanentId) :=
  let a : PermanentId := ⟨"a".toList,by decide,by decide,by decide⟩
  let b : PermanentId := ⟨"b".toList,by decide,by decide,by decide⟩
  let c : PermanentId := ⟨"c".toList,by decide,by decide,by decide⟩
  [⟨a,b⟩,⟨b,c⟩]

theorem chain_unlooped (events : List (MergeEvent Text))
    (parts : ∀ event ∈ events, event = ⟨"a".toList,"b".toList⟩ ∨ event = ⟨"b".toList,"c".toList⟩) :
    Unlooped (survivorOf events) := by
  refine unlooped_of_rank (fun thing => if thing = "a".toList then 0 else if thing = "b".toList then 1 else 2) ?_
  intro folded survivor step
  obtain ⟨event,there,rfl,rfl⟩ := survivorOf_event step
  rcases parts event there with rfl | rfl <;> decide

theorem repoint_agrees_on_chain : ∃ last : Text → Text,
    (∀ thing, followThing 3 thing (survivorIn (moves chain)) = some (.ok (last thing))) ∧
    forwardFieldValue 3 "@#a, loose".toList (survivorIn (moves chain)) =
      some (.ok (repointAtEach "@#a, loose".toList (moves chain))) ∧
    repointAtEach "@#a, loose".toList (moves chain) = some "@#c, loose".toList := by
  obtain ⟨last,follows,agree,_⟩ := repoint_agrees_with_forward "@#a, loose".toList chain (by unfold FoldedOnce; decide)
    (chain_unlooped _ (by decide)) (by unfold IntoStanding; decide)
  exact ⟨last,follows,agree,by decide⟩

-- A fold into a thing already folded away is followed at the read and not by the
-- merges before it, and a mark with no id behind it is dropped when it comes twice.
theorem repoint_misses_a_fold_into_the_folded :
    let late : List (MergeEvent Text) := [⟨"b".toList,"c".toList⟩,⟨"a".toList,"b".toList⟩]
    (FoldedOnce late ∧ Unlooped (survivorOf late) ∧
      repointAtEach "@#a".toList late = some "@#b".toList ∧
      forwardFieldValue 3 "@#a".toList (survivorIn late) = some (.ok (some "@#c".toList))) ∧
    repointAtEach "@#, @#, @#a".toList [⟨"a".toList,"b".toList⟩] = some "@#, @#b".toList ∧
      "@#".toList ∉ (fieldLinkTargets "@#, @#, @#a".toList).map markedStoredHandle := by
  refine ⟨⟨by unfold FoldedOnce; decide,chain_unlooped _ (by decide),by decide,by decide⟩,by decide,by decide⟩

end AtWrite
