import Jojobot.Library.Keyed
import Jojobot.Mailbox.Store

namespace Mailbox
open Library Std Memory Testimony

variable {loaded : List Text} {countable : Timestamp → Bool} {store next : Store} {row other : MessageRow} {id target : Text}

def MessageEventKind.leads : MessageEventKind → StateToken
  | .read => .state .read
  | .processed => .state .processed
  | .quarantined => .quarantined

-- The events lead from one state to another, each from where the one before it left.
def Led : StateToken → List MessageEvent → StateToken → Prop
  | first,[],last => first = last
  | first,event::rest,last => .state event.priorState = first ∧ Led event.kind.leads rest last

theorem Led.append {first middle : StateToken} {events : List MessageEvent} {event : MessageEvent} (led : Led first events middle)
    (prior : .state event.priorState = middle) : Led first (events ++ [event]) event.kind.leads := by
  induction events generalizing first with
  | nil => exact ⟨prior.trans led.symm,rfl⟩
  | cons one rest ih => exact ⟨led.1,ih led.2⟩

def heldEvents (store : Store) (id : Text) : List MessageEvent := (store.events.filter (·.1 = id)).map (·.2)

def Numbered (events : List MessageEvent) : Prop := events.map (·.ordinal) = (List.range events.length).map (·+1)

theorem Numbered.append {events : List MessageEvent} (numbered : Numbered events) (change : Change) :
    Numbered (events ++ [nextEvent (events.map (·.ordinal)) change]) := by
  have most : ((events.map (·.ordinal)).max?).getD 0 = events.length := by
    unfold Numbered at numbered
    rw [numbered]
    generalize events.length = n
    cases n with
    | zero => rfl
    | succ n =>
      have found : (((List.range (n+1)).map (·+1)).max?) = some (n+1) := by
        apply List.max?_eq_some_iff.mpr
        refine ⟨List.mem_map.mpr ⟨n,List.mem_range.mpr (Nat.lt_succ_self n),rfl⟩,?_⟩
        intro one member
        obtain ⟨place,within,same⟩ := List.mem_map.mp member
        subst same
        exact List.mem_range.mp within
      rw [found]
      rfl
  unfold Numbered at numbered ⊢
  rw [List.map_append,List.length_append,List.length_singleton,List.range_succ,List.map_append]
  exact congrArg₂ (· ++ ·) numbered (congrArg (fun ordinal => [ordinal+1]) most)

structure Kept (store : Store) : Prop where
  boxes : (store.boxes.map (·.name)).Nodup
  ids : (store.messages.map (·.id)).Nodup
  ordinals : store.messages.Pairwise fun one other => one.ordinal < other.ordinal
  homes : ∀ row ∈ store.messages, row.mailbox ∈ store.boxes.map (·.name)
  replaces : ∀ row ∈ store.messages, ∀ target, row.supersedes = some target →
    ∃ old ∈ store.messages, old.id = target ∧ old.sender = row.sender ∧ old.mailbox = row.mailbox
  once : ∀ one ∈ store.messages, ∀ other ∈ store.messages, ∀ target, one.replaces target = true → other.replaces target = true → one = other
  told : ∀ row ∈ store.messages, Numbered (heldEvents store row.id) ∧ Led (.state .new) (heldEvents store row.id) row.state
  marked : ∀ row ∈ store.messages, row.state = .quarantined → ∃ box reason, row.quarantinedBy = some box ∧ row.quarantineReason = some reason
  taken : ∀ entry ∈ store.deliveries, ∃ row ∈ store.messages, row.id = entry.1 ∧ row.state ≠ .state .new
  evented : ∀ entry ∈ store.events, ∃ row ∈ store.messages, row.id = entry.1

theorem empty_kept : Kept {} := by
  constructor
  · exact List.nodup_nil
  · exact List.nodup_nil
  · exact List.Pairwise.nil
  · intro row has
    exact absurd has List.not_mem_nil
  · intro row has
    exact absurd has List.not_mem_nil
  · intro row has
    exact absurd has List.not_mem_nil
  · intro row has
    exact absurd has List.not_mem_nil
  · intro row has
    exact absurd has List.not_mem_nil
  · intro entry has
    exact absurd has List.not_mem_nil
  · intro entry has
    exact absurd has List.not_mem_nil

theorem Kept.row_unique (kept : Kept store) (has : row ∈ store.messages) (also : other ∈ store.messages) (same : row.id = other.id) : row = other :=
  List.inj_on_of_nodup_map kept.ids has also same

inductive Mark where
  | made
  | moved
  | posted (id : Text)
  | took (id : Text)
  | processed (id : Text)
  | setAside (id : Text)

-- A change of one row's state, with its event.
def changed (store : Store) (id : Text) (change : MessageRow → MessageRow) (deliveries : List (Text × TakenBy)) (event : Change) : Store where
  boxes := store.boxes
  messages := store.messages.map fun row => if row.id = id then change row else row
  deliveries := deliveries
  events := store.events ++ [(id,nextEvent ((heldEvents store id).map (·.ordinal)) event)]

-- What the verbs do to the store, one row or box at a time.
inductive Effect (store : Store) : Mark → Store → Prop where
  | made {name : Text} {owner : EntityId} (new : name ∉ store.boxes.map (·.name)) :
      Effect store .made { store with boxes := store.boxes ++ [⟨name,owner⟩] }
  | moved {oldName newName : Text} {target : EntityId} (held : oldName ∈ store.boxes.map (·.name))
      (free : oldName = newName ∨ newName ∉ store.boxes.map (·.name)) :
      Effect store .moved { store with
        boxes := store.boxes.map fun row => if row.name = oldName then ⟨newName,target⟩ else row
        messages := store.messages.map fun row => if row.mailbox = oldName then { row with mailbox := newName } else row }
  | posted {message : NewMessage} {id : Text} (home : message.mailbox ∈ store.boxes.map (·.name)) (fresh : ∀ row ∈ store.messages, row.id ≠ id)
      (replaces : ∀ target, message.supersedes = some target →
        (∃ old ∈ store.messages, old.id = target ∧ old.sender = trim message.sender ∧ old.mailbox = message.mailbox) ∧
        ∀ row ∈ store.messages, row.replaces target = false) :
      Effect store (.posted id) { store with messages := store.messages ++ [filed store message id] }
  | took {row : MessageRow} {takenBy : TakenBy} {acting : Acting} {box : Text} (has : row ∈ store.messages) (new : row.state = .state .new) :
      Effect store (.took row.id) (changed store row.id (fun row => { row with state := .state .read }) (store.deliveries ++ [(row.id,takenBy)])
        { kind := .read, acting := acting, byBox := box, priorState := .new })
  | processed {row : MessageRow} {prior : MessageState} {kept notes : Option Text} {acting : Acting} (has : row ∈ store.messages)
      (state : row.state = .state prior) (unfinished : prior ≠ .processed) :
      Effect store (.processed row.id) (changed store row.id (fun row => { row with state := .state .processed, notes := kept }) store.deliveries
        { kind := .processed, acting := acting, byBox := row.mailbox, priorState := prior, notes := notes })
  | setAside {row : MessageRow} {prior : MessageState} {box reason : Text} {acting : Acting} (has : row ∈ store.messages)
      (state : row.state = .state prior) (unfinished : prior ≠ .processed) (home : row.mailbox = box) :
      Effect store (.setAside row.id) (changed store row.id
        (fun row => { row with
          state := .quarantined
          quarantinedBy := some box
          quarantinedAt := some acting.at'
          quarantineReason := some reason }) store.deliveries
        { kind := .quarantined, acting := acting, byBox := box, priorState := prior, reason := some reason })

theorem heldEvents_changed (change : MessageRow → MessageRow) (deliveries : List (Text × TakenBy)) (event : Change) (other : Text) :
    heldEvents (changed store id change deliveries event) other =
      if other = id then heldEvents store id ++ [nextEvent ((heldEvents store id).map (·.ordinal)) event] else heldEvents store other := by
  unfold heldEvents changed
  rw [List.filter_append,List.map_append]
  split
  · rename_i same
    subst same
    rw [List.filter_singleton,decide_eq_true rfl]
    rfl
  · rename_i differs
    rw [List.filter_singleton,decide_eq_false fun same => differs same.symm]
    exact List.append_nil _

-- What a change of state leaves of a row as it was.
structure Frames (change : MessageRow → MessageRow) : Prop where
  id : ∀ row, (change row).id = row.id
  mailbox : ∀ row, (change row).mailbox = row.mailbox
  ordinal : ∀ row, (change row).ordinal = row.ordinal
  sender : ∀ row, (change row).sender = row.sender
  supersedes : ∀ row, (change row).supersedes = row.supersedes

section
variable {change : MessageRow → MessageRow} {deliveries : List (Text × TakenBy)} {event : Change}

-- Each row of the new table is one of the old, changed or not.
theorem changed_frame (frames : Frames change) {one : MessageRow} (member : one ∈ (changed store id change deliveries event).messages) :
    ∃ was ∈ store.messages, one.id = was.id ∧ one.mailbox = was.mailbox ∧ one.sender = was.sender ∧ one.supersedes = was.supersedes ∧
      ((was.id = id ∧ one = change was) ∨ (was.id ≠ id ∧ one = was)) := by
  obtain ⟨was,inStore,made⟩ := List.mem_map.mp member
  refine ⟨was,inStore,?_⟩
  split at made
  · rename_i same
    subst made
    exact ⟨frames.id was,frames.mailbox was,frames.sender was,frames.supersedes was,Or.inl ⟨same,rfl⟩⟩
  · rename_i differs
    subst made
    exact ⟨rfl,rfl,rfl,rfl,Or.inr ⟨differs,rfl⟩⟩

theorem changed_lift (frames : Frames change) (leads : ∀ row, (change row).state = event.kind.leads) {was : MessageRow}
    (inStore : was ∈ store.messages) : ∃ one ∈ (changed store id change deliveries event).messages,
      one.id = was.id ∧ one.mailbox = was.mailbox ∧ one.sender = was.sender ∧
        (one.state = was.state ∨ (was.id = id ∧ one.state = event.kind.leads)) := by
  refine ⟨_,List.mem_map.mpr ⟨was,inStore,rfl⟩,?_⟩
  split
  · rename_i same
    exact ⟨frames.id was,frames.mailbox was,frames.sender was,Or.inr ⟨same,leads was⟩⟩
  · exact ⟨rfl,rfl,rfl,Or.inl rfl⟩

theorem changed_column {α : Type} {column : MessageRow → α} (still : ∀ row, column (change row) = column row) :
    (changed store id change deliveries event).messages.map column = store.messages.map column := by
  unfold changed
  rw [List.map_map]
  apply List.map_congr_left
  intro was _
  dsimp only [Function.comp]
  split
  · exact still was
  · rfl

-- A change of state never makes a row replace what it did not.
theorem changed_replaces {prior : MessageState} (kept : Kept store) (has : row ∈ store.messages) (state : row.state = .state prior)
    (frames : Frames change) {one : MessageRow} (member : one ∈ (changed store row.id change deliveries event).messages)
    (does : one.replaces target = true) : ∃ was ∈ store.messages, was.replaces target = true ∧
      one = (if was.id = row.id then change was else was) := by
  obtain ⟨was,inStore,_,_,_,supersedes,how⟩ := changed_frame frames member
  unfold MessageRow.replaces at does ⊢
  rw [Bool.and_eq_true,supersedes] at does
  rcases how with here | there
  · have isRow := kept.row_unique inStore has here.1
    refine ⟨was,inStore,?_,(if_pos here.1).symm ▸ here.2⟩
    rw [Bool.and_eq_true]
    refine ⟨does.1,decide_eq_true ?_⟩
    rw [isRow,state]
    exact StateToken.noConfusion
  · refine ⟨was,inStore,?_,(if_neg there.1).symm ▸ there.2⟩
    rw [Bool.and_eq_true]
    rw [there.2] at does
    exact does

-- The events of a row go on to the state it is left in.
theorem changed_told (kept : Kept store) (has : row ∈ store.messages) (state : row.state = .state event.priorState)
    (frames : Frames change) (leads : ∀ row, (change row).state = event.kind.leads) {one : MessageRow}
    (member : one ∈ (changed store row.id change deliveries event).messages) :
    Numbered (heldEvents (changed store row.id change deliveries event) one.id) ∧
      Led (.state .new) (heldEvents (changed store row.id change deliveries event) one.id) one.state := by
  obtain ⟨was,inStore,same,_,_,_,how⟩ := changed_frame frames member
  rw [heldEvents_changed,same]
  rcases how with here | there
  · obtain ⟨numbered,led⟩ := kept.told row has
    rw [if_pos here.1,here.2,leads]
    exact ⟨numbered.append event,led.append state.symm⟩
  · rw [if_neg there.1,there.2]
    exact kept.told was inStore

theorem leads_left (kind : MessageEventKind) : kind.leads ≠ .state .new := by
  cases kind with
  | read => decide
  | processed => decide
  | quarantined => decide

theorem leads_aside {kind : MessageEventKind} (aside : kind.leads = .quarantined) : kind = .quarantined := by
  cases kind with
  | read => cases aside
  | processed => cases aside
  | quarantined => rfl

theorem Kept.changed (kept : Kept store) (has : row ∈ store.messages) (state : row.state = .state event.priorState)
    (frames : Frames change) (leads : ∀ row, (change row).state = event.kind.leads)
    (marks : event.kind = .quarantined → ∀ row, ∃ box reason, (change row).quarantinedBy = some box ∧ (change row).quarantineReason = some reason)
    (taken : ∀ entry ∈ deliveries, entry ∈ store.deliveries ∨ entry.1 = row.id) :
    Kept (changed store row.id change deliveries event) := by
  constructor
  · exact kept.boxes
  · rw [changed_column frames.id]
    exact kept.ids
  · apply List.pairwise_map.mp
    rw [changed_column frames.ordinal]
    exact List.pairwise_map.mpr kept.ordinals
  · intro one member
    obtain ⟨was,inStore,_,mailbox,_⟩ := changed_frame frames member
    rw [mailbox]
    exact kept.homes was inStore
  · intro one member target isReplaced
    obtain ⟨was,inStore,_,mailbox,sender,supersedes,_⟩ := changed_frame frames member
    obtain ⟨old,oldIn,oldId,oldSender,oldBox⟩ := kept.replaces was inStore target (supersedes ▸ isReplaced)
    obtain ⟨held,heldIn,heldId,heldBox,heldSender,_⟩ := changed_lift frames leads oldIn
    exact ⟨held,heldIn,heldId.trans oldId,heldSender.trans (oldSender.trans sender.symm),heldBox.trans (oldBox.trans mailbox.symm)⟩
  · intro one oneIn two twoIn target oneDoes twoDoes
    obtain ⟨was,wasIn,wasDoes,wasMade⟩ := changed_replaces kept has state frames oneIn oneDoes
    obtain ⟨had,hadIn,hadDoes,hadMade⟩ := changed_replaces kept has state frames twoIn twoDoes
    rw [wasMade,hadMade,kept.once was wasIn had hadIn target wasDoes hadDoes]
  · intro one member
    exact changed_told kept has state frames leads member
  · intro one member aside
    obtain ⟨was,inStore,_,_,_,_,how⟩ := changed_frame frames member
    rcases how with here | there
    · rw [here.2,leads] at aside
      rw [here.2]
      exact marks (leads_aside aside) was
    · rw [there.2] at aside ⊢
      exact kept.marked was inStore aside
  · intro entry member
    rcases taken entry member with before | here
    · obtain ⟨was,inStore,same,left⟩ := kept.taken entry before
      obtain ⟨one,oneIn,id,_,_,moved⟩ := changed_lift frames leads inStore
      refine ⟨one,oneIn,id.trans same,?_⟩
      rcases moved with still | lead
      · rw [still]
        exact left
      · rw [lead.2]
        exact leads_left event.kind
    · refine ⟨_,List.mem_map.mpr ⟨row,has,if_pos rfl⟩,?_,?_⟩
      · exact (frames.id row).trans here.symm
      · rw [leads]
        exact leads_left event.kind
  · intro entry member
    rcases List.mem_append.mp member with before | here
    · obtain ⟨was,inStore,same⟩ := kept.evented entry before
      obtain ⟨one,oneIn,id,_⟩ := changed_lift frames leads inStore
      exact ⟨one,oneIn,id.trans same⟩
    · rw [List.mem_singleton.mp here]
      obtain ⟨one,oneIn,id,_⟩ := changed_lift frames leads has
      exact ⟨one,oneIn,id⟩

end

theorem mem_moved {oldName newName : Text} (has : row ∈ store.messages.map fun row => if row.mailbox = oldName then { row with mailbox := newName } else row) :
    ∃ was ∈ store.messages, row = { was with mailbox := if was.mailbox = oldName then newName else was.mailbox } := by
  obtain ⟨was,inStore,made⟩ := List.mem_map.mp has
  refine ⟨was,inStore,?_⟩
  split at made
  · rename_i here
    rw [if_pos here]
    exact made.symm
  · rename_i other
    rw [if_neg other]
    exact made.symm

theorem moved_mem (oldName newName : Text) (has : row ∈ store.messages) :
    { row with mailbox := if row.mailbox = oldName then newName else row.mailbox } ∈
      store.messages.map fun row => if row.mailbox = oldName then { row with mailbox := newName } else row := by
  refine List.mem_map.mpr ⟨row,has,?_⟩
  split
  · rfl
  · rfl

-- A box that follows its owner takes its messages along.
theorem moved_names (boxes : List BoxRow) (oldName newName : Text) (owner : EntityId) :
    (boxes.map fun row => if row.name = oldName then (⟨newName,owner⟩ : BoxRow) else row).map (·.name) =
      (boxes.map (·.name)).map fun name => if name = oldName then newName else name := by
  rw [List.map_map,List.map_map]
  apply List.map_congr_left
  intro row _
  dsimp only [Function.comp]
  split
  · rfl
  · rfl

theorem moved_column {α : Type} {column : MessageRow → α} (oldName newName : Text)
    (still : ∀ row : MessageRow, column { row with mailbox := newName } = column row) :
    (store.messages.map fun row => if row.mailbox = oldName then { row with mailbox := newName } else row).map column =
      store.messages.map column := by
  rw [List.map_map]
  apply List.map_congr_left
  intro row _
  dsimp only [Function.comp]
  split
  · exact still row
  · rfl

-- A name that nothing wears can be given in place of another.
theorem renamed_apart {names : List Text} {oldName newName : Text} (apart : names.Nodup)
    (free : oldName = newName ∨ newName ∉ names) : (names.map fun name => if name = oldName then newName else name).Nodup := by
  refine List.Nodup.map_on ?_ apart
  intro one oneIn other otherIn same
  by_cases oneIs : one = oldName
  · by_cases otherIs : other = oldName
    · exact oneIs.trans otherIs.symm
    · rw [if_pos oneIs,if_neg otherIs] at same
      rcases free with unmoved | unworn
      · exact oneIs.trans (unmoved.trans same)
      · exact absurd (same ▸ otherIn) unworn
  · by_cases otherIs : other = oldName
    · rw [if_neg oneIs,if_pos otherIs] at same
      rcases free with unmoved | unworn
      · exact same.trans (unmoved.symm.trans otherIs.symm)
      · exact absurd (same ▸ oneIn) unworn
    · rw [if_neg oneIs,if_neg otherIs] at same
      exact same

theorem Kept.moved {oldName newName : Text} {owner : EntityId} (kept : Kept store)
    (free : oldName = newName ∨ newName ∉ store.boxes.map (·.name)) :
    Kept { store with
      boxes := store.boxes.map fun row => if row.name = oldName then ⟨newName,owner⟩ else row
      messages := store.messages.map fun row => if row.mailbox = oldName then { row with mailbox := newName } else row } := by
  constructor
  · rw [moved_names]
    exact renamed_apart kept.boxes free
  · rw [moved_column oldName newName fun _ => rfl]
    exact kept.ids
  · apply List.pairwise_map.mp
    rw [moved_column oldName newName fun _ => rfl]
    exact List.pairwise_map.mpr kept.ordinals
  · intro row member
    obtain ⟨was,inStore,made⟩ := mem_moved member
    rw [moved_names,made]
    exact List.mem_map.mpr ⟨was.mailbox,kept.homes was inStore,rfl⟩
  · intro row member target replaces
    obtain ⟨was,inStore,made⟩ := mem_moved member
    subst made
    obtain ⟨old,oldIn,id,sender,mailbox⟩ := kept.replaces was inStore target replaces
    refine ⟨_,moved_mem oldName newName oldIn,id,sender,?_⟩
    dsimp only
    rw [mailbox]
  · intro one oneIn other otherIn target oneDoes otherDoes
    obtain ⟨was,wasIn,made⟩ := mem_moved oneIn
    obtain ⟨had,hadIn,hadMade⟩ := mem_moved otherIn
    subst made hadMade
    have same : was = had := kept.once was wasIn had hadIn target oneDoes otherDoes
    rw [same]
  · intro row member
    obtain ⟨was,inStore,made⟩ := mem_moved member
    subst made
    exact kept.told was inStore
  · intro row member aside
    obtain ⟨was,inStore,made⟩ := mem_moved member
    subst made
    exact kept.marked was inStore aside
  · intro entry member
    obtain ⟨was,inStore,same,left⟩ := kept.taken entry member
    exact ⟨_,moved_mem oldName newName inStore,same,left⟩
  · intro entry member
    obtain ⟨was,inStore,same⟩ := kept.evented entry member
    exact ⟨_,moved_mem oldName newName inStore,same⟩

theorem below_next (has : row ∈ store.messages) : row.ordinal < nextOrdinal store := by
  unfold nextOrdinal
  cases most : (store.messages.map (·.ordinal)).max? with
  | none =>
    have empty := List.max?_eq_none_iff.mp most
    rw [List.map_eq_nil_iff] at empty
    rw [empty] at has
    cases has
  | some highest =>
    have bound := (List.max?_eq_some_iff.mp most).2 row.ordinal (List.mem_map.mpr ⟨row,has,rfl⟩)
    exact Nat.lt_succ_of_le bound

theorem heldEvents_fresh (kept : Kept store) (fresh : ∀ row ∈ store.messages, row.id ≠ id) : heldEvents store id = [] := by
  unfold heldEvents
  rw [List.map_eq_nil_iff]
  apply List.filter_eq_nil_iff.mpr
  intro entry member same
  obtain ⟨row,has,isEntry⟩ := kept.evented entry member
  exact fresh row has (isEntry.trans (of_decide_eq_true same))

theorem Kept.posted {message : NewMessage} (kept : Kept store) (home : message.mailbox ∈ store.boxes.map (·.name))
    (fresh : ∀ row ∈ store.messages, row.id ≠ id)
    (replaces : ∀ target, message.supersedes = some target →
      (∃ old ∈ store.messages, old.id = target ∧ old.sender = trim message.sender ∧ old.mailbox = message.mailbox) ∧
      ∀ row ∈ store.messages, row.replaces target = false) :
    Kept { store with messages := store.messages ++ [filed store message id] } := by
  have either : ∀ {one : MessageRow}, one ∈ store.messages ++ [filed store message id] → one ∈ store.messages ∨ one = filed store message id := by
    intro one member
    rcases List.mem_append.mp member with old | new
    · exact Or.inl old
    · exact Or.inr (List.mem_singleton.mp new)
  constructor
  · exact kept.boxes
  · rw [List.map_append]
    apply kept.ids.append (List.nodup_singleton _)
    intro one before here
    obtain ⟨row,has,same⟩ := List.mem_map.mp before
    exact fresh row has (same.trans (List.mem_singleton.mp here))
  · apply List.pairwise_append.mpr
    refine ⟨kept.ordinals,List.pairwise_singleton _ _,?_⟩
    intro one has last isLast
    rw [List.mem_singleton.mp isLast]
    exact below_next has
  · intro row member
    rcases either member with old | new
    · exact kept.homes row old
    · rw [new]
      exact home
  · intro row member target named
    rcases either member with old | new
    · obtain ⟨was,wasIn,same⟩ := kept.replaces row old target named
      exact ⟨was,List.mem_append_left _ wasIn,same⟩
    · subst new
      obtain ⟨⟨was,wasIn,same⟩,_⟩ := replaces target named
      exact ⟨was,List.mem_append_left _ wasIn,same⟩
  · have unreplaced : ∀ {target}, (filed store message id).replaces target = true → ∀ row ∈ store.messages, row.replaces target = false := by
      intro target does
      unfold MessageRow.replaces at does
      rw [Bool.and_eq_true] at does
      exact (replaces target (of_decide_eq_true does.1)).2
    intro one oneIn other otherIn target oneDoes otherDoes
    rcases either oneIn with oneOld | oneNew
    · rcases either otherIn with otherOld | otherNew
      · exact kept.once one oneOld other otherOld target oneDoes otherDoes
      · subst otherNew
        rw [unreplaced otherDoes one oneOld] at oneDoes
        cases oneDoes
    · rcases either otherIn with otherOld | otherNew
      · subst oneNew
        rw [unreplaced oneDoes other otherOld] at otherDoes
        cases otherDoes
      · rw [oneNew,otherNew]
  · intro row member
    rcases either member with old | new
    · exact kept.told row old
    · subst new
      have none' : heldEvents store id = [] := heldEvents_fresh kept fresh
      change Numbered (heldEvents store id) ∧ Led _ (heldEvents store id) _
      rw [none']
      exact ⟨rfl,rfl⟩
  · intro row member aside
    rcases either member with old | new
    · exact kept.marked row old aside
    · rw [new] at aside
      cases aside
  · intro entry member
    obtain ⟨row,has,same,left⟩ := kept.taken entry member
    exact ⟨row,List.mem_append_left _ has,same,left⟩
  · intro entry member
    obtain ⟨row,has,same⟩ := kept.evented entry member
    exact ⟨row,List.mem_append_left _ has,same⟩

theorem Kept.made {name : Text} {owner : EntityId} (kept : Kept store) (new : name ∉ store.boxes.map (·.name)) :
    Kept { store with boxes := store.boxes ++ [⟨name,owner⟩] } where
  boxes := by
    rw [List.map_append]
    apply kept.boxes.append (List.nodup_singleton _)
    intro one before here
    have same : one = name := List.mem_singleton.mp here
    exact new (same ▸ before)
  ids := kept.ids
  ordinals := kept.ordinals
  homes := by
    intro row has
    rw [List.map_append]
    exact List.mem_append_left _ (kept.homes row has)
  replaces := kept.replaces
  once := kept.once
  told := kept.told
  marked := kept.marked
  taken := kept.taken
  evented := kept.evented

theorem Kept.effect {mark : Mark} (kept : Kept store) (effect : Effect store mark next) : Kept next := by
  cases effect with
  | made new => exact kept.made new
  | moved held free => exact kept.moved free
  | posted home fresh replaces => exact kept.posted home fresh replaces
  | took has new =>
    refine kept.changed has new ⟨fun _ => rfl,fun _ => rfl,fun _ => rfl,fun _ => rfl,fun _ => rfl⟩ (fun _ => rfl) nofun ?_
    intro entry member
    rcases List.mem_append.mp member with before | here
    · exact Or.inl before
    · rw [List.mem_singleton.mp here]
      exact Or.inr rfl
  | processed has state unfinished =>
    exact kept.changed has state ⟨fun _ => rfl,fun _ => rfl,fun _ => rfl,fun _ => rfl,fun _ => rfl⟩ (fun _ => rfl) nofun fun _ => Or.inl
  | setAside has state unfinished home =>
    exact kept.changed has state ⟨fun _ => rfl,fun _ => rfl,fun _ => rfl,fun _ => rfl,fun _ => rfl⟩ (fun _ => rfl)
      (fun _ _ => ⟨_,_,rfl,rfl⟩) fun _ => Or.inl

end Mailbox
