import Jojobot.Mailbox.Calls

namespace Mailbox
open Library Std Memory Testimony

variable {loaded : List Text} {token : Text → List Text → Text} {countable : Timestamp → Bool} {origin store next : Store}
  {row : MessageRow} {id name : Text} {taken : List (Store × Mark)}

theorem mem_names : name ∈ names store ↔ name ∈ store.boxes.map (·.name) :=
  ((sortBy_perm _ _).map _).mem_iff

theorem map_written {α : Type} {result : Answered (Store × α)} {named : α → Answer} {answer : Answer}
    (done : result.map (Prod.map (fun store => store) named) = .ok (next,answer)) : ∃ given, result = .ok (next,given) ∧ answer = named given := by
  cases result with
  | error why => cases done
  | ok pair =>
    obtain ⟨store,given⟩ := pair
    cases done
    exact ⟨given,rfl,rfl⟩

theorem createMailbox_effect {owner : EntityId} {overrideToken : Option Text} {lookUp : OwnerLookup} {given : Guarded Box}
    (done : createMailbox loaded token store name owner overrideToken lookUp = .ok (next,given)) :
    ((∀ record, given ≠ .written record) ∧ next = store) ∨ ((∃ record, given = .written record) ∧ Effect store .made next) := by
  unfold createMailbox at done
  obtain ⟨_,_,done⟩ := bind_ok.mp done
  obtain ⟨_,_,done⟩ := bind_ok.mp done
  cases lookUp with
  | unknown candidates =>
    cases done
    exact Or.inl ⟨fun _ written => (by cases written),rfl⟩
  | known =>
    dsimp only at done
    cases decided : decideCreateFor token name (some (slugOf owner)) (names store) overrideToken with
    | block candidates =>
      rw [decided] at done
      cases done
      exact Or.inl ⟨fun _ written => (by cases written),rfl⟩
    | proceed =>
      rw [decided] at done
      cases done
      have new : name ∉ store.boxes.map (·.name) := fun worn => proceed_new decided (mem_names.mpr worn)
      exact Or.inr ⟨⟨_,rfl⟩,.made new⟩

theorem unmoved_messages {oldName newName : Text} (same : oldName = newName) (messages : List MessageRow) :
    messages.map (fun row => if row.mailbox = oldName then { row with mailbox := newName } else row) = messages := by
  subst same
  have still : ∀ row ∈ messages, (if row.mailbox = oldName then { row with mailbox := oldName } else row) = row := by
    intro row _
    split
    · rename_i here
      rw [← here]
    · rfl
  exact (List.map_congr_left still).trans (List.map_id' _)

theorem repointOwner_effect {source target : EntityId} {given : Option Box}
    (done : repointOwner loaded countable store source target = .ok (next,given)) :
    next = store ∨ Effect store .moved next := by
  unfold repointOwner at done
  split at done
  · cases done
    exact Or.inl rfl
  · rename_i oldName held
    dsimp only at done
    split at done
    · cases done
    · rename_i free
      cases done
      right
      have inBoxes : oldName ∈ store.boxes.map (·.name) := by
        have member : oldName ∈ (store.boxes.filter (·.owner = source)).map (·.name) := held ▸ List.mem_singleton_self _
        obtain ⟨row,has,same⟩ := List.mem_map.mp member
        exact List.mem_map.mpr ⟨row,(List.mem_filter.mp has).1,same⟩
      have moves : (if oldName = namedFor loaded target then store.messages else
          store.messages.map fun row => if row.mailbox = oldName then { row with mailbox := namedFor loaded target } else row) =
          store.messages.map fun row => if row.mailbox = oldName then { row with mailbox := namedFor loaded target } else row := by
        split
        · rename_i same
          exact (unmoved_messages same _).symm
        · rfl
      rw [moves]
      apply Effect.moved inBoxes
      split at free
      · rename_i same
        exact Or.inl same
      · right
        intro worn
        obtain ⟨row,has,same⟩ := List.mem_map.mp worn
        have absent := List.find?_eq_none.mp free row has
        exact absent (decide_eq_true same)
  · cases done

theorem supersededBy_none (none' : store.supersededBy id = none) : ∀ row ∈ store.messages, row.replaces id = false := by
  intro row has
  unfold Store.supersededBy at none'
  rw [Option.map_eq_none_iff,List.getLast?_eq_none_iff] at none'
  have empty : store.messages.filter (·.replaces id) = [] := (none' ▸ sortBy_perm _ _).symm.eq_nil
  rw [List.filter_eq_nil_iff] at empty
  exact Bool.eq_false_iff.mpr (empty row has)

theorem checkReplaced_ok {message : NewMessage} (checked : checkReplaced countable store message = .ok ()) {target : Text}
    (named : message.supersedes = some target) :
    (∃ old ∈ store.messages, old.id = target ∧ old.sender = trim message.sender ∧ old.mailbox = message.mailbox) ∧
      ∀ row ∈ store.messages, row.replaces target = false := by
  unfold checkReplaced at checked
  rw [named] at checked
  obtain ⟨_,_,checked⟩ := bind_ok.mp checked
  obtain ⟨old,found,checked⟩ := bind_ok.mp checked
  obtain ⟨row,has,isTarget,state,_,made⟩ := addressed_ok found
  split at checked
  · cases checked
  · rename_i sender
    split at checked
    · cases checked
    · rename_i mailbox
      split at checked
      · cases checked
      · rename_i unreplaced
        subst made
        refine ⟨⟨row,has,isTarget,not_not.mp sender,not_not.mp mailbox⟩,?_⟩
        rw [← isTarget]
        exact supersededBy_none unreplaced

theorem mint_fresh {draws : List Text} (drawn : mint store draws = .ok id) : ∀ row ∈ store.messages, row.id ≠ id := by
  intro row has same
  unfold mint at drawn
  split at drawn
  · rename_i found
    cases drawn
    have free := List.find?_some found
    rw [Bool.not_eq_true',List.any_eq_false] at free
    exact free row has (decide_eq_true same)
  · cases drawn

theorem postMessage_effect {message : NewMessage} {draws : List Text} {given : Guarded Message}
    (done : postMessage countable store message draws = .ok (next,given)) :
    ((∀ record, given ≠ .written record) ∧ next = store) ∨
      ∃ id, given = .written (stored (filed store message id)) ∧ next = { store with messages := store.messages ++ [filed store message id] } ∧
        Effect store (.posted id) next := by
  unfold postMessage at done
  obtain ⟨_,_,done⟩ := bind_ok.mp done
  obtain ⟨_,_,done⟩ := bind_ok.mp done
  obtain ⟨_,_,done⟩ := bind_ok.mp done
  obtain ⟨_,_,done⟩ := bind_ok.mp done
  cases decided : decideExisting message.mailbox (names store) with
  | block candidates =>
    rw [decided] at done
    cases done
    exact Or.inl ⟨fun _ written => (by cases written),rfl⟩
  | proceed =>
    rw [decided] at done
    obtain ⟨_,_,done⟩ := bind_ok.mp done
    obtain ⟨_,checked,done⟩ := bind_ok.mp done
    obtain ⟨id,drawn,done⟩ := bind_ok.mp done
    cases done
    have home := mem_names.mp (proceed_worn decided)
    exact Or.inr ⟨id,rfl,rfl,.posted home (mint_fresh drawn) fun _ named => checkReplaced_ok checked named⟩

theorem readMessage_effect {acting : Acting} {given : Delivered} (done : readMessage countable store id acting = .ok (next,given)) :
    (freshIn [given] = [] ∧ next = store) ∨ (freshIn [given] = [id] ∧ Effect store (.took id) next) := by
  unfold readMessage at done
  obtain ⟨_,_,done⟩ := bind_ok.mp done
  obtain ⟨message,found,done⟩ := bind_ok.mp done
  obtain ⟨row,has,isId,state,is,made⟩ := addressed_ok found
  subst made isId
  split at done
  · cases done
    exact Or.inl ⟨rfl,rfl⟩
  · rename_i new
    cases done
    have isNew : state = .new := not_not.mp new
    subst isNew
    rw [takeNew_changed]
    exact Or.inr ⟨rfl,.took has is⟩

theorem markProcessed_effect {box : Text} {notes : Option Text} {acting : Acting} {given : Message}
    (done : markProcessed countable store id box notes acting = .ok (next,given)) : next = store ∨ Effect store (.processed id) next := by
  unfold markProcessed at done
  obtain ⟨_,_,done⟩ := bind_ok.mp done
  obtain ⟨_,_,done⟩ := bind_ok.mp done
  obtain ⟨message,found,done⟩ := bind_ok.mp done
  obtain ⟨row,has,isId,state,is,made⟩ := addressed_ok found
  subst made isId
  split at done
  · cases done
  · split at done
    · cases done
      exact Or.inl rfl
    · rename_i unfinished
      cases done
      right
      exact (appendMessageEvent_changed ..) ▸ .processed has is unfinished

theorem quarantine_effect {box reason : Text} {acting : Acting} {given : Quarantined}
    (done : quarantine countable store id box reason acting = .ok (next,given)) : Effect store (.setAside id) next := by
  unfold quarantine at done
  obtain ⟨_,_,done⟩ := bind_ok.mp done
  obtain ⟨message,found,done⟩ := bind_ok.mp done
  obtain ⟨row,has,isId,state,is,made⟩ := addressed_ok found
  subst made isId
  split at done
  · cases done
  · rename_i home
    obtain ⟨_,allowed,done⟩ := bind_ok.mp done
    cases done
    have unfinished : state ≠ .processed := by
      intro processed
      subst processed
      cases allowed
    exact (appendMessageEvent_changed ..) ▸ .setAside has is unfinished (not_not.mp home)

theorem changed_other {change : MessageRow → MessageRow} {deliveries : List (Text × TakenBy)} {event : Change} (has : row ∈ store.messages)
    (differs : row.id ≠ id) : row ∈ (changed store id change deliveries event).messages :=
  List.mem_map.mpr ⟨row,has,if_neg differs⟩

-- The marks of a run, and the messages it took out of new.
def tookIn (taken : List (Store × Mark)) : List Text := taken.filterMap (·.2.took?)

theorem freshIn_append (delivered more : List Delivered) : freshIn (delivered ++ more) = freshIn delivered ++ freshIn more := by
  unfold freshIn
  rw [List.filter_append,List.map_append]

-- A delivery takes the new messages one at a time, each of a row that is still new.
theorem deliver_effects (takenBy : TakenBy) (acting : Acting) (name : Text) (messages : List Message) (apart : (messages.map (·.id)).Nodup)
    (unprocessed : ∀ message ∈ messages, message.state ≠ .processed) (taking : Taking)
    (each : ∀ message ∈ messages, ∃ row ∈ taking.store.messages, row.id = message.id ∧ row.state = .state message.state)
    (run : Run Effect origin taken taking.store) :
    ∃ more, Run Effect origin (taken ++ more) (messages.foldl (deliver takenBy acting name) taking).store ∧
      freshIn (messages.foldl (deliver takenBy acting name) taking).delivered = freshIn taking.delivered ++ tookIn more := by
  induction messages generalizing taking taken with
  | nil => exact ⟨[],by rw [List.append_nil]; exact run,(List.append_nil _).symm⟩
  | cons message rest ih =>
    rw [List.map_cons] at apart
    obtain ⟨alone,apart⟩ := List.nodup_cons.mp apart
    have others := fun later member => unprocessed later (List.mem_cons_of_mem _ member)
    rw [List.foldl_cons]
    cases held : (if message.state = .new then message.supersededBy else none) with
    | some replacement =>
      have withheld : deliver takenBy acting name taking message =
          { taking with withheld := taking.withheld ++ [⟨message.id,replacement⟩] } := by
        unfold deliver
        rw [held]
      rw [withheld]
      exact ih apart others _ (fun later member => each later (List.mem_cons_of_mem _ member)) run
    | none =>
      have given : deliver takenBy acting name taking message =
          { taking with
            store := if decide (message.state = .read) = true then taking.store else takeNew taking.store message.id takenBy acting name
            delivered := taking.delivered ++
              [⟨{ message with state := .read, takenBy := message.takenBy.or (some takenBy) },decide (message.state = .read)⟩] } := by
        unfold deliver
        rw [held]
      rw [given]
      by_cases read : message.state = .read
      · rw [decide_eq_true read]
        obtain ⟨more,goes,fresh⟩ := ih apart others
          { taking with
            delivered := taking.delivered ++ [⟨{ message with state := .read, takenBy := message.takenBy.or (some takenBy) },true⟩] }
          (fun later member => each later (List.mem_cons_of_mem _ member)) run
        refine ⟨more,goes,fresh.trans ?_⟩
        rw [freshIn_append]
        exact congrArg (· ++ tookIn more) (List.append_nil _)
      · rw [decide_eq_false read]
        obtain ⟨row,has,isMessage,state⟩ := each message List.mem_cons_self
        have new : message.state = .new := by
          cases is : message.state with
          | new => rfl
          | read => exact absurd is read
          | processed => exact absurd is (unprocessed message List.mem_cons_self)
        rw [new] at state
        have takes : takeNew taking.store message.id takenBy acting name = _ := takeNew_changed takenBy acting name
        have effect : Effect taking.store (.took message.id) (takeNew taking.store message.id takenBy acting name) := by
          rw [takes,← isMessage]
          exact .took has state
        obtain ⟨more,goes,fresh⟩ := ih apart others
          { taking with
            store := takeNew taking.store message.id takenBy acting name
            delivered := taking.delivered ++ [⟨{ message with state := .read, takenBy := message.takenBy.or (some takenBy) },false⟩] }
          (fun later member => by
            obtain ⟨row,has,isLater,state⟩ := each later (List.mem_cons_of_mem _ member)
            refine ⟨row,?_,isLater,state⟩
            dsimp only
            rw [takes]
            apply changed_other has
            intro same
            exact alone (List.mem_map.mpr ⟨later,member,isLater.symm.trans same⟩))
          (run.step effect)
        refine ⟨(taking.store,.took message.id) :: more,?_,fresh.trans ?_⟩
        · rw [← List.append_cons] at goes
          exact goes
        · rw [freshIn_append,List.append_assoc]
          rfl

theorem readMailbox_effects {takenBy : TakenBy} {acting : Acting} {given : Guarded Delivery} (kept : Kept store)
    (run : Run Effect origin taken store) (done : readMailbox countable store name takenBy acting = .ok (next,given)) :
    ((∀ record, given ≠ .written record) ∧ next = store) ∨
      ∃ delivery more, given = .written delivery ∧ Run Effect origin (taken ++ more) next ∧ freshIn delivery.messages = tookIn more := by
  unfold readMailbox at done
  obtain ⟨_,_,done⟩ := bind_ok.mp done
  cases decided : decideExisting name (names store) with
  | block candidates =>
    rw [decided] at done
    cases done
    exact Or.inl ⟨fun _ written => (by cases written),rfl⟩
  | proceed =>
    rw [decided] at done
    cases done
    right
    have states : ∀ message ∈ toDeliver countable store name, message.state ≠ .processed ∧
        ∃ row ∈ store.messages, row.id = message.id ∧ row.state = .state message.state := by
      intro message member
      obtain ⟨row,has,_,state,is,unprocessed,made⟩ := mem_toDeliver.mp member
      subst made
      exact ⟨unprocessed,row,has,rfl,is⟩
    obtain ⟨more,goes,fresh⟩ := deliver_effects takenBy acting name (toDeliver countable store name) (toDeliver_apart kept name)
      (fun message member => (states message member).1) { store := store } (fun message member => (states message member).2) run
    exact ⟨_,more,rfl,goes,fresh⟩

-- What a call does, as effects: nothing, or one after another, with the messages they take
-- those that its answer hands out fresh.
theorem perform_effects {call : Call} {answer : Answer} (kept : Kept store) (run : Run Effect origin taken store)
    (done : perform loaded token countable store call = .ok (next,answer)) :
    ∃ more, Run Effect origin (taken ++ more) next ∧ answer.fresh = tookIn more := by
  have nothing : ∀ {answer : Answer}, answer.fresh = [] → next = store →
      ∃ more, Run Effect origin (taken ++ more) next ∧ answer.fresh = tookIn more := by
    intro answer fresh same
    refine ⟨[],?_,fresh⟩
    rw [List.append_nil,same]
    exact run
  have once : ∀ {answer : Answer} {mark : Mark}, answer.fresh = tookIn [(store,mark)] → Effect store mark next →
      ∃ more, Run Effect origin (taken ++ more) next ∧ answer.fresh = tookIn more :=
    fun fresh effect => ⟨_,run.step effect,fresh⟩
  cases call with
  | createMailbox name owner overrideToken lookUp =>
    obtain ⟨given,did,is⟩ := map_written done
    subst is
    rcases createMailbox_effect did with refused | made
    · exact nothing rfl refused.2
    · exact once rfl made.2
  | repointOwner source target =>
    obtain ⟨given,did,is⟩ := map_written done
    subst is
    rcases repointOwner_effect did with same | moved
    · exact nothing rfl same
    · exact once rfl moved
  | postMessage message draws =>
    obtain ⟨given,did,is⟩ := map_written done
    subst is
    rcases postMessage_effect did with refused | posted
    · exact nothing rfl refused.2
    · obtain ⟨id,_,_,effect⟩ := posted
      exact once rfl effect
  | readMailbox name takenBy acting =>
    obtain ⟨given,did,is⟩ := map_written done
    subst is
    rcases readMailbox_effects kept run did with refused | delivered
    · refine nothing ?_ refused.2
      cases given with
      | written record => exact absurd rfl (refused.1 record)
      | blocked attempted candidates => rfl
      | unknownOwner attempted candidates => rfl
    · obtain ⟨delivery,more,is,goes,fresh⟩ := delivered
      subst is
      exact ⟨more,goes,fresh⟩
  | readMessage id acting =>
    obtain ⟨given,did,is⟩ := map_written done
    subst is
    rcases readMessage_effect did with seen | fresh
    · exact nothing seen.1 seen.2
    · exact once (show (Answer.delivered given).fresh = tookIn [(store,.took id)] from fresh.1) fresh.2
  | markProcessed id box notes acting =>
    obtain ⟨given,did,is⟩ := map_written done
    subst is
    rcases markProcessed_effect did with same | processed
    · exact nothing rfl same
    · exact once rfl processed
  | quarantine id box reason acting =>
    obtain ⟨given,did,is⟩ := map_written done
    subst is
    exact once rfl (quarantine_effect did)

end Mailbox
