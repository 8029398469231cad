import Jojobot.Library.Runs
import Jojobot.Mailbox.Kept

namespace Mailbox
open Library Std Memory Testimony

-- A call of the port, with what the index of owners answers it and what is drawn for it.
inductive Call where
  | createMailbox (name : Text) (owner : EntityId) (overrideToken : Option Text) (lookUp : OwnerLookup)
  | repointOwner (source target : EntityId)
  | postMessage (message : NewMessage) (draws : List Text)
  | readMailbox (name : Text) (takenBy : TakenBy) (acting : Acting)
  | readMessage (id : Text) (acting : Acting)
  | markProcessed (id box : Text) (notes : Option Text) (acting : Acting)
  | quarantine (id box reason : Text) (acting : Acting)

inductive Answer where
  | made (answer : Guarded Box)
  | repointed (answer : Option Box)
  | posted (answer : Guarded Message)
  | delivery (answer : Guarded Delivery)
  | delivered (answer : Delivered)
  | processed (answer : Message)
  | setAside (answer : Quarantined)
deriving DecidableEq

def perform (loaded : List Text) (token : Text → List Text → Text) (countable : Timestamp → Bool) (store : Store) :
    Call → Answered (Store × Answer)
  | .createMailbox name owner overrideToken lookUp =>
    (createMailbox loaded token store name owner overrideToken lookUp).map (Prod.map id .made)
  | .repointOwner source target => (repointOwner loaded countable store source target).map (Prod.map id .repointed)
  | .postMessage message draws => (postMessage countable store message draws).map (Prod.map id .posted)
  | .readMailbox name takenBy acting => (readMailbox countable store name takenBy acting).map (Prod.map id .delivery)
  | .readMessage message acting => (readMessage countable store message acting).map (Prod.map id .delivered)
  | .markProcessed message box notes acting => (markProcessed countable store message box notes acting).map (Prod.map id .processed)
  | .quarantine message box reason acting => (quarantine countable store message box reason acting).map (Prod.map id .setAside)

-- A refused call writes nothing.
def after (loaded : List Text) (token : Text → List Text → Text) (countable : Timestamp → Bool) (store : Store) (call : Call) : Store :=
  match perform loaded token countable store call with
  | .ok (next,_) => next
  | .error _ => store

def Step (loaded : List Text) (token : Text → List Text → Text) (countable : Timestamp → Bool) (before : Store) (call : Call) (now : Store) :
    Prop := now = after loaded token countable before call

def freshIn (delivered : List Delivered) : List Text := (delivered.filter (!·.seenBefore)).map (·.message.id)

-- The messages an answer hands out that nobody has seen.
def Answer.fresh : Answer → List Text
  | .delivery (.written given) => freshIn given.messages
  | .delivered given => freshIn [given]
  | _ => []

def Mark.took? : Mark → Option Text
  | .took id => some id
  | _ => none

variable {loaded : List Text} {token : Text → List Text → Text} {countable : Timestamp → Bool} {store next : Store} {row : MessageRow}
  {id : Text} {message : Message}

theorem cardFrom_readable {ordinal : Nat} (read : cardFrom store row = .readable message ordinal) :
    ∃ state, row.state = .state state ∧ message = store.messageOf row state ∧ ordinal = row.ordinal := by
  unfold cardFrom at read
  cases token : row.state with
  | quarantined =>
    rw [token] at read
    dsimp only at read
    split at read
    · cases read
    · cases read
  | state state =>
    rw [token] at read
    cases read
    exact ⟨state,rfl,rfl,rfl⟩

theorem cardFrom_id (store : Store) (row : MessageRow) : (cardFrom store row).id = row.id := by
  unfold cardFrom
  split
  · split
    · rfl
    · rfl
  · rfl

theorem mem_cards {scope : Scope} {card : Card} :
    card ∈ cards countable store scope ↔ ∃ row ∈ store.messages, scope.asks countable row = true ∧ cardFrom store row = card := by
  unfold cards
  rw [mem_sortBy,List.mem_map]
  constructor
  · intro found
    obtain ⟨row,member,same⟩ := found
    obtain ⟨has,asked⟩ := List.mem_filter.mp member
    exact ⟨row,has,asked,same⟩
  · intro found
    obtain ⟨row,has,asked,same⟩ := found
    exact ⟨row,List.mem_filter.mpr ⟨has,asked⟩,same⟩

-- A verb that addresses an id is answered of the row as it stands.
theorem addressed_ok (found : addressed countable store id = .ok message) :
    ∃ row ∈ store.messages, row.id = id ∧ ∃ state, row.state = .state state ∧ message = store.messageOf row state := by
  unfold addressed at found
  split at found
  · cases found
  · rename_i card search
    obtain ⟨row,has,_,same⟩ := mem_cards.mp (List.mem_of_find?_eq_some search)
    have isId : card.id = id := by simpa using List.find?_some search
    refine ⟨row,has,?_,?_⟩
    · rw [← cardFrom_id store row,same]
      exact isId
    · cases card with
      | readable held ordinal =>
        cases found
        obtain ⟨state,is,made,_⟩ := cardFrom_readable same
        exact ⟨state,is,made⟩
      | unreadable => cases found
      | quarantined => cases found

theorem mem_toDeliver {name : Text} : message ∈ toDeliver countable store name ↔
    ∃ row ∈ store.messages, row.mailbox = name ∧ ∃ state, row.state = .state state ∧ state ≠ .processed ∧ message = store.messageOf row state := by
  unfold toDeliver
  rw [List.mem_filter,List.mem_filterMap]
  constructor
  · intro found
    obtain ⟨⟨card,member,read⟩,unprocessed⟩ := found
    obtain ⟨inCards,_⟩ := List.mem_filter.mp member
    obtain ⟨row,has,asked,same⟩ := mem_cards.mp inCards
    cases card with
    | readable held ordinal =>
      cases read
      obtain ⟨state,is,made,_⟩ := cardFrom_readable same
      have home : row.mailbox = name := of_decide_eq_true (Bool.and_eq_true_iff.mp asked).1
      subst made
      exact ⟨row,has,home,state,is,of_decide_eq_true unprocessed,rfl⟩
    | unreadable => cases read
    | quarantined => cases read
  · intro found
    obtain ⟨row,has,home,state,is,unprocessed,made⟩ := found
    subst made
    have read : cardFrom store row = .readable (store.messageOf row state) row.ordinal := by
      unfold cardFrom
      rw [is]
    refine ⟨⟨_,List.mem_filter.mpr ⟨mem_cards.mpr ⟨row,has,?_,read⟩,decide_eq_true home⟩,rfl⟩,decide_eq_true unprocessed⟩
    apply Bool.and_eq_true_iff.mpr
    refine ⟨decide_eq_true home,?_⟩
    unfold countableIn
    rw [is]
    simp [unprocessed]

theorem readable_ids (cards : List Card) : ((cards.filterMap Card.readable?).map (·.id)).Sublist (cards.map Card.id) := by
  induction cards with
  | nil => exact List.Sublist.refl _
  | cons card rest ih =>
    cases card with
    | readable message ordinal => exact ih.cons_cons _
    | unreadable => exact ih.cons _
    | quarantined => exact ih.cons _

theorem toDeliver_apart (kept : Kept store) (name : Text) : ((toDeliver countable store name).map (·.id)).Nodup := by
  have whole : ((cards countable store (.unprocessed name)).map Card.id).Nodup := by
    unfold cards
    apply ((sortBy_perm _ _).map _).nodup_iff.mpr
    rw [List.map_map]
    have ids : (store.messages.filter ((Scope.unprocessed name).asks countable)).map (Card.id ∘ cardFrom store) =
        (store.messages.filter ((Scope.unprocessed name).asks countable)).map (·.id) :=
      List.map_congr_left fun row _ => cardFrom_id store row
    rw [ids]
    exact kept.ids.sublist (List.filter_sublist.map _)
  unfold toDeliver
  exact whole.sublist ((List.filter_sublist.map _).trans ((readable_ids _).trans (List.filter_sublist.map _)))

theorem appendMessageEvent_changed (change : MessageRow → MessageRow) (deliveries : List (Text × TakenBy)) (event : Change) :
    appendMessageEvent { updateRow store id change with deliveries := deliveries } id event = changed store id change deliveries event := by
  unfold appendMessageEvent changed updateRow heldEvents
  dsimp only
  rw [List.map_map]
  rfl

theorem takeNew_changed (takenBy : TakenBy) (acting : Acting) (box : Text) : takeNew store id takenBy acting box =
    changed store id (fun row => { row with state := .state .read }) (store.deliveries ++ [(id,takenBy)])
      { kind := .read, acting := acting, byBox := box, priorState := .new } :=
  appendMessageEvent_changed ..

end Mailbox
