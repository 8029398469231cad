import Mathlib.Logic.Relation
import Jojobot.Mailbox.Counts
import Jojobot.Mailbox.Effects

namespace Mailbox
open Library Std Memory Testimony Relation

-- How a message's state may change.
inductive Moves : StateToken → StateToken → Prop where
  | read : Moves (.state .new) (.state .read)
  | processed {prior : MessageState} (unfinished : prior ≠ .processed) : Moves (.state prior) (.state .processed)
  | setAside {prior : MessageState} (unfinished : prior ≠ .processed) : Moves (.state prior) .quarantined

abbrev Reaches := ReflTransGen Moves

section
variable {loaded : List Text} {token : Text → List Text → Text} {countable : Timestamp → Bool} {origin store next now : Store}
  {row : MessageRow} {id name : Text} {mark : Mark} {taken : List (Store × Call)} {marks : List (Store × Mark)}

-- What a call hands out fresh.
def freshOf (loaded : List Text) (token : Text → List Text → Text) (countable : Timestamp → Bool) (store : Store) (call : Call) : List Text :=
  match perform loaded token countable store call with
  | .ok (_,answer) => answer.fresh
  | .error _ => []

def handedOut (loaded : List Text) (token : Text → List Text → Text) (countable : Timestamp → Bool) (taken : List (Store × Call)) : List Text :=
  taken.flatMap fun one => freshOf loaded token countable one.1 one.2

theorem changed_row {change : MessageRow → MessageRow} {deliveries : List (Text × TakenBy)} {event : Change} (kept : Kept store)
    (named : row ∈ store.messages) (frames : Frames change) {was : MessageRow} (has : was ∈ store.messages) :
    ∃ later ∈ (changed store row.id change deliveries event).messages, later.id = was.id ∧
      (later.state = was.state ∨ (was = row ∧ later.state = (change row).state)) := by
  by_cases here : was.id = row.id
  · have isRow := kept.row_unique has named here
    subst isRow
    exact ⟨change was,List.mem_map.mpr ⟨was,has,if_pos rfl⟩,frames.id was,Or.inr ⟨rfl,rfl⟩⟩
  · exact ⟨was,changed_other has here,rfl,Or.inl rfl⟩

-- No message is lost, and its state changes as it may.
theorem Effect.moves (kept : Kept store) (effect : Effect store mark next) (has : row ∈ store.messages) :
    ∃ later ∈ next.messages, later.id = row.id ∧ Reaches row.state later.state := by
  have framed : ∀ {named : MessageRow} {change : MessageRow → MessageRow} {deliveries : List (Text × TakenBy)} {event : Change},
      named ∈ store.messages → Frames change → Moves named.state (change named).state →
      ∃ later ∈ (changed store named.id change deliveries event).messages, later.id = row.id ∧ Reaches row.state later.state := by
    intro named change deliveries event inStore frames moves
    obtain ⟨later,member,same,how⟩ := changed_row kept inStore frames has
    refine ⟨later,member,same,?_⟩
    rcases how with still | moved
    · rw [still]
    · rw [moved.1,moved.2]
      exact .single moves
  cases effect with
  | made new => exact ⟨row,has,rfl,.refl⟩
  | moved held free => exact ⟨_,moved_mem _ _ has,rfl,.refl⟩
  | posted home fresh replaces => exact ⟨row,List.mem_append_left _ has,rfl,.refl⟩
  | took inStore new => exact framed inStore ⟨fun _ => rfl,fun _ => rfl,fun _ => rfl,fun _ => rfl,fun _ => rfl⟩ (new ▸ .read)
  | processed inStore state unfinished =>
    exact framed inStore ⟨fun _ => rfl,fun _ => rfl,fun _ => rfl,fun _ => rfl,fun _ => rfl⟩ (state ▸ .processed unfinished)
  | setAside inStore state unfinished home =>
    exact framed inStore ⟨fun _ => rfl,fun _ => rfl,fun _ => rfl,fun _ => rfl,fun _ => rfl⟩ (state ▸ .setAside unfinished)

theorem run_kept (kept : Kept origin) (run : Run Effect origin marks now) : Kept now :=
  (run.keeps kept fun kept effect => kept.effect effect).1

theorem run_moves (kept : Kept origin) (run : Run Effect origin marks now) (has : row ∈ origin.messages) :
    ∃ later ∈ now.messages, later.id = row.id ∧ Reaches row.state later.state := by
  induction run with
  | start => exact ⟨row,has,rfl,.refl⟩
  | step earlier effect ih =>
    obtain ⟨middle,member,same,reaches⟩ := ih
    obtain ⟨later,last,again,further⟩ := effect.moves (run_kept kept earlier) member
    exact ⟨later,last,again.trans same,reaches.trans further⟩

theorem stays_left {first last : StateToken} (left : first ≠ .state .new) (reaches : Reaches first last) : last ≠ .state .new := by
  induction reaches with
  | refl => exact left
  | tail _ move _ => cases move <;> nofun

-- A message is taken once: what was taken is never new again.
theorem took_once (run : Run Effect {} marks now) :
    (tookIn marks).Nodup ∧ ∀ id ∈ tookIn marks, ∃ row ∈ now.messages, row.id = id ∧ row.state ≠ .state .new := by
  induction run with
  | start => exact ⟨List.nodup_nil,fun _ none' => absurd none' List.not_mem_nil⟩
  | @step taken before last mark earlier effect ih =>
    obtain ⟨apart,left⟩ := ih
    have kept := run_kept empty_kept earlier
    have stays : ∀ id ∈ tookIn taken, ∃ row ∈ last.messages, row.id = id ∧ row.state ≠ .state .new := by
      intro id member
      obtain ⟨row,has,same,moved⟩ := left id member
      obtain ⟨later,inLast,again,reaches⟩ := effect.moves kept has
      exact ⟨later,inLast,again.trans same,stays_left moved reaches⟩
    have shape : tookIn (taken ++ [(before,mark)]) = tookIn taken ++ mark.took?.toList := by
      unfold tookIn
      rw [List.filterMap_append]
      congr 1
    rw [shape]
    cases effect with
    | @took row takenBy acting box has new =>
      refine ⟨apart.append (List.nodup_singleton _) ?_,?_⟩
      · intro id before here
        obtain ⟨other,inBefore,same,moved⟩ := left id before
        have isRow := kept.row_unique inBefore has (same.trans (List.mem_singleton.mp here))
        exact moved (isRow ▸ new)
      · intro id member
        rcases List.mem_append.mp member with before | here
        · exact stays id before
        · exact ⟨_,List.mem_map.mpr ⟨row,has,if_pos rfl⟩,(List.mem_singleton.mp here).symm,nofun⟩
    | made new => exact ⟨(List.append_nil _).symm ▸ apart,(List.append_nil (tookIn taken)).symm ▸ stays⟩
    | moved held free => exact ⟨(List.append_nil _).symm ▸ apart,(List.append_nil (tookIn taken)).symm ▸ stays⟩
    | posted home fresh replaces => exact ⟨(List.append_nil _).symm ▸ apart,(List.append_nil (tookIn taken)).symm ▸ stays⟩
    | processed has state unfinished => exact ⟨(List.append_nil _).symm ▸ apart,(List.append_nil (tookIn taken)).symm ▸ stays⟩
    | setAside has state unfinished home => exact ⟨(List.append_nil _).symm ▸ apart,(List.append_nil (tookIn taken)).symm ▸ stays⟩

-- A run of calls, as the effects it had.
theorem run_effects (kept : Kept origin) (run : Run (Step loaded token countable) origin taken now) :
    ∃ marks, Run Effect origin marks now ∧ tookIn marks = handedOut loaded token countable taken := by
  induction run with
  | start => exact ⟨[],.start,rfl⟩
  | @step taken before last call earlier step ih =>
    obtain ⟨marks,effects,same⟩ := ih
    have keptBefore := run_kept kept effects
    unfold handedOut
    rw [List.flatMap_append]
    change last = after loaded token countable before call at step
    unfold after at step
    cases done : perform loaded token countable before call with
    | error why =>
      rw [done] at step
      have fresh : freshOf loaded token countable before call = [] := by
        unfold freshOf
        rw [done]
      refine ⟨marks,step ▸ effects,?_⟩
      rw [same,List.flatMap_singleton,fresh,List.append_nil]
      rfl
    | ok pair =>
      obtain ⟨next,answer⟩ := pair
      rw [done] at step
      obtain ⟨more,goes,fresh⟩ := perform_effects keptBefore effects done
      have here : freshOf loaded token countable before call = answer.fresh := by
        unfold freshOf
        rw [done]
      refine ⟨marks ++ more,step ▸ goes,?_⟩
      rw [List.flatMap_singleton,here,fresh]
      unfold tookIn at same ⊢
      rw [List.filterMap_append,same]
      rfl

def withheld (message : Message) : Bool := message.state = .new && message.supersededBy.isSome

theorem deliver_given (takenBy : TakenBy) (acting : Acting) (name : Text) (messages : List Message) (taking : Taking) :
    (messages.foldl (deliver takenBy acting name) taking).delivered.map (·.message.id) =
      taking.delivered.map (·.message.id) ++ (messages.filter (!withheld ·)).map (·.id) := by
  induction messages generalizing taking with
  | nil => exact (List.append_nil _).symm
  | cons message rest ih =>
    rw [List.foldl_cons,ih]
    unfold deliver
    cases held : (if message.state = .new then message.supersededBy else none) with
    | some replacement =>
      have kept : withheld message = true := by
        unfold withheld
        split at held
        · rename_i new
          rw [held,decide_eq_true new]
          rfl
        · cases held
      rw [List.filter_cons_of_neg (by rw [kept]; exact Bool.false_ne_true)]
    | none =>
      have given : withheld message = false := by
        unfold withheld
        split at held
        · rw [held]
          exact Bool.and_false _
        · rename_i old
          rw [decide_eq_false old]
          rfl
      rw [List.filter_cons_of_pos (by rw [given]; rfl),List.map_append,List.append_assoc]
      rfl

-- What a delivery of a box hands over of a message nobody has taken.
theorem readMailbox_gives {takenBy : TakenBy} {acting : Acting} {delivery : Delivery} (kept : Kept store)
    (done : readMailbox countable store name takenBy acting = .ok (next,.written delivery)) (has : row ∈ store.messages)
    (new : row.state = .state .new) (home : row.mailbox = name) :
    row.id ∈ delivery.messages.map (·.message.id) ↔ ∀ other ∈ store.messages, other.replaces row.id = false := by
  unfold readMailbox at done
  obtain ⟨_,_,done⟩ := bind_ok.mp done
  split at done
  · cases done
  · cases done
    rw [deliver_given,List.map_nil,List.nil_append,List.mem_map]
    have offered : store.messageOf row .new ∈ toDeliver countable store name :=
      mem_toDeliver.mpr ⟨row,has,home,.new,new,by decide,rfl⟩
    have isWithheld : withheld (store.messageOf row .new) = store.replaced row.id := supersededBy_isSome store row.id
    constructor
    · intro found other inStore
      obtain ⟨message,member,same⟩ := found
      obtain ⟨inList,free⟩ := List.mem_filter.mp member
      have isRow : message = store.messageOf row .new := List.inj_on_of_nodup_map (toDeliver_apart kept name) inList offered same
      rw [isRow,isWithheld,Bool.not_eq_true'] at free
      exact Bool.eq_false_iff.mpr (List.any_eq_false.mp free other inStore)
    · intro free
      refine ⟨_,List.mem_filter.mpr ⟨offered,?_⟩,rfl⟩
      rw [isWithheld,Bool.not_eq_true']
      exact List.any_eq_false.mpr fun other inStore => Bool.eq_false_iff.mp (free other inStore)

theorem readMailbox_written (valid : validateMailboxName name = .ok ()) (held : name ∈ store.boxes.map (·.name)) (takenBy : TakenBy)
    (acting : Acting) : ∃ next delivery, readMailbox countable store name takenBy acting = .ok (next,.written delivery) := by
  have proceeds : decideExisting name (names store) = .proceed := if_pos (List.contains_iff_mem.mpr (mem_names.mpr held))
  unfold readMailbox
  rw [valid,proceeds]
  exact ⟨_,_,rfl⟩

-- A message once posted is there still, in one box.
theorem posted_once (run : Run (Step loaded token countable) {} taken now) :
    ∀ one ∈ taken, ∀ next record, perform loaded token countable one.1 one.2 = .ok (next,.posted (.written record)) →
      ∃ row ∈ now.messages, row.id = record.id := by
  induction run with
  | start => exact fun one none' => absurd none' List.not_mem_nil
  | @step taken before last call earlier step ih =>
    obtain ⟨marks,effects,_⟩ := run_effects empty_kept earlier
    have kept := run_kept empty_kept effects
    intro one member next record done
    rcases List.mem_append.mp member with before | here
    · obtain ⟨row,has,same⟩ := ih one before next record done
      obtain ⟨more,goes,_⟩ := run_effects kept (Run.start.step step)
      obtain ⟨later,inLast,again,_⟩ := run_moves kept goes has
      exact ⟨later,inLast,again.trans same⟩
    · rw [List.mem_singleton.mp here] at done
      change last = after loaded token countable before call at step
      unfold after at step
      rw [done] at step
      subst step
      cases call with
      | postMessage message draws =>
        obtain ⟨given,did,is⟩ := map_written done
        cases is
        rcases postMessage_effect did with refused | posted
        · exact absurd rfl (refused.1 record)
        · obtain ⟨id,written,made,_⟩ := posted
          cases written
          subst made
          exact ⟨_,List.mem_append_right _ (List.mem_singleton_self _),rfl⟩
      | createMailbox name owner overrideToken lookUp =>
        obtain ⟨given,_,is⟩ := map_written done
        cases is
      | repointOwner source target =>
        obtain ⟨given,_,is⟩ := map_written done
        cases is
      | readMailbox name takenBy acting =>
        obtain ⟨given,_,is⟩ := map_written done
        cases is
      | readMessage id acting =>
        obtain ⟨given,_,is⟩ := map_written done
        cases is
      | markProcessed id box notes acting =>
        obtain ⟨given,_,is⟩ := map_written done
        cases is
      | quarantine id box reason acting =>
        obtain ⟨given,_,is⟩ := map_written done
        cases is

theorem eventsOf_held (kept : Kept store) (has : row ∈ store.messages) : eventsOf store row.id = heldEvents store row.id := by
  have numbered := (kept.told row has).1
  unfold eventsOf
  change sortBy _ (heldEvents store row.id) = _
  apply sortBy_eq (List.Perm.refl _)
  have apart : ((heldEvents store row.id).map (·.ordinal)).Pairwise (· < ·) := by
    unfold Numbered at numbered
    rw [numbered]
    exact List.pairwise_map.mpr (List.pairwise_lt_range.imp Nat.succ_lt_succ)
  exact (List.pairwise_map.mp apart).imp fun less => compareOfLessAndEq_eq_lt.mpr less

theorem count_one {α κ : Type} [DecidableEq κ] {key : α → κ} {items : List α} (apart : (items.map key).Nodup) {one : κ}
    (held : one ∈ items.map key) : items.countP (key · = one) = 1 := by
  have counted := List.count_eq_one_of_mem apart held
  rw [List.count,List.countP_map] at counted
  exact counted

-- Mail is conserved, and delivered fresh once.
theorem mail_is_conserved (run : Run (Step loaded token countable) {} taken now) :
    (∀ one ∈ taken, ∀ next record, perform loaded token countable one.1 one.2 = .ok (next,.posted (.written record)) →
      now.messages.countP (·.id = record.id) = 1 ∧
      ∀ row ∈ now.messages, row.id = record.id → now.boxes.countP (·.name = row.mailbox) = 1) ∧
    (∀ later last, Run (Step loaded token countable) now later last →
      ∀ row ∈ now.messages, ∃ after ∈ last.messages, after.id = row.id ∧ Reaches row.state after.state) ∧
    (handedOut loaded token countable taken).Nodup ∧
    (∀ row ∈ now.messages, ∀ target, row.replaces target = true →
      (∃ old ∈ now.messages, old.id = target ∧ old.sender = row.sender ∧ old.mailbox = row.mailbox) ∧
      ∀ other ∈ now.messages, other.replaces target = true → other = row) ∧
    (∀ row ∈ now.messages, row.state = .state .new → ∀ takenBy acting,
      (validateMailboxName row.mailbox = .ok () →
        ∃ next delivery, readMailbox countable now row.mailbox takenBy acting = .ok (next,.written delivery)) ∧
      ∀ next delivery, readMailbox countable now row.mailbox takenBy acting = .ok (next,.written delivery) →
        (row.id ∈ delivery.messages.map (·.message.id) ↔ ∀ other ∈ now.messages, other.supersedes = some row.id → other.state = .quarantined)) ∧
    (∀ box ∈ listMailboxes countable now,
      box.counts.total + box.quarantined.length = now.messages.countP (·.mailbox = box.name)) ∧
    ∀ row ∈ now.messages, Numbered (eventsOf now row.id) ∧ Led (.state .new) (eventsOf now row.id) row.state := by
  obtain ⟨marks,effects,handed⟩ := run_effects empty_kept run
  have kept := run_kept empty_kept effects
  refine ⟨?_,?_,?_,?_,?_,?_,?_⟩
  · intro one member next record done
    obtain ⟨row,has,same⟩ := posted_once run one member next record done
    refine ⟨count_one kept.ids (List.mem_map.mpr ⟨row,has,same⟩),?_⟩
    intro row has _
    exact count_one kept.boxes (kept.homes row has)
  · intro later last further row has
    obtain ⟨more,goes,_⟩ := run_effects kept further
    exact run_moves kept goes has
  · rw [← handed]
    exact (took_once effects).1
  · intro row has target does
    have named : row.supersedes = some target := by
      unfold MessageRow.replaces at does
      exact of_decide_eq_true (Bool.and_eq_true_iff.mp does).1
    exact ⟨kept.replaces row has target named,fun other inStore also => kept.once other inStore row has target also does⟩
  · intro row has new takenBy acting
    refine ⟨fun valid => readMailbox_written valid (kept.homes row has) takenBy acting,?_⟩
    intro next delivery done
    rw [readMailbox_gives kept done has new rfl]
    unfold MessageRow.replaces
    simp only [Bool.and_eq_false_imp,decide_eq_true_eq,decide_eq_false_iff_not,not_not]
  · intro box member
    obtain ⟨row,_,made⟩ := List.mem_map.mp member
    subst made
    exact box_total countable now row.name
  · intro row has
    rw [eventsOf_held kept has]
    exact kept.told row has

end

def opening : Call := .createMailbox ['b'] "bot:b".toList none .known

def note : NewMessage where
  mailbox := ['b']
  body := ['t']
  subject := none
  sender := ['s']
  sentAt := 0
  inReplyTo := none
  supersedes := none
  senderMailWaitingAtSend := none
  postedBySession := none

def opened : Store := after [BOT] (fun _ _ => []) (fun _ => true) {} opening
def mailed : Store := after [BOT] (fun _ _ => []) (fun _ => true) opened (.postMessage note [['m']])
def finished : Store := after [BOT] (fun _ _ => []) (fun _ => true) mailed (.markProcessed ['m'] ['b'] none ⟨none,0⟩)

def rewritten : NewMessage := { note with body := ['u'], supersedes := some ['m'] }

-- A message is replaced, its replacement handed over and then set aside.
def withdrawal : List Call := [opening,.postMessage note [['m']],.postMessage rewritten [['n']],
  .readMailbox ['b'] .reading ⟨none,1⟩,.quarantine ['n'] ['b'] ['w'] ⟨none,2⟩]

def withdrawalSteps : List (Store × Call) :=
  played (fun store call => some (after [BOT] (fun _ _ => []) (fun _ => true) store call)) {} withdrawal

def withdrawn : Store := withdrawal.foldl (after [BOT] (fun _ _ => []) fun _ => true) {}

theorem a_replaced_message_is_handed_over_at_last :
    (withdrawn.messages.countP (·.id = ['n']) = 1 ∧ withdrawn.messages.map (fun row => (row.id,row.state)) =
      [(['m'],.state .new),(['n'],.quarantined)]) ∧
    (handedOut [BOT] (fun _ _ => []) (fun _ => true) withdrawalSteps = [['n']] ∧
      (handedOut [BOT] (fun _ _ => []) (fun _ => true) withdrawalSteps).Nodup) ∧
    ∃ next delivery, readMailbox (fun _ => true) withdrawn ['b'] .reading ⟨none,3⟩ = .ok (next,.written delivery) ∧
      ['m'] ∈ delivery.messages.map (·.message.id) := by
  have run : Run (Step [BOT] (fun _ _ => []) (fun _ => true)) {} withdrawalSteps withdrawn :=
    Run.start.plays (fun stepped => (Option.some.inj stepped).symm) withdrawal rfl
  obtain ⟨posted,_,once,_,delivered,_⟩ := mail_is_conserved run
  obtain ⟨row,has,same,new,home,free⟩ : ∃ row ∈ withdrawn.messages, row.id = ['m'] ∧ row.state = .state .new ∧ row.mailbox = ['b'] ∧
      ∀ other ∈ withdrawn.messages, other.supersedes = some row.id → other.state = .quarantined := by
    decide +kernel
  obtain ⟨reads,gives⟩ := delivered row has new .reading ⟨none,3⟩
  rw [home] at reads gives
  obtain ⟨next,delivery,done⟩ := reads (by decide +kernel)
  refine ⟨⟨?_,by decide +kernel⟩,⟨by decide +kernel,once⟩,next,delivery,done,?_⟩
  · have written : perform [BOT] (fun _ _ => []) (fun _ => true) mailed (.postMessage rewritten [['n']]) =
        .ok (after [BOT] (fun _ _ => []) (fun _ => true) mailed (.postMessage rewritten [['n']]),
          .posted (.written (stored (filed mailed rewritten ['n'])))) := by
      decide +kernel
    have member : (mailed,.postMessage rewritten [['n']]) ∈ withdrawalSteps := .tail _ (.tail _ (.head _))
    exact (posted _ member _ _ written).1
  · rw [←same]
    exact (gives next delivery done).mpr free

-- Nobody need have read a message for it to be finished.
theorem a_new_message_is_finished : Run (Step [BOT] (fun _ _ => []) (fun _ => true)) {}
      [({},opening),(opened,.postMessage note [['m']]),(mailed,.markProcessed ['m'] ['b'] none ⟨none,0⟩)] finished ∧
    mailed.messages.map (fun row => (row.id,row.state)) = [(['m'],.state .new)] ∧
    finished.messages.map (fun row => (row.id,row.state)) = [(['m'],.state .processed)] :=
  ⟨.step (.step (.step .start rfl) rfl) rfl,by decide +kernel,by decide +kernel⟩

end Mailbox
