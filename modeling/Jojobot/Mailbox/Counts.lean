import Jojobot.Mailbox.Calls

namespace Mailbox
open Library Std Memory Testimony

variable {countable : Timestamp → Bool} {store : Store} {row : MessageRow} {id name : Text}

def Store.replaced (store : Store) (id : Text) : Bool := store.messages.any (·.replaces id)

theorem supersededBy_isSome (store : Store) (id : Text) : (store.supersededBy id).isSome = store.replaced id := by
  unfold Store.supersededBy Store.replaced
  rw [Option.isSome_map]
  cases found : store.messages.any (·.replaces id) with
  | true =>
    obtain ⟨row,has,does⟩ := List.any_eq_true.mp found
    have member : row ∈ sortBy (compareOn (·.ordinal)) (store.messages.filter (·.replaces id)) :=
      mem_sortBy.mpr (List.mem_filter.mpr ⟨has,does⟩)
    exact List.getLast?_isSome.mpr (List.ne_nil_of_mem member)
  | false =>
    have empty : store.messages.filter (·.replaces id) = [] := by
      apply List.filter_eq_nil_iff.mpr
      intro row has
      exact List.any_eq_false.mp found row has
    have sorted := (sortBy_perm (compareOn (·.ordinal)) (store.messages.filter (·.replaces id)))
    rw [empty] at sorted ⊢
    rw [sorted.eq_nil]
    rfl

-- What a box counts a message as.
inductive Standing where
  | waiting | superseded | read | processed
deriving DecidableEq, Repr

def standing (state : MessageState) (replaced : Bool) : Standing :=
  match state with
  | .new => if replaced then .superseded else .waiting
  | .read => .read
  | .processed => .processed

def Message.standing (message : Message) : Standing := Mailbox.standing message.state message.supersededBy.isSome

-- What a row of the table is counted as, quarantined ones not at all.
def Store.standing (store : Store) (row : MessageRow) : Option Standing :=
  match row.state with
  | .state state => some (Mailbox.standing state (store.replaced row.id))
  | .quarantined => none

theorem messageOf_standing (store : Store) (row : MessageRow) (state : MessageState) :
    (store.messageOf row state).standing = Mailbox.standing state (store.replaced row.id) := by
  unfold Message.standing Store.messageOf
  dsimp only
  rw [supersededBy_isSome]

def StateCounts.more (counts : StateCounts) (count : Standing → Nat) : StateCounts where
  new := counts.new+count .waiting
  read := counts.read+count .read
  processed := counts.processed+count .processed
  superseded := counts.superseded+count .superseded

def StateCounts.of (count : Standing → Nat) : StateCounts := ({} : StateCounts).more count

theorem tallyCard_more (counts : StateCounts) (message : Message) :
    tallyCard counts message = counts.more fun one => if message.standing = one then 1 else 0 := by
  unfold tallyCard Message.standing Mailbox.standing StateCounts.more
  cases message.state with
  | new =>
    cases message.supersededBy with
    | none => rfl
    | some other => simp [StateCounts.add,StateCounts.addSuperseded]
  | read => rfl
  | processed => rfl

theorem foldl_tallyCard (messages : List Message) (counts : StateCounts) :
    messages.foldl tallyCard counts = counts.more fun one => messages.countP (·.standing = one) := by
  induction messages generalizing counts with
  | nil => rfl
  | cons message rest ih =>
    rw [List.foldl_cons,ih,tallyCard_more]
    unfold StateCounts.more
    simp only [List.countP_cons,decide_eq_true_eq,Nat.add_assoc,Nat.add_comm]

theorem add_iterate (n : Nat) (counts : StateCounts) (state : MessageState) :
    (StateCounts.add · state)^[n] counts = counts.more fun one => if standing state false = one then n else 0 := by
  induction n generalizing counts with
  | zero =>
    unfold StateCounts.more
    simp
  | succ n ih =>
    rw [Function.iterate_succ_apply,ih]
    unfold StateCounts.more
    cases state with
    | new =>
      simp [StateCounts.add,standing]
      omega
    | read =>
      simp [StateCounts.add,standing]
      omega
    | processed =>
      simp [StateCounts.add,standing]
      omega

theorem addSuperseded_iterate (n : Nat) (counts : StateCounts) :
    StateCounts.addSuperseded^[n] counts = { counts with new := counts.new-n, superseded := counts.superseded+n } := by
  induction n generalizing counts with
  | zero => rfl
  | succ n ih =>
    rw [Function.iterate_succ_apply,ih]
    unfold StateCounts.addSuperseded
    dsimp only
    rw [Nat.sub_sub,Nat.add_assoc,Nat.add_comm 1 n]

-- The rows of a box that count for one standing.
def countIn (store : Store) (name : Text) (one : Standing) : Nat :=
  store.messages.countP fun row => row.mailbox = name && store.standing row = some one

def countWhere (store : Store) (name : Text) (keep : MessageRow → Bool) (one : Standing) : Nat :=
  store.messages.countP fun row => keep row && (row.mailbox = name && store.standing row = some one)

theorem countP_split (rows : List MessageRow) (keep wanted : MessageRow → Bool) :
    rows.countP (fun row => keep row && wanted row) + rows.countP (fun row => !keep row && wanted row) = rows.countP wanted := by
  induction rows with
  | nil => rfl
  | cons row rest ih =>
    simp only [List.countP_cons]
    cases keep row with
    | true =>
      cases wanted row with
      | true => simp; omega
      | false => simpa using ih
    | false =>
      cases wanted row with
      | true => simp; omega
      | false => simpa using ih

theorem group_split (rows : List MessageRow) (inGroup replaced : MessageRow → Bool) :
    rows.countP inGroup = rows.countP (fun row => inGroup row && !replaced row) + rows.countP (fun row => inGroup row && replaced row) := by
  have split := countP_split rows replaced inGroup
  simp only [Bool.and_comm (inGroup _)]
  omega

theorem standing_eq (store : Store) (row : MessageRow) (one : Standing) : decide (store.standing row = some one) =
    match one with
    | .waiting => row.state = .state .new && !store.replaced row.id
    | .superseded => row.state = .state .new && store.replaced row.id
    | .read => row.state = .state .read
    | .processed => row.state = .state .processed := by
  unfold Store.standing Mailbox.standing
  cases row.state with
  | quarantined => cases one <;> rfl
  | state state =>
    cases state with
    | new =>
      cases store.replaced row.id with
      | true => cases one <;> rfl
      | false => cases one <;> rfl
    | read => cases one <;> rfl
    | processed => cases one <;> rfl

-- A group the store counts, off the rows it is made of.
theorem group_length (keep : MessageRow → Bool) (store : Store) (name : Text) (state : MessageState) :
    (store.messages.filter fun row => row.mailbox = name && (row.state = .state state && keep row)).length =
      store.messages.countP fun row => keep row && (row.mailbox = name && row.state = .state state) := by
  rw [← List.countP_eq_length_filter]
  apply List.countP_congr
  intro row _
  simp only [Bool.and_eq_true,decide_eq_true_eq]
  tauto

theorem counted_more (countable : Timestamp → Bool) (store : Store) (name : Text) :
    counted countable store name = .of (countWhere store name (countableIn countable everyState)) := by
  unfold counted
  generalize countableIn countable everyState = keep
  have split := group_split store.messages (fun row => keep row && (row.mailbox = name && row.state = .state .new)) fun row => store.replaced row.id
  have waiting : countWhere store name keep .waiting =
      store.messages.countP fun row => (keep row && (row.mailbox = name && row.state = .state .new)) && !store.replaced row.id := by
    unfold countWhere
    simp only [standing_eq,Bool.and_assoc]
  have superseded : countWhere store name keep .superseded =
      store.messages.countP fun row => (keep row && (row.mailbox = name && row.state = .state .new)) && store.replaced row.id := by
    unfold countWhere
    simp only [standing_eq,Bool.and_assoc]
  have read : countWhere store name keep .read = store.messages.countP fun row => keep row && (row.mailbox = name && row.state = .state .read) := by
    unfold countWhere
    simp only [standing_eq]
  have processed : countWhere store name keep .processed =
      store.messages.countP fun row => keep row && (row.mailbox = name && row.state = .state .processed) := by
    unfold countWhere
    simp only [standing_eq]
  have replaced : (store.messages.filter fun row => row.mailbox = name && (row.state = .state .new && keep row)).countP
      (fun row => store.messages.any (·.replaces row.id)) =
      store.messages.countP fun row => (keep row && (row.mailbox = name && row.state = .state .new)) && store.replaced row.id := by
    rw [List.countP_filter]
    apply List.countP_congr
    intro row _
    unfold Store.replaced
    simp only [Bool.and_eq_true,decide_eq_true_eq]
    tauto
  simp only [everyState,List.foldl_cons,List.foldl_nil,if_true,reduceCtorEq,if_false]
  rw [add_iterate,addSuperseded_iterate,add_iterate,add_iterate,replaced,group_length,group_length,group_length]
  unfold StateCounts.of StateCounts.more
  rw [waiting,superseded,read,processed]
  simp [standing]
  omega

def StateToken.holds (token : StateToken) (wanted : MessageState → Bool) : Bool :=
  match token with
  | .state held => wanted held
  | .quarantined => false

theorem cardFrom_mailbox (store : Store) (row : MessageRow) : (cardFrom store row).mailbox = row.mailbox := by
  unfold cardFrom
  split
  · split
    · rfl
    · rfl
  · rfl

theorem cardFrom_unread (store : Store) (row : MessageRow) : (cardFrom store row).readable?.isNone = decide (row.state = .quarantined) := by
  unfold cardFrom
  split
  · rename_i aside
    rw [aside]
    split
    · rfl
    · rfl
  · rename_i state is
    rw [is]
    rfl

theorem cardFrom_holds (store : Store) (row : MessageRow) (wanted : Message → Bool) :
    ((cardFrom store row).readable?.map wanted).getD false = row.state.holds fun state => wanted (store.messageOf row state) := by
  unfold cardFrom StateToken.holds
  cases row.state with
  | state state => rfl
  | quarantined =>
    cases row.quarantinedBy with
    | none => rfl
    | some box =>
      cases row.quarantineReason with
      | none => rfl
      | some reason => rfl

-- What is read of the board, counted off the rows.
theorem countP_readable (scope : Scope) (wanted : Message → Bool) : ((cards countable store scope).filterMap Card.readable?).countP wanted =
    store.messages.countP fun row => scope.asks countable row && row.state.holds fun state => wanted (store.messageOf row state) := by
  unfold cards
  rw [List.countP_filterMap,(sortBy_perm _ _).countP_eq,List.countP_map,List.countP_filter]
  apply List.countP_congr
  intro row _
  have holds := cardFrom_holds store row wanted
  simp only [Function.comp,Bool.and_eq_true] at holds ⊢
  rw [holds]
  tauto

theorem rest_more (countable : Timestamp → Bool) (store : Store) (name : Text) (one : Standing) :
    (((cards countable store .notCountable).filterMap Card.readable?).filter (·.mailbox = name)).countP (·.standing = one) =
      countWhere store name (fun row => !countableIn countable everyState row) one := by
  rw [List.countP_filter,countP_readable]
  unfold countWhere
  apply List.countP_congr
  intro row _
  unfold StateToken.holds Store.standing Scope.asks
  cases row.state with
  | quarantined => simp
  | state state =>
    simp only [messageOf_standing,Bool.and_eq_true,decide_eq_true_eq,Option.some.injEq]
    exact ⟨fun both => ⟨both.1,both.2.2,both.2.1⟩,fun both => ⟨both.1,both.2.2,both.2.1⟩⟩

-- However a box is counted, it counts each row it can read for what it is.
theorem tally_of (countable : Timestamp → Bool) (store : Store) (name : Text) : tally countable store name = .of (countIn store name) := by
  unfold tally
  rw [foldl_tallyCard,counted_more]
  have parts : ∀ one, countWhere store name (countableIn countable everyState) one +
      (((cards countable store .notCountable).filterMap Card.readable?).filter (·.mailbox = name)).countP (·.standing = one) =
      countIn store name one := by
    intro one
    rw [rest_more]
    exact countP_split store.messages _ _
  unfold StateCounts.of StateCounts.more
  simp only [Nat.zero_add,parts]

theorem unreadable_length (countable : Timestamp → Bool) (store : Store) (name : Text) :
    (unreadable countable store name).length = store.messages.countP fun row => row.mailbox = name && row.state = .quarantined := by
  unfold unreadable cards
  rw [List.length_map,← List.countP_eq_length_filter,(sortBy_perm _ _).countP_eq,List.countP_map,List.countP_filter]
  apply List.countP_congr
  intro row _
  simp only [Function.comp,cardFrom_unread,cardFrom_mailbox,Bool.and_eq_true,decide_eq_true_eq]
  constructor
  · intro both
    exact ⟨both.1.2,both.1.1⟩
  · intro both
    refine ⟨⟨both.2,both.1⟩,?_⟩
    change (!countableIn countable everyState row) = true
    unfold countableIn
    rw [both.2]
    simp

theorem total_rows (store : Store) (rows : List MessageRow) (home : MessageRow → Bool) :
    rows.countP (fun row => home row && store.standing row = some .waiting) + rows.countP (fun row => home row && store.standing row = some .superseded) +
      rows.countP (fun row => home row && store.standing row = some .read) + rows.countP (fun row => home row && store.standing row = some .processed) +
      rows.countP (fun row => home row && row.state = .quarantined) = rows.countP home := by
  induction rows with
  | nil => rfl
  | cons row rest ih =>
    have aside : store.standing row = none ↔ row.state = .quarantined := by
      unfold Store.standing
      cases row.state with
      | state state => simp
      | quarantined => simp
    simp only [List.countP_cons]
    cases home row with
    | false => simpa using ih
    | true =>
      cases stands : store.standing row with
      | none =>
        have is := aside.mp stands
        simp [is]
        omega
      | some one =>
        have isNot : row.state ≠ .quarantined := fun is => by rw [aside.mpr is] at stands; cases stands
        cases one with
        | waiting => simp [isNot]; omega
        | superseded => simp [isNot]; omega
        | read => simp [isNot]; omega
        | processed => simp [isNot]; omega

-- Nothing in a box goes uncounted.
theorem box_total (countable : Timestamp → Bool) (store : Store) (name : Text) :
    (tally countable store name).total + (unreadable countable store name).length = store.messages.countP (·.mailbox = name) := by
  rw [tally_of,unreadable_length,← total_rows store store.messages (·.mailbox = name)]
  unfold StateCounts.total StateCounts.of StateCounts.more countIn
  simp only [Nat.zero_add]

end Mailbox
