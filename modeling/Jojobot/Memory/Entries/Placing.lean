import Jojobot.Memory.Entries

namespace Entries
open Library Std Memory

-- The records of one list as a store holds them: numbered claims of the list, each
-- once, and every tick naming one of them.
structure ListRecords (list : EntityId) (facts : List Fact) : Prop where
  onAList : onAList list = true
  home : ∀ fact ∈ facts, fact.home = list
  numbered : ∀ fact ∈ facts, ∃ n < 2^64, fact.id = 'f' :: printNat n
  once : (facts.map (·.id)).Nodup
  named : ∀ tick ∈ facts, tick.status = .active → isTick tick = true → ∃ fact ∈ facts, fact.id = namedBy tick

variable {facts after : List Fact} {list : EntityId} {fact entry : Fact} {id : Text} {n : Nat} {setting : Setting}
  {moved : Moved} {placement : Placement}

instance : TransCmp slotCmp :=
  inferInstanceAs (TransCmp (compareLex (compareOn (·.2)) (compareLex (compareOn fun slot : Fact × Nat => orderKey slot.1)
    (compareLex (compareOn fun slot => claimSequence slot.1) (compareOn fun slot => slot.1.id)))))

theorem slotCmp_eq {a b : Fact × Nat} (same : slotCmp a b = .eq) : a.1.id = b.1.id := by
  simp only [slotCmp,compareLex_eq_eq] at same
  exact LawfulEqOrd.eq_of_compare same.2.2.2

-- An earlier bucket, or an earlier key in the same bucket, reads first.
def Before (a b : Fact × Nat) : Prop := a.2 < b.2 ∨ (a.2 = b.2 ∧ compare (orderKey a.1) (orderKey b.1) = .lt)

theorem Before.trans {a b c : Fact × Nat} (first : Before a b) (second : Before b c) : Before a c := by
  rcases first with earlier | ⟨same,key⟩
  · rcases second with later | ⟨same,_⟩
    · exact .inl (Nat.lt_trans earlier later)
    · exact .inl (same ▸ earlier)
  · rcases second with later | ⟨next,other⟩
    · exact .inl (same ▸ later)
    · exact .inr ⟨same.trans next,TransCmp.lt_trans key other⟩

theorem slotCmp_lt {a b : Fact × Nat} (less : Before a b) : slotCmp a b = .lt := by
  rw [slotCmp,compareLex]
  rcases less with earlier | ⟨same,key⟩
  · rw [show compareOn (·.2) a b = .lt from Nat.compare_eq_lt.mpr earlier]; rfl
  · rw [show compareOn (·.2) a b = .eq from Nat.compare_eq_eq.mpr same,compareLex,
      show compareOn (fun slot : Fact × Nat => orderKey slot.1) a b = .lt from key]
    rfl

theorem slotCmp_bucket {a b : Fact × Nat} (less : slotCmp a b = .lt) : a.2 ≤ b.2 := by
  by_contra more
  have later : b.2 < a.2 := Nat.lt_of_not_le more
  rw [slotCmp,compareLex,show compareOn (·.2) a b = .gt from Nat.compare_eq_gt.mpr later] at less
  cases less

theorem dropWhile_id (n : Nat) : ('f' :: printNat n).dropWhile (· = 'f') = printNat n := by
  rw [List.dropWhile_cons_of_pos (by simp)]
  obtain ⟨c,rest,shape⟩ := List.exists_cons_of_ne_nil (show printNat n ≠ [] from Nat.toDigits_ne_nil)
  have digit : c.isDigit = true := printNat_digit (by rw [shape]; exact List.mem_cons_self)
  rw [shape,List.dropWhile_cons_of_neg]
  simp only [decide_eq_true_eq]
  intro same
  subst same
  cases digit

theorem claimNumber_of (spelled : fact.id = 'f' :: printNat n) (fits : n < 2^64) : claimNumber fact = some n := by
  rw [claimNumber,spelled,dropWhile_id,parseUnsigned_printNat fits]

theorem apart_of_once (once : (facts.map (·.id)).Nodup) : facts.Pairwise fun a b => a.id ≠ b.id :=
  List.pairwise_map.mp once

theorem mem_openEntries : fact ∈ openEntries facts ↔
    fact ∈ facts ∧ fact.status = .active ∧ isEntry fact = true := by
  simp only [openEntries,placedInOrder,List.mem_filter,mem_sortBy,isEntry,Bool.and_eq_true,decide_eq_true_eq]
  tauto

theorem openEntries_apart (once : (facts.map (·.id)).Nodup) : (openEntries facts).Pairwise fun a b => a.id ≠ b.id := by
  have symm : ∀ {a b : Fact}, a.id ≠ b.id → b.id ≠ a.id := fun differ => differ.symm
  refine List.Pairwise.filter _ (((sortBy_perm placedCmp _).pairwise_iff symm).mpr ?_)
  exact (apart_of_once once).filter _

-- What a write of one entry leaves: the entry under its id, every other record as it was.
structure Replaced (facts after : List Fact) (entry : Fact) : Prop where
  once : (facts.map (·.id)).Nodup
  onceAfter : (after.map (·.id)).Nodup
  others : after.filter (·.id ≠ entry.id) = facts.filter (·.id ≠ entry.id)
  there : entry ∈ after
  status : entry.status = .active
  placed : isEntry entry = true
  before : ∀ fact ∈ facts, fact.id = entry.id → isEntry fact = true

theorem entry_no_tick (placed : isEntry fact = true) : isTick fact = false := by
  simp only [isEntry,Bool.and_eq_true] at placed
  simp [isTick,placed.2]

theorem Replaced.at_id (replaced : Replaced facts after entry) (member : fact ∈ after) (same : fact.id = entry.id) :
    fact = entry := List.inj_on_of_nodup_map replaced.onceAfter member replaced.there same

theorem filter_ticks (none : ∀ fact ∈ facts, fact.id = id → isTick fact = false) :
    facts.filter (fun fact => fact.status = .active && isTick fact) =
      (facts.filter (·.id ≠ id)).filter fun fact => fact.status = .active && isTick fact := by
  rw [List.filter_filter]
  refine List.filter_congr fun fact member => ?_
  by_cases same : fact.id = id
  · simp [none fact member same]
  · simp [same]

theorem Replaced.ticks (replaced : Replaced facts after entry) : activeTicks after = activeTicks facts := by
  have before : ∀ fact ∈ facts, fact.id = entry.id → isTick fact = false :=
    fun fact member same => entry_no_tick (replaced.before fact member same)
  have now : ∀ fact ∈ after, fact.id = entry.id → isTick fact = false :=
    fun fact member same => replaced.at_id member same ▸ entry_no_tick replaced.placed
  rw [activeTicks,activeTicks,filter_ticks now,filter_ticks before,replaced.others]

theorem Replaced.standing (replaced : Replaced facts after entry) (setting : Setting) (id : Text) :
    standingOf after setting id = standingOf facts setting id := by
  rw [standingOf,standingOf,replaced.ticks]

theorem openEntries_filter (keep : Fact → Bool) :
    (openEntries facts).filter keep = openEntries (facts.filter keep) := by
  rw [openEntries,openEntries,placedInOrder,placedInOrder,List.filter_comm keep,sortBy_filter,
    List.filter_comm keep]

theorem Replaced.open_others (replaced : Replaced facts after entry) :
    (openEntries after).filter (·.id ≠ entry.id) = (openEntries facts).filter (·.id ≠ entry.id) := by
  rw [openEntries_filter,openEntries_filter,replaced.others]

theorem once_perm (apart : facts.Pairwise fun a b => a.id ≠ b.id) (member : entry ∈ facts) :
    facts.Perm (entry :: facts.filter (·.id ≠ entry.id)) := by
  obtain ⟨front,back,rfl⟩ := List.append_of_mem member
  obtain ⟨_,backs,cross⟩ := List.pairwise_append.mp apart
  have keptFront : front.filter (·.id ≠ entry.id) = front := List.filter_eq_self.mpr fun fact inside => by
    simpa using cross fact inside entry List.mem_cons_self
  have keptBack : back.filter (·.id ≠ entry.id) = back := List.filter_eq_self.mpr fun fact inside => by
    simpa using ((List.pairwise_cons.mp backs).1 fact inside).symm
  rw [List.filter_append,List.filter_cons_of_neg (by simp),keptFront,keptBack]
  exact List.perm_middle

theorem Replaced.open_perm (replaced : Replaced facts after entry) :
    (openEntries after).Perm (entry :: (openEntries facts).filter (·.id ≠ entry.id)) := by
  have member : entry ∈ openEntries after := mem_openEntries.mpr ⟨replaced.there,replaced.status,replaced.placed⟩
  rw [← replaced.open_others]
  exact once_perm (openEntries_apart replaced.onceAfter) member

-- The open entries in reading order, and who stands before and after a new slot.
theorem openOf_strict (once : (facts.map (·.id)).Nodup) (setting : Setting) :
    (openOf facts setting).Pairwise fun a b => slotCmp a b = .lt := by
  refine sortBy_strict (List.pairwise_map.mpr ?_)
  exact ((openEntries_apart once).filter _).imp fun differ same => differ (slotCmp_eq same)

theorem openOf_filter (facts : List Fact) (setting : Setting) (id : Text) :
    ((openOf facts setting).filter (·.1.id ≠ id)).Perm
      ((((openEntries facts).filter (·.id ≠ id)).filter fun entry => stateIn facts setting entry.id = .OPEN).map
        fun entry => (entry,bucketOf facts setting entry)) := by
  refine ((sortBy_perm slotCmp _).filter _).trans (.of_eq ?_)
  rw [List.filter_map,List.filter_comm]
  rfl

theorem Replaced.openOf (replaced : Replaced facts after entry) (isOpen : stateIn facts setting entry.id = .OPEN)
    {front back : List (Fact × Nat)} (split : (openOf facts setting).filter (·.1.id ≠ entry.id) = front ++ back)
    (strict : (front ++ (entry,bucketOf after setting entry) :: back).Pairwise fun a b => slotCmp a b = .lt) :
    Entries.openOf after setting = front ++ (entry,bucketOf after setting entry) :: back := by
  have same : ∀ id, stateIn after setting id = stateIn facts setting id := by
    intro id
    rw [stateIn,stateIn,replaced.standing]
  have buckets : ∀ fact, bucketOf after setting fact = bucketOf facts setting fact := by
    intro fact
    rw [bucketOf,bucketOf,replaced.standing]
  refine sortBy_eq ?_ strict
  have before := openOf_filter facts setting entry.id
  rw [split] at before
  have now := (replaced.open_perm.filter fun entry => stateIn after setting entry.id = .OPEN).map
    fun entry => (entry,bucketOf after setting entry)
  rw [List.filter_cons_of_pos (by simp [same,isOpen]),List.map_cons] at now
  simp only [same,buckets] at now before ⊢
  exact (List.perm_middle.trans (before.cons _)).trans now.symm

-- No state but the written entry's own depends on the write.
theorem Replaced.others_in (replaced : Replaced facts after entry) (isOpen : stateIn facts setting entry.id = .OPEN)
    (state : EntryState) (differs : state ≠ .OPEN) :
    (openEntries after).filter (fun fact => stateIn after setting fact.id = state) =
      (openEntries facts).filter fun fact => stateIn facts setting fact.id = state := by
  have same : ∀ id, stateIn after setting id = stateIn facts setting id := by
    intro id
    rw [stateIn,stateIn,replaced.standing]
  have skips : ∀ entries : List Fact, entries.filter (fun fact => stateIn facts setting fact.id = state) =
      (entries.filter (·.id ≠ entry.id)).filter fun fact => stateIn facts setting fact.id = state := by
    intro entries
    rw [List.filter_filter]
    refine List.filter_congr fun fact _ => ?_
    by_cases here : fact.id = entry.id
    · simp [here,isOpen,Ne.symm differs]
    · simp [here]
  simp only [same]
  rw [skips,skips (openEntries facts),replaced.open_others]

theorem Replaced.doneOf (replaced : Replaced facts after entry) (isOpen : stateIn facts setting entry.id = .OPEN) :
    Entries.doneOf after setting = Entries.doneOf facts setting := by
  have at_ends : (fun fact : Fact => ((standingOf after setting fact.id).doneAt).getD 0) =
      fun fact => ((standingOf facts setting fact.id).doneAt).getD 0 := by
    funext fact
    rw [replaced.standing]
  rw [Entries.doneOf,Entries.doneOf,replaced.others_in isOpen .DONE (by decide),at_ends]

-- The view's states, each looked up by its entry's id.
theorem states_of (facts : List Fact) (setting : Setting) (id : Text) : (view facts setting).states[id]? =
    if id ∈ (openEntries facts).map (·.id) then some (stateIn facts setting id) else none := by
  have loop : ∀ (entries : List Fact) (states : ExtTreeMap Text EntryState),
      (entries.foldl (fun states entry => states.insert entry.id (stateIn facts setting entry.id)) states)[id]? =
        if id ∈ entries.map (·.id) then some (stateIn facts setting id) else states[id]? := by
    intro entries
    induction entries with
    | nil => intro states; simp
    | cons entry rest ih =>
      intro states
      rw [List.foldl_cons,ih,ExtTreeMap.getElem?_insert]
      simp only [List.map_cons,List.mem_cons,LawfulEqCmp.compare_eq_iff_eq]
      by_cases later : id ∈ rest.map (·.id)
      · simp [later]
      · by_cases here : entry.id = id
        · simp [here]
        · simp [later,here,Ne.symm here]
  exact (loop (openEntries facts) ∅).trans (by simp)

-- Where a placement falls among the other open entries: who stands before, who
-- behind, and which of their keys bound the new one.
structure Between (others front back : List Slot) (bucket : Nat) (lower upper : Option Text) : Prop where
  split : others = front ++ back
  lower : lower = front.getLast?.map (·.order)
  upper : upper = (back.head?.filter (·.bucket = bucket)).map (·.order)
  inBucket : ∀ slot, front.getLast? = some slot → slot.bucket = bucket
  nextFirst : front = [] → ∀ slot, back.head? = some slot → slot.bucket = bucket
  alone : front = [] → back = [] → bucket = 0

def Fits (list : EntityId) (placement : Placement) (front back : List Slot) : Prop :=
  match placement with
  | .last => back = []
  | .first => front = []
  | .after target => target.home = list ∧ ∃ behind, front.getLast? = some behind ∧ behind.id = target.localId

variable {seen : View} {moving : Option Text} {bucket : Nat} {lower upper : Option Text} {others : List Slot}

theorem spot_inv (named : seen.slots.filter (fun slot => some slot.id ≠ moving) = others)
    (found : spot seen list moving placement = .ok (bucket,lower,upper)) :
    ∃ front back, Between others front back bucket lower upper ∧ Fits list placement front back := by
  cases placement with
  | first =>
    simp only [spot,named] at found
    split at found
    · rename_i first head
      cases found
      refine ⟨[],others,⟨rfl,rfl,by simp [head],by simp,?_,?_⟩,rfl⟩
      · intro _ slot same
        rw [head] at same
        cases same
        rfl
      · intro _ none
        rw [none] at head
        cases head
    · rename_i head
      cases found
      refine ⟨[],others,⟨rfl,rfl,by simp [head],by simp,?_,fun _ _ => rfl⟩,rfl⟩
      intro _ slot same
      rw [head] at same
      cases same
  | last =>
    simp only [spot,named] at found
    split at found
    · rename_i last tail
      cases found
      refine ⟨others,[],⟨(List.append_nil _).symm,by simp [tail],rfl,?_,by simp,?_⟩,rfl⟩
      · intro slot same
        rw [tail] at same
        cases same
        rfl
      · intro none _
        rw [none] at tail
        cases tail
    · rename_i tail
      cases found
      refine ⟨others,[],⟨(List.append_nil _).symm,by simp [tail],rfl,?_,by simp,fun _ _ => rfl⟩,rfl⟩
      intro slot same
      rw [tail] at same
      cases same
  | after target =>
    simp only [spot,named] at found
    split at found
    · cases found
    split at found
    · split at found
      · split at found <;> cases found
      · cases found
    rename_i place at_place
    split at found
    · cases found
    rename_i behind there
    cases found
    obtain ⟨inside,same⟩ := List.getElem?_eq_some_iff.mp there
    obtain ⟨_,matched,_⟩ := List.findIdx?_eq_some_iff_getElem.mp at_place
    rw [same] at matched
    have last : (others.take (place+1)).getLast? = some behind := by
      rw [List.getLast?_take,if_neg (by omega),Nat.add_sub_cancel,there,Option.some_or]
    simp only [decide_eq_true_eq] at matched
    refine ⟨others.take (place+1),others.drop (place+1),⟨(List.take_append_drop ..).symm,by rw [last]; rfl,
      by rw [List.head?_drop],?_,?_,?_⟩,matched.2,behind,last,matched.1⟩
    · intro slot same
      rw [last] at same
      cases same
      rfl
    all_goals
      intro empty
      rw [empty] at last
      cases last

theorem place_inv (placed : place seen facts list moving placement = .ok moved) :
    ∃ lower upper, spot seen list moving placement = .ok (moved.heldTurn,lower,upper) ∧
      between lower upper = .ok moved.order ∧ moved.heldSince = highest facts := by
  rw [place] at placed
  split at placed
  · cases placed
  rename_i bucket lower upper found
  split at placed
  · cases placed
  rename_i order minted
  cases placed
  exact ⟨lower,upper,found,minted,rfl⟩

-- The new slot reads right behind what is in front of its place, and before the rest.
theorem place_split {order : List (Fact × Nat)} (strict : order.Pairwise fun a b => slotCmp a b = .lt)
    (named : seen.slots.filter (fun slot => some slot.id ≠ moving) = order.map slotOf)
    (placed : place seen facts list moving placement = .ok moved) (key : orderKey entry = moved.order) :
    ∃ front back, order = front ++ back ∧ Fits list placement (front.map slotOf) (back.map slotOf) ∧
      (∀ last, front.getLast? = some last → Before last (entry,moved.heldTurn)) ∧
      (∀ next, back.head? = some next → Before (entry,moved.heldTurn) next) := by
  obtain ⟨lower,upper,found,minted,_⟩ := place_inv placed
  obtain ⟨frontSlots,backSlots,between,fits⟩ := spot_inv named found
  obtain ⟨_,under,beneath⟩ := between_key minted
  have split := between.split
  obtain ⟨front,back,rfl,rfl,rfl⟩ := List.map_eq_append_iff.mp split
  obtain ⟨_,_,cross⟩ := List.pairwise_append.mp strict
  have lowest := between.lower
  have highest := between.upper
  have inBucket : ∀ last, front.getLast? = some last → last.2 = moved.heldTurn :=
    fun last same => between.inBucket (slotOf last) (by simp [same])
  refine ⟨front,back,rfl,fits,?_,?_⟩
  · intro last same
    refine .inr ⟨inBucket last same,?_⟩
    rw [key]
    exact under _ (by rw [lowest]; simp [same,slotOf])
  · intro next same
    by_cases here : next.2 = moved.heldTurn
    · refine .inr ⟨here.symm,?_⟩
      rw [key]
      exact beneath _ (by rw [highest]; simp [same,slotOf,here])
    · rcases List.eq_nil_or_concat' front with rfl | ⟨start,last,rfl⟩
      · exact (here (between.nextFirst rfl (slotOf next) (by simp [same]))).elim
      · have earlier := slotCmp_bucket (cross last (by simp) next (List.mem_of_mem_head? same))
        have atBucket := inBucket last (by simp)
        exact .inl (by simp only; omega)

-- What the view reads once the entry is written: the others as they stood, and the
-- entry open among them where it was asked.
structure Lands (before after : View) (list : EntityId) (placement : Placement) (id : Text) : Prop where
  opens : ∃ front back, before.entries.filter (fun shown => shown.2 = .OPEN ∧ shown.1.id ≠ id) = front ++ back ∧
    (∃ entry, entry.id = id ∧
      after.entries.filter (fun shown => shown.2 = .OPEN) = front ++ (entry,.OPEN) :: back) ∧
    match placement with
    | .last => back = []
    | .first => front = []
    | .after target => target.home = list ∧ ∃ behind, front.getLast? = some behind ∧ behind.1.id = target.localId
  done : after.entries.filter (fun shown => shown.2 ≠ .OPEN) = before.entries.filter (fun shown => shown.2 ≠ .OPEN)
  doneLeftOut : after.doneLeftOut = before.doneLeftOut
  droppedLeftOut : after.droppedLeftOut = before.droppedLeftOut
  states : ∀ other, other ≠ id → after.states[other]? = before.states[other]?
  placed : after.states[id]? = some .OPEN

theorem open_entries (facts : List Fact) (setting : Setting) (keep : Fact → Bool) :
    (view facts setting).entries.filter (fun shown => shown.2 = .OPEN ∧ keep shown.1 = true) =
      ((Entries.openOf facts setting).filter fun placed => keep placed.1).map fun placed => (placed.1,.OPEN) := by
  have done : (if setting = .sink then (Entries.doneOf facts setting).map fun entry => (entry,EntryState.DONE) else []).filter
      (fun shown => shown.2 = .OPEN ∧ keep shown.1 = true) = [] := by
    refine List.filter_eq_nil_iff.mpr fun shown member => ?_
    split at member
    · obtain ⟨entry,_,rfl⟩ := List.mem_map.mp member
      simp
    · cases member
  rw [view,List.filter_append,done,List.append_nil,List.filter_map]
  congr 1
  refine List.filter_congr fun placed _ => ?_
  simp

theorem closed_entries (facts : List Fact) (setting : Setting) :
    (view facts setting).entries.filter (fun shown => shown.2 ≠ .OPEN) =
      if setting = .sink then (Entries.doneOf facts setting).map fun entry => (entry,.DONE) else [] := by
  rw [view,List.filter_append,List.filter_eq_nil_iff.mpr,List.nil_append,List.filter_eq_self.mpr]
  · intro shown member
    split at member
    · obtain ⟨entry,_,rfl⟩ := List.mem_map.mp member
      simp
    · cases member
  · intro shown member
    obtain ⟨placed,_,rfl⟩ := List.mem_map.mp member
    simp

theorem Replaced.open_ids (replaced : Replaced facts after entry) (other : Text) (differs : other ≠ entry.id) :
    other ∈ (openEntries after).map (·.id) ↔ other ∈ (openEntries facts).map (·.id) := by
  have ids := (replaced.open_perm.map (·.id)).mem_iff (a := other)
  rw [ids]
  simp only [List.map_cons,List.mem_cons,List.mem_map,List.mem_filter,decide_eq_true_eq]
  constructor
  · rintro (same | ⟨fact,⟨member,_⟩,rfl⟩)
    · exact (differs same).elim
    · exact ⟨fact,member,rfl⟩
  · rintro ⟨fact,member,rfl⟩
    exact .inr ⟨fact,⟨member,differs⟩,rfl⟩

-- A placement and its write: the entry reads open, among the others its place was
-- chosen from, under the key and in the bucket the placement says.
structure Placed (facts after : List Fact) (setting : Setting) (list : EntityId) (placement : Placement)
    (moved : Moved) (entry : Fact) : Prop where
  replaced : Replaced facts after entry
  isOpen : stateIn facts setting entry.id = .OPEN
  place : ∃ moving, (view facts setting).slots.filter (fun slot => some slot.id ≠ moving) =
      ((openOf facts setting).filter (·.1.id ≠ entry.id)).map slotOf ∧
    place (view facts setting) facts list moving placement = .ok moved
  key : orderKey entry = moved.order
  bucket : bucketOf after setting entry = moved.heldTurn

theorem Placed.opens (placed : Placed facts after setting list placement moved entry) :
    ∃ front back, (openOf facts setting).filter (·.1.id ≠ entry.id) = front ++ back ∧
      Fits list placement (front.map slotOf) (back.map slotOf) ∧
      (∀ last, front.getLast? = some last → Before last (entry,moved.heldTurn)) ∧
      (∀ next, back.head? = some next → Before (entry,moved.heldTurn) next) ∧
      openOf after setting = front ++ (entry,moved.heldTurn) :: back := by
  obtain ⟨moving,named,chosen⟩ := placed.place
  have strict := (openOf_strict placed.replaced.once setting).filter (·.1.id ≠ entry.id)
  obtain ⟨front,back,split,fits,below,above⟩ := place_split strict named chosen placed.key
  refine ⟨front,back,split,fits,below,above,?_⟩
  rw [split] at strict
  have ordered := pairwise_between TransCmp.lt_trans strict
    (fun last same => slotCmp_lt (below last same)) fun next same => slotCmp_lt (above next same)
  rw [← placed.bucket] at ordered ⊢
  exact placed.replaced.openOf placed.isOpen split ordered

theorem Placed.lands (placed : Placed facts after setting list placement moved entry) :
    Lands (view facts setting) (view after setting) list placement entry.id := by
  obtain ⟨front,back,split,fits,_,_,opened⟩ := placed.opens
  obtain ⟨replaced,isOpen,_,_,_⟩ := placed
  let shownOpen : Fact × Nat → Fact × EntryState := fun placed => (placed.1,.OPEN)
  refine ⟨⟨front.map shownOpen,back.map shownOpen,?_,⟨entry,rfl,?_⟩,?_⟩,?_,?_,?_,?_,?_⟩
  · have opens := open_entries facts setting (·.id ≠ entry.id)
    simp only [decide_eq_true_eq] at opens
    rw [opens,split,List.map_append]
  · have opens := open_entries after setting fun _ => true
    simp only [and_true,List.filter_true] at opens
    rw [opens,opened,List.map_append,List.map_cons]
  · cases placement with
    | last => simpa [Fits] using fits
    | first => simpa [Fits] using fits
    | after target =>
      obtain ⟨home,behind,last,same⟩ := fits
      rw [List.getLast?_map,Option.map_eq_some_iff] at last
      obtain ⟨slot,last,rfl⟩ := last
      exact ⟨home,shownOpen slot,by rw [List.getLast?_map,last]; rfl,same⟩
  · rw [closed_entries,closed_entries,replaced.doneOf isOpen]
  · simp only [view,replaced.doneOf isOpen]
  · simp only [view,replaced.others_in isOpen .DROPPED (by decide)]
  · intro other differs
    rw [states_of,states_of]
    simp only [replaced.open_ids other differs,stateIn,replaced.standing]
  · rw [states_of,if_pos,stateIn,replaced.standing]
    · exact congrArg some isOpen
    · exact (replaced.open_perm.map (·.id)).mem_iff.mpr List.mem_cons_self

-- Every number an entry's standing keeps is that of a tick naming the entry.
def Ticked (ticks : List (Fact × Act)) (id : Text) (number : Option Nat) : Prop :=
  ∀ n, number = some n → ∃ tick ∈ ticks, namedBy tick.1 = id ∧ claimSequence tick.1 = n

theorem standing_ticked (facts : List Fact) (setting : Setting) (id : Text) :
    Ticked (activeTicks facts) id (standingOf facts setting id).turnAt ∧
      Ticked (activeTicks facts) id (standingOf facts setting id).lastTick := by
  have loop : ∀ (ticks : List (Fact × Act)) (now : Standing), (∀ tick ∈ ticks, tick ∈ activeTicks facts) →
      Ticked (activeTicks facts) id now.turnAt ∧ Ticked (activeTicks facts) id now.lastTick →
      Ticked (activeTicks facts) id (ticks.foldl (Standing.tick setting id) now).turnAt ∧
      Ticked (activeTicks facts) id (ticks.foldl (Standing.tick setting id) now).lastTick := by
    intro ticks
    induction ticks with
    | nil => exact fun now _ kept => kept
    | cons tick rest ih =>
      intro now inside kept
      rw [List.foldl_cons]
      refine ih _ (fun other member => inside other (List.mem_cons_of_mem _ member)) ?_
      rw [Standing.tick]
      split
      · rename_i names
        have here : Ticked (activeTicks facts) id (some (claimSequence tick.1)) := fun n same => by
          cases same
          exact ⟨tick,inside _ List.mem_cons_self,names,rfl⟩
        obtain ⟨tick,act⟩ := tick
        cases act with
        | done => cases setting with
          | back => exact ⟨here,here⟩
          | _ => exact ⟨kept.1,here⟩
        | rotated => exact ⟨here,here⟩
        | _ => exact ⟨kept.1,here⟩
      · exact kept
  have nothing : Ticked (activeTicks facts) id none := fun n same => by cases same
  exact loop (activeTicks facts) .new (fun _ member => member) ⟨nothing,nothing⟩

theorem standing_unnamed (unnamed : ∀ tick ∈ activeTicks facts, namedBy tick.1 ≠ id) :
    standingOf facts setting id = .new := by
  have loop : ∀ ticks : List (Fact × Act), (∀ tick ∈ ticks, namedBy tick.1 ≠ id) →
      ticks.foldl (Standing.tick setting id) .new = .new := by
    intro ticks
    induction ticks with
    | nil => exact fun _ => rfl
    | cons tick rest ih =>
      intro unnamed
      rw [List.foldl_cons,Standing.tick,if_neg (unnamed tick List.mem_cons_self)]
      exact ih fun other member => unnamed other (List.mem_cons_of_mem _ member)
  exact loop (activeTicks facts) unnamed

theorem mem_activeTicks {tick : Fact × Act} (member : tick ∈ activeTicks facts) :
    tick.1 ∈ facts ∧ tick.1.status = .active ∧ isTick tick.1 = true := by
  rw [activeTicks,mem_sortBy,List.mem_filterMap] at member
  obtain ⟨fact,kept,named⟩ := member
  obtain ⟨act,_,rfl⟩ := Option.map_eq_some_iff.mp named
  simp only [List.mem_filter,Bool.and_eq_true,decide_eq_true_eq] at kept
  exact ⟨kept.1,kept.2.1,kept.2.2⟩

theorem claimSequence_lt (fact : Fact) : claimSequence fact < 2^64 := by
  rw [claimSequence]
  cases found : claimNumber fact with
  | none => simp
  | some n =>
    rw [claimNumber,parseUnsigned,Option.filter_eq_some_iff] at found
    simpa using found.2

theorem bucketOf_lt (facts : List Fact) (setting : Setting) (entry : Fact) : bucketOf facts setting entry < 2^64 := by
  rw [bucketOf]
  cases held : heldBucket entry (standingOf facts setting entry.id).lastTick with
  | some turn =>
    simp only [heldBucket,Option.bind_eq_bind,Option.bind_eq_some_iff] at held
    obtain ⟨_,_,_,turns,_,_,_,_,chosen⟩ := held
    split at chosen
    · cases chosen
      rw [parseUnsigned,Option.filter_eq_some_iff] at turns
      simpa using turns.2
    · cases chosen
  | none =>
    cases turned : (standingOf facts setting entry.id).turnAt with
    | none => simp
    | some n =>
      obtain ⟨tick,_,_,rfl⟩ := (standing_ticked facts setting entry.id).1 n turned
      simpa [turned] using claimSequence_lt tick.1

theorem le_highest (member : fact ∈ facts) (numbered : claimNumber fact = some n) : n ≤ highest facts := by
  have inside : n ∈ facts.filterMap claimNumber := List.mem_filterMap.mpr ⟨fact,member,numbered⟩
  rw [highest]
  cases most : (facts.filterMap claimNumber).max? with
  | none => rw [List.max?_eq_none_iff.mp most] at inside; cases inside
  | some top => exact (List.max?_eq_some_iff.mp most).2 n inside

theorem highest_lt (facts : List Fact) : highest facts < 2^64 := by
  rw [highest]
  cases most : (facts.filterMap claimNumber).max? with
  | none => simp
  | some top =>
    obtain ⟨fact,_,numbered⟩ := List.mem_filterMap.mp (List.max?_eq_some_iff.mp most).1
    rw [claimNumber,parseUnsigned,Option.filter_eq_some_iff] at numbered
    simpa using numbered.2

theorem moved_since (placed : place seen facts list moving placement = .ok moved) : moved.heldSince = highest facts := by
  obtain ⟨_,_,_,_,since⟩ := place_inv placed
  exact since

theorem moved_turn {top : Nat} (bounded : ∀ entry ∈ openEntries facts, bucketOf facts setting entry ≤ top)
    (placed : place (view facts setting) facts list moving placement = .ok moved) : moved.heldTurn ≤ top := by
  obtain ⟨lower,upper,found,_,_⟩ := place_inv placed
  obtain ⟨front,back,between,_⟩ := spot_inv rfl found
  have bounds : ∀ slot ∈ front ++ back, slot.bucket ≤ top := by
    intro slot member
    rw [← between.split] at member
    obtain ⟨placed,inOrder,rfl⟩ := List.mem_map.mp (List.mem_of_mem_filter member)
    rw [Entries.openOf,mem_sortBy] at inOrder
    obtain ⟨entry,inside,rfl⟩ := List.mem_map.mp inOrder
    exact bounded entry (List.mem_of_mem_filter inside)
  cases last : front.getLast? with
  | some slot =>
    rw [← between.inBucket slot last]
    exact bounds slot (List.mem_append_left _ (List.mem_of_getLast? last))
  | none =>
    have empty := List.getLast?_eq_none_iff.mp last
    cases next : back.head? with
    | some slot =>
      rw [← between.nextFirst empty slot next]
      exact bounds slot (List.mem_append_right _ (List.mem_of_mem_head? next))
    | none =>
      rw [between.alone empty (List.head?_eq_none_iff.mp next)]
      exact Nat.zero_le _

theorem moved_lt (placed : place (view facts setting) facts list moving placement = .ok moved) :
    moved.heldTurn < 2^64 ∧ moved.heldSince < 2^64 := by
  have turn := @moved_turn facts list setting moved placement moving (2^64-1)
    (fun entry _ => Nat.le_pred_of_lt (bucketOf_lt facts setting entry)) placed
  exact ⟨by omega,moved_since placed ▸ highest_lt facts⟩

-- The state of the entry a move names, and the record it is.
theorem moveEntry_inv {address : FactAddress} (moves : moveEntry facts setting address placement = .ok moved) :
    place (view facts setting) facts address.home (some address.localId) placement = .ok moved ∧
      stateIn facts setting address.localId = .OPEN ∧
      ∃ fact ∈ openEntries facts, fact.id = address.localId := by
  rw [moveEntry] at moves
  split at moves
  · cases moves
  · rename_i found
    rw [states_of] at found
    split at found
    · rename_i member
      obtain ⟨fact,inside,same⟩ := List.mem_map.mp member
      exact ⟨moves,Option.some.inj found,fact,inside,same⟩
    · cases found
  · cases moves

-- A new entry, numbered past every record and written as it was placed.
structure NewEntry (facts : List Fact) (list : EntityId) (moved : Moved) (entry : Fact) : Prop where
  numbered : ∃ n < 2^64, entry.id = 'f' :: printNat n ∧ ∀ fact ∈ facts, ∀ m, claimNumber fact = some m → m < n
  home : entry.home = list
  status : entry.status = .active
  holds : Holds moved entry.fields

theorem fresh_above (records : ListRecords list facts) (spelled : entry.id = 'f' :: printNat n)
    (above : ∀ fact ∈ facts, ∀ m, claimNumber fact = some m → m < n) : ∀ fact ∈ facts, fact.id ≠ entry.id := by
  intro fact member same
  obtain ⟨m,fits,named⟩ := records.numbered fact member
  have less := above fact member m (claimNumber_of named fits)
  rw [named,spelled] at same
  have equal := printNat_inj (List.cons.inj same).2
  omega

theorem NewEntry.fresh (records : ListRecords list facts) (new : NewEntry facts list moved entry) :
    ∀ fact ∈ facts, fact.id ≠ entry.id := by
  obtain ⟨n,_,spelled,above⟩ := new.numbered
  exact fresh_above records spelled above

theorem NewEntry.replaced (records : ListRecords list facts) (new : NewEntry facts list moved entry) :
    Replaced facts (facts ++ [entry]) entry := by
  have fresh := new.fresh records
  have keyed : entry.fields.contains ORDER = true := by
    rw [ExtTreeMap.contains_eq_isSome_getElem?,new.holds.1]; rfl
  refine ⟨records.once,?_,?_,by simp,new.status,?_,fun fact member same => (fresh fact member same).elim⟩
  · rw [List.map_append,List.map_singleton,List.nodup_append]
    refine ⟨records.once,by simp,?_⟩
    intro id member other single
    obtain ⟨fact,inside,rfl⟩ := List.mem_map.mp member
    cases List.mem_singleton.mp single
    exact fresh fact inside
  · simp
  · simp [isEntry,new.home,records.onAList,keyed]

theorem NewEntry.standing (records : ListRecords list facts) (new : NewEntry facts list moved entry) :
    standingOf facts setting entry.id = .new := by
  refine standing_unnamed fun tick member named => ?_
  obtain ⟨inside,active,ticks⟩ := mem_activeTicks member
  obtain ⟨fact,there,same⟩ := records.named tick.1 inside active ticks
  exact new.fresh records fact there (same.trans named)

-- A move just written holds: no tick on the list is newer than it.
theorem heldBucket_holds {last : Option Nat} (turn : moved.heldTurn < 2^64)
    (since : moved.heldSince < 2^64) (turns : entry.fields[HELD_TURN]? = some (printNat moved.heldTurn))
    (sinces : entry.fields[HELD_SINCE]? = some (printNat moved.heldSince))
    (older : ∀ n, last = some n → n ≤ moved.heldSince) : heldBucket entry last = some moved.heldTurn := by
  have all : last.all (· ≤ moved.heldSince) = true := by
    cases last with
    | none => rfl
    | some n => simpa using older n rfl
  simp [heldBucket,turns,sinces,trim_printNat,parseUnsigned_printNat turn,parseUnsigned_printNat since,all]

theorem NewEntry.readsAt (records : ListRecords list facts) (new : NewEntry facts list moved entry)
    (turn : moved.heldTurn < 2^64) (since : moved.heldSince < 2^64) :
    bucketOf (facts ++ [entry]) setting entry = moved.heldTurn := by
  rw [bucketOf,(new.replaced records).standing,new.standing records]
  rcases new.holds.2 with ⟨turns,sinces⟩ | ⟨zero,unturned,_⟩
  · rw [heldBucket_holds turn since turns sinces (fun _ none => by cases none)]
    rfl
  · rw [show heldBucket entry Standing.new.lastTick = none by simp [heldBucket,unturned],zero]
    rfl

theorem slots_filter (facts : List Fact) (setting : Setting) (keep : Text → Bool) :
    (view facts setting).slots.filter (fun slot => keep slot.id) =
      ((Entries.openOf facts setting).filter fun placed => keep placed.1.id).map slotOf := by
  rw [view,List.filter_map]
  rfl

theorem NewEntry.placed (records : ListRecords list facts)
    (chosen : placeNew facts setting list placement = .ok moved) (new : NewEntry facts list moved entry) :
    Placed facts (facts ++ [entry]) setting list placement moved entry := by
  obtain ⟨turn,since⟩ := moved_lt chosen
  refine ⟨new.replaced records,?_,⟨none,?_,chosen⟩,?_,new.readsAt records turn since⟩
  · rw [stateIn,new.standing records]; rfl
  · have slots := slots_filter facts setting fun id => some id ≠ none
    simp only [ne_eq,reduceCtorEq,not_false_eq_true,decide_true,List.filter_true] at slots ⊢
    rw [slots]
    congr 1
    refine (List.filter_eq_self.mpr fun slot member => ?_).symm
    rw [Entries.openOf,mem_sortBy] at member
    obtain ⟨fact,inside,rfl⟩ := List.mem_map.mp member
    simpa using new.fresh records fact (mem_openEntries.mp (List.mem_of_mem_filter inside)).1
  · rw [orderKey,new.holds.1]; rfl

-- The record a move rewrites, as it stands afterwards.
def movedTo (moved : Moved) (fact : Fact) : Fact :=
  { fact with fields := ((fact.fields.insert ORDER moved.order).insert HELD_TURN
    (printNat moved.heldTurn)).insert HELD_SINCE (printNat moved.heldSince) }

theorem movedTo_fields (moved : Moved) (fact : Fact) : (movedTo moved fact).fields[ORDER]? = some moved.order ∧
    (movedTo moved fact).fields[HELD_TURN]? = some (printNat moved.heldTurn) ∧
    (movedTo moved fact).fields[HELD_SINCE]? = some (printNat moved.heldSince) := by
  simp only [movedTo,ExtTreeMap.getElem?_insert]
  refine ⟨?_,?_,?_⟩ <;> simp [show compare HELD_SINCE ORDER ≠ .eq by decide,
    show compare HELD_TURN ORDER ≠ .eq by decide,show compare HELD_SINCE HELD_TURN ≠ .eq by decide]

theorem writeMoved_replaced (records : ListRecords list facts) (member : fact ∈ openEntries facts) :
    Replaced facts (writeMoved facts fact.id moved) (movedTo moved fact) := by
  obtain ⟨inside,active,placed⟩ := mem_openEntries.mp member
  have only : ∀ other ∈ facts, other.id = fact.id → other = fact :=
    fun other there same => List.inj_on_of_nodup_map records.once there inside same
  have ids : (writeMoved facts fact.id moved).map (·.id) = facts.map (·.id) := by
    rw [writeMoved,List.map_map]
    refine List.map_congr_left fun other _ => ?_
    simp only [Function.comp_apply]
    split <;> rfl
  refine ⟨records.once,ids ▸ records.once,?_,?_,active,?_,?_⟩
  · rw [writeMoved,List.filter_map]
    have kept : facts.filter ((fun other : Fact => decide (other.id ≠ (movedTo moved fact).id)) ∘ fun other =>
        if other.id = fact.id then movedTo moved other else other) = facts.filter (·.id ≠ fact.id) := by
      refine List.filter_congr fun other _ => ?_
      by_cases same : other.id = fact.id <;> simp [same,movedTo]
    refine (congrArg _ kept).trans ?_
    refine (List.map_congr_left fun other there => ?_).trans (List.map_id _)
    simp only [List.mem_filter,decide_eq_true_eq] at there
    simp [there.2]
  · exact List.mem_map.mpr ⟨fact,inside,by simp [movedTo]⟩
  · simp only [isEntry,Bool.and_eq_true] at placed ⊢
    refine ⟨placed.1,?_⟩
    rw [ExtTreeMap.contains_eq_isSome_getElem?,(movedTo_fields moved fact).1]; rfl
  · intro other there same
    rw [only other there same]
    exact placed

theorem moved_placed (records : ListRecords list facts) {address : FactAddress}
    (moves : moveEntry facts setting address placement = .ok moved) : ∃ fact ∈ openEntries facts,
      fact.id = address.localId ∧ Placed facts (writeMoved facts address.localId moved) setting address.home placement
        moved (movedTo moved fact) := by
  obtain ⟨placed,isOpen,fact,member,same⟩ := moveEntry_inv moves
  obtain ⟨turn,since⟩ := moved_lt placed
  obtain ⟨key,turns,sinces⟩ := movedTo_fields moved fact
  have replaced : Replaced facts (writeMoved facts fact.id moved) (movedTo moved fact) := writeMoved_replaced records member
  refine ⟨fact,member,same,?_⟩
  rw [← same] at placed isOpen ⊢
  refine ⟨replaced,isOpen,⟨some fact.id,?_,placed⟩,?_,?_⟩
  · have slots := slots_filter facts setting fun id => some id ≠ some fact.id
    simp only [ne_eq,Option.some.injEq] at slots ⊢
    exact slots
  · rw [orderKey,key]; rfl
  · rw [bucketOf,heldBucket_holds turn since turns sinces]
    · rfl
    · intro n last
      rw [replaced.standing] at last
      obtain ⟨tick,ticks,_,rfl⟩ := (standing_ticked facts setting _).2 n last
      obtain ⟨inside,_,_⟩ := mem_activeTicks ticks
      obtain ⟨m,fits,spelled⟩ := records.numbered tick.1 inside
      have numbered := claimNumber_of spelled fits
      rw [claimSequence,numbered,moved_since placed]
      exact le_highest inside numbered

theorem moved_lands (records : ListRecords list facts) {address : FactAddress}
    (moves : moveEntry facts setting address placement = .ok moved) :
    Lands (view facts setting) (view (writeMoved facts address.localId moved) setting) address.home placement
      address.localId := by
  obtain ⟨fact,_,same,placed⟩ := moved_placed records moves
  have lands := placed.lands
  rwa [show (movedTo moved fact).id = address.localId from same] at lands

-- A placement lands where it was asked and moves nothing else, for a new entry and
-- for a moved one, on every setting.
theorem placement_lands (records : ListRecords list facts) :
    (∀ setting placement moved entry, placeNew facts setting list placement = .ok moved →
      NewEntry facts list moved entry →
      Lands (view facts setting) (view (facts ++ [entry]) setting) list placement entry.id) ∧
    (∀ setting placement moved address, moveEntry facts setting address placement = .ok moved →
      Lands (view facts setting) (view (writeMoved facts address.localId moved) setting) address.home placement
        address.localId) :=
  ⟨fun _ _ _ _ chosen new => (new.placed records chosen).lands,fun _ _ _ _ moves => moved_lands records moves⟩

def packing : EntityId := "list:packing".toList
def keyedEntry (n : Nat) (order : Text) : Fact := ⟨'f' :: printNat n,packing,[],none,.active,{(ORDER,order)}⟩

theorem packing_records : ListRecords packing [keyedEntry 1 "V".toList,keyedEntry 2 "l".toList] := by
  refine ⟨by decide,by decide,?_,by decide,?_⟩
  · intro fact member
    fin_cases member
    · exact ⟨1,by decide,rfl⟩
    · exact ⟨2,by decide,rfl⟩
  · intro tick member _ ticks
    fin_cases member <;> exact absurd ticks (by decide)

theorem placement_lands_behind_the_first :
    Lands (view [keyedEntry 1 "V".toList,keyedEntry 2 "l".toList] .sink)
      (view ([keyedEntry 1 "V".toList,keyedEntry 2 "l".toList] ++ [keyedEntry 3 "d".toList]) .sink) packing
      (.after ⟨packing,"f1".toList⟩) "f3".toList :=
  (placement_lands packing_records).1 .sink (.after ⟨packing,"f1".toList⟩) ⟨"d".toList,0,2⟩ (keyedEntry 3 "d".toList)
    rfl ⟨⟨3,by decide,rfl,by decide⟩,rfl,rfl,by decide,.inr (by decide)⟩

end Entries
