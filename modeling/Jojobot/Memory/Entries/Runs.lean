import Jojobot.Library.Runs
import Jojobot.Memory.Entries.Placing

namespace Entries
open Library Std Memory

-- What writes on a list: a new entry, a move of an open one, a tick.
inductive Write where
  | placed (placement : Placement)
  | moved (id : Text) (placement : Placement)
  | ticked (id : Text) (act : Act)
deriving DecidableEq, Repr

-- A record a list takes next, under the claim number after its highest.
structure Next (list : EntityId) (facts : List Fact) (fact : Fact) : Prop where
  id : fact.id = 'f' :: printNat (highest facts+1)
  fits : highest facts+1 < 2^64
  home : fact.home = list
  status : fact.status = .active

structure Records (id : Text) (act : Act) (fields : Fields) : Prop where
  entry : fields[TICK_ENTRY]? = some id
  act : fields[TICK_ACT]? = some act.asToken
  unplaced : fields[ORDER]? = none

def Step (list : EntityId) (setting : Setting) (before : List Fact) : Write → List Fact → Prop
  | .placed placement,after => ∃ moved entry, placeNew before setting list placement = .ok moved ∧
      Next list before entry ∧ Holds moved entry.fields ∧ after = before ++ [entry]
  | .moved id placement,after => ∃ moved, moveEntry before setting ⟨list,id⟩ placement = .ok moved ∧
      after = writeMoved before id moved
  | .ticked id act,after => ∃ tick, id ∈ (openEntries before).map (·.id) ∧
      refuseTick setting (stateIn before setting id) act = none ∧
      Next list before tick ∧ Records id act tick.fields ∧ after = before ++ [tick]

variable {facts before after : List Fact} {list : EntityId} {fact entry tick : Fact} {id : Text} {act : Act}
  {setting : Setting} {moved : Moved} {placement : Placement} {write : Write} {last : Option Nat} {turn : Nat}

-- What every write keeps: the records are a list's, the keys are keys, and no held
-- bucket is above the highest claim, nor holds past a tick numbered above it.
structure Kept (list : EntityId) (facts : List Fact) : Prop where
  records : ListRecords list facts
  keys : ∀ entry ∈ openEntries facts, isAKey (orderKey entry) = true
  held : ∀ entry ∈ openEntries facts, ∀ last turn, heldBucket entry last = some turn →
    turn ≤ highest facts ∧ ∀ n, last = some n → n ≤ highest facts

theorem number_bound (records : ListRecords list facts) (member : fact ∈ facts) :
    claimSequence fact ≤ highest facts := by
  obtain ⟨n,fits,spelled⟩ := records.numbered fact member
  have numbered := claimNumber_of spelled fits
  rw [claimSequence,numbered]
  exact le_highest member numbered

theorem Kept.bucket (kept : Kept list facts) (member : entry ∈ openEntries facts) :
    bucketOf facts setting entry ≤ highest facts := by
  rw [bucketOf]
  cases held : heldBucket entry (standingOf facts setting entry.id).lastTick with
  | some turn => exact (kept.held entry member _ turn held).1
  | none =>
    cases turned : (standingOf facts setting entry.id).turnAt with
    | none => simp
    | some n =>
      obtain ⟨tick,ticks,_,rfl⟩ := (standing_ticked facts setting entry.id).1 n turned
      simpa using number_bound kept.records (mem_activeTicks ticks).1

theorem holds_bound (turns : moved.heldTurn < 2^64) (sinces : moved.heldSince < 2^64) (holds : Holds moved entry.fields)
    (held : heldBucket entry last = some turn) :
    turn = moved.heldTurn ∧ ∀ n, last = some n → n ≤ moved.heldSince := by
  rcases holds.2 with ⟨printed,since⟩ | ⟨_,unturned,_⟩
  · simp only [heldBucket,printed,since,Option.bind_eq_bind,Option.bind_some,trim_printNat,
      parseUnsigned_printNat turns,parseUnsigned_printNat sinces] at held
    split at held
    · rename_i atMost
      refine ⟨(Option.some.inj held).symm,?_⟩
      intro n same
      subst same
      simpa using atMost
    · cases held
  · simp [heldBucket,unturned] at held

theorem Next.newEntry (next : Next list facts entry) (holds : Holds moved entry.fields) :
    NewEntry facts list moved entry := by
  refine ⟨⟨highest facts+1,next.fits,next.id,?_⟩,next.home,next.status,holds⟩
  intro fact member m numbered
  exact Nat.lt_succ_of_le (le_highest member numbered)

theorem Next.number (next : Next list facts fact) : claimNumber fact = some (highest facts+1) :=
  claimNumber_of next.id next.fits

theorem Next.highest (next : Next list facts fact) : Entries.highest (facts ++ [fact]) = Entries.highest facts+1 := by
  have last : fact ∈ facts ++ [fact] := List.mem_append_right _ List.mem_cons_self
  have top := le_highest last next.number
  refine Nat.le_antisymm ?_ top
  rw [Entries.highest]
  cases most : ((facts ++ [fact]).filterMap claimNumber).max? with
  | none => exact Nat.zero_le _
  | some n =>
    obtain ⟨other,member,numbered⟩ := List.mem_filterMap.mp (List.max?_eq_some_iff.mp most).1
    rcases List.mem_append.mp member with inside | same
    · exact Nat.le_succ_of_le (le_highest inside numbered)
    · cases List.mem_singleton.mp same
      rw [next.number] at numbered
      exact Nat.le_of_eq (Option.some.inj numbered).symm

theorem writeMoved_highest (facts : List Fact) (id : Text) (moved : Moved) :
    highest (writeMoved facts id moved) = highest facts := by
  rw [highest,highest,writeMoved,List.filterMap_map]
  congr 3
  funext fact
  simp only [Function.comp_apply]
  split <;> rfl

theorem Next.fresh (records : ListRecords list facts) (next : Next list facts fact) :
    ∀ other ∈ facts, other.id ≠ fact.id :=
  fresh_above records next.id fun _ member _ numbered => Nat.lt_succ_of_le (le_highest member numbered)

theorem Next.records (records : ListRecords list facts) (next : Next list facts fact)
    (named : isTick fact = true → ∃ other ∈ facts, other.id = namedBy fact) : ListRecords list (facts ++ [fact]) := by
  have fresh := next.fresh records
  refine ⟨records.onAList,?_,?_,?_,?_⟩
  · intro other member
    rcases List.mem_append.mp member with inside | same
    · exact records.home other inside
    · cases List.mem_singleton.mp same
      exact next.home
  · intro other member
    rcases List.mem_append.mp member with inside | same
    · exact records.numbered other inside
    · cases List.mem_singleton.mp same
      exact ⟨_,next.fits,next.id⟩
  · rw [List.map_append,List.map_singleton,List.nodup_append]
    refine ⟨records.once,by simp,?_⟩
    intro id member other single
    obtain ⟨held,inside,rfl⟩ := List.mem_map.mp member
    cases List.mem_singleton.mp single
    exact fresh held inside
  · intro tick member active ticks
    rcases List.mem_append.mp member with inside | same
    · obtain ⟨entry,there,names⟩ := records.named tick inside active ticks
      exact ⟨entry,List.mem_append_left _ there,names⟩
    · cases List.mem_singleton.mp same
      obtain ⟨entry,there,names⟩ := named ticks
      exact ⟨entry,List.mem_append_left _ there,names⟩

theorem moved_records (records : ListRecords list facts) (member : fact ∈ openEntries facts) :
    ListRecords list (writeMoved facts fact.id moved) := by
  have replaced : Replaced facts (writeMoved facts fact.id moved) (movedTo moved fact) := writeMoved_replaced records member
  have was : ∀ other ∈ writeMoved facts fact.id moved, ∃ held ∈ facts, held.id = other.id ∧ held.home = other.home := by
    intro other there
    obtain ⟨held,inside,rfl⟩ := List.mem_map.mp there
    refine ⟨held,inside,?_⟩
    split <;> exact ⟨rfl,rfl⟩
  refine ⟨records.onAList,?_,?_,replaced.onceAfter,?_⟩
  · intro other there
    obtain ⟨held,inside,_,home⟩ := was other there
    exact home ▸ records.home held inside
  · intro other there
    obtain ⟨held,inside,id,_⟩ := was other there
    exact id ▸ records.numbered held inside
  · intro tick there active ticks
    have apart : tick.id ≠ fact.id := by
      intro same
      rw [replaced.at_id there same,entry_no_tick replaced.placed] at ticks
      cases ticks
    obtain ⟨held,inside,rfl⟩ := List.mem_map.mp there
    have kept : held.id ≠ fact.id := by
      intro same
      rw [if_pos same] at apart
      exact apart same
    rw [if_neg kept] at active ticks ⊢
    obtain ⟨entry,named,same⟩ := records.named held inside active ticks
    refine ⟨_,List.mem_map_of_mem named,?_⟩
    rw [← same]
    split <;> rfl

theorem Placed.kept (placed : Placed facts after setting list placement moved entry) (kept : Kept list facts)
    (records : ListRecords list after) (more : highest facts ≤ highest after) (holds : Holds moved entry.fields) :
    Kept list after := by
  obtain ⟨_,_,chosen⟩ := placed.place
  have turned := moved_turn (fun entry member => kept.bucket member) chosen
  have since := moved_since chosen
  have bound := highest_lt facts
  have inside : ∀ other ∈ openEntries after, other = entry ∨ other ∈ openEntries facts := by
    intro other member
    rcases List.mem_cons.mp (placed.replaced.open_perm.mem_iff.mp member) with same | others
    · exact .inl same
    · exact .inr (List.mem_of_mem_filter others)
  refine ⟨records,?_,?_⟩
  · intro other member
    rcases inside other member with rfl | before
    · obtain ⟨_,_,_,minted,_⟩ := place_inv chosen
      rw [placed.key]
      exact (between_key minted).1
    · exact kept.keys other before
  · intro other member last turn held
    rcases inside other member with rfl | before
    · obtain ⟨same,atMost⟩ := holds_bound (by omega) (by omega) holds held
      refine ⟨by omega,?_⟩
      intro n newest
      have below := atMost n newest
      omega
    · obtain ⟨low,atMost⟩ := kept.held other before last turn held
      exact ⟨Nat.le_trans low more,fun n newest => Nat.le_trans (atMost n newest) more⟩

theorem moved_holds (moved : Moved) (fact : Fact) : Holds moved (movedTo moved fact).fields := by
  obtain ⟨key,turn,since⟩ := movedTo_fields moved fact
  exact ⟨key,.inl ⟨turn,since⟩⟩

-- A tick is none of the entries, and reads last among the ticks.
theorem Records.ticking (isList : onAList list = true) (home : tick.home = list) (recorded : Records id act tick.fields) :
    isTick tick = true := by
  simp [isTick,home,isList,recorded.entry,recorded.act,recorded.unplaced,
    ExtTreeMap.contains_eq_isSome_getElem?]

theorem Records.unlisted (recorded : Records id act tick.fields) :
    openEntries (facts ++ [tick]) = openEntries facts := by
  have unplaced : tick.fields.contains ORDER = false := by
    simp [ExtTreeMap.contains_eq_isSome_getElem?,recorded.unplaced]
  rw [openEntries,openEntries,placedInOrder,placedInOrder,List.filter_append,
    List.filter_cons_of_neg (by simp [unplaced]),List.filter_nil,List.append_nil]

theorem act_of (act : Act) : Act.of act.asToken = some act := by
  cases act <;> decide

theorem trim_id (n : Nat) : trim ('f' :: printNat n) = 'f' :: printNat n := by
  refine trim_solid ?_
  intro c member
  rcases List.mem_cons.mp member with rfl | digit
  · decide
  · exact digit_solid (printNat_digit digit)

theorem ListRecords.trim (records : ListRecords list facts) (member : fact ∈ facts) :
    Library.trim fact.id = fact.id := by
  obtain ⟨n,_,spelled⟩ := records.numbered fact member
  rw [spelled,trim_id]

theorem Records.names (records : ListRecords list facts) (member : fact ∈ facts)
    (recorded : Records fact.id act tick.fields) : namedBy tick = fact.id := by
  rw [namedBy,recorded.entry,Option.getD_some,records.trim member]

theorem Records.kept (kept : Kept list facts) (next : Next list facts tick) (recorded : Records id act tick.fields)
    (named : id ∈ (openEntries facts).map (·.id)) : Kept list (facts ++ [tick]) := by
  obtain ⟨entry,member,rfl⟩ := List.mem_map.mp named
  have inside := (mem_openEntries.mp member).1
  have more : highest facts ≤ highest (facts ++ [tick]) := by
    rw [next.highest]
    exact Nat.le_succ _
  refine ⟨next.records kept.records fun _ => ⟨entry,inside,(recorded.names kept.records inside).symm⟩,?_,?_⟩
  · rw [recorded.unlisted]
    exact kept.keys
  · rw [recorded.unlisted]
    intro other held last turn reads
    obtain ⟨low,atMost⟩ := kept.held other held last turn reads
    exact ⟨Nat.le_trans low more,fun n newest => Nat.le_trans (atMost n newest) more⟩

theorem step_kept (kept : Kept list before) (step : Step list setting before write after) : Kept list after := by
  cases write with
  | placed placement =>
    obtain ⟨moved,entry,chosen,next,holds,rfl⟩ := step
    have placed := (next.newEntry holds).placed kept.records chosen
    have records := next.records kept.records fun ticks => by
      rw [entry_no_tick placed.replaced.placed] at ticks
      cases ticks
    refine placed.kept kept records ?_ holds
    rw [next.highest]
    exact Nat.le_succ _
  | moved id placement =>
    obtain ⟨moved,moves,rfl⟩ := step
    obtain ⟨fact,member,rfl,placed⟩ := moved_placed kept.records moves
    refine placed.kept kept (moved_records kept.records member) ?_ (moved_holds moved fact)
    rw [writeMoved_highest]
  | ticked id act =>
    obtain ⟨tick,named,_,next,recorded,rfl⟩ := step
    exact recorded.kept kept next named

-- The tick a list takes next is its newest, and changes the entry it names alone.
theorem ticks_apart (records : ListRecords list facts) :
    (activeTicks facts).Pairwise fun a b => claimSequence a.1 < claimSequence b.1 := by
  have named : (facts.filter fun fact => fact.status = .active && isTick fact).Pairwise
      fun a b => claimSequence a ≠ claimSequence b := by
    refine List.Pairwise.imp_of_mem ?_ ((apart_of_once records.once).filter _)
    intro a b inA inB differ same
    obtain ⟨n,fitsA,spelledA⟩ := records.numbered a (List.mem_of_mem_filter inA)
    obtain ⟨m,fitsB,spelledB⟩ := records.numbered b (List.mem_of_mem_filter inB)
    rw [claimSequence,claimSequence,claimNumber_of spelledA fitsA,claimNumber_of spelledB fitsB] at same
    cases show n = m from same
    exact differ (spelledA.trans spelledB.symm)
  have distinct : ((facts.filter fun fact => fact.status = .active && isTick fact).filterMap fun fact =>
      (Act.of ((fact.fields[TICK_ACT]?).getD [])).map (fact,·)).Pairwise
      fun a b => compareOn (fun tick : Fact × Act => claimSequence tick.1) a b ≠ .eq := by
    refine List.pairwise_filterMap.mpr (named.imp ?_)
    intro a b differ one isOne other isOther same
    obtain ⟨_,_,rfl⟩ := Option.map_eq_some_iff.mp isOne
    obtain ⟨_,_,rfl⟩ := Option.map_eq_some_iff.mp isOther
    exact differ (Nat.compare_eq_eq.mp same)
  exact (sortBy_strict distinct).imp fun less => Nat.compare_eq_lt.mp less

theorem Records.ticks (records : ListRecords list facts) (next : Next list facts tick)
    (recorded : Records id act tick.fields) : activeTicks (facts ++ [tick]) = activeTicks facts ++ [(tick,act)] := by
  have ticks := recorded.ticking records.onAList next.home
  have number : claimSequence tick = highest facts+1 := by rw [claimSequence,next.number]; rfl
  refine sortBy_eq ?_ ?_
  · rw [List.filter_append,List.filter_cons_of_pos (by simp [next.status,ticks]),List.filter_nil,List.filterMap_append]
    refine List.Perm.append (sortBy_perm _ _) (.of_eq ?_)
    simp [recorded.act,act_of]
  · refine List.pairwise_append.mpr ⟨?_,by simp,?_⟩
    · exact (ticks_apart records).imp fun less => Nat.compare_eq_lt.mpr less
    · intro earlier member last single
      cases List.mem_singleton.mp single
      refine Nat.compare_eq_lt.mpr ?_
      change claimSequence earlier.1 < claimSequence tick
      rw [number]
      exact Nat.lt_succ_of_le (number_bound records (mem_activeTicks member).1)

theorem Records.standing (records : ListRecords list facts) (next : Next list facts tick)
    (member : entry ∈ facts) (recorded : Records entry.id act tick.fields) (other : Text) :
    standingOf (facts ++ [tick]) setting other =
      if entry.id = other then (standingOf facts setting other).ticked setting (highest facts+1) act
      else standingOf facts setting other := by
  have number : claimSequence tick = highest facts+1 := by rw [claimSequence,next.number]; rfl
  rw [standingOf,recorded.ticks records next,List.foldl_append,List.foldl_cons,List.foldl_nil,Standing.tick,
    recorded.names records member,number]
  rfl

theorem ticked_last (setting : Setting) (now : Standing) (number : Nat) (act : Act) :
    (now.ticked setting number act).lastTick = some number := by
  cases act <;> cases setting <;> rfl

theorem openOf_perm (facts : List Fact) (setting : Setting) : (openOf facts setting).Perm
    (((openEntries facts).filter fun entry => stateIn facts setting entry.id = .OPEN).map
      fun entry => (entry,bucketOf facts setting entry)) := sortBy_perm _ _

theorem mem_openOf {slot : Fact × Nat} : slot ∈ openOf facts setting ↔
    slot.1 ∈ openEntries facts ∧ stateIn facts setting slot.1.id = .OPEN ∧ slot.2 = bucketOf facts setting slot.1 := by
  rw [(openOf_perm facts setting).mem_iff,List.mem_map]
  simp only [List.mem_filter,decide_eq_true_eq]
  constructor
  · intro found
    obtain ⟨entry,⟨member,isOpen⟩,rfl⟩ := found
    exact ⟨member,isOpen,rfl⟩
  · intro found
    obtain ⟨entry,bucket⟩ := slot
    obtain ⟨member,isOpen,same⟩ := found
    exact ⟨entry,⟨member,isOpen⟩,by rw [← same]⟩

-- After a tick the others read as they did, and the entry, when it reads open, in
-- the bucket of its last turn, any move of it having ended.
theorem Records.opens (kept : Kept list facts) (next : Next list facts tick) (member : entry ∈ openEntries facts)
    (recorded : Records entry.id act tick.fields) :
    (openOf (facts ++ [tick]) setting).Perm
      ((if ((standingOf facts setting entry.id).ticked setting (highest facts+1) act).state = .OPEN then
        [(entry,(((standingOf facts setting entry.id).ticked setting (highest facts+1) act).turnAt).getD 0)] else []) ++
        (openOf facts setting).filter (·.1.id ≠ entry.id)) := by
  have inside := (mem_openEntries.mp member).1
  have standing := fun other => @Records.standing facts list entry tick act setting kept.records next inside recorded other
  have ended : heldBucket entry (some (highest facts+1)) = none := by
    cases held : heldBucket entry (some (highest facts+1)) with
    | none => rfl
    | some turn =>
      have below := (kept.held entry member _ turn held).2 _ rfl
      omega
  have others : ((openEntries facts).filter (·.id ≠ entry.id)).filter
      (fun other => stateIn (facts ++ [tick]) setting other.id = .OPEN) =
      ((openEntries facts).filter (·.id ≠ entry.id)).filter fun other => stateIn facts setting other.id = .OPEN := by
    refine List.filter_congr fun other held => ?_
    simp only [List.mem_filter,decide_eq_true_eq] at held
    rw [stateIn,stateIn,standing,if_neg (Ne.symm held.2)]
  have buckets : ∀ other ∈ ((openEntries facts).filter (·.id ≠ entry.id)).filter
      (fun other => stateIn facts setting other.id = .OPEN),
      (other,bucketOf (facts ++ [tick]) setting other) = (other,bucketOf facts setting other) := by
    intro other held
    simp only [List.mem_filter,decide_eq_true_eq] at held
    rw [bucketOf,bucketOf,standing,if_neg (Ne.symm held.1.2)]
  have perm := (once_perm (openEntries_apart kept.records.once) member).filter
    fun other => stateIn (facts ++ [tick]) setting other.id = .OPEN
  refine (openOf_perm _ _).trans ?_
  rw [recorded.unlisted]
  refine (perm.map _).trans (List.Perm.trans ?_ ((openOf_filter facts setting entry.id).symm.append_left _))
  rw [List.filter_cons,others]
  have here : stateIn (facts ++ [tick]) setting entry.id =
      ((standingOf facts setting entry.id).ticked setting (highest facts+1) act).state := by
    rw [stateIn,standing,if_pos rfl]
  have bucket : bucketOf (facts ++ [tick]) setting entry =
      (((standingOf facts setting entry.id).ticked setting (highest facts+1) act).turnAt).getD 0 := by
    rw [bucketOf,standing,if_pos rfl,ticked_last,ended,Option.getD_none]
  simp only [here,decide_eq_true_eq]
  split
  · rw [List.map_cons,bucket,List.map_congr_left buckets]
    exact .refl _
  · rw [List.map_congr_left buckets]
    exact .refl _

-- Two entries meet when they read in one bucket under one key, and then no key is
-- left between them.
def Meets (a b : Fact × Nat) : Prop := a.2 = b.2 ∧ orderKey a.1 = orderKey b.1

def Apart (facts : List Fact) (setting : Setting) : Prop := (openOf facts setting).Pairwise fun a b => ¬ Meets a b

theorem Before.apart {a b : Fact × Nat} (before : Before a b) : ¬ Meets a b := by
  intro meets
  rcases before with earlier | ⟨_,key⟩
  · exact Nat.ne_of_lt earlier meets.1
  · rw [meets.2,ReflOrd.compare_self] at key
    cases key

theorem before_of {a b : Fact × Nat} (less : slotCmp a b = .lt) (apart : ¬ Meets a b) : Before a b := by
  rcases Nat.lt_or_eq_of_le (slotCmp_bucket less) with earlier | same
  · exact .inl earlier
  refine .inr ⟨same,?_⟩
  rw [slotCmp,compareLex,show compareOn (·.2) a b = .eq from Nat.compare_eq_eq.mpr same,compareLex] at less
  cases keys : compare (orderKey a.1) (orderKey b.1) with
  | lt => rfl
  | eq => exact (apart ⟨same,LawfulEqOrd.eq_of_compare keys⟩).elim
  | gt =>
    rw [show compareOn (fun slot : Fact × Nat => orderKey slot.1) a b = .gt from keys] at less
    cases less

theorem apart_iff (once : (facts.map (·.id)).Nodup) : Apart facts setting ↔ (openOf facts setting).Pairwise Before := by
  constructor
  · intro apart
    exact ((openOf_strict once setting).and apart).imp fun both => before_of both.1 both.2
  · intro ordered
    exact ordered.imp Before.apart

theorem Records.apart (kept : Kept list facts) (next : Next list facts tick) (member : entry ∈ openEntries facts)
    (recorded : Records entry.id act tick.fields) (apart : Apart facts setting) :
    Apart (facts ++ [tick]) setting ↔
      (((standingOf facts setting entry.id).ticked setting (highest facts+1) act).state = .OPEN →
        ∀ slot ∈ openOf facts setting, slot.1.id ≠ entry.id →
          ¬ Meets (entry,(((standingOf facts setting entry.id).ticked setting (highest facts+1) act).turnAt).getD 0) slot) := by
  have symm : ∀ {a b : Fact × Nat}, ¬ Meets a b → ¬ Meets b a := fun apart meets => apart ⟨meets.1.symm,meets.2.symm⟩
  have others : ((openOf facts setting).filter (·.1.id ≠ entry.id)).Pairwise fun a b => ¬ Meets a b := apart.filter _
  rw [Apart,(recorded.opens kept next member).pairwise_iff symm]
  split
  · rename_i isOpen
    rw [List.singleton_append,List.pairwise_cons]
    simp only [List.mem_filter,decide_eq_true_eq,and_imp,isOpen,forall_const]
    exact ⟨And.left,fun alone => ⟨alone,others⟩⟩
  · rename_i closed
    rw [List.nil_append]
    exact ⟨fun _ isOpen => (closed isOpen).elim,fun _ => others⟩

theorem Placed.apart (placed : Placed facts after setting list placement moved entry) (apart : Apart facts setting) :
    Apart after setting := by
  have once := placed.replaced
  obtain ⟨front,back,split,_,below,above,opened⟩ := placed.opens
  have ordered := ((apart_iff once.once).mp apart).filter (·.1.id ≠ entry.id)
  rw [split] at ordered
  rw [apart_iff once.onceAfter,opened]
  exact pairwise_between Before.trans ordered below above

-- An entry that comes back comes to no key an open entry of its bucket carries.
def ComesApart (setting : Setting) (before : List Fact) : Write → Prop
  | .ticked id .undone => ∀ entry ∈ openEntries before, entry.id = id → ∀ slot ∈ (view before setting).slots,
      slot.bucket = ((standingOf before setting id).turnAt).getD 0 → slot.order ≠ orderKey entry
  | _ => True

-- The only tick that brings an entry into a bucket others read in is the one that
-- opens it again: a turn goes to a bucket past every other.
theorem tick_apart (kept : Kept list facts) (next : Next list facts tick) (member : entry ∈ openEntries facts)
    (recorded : Records entry.id act tick.fields) (allowed : refuseTick setting (stateIn facts setting entry.id) act = none)
    (apart : Apart facts setting) :
    Apart (facts ++ [tick]) setting ↔ ComesApart setting facts (.ticked entry.id act) := by
  have turned : ∀ slot ∈ openOf facts setting, slot.1.id ≠ entry.id → ¬ Meets (entry,highest facts+1) slot := by
    intro slot reads _ meets
    obtain ⟨inside,_,bucket⟩ := mem_openOf.mp reads
    have below := @Kept.bucket facts list slot.1 setting kept inside
    have same : highest facts+1 = slot.2 := meets.1
    omega
  rw [recorded.apart kept next member apart]
  cases act with
  | done =>
    refine iff_of_true ?_ trivial
    intro isOpen
    cases setting with
    | back => exact turned
    | _ => cases isOpen
  | rotated => exact iff_of_true (fun _ => turned) trivial
  | dropped =>
    refine iff_of_true ?_ trivial
    intro isOpen
    cases isOpen
  | undone =>
    have closed : stateIn facts setting entry.id ≠ .OPEN := by
      intro isOpen
      rw [isOpen] at allowed
      cases setting <;> cases allowed
    constructor
    · intro alone other inside same slot reads bucket key
      cases List.inj_on_of_nodup_map kept.records.once (mem_openEntries.mp inside).1 (mem_openEntries.mp member).1 same
      obtain ⟨placed,inOrder,rfl⟩ := List.mem_map.mp reads
      refine alone rfl placed inOrder ?_ ⟨bucket.symm,key.symm⟩
      intro same
      exact closed (same ▸ (mem_openOf.mp inOrder).2.1)
    · intro alone _ slot reads _ meets
      exact alone entry member rfl (slotOf slot) (List.mem_map_of_mem reads) meets.1.symm meets.2.symm

theorem step_apart (kept : Kept list before) (apart : Apart before setting) (step : Step list setting before write after) :
    Apart after setting ↔ ComesApart setting before write := by
  cases write with
  | placed placement =>
    obtain ⟨moved,entry,chosen,next,holds,rfl⟩ := step
    exact iff_of_true (((next.newEntry holds).placed kept.records chosen).apart apart) trivial
  | moved id placement =>
    obtain ⟨moved,moves,rfl⟩ := step
    obtain ⟨_,_,rfl,placed⟩ := moved_placed kept.records moves
    exact iff_of_true (placed.apart apart) trivial
  | ticked id act =>
    obtain ⟨tick,named,allowed,next,recorded,rfl⟩ := step
    obtain ⟨entry,member,rfl⟩ := List.mem_map.mp named
    exact tick_apart kept next member recorded allowed apart

-- Every placement that can be asked for: at an end, or behind another open entry.
def Asked (seen : View) (list : EntityId) (moving : Option Text) : Placement → Prop
  | .last | .first => True
  | .after target => target.home = list ∧ some target.localId ≠ moving ∧ ∃ slot ∈ seen.slots, slot.id = target.localId

structure Places (list : EntityId) (setting : Setting) (facts : List Fact) : Prop where
  new : ∀ placement, Asked (view facts setting) list none placement →
    ∃ moved, placeNew facts setting list placement = .ok moved
  move : ∀ slot ∈ (view facts setting).slots, ∀ placement, Asked (view facts setting) list (some slot.id) placement →
    ∃ moved, moveEntry facts setting ⟨list,slot.id⟩ placement = .ok moved

theorem spot_asked {seen : View} {moving : Option Text} (asked : Asked seen list moving placement) :
    ∃ bucket lower upper, spot seen list moving placement = .ok (bucket,lower,upper) := by
  cases placement with
  | first =>
    simp only [spot]
    split <;> exact ⟨_,_,_,rfl⟩
  | last =>
    simp only [spot]
    split <;> exact ⟨_,_,_,rfl⟩
  | after target =>
    obtain ⟨home,other,slot,member,same⟩ := asked
    simp only [spot,home,true_and]
    rw [if_neg (Ne.symm other)]
    have there : slot ∈ seen.slots.filter fun slot => some slot.id ≠ moving :=
      List.mem_filter.mpr ⟨member,by simpa [same] using other⟩
    split
    · rename_i nowhere
      have misses := List.findIdx?_eq_none_iff.mp nowhere slot there
      simp [same] at misses
    · rename_i place found
      obtain ⟨inside,_,_⟩ := List.findIdx?_eq_some_iff_getElem.mp found
      rw [List.getElem?_eq_getElem inside]
      exact ⟨_,_,_,rfl⟩

-- Where no two open entries meet, the two keys a place falls between leave room.
theorem place_ok {seen : View} {moving : Option Text} {order : List (Fact × Nat)}
    (keys : ∀ slot ∈ order, isAKey (orderKey slot.1) = true) (ordered : order.Pairwise Before)
    (named : seen.slots.filter (fun slot => some slot.id ≠ moving) = order.map slotOf)
    (asked : Asked seen list moving placement) : ∃ moved, place seen facts list moving placement = .ok moved := by
  obtain ⟨bucket,lower,upper,found⟩ := spot_asked asked
  obtain ⟨frontSlots,backSlots,between,_⟩ := spot_inv named found
  have split := between.split
  obtain ⟨front,back,rfl,rfl,rfl⟩ := List.map_eq_append_iff.mp split
  obtain ⟨_,_,cross⟩ := List.pairwise_append.mp ordered
  have lowest : ∀ low, lower = some low → ∃ slot ∈ front, slot.2 = bucket ∧ orderKey slot.1 = low := by
    intro low same
    have last := between.lower.symm.trans same
    rw [List.getLast?_map,Option.map_map,Option.map_eq_some_iff] at last
    obtain ⟨slot,last,rfl⟩ := last
    exact ⟨slot,List.mem_of_getLast? last,between.inBucket (slotOf slot) (by rw [List.getLast?_map,last]; rfl),rfl⟩
  have highest : ∀ high, upper = some high → ∃ slot ∈ back, slot.2 = bucket ∧ orderKey slot.1 = high := by
    intro high same
    have next := between.upper.symm.trans same
    rw [Option.map_eq_some_iff] at next
    obtain ⟨shown,next,rfl⟩ := next
    obtain ⟨head,inBucket⟩ := Option.filter_eq_some_iff.mp next
    rw [List.head?_map,Option.map_eq_some_iff] at head
    obtain ⟨slot,head,rfl⟩ := head
    exact ⟨slot,List.mem_of_mem_head? head,of_decide_eq_true inBucket,rfl⟩
  have minted : Memory.between lower upper = .ok (midpoint (lower.getD []) upper) := between_ok ?_ ?_ ?_
  · refine ⟨⟨midpoint (lower.getD []) upper,bucket,Entries.highest facts⟩,?_⟩
    simp only [place,found,minted]
  · intro key same
    obtain ⟨slot,member,_,rfl⟩ := lowest key same
    exact keys slot (List.mem_append_left _ member)
  · intro key same
    obtain ⟨slot,member,_,rfl⟩ := highest key same
    exact keys slot (List.mem_append_right _ member)
  · intro low high lowIs highIs
    obtain ⟨under,inFront,here,rfl⟩ := lowest low lowIs
    obtain ⟨above,inBack,there,rfl⟩ := highest high highIs
    rcases cross under inFront above inBack with earlier | ⟨_,key⟩
    · omega
    · exact key

theorem Kept.orderKeys (kept : Kept list facts) : ∀ slot ∈ openOf facts setting, isAKey (orderKey slot.1) = true :=
  fun slot member => kept.keys slot.1 (mem_openOf.mp member).1

theorem places_of_apart (kept : Kept list facts) (apart : Apart facts setting) : Places list setting facts := by
  have ordered := (apart_iff kept.records.once).mp apart
  refine ⟨?_,?_⟩
  · intro placement asked
    refine place_ok kept.orderKeys ordered ?_ asked
    have slots := slots_filter facts setting fun id => some id ≠ none
    simp only [ne_eq,reduceCtorEq,not_false_eq_true,decide_true,List.filter_true] at slots ⊢
    exact slots
  · intro shown member placement asked
    obtain ⟨slot,reads,rfl⟩ := List.mem_map.mp member
    obtain ⟨inside,isOpen,_⟩ := mem_openOf.mp reads
    have state : (view facts setting).states[slot.1.id]? = some .OPEN := by
      rw [states_of,if_pos (List.mem_map_of_mem inside),isOpen]
    simp only [moveEntry,slotOf,state]
    refine place_ok ?_ (ordered.filter (·.1.id ≠ slot.1.id)) ?_ asked
    · intro other kept'
      exact kept.orderKeys other (List.mem_of_mem_filter kept')
    · have slots := slots_filter facts setting fun id => some id ≠ some slot.1.id
      simp only [ne_eq,Option.some.injEq] at slots ⊢
      exact slots

-- Between two entries that meet no key is left, so a placement behind the first fails.
theorem apart_of_places (kept : Kept list facts) (places : Places list setting facts) : Apart facts setting := by
  rw [apart_iff kept.records.once]
  have strict := openOf_strict kept.records.once setting
  have : Trans Before Before Before := ⟨Before.trans⟩
  refine List.isChain_iff_pairwise.mp (List.isChain_iff_forall_rel_of_append_cons_cons.mpr ?_)
  intro a b earlier later shape
  have reads : a ∈ openOf facts setting := by rw [shape]; simp
  obtain ⟨moved,chosen⟩ := places.new (.after ⟨list,a.1.id⟩)
    ⟨rfl,by simp,slotOf a,List.mem_map_of_mem reads,rfl⟩
  have slots := slots_filter facts setting fun id => some id ≠ none
  simp only [ne_eq,reduceCtorEq,not_false_eq_true,decide_true,List.filter_true] at slots
  have key : orderKey ⟨[],list,[],none,.active,{(ORDER,moved.order)}⟩ = moved.order := by simp [orderKey]
  obtain ⟨front,back,split,fits,below,above⟩ := place_split strict (by simpa using slots) chosen key
  obtain ⟨_,behind,last,same⟩ := fits
  rw [List.getLast?_map,Option.map_eq_some_iff] at last
  obtain ⟨slot,last,rfl⟩ := last
  obtain ⟨start,rfl⟩ := List.getLast?_eq_some_iff.mp last
  have ids : ((openOf facts setting).map (·.1.id)).Nodup := by
    refine List.pairwise_map.mpr ?_
    have entries := (openEntries_apart kept.records.once).filter fun entry => stateIn facts setting entry.id = .OPEN
    have symm : ∀ {a b : Fact × Nat}, a.1.id ≠ b.1.id → b.1.id ≠ a.1.id := fun differ => differ.symm
    exact ((openOf_perm facts setting).pairwise_iff symm).mpr (List.pairwise_map.mpr entries)
  have isA : slot = a := List.inj_on_of_nodup_map ids (by rw [split]; simp) reads same
  subst isA
  have whole : earlier ++ slot :: b :: later = start ++ slot :: back := by
    rw [← shape,split,List.append_assoc,List.singleton_append]
  have nodup : (earlier ++ slot :: b :: later).Nodup := shape ▸ List.Nodup.of_map _ ids
  rw [List.nodup_middle,List.nodup_cons,List.mem_append,not_or] at nodup
  obtain ⟨_,_,rest⟩ := (List.append_cons_inj_of_notMem nodup.1.1 nodup.1.2).mp whole
  exact (below slot (by simp)).trans (above b (by rw [← rest]; rfl))

-- In a run from the empty list every placement asked for in any state succeeds
-- exactly when no `undone` brings an entry back to a key of the bucket it comes to.
theorem placements_succeed_iff (isList : onAList list = true) {taken : List (List Fact × Write)}
    (run : Run (Step list setting) [] taken facts) :
    ((∀ one ∈ taken, Places list setting one.1) ∧ Places list setting facts) ↔
      ∀ one ∈ taken, ComesApart setting one.1 one.2 := by
  have none : ListRecords list [] := ⟨isList,by simp,by simp,by simp,by simp⟩
  have first : Kept list [] := ⟨none,by simp [openEntries,placedInOrder,sortBy],by simp [openEntries,placedInOrder,sortBy]⟩
  have firstApart : Apart [] setting := by simp [Apart,openOf,openEntries,placedInOrder,sortBy]
  exact run.always_iff (ComesApart setting) first firstApart step_kept places_of_apart
    (fun kept apart took places => (step_apart kept apart took).mp (apart_of_places (step_kept kept took) places))
    fun kept apart took comes => (step_apart kept apart took).mpr comes

def keyedTick (n : Nat) (id : Text) (act : Act) : Fact :=
  ⟨'f' :: printNat n,packing,[],none,.active,{(TICK_ENTRY,id),(TICK_ACT,act.asToken)}⟩

def packed : List Fact := [keyedEntry 1 "V".toList,keyedEntry 2 "l".toList,keyedEntry 3 "d".toList,
  keyedTick 4 "f3".toList .done,keyedEntry 5 "d".toList,keyedTick 6 "f3".toList .undone]

def behindFirst : Placement := .after ⟨packing,"f1".toList⟩

def packingRun : List (List Fact × Write) := [([],.placed .last),(packed.take 1,.placed .last),
  (packed.take 2,.placed behindFirst),(packed.take 3,.ticked "f3".toList .done),(packed.take 4,.placed behindFirst),
  (packed.take 5,.ticked "f3".toList .undone)]

theorem packing_takes {n : Nat} (earlier : Run (Step packing .sink) [] (packingRun.take n) (packed.take n))
    (next : packingRun.take (n+1) = packingRun.take n ++ [(packed.take n,write)])
    (took : Step packing .sink (packed.take n) write (packed.take (n+1))) :
    Run (Step packing .sink) [] (packingRun.take (n+1)) (packed.take (n+1)) := next ▸ .step earlier took

theorem packing_placed : Run (Step packing .sink) [] (packingRun.take 3) (packed.take 3) := by
  have first : Run (Step packing .sink) [] (packingRun.take 1) (packed.take 1) := packing_takes .start rfl
    ⟨⟨"V".toList,0,0⟩,keyedEntry 1 "V".toList,rfl,⟨rfl,by decide,rfl,rfl⟩,⟨by decide,.inr (by decide)⟩,rfl⟩
  have second : Run (Step packing .sink) [] (packingRun.take 2) (packed.take 2) := packing_takes first rfl
    ⟨⟨"l".toList,0,1⟩,keyedEntry 2 "l".toList,rfl,⟨rfl,by decide,rfl,rfl⟩,⟨by decide,.inr (by decide)⟩,rfl⟩
  exact packing_takes second rfl
    ⟨⟨"d".toList,0,2⟩,keyedEntry 3 "d".toList,rfl,⟨rfl,by decide,rfl,rfl⟩,⟨by decide,.inr (by decide)⟩,rfl⟩

theorem packing_done : Run (Step packing .sink) [] (packingRun.take 4) (packed.take 4) := packing_takes packing_placed rfl
  ⟨keyedTick 4 "f3".toList .done,by decide,by decide,⟨rfl,by decide,rfl,rfl⟩,⟨by decide,by decide,by decide⟩,rfl⟩

theorem packing_run : Run (Step packing .sink) [] packingRun packed := by
  have again : Run (Step packing .sink) [] (packingRun.take 5) (packed.take 5) := packing_takes packing_done rfl
    ⟨⟨"d".toList,0,4⟩,keyedEntry 5 "d".toList,rfl,⟨rfl,by decide,rfl,rfl⟩,⟨by decide,.inr (by decide)⟩,rfl⟩
  exact packing_takes again rfl
    ⟨keyedTick 6 "f3".toList .undone,by decide,by decide,⟨rfl,by decide,rfl,rfl⟩,⟨by decide,by decide,by decide⟩,rfl⟩

-- The third entry is opened again before another takes its key.
def reopened : List Fact := packed.take 4 ++ [keyedTick 5 "f3".toList .undone]

theorem reopened_run : Run (Step packing .sink) [] (packingRun.take 4 ++ [(packed.take 4,.ticked "f3".toList .undone)]) reopened :=
  .step packing_done
    ⟨keyedTick 5 "f3".toList .undone,by decide,by decide,⟨rfl,by decide,rfl,rfl⟩,⟨by decide,by decide,by decide⟩,rfl⟩

theorem placements_succeed_after_an_undone :
    (∀ one ∈ packingRun.take 4 ++ [(packed.take 4,.ticked "f3".toList .undone)], Places packing .sink one.1) ∧
      Places packing .sink reopened := by
  refine (placements_succeed_iff rfl reopened_run).mpr ?_
  have comes : ComesApart .sink (packed.take 4) (.ticked "f3".toList .undone) := by
    unfold ComesApart
    decide
  intro one member
  rcases List.mem_append.mp member with early | last
  · fin_cases early <;> trivial
  · cases List.mem_singleton.mp last
    exact comes

theorem undone_leaves_no_room : Run (Step packing .sink) [] packingRun packed ∧
    Asked (view packed .sink) packing none (.after ⟨packing,"f3".toList⟩) ∧
    placeNew packed .sink packing (.after ⟨packing,"f3".toList⟩) = .error (.noRoom (.noRoom "d".toList "d".toList)) ∧
    ¬ Places packing .sink packed := by
  have asked : Asked (view packed .sink) packing none (.after ⟨packing,"f3".toList⟩) :=
    ⟨rfl,by decide,⟨"f3".toList,_,0,"d".toList⟩,.tail _ (.head _),rfl⟩
  have refused : placeNew packed .sink packing (.after ⟨packing,"f3".toList⟩) =
    .error (.noRoom (.noRoom "d".toList "d".toList)) := rfl
  refine ⟨packing_run,asked,refused,?_⟩
  intro places
  obtain ⟨moved,chosen⟩ := places.new _ asked
  rw [refused] at chosen
  cases chosen

end Entries
