import Jojobot.Memory.Folded.Backing

namespace Memory
open Library Std

section
variable [Floats]

-- What the fold holds of one key, and since when.
structure Aged extends Cell where
  moment : Option (Option Timestamp) := none

def FoldState.aged (state : FoldState) (key : Text) : Aged := ⟨state.cell key,state.moments[key]?⟩

def Aged.lay (declared : List FoldType) (cell : Aged) (write : KeyWrite) : Aged :=
  match heldValue write declared with
  | none => {}
  | some value =>
    match foldOf write.key declared with
    | .newest => ⟨⟨some value,cell.total⟩,some write.writtenAt⟩
    | .describes => cell
    | .sum =>
      match cell.total.plus value with
      | some total => ⟨⟨some total.render,total⟩,some write.writtenAt⟩
      | none => if cell.value.isSome then cell else ⟨⟨some value,cell.total⟩,some write.writtenAt⟩

theorem foldStep_aged_other {state : FoldState} {write : KeyWrite} {key : Text} (declared : List FoldType)
    (other : write.key ≠ key) : (foldStep declared state write).aged key = state.aged key := by
  have cell := @foldStep_other _ state write key declared other
  have moment : (foldStep declared state write).moments[key]? = state.moments[key]? := by
    unfold foldStep
    split
    · simp [FoldState.drop,ExtTreeMap.getElem?_erase,other]
    · split
      · simp [FoldState.put,ExtTreeMap.getElem?_insert,other]
      · rfl
      · split
        · simp [FoldState.put,ExtTreeMap.getElem?_insert,other]
        · split
          · rfl
          · simp [FoldState.put,ExtTreeMap.getElem?_insert,other]
  simp only [FoldState.aged,cell,moment]

theorem foldStep_aged (declared : List FoldType) (state : FoldState) (write : KeyWrite) :
    (foldStep declared state write).aged write.key = (state.aged write.key).lay declared write := by
  unfold foldStep Aged.lay FoldState.aged FoldState.cell
  cases heldValue write declared with
  | none => simp [FoldState.drop]
  | some value =>
    dsimp only
    cases foldOf write.key declared with
    | newest => simp [FoldState.put]
    | describes => rfl
    | sum =>
      dsimp only
      cases ((state.totals[write.key]?).getD .empty).plus value with
      | some total => simp [FoldState.put]
      | none =>
        dsimp only
        cases held : state.folded[write.key]? with
        | none =>
          rw [if_neg (by rw [←ExtTreeMap.isSome_getElem?_eq_contains,held]; simp)]
          simp [FoldState.put]
        | some old =>
          rw [if_pos (by rw [←ExtTreeMap.isSome_getElem?_eq_contains,held]; rfl)]
          simp [held]

-- The writes of a key that the fold reads, oldest first.
def readOf (key : Text) (writes : List KeyWrite) : List KeyWrite := (standingWrites writes).filter (·.key = key)

theorem fold_aged (declared : List FoldType) (key : Text) (writes : List KeyWrite) :
    (fold writes declared).aged key = (readOf key writes).foldl (Aged.lay declared) {} := by
  unfold fold readOf
  have start : ({} : FoldState).aged key = {} := by simp [FoldState.aged,FoldState.cell]
  rw [←start]
  refine @foldl_by_key KeyWrite FoldState Text Aged _ KeyWrite.key (foldStep declared) (·.aged key)
    (Aged.lay declared) key ?_ ?_ (standingWrites writes) {}
  · intro state write other
    exact foldStep_aged_other declared other
  · intro state write same
    subst same
    exact foldStep_aged declared state write

theorem foldedFields_aged (declared : List FoldType) (key : Text) (writes : List KeyWrite) :
    (foldedFields writes declared)[key]? = ((readOf key writes).foldl (Aged.lay declared) {}).value := by
  rw [←fold_aged]
  rfl

theorem foldedAges_aged (declared : List FoldType) (key : Text) (writes : List KeyWrite) :
    (foldedAges writes declared)[key]? = ((readOf key writes).foldl (Aged.lay declared) {}).moment.bind id := by
  rw [←fold_aged]
  unfold foldedAges
  simp only [ExtTreeMap.getElem?_filterMap']
  rfl

-- The last write of a plain key is all that its fold holds.
theorem newest_aged {declared : List FoldType} {writes : List KeyWrite}
    (plain : ∀ write ∈ writes, foldOf write.key declared = .newest) :
    (writes.foldl (Aged.lay declared) {}).value = writes.getLast?.bind (heldValue · declared) ∧
      (writes.foldl (Aged.lay declared) {}).moment =
        writes.getLast?.bind fun write => (heldValue write declared).map fun _ => write.writtenAt := by
  rcases List.eq_nil_or_concat' writes with rfl | ⟨front,last,rfl⟩
  · exact ⟨rfl,rfl⟩
  · have newest := plain last (by simp)
    simp only [List.foldl_append,List.foldl_cons,List.foldl_nil,List.getLast?_concat,Option.bind_some]
    unfold Aged.lay
    cases heldValue last declared with
    | none => exact ⟨rfl,rfl⟩
    | some value => simp [newest]

theorem describes_aged {declared : List FoldType} {writes : List KeyWrite}
    (labels : ∀ write ∈ writes, foldOf write.key declared = .describes) :
    writes.foldl (Aged.lay declared) {} = {} := by
  induction writes with
  | nil => rfl
  | cons write rest ih =>
    have label := labels write List.mem_cons_self
    have nothing : Aged.lay declared {} write = {} := by
      unfold Aged.lay
      cases heldValue write declared with
      | none => rfl
      | some value => simp [label]
    rw [List.foldl_cons,nothing]
    exact ih fun other has => labels other (List.mem_cons_of_mem _ has)

-- The writes that come after the last that takes the key off.
def sinceClear (declared : List FoldType) (writes : List KeyWrite) : List KeyWrite :=
  writes.rtakeWhile fun write => (heldValue write declared).isSome

def numberOf (write : KeyWrite) : Option Int := write.value.bind fun value => parseSigned 64 (trim value)

def sumOf (writes : List KeyWrite) : Int := (writes.filterMap numberOf).sum
def newestNumber (writes : List KeyWrite) : Option KeyWrite := (writes.filter fun write => (numberOf write).isSome).getLast?

-- What a counter comes to over writes that all hold something.
def tally (writes : List KeyWrite) : Aged :=
  match newestNumber writes with
  | some last => ⟨⟨some (printInt (sumOf writes)),.whole (sumOf writes)⟩,some last.writtenAt⟩
  | none => ⟨⟨writes.head?.bind (·.value),.empty⟩,writes.head?.map (·.writtenAt)⟩

-- Each value is a whole number or no number at all.
def Countable (write : KeyWrite) : Prop :=
  ∀ value, write.value = some value → (parseSigned 64 (trim value)).isSome ∨ Floats.parseFloat (trim value) = none

omit [Floats] in
theorem sumOf_unnumbered {writes : List KeyWrite} (unnumbered : newestNumber writes = none) : sumOf writes = 0 := by
  have none' := List.getLast?_eq_none_iff.mp unnumbered
  have all : writes.filterMap numberOf = [] := by
    apply List.filterMap_eq_nil_iff.mpr
    intro write has
    have words := List.filter_eq_nil_iff.mp none' write has
    simpa using words
  rw [sumOf,all]
  rfl

theorem tally_total (writes : List KeyWrite) : (tally writes).total.plus = (Total.whole (sumOf writes)).plus := by
  unfold tally
  cases numbered : newestNumber writes with
  | some last => rfl
  | none =>
    rw [sumOf_unnumbered numbered]
    rfl

theorem tally_concat {declared : List FoldType} {writes : List KeyWrite} {write : KeyWrite} {value : Text}
    (held : heldValue write declared = some value) (sums : foldOf write.key declared = .sum)
    (counts : Countable write) (before : ∀ other ∈ writes, other.value.isSome) :
    (tally writes).lay declared write = tally (writes ++ [write]) := by
  have sent : write.value = some value := (Option.filter_eq_some_iff.mp held).1
  unfold Aged.lay
  simp only [held,sums]
  rw [tally_total]
  cases parsed : parseSigned 64 (trim value) with
  | some added =>
    have number : numberOf write = some added := by simp [numberOf,sent,parsed]
    have total : sumOf (writes ++ [write]) = sumOf writes + added := by simp [sumOf,number]
    have last : newestNumber (writes ++ [write]) = some write := by simp [newestNumber,number]
    have grown : (Total.whole (sumOf writes)).plus value = some (.whole (sumOf writes + added)) := by
      simp [Total.plus,parsed]
    rw [grown]
    simp only [tally,last,total,Total.render]
  | none =>
    have word : numberOf write = none := by simp [numberOf,sent,parsed]
    have float : Floats.parseFloat (trim value) = none := by
      rcases counts value sent with whole | none'
      · rw [parsed] at whole
        cases whole
      · exact none'
    have total : sumOf (writes ++ [write]) = sumOf writes := by simp [sumOf,word]
    have last : newestNumber (writes ++ [write]) = newestNumber writes := by simp [newestNumber,word]
    have stays : (Total.whole (sumOf writes)).plus value = none := by simp [Total.plus,parsed,float]
    rw [stays]
    unfold tally
    rw [total,last]
    cases newestNumber writes with
    | some newest => rfl
    | none =>
      cases writes with
      | nil => simp [sent]
      | cons first rest =>
        have filled := before first List.mem_cons_self
        simp [filled]

-- A counter is its tally since the last clear.
theorem sum_aged {declared : List FoldType} (writes : List KeyWrite)
    (sums : ∀ write ∈ writes, foldOf write.key declared = .sum) (count : ∀ write ∈ writes, Countable write) :
    writes.foldl (Aged.lay declared) {} = tally (sinceClear declared writes) := by
  induction writes using List.reverseRecOn with
  | nil => rfl
  | append_singleton front write ih =>
    have earlier := ih (fun other has => sums other (List.mem_append_left _ has))
      (fun other has => count other (List.mem_append_left _ has))
    rw [List.foldl_append,List.foldl_cons,List.foldl_nil,earlier]
    unfold sinceClear
    cases held : heldValue write declared with
    | none =>
      rw [List.rtakeWhile_concat_neg _ _ _ (by simp [held])]
      simp [Aged.lay,held,tally,newestNumber]
    | some value =>
      rw [List.rtakeWhile_concat_pos _ _ _ (by simp [held])]
      refine tally_concat held (sums write (by simp)) (count write (by simp)) ?_
      intro other has
      have keeps := List.mem_rtakeWhile_imp has
      obtain ⟨kept,holds⟩ := Option.isSome_iff_exists.mp keeps
      rw [(Option.filter_eq_some_iff.mp holds).1]
      rfl

end

-- The record behind a key's value is the one of its last write.
theorem foldedBacking_key (declared : List FoldType) (key : Text) (writes : List BackedWrite) :
    (foldedBacking writes declared)[key]? = ((standingBacked writes).filter (·.key = key)).getLast?.bind fun write =>
      if foldOf write.key declared = .newest then
        (heldValue write.toKeyWrite declared).map fun _ => write.backing
      else none := by
  unfold foldedBacking
  have each := @foldl_by_key BackedWrite (ExtTreeMap Text FieldBacking) Text (Option FieldBacking) _ (·.key)
    (backStep declared) (·[key]?) (fun _ write => if foldOf write.key declared = .newest then
      (heldValue write.toKeyWrite declared).map fun _ => write.backing else none) key ?_ ?_ (standingBacked writes) {}
  · rw [each,foldl_last]
    cases ((standingBacked writes).filter (·.key = key)).getLast? <;> simp
  · intro backing write other
    unfold backStep
    split
    · simp [ExtTreeMap.getElem?_erase,other]
    · split
      · simp [ExtTreeMap.getElem?_erase,other]
      · simp [ExtTreeMap.getElem?_insert,other]
  · intro backing write same
    subst same
    unfold backStep
    by_cases newest : foldOf write.key declared = .newest
    · cases heldValue write.toKeyWrite declared <;> simp [newest]
    · simp [newest]

def keyWrites (writes : List BackedWrite) : List KeyWrite := writes.map (·.toKeyWrite)

theorem standing_backed (writes : List BackedWrite) :
    standingWrites (keyWrites writes) = (standingBacked writes).map (·.toKeyWrite) := by
  unfold standingWrites standingBacked keyWrites
  rw [List.filter_map]
  exact sortBy_map _ fun _ _ _ _ => rfl

theorem read_backed (key : Text) (writes : List BackedWrite) :
    readOf key (keyWrites writes) = ((standingBacked writes).filter (·.key = key)).map (·.toKeyWrite) := by
  unfold readOf
  rw [standing_backed,List.filter_map]
  rfl

theorem mem_read {key : Text} {writes : List BackedWrite} {write : BackedWrite} :
    write ∈ (standingBacked writes).filter (·.key = key) ↔
      write ∈ writes ∧ write.key = key ∧ write.status = .active ∧ reservedKey key = false := by
  simp only [standingBacked,List.mem_filter,mem_sortBy,Bool.and_eq_true,decide_eq_true_eq,Bool.not_eq_true']
  constructor
  · rintro ⟨⟨has,active,unreserved⟩,rfl⟩
    exact ⟨has,rfl,active,unreserved⟩
  · rintro ⟨has,rfl,active,unreserved⟩
    exact ⟨⟨has,active,unreserved⟩,rfl⟩

instance byBackedKey_trans : TransCmp byBackedKey where
  eq_swap {a b} := @OrientedCmp.eq_swap _ byKeyAndOrdinal _ a.toKeyWrite b.toKeyWrite
  isLE_trans {a b c} := @TransCmp.isLE_trans _ byKeyAndOrdinal _ a.toKeyWrite b.toKeyWrite c.toKeyWrite

-- The write of a key that stands last: none of the key is newer.
theorem last_read {key : Text} {writes : List BackedWrite} {write : BackedWrite}
    (last : ((standingBacked writes).filter (·.key = key)).getLast? = some write) :
    write ∈ writes ∧ write.key = key ∧ write.status = .active ∧ reservedKey key = false ∧
      ∀ other ∈ writes, other.key = key → other.status = .active → other.ordinal ≤ write.ordinal := by
  obtain ⟨has,same,active,unreserved⟩ := mem_read.mp (List.mem_of_getLast? last)
  refine ⟨has,same,active,unreserved,?_⟩
  intro other hasOther same' active'
  have read := mem_read.mpr ⟨hasOther,same',active',unreserved⟩
  have sorted : ((standingBacked writes).filter (·.key = key)).Pairwise fun a b => (byBackedKey a b).isLE = true :=
    (sortBy_pairwise _).sublist List.filter_sublist
  obtain ⟨front,shape⟩ := List.getLast?_eq_some_iff.mp last
  rw [shape] at read sorted
  rcases List.mem_append.mp read with earlier | is
  · have lower := (List.pairwise_append.mp sorted).2.2 other earlier write (by simp)
    have keys : other.key = write.key := same'.trans same.symm
    simpa [byBackedKey,byKeyAndOrdinal,compareLex,compareOn,keys,Nat.isLE_compare] using lower
  · rw [List.mem_singleton.mp is]

-- Writes that each have an ordinal of their key to themselves are read in one order.
theorem standing_perm {writes other : List BackedWrite} (same : other.Perm writes)
    (once : (writes.map fun write => (write.key,write.ordinal)).Nodup) : standingBacked other = standingBacked writes := by
  unfold standingBacked
  refine sortBy_eq ?_ (sortBy_strict ?_)
  · exact (sortBy_perm _ _).trans (same.filter _).symm
  · refine ((List.pairwise_map.mp once).sublist List.filter_sublist).imp ?_
    intro a b apart tied
    have parts : compare a.key b.key = .eq ∧ compare a.ordinal b.ordinal = .eq := Ordering.then_eq_eq.mp tied
    exact apart (Prod.ext (Std.compare_eq_iff_eq.mp parts.1) (Std.compare_eq_iff_eq.mp parts.2))

section
variable [Floats]

-- What the three readings answer of one key.
structure OneFold (declared : List FoldType) (writes : List BackedWrite) (key : Text) : Prop where
  backed : key ∈ foldedBacking writes declared ↔
    key ∈ foldedFields (keyWrites writes) declared ∧ foldOf key declared = .newest
  newest : ∀ backing, (foldedBacking writes declared)[key]? = some backing → ∃ write ∈ writes, ∃ value,
    (write.key = key ∧ write.status = .active ∧
      ∀ other ∈ writes, other.key = key → other.status = .active → other.ordinal ≤ write.ordinal) ∧
    heldValue write.toKeyWrite declared = some value ∧ write.value = some value ∧
    (foldedFields (keyWrites writes) declared)[key]? = some value ∧
    (foldedAges (keyWrites writes) declared)[key]? = write.writtenAt ∧ backing = write.backing
  labels : foldOf key declared = .describes ∨ reservedKey key = true → key ∉ foldedFields (keyWrites writes) declared ∧
    key ∉ foldedAges (keyWrites writes) declared ∧ key ∉ foldedBacking writes declared
  counter : foldOf key declared = .sum →
    (∀ write ∈ writes, write.key = key → write.status = .active → Countable write.toKeyWrite) →
    let since := sinceClear declared (readOf key (keyWrites writes))
    match newestNumber since with
    | some number => (foldedFields (keyWrites writes) declared)[key]? = some (printInt (sumOf since)) ∧
        (foldedAges (keyWrites writes) declared)[key]? = number.writtenAt
    | none => (foldedFields (keyWrites writes) declared)[key]? = since.head?.bind (·.value) ∧
        (foldedAges (keyWrites writes) declared)[key]? = since.head?.bind (·.writtenAt)

theorem read_last {declared : List FoldType} {key : Text} {writes : List BackedWrite} (newest : foldOf key declared = .newest) :
    ((readOf key (keyWrites writes)).foldl (Aged.lay declared) {}).value =
      (((standingBacked writes).filter (·.key = key)).getLast?).bind (fun write => heldValue write.toKeyWrite declared) ∧
    ((readOf key (keyWrites writes)).foldl (Aged.lay declared) {}).moment =
      (((standingBacked writes).filter (·.key = key)).getLast?).bind fun write =>
        (heldValue write.toKeyWrite declared).map fun _ => write.writtenAt := by
  have plain : ∀ write ∈ readOf key (keyWrites writes), foldOf write.key declared = .newest := by
    intro write has
    rw [show write.key = key by simpa using (List.mem_filter.mp has).2]
    exact newest
  obtain ⟨value,moment⟩ := newest_aged plain
  rw [value,moment,read_backed,List.getLast?_map]
  cases ((standingBacked writes).filter (·.key = key)).getLast? with
  | none => exact ⟨rfl,rfl⟩
  | some write => exact ⟨rfl,rfl⟩

theorem one_fold (declared : List FoldType) (writes : List BackedWrite) (key : Text) : OneFold declared writes key := by
  have keyed : ∀ write ∈ readOf key (keyWrites writes), write.key = key := by
    intro write has
    simpa using (List.mem_filter.mp has).2
  have backing := foldedBacking_key declared key writes
  have value := foldedFields_aged declared key (keyWrites writes)
  have age := foldedAges_aged declared key (keyWrites writes)
  constructor
  · -- Where a key folds otherwise there is no backing, so only a plain key is left.
    rw [ExtTreeMap.mem_iff_isSome_getElem?,ExtTreeMap.mem_iff_isSome_getElem?,backing,value]
    by_cases newest : foldOf key declared = .newest
    · rw [(read_last newest).1]
      cases last : ((standingBacked writes).filter (·.key = key)).getLast? with
      | none => simp
      | some write =>
        have same := (last_read last).2.1
        simp [same,newest]
    · simp only [newest,and_false,iff_false,Option.not_isSome_iff_eq_none]
      cases last : ((standingBacked writes).filter (·.key = key)).getLast? with
      | none => rfl
      | some write =>
        have same := (last_read last).2.1
        simp [same,newest]
  · intro found held
    rw [backing] at held
    obtain ⟨write,last,holds⟩ := Option.bind_eq_some_iff.mp held
    obtain ⟨has,same,active,_,latest⟩ := last_read last
    split at holds
    · rename_i newest
      rw [same] at newest
      obtain ⟨kept,keeps,rfl⟩ := Option.map_eq_some_iff.mp holds
      obtain ⟨held',moment⟩ := @read_last _ declared key writes newest
      refine ⟨write,has,kept,⟨same,active,latest⟩,keeps,(Option.filter_eq_some_iff.mp keeps).1,?_,?_,rfl⟩
      · rw [value,held',last]
        exact keeps
      · rw [age,moment,last]
        simp [keeps]
    · cases holds
  · intro label
    have nothing : (readOf key (keyWrites writes)).foldl (Aged.lay declared) {} = {} := by
      rcases label with describes | reserved
      · refine describes_aged ?_
        intro write has
        rw [keyed write has]
        exact describes
      · have none' : readOf key (keyWrites writes) = [] := by
          rw [read_backed,List.map_eq_nil_iff]
          apply List.eq_nil_iff_forall_not_mem.mpr
          intro write has
          have unreserved := (mem_read.mp has).2.2.2
          rw [reserved] at unreserved
          cases unreserved
        rw [none']
        rfl
    simp only [ExtTreeMap.mem_iff_isSome_getElem?,value,age,nothing,backing]
    refine ⟨by simp,by simp,?_⟩
    cases last : ((standingBacked writes).filter (·.key = key)).getLast? with
    | none => simp
    | some write =>
      obtain ⟨_,same,_,unreserved,_⟩ := last_read last
      rcases label with describes | reserved
      · simp [same,describes]
      · rw [reserved] at unreserved
        cases unreserved
  · intro sums count
    have tallied := @sum_aged _ declared (readOf key (keyWrites writes))
      (fun write has => by rw [keyed write has]; exact sums) ?_
    · dsimp only
      rw [value,age,tallied]
      unfold tally
      cases newestNumber (sinceClear declared (readOf key (keyWrites writes))) with
      | some number => exact ⟨rfl,rfl⟩
      | none =>
        dsimp only
        refine ⟨rfl,?_⟩
        cases (sinceClear declared (readOf key (keyWrites writes))).head? <;> rfl
    · intro write has
      rw [read_backed] at has
      obtain ⟨one,member,rfl⟩ := List.mem_map.mp has
      obtain ⟨has,same,active,_⟩ := mem_read.mp member
      exact count one has same active

-- However the writes come in, the three readings of them are one fold.
theorem three_readings_are_one_fold (declared : List FoldType) (writes : List BackedWrite)
    (once : (writes.map fun write => (write.key,write.ordinal)).Nodup) :
    (∀ other : List BackedWrite, other.Perm writes →
      foldedFields (keyWrites other) declared = foldedFields (keyWrites writes) declared ∧
      foldedAges (keyWrites other) declared = foldedAges (keyWrites writes) declared ∧
      foldedBacking other declared = foldedBacking writes declared) ∧
    ∀ key, OneFold declared writes key := by
  refine ⟨?_,one_fold declared writes⟩
  intro other same
  have alike := standing_perm same once
  have reads : standingWrites (keyWrites other) = standingWrites (keyWrites writes) := by
    rw [standing_backed,standing_backed,alike]
  refine ⟨?_,?_,?_⟩
  · simp only [foldedFields,fold,reads]
  · simp only [foldedAges,fold,reads]
  · simp only [foldedBacking,alike]

end

def countWrite (ordinal : Nat) (value : Option String) : BackedWrite where
  key := "visits".toList
  ordinal := ordinal
  value := value.map String.toList
  fact := "f1".toList
  status := .active
  writtenAt := some ordinal
  provenance := .testimony
  standing := .settled
  note := none
  recordedBy := none

def countedVisits : List FoldType := [⟨[⟨"visits".toList,.sum,false⟩],.declared⟩]

-- Three visits, whichever way the writes of them come in.
theorem visits_are_counted_in_any_order :
    (@foldedFields wholeFloats (keyWrites [countWrite 2 "1",countWrite 1 "2"]) countedVisits)["visits".toList]? =
      some "3".toList := by
  have both := @three_readings_are_one_fold wholeFloats countedVisits [countWrite 1 "2",countWrite 2 "1"] (by decide)
  have total : (@foldedFields wholeFloats (keyWrites [countWrite 1 "2",countWrite 2 "1"]) countedVisits)["visits".toList]? =
      some "3".toList := by decide +kernel
  rw [(both.1 [countWrite 2 "1",countWrite 1 "2"] (List.Perm.swap _ _ [])).1,total]

end Memory
