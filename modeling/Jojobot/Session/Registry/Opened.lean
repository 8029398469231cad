import Jojobot.Session.Registry

namespace Registry
open Library Std

theorem insert_get {V : Type} {map : ExtTreeMap Text V} {name other : Text} {value : V} :
    (map.insert name value)[other]? = if name = other then some value else map[other]? := by
  simp only [ExtTreeMap.getElem?_insert,Std.compare_eq_iff_eq]

theorem erase_get {V : Type} {map : ExtTreeMap Text V} {name other : Text} :
    (map.erase name)[other]? = if name = other then none else map[other]? := by
  simp only [ExtTreeMap.getElem?_erase,Std.compare_eq_iff_eq]

theorem contains_get {V : Type} {map : ExtTreeMap Text V} {name : Text} :
    map.contains name = true ↔ ∃ value, map[name]? = some value := by
  rw [ExtTreeMap.contains_eq_isSome_getElem?,Option.isSome_iff_exists]

theorem absent_get {V : Type} {map : ExtTreeMap Text V} {name : Text} :
    map.contains name = false ↔ map[name]? = none := by
  rw [ExtTreeMap.contains_eq_isSome_getElem?]
  cases map[name]? <;> simp

-- Each hash that was drawn, with the run its key was drawn for or set on.
abbrev Drawn := List (Hash × Sid)

-- What holds of a registry whose keys are among these.
structure Kept (drawn : Drawn) (held : Held) : Prop where
  named : ∀ name (handle : Handle), held.byName[name]? = some handle → handle.name = name ∧ isReadableSid name = true
  opens : ∀ hash name, held.byHash[hash]? = some name ↔
    ∃ handle : Handle, held.byName[name]? = some handle ∧ handle.key = .held hash
  owned : ∀ hash name, held.byHash[hash]? = some name → (hash,name) ∈ drawn
  trailed : ∀ name (handle : Handle) last, held.byName[name]? = some handle → handle.lastRetired = some last →
    (last.hash,name) ∈ drawn ∧ held.byHash[last.hash]? = none
  known : ∀ hash (retired : Retired), held.retired[hash]? = some retired →
    (hash,retired.name) ∈ drawn ∧ held.byName.contains retired.name = true ∧ held.byHash[hash]? = none
  order : ∀ hash, hash ∈ held.retiredOrder ↔ held.retired.contains hash = true
  once : held.retiredOrder.Nodup
  bounded : held.retiredOrder.length ≤ RETIRED_KEPT

def Apart (drawn : Drawn) : Prop := (drawn.map Prod.fst).Nodup

variable {drawn more : Drawn} {held : Held} {hash : Hash} {name other : Sid} {handle : Handle}

theorem Apart.unique (apart : Apart drawn) (one : (hash,name) ∈ drawn) (also' : (hash,other) ∈ drawn) : name = other := by
  have same := List.inj_on_of_nodup_map apart one also' rfl
  exact congrArg Prod.snd same

theorem not_drawn (new : hash ∉ drawn.map Prod.fst) : (hash,name) ∉ drawn :=
  fun has => new (List.mem_map_of_mem has)

theorem Kept.mono (kept : Kept drawn held) (sub : drawn ⊆ more) : Kept more held := by
  refine { kept with owned := ?_,trailed := ?_,known := ?_ }
  · intro hash name opened
    exact sub (kept.owned hash name opened)
  · intro name handle last has was
    obtain ⟨drawn,shut⟩ := kept.trailed name handle last has was
    exact ⟨sub drawn,shut⟩
  · intro hash retired has
    obtain ⟨drawn,there⟩ := kept.known hash retired has
    exact ⟨sub drawn,there⟩

-- Remembering a key touches no run and no key that opens one.
theorem remember_frame (held : Held) (hash : Hash) (retired : Retired) :
    (held.rememberRetired hash retired).byName = held.byName ∧
      (held.rememberRetired hash retired).byHash = held.byHash := by
  unfold Held.rememberRetired
  split
  · split <;> exact ⟨rfl,rfl⟩
  · exact ⟨rfl,rfl⟩

theorem remember_get (held : Held) (hash : Hash) (retired : Retired) :
    ∃ dropped, (held.rememberRetired hash retired).retiredOrder = held.retiredOrder.drop dropped ++ [hash] ∧
      (dropped = 0 ∧ held.retiredOrder.length < RETIRED_KEPT ∨ dropped = 1) ∧
      ∀ other, (held.rememberRetired hash retired).retired[other]? =
        if hash = other then some retired
        else if other ∈ held.retiredOrder.take dropped then none else held.retired[other]? := by
  unfold Held.rememberRetired
  split
  · rename_i oldest rest order
    split
    · refine ⟨1,by simp [order],.inr rfl,?_⟩
      intro other
      simp [insert_get,erase_get,order,eq_comm]
    · rename_i room
      refine ⟨0,by simp [order],.inl ⟨rfl,by omega⟩,?_⟩
      intro other
      simp [insert_get]
  · rename_i order
    refine ⟨0,by simp [order],.inl ⟨rfl,by simp [order,RETIRED_KEPT]⟩,?_⟩
    intro other
    simp [insert_get]

theorem Kept.remember (kept : Kept drawn held) {retired : Retired} (own : (hash,retired.name) ∈ drawn)
    (there : held.byName.contains retired.name = true) (shut : held.byHash[hash]? = none)
    (new : held.retired[hash]? = none) : Kept drawn (held.rememberRetired hash retired) := by
  obtain ⟨names,hashes⟩ := remember_frame held hash retired
  obtain ⟨dropped,order,room,get⟩ := remember_get held hash retired
  have apart : (held.retiredOrder.take dropped ++ held.retiredOrder.drop dropped).Nodup := by
    rw [List.take_append_drop]; exact kept.once
  have absent : hash ∉ held.retiredOrder := by
    rw [kept.order,contains_get]
    simp [new]
  constructor
  · rw [names]; exact kept.named
  · rw [names,hashes]; exact kept.opens
  · rw [hashes]; exact kept.owned
  · rw [names,hashes]; exact kept.trailed
  · intro other known has
    rw [get] at has
    rw [names,hashes]
    split at has
    · rename_i same
      cases Option.some.inj has
      subst same
      exact ⟨own,there,shut⟩
    · split at has
      · exact nomatch has
      · exact kept.known other known has
  · intro other
    rw [order,contains_get,get]
    have was := kept.order other
    rw [contains_get] at was
    by_cases same : hash = other
    · subst same
      simp
    · rw [if_neg same]
      have split' : other ∈ held.retiredOrder ↔ other ∈ held.retiredOrder.take dropped ∨ other ∈ held.retiredOrder.drop dropped := by
        rw [←List.mem_append,List.take_append_drop]
      have disjoint := (List.nodup_append.mp apart).2.2
      by_cases gone : other ∈ held.retiredOrder.take dropped
      · have left : other ∉ held.retiredOrder.drop dropped := fun has => disjoint other gone other has rfl
        simp [gone,left,Ne.symm same]
      · rw [if_neg gone,←was,split']
        simp [gone,Ne.symm same]
  · rw [order,List.nodup_append]
    refine ⟨(List.drop_sublist ..).nodup kept.once,by simp,?_⟩
    intro one has last is same
    rw [List.mem_singleton.mp is] at same
    exact absent (same ▸ (List.drop_sublist ..).subset has)
  · rw [order,List.length_append,List.length_drop,List.length_singleton]
    have bounded := kept.bounded
    rcases room with ⟨rfl,room⟩ | rfl
    · omega
    · unfold RETIRED_KEPT at bounded ⊢
      omega

-- A run the registry did not hold, with keys that are its own.
theorem Kept.put (kept : Kept drawn held) (handle : Handle) (apart : Apart drawn) (absent : held.byName[name]? = none)
    (named : handle.name = name) (readable : isReadableSid name = true)
    (own : ∀ hash, handle.key = .held hash → (hash,name) ∈ drawn)
    (trailed : ∀ last, handle.lastRetired = some last → (last.hash,name) ∈ drawn ∧ handle.key ≠ .held last.hash) :
    Kept drawn { held with
      byHash := handle.key.hash.elim held.byHash fun hash => held.byHash.insert hash name
      byName := held.byName.insert name handle } := by
  have unopened : ∀ hash : Hash, held.byHash[hash]? ≠ some name := by
    intro hash opened
    obtain ⟨there,has,_⟩ := (kept.opens hash name).mp opened
    rw [absent] at has
    exact nomatch has
  have opened : ∀ hash : Hash, (handle.key.hash.elim held.byHash fun hash => held.byHash.insert hash name)[hash]? =
      if handle.key = .held hash then some name else held.byHash[hash]? := by
    intro hash
    cases key : handle.key with
    | void => simp [KeyState.hash]
    | held new => simp [KeyState.hash,insert_get]
  have shut : ∀ hash : Hash, (hash,name) ∈ drawn → held.byHash[hash]? = none := by
    intro hash mine
    cases was : held.byHash[hash]? with
    | none => rfl
    | some other =>
      cases apart.unique mine (kept.owned hash other was)
      exact absurd was (unopened hash)
  constructor
  · intro other there has
    rw [insert_get] at has
    split at has
    · rename_i same
      cases Option.some.inj has
      exact same ▸ ⟨named,readable⟩
    · exact kept.named other there has
  · intro hash other
    rw [opened,insert_get]
    by_cases same : name = other
    · subst same
      simp only [if_true,Option.some.injEq,exists_eq_left']
      by_cases key : handle.key = .held hash
      · simp [key]
      · simp [key,unopened hash]
    · rw [if_neg same]
      by_cases key : handle.key = .held hash
      · rw [if_pos key,←kept.opens,shut hash (own hash key)]
        simp [same]
      · rw [if_neg key,kept.opens]
  · intro hash other has
    rw [opened] at has
    split at has
    · rename_i key
      cases Option.some.inj has
      exact own hash key
    · exact kept.owned hash other has
  · intro other there last has was
    rw [insert_get] at has
    rw [opened]
    split at has
    · rename_i same
      cases Option.some.inj has
      subst same
      obtain ⟨mine,other⟩ := trailed last was
      rw [if_neg other]
      exact ⟨mine,shut _ mine⟩
    · rename_i apart'
      obtain ⟨theirs,closed⟩ := kept.trailed other there last has was
      refine ⟨theirs,?_⟩
      rw [if_neg,closed]
      intro key
      exact apart' (apart.unique (own _ key) theirs)
  · intro hash retired has
    obtain ⟨theirs,there,closed⟩ := kept.known hash retired has
    obtain ⟨_,there⟩ := contains_get.mp there
    have other : name ≠ retired.name := by
      intro same
      rw [←same,absent] at there
      exact nomatch there
    refine ⟨theirs,?_,?_⟩
    · rw [contains_get]
      exact ⟨_,by rw [insert_get,if_neg other]; exact there⟩
    · rw [opened,if_neg,closed]
      intro key
      exact other (apart.unique (own _ key) theirs)
  · exact kept.order
  · exact kept.once
  · exact kept.bounded

-- The run's key as it was is gone, and its key as it is opens it.
def Held.rekeyed (held : Held) (name : Sid) (was now : Handle) : Held :=
  { held with
    byHash := now.key.hash.elim (was.key.hash.elim held.byHash held.byHash.erase) fun new =>
      (was.key.hash.elim held.byHash held.byHash.erase).insert new name
    byName := held.byName.insert name now }

theorem rekeyed_opens (held : Held) (name : Sid) (was now : Handle) (hash : Hash) :
    (held.rekeyed name was now).byHash[hash]? =
      if now.key = .held hash then some name else if was.key = .held hash then none else held.byHash[hash]? := by
  have erased : (was.key.hash.elim held.byHash held.byHash.erase)[hash]? =
      if was.key = .held hash then none else held.byHash[hash]? := by
    cases was.key <;> simp [KeyState.hash,erase_get]
  rw [←erased,Held.rekeyed]
  cases now.key <;> simp [KeyState.hash,insert_get]

theorem Kept.rekey (kept : Kept drawn held) {was : Handle} (now : Handle) (there : held.byName[name]? = some was)
    (named : now.name = was.name) (fresh : ∀ hash, now.key = .held hash → hash ∉ drawn.map Prod.fst)
    (trail : now.lastRetired = was.lastRetired ∨ ∃ last, now.lastRetired = some last ∧ was.key = .held last.hash) :
    Kept (drawn ++ now.key.hash.toList.map (·,name)) (held.rekeyed name was now) := by
  have opens := rekeyed_opens held name was now
  have old : ∀ hash, was.key = .held hash → held.byHash[hash]? = some name :=
    fun hash key => (kept.opens hash name).mpr ⟨was,there,key⟩
  have new : ∀ hash, now.key = .held hash → (hash,name) ∈ drawn ++ now.key.hash.toList.map (·,name) := by
    intro hash key
    simp [key,KeyState.hash]
  have other : ∀ hash owner, (hash,owner) ∈ drawn → now.key ≠ .held hash :=
    fun hash owner mine key => not_drawn (fresh hash key) mine
  have closed : ∀ hash, (held.byHash[hash]? = none ∨ was.key = .held hash) → (∃ owner, (hash,owner) ∈ drawn) →
      (held.rekeyed name was now).byHash[hash]? = none := by
    intro hash shut ⟨owner,mine⟩
    rw [opens,if_neg (other hash owner mine)]
    rcases shut with shut | key
    · simp [shut]
    · simp [key]
  constructor
  · intro one handle has
    rw [Held.rekeyed,insert_get] at has
    split at has
    · rename_i same
      cases Option.some.inj has
      subst same
      rw [named]
      exact kept.named name was there
    · exact kept.named one handle has
  · intro hash one
    rw [opens,Held.rekeyed,insert_get]
    by_cases same : name = one
    · subst same
      simp only [if_true,Option.some.injEq,exists_eq_left']
      by_cases key : now.key = .held hash
      · simp [key]
      · simp only [key,if_false,iff_false]
        split
        · simp
        · rename_i before
          rw [kept.opens,there]
          simpa using before
    · rw [if_neg same]
      by_cases key : now.key = .held hash
      · rw [if_pos key]
        simp only [Option.some.injEq,same,false_iff]
        intro ⟨handle,has,theirs⟩
        exact not_drawn (fresh hash key) (kept.owned hash one ((kept.opens hash one).mpr ⟨handle,has,theirs⟩))
      · rw [if_neg key,←kept.opens]
        split
        · rename_i before
          rw [old hash before]
          simp [same]
        · rfl
  · intro hash one has
    rw [opens] at has
    split at has
    · rename_i key
      cases Option.some.inj has
      exact new hash key
    · split at has
      · exact nomatch has
      · exact List.mem_append_left _ (kept.owned hash one has)
  · intro one handle last has was'
    rw [Held.rekeyed,insert_get] at has
    split at has
    · rename_i same
      cases Option.some.inj has
      subst same
      rcases trail with unchanged | ⟨last',replaced,key⟩
      · rw [unchanged] at was'
        obtain ⟨mine,shut⟩ := kept.trailed name was last there was'
        exact ⟨List.mem_append_left _ mine,closed _ (.inl shut) ⟨_,mine⟩⟩
      · cases Option.some.inj (replaced.symm.trans was')
        have mine := kept.owned _ _ (old _ key)
        exact ⟨List.mem_append_left _ mine,closed _ (.inr key) ⟨_,mine⟩⟩
    · obtain ⟨mine,shut⟩ := kept.trailed one handle last has was'
      exact ⟨List.mem_append_left _ mine,closed _ (.inl shut) ⟨_,mine⟩⟩
  · intro hash retired has
    obtain ⟨mine,there,shut⟩ := kept.known hash retired has
    refine ⟨List.mem_append_left _ mine,?_,closed _ (.inl shut) ⟨_,mine⟩⟩
    rw [contains_get] at there ⊢
    obtain ⟨handle,has⟩ := there
    rw [Held.rekeyed,insert_get]
    split
    · exact ⟨_,rfl⟩
    · exact ⟨_,has⟩
  · exact kept.order
  · exact kept.once
  · exact kept.bounded

theorem trailAfter_retired (was : Handle) (retire : Option (Timestamp × RetiredBy)) :
    (was.trailAfter retire).retired = was.lastRetired ∨
      ∃ last, (was.trailAfter retire).retired = some last ∧ was.key = .held last.hash := by
  unfold Handle.trailAfter
  cases key : was.key with
  | void => rcases retire with _ | ⟨at',_ | _⟩ <;> exact .inl rfl
  | held old =>
    rcases retire with _ | ⟨at',_ | _⟩
    · exact .inl rfl
    · exact .inr ⟨⟨old,at',.resumed⟩,rfl,rfl⟩
    · exact .inr ⟨⟨old,at',.wrapped⟩,rfl,rfl⟩

-- What a run is after its key is set, the way its key before was retired.
def Handle.rekeyed (handle : Handle) (key : KeyState) (retire : Option (Timestamp × RetiredBy)) : Handle :=
  { handle with
    lastRetired := (handle.trailAfter retire).retired
    takenAt := (handle.trailAfter retire).takenAt
    key }

theorem setKey_told (key : KeyState) (at' : Timestamp) (by' : RetiredBy) {old : Hash} (was : handle.key = .held old)
    (there : held.byName[name]? = some handle) :
    held.setKey name key (some (at',by')) = (held.rekeyed name handle (handle.rekeyed key (some (at',by')))).rememberRetired
      old ⟨handle.name,handle.bot,at',by'⟩ := by
  unfold Held.setKey Held.release Held.rekeyed Held.rememberRetired
  simp only [there,was,KeyState.hash,Option.elim_some]
  cases order : held.retiredOrder with
  | nil => rfl
  | cons oldest rest =>
    dsimp only
    split <;> rfl

theorem setKey_untold (key : KeyState) (retire : Option (Timestamp × RetiredBy))
    (untold : handle.key = .void ∨ retire = none) (there : held.byName[name]? = some handle) :
    held.setKey name key retire = held.rekeyed name handle (handle.rekeyed key retire) := by
  unfold Held.setKey Held.release Held.rekeyed
  simp only [there]
  cases was : handle.key with
  | void => rfl
  | held old =>
    rcases untold with void | none
    · rw [was] at void
      exact nomatch void
    · subst none
      rfl

theorem Kept.setKey (kept : Kept drawn held) (key : KeyState) (retire : Option (Timestamp × RetiredBy))
    (there : held.byName[name]? = some handle) (fresh : ∀ hash, key = .held hash → hash ∉ drawn.map Prod.fst) :
    Kept (drawn ++ key.hash.toList.map (·,name)) (held.setKey name key retire) := by
  have next := kept.rekey (handle.rekeyed key retire) there rfl fresh (trailAfter_retired handle retire)
  have untold : handle.key = .void ∨ retire = none → Kept (drawn ++ key.hash.toList.map (·,name))
      (held.setKey name key retire) := by
    intro untold
    rw [setKey_untold key retire untold there]
    exact next
  cases was : handle.key with
  | void => exact untold (.inl was)
  | held old =>
    rcases retire with _ | ⟨at',by'⟩
    · exact untold (.inr rfl)
    · rw [setKey_told key at' by' was there]
      have opened := (kept.opens old name).mpr ⟨handle,there,was⟩
      have mine := kept.owned old name opened
      have self : handle.name = name := (kept.named name handle there).1
      refine next.remember ?_ ?_ ?_ ?_
      · rw [self]
        exact List.mem_append_left _ mine
      · rw [contains_get,self,Held.rekeyed,insert_get,if_pos rfl]
        exact ⟨_,rfl⟩
      · rw [rekeyed_opens,if_neg,if_pos was]
        intro same
        exact not_drawn (fresh old same) mine
      · cases known : held.retired[old]? with
        | none => exact known
        | some retired =>
          have shut := (kept.known old retired known).2.2
          rw [opened] at shut
          exact nomatch shut

def Handle.keys (handle : Handle) : Sid × KeyState × Option RetiredKey := (handle.name,handle.key,handle.lastRetired)

-- What a run is bound to and where it landed are no part of its keys.
theorem Kept.touch (kept : Kept drawn held) {runs : ExtTreeMap Sid Handle}
    (same : ∀ name : Sid, (runs[name]?).map Handle.keys = (held.byName[name]?).map Handle.keys) :
    Kept drawn { held with byName := runs } := by
  have back : ∀ (name : Sid) handle, runs[name]? = some handle → ∃ was, held.byName[name]? = some was ∧
      was.name = handle.name ∧ was.key = handle.key ∧ was.lastRetired = handle.lastRetired := by
    intro name handle has
    have alike := same name
    rw [has] at alike
    obtain ⟨was,there,parts⟩ := Option.map_eq_some_iff.mp alike.symm
    simp only [Handle.keys,Prod.mk.injEq] at parts
    exact ⟨was,there,parts⟩
  have on : ∀ (name : Sid) was, held.byName[name]? = some was → ∃ handle, runs[name]? = some handle ∧
      was.name = handle.name ∧ was.key = handle.key ∧ was.lastRetired = handle.lastRetired := by
    intro name was has
    have alike := same name
    rw [has] at alike
    obtain ⟨handle,there,parts⟩ := Option.map_eq_some_iff.mp alike
    simp only [Handle.keys,Prod.mk.injEq] at parts
    exact ⟨handle,there,parts.1.symm,parts.2.1.symm,parts.2.2.symm⟩
  refine { kept with named := ?_,opens := ?_,trailed := ?_,known := ?_ }
  · intro name handle has
    obtain ⟨was,there,name',_⟩ := back name handle has
    rw [←name']
    exact kept.named name was there
  · intro hash name
    rw [kept.opens]
    constructor
    · intro ⟨was,there,key⟩
      obtain ⟨handle,has,_,same,_⟩ := on name was there
      exact ⟨handle,has,same ▸ key⟩
    · intro ⟨handle,has,key⟩
      obtain ⟨was,there,_,same,_⟩ := back name handle has
      exact ⟨was,there,same.trans key⟩
  · intro name handle last has was'
    obtain ⟨was,there,_,_,same⟩ := back name handle has
    exact kept.trailed name was last there (same.trans was')
  · intro hash retired has
    obtain ⟨mine,there,shut⟩ := kept.known hash retired has
    refine ⟨mine,?_,shut⟩
    rw [contains_get] at there ⊢
    obtain ⟨was,there⟩ := there
    obtain ⟨handle,has,_⟩ := on _ was there
    exact ⟨handle,has⟩

theorem Kept.attachCard (kept : Kept drawn held) (name : Sid) (card : Text) : Kept drawn (held.attachCard name card) := by
  unfold Held.attachCard
  split
  · exact kept
  · rename_i handle there
    refine kept.touch ?_
    intro other
    rw [insert_get]
    split
    · rename_i same
      rw [←same,there]
      rfl
    · rfl

theorem Kept.rebindBot (kept : Kept drawn held) (offers : Offers) (source target : Text) :
    Kept drawn (held.rebindBot offers source target).1 := by
  refine kept.touch ?_
  intro name
  rw [ExtTreeMap.getElem?_map,Option.map_map]
  congr 1
  funext handle
  simp only [Function.comp_apply,Handle.rebind]
  split <;> rfl

end Registry
