import Jojobot.Library.Runs
import Jojobot.Session.Registry.Rebuilt

namespace Registry
open Library Std

-- The registry of the process, every hash drawn so far with the run its key was drawn for or
-- set on, and the key each run was last given.
structure World where
  held : Held := {}
  drawn : Drawn := []
  current : Sid → Option Hash := fun _ => none

inductive Act (Key : Type) where
  | mint (bot : Text) (drawName : Nat → Draw) (drawKey : Nat → Key)
  | setKey (name : Sid) (key : KeyState) (retire : Option (Timestamp × RetiredBy))
  | attachCard (name : Sid) (card : Text)
  | adopt (session : Session)
  | rebindBot (source target : Text)
  | restart (cards : List Session) (minted : List MintedRun)

variable {Key : Type}

-- The cards of runs the registry does not hold: another writer began them.
def World.foreign (world : World) (cards : List Session) : List Session :=
  cards.filter fun session => ! world.held.byName.contains session.name

def Session.drawn (session : Session) : Drawn :=
  (session.key.hash.toList ++ (session.keyTrail.retired.map RetiredKey.hash).toList).map (·,session.name)

def World.arriving (world : World) (cards : List Session) : Drawn := (world.foreign cards).flatMap Session.drawn

-- The keys that cards of another writer bring are new, as every drawn key is.
def World.Bring (world : World) (cards : List Session) : Prop := Apart (world.drawn ++ world.arriving cards)

-- The card of a run the registry holds, with that run's key state and trail as last written.
def OwnCard (held : Held) (session : Session) : Prop :=
  ∃ handle, held.byName[session.name]? = some handle ∧ handle.card.isSome ∧ session.key = handle.key ∧
    session.keyTrail.retired = handle.lastRetired ∧ session.keyTrail.takenAt = handle.takenAt

-- What a restart finds: every run with a card on its card, and every run without one that
-- holds a key with that key.
structure Found (world : World) (cards : List Session) (minted : List MintedRun) : Prop where
  names : (cards.map Session.name).Nodup
  owned : ∀ session ∈ cards, OwnCard world.held session ∨ world.held.byName[session.name]? = none
  all : ∀ name (handle : Handle), world.held.byName[name]? = some handle → handle.card.isSome → name ∈ cards.map Session.name
  bring : world.Bring cards
  runs : (minted.map MintedRun.name).Nodup
  keyed : ∀ run ∈ minted, ∃ handle, world.held.byName[run.name]? = some handle ∧ handle.card = none ∧
    Handle.key handle = .held run.keyHash
  allMinted : ∀ name (handle : Handle) hash, world.held.byName[name]? = some handle → handle.card = none →
    handle.key = .held hash → name ∈ minted.map MintedRun.name

def Allowed (hashKey : Key → Hash) (world : World) : Act Key → Prop
  | .mint _ _ drawKey => ∀ i < MINT_ATTEMPTS, hashKey (drawKey i) ∉ world.drawn.map Prod.fst
  | .setKey _ key _ => ∀ hash, key = .held hash → hash ∉ world.drawn.map Prod.fst
  | .adopt session => world.Bring [session]
  | .restart cards minted => Found world cards minted
  | .attachCard .. | .rebindBot .. => True

-- Runs that came with another writer's cards hold the keys the cards say.
def World.took (world : World) (cards : List Session) (name : Sid) : Option Hash :=
  match ((world.foreign cards).filter Session.readable).find? (·.name = name) with
  | some session => session.key.hash
  | none => world.current name

def World.mints (world : World) (hashKey : Key → Hash) : Act Key → Option (Minted Key)
  | .mint bot drawName drawKey => (world.held.mintWith hashKey bot drawName drawKey).1
  | _ => none

def World.next (world : World) (hashKey : Key → Hash) (act : Act Key) : World :=
  match act with
  | .mint bot drawName drawKey =>
    match world.held.mintWith hashKey bot drawName drawKey with
    | (none,held) => { world with held }
    | (some minted,held) =>
      ⟨held,world.drawn ++ [(hashKey minted.key,minted.name)],
        Function.update world.current minted.name (some (hashKey minted.key))⟩
  | .setKey name key retire =>
    ⟨world.held.setKey name key retire,world.drawn ++ key.hash.toList.map (·,name),
      if world.held.byName.contains name then Function.update world.current name key.hash else world.current⟩
  | .attachCard name card => { world with held := world.held.attachCard name card }
  | .adopt session => ⟨world.held.adopt session,world.drawn ++ world.arriving [session],world.took [session]⟩
  | .rebindBot source target => { world with held := (world.held.rebindBot {} source target).1 }
  | .restart cards minted =>
    ⟨((({} : Held).rebuildFrom cards).1.rebuildMinted minted).1,world.drawn ++ world.arriving cards,world.took cards⟩

def Step (hashKey : Key → Hash) (before : World) (act : Act Key) (after : World) : Prop :=
  Allowed hashKey before act ∧ after = before.next hashKey act

-- A run is forgotten by a restart that finds it with no card and no key.
def Forgets (name : Sid) : World × Act Key → Prop
  | (world,.restart _ _) => ∃ handle, world.held.byName[name]? = some handle ∧ handle.card = none ∧ handle.key = .void
  | _ => False

structure Sound (world : World) : Prop where
  kept : Kept world.drawn world.held
  apart : Apart world.drawn
  current : ∀ name, world.current name = (world.held.byName[name]?).bind (·.key.hash)

theorem started : Sound {} where
  kept := by constructor <;> simp [RETIRED_KEPT]
  apart := by simp [Apart]
  current := by simp

variable {hashKey : Key → Hash} {world : World}

theorem sound_mint {bot : Text} {drawName : Nat → Draw} {drawKey : Nat → Key} (sound : Sound world)
    (allowed : Allowed hashKey world (.mint bot drawName drawKey)) :
    Sound (world.next hashKey (.mint bot drawName drawKey)) := by
  unfold World.next
  dsimp only
  cases out : world.held.mintWith hashKey bot drawName drawKey with
  | mk minted held =>
    rcases mintFrom_mints out with ⟨rfl,rfl⟩ | ⟨i,j,early,free,rfl,rfl⟩
    · exact sound
    · have fresh := allowed j (by omega)
      have kept := sound.kept.mint bot free (draw_readable (drawName i)) fresh sound.apart
      refine ⟨kept,?_,?_⟩
      · dsimp only
        rw [Apart,List.map_append,List.nodup_append]
        refine ⟨sound.apart,by simp,?_⟩
        intro one has last is same
        simp only [List.map_cons,List.map_nil,List.mem_singleton] at is
        exact fresh (is ▸ same ▸ has)
      · intro name
        dsimp only
        rw [insert_get]
        by_cases same : (drawName i).name = name
        · subst same
          simp [KeyState.hash]
        · rw [Function.update_of_ne (Ne.symm same),if_neg same,sound.current]

theorem rekeyed_get (held : Held) (name other : Sid) (was now : Handle) :
    (held.rekeyed name was now).byName[other]? = if name = other then some now else held.byName[other]? := by
  rw [Held.rekeyed,insert_get]

theorem setKey_get {held : Held} {name : Sid} {handle : Handle} (key : KeyState) (retire : Option (Timestamp × RetiredBy))
    (there : held.byName[name]? = some handle) (other : Sid) :
    (held.setKey name key retire).byName[other]? =
      if name = other then some (handle.rekeyed key retire) else held.byName[other]? := by
  cases was : handle.key with
  | void => rw [setKey_untold key retire (.inl was) there,rekeyed_get]
  | held old =>
    rcases retire with _ | ⟨at',by'⟩
    · rw [setKey_untold key none (.inr rfl) there,rekeyed_get]
    · rw [setKey_told key at' by' was there,(remember_frame ..).1,rekeyed_get]

theorem sound_setKey {name : Sid} {key : KeyState} {retire : Option (Timestamp × RetiredBy)} (sound : Sound world)
    (allowed : Allowed hashKey world (.setKey name key retire)) :
    Sound (world.next hashKey (.setKey name key retire)) := by
  have apart : Apart (world.drawn ++ key.hash.toList.map (·,name)) := by
    cases key with
    | void => simpa [KeyState.hash] using sound.apart
    | held hash =>
      have fresh := allowed hash rfl
      rw [Apart,List.map_append,List.nodup_append]
      refine ⟨sound.apart,by simp [KeyState.hash],?_⟩
      intro one has last is same
      simp only [KeyState.hash,Option.toList_some,List.map_cons,List.map_nil,List.mem_singleton] at is
      exact fresh (is ▸ same ▸ has)
  cases there : world.held.byName[name]? with
  | none =>
    have still : world.held.setKey name key retire = world.held := by simp [Held.setKey,there]
    have absent : world.held.byName.contains name = false := absent_get.mpr there
    refine ⟨?_,apart,?_⟩
    · simp only [World.next,still]
      exact sound.kept.mono (List.subset_append_left ..)
    · simp only [World.next,still,absent]
      exact sound.current
  | some handle =>
    have held : world.held.byName.contains name = true := contains_get.mpr ⟨handle,there⟩
    refine ⟨sound.kept.setKey key retire there allowed,apart,?_⟩
    intro other
    simp only [World.next,held,if_true,setKey_get key retire there]
    by_cases same : name = other
    · subst same
      simp [Handle.rekeyed]
    · rw [Function.update_of_ne (Ne.symm same),if_neg same,sound.current]

theorem sound_attachCard {name : Sid} {card : Text} (sound : Sound world) :
    Sound (world.next hashKey (.attachCard name card)) := by
  refine ⟨sound.kept.attachCard name card,sound.apart,?_⟩
  intro other
  simp only [World.next,sound.current,Held.attachCard]
  split
  · rfl
  · rename_i handle there
    rw [insert_get]
    split
    · rename_i same
      rw [←same,there]
      rfl
    · rfl

theorem sound_rebindBot {source target : Text} (sound : Sound world) :
    Sound (world.next hashKey (.rebindBot source target)) := by
  refine ⟨sound.kept.rebindBot {} source target,sound.apart,?_⟩
  intro other
  simp only [World.next,sound.current,Held.rebindBot,ExtTreeMap.getElem?_map]
  cases world.held.byName[other]? with
  | none => rfl
  | some handle =>
    simp only [Option.map_some,Option.bind_some,Handle.rebind]
    split <;> rfl

-- What a card of another writer brings is its own run's, once it is counted as drawn.
theorem brought_own {cards : List Session} (bring : world.Bring cards) {session : Session} (has : session ∈ cards)
    (free : world.held.byName[session.name]? = none) : OwnKeys (world.drawn ++ world.arriving cards) session := by
  have foreign : session ∈ world.foreign cards := List.mem_filter.mpr ⟨has,by simp [absent_get.mpr free]⟩
  have arrives : ∀ one ∈ session.drawn, one ∈ world.drawn ++ world.arriving cards :=
    fun one mine => List.mem_append_right _ (List.mem_flatMap.mpr ⟨session,foreign,mine⟩)
  refine ⟨?_,?_⟩
  · intro hash key
    exact arrives _ (by simp [Session.drawn,key,KeyState.hash])
  · intro last was
    refine ⟨arrives _ (by simp [Session.drawn,was]),?_⟩
    intro key
    have apart : Apart (world.arriving cards) := by
      have both := bring
      rw [World.Bring,Apart,List.map_append,List.nodup_append] at both
      exact both.2.1
    rw [World.arriving,Apart,List.map_flatMap] at apart
    have once := (List.nodup_flatMap.mp apart).1 session foreign
    simp [Session.drawn,key,KeyState.hash,was] at once

theorem adopted {session : Session} (sound : Sound world) (bring : world.Bring [session])
    (free : world.held.byName[session.name]? = none) :
    Kept (world.drawn ++ world.arriving [session]) (world.held.rebuildFrom [session]).1 ∧
      ∀ name : Sid, (world.held.rebuildFrom [session]).1.byName[name]? =
        ((([session].filter Session.readable).find? (·.name = name)).map Session.handle).or world.held.byName[name]? := by
  have grown := sound.kept.mono (List.subset_append_left world.drawn (world.arriving [session]))
  have own : ∀ other ∈ [session], other.readable = true →
      OwnKeys (world.drawn ++ world.arriving [session]) other := by
    intro other has _
    cases List.mem_singleton.mp has
    exact brought_own bring has free
  have names : (([session].filter Session.readable).map Session.name).Nodup :=
    ((List.filter_sublist (p := Session.readable) (l := [session])).map Session.name).nodup (List.nodup_singleton _)
  exact grown.rebuildFrom [session] bring names own (by simpa using fun _ => free)

theorem sound_adopt {session : Session} (sound : Sound world) (bring : world.Bring [session]) :
    Sound (world.next hashKey (.adopt session)) := by
  cases here : world.held.byName.contains session.name with
  | true =>
    have none : world.foreign [session] = [] := by simp [World.foreign,here]
    refine ⟨?_,?_,?_⟩
    · simp only [World.next,Held.adopt,here,if_true]
      exact sound.kept.mono (List.subset_append_left ..)
    · exact bring
    · simp only [World.next,Held.adopt,here,if_true,World.took,none]
      exact sound.current
  | false =>
    have free := absent_get.mp here
    have one : world.foreign [session] = [session] := by simp [World.foreign,here]
    obtain ⟨kept,get⟩ := adopted sound bring free
    refine ⟨?_,bring,?_⟩
    · simpa only [World.next,Held.adopt,here,Bool.false_eq_true,if_false] using kept
    · intro name
      simp only [World.next,Held.adopt,here,Bool.false_eq_true,if_false,get,World.took,one]
      cases ([session].filter Session.readable).find? (·.name = name) with
      | none => simp [sound.current]
      | some found => rfl

theorem own_card {session : Session} (sound : Sound world) (own : OwnCard world.held session) :
    OwnKeys world.drawn session := by
  obtain ⟨handle,there,_,key,last,_⟩ := own
  have opens : ∀ hash, session.key = .held hash → world.held.byHash[hash]? = some session.name :=
    fun hash same => (sound.kept.opens hash session.name).mpr ⟨handle,there,key.symm.trans same⟩
  refine ⟨fun hash same => sound.kept.owned hash session.name (opens hash same),?_⟩
  intro retired was
  obtain ⟨mine,shut⟩ := sound.kept.trailed session.name handle retired there (last.symm.trans was)
  refine ⟨mine,?_⟩
  intro same
  rw [opens _ same] at shut
  exact nomatch shut

theorem kept_nothing (drawn : Drawn) : Kept drawn {} := by
  constructor <;> simp [RETIRED_KEPT]

section Restart
variable {cards : List Session} {minted : List MintedRun}

-- No card is of a run that the registry holds without one.
theorem uncarded (found : Found world cards minted) {name : Sid} {handle : Handle}
    (there : world.held.byName[name]? = some handle) (bare : handle.card = none) :
    ∀ session ∈ cards, session.name ≠ name := by
  intro session has same
  subst same
  rcases found.owned session has with ⟨other,held,carded,_⟩ | free
  · cases Option.some.inj (there.symm.trans held)
    simp [bare] at carded
  · rw [there] at free
    exact nomatch free

theorem find_none_of {cards : List Session} {name : Sid} (other : ∀ session ∈ cards, session.name ≠ name) :
    (cards.filter Session.readable).find? (·.name = name) = none := by
  apply List.find?_eq_none.mpr
  intro session has
  simpa using other session (List.mem_filter.mp has).1

theorem unminted (found : Found world cards minted) (name : Sid)
    (other : ∀ handle : Handle, world.held.byName[name]? = some handle → handle.card.isSome ∨ handle.key = .void) :
    minted.find? (·.name = name) = none := by
  apply List.find?_eq_none.mpr
  intro run has is
  have is : run.name = name := by simpa using is
  obtain ⟨handle,there,bare,key⟩ := found.keyed run has
  rcases other handle (is ▸ there) with carded | void
  · simp [bare] at carded
  · rw [key] at void
    exact nomatch void

-- What a run with a card is given back is its card's.
theorem given_carded (sound : Sound world) (found : Found world cards minted) {name : Sid} {handle : Handle}
    (there : world.held.byName[name]? = some handle) {id : Text} (card : handle.card = some id) :
    handle.key.hash = (((minted.find? (·.name = name)).map MintedRun.handle).or
      ((((cards.filter Session.readable).find? (·.name = name)).map Session.handle))).bind (·.key.hash) := by
  have unique : ∀ other : Handle, world.held.byName[name]? = some other → other = handle :=
    fun other has => Option.some.inj (has.symm.trans there)
  have none := unminted found name (fun other has => .inl (by rw [unique other has,card]; rfl))
  rw [none]
  cases here : (cards.filter Session.readable).find? (·.name = name) with
  | none =>
    obtain ⟨session,has,same⟩ := List.mem_map.mp (found.all name handle there (by simp [card]))
    have readable : session.readable = true := by
      rw [Session.readable,same]
      exact (sound.kept.named name handle there).2
    have missing := List.find?_eq_none.mp here session (List.mem_filter.mpr ⟨has,readable⟩)
    simp [same] at missing
  | some session =>
    have same : session.name = name := by simpa using List.find?_some here
    have has := (List.mem_filter.mp (List.mem_of_find?_eq_some here)).1
    rcases found.owned session has with ⟨other,held,_,key,_⟩ | free
    · rw [unique other (same ▸ held)] at key
      exact congrArg KeyState.hash key.symm
    · rw [same,there] at free
      exact nomatch free

-- What a run with no card is given back is its minting's, unless its key is void.
theorem given_bare (found : Found world cards minted) {name : Sid} {handle : Handle}
    (there : world.held.byName[name]? = some handle) (card : handle.card = none) :
    handle.key.hash = (((minted.find? (·.name = name)).map MintedRun.handle).or
      ((((cards.filter Session.readable).find? (·.name = name)).map Session.handle))).bind (·.key.hash) := by
  have unique : ∀ other : Handle, world.held.byName[name]? = some other → other = handle :=
    fun other has => Option.some.inj (has.symm.trans there)
  have bare := find_none_of (uncarded found there card)
  rw [bare]
  cases key : handle.key with
  | void =>
    have none := unminted found name (fun other has => .inr (by rw [unique other has,key]))
    rw [none]
    rfl
  | held hash =>
    cases here : minted.find? (·.name = name) with
    | none =>
      obtain ⟨run,has,same⟩ := List.mem_map.mp (found.allMinted name handle hash there card key)
      have missing := List.find?_eq_none.mp here run has
      simp [same] at missing
    | some run =>
      have same : run.name = name := by simpa using List.find?_some here
      obtain ⟨other,held,_,theirs⟩ := found.keyed run (List.mem_of_find?_eq_some here)
      rw [unique other (same ▸ held),key] at theirs
      exact congrArg KeyState.hash theirs

-- What each run is given back is what it held, and a card of another writer's is as it says.
theorem took_given (sound : Sound world) (found : Found world cards minted) (name : Sid) :
    world.took cards name = (((minted.find? (·.name = name)).map MintedRun.handle).or
      ((((cards.filter Session.readable).find? (·.name = name)).map Session.handle))).bind (·.key.hash) := by
  unfold World.took
  cases there : world.held.byName[name]? with
  | none =>
    have none : minted.find? (·.name = name) = none := by
      refine unminted found name ?_
      intro handle has
      rw [there] at has
      exact nomatch has
    have same : ((world.foreign cards).filter Session.readable).find? (·.name = name) =
        (cards.filter Session.readable).find? (·.name = name) := by
      rw [World.foreign,List.filter_filter,List.find?_filter,List.find?_filter]
      congr 1
      funext session
      by_cases is : session.name = name
      · simp [is,absent_get.mpr there]
      · simp [is]
    rw [same,none]
    cases (cards.filter Session.readable).find? (·.name = name) with
    | none => simp [sound.current,there]
    | some session => rfl
  | some handle =>
    have mine : ((world.foreign cards).filter Session.readable).find? (·.name = name) = none := by
      refine find_none_of ?_
      intro session has same
      have free := (List.mem_filter.mp has).2
      rw [same,contains_get.mpr ⟨handle,there⟩] at free
      exact nomatch free
    rw [mine,show world.current name = handle.key.hash by rw [sound.current,there]; rfl]
    cases card : handle.card with
    | some id => exact given_carded sound found there card
    | none => exact given_bare found there card

theorem restarted (sound : Sound world) (found : Found world cards minted) :
    Kept (world.drawn ++ world.arriving cards) ((({} : Held).rebuildFrom cards).1.rebuildMinted minted).1 ∧
      ∀ name : Sid, ((({} : Held).rebuildFrom cards).1.rebuildMinted minted).1.byName[name]? =
        ((minted.find? (·.name = name)).map MintedRun.handle).or
          (((cards.filter Session.readable).find? (·.name = name)).map Session.handle) := by
  have own : ∀ session ∈ cards, session.readable = true → OwnKeys (world.drawn ++ world.arriving cards) session := by
    intro session has _
    rcases found.owned session has with own | free
    · have mine := own_card sound own
      refine ⟨fun hash key => List.mem_append_left _ (mine.current hash key),?_⟩
      intro last was
      exact ⟨List.mem_append_left _ (mine.last last was).1,(mine.last last was).2⟩
    · exact brought_own found.bring has free
  have names : ((cards.filter Session.readable).map Session.name).Nodup :=
    (List.filter_sublist.map Session.name).nodup found.names
  obtain ⟨boarded,get⟩ := (kept_nothing (world.drawn ++ world.arriving cards)).rebuildFrom cards found.bring names own
    (by simp)
  have carried : ∀ run ∈ minted, isReadableSid run.name = true ∧
      (run.keyHash,run.name) ∈ world.drawn ++ world.arriving cards := by
    intro run has
    obtain ⟨handle,there,_,key⟩ := found.keyed run has
    have opened := (sound.kept.opens run.keyHash run.name).mpr ⟨handle,there,key⟩
    exact ⟨(sound.kept.named run.name handle there).2,List.mem_append_left _ (sound.kept.owned _ _ opened)⟩
  have absent : ∀ run ∈ minted, (({} : Held).rebuildFrom cards).1.byName[run.name]? = none := by
    intro run has
    obtain ⟨handle,there,bare,_⟩ := found.keyed run has
    rw [get,find_none_of (uncarded found there bare)]
    simp
  obtain ⟨kept,all⟩ := boarded.putBacks minted 0 found.bring found.runs carried absent
  refine ⟨kept,?_⟩
  intro name
  refine (all name).trans ?_
  rw [get]
  simp

theorem sound_restart (sound : Sound world) (found : Found world cards minted) :
    Sound (world.next hashKey (.restart cards minted)) := by
  obtain ⟨kept,get⟩ := restarted sound found
  refine ⟨kept,found.bring,?_⟩
  intro name
  exact (took_given sound found name).trans (congrArg (·.bind (·.key.hash)) (get name).symm)

-- A run stays known across a restart that does not find it with no card and no key.
theorem restart_holds (sound : Sound world) (found : Found world cards minted) {name : Sid} {handle : Handle}
    (there : world.held.byName[name]? = some handle) (stays : handle.card.isSome ∨ handle.key ≠ .void) :
    (world.next hashKey (.restart cards minted)).held.byName.contains name = true := by
  rw [contains_get]
  simp only [World.next,(restarted sound found).2]
  have minted' : name ∈ minted.map MintedRun.name → ∃ value, ((minted.find? (·.name = name)).map MintedRun.handle).or
      (((cards.filter Session.readable).find? (·.name = name)).map Session.handle) = some value := by
    intro has
    obtain ⟨run,has,same⟩ := List.mem_map.mp has
    cases here : minted.find? (·.name = name) with
    | none =>
      have missing := List.find?_eq_none.mp here run has
      simp [same] at missing
    | some run => exact ⟨_,rfl⟩
  cases card : handle.card with
  | none =>
    cases key : handle.key with
    | void => simp [card,key] at stays
    | held hash => exact minted' (found.allMinted name handle hash there card key)
  | some id =>
    obtain ⟨session,has,same⟩ := List.mem_map.mp (found.all name handle there (by simp [card]))
    have readable : session.readable = true := by
      rw [Session.readable,same]
      exact (sound.kept.named name handle there).2
    cases minted.find? (·.name = name) with
    | some run => exact ⟨_,rfl⟩
    | none =>
      cases here : (cards.filter Session.readable).find? (·.name = name) with
      | none =>
        have missing := List.find?_eq_none.mp here session (List.mem_filter.mpr ⟨has,readable⟩)
        simp [same] at missing
      | some session => exact ⟨_,rfl⟩

end Restart

theorem sound_next {act : Act Key} (sound : Sound world) (allowed : Allowed hashKey world act) :
    Sound (world.next hashKey act) := by
  cases act with
  | mint bot drawName drawKey => exact sound_mint sound allowed
  | setKey name key retire => exact sound_setKey sound allowed
  | attachCard name card => exact sound_attachCard sound
  | adopt session => exact sound_adopt sound allowed
  | rebindBot source target => exact sound_rebindBot sound
  | restart cards minted => exact sound_restart sound allowed

theorem sound_run {taken : List (World × Act Key)} {now : World} (run : Run (Step hashKey) {} taken now) : Sound now := by
  refine (run.keeps started ?_).1
  intro before act after sound ⟨allowed,same⟩
  subst same
  exact sound_next sound allowed

theorem mints_put {act : Act Key} {minted : Minted Key} (answers : world.mints hashKey act = some minted) :
    world.held.byName[minted.name]? = none ∧ (world.next hashKey act).held.byName.contains minted.name = true := by
  cases act with
  | mint bot drawName drawKey =>
    cases out : world.held.mintWith hashKey bot drawName drawKey with
    | mk one held =>
      have is : one = some minted := by rw [←answers,World.mints,out]
      subst is
      rcases mintFrom_mints out with ⟨none,_⟩ | ⟨i,j,_,free,is,after⟩
      · exact nomatch none
      · cases Option.some.inj is
        refine ⟨free,?_⟩
        rw [contains_get]
        simp only [World.next,out,after,insert_get,if_true]
        exact ⟨_,rfl⟩
  | _ => exact nomatch answers

theorem next_holds {act : Act Key} {name : Sid} (sound : Sound world) (allowed : Allowed hashKey world act)
    (holds : world.held.byName.contains name = true) (kept : ¬ Forgets name (world,act)) :
    (world.next hashKey act).held.byName.contains name = true := by
  obtain ⟨handle,there⟩ := contains_get.mp holds
  cases act with
  | mint bot drawName drawKey =>
    rw [contains_get]
    cases out : world.held.mintWith hashKey bot drawName drawKey with
    | mk one held =>
      rcases mintFrom_mints out with ⟨rfl,rfl⟩ | ⟨i,j,_,_,rfl,rfl⟩
      · simp only [World.next,out]
        exact ⟨handle,there⟩
      · simp only [World.next,out,insert_get]
        split
        · exact ⟨_,rfl⟩
        · exact ⟨handle,there⟩
  | setKey other key retire =>
    rw [contains_get]
    simp only [World.next]
    cases has : world.held.byName[other]? with
    | none =>
      have still : world.held.setKey other key retire = world.held := by simp [Held.setKey,has]
      rw [still]
      exact ⟨handle,there⟩
    | some was =>
      rw [setKey_get key retire has]
      split
      · exact ⟨_,rfl⟩
      · exact ⟨handle,there⟩
  | attachCard other card =>
    rw [contains_get]
    simp only [World.next,Held.attachCard]
    split
    · exact ⟨handle,there⟩
    · rw [insert_get]
      split
      · exact ⟨_,rfl⟩
      · exact ⟨handle,there⟩
  | adopt session =>
    rw [contains_get]
    cases here : world.held.byName.contains session.name with
    | true =>
      simp only [World.next,Held.adopt,here,if_true]
      exact ⟨handle,there⟩
    | false =>
      simp only [World.next,Held.adopt,here,Bool.false_eq_true,if_false,
        (adopted sound allowed (absent_get.mp here)).2,there]
      cases ([session].filter Session.readable).find? (·.name = name) with
      | none => exact ⟨_,rfl⟩
      | some found => exact ⟨_,rfl⟩
  | rebindBot source target =>
    rw [contains_get]
    simp only [World.next,Held.rebindBot,ExtTreeMap.getElem?_map,there,Option.map_some]
    exact ⟨_,rfl⟩
  | restart cards minted =>
    refine restart_holds sound allowed there ?_
    by_contra gone
    simp only [not_or,not_not,Option.not_isSome_iff_eq_none] at gone
    exact kept ⟨handle,there,gone.1,gone.2⟩

-- After a mint answered a name the registry holds it, or a restart since has forgotten it.
theorem minted_held {taken : List (World × Act Key)} {now : World} (run : Run (Step hashKey) {} taken now) :
    ∀ front one rest minted, taken = front ++ one :: rest → one.1.mints hashKey one.2 = some minted →
      now.held.byName.contains minted.name = true ∨ ∃ later ∈ rest, Forgets minted.name later := by
  induction run with
  | start =>
    intro front one rest minted shape
    simp at shape
  | @step taken before after act prior took ih =>
    intro front one rest minted shape answers
    obtain ⟨allowed,rfl⟩ := took
    rcases List.eq_nil_or_concat rest with rfl | ⟨rest,last,rfl⟩
    · have same := List.append_inj_right' shape rfl
      cases same
      exact .inl (mints_put answers).2
    · rw [List.concat_eq_append,←List.cons_append,←List.append_assoc] at shape
      have same := List.append_inj_right' shape rfl
      have earlier := List.append_inj_left' shape rfl
      cases same
      rcases ih front one rest minted earlier answers with holds | ⟨later,has,forgets⟩
      · by_cases forgets : Forgets minted.name (before,act)
        · exact .inr ⟨_,by simp,forgets⟩
        · exact .inl (next_holds (sound_run prior) allowed holds forgets)
      · exact .inr ⟨later,by simp [has],forgets⟩

-- What holds of the registry in every state a run reaches.
structure Opened (hashKey : Key → Hash) (world : World) : Prop where
  indexed : ∀ hash name, world.held.byHash[hash]? = some name ↔
    ∃ handle : Handle, world.held.byName[name]? = some handle ∧ handle.key = .held hash
  drawnOnce : Apart world.drawn
  opens : ∀ key handle, world.held.lookupKey hashKey key = some handle →
    (hashKey key,handle.name) ∈ world.drawn ∧ world.current handle.name = some (hashKey key)
  remembered : ∀ hash, hash ∈ world.held.retiredOrder ↔ world.held.retired.contains hash = true
  once : world.held.retiredOrder.Nodup
  bounded : world.held.retiredOrder.length ≤ RETIRED_KEPT
  told : ∀ key retired, world.held.retiredOf hashKey key = some retired →
    world.held.lookupKey hashKey key = none ∧ (hashKey key,retired.name) ∈ world.drawn

theorem sound_opened (hashKey : Key → Hash) (sound : Sound world) : Opened hashKey world where
  indexed := sound.kept.opens
  drawnOnce := sound.apart
  opens := by
    intro key handle opened
    obtain ⟨name,indexed,there⟩ := Option.bind_eq_some_iff.mp opened
    obtain ⟨other,has,key'⟩ := (sound.kept.opens _ name).mp indexed
    cases Option.some.inj (there.symm.trans has)
    rw [(sound.kept.named name handle there).1]
    refine ⟨sound.kept.owned _ name indexed,?_⟩
    rw [sound.current,there,Option.bind_some,key']
    rfl
  remembered := sound.kept.order
  once := sound.kept.once
  bounded := sound.kept.bounded
  told := by
    intro key retired known
    obtain ⟨mine,_,shut⟩ := sound.kept.known _ retired known
    exact ⟨by rw [Held.lookupKey,shut]; rfl,mine⟩

-- A key opens only its own run while it is that run's key, and no mint answers a name again,
-- unless a restart since found its run with no card and no key.
theorem a_key_opens_only_its_run (hashKey : Key → Hash) {taken : List (World × Act Key)} {now : World}
    (run : Run (Step hashKey) {} taken now) :
    Opened hashKey now ∧ ∀ act minted, now.mints hashKey act = some minted →
      ∀ front one rest earlier, taken = front ++ one :: rest → one.1.mints hashKey one.2 = some earlier →
        earlier.name = minted.name → ∃ later ∈ rest, Forgets minted.name later := by
  refine ⟨sound_opened hashKey (sound_run run),?_⟩
  intro act minted answers front one rest earlier shape answered same
  rcases minted_held run front one rest earlier shape answered with holds | forgets
  · obtain ⟨handle,there⟩ := contains_get.mp holds
    rw [same,(mints_put answers).1] at there
    exact nomatch there
  · exact same ▸ forgets

def zeros : Draw := ⟨List.replicate 6 0,rfl⟩
def minting (key : Text) : Act Text := .mint "bot:gamma".toList (fun _ => zeros) fun _ => key
def rotating (key : Text) : Act Text := .setKey zeros.name (.held key) (some (5,.resumed))
def voiding : Act Text := .setKey zeros.name .void none

theorem mint_allowed {world : World} (key : Text) (new : key ∉ world.drawn.map Prod.fst) :
    Allowed id world (minting key) := fun _ _ => new

def begun : World := ({} : World).next id (minting ['a'])

def ones : Draw := ⟨List.replicate 6 1,rfl⟩
def mintingNext : Act Text := .mint "bot:delta".toList (fun _ => ones) fun _ => ['b']

-- A run with a card, a second begun without one, and the key of the first rotated.
def carded : World := begun.next id (.attachCard zeros.name ['1'])
def joined : World := carded.next id mintingNext
def rotated : World := joined.next id (rotating ['c'])

def rotatedCard : Session where
  id := ['1']
  sid := some zeros.name
  keyHash := some ['c']
  bot := "bot:gamma".toList
  keyTrail := { retired := some ⟨['a'],5,.resumed⟩, takenAt := some 5 }

def bareRun : MintedRun := { name := ones.name, keyHash := ['b'], bot := "bot:delta".toList }

def restarting : Act Text := .restart [rotatedCard] [bareRun]
def broughtBack : World := rotated.next id restarting

theorem rotated_runs {name : Sid} {handle : Handle} (there : rotated.held.byName[name]? = some handle) :
    name = zeros.name ∧ handle = rotatedCard.handle ∨ name = ones.name ∧ handle = bareRun.handle := by
  have listed : rotated.held.byName.toList = [(zeros.name,rotatedCard.handle),(ones.name,bareRun.handle)] := by rfl
  simpa [listed] using ExtTreeMap.mem_toList_iff_getElem?_eq_some.mpr there

theorem rotated_found : Found rotated [rotatedCard] [bareRun] := by
  refine ⟨by simp,?_,?_,by simp only [World.Bring,Apart]; decide +kernel,by simp,?_,?_⟩
  · intro session has
    cases List.mem_singleton.mp has
    exact .inl ⟨rotatedCard.handle,by rfl,rfl,rfl,rfl,rfl⟩
  · intro name handle there isCarded
    rcases rotated_runs there with ⟨rfl,_⟩ | ⟨rfl,rfl⟩
    · exact List.mem_singleton_self _
    · cases isCarded
  · intro run has
    cases List.mem_singleton.mp has
    exact ⟨bareRun.handle,by rfl,rfl,rfl⟩
  · intro name handle hash there bare _
    rcases rotated_runs there with ⟨rfl,rfl⟩ | ⟨rfl,rfl⟩
    · cases bare
    · exact List.mem_singleton_self _

theorem rotated_run : Run (Step id) {}
    [({},minting ['a']),(begun,.attachCard zeros.name ['1']),(carded,mintingNext),(joined,rotating ['c']),(rotated,restarting)]
    broughtBack := by
  have first : Step id {} (minting ['a']) begun := ⟨mint_allowed ['a'] (by simp),rfl⟩
  have named : Step (id : Text → Hash) begun (.attachCard zeros.name ['1']) carded := ⟨trivial,rfl⟩
  have second : Step id carded mintingNext joined := ⟨fun _ _ => (by decide +kernel : ['b'] ∉ carded.drawn.map Prod.fst),rfl⟩
  have turned : Step id joined (rotating ['c']) rotated := by
    refine ⟨?_,rfl⟩
    intro hash same
    cases same
    decide +kernel
  exact .step (.step (.step (.step (.step .start first) named) second) turned) ⟨rotated_found,rfl⟩

-- After a restart each run opens by the key it held, and a mint draws neither's name.
theorem a_restarted_run_opens_by_its_new_key :
    Opened id broughtBack ∧
      ((broughtBack.held.lookupKey id ['c']).map (·.name) = some zeros.name ∧
        (broughtBack.held.lookupKey id ['b']).map (·.name) = some ones.name ∧
        (broughtBack.held.retiredOf id ['a']).map (·.name) = some zeros.name) ∧
      ∀ act minted, broughtBack.mints (id : Text → Hash) act = some minted → minted.name ≠ zeros.name ∧ minted.name ≠ ones.name := by
  obtain ⟨opened,once⟩ := a_key_opens_only_its_run id rotated_run
  have known : ¬Forgets zeros.name (rotated,restarting) ∧ ¬Forgets ones.name (rotated,restarting) := by
    constructor
    · intro ⟨handle,there,bare,_⟩
      rcases rotated_runs there with ⟨_,rfl⟩ | ⟨same,_⟩
      · cases bare
      · exact absurd same (by decide)
    · intro ⟨handle,there,_,void⟩
      rcases rotated_runs there with ⟨same,_⟩ | ⟨_,rfl⟩
      · exact absurd same (by decide)
      · cases void
  refine ⟨opened,⟨by decide +kernel,by decide +kernel,by decide +kernel⟩,?_⟩
  intro act minted answers
  constructor
  · intro same
    obtain ⟨later,has,forgets⟩ := once act minted answers [] _ _ ⟨zeros.name,['a']⟩ rfl (by rfl) same.symm
    rw [same] at forgets
    simp only [List.mem_cons,List.not_mem_nil,or_false] at has
    rcases has with rfl | rfl | rfl | rfl
    · exact forgets
    · exact forgets
    · exact forgets
    · exact known.1 forgets
  · intro same
    obtain ⟨later,has,forgets⟩ := once act minted answers [_,_] _ _ ⟨ones.name,['b']⟩ rfl (by rfl) same.symm
    rw [same] at forgets
    simp only [List.mem_cons,List.not_mem_nil,or_false] at has
    rcases has with rfl | rfl
    · exact forgets
    · exact known.2 forgets

def voided : World := begun.next id voiding
def forgotten : World := voided.next (id : Text → Hash) (.restart [] [])

theorem voided_run (name : Sid) (handle : Handle) (there : voided.held.byName[name]? = some handle) :
    handle.card = none ∧ handle.key = .void := by
  have put : begun.held.byName = ({} : ExtTreeMap Sid Handle).insert zeros.name
      { bot := "bot:gamma".toList,name := zeros.name,key := .held ['a'] } := by rfl
  have own : begun.held.byName[zeros.name]? = some { bot := "bot:gamma".toList,name := zeros.name,key := .held ['a'] } := by
    rw [put,insert_get,if_pos rfl]
  have got : voided.held.byName[name]? = _ := setKey_get .void none own name
  rw [got,put,insert_get] at there
  split at there
  · cases Option.some.inj there
    exact ⟨rfl,rfl⟩
  · simp at there

theorem a_run_with_no_card_and_no_key_is_forgotten :
    ¬ ∀ taken now, Run (Step (id : Text → Hash)) {} taken now → ∀ act minted, Allowed id now act →
      now.mints id act = some minted → ∀ one ∈ taken, ∀ earlier, one.1.mints id one.2 = some earlier →
        earlier.name ≠ minted.name := by
  intro once
  have first : Step id {} (minting ['a']) begun := ⟨mint_allowed ['a'] (by simp),rfl⟩
  have second : Step (id : Text → Hash) begun voiding voided := by
    refine ⟨?_,rfl⟩
    intro hash same
    cases same
  have third : Step (id : Text → Hash) voided (.restart [] []) forgotten := by
    refine ⟨?_,rfl⟩
    refine ⟨by simp,by simp,?_,?_,by simp,by simp,?_⟩
    · intro name handle there carded
      simp [(voided_run name handle there).1] at carded
    · simp only [World.Bring,Apart]
      decide +kernel
    · intro name handle hash there _ held
      rw [(voided_run name handle there).2] at held
      cases held
  have run := Run.step (.step (.step .start first) second) third
  refine once _ _ run (minting ['b']) ⟨zeros.name,['b']⟩ (mint_allowed ['b'] (by decide +kernel)) (by rfl)
    ({},minting ['a']) (by simp) ⟨zeros.name,['a']⟩ (by rfl) rfl

end Registry
