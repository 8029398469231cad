import Jojobot.Session.Registry.Opened

namespace Registry
open Library Std

variable {Key : Type} {hashKey : Key → Hash} {drawn : Drawn} {held after : Held} {name : Sid}

theorem mintFrom_mints {bot : Text} {drawName : Nat → Draw} {drawKey : Nat → Key} {attempts names keys : Nat}
    {out : Option (Minted Key)}
    (minted : held.mintFrom hashKey bot drawName drawKey attempts names keys = (out,after)) :
    out = none ∧ after = held ∨ ∃ i j, j < keys+attempts ∧ held.byName[(drawName i).name]? = none ∧
      out = some ⟨(drawName i).name,drawKey j⟩ ∧
      after = { held with
        byName := held.byName.insert (drawName i).name
          { bot,name := (drawName i).name,key := .held (hashKey (drawKey j)) }
        byHash := held.byHash.insert (hashKey (drawKey j)) (drawName i).name } := by
  induction attempts generalizing names keys with
  | zero =>
    cases minted
    exact .inl ⟨rfl,rfl⟩
  | succ attempts ih =>
    unfold Held.mintFrom at minted
    dsimp only at minted
    split at minted
    · rcases ih minted with none | ⟨i,j,early,rest⟩
      · exact .inl none
      · exact .inr ⟨i,j,by omega,rest⟩
    · rename_i free
      split at minted
      · rcases ih minted with none | ⟨i,j,early,rest⟩
        · exact .inl none
        · exact .inr ⟨i,j,by omega,rest⟩
      · cases minted
        exact .inr ⟨names,keys,by omega,absent_get.mp (Bool.eq_false_of_not_eq_true free),rfl,rfl⟩

theorem draw_readable (draw : Draw) : isReadableSid draw.name = true := by
  have letter : ∀ i, ALPHABET.contains (ALPHABET.getD (i % ALPHABET.length) '0') = true := by
    intro i
    have short : i % ALPHABET.length < ALPHABET.length := Nat.mod_lt _ (by decide)
    rw [List.getD_eq_getElem _ _ short]
    exact List.contains_iff_mem.mpr (List.getElem_mem short)
  have drawn : isDrawn draw.name RUN_LEN = true := by
    simp only [isDrawn,Draw.name,List.length_map,draw.length,decide_true,Bool.true_and,List.all_map,List.all_eq_true]
    intro b _
    exact letter b.toNat
  simp [isReadableSid,drawn]

theorem Kept.mint (kept : Kept drawn held) (bot : Text) {hash : Hash} (free : held.byName[name]? = none)
    (readable : isReadableSid name = true) (fresh : hash ∉ drawn.map Prod.fst) (apart : Apart drawn) :
    Kept (drawn ++ [(hash,name)]) { held with
      byName := held.byName.insert name { bot,name,key := .held hash }
      byHash := held.byHash.insert hash name } := by
  have wider : Apart (drawn ++ [(hash,name)]) := by
    rw [Apart,List.map_append,List.nodup_append]
    refine ⟨apart,by simp,?_⟩
    intro one has last is same
    simp only [List.map_cons,List.map_nil,List.mem_singleton] at is
    exact fresh (is ▸ same ▸ has)
  have grown := kept.mono (List.subset_append_left drawn [(hash,name)])
  have put := grown.put { bot,name,key := .held hash } wider free rfl readable ?_ ?_
  · exact put
  · intro other same
    cases same
    simp
  · intro last none
    exact nomatch none

-- The keys a card holds are its own run's.
structure OwnKeys (drawn : Drawn) (session : Session) : Prop where
  current : ∀ hash, session.key = .held hash → (hash,session.name) ∈ drawn
  last : ∀ last, session.keyTrail.retired = some last →
    (last.hash,session.name) ∈ drawn ∧ session.key ≠ .held last.hash

theorem Kept.boards (sessions : List Session) (kept : Kept drawn held) (apart : Apart drawn)
    (names : (sessions.map Session.name).Nodup)
    (own : ∀ session ∈ sessions, session.readable = true ∧ OwnKeys drawn session)
    (absent : ∀ session ∈ sessions, held.byName[session.name]? = none) :
    Kept drawn (sessions.foldl Held.board held) ∧
      (sessions.foldl Held.board held).retired = held.retired ∧
      ∀ name : Sid, (sessions.foldl Held.board held).byName[name]? =
        ((sessions.find? (·.name = name)).map Session.handle).or held.byName[name]? := by
  induction sessions generalizing held with
  | nil => exact ⟨kept,rfl,by simp⟩
  | cons session rest ih =>
    obtain ⟨other,names⟩ := List.nodup_cons.mp names
    obtain ⟨readable,mine⟩ := own session List.mem_cons_self
    have put : Kept drawn (held.board session) :=
      kept.put session.handle apart (absent session List.mem_cons_self) rfl readable mine.current mine.last
    have later : ∀ one ∈ rest, (held.board session).byName[one.name]? = none := by
      intro one has
      have differs : session.name ≠ one.name := fun same => other (same ▸ List.mem_map_of_mem has)
      rw [Held.board,insert_get,if_neg differs]
      exact absent one (List.mem_cons_of_mem _ has)
    obtain ⟨done,retired,get⟩ := ih put names (fun one has => own one (List.mem_cons_of_mem _ has)) later
    refine ⟨done,retired,?_⟩
    intro name
    rw [List.foldl_cons,get,List.find?_cons,Held.board,insert_get]
    by_cases same : session.name = name
    · have missing : rest.find? (·.name = name) = none := by
        apply List.find?_eq_none.mpr
        intro one has is
        have is : one.name = name := by simpa using is
        exact other (same ▸ is ▸ List.mem_map_of_mem has)
      simp [same,missing]
    · simp [same]

theorem Kept.remembers (keys : List (Hash × Retired)) (kept : Kept drawn held)
    (once : (keys.map Prod.fst).Nodup)
    (own : ∀ one ∈ keys, (one.1,one.2.name) ∈ drawn ∧ held.byName.contains one.2.name = true ∧
      held.byHash[one.1]? = none)
    (new : ∀ one ∈ keys, held.retired[one.1]? = none) :
    Kept drawn (keys.foldl (fun held retired => held.rememberRetired retired.1 retired.2) held) ∧
      (keys.foldl (fun held retired => held.rememberRetired retired.1 retired.2) held).byName = held.byName := by
  induction keys generalizing held with
  | nil => exact ⟨kept,rfl⟩
  | cons key rest ih =>
    obtain ⟨other,once⟩ := List.nodup_cons.mp once
    obtain ⟨mine,there,shut⟩ := own key List.mem_cons_self
    have put := kept.remember mine there shut (new key List.mem_cons_self)
    obtain ⟨names,hashes⟩ := remember_frame held key.1 key.2
    have later := ih put once ?_ ?_
    · rw [List.foldl_cons]
      exact ⟨later.1,later.2.trans names⟩
    · intro one has
      rw [names,hashes]
      exact own one (List.mem_cons_of_mem _ has)
    · intro one has
      obtain ⟨dropped,_,_,get⟩ := remember_get held key.1 key.2
      have differs : key.1 ≠ one.1 := fun same => other (same ▸ List.mem_map_of_mem has)
      rw [get,if_neg differs]
      split
      · rfl
      · exact new one (List.mem_cons_of_mem _ has)

theorem Kept.rebuildFrom (sessions : List Session) (kept : Kept drawn held) (apart : Apart drawn)
    (names : ((sessions.filter Session.readable).map Session.name).Nodup)
    (own : ∀ session ∈ sessions, session.readable = true → OwnKeys drawn session)
    (absent : ∀ session ∈ sessions, session.readable = true → held.byName[session.name]? = none) :
    Kept drawn (held.rebuildFrom sessions).1 ∧
      ∀ name : Sid, (held.rebuildFrom sessions).1.byName[name]? =
        (((sessions.filter Session.readable).find? (·.name = name)).map Session.handle).or held.byName[name]? := by
  have member : ∀ session ∈ sessions.filter Session.readable, session ∈ sessions ∧ session.readable = true :=
    fun session has => List.mem_filter.mp has
  obtain ⟨boarded,retired,get⟩ := kept.boards (sessions.filter Session.readable) apart names
    (fun session has => ⟨(member session has).2,own session (member session has).1 (member session has).2⟩)
    (fun session has => absent session (member session has).1 (member session has).2)
  unfold Held.rebuildFrom
  dsimp only
  generalize (sessions.filter Session.readable).foldl Held.board held = board at *
  generalize sessions.filter Session.readable = cards at *
  have here : ∀ session ∈ cards, board.byName[session.name]? = some session.handle := by
    intro session has
    cases found : cards.find? (·.name = session.name) with
    | none =>
      have none := List.find?_eq_none.mp found session has
      simp at none
    | some one =>
      have same : one.name = session.name := by simpa using List.find?_some found
      have is : one = session := List.inj_on_of_nodup_map names (List.mem_of_find?_eq_some found) has same
      rw [get,found,is]
      rfl
  have keyed : ∀ one ∈ sortBy (compareOn (·.2.at')) (cards.filterMap Session.retiredKey),
      ∃ session ∈ cards, ∃ last, session.keyTrail.retired = some last ∧ one.1 = last.hash ∧ one.2.name = session.name := by
    intro one has
    obtain ⟨session,there,found⟩ := List.mem_filterMap.mp (mem_sortBy.mp has)
    obtain ⟨last,was,rfl⟩ := Option.map_eq_some_iff.mp found
    exact ⟨session,there,last,was,rfl,rfl⟩
  have mine : ∀ session ∈ cards, OwnKeys drawn session :=
    fun session has => own session (member session has).1 (member session has).2
  have remembered := boarded.remembers (sortBy (compareOn (·.2.at')) (cards.filterMap Session.retiredKey)) ?_ ?_ ?_
  · refine ⟨remembered.1,?_⟩
    rw [remembered.2]
    exact get
  · have once : ((cards.filterMap Session.retiredKey).map Prod.fst).Nodup := by
      rw [List.nodup_iff_pairwise_ne,List.pairwise_map,List.pairwise_filterMap]
      refine (List.pairwise_map.mp names).imp_of_mem ?_
      intro one other inOne inOther differs key was key' was' same
      obtain ⟨last,trail,rfl⟩ := Option.map_eq_some_iff.mp was
      obtain ⟨last',trail',rfl⟩ := Option.map_eq_some_iff.mp was'
      have first := ((mine one inOne).last last trail).1
      have second := ((mine other inOther).last last' trail').1
      dsimp only at same
      rw [same] at first
      exact differs (apart.unique first second)
    exact ((sortBy_perm ..).map Prod.fst).nodup_iff.mpr once
  · intro one has
    obtain ⟨session,there,last,was,hash,owner⟩ := keyed one has
    obtain ⟨drawnFor,shut⟩ := boarded.trailed session.name session.handle last (here session there) was
    rw [hash,owner]
    exact ⟨drawnFor,contains_get.mpr ⟨_,here session there⟩,shut⟩
  · intro one has
    obtain ⟨session,there,last,was,hash,_⟩ := keyed one has
    rw [retired,hash]
    cases known : held.retired[last.hash]? with
    | none => rfl
    | some before =>
      obtain ⟨theirs,held',_⟩ := kept.known _ before known
      have same := apart.unique theirs ((mine session there).last last was).1
      obtain ⟨_,there'⟩ := contains_get.mp held'
      rw [same,absent session (member session there).1 (member session there).2] at there'
      exact nomatch there'

theorem Kept.putBacks (runs : List MintedRun) (count : Nat) (kept : Kept drawn held) (apart : Apart drawn)
    (names : (runs.map MintedRun.name).Nodup)
    (own : ∀ run ∈ runs, isReadableSid run.name = true ∧ (run.keyHash,run.name) ∈ drawn)
    (absent : ∀ run ∈ runs, held.byName[run.name]? = none) :
    Kept drawn (runs.foldl Held.putBack (held,count)).1 ∧
      ∀ name : Sid, (runs.foldl Held.putBack (held,count)).1.byName[name]? =
        ((runs.find? (·.name = name)).map MintedRun.handle).or held.byName[name]? := by
  induction runs generalizing held count with
  | nil => exact ⟨kept,by simp⟩
  | cons run rest ih =>
    obtain ⟨other,names⟩ := List.nodup_cons.mp names
    obtain ⟨readable,mine⟩ := own run List.mem_cons_self
    have free := absent run List.mem_cons_self
    have unopened : held.byHash[run.keyHash]? = none := by
      cases was : held.byHash[run.keyHash]? with
      | none => rfl
      | some owner =>
        have same := apart.unique mine (kept.owned _ owner was)
        obtain ⟨handle,there,_⟩ := (kept.opens _ owner).mp was
        rw [←same,free] at there
        exact nomatch there
    have puts : Held.putBack (held,count) run = ({ held with
        byHash := held.byHash.insert run.keyHash run.name
        byName := held.byName.insert run.name run.handle },count+1) := by
      simp [Held.putBack,absent_get.mpr free,absent_get.mpr unopened,readable]
    have put := kept.put run.handle apart free rfl readable ?_ ?_
    · have later : ∀ one ∈ rest, (held.byName.insert run.name run.handle)[one.name]? = none := by
        intro one has
        have differs : run.name ≠ one.name := fun same => other (same ▸ List.mem_map_of_mem has)
        rw [insert_get,if_neg differs]
        exact absent one (List.mem_cons_of_mem _ has)
      obtain ⟨done,get⟩ := ih (count+1) put names (fun one has => own one (List.mem_cons_of_mem _ has)) later
      rw [List.foldl_cons,puts]
      refine ⟨done,?_⟩
      intro name
      refine (get name).trans ?_
      rw [List.find?_cons,insert_get]
      by_cases same : run.name = name
      · have missing : rest.find? (·.name = name) = none := by
          apply List.find?_eq_none.mpr
          intro one has is
          have is : one.name = name := by simpa using is
          exact other (same ▸ is ▸ List.mem_map_of_mem has)
        simp [same,missing]
      · simp [same]
    · intro hash same
      cases same
      exact mine
    · intro last none
      exact nomatch none

end Registry
