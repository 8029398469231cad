import Jojobot.Memory.ClaimWalk.FoldedInto
import Jojobot.Library.Lasso

open ClaimWalk Library Relation

namespace Moves
variable {κ : Type} [DecidableEq κ]

-- A merge event with the claims the folded thing held: the id there, then the id
-- under the survivor.
structure ClaimEvent (κ : Type) extends MergeEvent κ where
  claims : List (Text × Text)
deriving DecidableEq, Repr

structure ClaimMove (κ : Type) where
  order : Nat
  survivor : κ
  survivorId : Text
deriving DecidableEq, Repr

structure ClaimWalk (κ : Type) where
  stands : κ × Text
  moved : Bool
  passed : List (κ × Text)
  path : List (κ × Text)
  looped : Option Nat
deriving DecidableEq, Repr

def ClaimWalk.new (home : κ) (claim : Text) : ClaimWalk κ := ⟨(home,claim),false,[(home,claim)],[(home,claim)],none⟩

-- `max_by_key` keeps the last of those of one order.
def newestOf (candidates : List (ClaimMove κ)) : Option (ClaimMove κ) :=
  candidates.foldl (fun best candidate =>
    match best with
    | none => some candidate
    | some held => if held.order ≤ candidate.order then some candidate else some held) none

def ClaimWalk.step (walk : ClaimWalk κ) (candidates : List (ClaimMove κ)) : ClaimWalk κ × Bool :=
  match newestOf candidates with
  | none => (walk,false)
  | some newest =>
    if walk.passed.contains (newest.survivor,newest.survivorId) then
      ({walk with looped := walk.path.findIdx? (· = (newest.survivor,newest.survivorId))},false)
    else
      ({walk with
          passed := (newest.survivor,newest.survivorId)::walk.passed
          path := walk.path ++ [(newest.survivor,newest.survivorId)]
          stands := (newest.survivor,newest.survivorId)
          moved := true},
        true)

def addressed (shown : κ → Text) (address : κ × Text) : Text := shown address.1 ++ '#'::address.2

def ClaimWalk.finish (shown : κ → Text) (walk : ClaimWalk κ) : Except (MergeLoop Text) (Option (κ × Text)) :=
  match walk.looped with
  | some start => .error ⟨(walk.path.drop start).map (addressed shown)⟩
  | none => .ok (if walk.moved then some walk.stands else none)

def claimFrom (shown : κ → Text) (movedFrom : κ → Text → Except (MergeLoop Text) (List (ClaimMove κ))) :
    Nat → ClaimWalk κ → Option (Except (MergeLoop Text) (Option (κ × Text)))
  | 0,_ => none
  | fuel+1,walk =>
    match movedFrom walk.stands.1 walk.stands.2 with
    | .error looped => some (.error looped)
    | .ok candidates =>
      if (walk.step candidates).2 then claimFrom shown movedFrom fuel (walk.step candidates).1
      else some ((walk.step candidates).1.finish shown)

def followClaim (shown : κ → Text) (fuel : Nat) (home : κ) (claim : Text)
    (movedFrom : κ → Text → Except (MergeLoop Text) (List (ClaimMove κ))) :
    Option (Except (MergeLoop Text) (Option (κ × Text))) := claimFrom shown movedFrom fuel (.new home claim)

-- Where one event sends a claim of the thing it folded.
def sent (event : ClaimEvent κ) (home : κ) (claim : Text) : Option (κ × Text) :=
  if event.folded = home then (event.claims.find? fun pair => pair.1 = claim).map fun pair => (event.survivor,pair.2) else none

def candidatesIn (events : List (ClaimEvent κ)) (home : κ) (claim : Text) : List (ClaimMove κ) :=
  (events.zipIdx.filter fun placed => decide (placed.1.folded = home)).filterMap fun placed =>
    (placed.1.claims.find? fun pair => pair.1 = claim).map fun pair => ⟨placed.2,placed.1.survivor,pair.2⟩

def movesIn (events : List (ClaimEvent κ)) (home : κ) (claim : Text) : Except (MergeLoop Text) (List (ClaimMove κ)) :=
  .ok (candidatesIn events home claim)

-- The newest event that moved an address.
def movedTo (events : List (ClaimEvent κ)) (address : κ × Text) : Option (κ × Text) :=
  events.reverse.findSome? fun event => sent event address.1 address.2

variable {events : List (ClaimEvent κ)} {event : ClaimEvent κ} {home : κ} {claim : Text} {walk : ClaimWalk κ} {fuel : Nat}

omit [DecidableEq κ] in
theorem newestOf_next (candidates : List (ClaimMove κ)) (last : ClaimMove κ)
    (later : ∀ one ∈ candidates, one.order ≤ last.order) : newestOf (candidates ++ [last]) = some last := by
  have among : ∀ one, newestOf candidates = some one → one ∈ candidates := by
    induction candidates using List.reverseRecOn with
    | nil => intro one some'; cases some'
    | append_singleton rest top ih =>
      have ih' := ih fun one has => later one (List.mem_append_left _ has)
      intro one some'
      unfold newestOf at some' ih'
      rw [List.foldl_append] at some'
      dsimp only [List.foldl_cons,List.foldl_nil] at some'
      split at some'
      · cases some'
        exact List.mem_append_right _ List.mem_cons_self
      · rename_i held found
        split at some'
        · cases some'
          exact List.mem_append_right _ List.mem_cons_self
        · cases some'
          exact List.mem_append_left _ (ih' _ found)
  cases best : newestOf candidates with
  | none =>
    unfold newestOf at best ⊢
    simp [List.foldl_append,best]
  | some held =>
    have before := later held (among held best)
    unfold newestOf at best ⊢
    simp [List.foldl_append,best,before]

theorem candidatesIn_next (events : List (ClaimEvent κ)) (event : ClaimEvent κ) (home : κ) (claim : Text) :
    candidatesIn (events ++ [event]) home claim = candidatesIn events home claim ++
      ((sent event home claim).map fun address => (⟨events.length,address.1,address.2⟩ : ClaimMove κ)).toList := by
  unfold candidatesIn sent
  rw [List.zipIdx_append,List.filter_append,List.filterMap_append]
  congr 1
  by_cases same : event.folded = home
  · cases found : event.claims.find? fun pair => pair.1 = claim <;> simp [same,found]
  · simp [same]

theorem candidatesIn_order (events : List (ClaimEvent κ)) (home : κ) (claim : Text) :
    ∀ one ∈ candidatesIn events home claim, one.order < events.length := by
  induction events using List.reverseRecOn with
  | nil => intro one has; cases has
  | append_singleton events event ih =>
    intro one has
    rw [candidatesIn_next] at has
    rw [List.length_append,List.length_singleton]
    rcases List.mem_append.mp has with old | last
    · exact Nat.lt_succ_of_lt (ih one old)
    · obtain ⟨address,_,made⟩ := Option.map_eq_some_iff.mp (Option.mem_toList.mp last)
      subst made
      exact Nat.lt_succ_self _

theorem newest_moves (events : List (ClaimEvent κ)) (home : κ) (claim : Text) :
    (newestOf (candidatesIn events home claim)).map (fun newest => (newest.survivor,newest.survivorId)) = movedTo events (home,claim) := by
  induction events using List.reverseRecOn with
  | nil => rfl
  | append_singleton events event ih =>
    have moves : movedTo (events ++ [event]) (home,claim) = (sent event home claim).or (movedTo events (home,claim)) := by
      unfold movedTo
      rw [List.reverse_append,List.findSome?_append]
      simp
    rw [candidatesIn_next,moves]
    cases goes : sent event home claim with
    | none => simpa using ih
    | some address =>
      have last := newestOf_next (candidatesIn events home claim) ⟨events.length,address.1,address.2⟩
        fun one has => Nat.le_of_lt (candidatesIn_order events home claim one has)
      simpa using congrArg (Option.map fun newest : ClaimMove κ => (newest.survivor,newest.survivorId)) last

theorem movesIn_ok (events : List (ClaimEvent κ)) (home : κ) (claim : Text) :
    movesIn events home claim = .ok (candidatesIn events home claim) := rfl

-- The walk is a chase of where the newest event moves an address.
theorem claimFrom_chased (shown : κ → Text) (events : List (ClaimEvent κ)) (fuel : Nat) (walk : ClaimWalk κ)
    (whole : walk.looped = none) (same : ∀ address, address ∈ walk.path ↔ address ∈ walk.passed) :
    ∃ moved : Bool, claimFrom shown (movesIn events) fuel walk =
      (chased (movedTo events) fuel walk.path walk.stands).map fun ended =>
        match ended.looped with
        | some start => .error ⟨(ended.path.drop start).map (addressed shown)⟩
        | none => .ok (if moved then some ended.last else none) := by
  induction fuel generalizing walk with
  | zero => exact ⟨false,rfl⟩
  | succ fuel ih =>
    have moves := newest_moves events walk.stands.1 walk.stands.2
    unfold claimFrom chased
    rw [movesIn_ok]
    cases found : newestOf (candidatesIn events walk.stands.1 walk.stands.2) with
    | none =>
      rw [found] at moves
      refine ⟨walk.moved,?_⟩
      simp [ClaimWalk.step,found,←moves,ClaimWalk.finish,whole]
    | some newest =>
      rw [found] at moves
      by_cases again : (newest.survivor,newest.survivorId) ∈ walk.path
      · obtain ⟨place,front,after,placed,_,_⟩ := drop_findIdx? again
        refine ⟨false,?_⟩
        simp [ClaimWalk.step,found,←moves,(same _).mp again,again,ClaimWalk.finish,placed]
      · have fresh : (newest.survivor,newest.survivorId) ∉ walk.passed := fun old => again ((same _).mpr old)
        obtain ⟨moved,ran⟩ := ih
          {walk with
            passed := (newest.survivor,newest.survivorId)::walk.passed
            path := walk.path ++ [(newest.survivor,newest.survivorId)]
            stands := (newest.survivor,newest.survivorId)
            moved := true} whole (by intro address; simp [same,or_comm])
        refine ⟨moved,?_⟩
        simpa [ClaimWalk.step,found,←moves,fresh,again] using ran

theorem movedTo_event {address onward : κ × Text} (moved : movedTo events address = some onward) : ∃ event ∈ events, event.folded = address.1 ∧
    ∃ pair ∈ event.claims, pair.1 = address.2 ∧ onward = (event.survivor,pair.2) := by
  obtain ⟨event,there,goes⟩ := List.exists_of_findSome?_eq_some moved
  refine ⟨event,List.mem_reverse.mp there,?_⟩
  unfold sent at goes
  split at goes
  · rename_i folded
    obtain ⟨pair,found,made⟩ := Option.map_eq_some_iff.mp goes
    exact ⟨folded,pair,List.mem_of_find?_eq_some found,by simpa using List.find?_some found,made.symm⟩
  · cases goes

-- Every address an event can move is one of its claims of the thing it folded.
def movable (events : List (ClaimEvent κ)) : List (κ × Text) := events.flatMap fun event => event.claims.map fun pair => (event.folded,pair.1)

theorem movable_covers (events : List (ClaimEvent κ)) (address : κ × Text) (moved : movedTo events address ≠ none) : address ∈ movable events := by
  obtain ⟨onward,some'⟩ := Option.ne_none_iff_exists'.mp moved
  obtain ⟨event,there,folded,pair,has,named,_⟩ := movedTo_event some'
  refine List.mem_flatMap.mpr ⟨event,there,List.mem_map.mpr ⟨pair,has,?_⟩⟩
  exact Prod.ext folded named

theorem claimFrom_more {shown : κ → Text} {answer : Except (MergeLoop Text) (Option (κ × Text))} (fuel : Nat) (walk : ClaimWalk κ)
    (ran : claimFrom shown (movesIn events) fuel walk = some answer) : claimFrom shown (movesIn events) (fuel+1) walk = some answer := by
  induction fuel generalizing walk with
  | zero => cases ran
  | succ fuel ih =>
    unfold claimFrom at ran ⊢
    rw [movesIn_ok] at ran ⊢
    dsimp only at ran ⊢
    split
    · rename_i moved
      rw [if_pos moved] at ran
      exact ih _ ran
    · rename_i stopped
      rw [if_neg stopped] at ran
      exact ran

end Moves
