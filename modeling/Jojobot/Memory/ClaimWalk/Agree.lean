import Jojobot.Memory.ClaimWalk.Claims

open ClaimWalk Library Relation

namespace Moves
variable {κ : Type} [DecidableEq κ]

-- The walk of a thing as it stands when the asking ends.
def thingFrom (survivorOf : κ → Except (MergeLoop κ) (Option κ)) : Nat → ThingWalk κ → Option (Except (MergeLoop κ) (ThingWalk κ))
  | 0,_ => none
  | fuel+1,walk =>
    match survivorOf walk.stands with
    | .error looped => some (.error looped)
    | .ok survivor =>
      if (walk.step survivor).2 then thingFrom survivorOf fuel (walk.step survivor).1 else some (.ok (walk.step survivor).1)

def thingWalked (fuel : Nat) (start : κ) (survivorOf : κ → Except (MergeLoop κ) (Option κ)) :
    Option (Except (MergeLoop κ) (ThingWalk κ)) := thingFrom survivorOf fuel (.new start)

-- What the events fold into a thing, as a store that holds them whole lists it.
def foldedIn (events : List (MergeEvent κ)) (survivor : κ) : List κ :=
  (events.filter fun event => decide (event.survivor = survivor)).map (·.folded)

-- The answer is a loop just when the start leads back to something passed, and the
-- loop names what lies on the cycle, each once.
def NamesTheLoop {β γ : Type} (next : κ → Option κ) (named : κ → β) (start : κ) (answer : Except (MergeLoop β) γ) : Prop :=
  ((∃ looped, answer = .error looped) ↔ Revisits next start) ∧
    ∀ looped, answer = .error looped → ∃ cycle : List κ, looped.things = cycle.map named ∧ cycle.Nodup ∧ ∀ a, a ∈ cycle ↔ OnCycle next start a

variable {events : List (MergeEvent κ)} {start folded survivor s x : κ} {walk walked : ThingWalk κ} {fuel : Nat} {found : List κ}

theorem followFrom_finish (survivorOf : κ → Except (MergeLoop κ) (Option κ)) (fuel : Nat) (walk : ThingWalk κ) :
    followFrom survivorOf fuel walk = (thingFrom survivorOf fuel walk).map fun ended => ended >>= ThingWalk.finish := by
  induction fuel generalizing walk with
  | zero => rfl
  | succ fuel ih =>
    unfold followFrom thingFrom
    cases survivorOf walk.stands with
    | error looped => rfl
    | ok survivor =>
      dsimp only
      split
      · exact ih _
      · rfl

theorem thingFrom_chased (events : List (MergeEvent κ)) (fuel : Nat) (walk : ThingWalk κ)
    (whole : walk.looped = none) (same : ∀ thing, thing ∈ walk.path ↔ thing ∈ walk.passed) (ended : Chased κ)
    (chase : chased (survivorOf events) fuel walk.path walk.stands = some ended) :
    ∃ walked, thingFrom (survivorIn events) fuel walk = some (.ok walked) ∧
      walked.path = ended.path ∧ walked.stands = ended.last ∧ walked.looped = ended.looped := by
  induction fuel generalizing walk with
  | zero => cases chase
  | succ fuel ih =>
    unfold thingFrom
    unfold chased at chase
    rw [survivorIn_ok]
    cases found : survivorOf events walk.stands with
    | none =>
      rw [found] at chase
      cases chase
      exact ⟨walk,by simp [ThingWalk.step],rfl,rfl,whole⟩
    | some next =>
      simp only [found] at chase
      by_cases again : next ∈ walk.path
      · rw [if_pos again] at chase
        cases chase
        exact ⟨{walk with looped := walk.path.findIdx? (· = next)},by simp [ThingWalk.step,(same next).mp again],rfl,rfl,rfl⟩
      · rw [if_neg again] at chase
        have fresh : next ∉ walk.passed := fun old => again ((same next).mpr old)
        obtain ⟨walked,ran,rest⟩ :=
          ih ⟨next,next::walk.passed,walk.path ++ [next],walk.looped⟩ whole (by intro thing; simp [same,or_comm]) chase
        exact ⟨walked,by simpa [ThingWalk.step,fresh] using ran,rest⟩

theorem folded_covers (events : List (MergeEvent κ)) (thing : κ) (sent : survivorOf events thing ≠ none) :
    thing ∈ events.map (·.folded) := by
  obtain ⟨survivor,some'⟩ := Option.ne_none_iff_exists'.mp sent
  obtain ⟨event,there,named,_⟩ := survivorOf_event some'
  exact List.mem_map.mpr ⟨event,there,named⟩

theorem thingFrom_more (fuel : Nat) (walk walked : ThingWalk κ) (ran : thingFrom (survivorIn events) fuel walk = some (.ok walked)) :
    thingFrom (survivorIn events) (fuel+1) walk = some (.ok walked) := by
  induction fuel generalizing walk with
  | zero => cases ran
  | succ fuel ih =>
    unfold thingFrom at ran ⊢
    rw [survivorIn_ok] at ran ⊢
    dsimp only at ran ⊢
    split
    · rename_i moved
      rw [if_pos moved] at ran
      exact ih _ ran
    · rename_i stopped
      rw [if_neg stopped] at ran
      exact ran

-- The walk of a thing passes all it leads to, and ends where nothing folded what it
-- stands at or where it has been before.
theorem thingWalked_ends (events : List (MergeEvent κ)) (start : κ) :
    ∃ walked ended, Chase (survivorOf events) start ended ∧ Returns (fun fuel => thingWalked fuel start (survivorIn events)) (.ok walked) ∧
      walked.path = ended.path ∧ walked.stands = ended.last ∧ walked.looped = ended.looped := by
  obtain ⟨ended,ran,chase⟩ := chased_ends (folded_covers events) start (Nat.lt_succ_self _)
  obtain ⟨walked,walks,same⟩ := thingFrom_chased events _ (.new start) rfl (fun _ => Iff.rfl) ended ran
  exact ⟨walked,ended,chase,Returns.of_more (fun fuel => thingFrom_more fuel _ _) walks,same⟩

theorem followThing_returns (returns : Returns (fun fuel => thingWalked fuel start (survivorIn events)) (.ok walked)) :
    Returns (fun fuel => followThing fuel start (survivorIn events)) walked.finish := by
  obtain ⟨enough,ran⟩ := returns
  refine ⟨enough,?_⟩
  intro fuel more
  have walks : thingFrom (survivorIn events) fuel (.new start) = some (.ok walked) := ran fuel more
  change followFrom (survivorIn events) fuel (.new start) = some walked.finish
  rw [followFrom_finish,walks]
  rfl

theorem passed_reached (returns : Returns (fun fuel => thingWalked fuel x (survivorIn events)) (.ok walked)) :
    s ∈ walked.path ↔ ReflTransGen (Steps (survivorOf events)) x s := by
  obtain ⟨other,ended,chase,returns',path,_,_⟩ := thingWalked_ends events x
  cases returns.unique returns'
  rw [path]
  exact chase.passed s

theorem followThing_names (events : List (MergeEvent κ)) (start : κ) :
    ∃ answer, Returns (fun fuel => followThing fuel start (survivorIn events)) answer ∧
      NamesTheLoop (survivorOf events) (fun thing => thing) start answer ∧
      ∀ last, answer = .ok last → Ends (survivorOf events) start last := by
  obtain ⟨walked,ended,chase,returns,path,stands,looped⟩ := thingWalked_ends events start
  refine ⟨_,followThing_returns returns,?_,?_⟩
  · unfold NamesTheLoop
    rw [←chase.revisits]
    unfold ThingWalk.finish
    cases found : ended.looped with
    | none => simp [looped,found]
    | some place =>
      obtain ⟨apart,_,cycle⟩ := chase.loops place found
      refine ⟨by simp [looped,found],?_⟩
      intro named same
      rw [looped,found] at same
      cases same
      exact ⟨walked.path.drop place,by simp,path ▸ apart,path ▸ cycle⟩
  · intro last same
    cases found : ended.looped with
    | none =>
      rw [ThingWalk.finish,looped,found] at same
      cases same
      exact stands ▸ chase.stops found
    | some place =>
      rw [ThingWalk.finish,looped,found] at same
      cases same

theorem followClaim_names (shown : κ → Text) (events : List (ClaimEvent κ)) (home : κ) (claim : Text) :
    ∃ answer, Returns (fun fuel => followClaim shown fuel home claim (movesIn events)) answer ∧
      NamesTheLoop (movedTo events) (addressed shown) (home,claim) answer := by
  obtain ⟨ended,ran,chase⟩ := chased_ends (movable_covers events) (home,claim) (Nat.lt_succ_self _)
  obtain ⟨moved,walks⟩ := claimFrom_chased shown events ((movable events).length+1) (.new home claim) rfl (fun _ => Iff.rfl)
  have ran' : chased (movedTo events) ((movable events).length+1) (ClaimWalk.new home claim).path (ClaimWalk.new home claim).stands =
      some ended := ran
  rw [ran',Option.map_some] at walks
  cases found : ended.looped with
  | none =>
    simp only [found] at walks
    refine ⟨_,Returns.of_more (fun fuel => claimFrom_more fuel _) walks,?_⟩
    unfold NamesTheLoop
    rw [←chase.revisits]
    simp [found]
  | some place =>
    obtain ⟨apart,_,cycle⟩ := chase.loops place found
    simp only [found] at walks
    refine ⟨_,Returns.of_more (fun fuel => claimFrom_more fuel _) walks,?_⟩
    unfold NamesTheLoop
    rw [←chase.revisits]
    refine ⟨by simp [found],?_⟩
    intro named same
    cases same
    exact ⟨ended.path.drop place,rfl,apart,cycle⟩

theorem folds_steps (once : FoldedOnce events) : FoldsInto (foldedIn events) folded survivor ↔ Steps (survivorOf events) folded survivor := by
  have listed : FoldsInto (foldedIn events) folded survivor ↔ ∃ event ∈ events, event.folded = folded ∧ event.survivor = survivor := by
    simp [FoldsInto,foldedIn,and_comm,and_assoc]
  rw [listed]
  constructor
  · intro found
    obtain ⟨event,there,rfl,rfl⟩ := found
    cases sent : survivorOf events event.folded with
    | none => exact absurd rfl (survivorOf_none.mp sent event there)
    | some survivor =>
      obtain ⟨other,there',same,kept⟩ := survivorOf_event sent
      have one := List.inj_on_of_nodup_map once there' there same
      subst one
      exact sent.trans (congrArg some kept.symm)
  · exact survivorOf_event

theorem foldedIntoWalk_returns (events : List (MergeEvent κ)) (start : κ) :
    ∃ answer, Returns (fun fuel => foldedIntoWalk fuel start (foldedIn events)) answer ∧
      ∀ found, answer = .ok found → ∀ thing, thing ∈ found ↔ thing ≠ start ∧ ReflTransGen (FoldsInto (foldedIn events)) thing start := by
  have finite : ∀ folded survivor, FoldsInto (foldedIn events) folded survivor → folded ∈ events.map (·.folded) := by
    intro folded survivor named
    obtain ⟨event,there,same⟩ := List.mem_map.mp named
    exact List.mem_map.mpr ⟨event,(List.mem_filter.mp there).1,same⟩
  obtain ⟨answer,ran,_,whole⟩ := foldedIntoWalk_answers finite start
  exact ⟨answer,⟨_,ran⟩,fun found same => (whole found same).2⟩

def thingsOf (events : List (ClaimEvent κ)) : List (MergeEvent κ) := events.map (·.toMergeEvent)

-- What was folded into a thing is what passes it on its way, and both come to one end;
-- every walk ends, and the forward ones name a loop just when they meet one.
theorem the_walks_agree (shown : κ → Text) (events : List (ClaimEvent κ)) :
    (FoldedOnce (thingsOf events) → ∀ (x s : κ) (found : List κ) (walked : ThingWalk κ),
      Returns (fun fuel => foldedIntoWalk fuel s (foldedIn (thingsOf events))) (.ok found) →
      Returns (fun fuel => thingWalked fuel x (survivorIn (thingsOf events))) (.ok walked) →
        (x ∈ found ↔ x ≠ s ∧ s ∈ walked.path) ∧
        ∀ last, x ∈ found → Returns (fun fuel => followThing fuel s (survivorIn (thingsOf events))) (.ok last) →
          Returns (fun fuel => followThing fuel x (survivorIn (thingsOf events))) (.ok last)) ∧
    (∀ s, ∃ answer, Returns (fun fuel => foldedIntoWalk fuel s (foldedIn (thingsOf events))) answer) ∧
    (∀ start, ∃ walked, Returns (fun fuel => thingWalked fuel start (survivorIn (thingsOf events))) (.ok walked) ∧
      Returns (fun fuel => followThing fuel start (survivorIn (thingsOf events))) walked.finish ∧
      NamesTheLoop (survivorOf (thingsOf events)) (fun thing => thing) start walked.finish) ∧
    ∀ home claim, ∃ answer, Returns (fun fuel => followClaim shown fuel home claim (movesIn events)) answer ∧
      NamesTheLoop (movedTo events) (addressed shown) (home,claim) answer := by
  refine ⟨?_,?_,?_,followClaim_names shown events⟩
  · intro once x s found walked gathered walks
    obtain ⟨answer,gathered',whole⟩ := foldedIntoWalk_returns (thingsOf events) s
    have members := whole found (gathered'.unique gathered) x
    have steps : FoldsInto (foldedIn (thingsOf events)) = Steps (survivorOf (thingsOf events)) := by
      funext folded survivor
      exact propext (folds_steps once)
    rw [steps] at members
    refine ⟨by rw [members,passed_reached walks],?_⟩
    intro last member follows
    obtain ⟨one,returns,_,ends⟩ := followThing_names (thingsOf events) s
    have from' := ends last (returns.unique follows)
    obtain ⟨other,returns',⟨loops,_⟩,ends'⟩ := followThing_names (thingsOf events) x
    have through : Ends (survivorOf (thingsOf events)) x last := ⟨(members.mp member).2.trans from'.1,from'.2⟩
    cases other with
    | ok end' =>
      rw [(ends' end' rfl).unique through] at returns'
      exact returns'
    | error looped => exact absurd (loops.mp ⟨looped,rfl⟩) through.unlooped
  · intro s
    obtain ⟨answer,returns,_⟩ := foldedIntoWalk_returns (thingsOf events) s
    exact ⟨answer,returns⟩
  · intro start
    obtain ⟨walked,_,_,returns,_⟩ := thingWalked_ends (thingsOf events) start
    obtain ⟨answer,follows,names,_⟩ := followThing_names (thingsOf events) start
    have same := (followThing_returns returns).unique follows
    exact ⟨walked,returns,followThing_returns returns,same ▸ names⟩

def foldedTwice : List (ClaimEvent Nat) := [⟨⟨1,2⟩,[]⟩,⟨⟨2,3⟩,[]⟩]

theorem a_thing_folded_twice_is_found :
    ∃ found walked, Returns (fun fuel => foldedIntoWalk fuel 3 (foldedIn (thingsOf foldedTwice))) (.ok found) ∧
      (1 ∈ found ↔ 1 ≠ 3 ∧ 3 ∈ walked.path) ∧
      Returns (fun fuel => thingWalked fuel 1 (survivorIn (thingsOf foldedTwice))) (.ok walked) ∧ 1 ∈ found := by
  have gathered : Returns (fun fuel => foldedIntoWalk fuel 3 (foldedIn (thingsOf foldedTwice))) (.ok [2,1]) :=
    Returns.of_more (fun _ => foldedIntoFrom_more) (by decide : foldedIntoWalk 4 3 (foldedIn (thingsOf foldedTwice)) = some (.ok [2,1]))
  obtain ⟨walked,_,_,walks,_⟩ := thingWalked_ends (thingsOf foldedTwice) 1
  have both := (the_walks_agree (fun _ => []) foldedTwice).1 (by unfold FoldedOnce; decide) 1 3 [2,1] walked gathered walks
  exact ⟨[2,1],walked,gathered,both.1,walks,by decide⟩

end Moves
