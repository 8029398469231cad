import Jojobot.Memory.ClaimWalk
import Jojobot.Library.LastMet.Ways

namespace ClaimWalk
open Library Relation
variable {κ : Type} [DecidableEq κ]

-- Every thing folded into one thing, found by asking for each in turn what was
-- folded into it.
structure FoldedInto (κ : Type) where
  reached : List κ
  found : List κ
  pending : List κ
  cameThrough : List (κ × κ)
  asked : Option κ
  looped : Option (List κ)
deriving DecidableEq, Repr

def FoldedInto.new (start : κ) : FoldedInto κ := ⟨[start],[],[start],[],none,none⟩

-- `pending` of the source: the next thing to ask about, the last put there.
def FoldedInto.ask (walk : FoldedInto κ) : FoldedInto κ :=
  {walk with pending := walk.pending.dropLast,asked := walk.pending.getLast?}

-- The thing asked about and what it was reached through, up to the start. Each thing
-- has one place in the map, so the map's length bounds the climb.
def FoldedInto.through (walk : FoldedInto κ) (asked : κ) : List κ :=
  asked :: lineUp (fun thing => walk.cameThrough.lookup thing) walk.cameThrough.length asked

def FoldedInto.reachOne (asked : κ) (taken : FoldedInto κ × List κ) (key : κ) : FoldedInto κ × List κ :=
  if !taken.1.reached.contains key then
    ({taken.1 with
        reached := taken.1.reached ++ [key],cameThrough := (key,asked)::taken.1.cameThrough,
        found := taken.1.found ++ [key],pending := taken.1.pending ++ [key]},
      taken.2 ++ [key])
  else if taken.1.looped.isNone then
    match (taken.1.through asked).findIdx? (· = key) with
    | some place =>
      ({taken.1 with looped := some (((taken.1.through asked).take (place+1)).reverse.destutter (· ≠ ·))},taken.2)
    | none => taken
  else taken

-- Take what was folded into the thing just asked about; the second is what is new.
def FoldedInto.reach (walk : FoldedInto κ) (folded : List κ) : FoldedInto κ × List κ :=
  match walk.asked with
  | none => (walk,[])
  | some asked => folded.foldl (FoldedInto.reachOne asked) (walk,[])

def FoldedInto.finish (walk : FoldedInto κ) : Except (MergeLoop κ) (List κ) :=
  match walk.looped with
  | some things => .error ⟨things⟩
  | none => .ok walk.found

-- The source asks until nothing is pending; `fuel` bounds the asking.
def foldedIntoFrom (foldedInto : κ → List κ) : Nat → FoldedInto κ → Option (Except (MergeLoop κ) (List κ))
  | 0,_ => none
  | fuel+1,walk =>
    match walk.ask.asked with
    | none => some walk.ask.finish
    | some asked => foldedIntoFrom foldedInto fuel (walk.ask.reach (foldedInto asked)).1

def foldedIntoWalk (fuel : Nat) (survivor : κ) (foldedInto : κ → List κ) : Option (Except (MergeLoop κ) (List κ)) :=
  foldedIntoFrom foldedInto fuel (.new survivor)

variable {foldedInto : κ → List κ} {start asked key thing : κ} {walk : FoldedInto κ} {pairs : List (κ × κ)} {done things : List κ}
  {answer : Except (MergeLoop κ) (List κ)}

-- The walk holds what a search that heard these pairs holds.
structure Gathering (start : κ) (pairs : List (κ × κ)) (done : List κ) (walk : FoldedInto κ) : Prop where
  heard : Heard start pairs
  reached : walk.reached = met start pairs
  found : walk.reached = start :: walk.found
  pending : walk.pending = walk.reached.filter fun thing => !done.contains thing
  inside : done ⊆ walk.reached
  parents : ∀ thing, walk.cameThrough.lookup thing = metThrough start pairs thing
  looped : walk.looped ≠ none ↔ Closing start pairs

theorem Gathering.new (start : κ) : Gathering start [] [] (.new start) := by
  refine ⟨.nothing,rfl,rfl,rfl,List.nil_subset _,?_,?_⟩
  · intro thing
    simp [FoldedInto.new,metThrough]
  · simp [FoldedInto.new,Closing]

theorem lookup_covers (pairs : List (κ × κ)) (thing : κ) (found : pairs.lookup thing ≠ none) : thing ∈ pairs.map (·.1) := by
  induction pairs with
  | nil => exact absurd rfl found
  | cons pair rest ih =>
    rw [List.lookup_cons] at found
    split at found
    · rename_i same
      exact List.mem_cons.mpr (Or.inl (by simpa using same))
    · exact List.mem_cons_of_mem _ (ih found)

theorem Gathering.mem_through (gathering : Gathering start pairs done walk) (asked key : κ) :
    key ∈ walk.through asked ↔ ReflTransGen (Steps (metThrough start pairs)) asked key := by
  have table : (fun thing => walk.cameThrough.lookup thing) = metThrough start pairs := funext gathering.parents
  have unlooped : Unlooped fun thing => walk.cameThrough.lookup thing := table ▸ gathering.heard.unlooped
  have line := mem_lineUp unlooped (lookup_covers walk.cameThrough) asked key
  rw [List.length_map] at line
  unfold FoldedInto.through
  rw [line,table]

-- A thing met before: nothing is gathered, and a loop is found where it stands on the line.
theorem Gathering.again (gathering : Gathering start pairs done walk) (known : asked ∈ walk.reached) (has : key ∈ walk.reached)
    (news : List κ) : Gathering start (pairs ++ [(asked,key)]) done (FoldedInto.reachOne asked (walk,news) key).1 := by
  have known' : asked ∈ met start pairs := gathering.reached ▸ known
  have heard := Heard.next key gathering.heard known'
  have closing := gathering.heard.closing_next known' key
  have has' : key ∈ met start pairs := gathering.reached ▸ has
  have reached : walk.reached = met start (pairs ++ [(asked,key)]) := by rw [met_next,if_pos has',gathering.reached]
  have parents : ∀ thing, walk.cameThrough.lookup thing = metThrough start (pairs ++ [(asked,key)]) thing := by
    intro thing
    rw [metThrough_next,if_neg fun both => both.2 has',gathering.parents]
  by_cases clear : walk.looped = none
  · have open' : ¬Closing start pairs := fun closed => gathering.looped.mpr closed clear
    cases placed : (walk.through asked).findIdx? (· = key) with
    | none =>
      have off : key ∉ walk.through asked := by
        intro there
        have miss := List.findIdx?_eq_none_iff.mp placed key there
        simp at miss
      have same : (FoldedInto.reachOne asked (walk,news) key).1 = walk := by
        simp [FoldedInto.reachOne,has,clear,placed]
      rw [same]
      refine ⟨heard,reached,gathering.found,gathering.pending,gathering.inside,parents,?_⟩
      rw [closing,←gathering.mem_through,gathering.looped]
      exact ⟨Or.inl,fun either => either.resolve_right off⟩
    | some place =>
      have on : key ∈ walk.through asked := by
        have some' : ((walk.through asked).findIdx? (· = key)).isSome := by rw [placed]; rfl
        simpa [List.findIdx?_isSome] using some'
      have shape : (FoldedInto.reachOne asked (walk,news) key).1 =
          {walk with looped := some (((walk.through asked).take (place+1)).reverse.destutter (· ≠ ·))} := by
        simp [FoldedInto.reachOne,has,clear,placed]
      rw [shape]
      refine ⟨heard,reached,gathering.found,gathering.pending,gathering.inside,parents,?_⟩
      rw [closing,←gathering.mem_through]
      exact ⟨fun _ => Or.inr on,fun _ => Option.some_ne_none _⟩
  · have same : (FoldedInto.reachOne asked (walk,news) key).1 = walk := by
      simp [FoldedInto.reachOne,has,clear]
    rw [same]
    refine ⟨heard,reached,gathering.found,gathering.pending,gathering.inside,parents,?_⟩
    rw [closing]
    exact ⟨fun _ => Or.inl (gathering.looped.mp clear),fun _ => clear⟩

theorem Gathering.first (gathering : Gathering start pairs done walk) (known : asked ∈ walk.reached) (has : key ∉ walk.reached)
    (news : List κ) : Gathering start (pairs ++ [(asked,key)]) done (FoldedInto.reachOne asked (walk,news) key).1 := by
  have known' : asked ∈ met start pairs := gathering.reached ▸ known
  have heard := Heard.next key gathering.heard known'
  have closing := gathering.heard.closing_next known' key
  have has' : key ∉ met start pairs := gathering.reached ▸ has
  have shape : (FoldedInto.reachOne asked (walk,news) key).1 =
      {walk with
        reached := walk.reached ++ [key],cameThrough := (key,asked)::walk.cameThrough,
        found := walk.found ++ [key],pending := walk.pending ++ [key]} := by
    simp [FoldedInto.reachOne,has]
  have off : ¬ReflTransGen (Steps (metThrough start pairs)) asked key := fun line => has' (gathering.heard.line known' line)
  rw [shape]
  refine ⟨heard,?_,?_,?_,fun thing has => List.mem_append_left _ (gathering.inside has),?_,?_⟩
  · rw [met_next,if_neg has',gathering.reached]
  · change walk.reached ++ [key] = start :: (walk.found ++ [key])
    rw [gathering.found,List.cons_append]
  · change walk.pending ++ [key] = (walk.reached ++ [key]).filter _
    have fresh : key ∉ done := fun old => has (gathering.inside old)
    rw [List.filter_append,gathering.pending]
    simp [fresh]
  · intro thing
    change ((key,asked)::walk.cameThrough).lookup thing = _
    rw [metThrough_next,List.lookup_cons,gathering.parents]
    by_cases same : thing = key
    · subst same
      simp [has']
    · simp [same,beq_eq_false_iff_ne.mpr same]
  · rw [closing]
    exact ⟨fun looped => Or.inl (gathering.looped.mp looped),fun either => gathering.looped.mpr (either.resolve_right off)⟩

theorem Gathering.one (gathering : Gathering start pairs done walk) (known : asked ∈ walk.reached) (key : κ)
    (news : List κ) : Gathering start (pairs ++ [(asked,key)]) done (FoldedInto.reachOne asked (walk,news) key).1 := by
  by_cases has : key ∈ walk.reached
  · exact gathering.again known has news
  · exact gathering.first known has news

theorem Gathering.all (gathering : Gathering start pairs done walk) (known : asked ∈ walk.reached) (folded news : List κ) :
    Gathering start (pairs ++ folded.map (asked,·)) done (folded.foldl (FoldedInto.reachOne asked) (walk,news)).1 := by
  induction folded generalizing walk pairs news with
  | nil => simpa using gathering
  | cons key rest ih =>
    have next := gathering.one known key news
    have known' : asked ∈ (FoldedInto.reachOne asked (walk,news) key).1.reached := by
      rw [next.reached]
      exact met_kept (gathering.reached ▸ known)
    have whole := ih next known' (FoldedInto.reachOne asked (walk,news) key).2
    simpa using whole

theorem Gathering.asks (gathering : Gathering start pairs done walk) (next : walk.pending.getLast? = some asked) :
    Gathering start pairs (done ++ [asked]) walk.ask := by
  have has : asked ∈ walk.reached := by
    have member := List.mem_of_getLast? next
    rw [gathering.pending] at member
    exact (List.mem_filter.mp member).1
  refine ⟨gathering.heard,gathering.reached,gathering.found,?_,?_,gathering.parents,gathering.looped⟩
  · change walk.pending.dropLast = walk.reached.filter fun thing => !(done ++ [asked]).contains thing
    have distinct : walk.reached.Nodup := gathering.reached ▸ met_nodup start pairs
    have split : walk.pending.dropLast ++ [asked] = walk.pending := List.dropLast_append_getLast? asked next
    have apart : (walk.pending.dropLast ++ [asked]).Nodup := by
      rw [split,gathering.pending]
      exact distinct.filter _
    have without : walk.reached.filter (fun thing => !(done ++ [asked]).contains thing) = walk.pending.filter (· ≠ asked) := by
      rw [gathering.pending,List.filter_filter]
      apply List.filter_congr
      intro thing _
      simp [Bool.and_comm]
    rw [without,←split,List.filter_append]
    have whole : walk.pending.dropLast.filter (· ≠ asked) = walk.pending.dropLast := by
      apply List.filter_eq_self.mpr
      intro thing there
      have other : thing ≠ asked := fun same => List.disjoint_of_nodup_append apart there (List.mem_singleton.mpr same)
      simpa using other
    rw [whole]
    simp
  · intro thing member
    rcases List.mem_append.mp member with old | last
    · exact gathering.inside old
    · cases List.mem_singleton.mp last
      exact has

theorem Gathering.reaches (gathering : Gathering start (scanned foldedInto done) done walk) (next : walk.pending.getLast? = some asked) :
    Gathering start (scanned foldedInto (done ++ [asked])) (done ++ [asked]) (walk.ask.reach (foldedInto asked)).1 := by
  have asking := gathering.asks next
  have known : asked ∈ walk.ask.reached := asking.inside (List.mem_append_right _ List.mem_cons_self)
  have step : walk.ask.reach (foldedInto asked) = (foldedInto asked).foldl (FoldedInto.reachOne asked) (walk.ask,[]) := by
    simp [FoldedInto.reach,FoldedInto.ask,next]
  rw [step,scanned_snoc]
  exact asking.all known _ _

theorem Gathering.waits (gathering : Gathering start (scanned foldedInto done) done walk) : walk.pending = waiting foldedInto start done := by
  rw [gathering.pending,gathering.reached]
  rfl

-- Every asking ends, and what it ends with has nothing left to ask.
theorem foldedIntoFrom_ends (known : ∀ one two, two ∈ foldedInto one → two ∈ things) (fuel steps : Nat)
    (gathering : Gathering start (scanned foldedInto (askedBy foldedInto start steps)) (askedBy foldedInto start steps) walk)
    (within : steps ≤ things.length+2) (enough : things.length+2 < fuel+steps) :
    ∃ last ended, foldedIntoFrom foldedInto fuel walk = some ended.finish ∧ waiting foldedInto start (askedBy foldedInto start last) = [] ∧
      Gathering start (scanned foldedInto (askedBy foldedInto start last)) (askedBy foldedInto start last) ended := by
  induction fuel generalizing walk steps with
  | zero => omega
  | succ fuel ih =>
    cases next : walk.pending.getLast? with
    | none =>
      have idle := List.getLast?_eq_none_iff.mp next
      refine ⟨steps,walk,?_,gathering.waits ▸ idle,gathering⟩
      simp [foldedIntoFrom,FoldedInto.ask,next,FoldedInto.finish]
    | some asked =>
      have further := gathering.reaches next
      rw [gathering.waits] at next
      have busy : waiting foldedInto start (askedBy foldedInto start steps) ≠ [] := by
        intro idle
        rw [idle] at next
        cases next
      have few : steps < things.length+2 := by
        by_contra many
        exact busy (askedBy_idle known start (by omega))
      rw [←askedBy_next next] at further
      obtain ⟨last,ended,ran,idle,whole⟩ := ih (steps+1) further (by omega) (by omega)
      refine ⟨last,ended,?_,idle,whole⟩
      rw [←gathering.waits] at next
      simp [foldedIntoFrom,FoldedInto.ask,next] at ran ⊢
      exact ran

theorem foldedIntoFrom_more {fuel : Nat} (ran : foldedIntoFrom foldedInto fuel walk = some answer) :
    foldedIntoFrom foldedInto (fuel+1) walk = some answer := by
  induction fuel generalizing walk with
  | zero => cases ran
  | succ fuel ih =>
    unfold foldedIntoFrom at ran ⊢
    cases next : walk.ask.asked with
    | none => simpa only [next] using ran
    | some asked =>
      simp only [next] at ran ⊢
      exact ih ran

theorem foldedIntoWalk_more {few many : Nat} (ran : foldedIntoWalk few start foldedInto = some answer) (later : few ≤ many) :
    foldedIntoWalk many start foldedInto = some answer := by
  induction later with
  | refl => exact ran
  | step _ ih => exact foldedIntoFrom_more ih

def FoldsInto (foldedInto : κ → List κ) (folded survivor : κ) : Prop := folded ∈ foldedInto survivor

-- A loop among the start and what reaches it.
def Looping (foldedInto : κ → List κ) (start : κ) : Prop :=
  ∃ thing, ReflTransGen (FoldsInto foldedInto) thing start ∧ TransGen (FoldsInto foldedInto) thing thing

-- A loop that the walk meets, the last met asked first.
def LoopsOnItsWay (foldedInto : κ → List κ) (start : κ) : Prop :=
  ∃ steps, Closing start (scanned foldedInto (askedBy foldedInto start steps))

-- Into some thing is folded one that lies on the first way to it without short cuts. Of two
-- things folded into one, the way through the later is the first.
def ClosesOnAFirstWay (foldedInto : κ → List κ) (start : κ) : Prop :=
  ∃ thing way folded, FirstWay (Direct foldedInto start) (Later foldedInto) start thing way ∧
    FoldsInto foldedInto folded thing ∧ folded ∈ start::way

def Reported (foldedInto : κ → List κ) (start : κ) (answer : Except (MergeLoop κ) (List κ)) : Prop :=
  ((∃ looped, answer = .error looped) ↔ Looping foldedInto start) ∧
    ∀ found, answer = .ok found →
      found.Nodup ∧ ∀ thing, thing ∈ found ↔ thing ≠ start ∧ ReflTransGen (FoldsInto foldedInto) thing start

-- A loop the walk meets on its way is a loop.
theorem LoopsOnItsWay.looping (loops : LoopsOnItsWay foldedInto start) : Looping foldedInto start := by
  obtain ⟨steps,pair,there,line⟩ := loops
  have heard := askedBy_heard foldedInto start steps
  have named : ∀ pair ∈ scanned foldedInto (askedBy foldedInto start steps), pair.2 ∈ foldedInto pair.1 :=
    fun pair has => (mem_scanned.mp has).2
  have up : ∀ one two, Steps (metThrough start (scanned foldedInto (askedBy foldedInto start steps))) one two →
      FoldsInto foldedInto one two := fun one two step => named _ (metThrough_pair step).1
  have path : ReflTransGen (FoldsInto foldedInto) pair.1 pair.2 := ReflTransGen.mono up _ _ line
  refine ⟨pair.1,heard.reached named (heard.sources pair there),?_⟩
  exact TransGen.tail' path (named pair there)

-- The walk ends, says there is a loop when it met one on its way, and otherwise
-- has found all that reaches the start.
theorem foldedIntoWalk_answers (finite : ∀ folded survivor, FoldsInto foldedInto folded survivor → folded ∈ things) (start : κ) :
    ∃ answer, (∀ fuel, things.length+2 < fuel → foldedIntoWalk fuel start foldedInto = some answer) ∧
      ((∃ looped, answer = .error looped) ↔ LoopsOnItsWay foldedInto start) ∧
      ∀ found, answer = .ok found →
        found.Nodup ∧ ∀ thing, thing ∈ found ↔ thing ≠ start ∧ ReflTransGen (FoldsInto foldedInto) thing start := by
  have known : ∀ one two, two ∈ foldedInto one → two ∈ things := fun one two named => finite two one named
  obtain ⟨last,ended,ran,idle,gathering⟩ :=
    foldedIntoFrom_ends known (things.length+3) 0 (Gathering.new start) (Nat.zero_le _) (Nat.lt_succ_self _)
  refine ⟨ended.finish,fun fuel enough => foldedIntoWalk_more ran enough,?_,?_⟩
  · have loops : ended.looped ≠ none ↔ LoopsOnItsWay foldedInto start := by
      rw [gathering.looped]
      constructor
      · intro closing
        exact ⟨last,closing⟩
      · intro loops
        obtain ⟨steps,closing⟩ := loops
        exact closing.last idle
    rw [←loops]
    unfold FoldedInto.finish
    cases ended.looped <;> simp
  · intro found same
    have whole : ended.found = found := by
      unfold FoldedInto.finish at same
      cases looped : ended.looped with
      | none => simpa [looped] using same
      | some things => simp [looped] at same
    subst whole
    have apart : (start :: ended.found).Nodup := by
      rw [←gathering.found,gathering.reached]
      exact met_nodup _ _
    refine ⟨(List.nodup_cons.mp apart).2,?_⟩
    have named : ∀ pair ∈ scanned foldedInto (askedBy foldedInto start last), pair.2 ∈ foldedInto pair.1 :=
      fun pair has => (mem_scanned.mp has).2
    have members : ∀ thing, thing ∈ start :: ended.found ↔ ReflTransGen (FoldsInto foldedInto) thing start := by
      intro thing
      rw [←gathering.found,gathering.reached]
      exact ⟨gathering.heard.reached named,met_complete idle⟩
    intro thing
    rw [←members,List.mem_cons]
    constructor
    · intro has
      refine ⟨?_,Or.inr has⟩
      intro same
      exact (List.nodup_cons.mp apart).1 (same ▸ has)
    · intro both
      exact both.2.resolve_left both.1

theorem loopsOnItsWay_iff (finite : ∀ folded survivor, FoldsInto foldedInto folded survivor → folded ∈ things) (start : κ) :
    LoopsOnItsWay foldedInto start ↔ ClosesOnAFirstWay foldedInto start := by
  have known : ∀ one two, two ∈ foldedInto one → two ∈ things := fun one two named => finite two one named
  have idle := askedBy_idle known start (Nat.lt_succ_self _)
  have whole := closing_on_first_way (askedBy_ordered foldedInto start (things.length+2)) idle (askedBy_met foldedInto start _)
  constructor
  · intro loops
    obtain ⟨step,closing⟩ := loops
    exact whole.mp (closing.last idle)
  · intro closes
    exact ⟨_,whole.mpr closes⟩

-- A loop is reported unless it lies across the first ways.
theorem a_loop_on_the_way_is_reported (finite : ∀ folded survivor, FoldsInto foldedInto folded survivor → folded ∈ things)
    (start : κ) :
    (∃ answer, (∃ enough, ∀ fuel, enough < fuel → foldedIntoWalk fuel start foldedInto = some answer) ∧ Reported foldedInto start answer) ↔
      (Looping foldedInto start → ClosesOnAFirstWay foldedInto start) := by
  obtain ⟨answer,ran,loops,whole⟩ := foldedIntoWalk_answers finite start
  rw [←loopsOnItsWay_iff finite start]
  constructor
  · intro reported looping
    obtain ⟨other,⟨enough,ran'⟩,tells,_⟩ := reported
    have same : answer = other := by
      have one := ran (max enough (things.length+2)+1) (by omega)
      have two := ran' (max enough (things.length+2)+1) (by omega)
      exact Option.some.inj (one.symm.trans two)
    subst same
    exact loops.mp (tells.mpr looping)
  · intro met
    refine ⟨answer,⟨_,ran⟩,?_,whole⟩
    rw [loops]
    exact ⟨LoopsOnItsWay.looping,met⟩

def beside : Nat → List Nat
  | 0 => [1,2]
  | 1 => [3]
  | 2 => [3]
  | 3 => [2]
  | _ => []

theorem a_loop_beside_the_start_is_reported :
    ∃ answer, (∃ enough, ∀ fuel, enough < fuel → foldedIntoWalk fuel 0 beside = some answer) ∧ Reported beside 0 answer := by
  have finite : ∀ folded survivor, FoldsInto beside folded survivor → folded ∈ [1,2,3] := by
    intro folded survivor named
    unfold FoldsInto beside at named
    split at named <;> simp at named <;> simp [named]
    exact named.imp_right Or.inl
  apply (a_loop_on_the_way_is_reported finite 0).mpr
  intro _
  -- Of the two ways to 3, the one through 2 is the first.
  refine ⟨3,[2,3],2,⟨by simp [Direct,beside],by decide,rfl,?_⟩,by simp [FoldsInto,beside],by decide⟩
  intro other direct _ _ sooner
  obtain ⟨lead,one,two,rest,rest',shape,shape',turns⟩ := sooner.parts
  subst shape
  have named := direct.behind.1
  rcases lead with _ | ⟨first,_ | ⟨second,lead⟩⟩
  · cases shape'
    have either : one = 1 ∨ one = 2 := by simpa [beside,wayEnd] using named
    rcases either with same | same <;> subst same <;> exact absurd turns (by decide)
  · cases shape'
    have same : one = 3 := by simpa [beside,wayEnd] using named
    subst same
    exact absurd turns (by decide)
  · simp at shape'

def across : Nat → List Nat
  | 0 => [1,2]
  | 1 => [2]
  | 2 => [1]
  | _ => []

-- Two things folded into the start and into each other: each was met from the start.
theorem a_loop_between_two_is_not_reported :
    ¬∃ answer, (∃ enough, ∀ fuel, enough < fuel → foldedIntoWalk fuel 0 across = some answer) ∧ Reported across 0 answer := by
  intro reported
  obtain ⟨answer,⟨enough,ran⟩,tells,_⟩ := reported
  have found : foldedIntoWalk 4 0 across = some (.ok [1,2]) := by decide
  have one := ran (enough+4) (by omega)
  rw [foldedIntoWalk_more found (Nat.le_add_left 4 enough)] at one
  have first : FoldsInto across 1 2 := by simp [FoldsInto,across]
  have second : FoldsInto across 2 1 := by simp [FoldsInto,across]
  have start : FoldsInto across 1 0 := by simp [FoldsInto,across]
  obtain ⟨looped,same⟩ := tells.mpr ⟨1,.single start,.head first (.single second)⟩
  rw [same] at one
  cases one

end ClaimWalk
