import Jojobot.Library.Descent
import Jojobot.Memory.Types

namespace Children
open Library Std Memory Relation

structure Entity where
  id : EntityId
  parent : Option EntityId := none
  mergedInto : Option EntityId := none
  archived : Option Text := none
deriving DecidableEq, Repr

structure ChildCounts where
  parent : EntityId
  live : Nat
  archived : Nat
  subtree : Nat
deriving DecidableEq, Repr

abbrev Index : Type := ExtTreeMap EntityId (List Entity)

-- The children of each parent; a thing folded into another is a child of nothing.
def enter (under : Index) (entity : Entity) : Index :=
  match entity.mergedInto,entity.parent with
  | none,some parent => under.insert parent ((under[parent]?.getD [])++[entity])
  | _,_ => under

def index (things : List Entity) : Index := things.foldl enter ∅

def children (under : Index) (parent : EntityId) : List Entity := under[parent]?.getD []

def countsOf (parent : EntityId) (children : List Entity) : ChildCounts :=
  let archived := children.countP (·.archived.isSome)
  ⟨parent,children.length-archived,archived,0⟩

-- The sums kept per node, and the nodes the descent stands in.
structure Descending where
  memo : ExtTreeMap EntityId (Option Nat) := ∅
  visiting : Finset EntityId := ∅

-- No sum where one side has none.
def addBelow : Option Nat → Option Nat → Option Nat
  | some sum,some below => some (sum+1+below)
  | _,_ => none

def sumChildren (descend : EntityId → Descending → Option (Option Nat × Descending)) (children : List Entity)
    (start : Option Nat × Descending) : Option (Option Nat × Descending) :=
  children.foldlM (fun (sum,descending) child => do
    let (below,descending) ← descend child.id descending
    some (addBelow sum below,descending)) start

def total (under : Index) : Nat → EntityId → Descending → Option (Option Nat × Descending)
  | 0,_,_ => none
  | fuel+1,node,descending =>
    match descending.memo[node]? with
    | some done => some (done,descending)
    | none =>
      if node ∈ descending.visiting then some (none,descending)
      else do
        let entered := { descending with visiting := insert node descending.visiting }
        let (sum,last) ← sumChildren (total under fuel) ((children under node).filter (·.archived.isNone)) (some 0,entered)
        some (sum,⟨last.memo.insert node sum,last.visiting.erase node⟩)

-- The head of the list is the top of the stack.
def walkFrom (under : Index) : Nat → Finset EntityId → List Entity → Nat → Option Nat
  | 0,_,_,_ => none
  | _+1,_,[],subtree => some subtree
  | fuel+1,seen,thing::stack,subtree =>
    if thing.archived.isSome || thing.id ∈ seen then walkFrom under fuel seen stack subtree
    else walkFrom under fuel (insert thing.id seen) ((children under thing.id).reverse++stack) (subtree+1)

def walk (things : List Entity) (parent : EntityId) (children : List Entity) (under : Index) : Option Nat :=
  walkFrom under (things.length+1) {parent} children.reverse 0

-- One parent's counts: only its own descent is walked.
def ChildCounts.of (things : List Entity) (parent : EntityId) : Option ChildCounts := do
  let under := index things
  let subtree ← walk things parent (children under parent) under
  some { countsOf parent (children under parent) with subtree := subtree }

def countParent (things : List Entity) (counted : ExtTreeMap EntityId ChildCounts × Descending) (parent : EntityId) :
    Option (ExtTreeMap EntityId ChildCounts × Descending) := do
  let under := index things
  let (sum,descending) ← total under (2*things.length+1) parent counted.2
  let subtree ← match sum with
    | some sum => some sum
    | none => walk things parent (children under parent) under
  some (counted.1.insert parent { countsOf parent (children under parent) with subtree := subtree },descending)

-- Every parent's counts from one pass, the parents in the order the map hands them out.
def ChildCounts.all (things : List Entity) (order : List EntityId) : Option (ExtTreeMap EntityId ChildCounts) :=
  (order.foldlM (countParent things) (∅,{})).map (·.1)

example : (ChildCounts.all [⟨"a".toList,none,none,none⟩,⟨"b".toList,some "a".toList,none,none⟩] ["a".toList]).map
    (·[("a".toList : EntityId)]?) = some (some ⟨"a".toList,1,0,1⟩) := by decide +kernel

variable {things : List Entity} {parent a b x : EntityId} {e : Entity}

def childrenIn (things : List Entity) (parent : EntityId) : List Entity :=
  things.filter fun e => e.mergedInto.isNone && e.parent = some parent

def liveKids (things : List Entity) (parent : EntityId) : List EntityId :=
  ((childrenIn things parent).filter (·.archived.isNone)).map (·.id)

theorem mem_childrenIn : e ∈ childrenIn things a ↔ e ∈ things ∧ e.mergedInto = none ∧ e.parent = some a := by
  simp [childrenIn]

theorem index_entries (things : List Entity) (parent : EntityId) :
    (index things)[parent]? = if childrenIn things parent = [] then none else some (childrenIn things parent) := by
  induction things using List.reverseRecOn with
  | nil => simp [index,childrenIn]
  | append_singleton things e ih =>
    have more : childrenIn (things++[e]) parent = childrenIn things parent++
        if e.mergedInto.isNone && e.parent = some parent then [e] else [] := by
      unfold childrenIn
      rw [List.filter_append]
      rw [List.filter_cons,List.filter_nil]
    have step : index (things++[e]) = enter (index things) e := by simp [index]
    rw [more,step]
    unfold enter
    cases folded : e.mergedInto with
    | some into => simpa [folded] using ih
    | none =>
      cases own : e.parent with
      | none => simpa [folded,own] using ih
      | some p =>
        simp only
        rw [ExtTreeMap.getElem?_insert]
        by_cases same : p = parent
        · subst same
          by_cases empty : childrenIn things p = [] <;> simp [ih,empty]
        · have apart : compare p parent ≠ .eq := fun equal => same (LawfulEqOrd.eq_of_compare equal)
          simpa [apart,same] using ih

theorem children_index (things : List Entity) (parent : EntityId) : children (index things) parent = childrenIn things parent := by
  unfold children
  rw [index_entries]
  by_cases empty : childrenIn things parent = [] <;> simp [empty]

theorem mem_index : parent ∈ (index things).keys ↔ ∃ e ∈ things, e.mergedInto = none ∧ e.parent = some parent := by
  rw [ExtTreeMap.mem_keys,ExtTreeMap.mem_iff_isSome_getElem?,index_entries]
  by_cases empty : childrenIn things parent = []
  · simp only [empty,if_true,Option.isSome_none,Bool.false_eq_true,false_iff]
    intro found
    obtain ⟨e,inside,unfolded,under⟩ := found
    have child := mem_childrenIn.mpr ⟨inside,unfolded,under⟩
    rw [empty] at child
    cases child
  · rw [if_neg empty]
    obtain ⟨e,child⟩ := List.exists_mem_of_ne_nil _ empty
    simp only [Option.isSome_some,true_iff]
    exact ⟨e,mem_childrenIn.mp child⟩

theorem mem_liveKids : b ∈ liveKids things a ↔ ∃ e ∈ childrenIn things a, e.archived = none ∧ e.id = b := by
  simp [liveKids,and_assoc]

def Distinct (things : List Entity) : Prop := (things.map (·.id)).Nodup

theorem Distinct.same (distinct : Distinct things) {d : Entity} (inE : e ∈ things) (inD : d ∈ things) (same : e.id = d.id) : e = d :=
  List.inj_on_of_nodup_map distinct inE inD same

theorem liveKids_forest (distinct : Distinct things) : Forest (liveKids things) where
  once a := by
    have fewer : ((childrenIn things a).filter (·.archived.isNone)).Sublist things := List.filter_sublist.trans List.filter_sublist
    exact distinct.sublist (fewer.map _)
  single a b x inA inB := by
    obtain ⟨e,childE,_,idE⟩ := mem_liveKids.mp inA
    obtain ⟨d,childD,_,idD⟩ := mem_liveKids.mp inB
    obtain ⟨inE,_,underA⟩ := mem_childrenIn.mp childE
    obtain ⟨inD,_,underB⟩ := mem_childrenIn.mp childD
    obtain rfl := distinct.same inE inD (idE.trans idD.symm)
    exact Option.some.inj (underA.symm.trans underB)

-- A walk under way: what it has seen is reached, and what it has still to see is stacked.
structure Walking (things : List Entity) (parent : EntityId) (seen : Finset EntityId) (stack : List Entity) : Prop where
  start : parent ∈ seen
  reached : ∀ x ∈ seen, x = parent ∨ TransGen (Below (liveKids things)) parent x
  stacked : ∀ e ∈ stack, ∃ a ∈ seen, e ∈ childrenIn things a
  closed : ∀ a ∈ seen, ∀ e ∈ childrenIn things a, e ∈ stack ∨ e.archived.isSome = true ∨ e.id ∈ seen

-- The children no walk has stacked yet.
def pending (things : List Entity) (seen : Finset EntityId) : Nat :=
  things.countP fun e => e.mergedInto.isNone && e.parent.any (· ∉ seen)

theorem pending_insert (things : List Entity) {seen : Finset EntityId} (fresh : a ∉ seen) :
    (childrenIn things a).length+pending things (insert a seen) = pending things seen := by
  unfold childrenIn pending
  induction things with
  | nil => rfl
  | cons e things ih =>
    rw [List.filter_cons,List.countP_cons,List.countP_cons,← ih]
    cases folded : e.mergedInto with
    | some into => simp
    | none =>
      cases own : e.parent with
      | none => simp
      | some p =>
        by_cases same : p = a
        · subst same
          simp [fresh]
          omega
        · by_cases known : p ∈ seen
          · simp [same,known]
          · simp [same,known]
            omega

theorem Walking.seen_everything {seen : Finset EntityId} (walking : Walking things parent seen []) :
    ↑seen = insert parent (Reached (liveKids things) parent) := by
  have onward : ∀ x, TransGen (Below (liveKids things)) parent x → x ∈ seen := by
    intro x reached
    have step (a b : EntityId) (inA : a ∈ seen) (under : Below (liveKids things) a b) : b ∈ seen := by
      obtain ⟨e,child,live,rfl⟩ := mem_liveKids.mp under
      rcases walking.closed a inA e child with waiting | hidden | known
      · cases waiting
      · simp [live] at hidden
      · exact known
    induction reached with
    | single under => exact step _ _ walking.start under
    | tail _ under ih => exact step _ _ ih under
  ext x
  simp only [Finset.mem_coe,Set.mem_insert_iff,Reached,Set.mem_ofPred_eq]
  constructor
  · intro inside
    rcases walking.reached x inside with same | reached
    · exact Or.inl same
    · by_cases same : x = parent
      · exact Or.inl same
      · exact Or.inr ⟨reached,same⟩
  · intro either
    rcases either with rfl | both
    · exact walking.start
    · exact onward x both.1

theorem walkFrom_counts {fuel n : Nat} {seen : Finset EntityId} {stack : List Entity} (walking : Walking things parent seen stack)
    (enough : stack.length+pending things seen < fuel) :
    ∃ m, walkFrom (index things) fuel seen stack n = some m ∧ m+seen.card = n+(Reached (liveKids things) parent).ncard+1 := by
  induction fuel generalizing seen stack n with
  | zero => omega
  | succ fuel ih =>
    cases stack with
    | nil =>
      refine ⟨n,rfl,?_⟩
      have fresh : parent ∉ Reached (liveKids things) parent := fun inside => inside.2 rfl
      have all := walking.seen_everything
      have finite : (Reached (liveKids things) parent).Finite :=
        seen.finite_toSet.subset (by rw [all]; exact Set.subset_insert _ _)
      have count := Set.ncard_insert_of_notMem fresh finite
      rw [← all,Set.ncard_coe_finset] at count
      omega
    | cons thing stack =>
      rw [List.length_cons] at enough
      unfold walkFrom
      split
      · rename_i skipped
        simp only [Bool.or_eq_true,decide_eq_true_eq] at skipped
        refine ih ⟨walking.start,walking.reached,fun e inside => walking.stacked e (List.mem_cons_of_mem _ inside),?_⟩ (by omega)
        intro a inA e child
        rcases walking.closed a inA e child with waiting | rest
        · rcases List.mem_cons.mp waiting with rfl | waiting
          · exact Or.inr skipped
          · exact Or.inl waiting
        · exact Or.inr rest
      · rename_i fresh
        simp only [Bool.or_eq_true,decide_eq_true_eq,not_or,Option.isSome_iff_ne_none,not_not] at fresh
        obtain ⟨live,unseen⟩ := fresh
        obtain ⟨a,inA,child⟩ := walking.stacked thing List.mem_cons_self
        have below : Below (liveKids things) a thing.id := mem_liveKids.mpr ⟨thing,child,live,rfl⟩
        have left := pending_insert things unseen
        have onward : Walking things parent (insert thing.id seen) ((children (index things) thing.id).reverse++stack) := by
          refine ⟨Finset.mem_insert_of_mem walking.start,?_,?_,?_⟩
          · intro x inside
            rcases Finset.mem_insert.mp inside with rfl | inside
            · right
              rcases walking.reached a inA with rfl | reached
              · exact TransGen.single below
              · exact reached.tail below
            · exact walking.reached x inside
          · intro e inside
            rcases List.mem_append.mp inside with inside | inside
            · rw [List.mem_reverse,children_index] at inside
              exact ⟨thing.id,Finset.mem_insert_self _ _,inside⟩
            · obtain ⟨b,inB,childB⟩ := walking.stacked e (List.mem_cons_of_mem _ inside)
              exact ⟨b,Finset.mem_insert_of_mem inB,childB⟩
          · intro b inB e childE
            rcases Finset.mem_insert.mp inB with rfl | inB
            · exact Or.inl (List.mem_append_left _ (by rwa [List.mem_reverse,children_index]))
            · rcases walking.closed b inB e childE with waiting | hidden | known
              · rcases List.mem_cons.mp waiting with rfl | waiting
                · exact Or.inr (Or.inr (Finset.mem_insert_self _ _))
                · exact Or.inl (List.mem_append_right _ waiting)
              · exact Or.inr (Or.inl hidden)
              · exact Or.inr (Or.inr (Finset.mem_insert_of_mem known))
        obtain ⟨m,ran,count⟩ := @ih (n+1) _ _ onward (by
          rw [List.length_append,List.length_reverse,children_index]
          omega)
        refine ⟨m,ran,?_⟩
        rw [Finset.card_insert_of_notMem unseen] at count
        omega

theorem walk_counts (things : List Entity) (parent : EntityId) :
    walk things parent (childrenIn things parent) (index things) = some (Reached (liveKids things) parent).ncard := by
  have first : Walking things parent {parent} (childrenIn things parent).reverse := by
    refine ⟨Finset.mem_singleton_self _,fun x inside => Or.inl (Finset.mem_singleton.mp inside),?_,?_⟩
    · intro e inside
      rw [List.mem_reverse] at inside
      exact ⟨parent,Finset.mem_singleton_self _,inside⟩
    · intro a inside e child
      obtain rfl := Finset.mem_singleton.mp inside
      exact Or.inl (List.mem_reverse.mpr child)
  have few : (childrenIn things parent).length+pending things {parent} ≤ things.length := by
    have split := pending_insert things (Finset.notMem_empty parent)
    rw [insert_empty_eq] at split
    rw [split]
    exact List.countP_le_length
  obtain ⟨m,ran,count⟩ := @walkFrom_counts _ _ (things.length+1) 0 _ _ first (by
    rw [List.length_reverse]
    omega)
  rw [Finset.card_singleton] at count
  rw [walk,ran]
  exact congrArg some (by omega)

-- The sums kept are those of descents that end.
def Kept (things : List Entity) (memo : ExtTreeMap EntityId (Option Nat)) : Prop :=
  ∀ a n, memo[a]? = some (some n) → ∃ below, Listed (liveKids things) a below ∧ below.length = n

-- What one descent does: it answers, leaves the nodes it stands in as they were, and a sum it gives is right.
def Descends (things : List Entity) (visiting : Finset EntityId) (node : EntityId)
    (answer : Option (Option Nat × Descending)) : Prop :=
  ∃ sum last, answer = some (sum,last) ∧ last.visiting = visiting ∧ Kept things last.memo ∧
    ∀ n, sum = some n → ∃ below, Listed (liveKids things) node below ∧ below.length = n

theorem sumChildren_runs {descend : EntityId → Descending → Option (Option Nat × Descending)} {visiting : Finset EntityId}
    {kids : List Entity} (each : ∀ child ∈ kids, ∀ descending : Descending, descending.visiting = visiting →
      Kept things descending.memo → Descends things visiting child.id (descend child.id descending))
    {start : Option Nat} {descending : Descending} (stands : descending.visiting = visiting) (kept : Kept things descending.memo) :
    ∃ sum last, sumChildren descend kids (start,descending) = some (sum,last) ∧ last.visiting = visiting ∧
      Kept things last.memo ∧ ∀ n, sum = some n → ∃ (m : Nat) (below : EntityId → List EntityId), start = some m ∧
        (∀ child ∈ kids, Listed (liveKids things) child.id (below child.id)) ∧
        n = m+(kids.flatMap fun child => child.id :: below child.id).length := by
  induction kids generalizing start descending with
  | nil =>
    refine ⟨start,descending,rfl,stands,kept,fun n same => ⟨n,fun _ => [],same,by simp,by simp⟩⟩
  | cons child kids ih =>
    obtain ⟨below,next,ran,standsNext,keptNext,summed⟩ := each child List.mem_cons_self descending stands kept
    obtain ⟨sum,last,ranRest,standsLast,keptLast,summedRest⟩ := @ih
      (fun other inside => each other (List.mem_cons_of_mem _ inside)) (addBelow start below) next standsNext keptNext
    refine ⟨sum,last,?_,standsLast,keptLast,?_⟩
    · unfold sumChildren at ranRest ⊢
      rw [List.foldlM_cons]
      simp only [ran,bind,Option.bind]
      exact ranRest
    · intro n same
      obtain ⟨m,lists,startRest,listed,count⟩ := summedRest n same
      cases start with
      | none => simp [addBelow] at startRest
      | some s =>
        cases below with
        | none => simp [addBelow] at startRest
        | some b =>
          obtain ⟨list,listedFirst,length⟩ := summed b rfl
          have added : s+1+b = m := Option.some.inj startRest
          refine ⟨s,fun x => if x = child.id then list else lists x,rfl,?_,?_⟩
          · intro other inside
            dsimp only
            by_cases same : other.id = child.id
            · rw [if_pos same,same]
              exact listedFirst
            · rw [if_neg same]
              rcases List.mem_cons.mp inside with rfl | inside
              · exact absurd rfl same
              · exact listed other inside
          · have rest : (kids.flatMap fun other => other.id :: if other.id = child.id then list else lists other.id) =
                kids.flatMap fun other => other.id :: lists other.id := by
              apply List.flatMap_congr
              intro other inside
              by_cases same : other.id = child.id
              · have again := listed other inside
                rw [if_pos same]
                rw [same] at again ⊢
                rw [listedFirst.unique again]
              · rw [if_neg same]
            simp only [List.flatMap_cons,rest,List.length_append,if_true,List.length_cons,length]
            omega

def nodes (things : List Entity) : Finset EntityId := (things.map (·.id)++things.filterMap (·.parent)).toFinset

theorem nodes_card (things : List Entity) : (nodes things).card ≤ 2*things.length := by
  have long := List.toFinset_card_le (things.map (·.id)++things.filterMap (·.parent))
  have parents := List.length_filterMap_le (·.parent) things
  rw [List.length_append,List.length_map] at long
  unfold nodes
  omega

-- Each call stands in one node more, and the nodes are the inventory's, so the descent ends.
theorem total_runs {fuel : Nat} {node : EntityId} {descending : Descending} (kept : Kept things descending.memo)
    (within : descending.visiting ⊆ nodes things) (inside : node ∈ nodes things)
    (enough : (nodes things).card < fuel+descending.visiting.card) :
    Descends things descending.visiting node (total (index things) fuel node descending) := by
  induction fuel generalizing node descending with
  | zero =>
    have most := Finset.card_le_card within
    omega
  | succ fuel ih =>
    unfold total
    cases known : descending.memo[node]? with
    | some done =>
      refine ⟨done,descending,rfl,rfl,kept,fun n same => ?_⟩
      subst same
      exact kept node n known
    | none =>
      by_cases standing : node ∈ descending.visiting
      · simp only [if_pos standing]
        exact ⟨none,descending,rfl,rfl,kept,fun n same => by cases same⟩
      · simp only [if_neg standing]
        have entered : insert node descending.visiting ⊆ nodes things := Finset.insert_subset inside within
        have card := Finset.card_insert_of_notMem standing
        obtain ⟨sum,last,ran,stands,keptLast,summed⟩ := @sumChildren_runs things (total (index things) fuel)
          (insert node descending.visiting) ((children (index things) node).filter (·.archived.isNone)) (by
            intro child member other stands keptOther
            rw [children_index] at member
            have listed := (mem_childrenIn.mp (List.mem_filter.mp member).1).1
            have childIn : child.id ∈ nodes things := by
              unfold nodes
              rw [List.mem_toFinset]
              exact List.mem_append_left _ (List.mem_map_of_mem listed)
            rw [← stands] at entered card ⊢
            exact ih keptOther entered childIn (by omega)) (some 0)
          ⟨descending.memo,insert node descending.visiting⟩ rfl kept
        have right : ∀ n, sum = some n → ∃ below, Listed (liveKids things) node below ∧ below.length = n := by
          intro n same
          obtain ⟨m,below,first,listed,count⟩ := summed n same
          cases first
          refine ⟨(liveKids things node).flatMap fun b => b :: below b,Listed.node below ?_,?_⟩
          · intro b child
            obtain ⟨e,inE,live,rfl⟩ := mem_liveKids.mp child
            refine listed e (List.mem_filter.mpr ⟨?_,by simp [live]⟩)
            rwa [children_index]
          · rw [count,children_index,liveKids,List.flatMap_map]
            omega
        refine ⟨sum,⟨last.memo.insert node sum,last.visiting.erase node⟩,?_,?_,?_,right⟩
        · simp only [ran,bind,Option.bind]
        · rw [stands]
          exact Finset.erase_insert standing
        · intro a n found
          rw [ExtTreeMap.getElem?_insert] at found
          split at found
          · rename_i same
            obtain rfl := LawfulEqOrd.eq_of_compare same
            exact right n (Option.some.inj found)
          · exact keptLast a n found

noncomputable def Counted (things : List Entity) (parent : EntityId) : ChildCounts :=
  { countsOf parent (childrenIn things parent) with subtree := (Reached (liveKids things) parent).ncard }

theorem of_counted (things : List Entity) (parent : EntityId) : ChildCounts.of things parent = some (Counted things parent) := by
  unfold ChildCounts.of Counted
  simp only [children_index,walk_counts,bind,Option.bind]

theorem countParent_runs (distinct : Distinct things) {found : ExtTreeMap EntityId ChildCounts} {descending : Descending}
    (kept : Kept things descending.memo) (idle : descending.visiting = ∅) (inside : parent ∈ nodes things) :
    ∃ after : Descending, countParent things (found,descending) parent = some (found.insert parent (Counted things parent),after) ∧
      after.visiting = ∅ ∧ Kept things after.memo := by
  have few := nodes_card things
  obtain ⟨sum,last,ran,stands,keptLast,summed⟩ := @total_runs things (2*things.length+1) parent descending kept
    (by rw [idle]; exact Finset.empty_subset _) inside (by omega)
  refine ⟨last,?_,stands.trans idle,keptLast⟩
  unfold countParent Counted
  simp only [ran,bind,Option.bind]
  cases sum with
  | none => simp only [walk_counts,children_index]
  | some n =>
    obtain ⟨below,listed,length⟩ := summed n rfl
    rw [← listed.count (liveKids_forest distinct),length]
    simp only [children_index]

theorem countParents_run (distinct : Distinct things) {order : List EntityId} (inside : ∀ parent ∈ order, parent ∈ nodes things)
    {found : ExtTreeMap EntityId ChildCounts} {descending : Descending} (kept : Kept things descending.memo)
    (idle : descending.visiting = ∅) :
    ∃ all after, order.foldlM (countParent things) (found,descending) = some (all,after) ∧
      ∀ parent, all[parent]? = if parent ∈ order then some (Counted things parent) else found[parent]? := by
  induction order generalizing found descending with
  | nil => exact ⟨found,descending,rfl,by simp⟩
  | cons first order ih =>
    obtain ⟨next,ran,stands,keptNext⟩ := @countParent_runs _ _ distinct found _ kept idle (inside first List.mem_cons_self)
    obtain ⟨all,after,ranRest,entries⟩ := @ih (fun parent later => inside parent (List.mem_cons_of_mem _ later))
      (found.insert first (Counted things first)) next keptNext stands
    refine ⟨all,after,?_,fun parent => ?_⟩
    · rw [List.foldlM_cons,ran]
      exact ranRest
    · rw [entries,ExtTreeMap.getElem?_insert]
      by_cases same : first = parent
      · subst same
        simp
      · have apart : compare first parent ≠ .eq := fun equal => same (LawfulEqOrd.eq_of_compare equal)
        simp [apart,Ne.symm same]

theorem counts_in_one_pass (distinct : Distinct things) {order : List EntityId} (handed : order.Perm (index things).keys) :
    ∃ found, ChildCounts.all things order = some found ∧
      (∀ parent, parent ∈ found ↔ ∃ e ∈ things, e.mergedInto = none ∧ e.parent = some parent) ∧
      (∀ parent counts, found[parent]? = some counts → ChildCounts.of things parent = some counts) ∧
      ∀ parent, ∃ counts, ChildCounts.of things parent = some counts ∧
        counts.subtree = {x | TransGen (fun a b => ∃ e ∈ things, e.id = b ∧ e.parent = some a ∧ e.mergedInto = none ∧
          e.archived = none) parent x ∧ x ≠ parent}.ncard := by
  have inside : ∀ parent ∈ order, parent ∈ nodes things := by
    intro parent member
    obtain ⟨e,inThings,_,under⟩ := mem_index.mp (handed.mem_iff.mp member)
    unfold nodes
    rw [List.mem_toFinset]
    exact List.mem_append_right _ (List.mem_filterMap.mpr ⟨e,inThings,under⟩)
  have start : Kept things (∅ : ExtTreeMap EntityId (Option Nat)) := by
    intro a n found
    simp at found
  obtain ⟨found,after,ran,entries⟩ := @countParents_run _ distinct order inside ∅ {} start rfl
  refine ⟨found,?_,?_,?_,?_⟩
  · rw [ChildCounts.all,ran]
    rfl
  · intro parent
    rw [← mem_index,← handed.mem_iff,ExtTreeMap.mem_iff_isSome_getElem?,entries]
    by_cases member : parent ∈ order <;> simp [member]
  · intro parent counts same
    rw [of_counted,← same,entries]
    rw [entries] at same
    by_cases member : parent ∈ order
    · rw [if_pos member]
    · simp [member] at same
  · intro parent
    refine ⟨Counted things parent,of_counted things parent,?_⟩
    have steps : Below (liveKids things) = fun a b => ∃ e ∈ things, e.id = b ∧ e.parent = some a ∧ e.mergedInto = none ∧
        e.archived = none := by
      funext a b
      unfold Below
      rw [mem_liveKids,eq_iff_iff]
      constructor
      · intro found
        obtain ⟨e,child,live,same⟩ := found
        obtain ⟨inThings,unfolded,under⟩ := mem_childrenIn.mp child
        exact ⟨e,inThings,same,under,unfolded,live⟩
      · intro found
        obtain ⟨e,inThings,same,under,unfolded,live⟩ := found
        exact ⟨e,mem_childrenIn.mpr ⟨inThings,unfolded,under⟩,live,same⟩
    rw [← steps]
    rfl

-- Two things that are each the other's parent, and one below them.
def looped : List Entity :=
  [⟨"a".toList,some "b".toList,none,none⟩,⟨"b".toList,some "a".toList,none,none⟩,⟨"c".toList,some "b".toList,none,none⟩]

theorem a_loop_is_counted : ∃ found, ChildCounts.all looped ["b".toList,"a".toList] = some found ∧
    found["b".toList]? = ChildCounts.of looped "b".toList := by
  obtain ⟨found,ran,member,same,_⟩ := @counts_in_one_pass looped (by unfold Distinct; decide)
    ["b".toList,"a".toList] (by decide +kernel)
  refine ⟨found,ran,?_⟩
  have held : "b".toList ∈ found := (member _).mpr ⟨⟨"a".toList,some "b".toList,none,none⟩,by simp [looped],rfl,rfl⟩
  obtain ⟨counts,entry⟩ := Option.isSome_iff_exists.mp (ExtTreeMap.mem_iff_isSome_getElem?.mp held)
  rw [entry,same _ _ entry]

end Children
