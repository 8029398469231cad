import Jojobot.Session.DeferredCounts
import Mathlib

namespace Counting
open Library

variable {κ δ ω σ α : Type} {port : Port κ δ ω σ α} {counts after now : Counts κ δ ω α} {act : Act κ δ ω}
  {queue rest : List (Work κ δ)} {log front back : List (Entry κ δ ω)} {done : List (Item κ δ)} {item : Item κ δ}
  {callers others : List (Caller κ δ)} {caller : Caller κ δ} {outcome : Outcome} {i : Nat}

@[simp] theorem appliedIn_append : appliedIn (front++back) = appliedIn front++appliedIn back := List.filterMap_append
@[simp] theorem appliedIn_applied : appliedIn [(.applied item outcome : Entry κ δ ω)] = [item] := rfl
@[simp] theorem appliedIn_reset (id : Text) : appliedIn [(.reset id done : Entry κ δ ω)] = [] := rfl
@[simp] theorem appliedIn_other (write : ω) : appliedIn [(.other write : Entry κ δ ω)] = [] := rfl

@[simp] theorem pendingIn_nil : pendingIn ([] : List (Work κ δ)) = [] := rfl
@[simp] theorem pendingIn_item : pendingIn (.item item::queue) = item::pendingIn queue := rfl
@[simp] theorem pendingIn_settle : pendingIn (.settle i::queue) = pendingIn queue := rfl
@[simp] theorem pendingIn_append : pendingIn (queue++rest) = pendingIn queue++pendingIn rest := List.filterMap_append

-- A caller that waits on the lane waits behind all that was accepted before it called.
def Behind (callers : List (Caller κ δ)) : List (Item κ δ) → List (Work κ δ) → Prop
  | _,[] => True
  | done,.item item::queue => Behind callers (done++[item]) queue
  | done,.settle i::queue =>
    (∃ caller, callers[i]? = some caller ∧ caller.asks.waits = true ∧ caller.before <+: done) ∧ Behind callers done queue

theorem Behind.item_last (behind : Behind callers done queue) : Behind callers done (queue++[.item item]) := by
  induction queue generalizing done with
  | nil => trivial
  | cons work queue ih =>
    cases work with
    | item first => exact @ih (done++[first]) behind
    | settle i => exact ⟨behind.1,ih behind.2⟩

theorem Behind.settle_last (behind : Behind callers done queue)
    (last : ∃ caller, callers[i]? = some caller ∧ caller.asks.waits = true ∧ caller.before <+: done++pendingIn queue) :
    Behind callers done (queue++[.settle i]) := by
  induction queue generalizing done with
  | nil => exact ⟨by simpa using last,trivial⟩
  | cons work queue ih =>
    cases work with
    | item first =>
      refine @ih (done++[first]) behind ?_
      simpa using last
    | settle j => exact ⟨behind.1,ih behind.2 last⟩

-- Who each caller is does not change, whatever its phase becomes.
def Known (callers others : List (Caller κ δ)) : Prop :=
  ∀ (i : Nat) (caller : Caller κ δ), callers[i]? = some caller →
    ∃ other, others[i]? = some other ∧ other.asks = caller.asks ∧ other.before = caller.before

theorem Behind.stays (behind : Behind callers done queue) (known : Known callers others) : Behind others done queue := by
  induction queue generalizing done with
  | nil => trivial
  | cons work queue ih =>
    cases work with
    | item first => exact @ih (done++[first]) behind
    | settle j =>
      obtain ⟨⟨caller,found,waits,before⟩,later⟩ := behind
      obtain ⟨other,there,asks,same⟩ := known j caller found
      exact ⟨⟨other,there,by rw [asks]; exact waits,by rw [same]; exact before⟩,ih later⟩

theorem known_more (callers : List (Caller κ δ)) (caller : Caller κ δ) : Known callers (callers++[caller]) := by
  intro i one found
  have inside : i < callers.length := (List.getElem?_eq_some_iff.mp found).1
  exact ⟨one,by rw [List.getElem?_append_left inside,found],rfl,rfl⟩

theorem setPhase_get (found : counts.callers[i]? = some caller) (phase : Phase) (j : Nat) :
    (counts.setPhase i caller phase)[j]? = if j = i then some { caller with phase } else counts.callers[j]? := by
  have inside : i < counts.callers.length := (List.getElem?_eq_some_iff.mp found).1
  unfold Counts.setPhase
  rw [List.getElem?_set]
  by_cases same : i = j
  · subst same
    simp [inside]
  · rw [if_neg same,if_neg fun back => same back.symm]

theorem known_setPhase (found : counts.callers[i]? = some caller) (phase : Phase) :
    Known counts.callers (counts.setPhase i caller phase) := by
  intro j one there
  rw [setPhase_get found]
  split
  · rename_i same
    subst same
    obtain rfl := Option.some.inj (found.symm.trans there)
    exact ⟨_,rfl,rfl,rfl⟩
  · exact ⟨one,there,rfl,rfl⟩

-- A caller past its wait has seen all that was accepted before it called.
def Answerable (done : List (Item κ δ)) (caller : Caller κ δ) : Prop :=
  caller.phase = .settled → caller.asks.waits = true ∧ caller.before <+: done

structure Kept (port : Port κ δ ω σ α) (counts : Counts κ δ ω α) : Prop where
  once : counts.accepted = appliedIn counts.log++pendingIn counts.queue
  closed : counts.lane = none → counts.accepted = []
  before : ∀ caller ∈ counts.callers, caller.before <+: counts.accepted
  settled : ∀ caller ∈ counts.callers, Answerable (appliedIn counts.log) caller
  behind : Behind counts.callers (appliedIn counts.log) counts.queue
  resets : ∀ front id before back, counts.log = front++.reset id before::back → before <+: appliedIn front
  answers : ∀ one ∈ counts.answers, one.log <+: counts.log ∧ one.answer = port.read one.read (port.after one.log) ∧
    ((Ask.read one.read).waits = true → one.before <+: appliedIn one.log)

theorem fresh_kept : Kept port fresh where
  once := rfl
  closed := fun _ => rfl
  before := by
    intro caller mem
    cases mem
  settled := by
    intro caller mem
    cases mem
  behind := trivial
  resets := by
    intro front id before back same
    cases front <;> cases same
  answers := by
    intro one mem
    cases mem

theorem mem_setPhase {one : Caller κ δ} {phase : Phase} (mem : one ∈ counts.setPhase i caller phase) :
    one ∈ counts.callers ∨ one = { caller with phase } := List.mem_or_eq_of_mem_set mem

theorem accept_kept (kept : Kept port counts) (item : Item κ δ) : Kept port (counts.accept item) where
  once := by
    simp only [Counts.accept,Counts.queue,Option.getD_some,pendingIn_append,kept.once]
    simp
  closed := by
    intro none
    cases none
  before := fun caller mem => (kept.before caller mem).trans (List.prefix_append _ _)
  settled := kept.settled
  behind := kept.behind.item_last
  resets := kept.resets
  answers := kept.answers

theorem call_kept (kept : Kept port counts) (ask : Ask) :
    Kept port { counts with callers := counts.callers++[⟨ask,counts.accepted,.called⟩] } where
  once := kept.once
  closed := kept.closed
  before := by
    intro caller mem
    rcases List.mem_append.mp mem with old | new
    · exact kept.before caller old
    · obtain rfl := List.mem_singleton.mp new
      exact List.prefix_rfl
  settled := by
    intro caller mem
    rcases List.mem_append.mp mem with old | new
    · exact kept.settled caller old
    · obtain rfl := List.mem_singleton.mp new
      intro phase
      cases phase
  behind := kept.behind.stays (known_more _ _)
  resets := kept.resets
  answers := kept.answers

-- A caller steps on, and nothing else of the state is its own.
theorem setPhase_kept (kept : Kept port counts) (found : counts.callers[i]? = some caller) (phase : Phase)
    (answerable : Answerable (appliedIn counts.log) { caller with phase }) :
    Kept port { counts with callers := counts.setPhase i caller phase } where
  once := kept.once
  closed := kept.closed
  before := by
    intro one mem
    rcases mem_setPhase mem with old | rfl
    · exact kept.before one old
    · exact kept.before caller (List.mem_of_getElem? found)
  settled := by
    intro one mem
    rcases mem_setPhase mem with old | rfl
    · exact kept.settled one old
    · exact answerable
  behind := kept.behind.stays (known_setPhase found phase)
  resets := kept.resets
  answers := kept.answers

theorem push_kept (kept : Kept port counts) (lane : counts.lane = some queue) (found : counts.callers[i]? = some caller)
    (waits : caller.asks.waits = true) : Kept port { counts with lane := some (queue++[.settle i]) } := by
  have queued : counts.queue = queue := by simp [Counts.queue,lane]
  have once := kept.once
  have behind := kept.behind
  rw [queued] at once behind
  refine ⟨?_,?_,kept.before,kept.settled,?_,kept.resets,kept.answers⟩
  · simpa [Counts.queue] using once
  · intro none
    cases none
  · refine behind.settle_last ⟨caller,found,waits,?_⟩
    rw [← once]
    exact kept.before caller (List.mem_of_getElem? found)

-- A list with one more at its end is parted before the end, or there.
theorem snoc_parted {β : Type} {items front back : List β} {last one : β} (same : items++[last] = front++one::back) :
    (items = front ∧ last = one) ∨ ∃ rest, items = front++one::rest := by
  rcases List.eq_nil_or_concat back with rfl | ⟨rest,end',rfl⟩
  · obtain ⟨items,last⟩ := List.append_inj' same rfl
    exact Or.inl ⟨items,by simpa using last⟩
  · have parted : items++[last] = (front++one::rest)++[end'] := by simpa using same
    exact Or.inr ⟨rest,(List.append_inj' parted rfl).1⟩

theorem resets_more {entry : Entry κ δ ω}
    (resets : ∀ front id before back, log = front++.reset id before::back → before <+: appliedIn front)
    (last : ∀ id before, entry = .reset id before → before <+: appliedIn log) :
    ∀ front id before back, log++[entry] = front++.reset id before::back → before <+: appliedIn front := by
  intro front id before back same
  rcases snoc_parted same with ⟨rfl,is⟩ | ⟨rest,shape⟩
  · exact last id before is
  · exact resets front id before rest shape

theorem answers_more {entry : Entry κ δ ω} {one : Answered κ δ ω α} (kept : one.log <+: counts.log) : one.log <+: counts.log++[entry] :=
  kept.trans (List.prefix_append _ _)

-- A write around the lane, which applies nothing the lane holds.
theorem around_kept (kept : Kept port counts) (entry : Entry κ δ ω) (nothing : appliedIn [entry] = [])
    (last : ∀ id before, entry = .reset id before → before <+: appliedIn counts.log) :
    Kept port { counts with log := counts.log++[entry] } := by
  have same : appliedIn (counts.log++[entry]) = appliedIn counts.log := by rw [appliedIn_append,nothing,List.append_nil]
  refine ⟨?_,kept.closed,kept.before,?_,?_,resets_more kept.resets last,?_⟩
  · change counts.accepted = appliedIn (counts.log++[entry])++pendingIn counts.queue
    rw [same]
    exact kept.once
  · change ∀ caller ∈ counts.callers, Answerable (appliedIn (counts.log++[entry])) caller
    rw [same]
    exact kept.settled
  · change Behind counts.callers (appliedIn (counts.log++[entry])) counts.queue
    rw [same]
    exact kept.behind
  · intro one mem
    obtain ⟨within,facts⟩ := kept.answers one mem
    exact ⟨answers_more within,facts⟩

theorem applied_kept (kept : Kept port counts) (lane : counts.lane = some (.item item::rest)) :
    Kept port { counts with lane := some rest, log := counts.log++[.applied item outcome] } := by
  have queued : counts.queue = .item item::rest := by simp [Counts.queue,lane]
  have once := kept.once
  have behind := kept.behind
  rw [queued] at once behind
  have more : appliedIn counts.log <+: appliedIn (counts.log++[.applied item outcome]) := by simp
  refine ⟨?_,?_,kept.before,?_,?_,resets_more kept.resets (by simp),?_⟩
  · simpa [Counts.queue] using once
  · intro none
    cases none
  · intro caller mem phase
    obtain ⟨waits,before⟩ := kept.settled caller mem phase
    exact ⟨waits,before.trans more⟩
  · change Behind counts.callers (appliedIn (counts.log++[.applied item outcome])) rest
    rw [appliedIn_append,appliedIn_applied]
    exact behind
  · intro one mem
    obtain ⟨within,facts⟩ := kept.answers one mem
    exact ⟨answers_more within,facts⟩

theorem settled_kept (kept : Kept port counts) (lane : counts.lane = some (.settle i::rest)) :
    ∃ caller, counts.callers[i]? = some caller ∧
      Kept port { counts with lane := some rest, callers := counts.setPhase i caller .settled } := by
  have queued : counts.queue = .settle i::rest := by simp [Counts.queue,lane]
  have once := kept.once
  have behind := kept.behind
  rw [queued] at once behind
  obtain ⟨⟨caller,found,waits,before⟩,later⟩ := behind
  have popped : Kept port { counts with lane := some rest } := by
    refine ⟨?_,?_,kept.before,kept.settled,later,kept.resets,kept.answers⟩
    · simpa [Counts.queue] using once
    · intro none
      cases none
  exact ⟨caller,found,setPhase_kept popped found .settled fun _ => ⟨waits,before⟩⟩

theorem inner_kept (kept : Kept port counts) (found : counts.callers[i]? = some caller)
    (may : caller.phase = .settled ∨ (caller.phase = .called ∧ caller.asks.waits = false)) : Kept port (counts.innerCall port i caller) := by
  have stepped := setPhase_kept kept found .answered (by intro phase; cases phase)
  have seen : caller.asks.waits = true → caller.before <+: appliedIn counts.log := by
    intro waits
    rcases may with settled | ⟨_,not⟩
    · exact (kept.settled caller (List.mem_of_getElem? found) settled).2
    · rw [waits] at not
      cases not
  unfold Counts.innerCall
  cases asks : caller.asks with
  | read read =>
    refine ⟨stepped.once,stepped.closed,stepped.before,stepped.settled,stepped.behind,stepped.resets,?_⟩
    intro one mem
    rcases List.mem_append.mp mem with old | new
    · exact stepped.answers one old
    · obtain rfl := List.mem_singleton.mp new
      rw [asks] at seen
      exact ⟨List.prefix_rfl,rfl,seen⟩
  | resetServed id =>
    refine around_kept stepped (.reset id caller.before) rfl ?_
    intro other before same
    cases same
    exact seen (by rw [asks]; rfl)

theorem step_kept (kept : Kept port counts) (stepped : counts.step port act = some after) : Kept port after := by
  cases act with
  | accept item =>
    obtain rfl := Option.some.inj stepped
    exact accept_kept kept item
  | call ask =>
    obtain rfl := Option.some.inj stepped
    exact call_kept kept ask
  | settle i =>
    simp only [Counts.step] at stepped
    split at stepped
    · rename_i caller found
      split at stepped
      · rename_i may
        split at stepped
        · rename_i queue lane
          obtain rfl := Option.some.inj stepped
          have waiting := setPhase_kept kept found .waiting (by intro phase; cases phase)
          have steps : (counts.setPhase i caller .waiting)[i]? = some { caller with phase := .waiting } := by
            rw [setPhase_get found,if_pos rfl]
          exact push_kept waiting lane steps may.2
        · rename_i lane
          obtain rfl := Option.some.inj stepped
          refine setPhase_kept kept found .settled fun _ => ⟨may.2,?_⟩
          have nothing := kept.before caller (List.mem_of_getElem? found)
          rw [kept.closed lane] at nothing
          rw [List.prefix_nil.mp nothing]
          exact List.nil_prefix
      · cases stepped
    · cases stepped
  | work outcome =>
    simp only [Counts.step,Counts.apply] at stepped
    split at stepped
    · rename_i item rest lane
      obtain rfl := Option.some.inj stepped
      exact applied_kept kept lane
    · rename_i i rest lane
      obtain ⟨caller,found,settled⟩ := settled_kept kept lane
      rw [found] at stepped
      obtain rfl := Option.some.inj stepped
      exact settled
    · cases stepped
  | inner i =>
    simp only [Counts.step] at stepped
    split at stepped
    · rename_i caller found
      split at stepped
      · rename_i may
        obtain rfl := Option.some.inj stepped
        exact inner_kept kept found may
      · cases stepped
    · cases stepped
  | other write =>
    obtain rfl := Option.some.inj stepped
    exact around_kept kept (.other write) rfl (by simp)

end Counting
