import Mathlib.Data.List.Perm.Basic
import Mathlib.Data.List.Count

namespace Library

-- What a batch holds until it is committed: terms whose items are to go, and items to
-- put in, each in the order it was asked. A term reaches what the batch put in before it.
inductive Staged (T α : Type) where
  | drop (term : T)
  | add (item : α)

variable {T W α κ : Type} {carries : α → T → Bool}

def Staged.apply (carries : α → T → Bool) (items : List α) : Staged T α → List α
  | .drop term => items.filter fun item => !carries item term
  | .add item => items ++ [item]

def Staged.adds : Staged T α → Bool
  | .drop _ => false
  | .add _ => true

def landed (carries : α → T → Bool) (items : List α) (staged : List (Staged T α)) : List α :=
  staged.foldl (Staged.apply carries) items

variable {items others : List α} {staged : List (Staged T α)} {cell : α → Bool}

@[simp] theorem landed_nil : landed carries items [] = items := rfl

@[simp] theorem landed_cons (op : Staged T α) :
    landed carries items (op :: staged) = landed carries (op.apply carries items) staged := rfl

@[simp] theorem landed_append (more : List (Staged T α)) :
    landed carries items (staged ++ more) = landed carries (landed carries items staged) more := List.foldl_append

-- An operation that leaves every item of a cell where it is and puts none in it.
def Staged.Quiet (carries : α → T → Bool) (cell : α → Bool) : Staged T α → Prop
  | .drop term => ∀ item, cell item → carries item term = false
  | .add item => cell item = false

theorem landed_quiet (quiet : ∀ op ∈ staged, op.Quiet carries cell) :
    (landed carries items staged).filter cell = items.filter cell := by
  induction staged generalizing items with
  | nil => rfl
  | cons op rest ih =>
    rw [landed_cons,ih fun later member => quiet later (List.mem_cons_of_mem _ member)]
    have first := quiet op List.mem_cons_self
    cases op with
    | drop term =>
      simp only [Staged.apply,List.filter_filter]
      apply List.filter_congr
      intro item _
      cases held : cell item with
      | false => rfl
      | true => simp [first item held]
    | add item =>
      have out : cell item = false := first
      simp [Staged.apply,out]

-- What a batch leaves in a cell is settled by what the cell held before it.
theorem landed_congr (same : items.filter cell = others.filter cell) :
    (landed carries items staged).filter cell = (landed carries others staged).filter cell := by
  induction staged generalizing items others with
  | nil => exact same
  | cons op rest ih =>
    apply ih
    cases op with
    | drop term =>
      simp only [Staged.apply,List.filter_filter]
      have kept := congrArg (List.filter fun item => !carries item term) same
      simpa [List.filter_filter,Bool.and_comm] using kept
    | add item => simp [Staged.apply,List.filter_append,same]

theorem landed_perm (alike : items.Perm others) : (landed carries items staged).Perm (landed carries others staged) := by
  induction staged generalizing items others with
  | nil => exact alike
  | cons op rest ih =>
    apply ih
    cases op with
    | drop term => exact alike.filter _
    | add item => exact alike.append_right _

theorem landed_drops (terms : List T) :
    landed carries items (terms.map .drop) = items.filter fun item => !terms.any (carries item) := by
  induction terms generalizing items with
  | nil => simp
  | cons term rest ih =>
    rw [List.map_cons,landed_cons,ih]
    simp [Staged.apply,List.filter_filter,Bool.and_comm]

-- A store changed in batches: what is asked of it stands in a batch until a commit, and
-- what is read of it is what was last committed.
structure Batching (W T α : Type) where
  drop : W → T → W
  add : W → α → W
  commit : W → W
  rollback : W → W
  read : W → List α

variable {engine : Batching W T α} {w : W}

-- What a commit now would leave to be read.
def Batching.pending (engine : Batching W T α) (w : W) : List α := engine.read (engine.commit w)

-- A batch is not read before it is committed. A dropped term reaches what was put in before
-- it, a commit leaves nothing standing in the batch, and a rollback takes the batch away.
structure Batching.Lawful (engine : Batching W T α) (carries : α → T → Bool) : Prop where
  drop_unread : ∀ w term, engine.read (engine.drop w term) = engine.read w
  add_unread : ∀ w item, engine.read (engine.add w item) = engine.read w
  drop_reaches : ∀ w term, (engine.pending (engine.drop w term)).Perm ((engine.pending w).filter fun item => !carries item term)
  add_joins : ∀ w item, (engine.pending (engine.add w item)).Perm (engine.pending w ++ [item])
  commit_empties : ∀ w, (engine.pending (engine.commit w)).Perm (engine.pending w)
  rollback_unread : ∀ w, engine.read (engine.rollback w) = engine.read w
  rollback_empties : ∀ w, (engine.pending (engine.rollback w)).Perm (engine.read w)

def Batching.stage (engine : Batching W T α) (w : W) : Staged T α → W
  | .drop term => engine.drop w term
  | .add item => engine.add w item

def Batching.stageAll (engine : Batching W T α) (w : W) (staged : List (Staged T α)) : W := staged.foldl engine.stage w

@[simp] theorem stageAll_append (more : List (Staged T α)) :
    engine.stageAll w (staged ++ more) = engine.stageAll (engine.stageAll w staged) more := List.foldl_append

section
variable (laws : engine.Lawful carries)
include laws

theorem stageAll_unread : engine.read (engine.stageAll w staged) = engine.read w := by
  induction staged generalizing w with
  | nil => rfl
  | cons op rest ih =>
    refine (@ih (engine.stage w op)).trans ?_
    cases op with
    | drop term => exact laws.drop_unread w term
    | add item => exact laws.add_unread w item

-- What was staged lands as it was asked.
theorem stageAll_pending : (engine.pending (engine.stageAll w staged)).Perm (landed carries (engine.pending w) staged) := by
  induction staged generalizing w with
  | nil => exact .refl _
  | cons op rest ih =>
    refine (@ih (engine.stage w op)).trans (landed_perm ?_)
    cases op with
    | drop term => exact laws.drop_reaches w term
    | add item => exact laws.add_joins w item

end

-- A batch kept beside what is committed, as a list of what was asked.
def listed (carries : α → T → Bool) : Batching (List α × List (Staged T α)) T α where
  drop w term := (w.1,w.2 ++ [.drop term])
  add w item := (w.1,w.2 ++ [.add item])
  commit w := (landed carries w.1 w.2,[])
  rollback w := (w.1,[])
  read w := w.1

theorem listed_lawful (carries : α → T → Bool) : (listed carries).Lawful carries where
  drop_unread _ _ := rfl
  add_unread _ _ := rfl
  drop_reaches w term := by simp [listed,Batching.pending,Staged.apply]
  add_joins w item := by simp [listed,Batching.pending,Staged.apply]
  commit_empties _ := .refl _
  rollback_unread _ := rfl
  rollback_empties _ := .refl _

-- Two lists with the same items of every key hold the same items.
theorem perm_of_cells [DecidableEq α] [DecidableEq κ] (key : α → κ) {left right : List α}
    (same : ∀ one, (left.filter (key · = one)).Perm (right.filter (key · = one))) : left.Perm right := by
  rw [List.perm_iff_count]
  intro item
  have counted := (same (key item)).count_eq item
  rwa [List.count_filter (by simp),List.count_filter (by simp)] at counted

end Library
