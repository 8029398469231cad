import Jojobot.Library.Runs
import Mathlib

namespace Requests
open Library

-- A call inside `enter`, then with the turn, then inside its flight's drop: before the
-- count is read, after it with its own handle still held, and done.
inductive Phase where
  | entered
  | waiting
  | holding
  | leaving
  | checked
  | gone
  deriving DecidableEq

-- The handles a call holds: its flight's, and the one its wait or its guard has.
def Phase.arcs : Phase → Nat
  | .entered => 1
  | .waiting => 2
  | .holding => 2
  | .leaving => 1
  | .checked => 1
  | .gone => 0

-- The count of the table has not been read yet.
def Phase.unchecked (phase : Phase) : Prop := phase ≠ .checked ∧ phase ≠ .gone

instance (phase : Phase) : Decidable phase.unchecked := inferInstanceAs (Decidable (_ ∧ _))

structure Call (κ : Type) where
  key : κ
  handle : Nat
  phase : Phase

-- The table of turns, every call there has been, and how many handles were made.
structure Flights (κ : Type) where
  held : List (κ × Nat)
  calls : List (Call κ)
  made : Nat

def Flights.idle (κ : Type) : Flights κ := ⟨[],[],0⟩

inductive Move where
  | wait
  | acquire
  | giveUp
  | release
  | check
  | letGo
  deriving DecidableEq

def Move.leaves : Move → Phase
  | .wait => .entered
  | .acquire => .waiting
  | .giveUp => .waiting
  | .release => .holding
  | .check => .leaving
  | .letGo => .checked

def Move.reaches : Move → Phase
  | .wait => .waiting
  | .acquire => .holding
  | .giveUp => .leaving
  | .release => .leaving
  | .check => .checked
  | .letGo => .gone

-- Any call does its next thing, in any order with the others'.
inductive Act (κ : Type) where
  | enter (key : κ)
  | move (move : Move) (call : Nat)

variable {κ : Type} [DecidableEq κ]

namespace Flights

-- Under the table's lock, the key's handle is found or put there, and cloned.
def enter (flights : Flights κ) (key : κ) : Flights κ :=
  match flights.held.find? (·.1 = key) with
  | some entry => { flights with calls := flights.calls++[⟨key,entry.2,.entered⟩] }
  | none =>
    { held := flights.held++[(key,flights.made)], calls := flights.calls++[⟨key,flights.made,.entered⟩], made := flights.made+1 }

def arcsOf (handle : Nat) (call : Call κ) : Nat := if call.handle = handle then call.phase.arcs else 0

def strongCount (flights : Flights κ) (handle : Nat) : Nat :=
  flights.held.countP (·.2 = handle)+(flights.calls.map (arcsOf handle)).sum

def free (flights : Flights κ) (handle : Nat) : Bool :=
  flights.calls.all fun call => !(call.handle = handle && call.phase = .holding)

-- The table as a flight's drop leaves it.
def cleared (flights : Flights κ) (call : Call κ) : List (κ × Nat) :=
  if flights.strongCount call.handle = 2 then flights.held.filter (·.1 ≠ call.key) else flights.held

def moved (flights : Flights κ) (move : Move) (i : Nat) (call : Call κ) : Flights κ :=
  { flights with
    held := if move = .check then flights.cleared call else flights.held
    calls := flights.calls.set i { call with phase := move.reaches } }

def step (flights : Flights κ) : Act κ → Option (Flights κ)
  | .enter key => some (flights.enter key)
  | .move move i =>
    match flights.calls[i]? with
    | none => none
    | some call =>
      if call.phase = move.leaves ∧ (move = .acquire → flights.free call.handle = true) then some (flights.moved move i call)
      else none

def stepping (before : Flights κ) (act : Act κ) (after : Flights κ) : Prop := before.step act = some after

-- What any order of steps keeps: one handle a key and one key a handle, and a call that
-- has not read the count finds its own handle in the table.
structure Kept (flights : Flights κ) : Prop where
  keys : (flights.held.map Prod.fst).Nodup
  handles : (flights.held.map Prod.snd).Nodup
  made : ∀ entry ∈ flights.held, entry.2 < flights.made
  homed : ∀ call ∈ flights.calls, call.phase.unchecked → (call.key,call.handle) ∈ flights.held
  alone : flights.calls.Pairwise fun one other => one.handle = other.handle → ¬(one.phase = .holding ∧ other.phase = .holding)

-- Somebody is still to read the count of every id in the table.
def Covered (flights : Flights κ) : Prop :=
  ∀ entry ∈ flights.held, ∃ call ∈ flights.calls, call.key = entry.1 ∧ call.phase.unchecked

-- A count is read while somebody else is still to read it, or once everybody who read
-- it before has let go of the handle.
def OnTime (flights : Flights κ) : Act κ → Prop
  | .move .check i =>
    ∀ call ∈ flights.calls[i]?,
      (∃ other ∈ flights.calls.eraseIdx i, other.handle = call.handle ∧ other.phase.unchecked) ∨
        ∀ other ∈ flights.calls.eraseIdx i, other.handle = call.handle → other.phase ≠ .checked
  | _ => True

instance (flights : Flights κ) (act : Act κ) : Decidable (OnTime flights act) := by
  unfold OnTime
  split <;> infer_instance

variable {flights after : Flights κ} {key : κ} {act : Act κ}

-- A call's move: it stands between the calls before it and those behind, which stay.
theorem step_cases (stepped : flights.step act = some after) :
    (∃ key, act = .enter key ∧ after = flights.enter key) ∨
      ∃ move front back call, act = .move move front.length ∧ flights.calls = front++call::back ∧ call.phase = move.leaves ∧
        (move = .acquire → flights.free call.handle = true) ∧ after.made = flights.made ∧
        after.held = (if move = .check then flights.cleared call else flights.held) ∧
        after.calls = front++{ call with phase := move.reaches }::back := by
  cases act with
  | enter key => exact Or.inl ⟨key,rfl,(Option.some.inj stepped).symm⟩
  | move move i =>
    simp only [step] at stepped
    split at stepped
    · cases stepped
    · rename_i call found
      split at stepped
      · rename_i allowed
        obtain rfl := Option.some.inj stepped
        obtain ⟨inside,rfl⟩ := List.getElem?_eq_some_iff.mp found
        have place : (flights.calls.take i).length = i := by simp; omega
        refine Or.inr ⟨move,flights.calls.take i,flights.calls.drop (i+1),_,?_,?_,allowed.1,allowed.2,rfl,rfl,?_⟩
        · rw [place]
        · simp
        · exact List.set_eq_take_append_cons_drop.trans (if_pos inside)
      · cases stepped

theorem enter_cases (flights : Flights κ) (key : κ) :
    (∃ entry ∈ flights.held, entry.1 = key ∧ flights.enter key = { flights with calls := flights.calls++[⟨key,entry.2,.entered⟩] }) ∨
      (key ∉ flights.held.map Prod.fst ∧ flights.enter key =
        { held := flights.held++[(key,flights.made)], calls := flights.calls++[⟨key,flights.made,.entered⟩], made := flights.made+1 }) := by
  unfold enter
  split
  · rename_i entry found
    exact Or.inl ⟨entry,List.mem_of_find?_eq_some found,by simpa using List.find?_some found,rfl⟩
  · rename_i absent
    refine Or.inr ⟨?_,rfl⟩
    intro held
    obtain ⟨entry,has,same⟩ := List.mem_map.mp held
    exact List.find?_eq_none.mp absent entry has (by simpa using same)

end Flights

end Requests
