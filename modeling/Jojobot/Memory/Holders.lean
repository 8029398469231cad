import Jojobot.Library.Sorting
import Jojobot.Memory.Filter

namespace Memory
open Library Std

inductive Direction where
  | ascending | descending
deriving DecidableEq, Repr

structure OrderedHead where
  head : List (EntityId × Text)
  cut : Bool
deriving DecidableEq, Repr

variable [Scalars]

def byValue : Direction → Orderable → Orderable → Ordering
  | .ascending,a,b => compare a b
  | .descending,a,b => compare b a

def byPlace (direction : Direction) (a b : Orderable × EntityId) : Ordering :=
  (byValue direction a.1 b.1).then (compare a.2 b.2)

def tied (places : List Orderable) (stop : Nat) : Bool :=
  match places[stop]?,places[stop-1]? with
  | some here,some before => compare here before = .eq
  | _,_ => false

-- The `while` of the source; it stops by the end of the list.
def pastTies (places : List Orderable) : Nat → Nat → Nat
  | 0,stop => stop
  | fuel+1,stop => if 0 < stop ∧ tied places stop then pastTies places fuel (stop+1) else stop

def headOf (placed : List (Orderable × EntityId × Text)) (direction : Direction) (k : Nat) : OrderedHead :=
  let placed := sortBy (fun a b => byPlace direction (a.1,a.2.1) (b.1,b.2.1)) placed
  let stop := pastTies (placed.map (·.1)) placed.length (min k placed.length)
  ⟨(placed.take stop).map (·.2),stop < placed.length⟩

instance (direction : Direction) : TransCmp (byValue direction) := by
  cases direction
  · exact inferInstanceAs (TransCmp fun a b : Orderable => compare a b)
  · exact inferInstanceAs (TransCmp fun a b : Orderable => compare b a)

instance (direction : Direction) : TransCmp fun a b : Orderable × EntityId => byValue direction a.1 b.1 where
  eq_swap {a b} := @OrientedCmp.eq_swap _ (byValue direction) _ a.1 b.1
  isLE_trans {a b c} := @TransCmp.isLE_trans _ (byValue direction) _ a.1 b.1 c.1

instance (direction : Direction) : TransCmp (byPlace direction) :=
  inferInstanceAs (TransCmp (compareLex (fun a b : Orderable × EntityId => byValue direction a.1 b.1)
    (compareOn fun a => a.2)))

theorem byValue_self (direction : Direction) (a : Orderable) : byValue direction a a = .eq :=
  @ReflCmp.compare_self _ (byValue direction) _ a

theorem byPlace_self (direction : Direction) (a : Orderable × EntityId) : byPlace direction a a = .eq :=
  @ReflCmp.compare_self _ (byPlace direction) _ a

-- A head that ends past the `k`th, where no tie is left and none was passed over.
theorem pastTies_eq {places : List Orderable} {fuel start stop : Nat} (above : start ≤ stop)
    (ties : ∀ i, start ≤ i → i < stop → 0 < i ∧ tied places i = true)
    (ends : tied places stop = false ∨ stop = 0) (enough : stop ≤ start + fuel) :
    pastTies places fuel start = stop := by
  induction fuel generalizing start with
  | zero => simp only [pastTies]; omega
  | succ fuel ih =>
    rw [pastTies]
    rcases Nat.eq_or_lt_of_le above with rfl | more
    · rw [if_neg]
      rintro ⟨positive,tie⟩
      rcases ends with free | rfl
      · rw [free] at tie; cases tie
      · omega
    · rw [if_pos (ties start (Nat.le_refl _) more)]
      exact ih more (fun i low => ties i (by omega)) (by omega)

end Memory
