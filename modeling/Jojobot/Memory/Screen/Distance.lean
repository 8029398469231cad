import Jojobot.Library.Respelling
import Jojobot.Library.Text

namespace Screen
open Library

-- One row of the table from the row before it: the cell to the left, the letters of
-- the other word, and the row before from the cell above the left one on.
def nextRow (ca : Char) : Nat → Text → List Nat → List Nat
  | left,cb::b,diagonal::above::prev =>
    let cell := min (min (diagonal+if ca ≠ cb then 1 else 0) (above+1)) (left+1)
    cell :: nextRow ca cell b (above::prev)
  | _,_,_ => []

def rows (b : Text) (max : Nat) : Nat → List Nat → Text → Option (List Nat)
  | _,prev,[] => some prev
  | i,prev,ca::a =>
    let rest := nextRow ca (i+1) b prev
    if max < rest.foldl min (i+1) then none else rows b max (i+1) ((i+1)::rest) a

def editDistanceWithin (a b : Text) (max : Nat) : Option Nat :=
  if max < (a.length-b.length)+(b.length-a.length) then none
  else if a.isEmpty then some b.length
  else ((rows b max 0 (List.range (b.length+1)) a).bind (·[b.length]?)).filter (· ≤ max)

def editDistance (a b : Text) : Option Nat := editDistanceWithin a b (2^64-1)

variable {a b seen : Text} {ca : Char} {max : Nat}

theorem nextRow_rowOf (ca : Char) (a seen b : Text) :
    nextRow ca (distance (ca::a) seen) b (rowOf a seen b) = (rowOf (ca::a) seen b).tail := by
  induction b generalizing seen with
  | nil => simp [nextRow,rowOf]
  | cons cb b ih =>
    have cell : min (min (distance a seen+if ca ≠ cb then 1 else 0) (distance a (cb::seen)+1)) (distance (ca::a) seen+1) =
        distance (ca::a) (cb::seen) := by
      rw [distance_cons]
      simp
    have row := ih (cb::seen)
    rw [rowOf_cons a] at row
    rw [rowOf,rowOf_cons a (cb::seen),nextRow]
    simp only [cell,row,rowOf,List.tail_cons]
    exact (rowOf_cons _ _ _).symm

theorem foldl_min_above {bound : Nat} (first : Nat) (rest : List Nat) :
    bound < rest.foldl min first ↔ ∀ cell ∈ first::rest, bound < cell := by
  induction rest generalizing first with
  | nil => simp
  | cons cell rest ih => simp [ih,and_assoc]

-- The row of a longer word, while the shorter one's is what the loop holds.
theorem next_rowOf (ca : Char) (a b : Text) :
    (a.length+1) :: nextRow ca (a.length+1) b (rowOf a [] b) = rowOf (ca::a) [] b := by
  have row := nextRow_rowOf ca a [] b
  simp only [distance_nil_right,List.length_cons] at row
  rw [row,rowOf_cons (ca::a)]
  simp

-- Once every cell of a row is over the bound, so is every later one.
theorem above_stays (rest : Text) (above : ∀ cell ∈ rowOf a [] b, max < cell) :
    max < distance (rest.reverse++a) b.reverse := by
  induction rest generalizing a with
  | nil =>
    have last := rowOf_last a [] b
    simp only [List.append_nil] at last
    exact above _ (List.mem_of_getElem? last)
  | cons ca rest ih =>
    have first : max < distance a [] := above _ (by rw [rowOf_cons]; exact List.mem_cons_self)
    have next := rowOf_above (x := ca) [] b (by simp at first ⊢; omega) above
    simpa using ih next

theorem rows_answer (a b rest : Text) (max : Nat) :
    (rows b max a.length (rowOf a [] b) rest = some (rowOf (rest.reverse++a) [] b)) ∨
      (rows b max a.length (rowOf a [] b) rest = none ∧ max < distance (rest.reverse++a) b.reverse) := by
  induction rest generalizing a with
  | nil => exact Or.inl rfl
  | cons ca rest ih =>
    have row := next_rowOf ca a b
    simp only [rows]
    split
    · rename_i past
      rw [foldl_min_above,row] at past
      right
      exact ⟨rfl,by simpa using above_stays rest past⟩
    · rw [row]
      simpa using ih (ca::a)

theorem editDistanceWithin_eq (a b : Text) (max : Nat) :
    editDistanceWithin a b max = if distance a.reverse b.reverse ≤ max then some (distance a.reverse b.reverse) else none := by
  have gap := (respelled_distance a.reverse b.reverse).lengths
  simp only [List.length_reverse] at gap
  unfold editDistanceWithin
  split
  · rename_i far
    rw [if_neg (by omega)]
  · rename_i near
    cases a with
    | nil =>
      simp only [List.length_nil] at near
      simp
      omega
    | cons ca a =>
      have row := rowOf_nil [] b
      rcases rows_answer [] b (ca::a) max with reached | ⟨stopped,past⟩
      · rw [row] at reached
        have last := rowOf_last ((ca::a).reverse++[]) [] b
        simp only [List.append_nil] at last reached
        rw [List.range_eq_range']
        simp only [List.length_nil] at reached
        simp only [List.isEmpty_cons,Bool.false_eq_true,if_false,reached,Option.bind_some,last,Option.filter,decide_eq_true_eq]
      · rw [row] at stopped
        simp only [List.append_nil,List.length_nil] at stopped past
        rw [List.range_eq_range',if_neg (Nat.not_le.mpr past)]
        simp [stopped]

-- Both words are read from their ends in the table; read from their fronts they are as far apart.
theorem distance_reversed (a b : Text) : Least (distance a.reverse b.reverse) a b := by
  simpa using (distance_least a.reverse b.reverse).reverse

-- No distance is over the longer word, which a machine holds.
theorem editDistance_answers (fits : a.length < 2^64) (other : b.length < 2^64) :
    ∃ d, editDistance a b = some d ∧ Least d a b := by
  have short := distance_le_longer a.reverse b.reverse
  simp only [List.length_reverse] at short
  refine ⟨distance a.reverse b.reverse,?_,distance_reversed a b⟩
  rw [editDistance,editDistanceWithin_eq,if_pos (by omega)]

theorem editDistanceWithin_comm (a b : Text) (max : Nat) : editDistanceWithin a b max = editDistanceWithin b a max := by
  have turned : distance b.reverse a.reverse = distance a.reverse b.reverse :=
    (distance_reversed b a).symm.unique (distance_reversed a b)
  rw [editDistanceWithin_eq,editDistanceWithin_eq b a,turned]

theorem bounded_distance_is_the_distance (a b : Text) (max : Nat) :
    (∀ d, editDistanceWithin a b max = some d ↔ Least d a b ∧ d ≤ max) ∧
      (editDistanceWithin a b max = none ↔ ∃ d, Least d a b ∧ max < d) ∧
      editDistanceWithin b a max = editDistanceWithin a b max ∧
      ∀ larger, max ≤ larger → ∀ d, editDistanceWithin a b max = some d → editDistanceWithin a b larger = some d := by
  have least := distance_reversed a b
  have answered := editDistanceWithin_eq a b
  refine ⟨?_,?_,?_,?_⟩
  · intro d
    rw [answered]
    constructor
    · intro some
      split at some
      · obtain rfl := Option.some.inj some
        exact ⟨least,by assumption⟩
      · cases some
    · rintro ⟨fewest,within⟩
      obtain rfl := least.unique fewest
      rw [if_pos within]
  · rw [answered]
    constructor
    · intro none
      split at none
      · cases none
      · exact ⟨_,least,by omega⟩
    · rintro ⟨d,fewest,past⟩
      obtain rfl := least.unique fewest
      rw [if_neg (by omega)]
  · exact editDistanceWithin_comm b a max
  · intro larger more d some
    rw [answered] at some ⊢
    split at some
    · rw [if_pos (by omega),some]
    · cases some

end Screen
