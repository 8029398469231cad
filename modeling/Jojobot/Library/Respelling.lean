import Mathlib

namespace Library

variable {α : Type}

-- One letter put in, taken out or changed for another, anywhere in the word.
inductive LetterEdit : List α → List α → Prop where
  | insertion (before after : List α) (x : α) : LetterEdit (before++after) (before++x::after)
  | deletion (before after : List α) (x : α) : LetterEdit (before++x::after) (before++after)
  | substitution (before after : List α) (x y : α) : LetterEdit (before++x::after) (before++y::after)

-- So many edits, one after the other, whatever is spelled between.
inductive Respelled : Nat → List α → List α → Prop where
  | kept (a : List α) : Respelled 0 a a
  | edit {n : Nat} {a b c : List α} (first : LetterEdit a b) (rest : Respelled n b c) : Respelled (n+1) a c

variable {a b c : List α} {n : Nat} {x y : α}

theorem LetterEdit.behind (edit : LetterEdit a b) : LetterEdit (x::a) (x::b) := by
  cases edit with
  | insertion before after y => exact .insertion (x::before) after y
  | deletion before after y => exact .deletion (x::before) after y
  | substitution before after y z => exact .substitution (x::before) after y z

theorem LetterEdit.symm (edit : LetterEdit a b) : LetterEdit b a := by
  cases edit with
  | insertion before after x => exact .deletion before after x
  | deletion before after x => exact .insertion before after x
  | substitution before after x y => exact .substitution before after y x

theorem LetterEdit.reverse (edit : LetterEdit a b) : LetterEdit a.reverse b.reverse := by
  cases edit with
  | insertion before after x => simpa using LetterEdit.insertion after.reverse before.reverse x
  | deletion before after x => simpa using LetterEdit.deletion after.reverse before.reverse x
  | substitution before after x y => simpa using LetterEdit.substitution after.reverse before.reverse x y

theorem LetterEdit.lengths (edit : LetterEdit a b) : a.length ≤ b.length+1 ∧ b.length ≤ a.length+1 := by
  cases edit <;> simp <;> omega

namespace Respelled

theorem behind (spelled : Respelled n a b) : Respelled n (x::a) (x::b) := by
  induction spelled with
  | kept a => exact .kept (x::a)
  | edit first _ ih => exact .edit first.behind ih

theorem snoc (spelled : Respelled n a b) (last : LetterEdit b c) : Respelled (n+1) a c := by
  induction spelled with
  | kept a => exact .edit last (.kept c)
  | edit first _ ih => exact .edit first (ih last)

theorem symm (spelled : Respelled n a b) : Respelled n b a := by
  induction spelled with
  | kept a => exact .kept a
  | edit first _ ih => exact ih.snoc first.symm

theorem reverse (spelled : Respelled n a b) : Respelled n a.reverse b.reverse := by
  induction spelled with
  | kept a => exact .kept a.reverse
  | edit first _ ih => exact .edit first.reverse ih

theorem lengths (spelled : Respelled n a b) : a.length ≤ b.length+n ∧ b.length ≤ a.length+n := by
  induction spelled with
  | kept a => simp
  | edit first _ ih =>
    have step := first.lengths
    omega

theorem spelled_out (b : List α) : Respelled b.length [] b := by
  induction b with
  | nil => exact .kept []
  | cons x b ih => exact ih.snoc (.insertion [] b x)

end Respelled

-- The fewest edits that turn one word into the other.
def Least (d : Nat) (a b : List α) : Prop := Respelled d a b ∧ ∀ n, Respelled n a b → d ≤ n

namespace Least
variable {d e : Nat}

theorem symm (least : Least d a b) : Least d b a := ⟨least.1.symm,fun n spelled => least.2 n spelled.symm⟩

theorem reverse (least : Least d a b) : Least d a.reverse b.reverse := by
  refine ⟨least.1.reverse,?_⟩
  intro n spelled
  have back := spelled.reverse
  simp only [List.reverse_reverse] at back
  exact least.2 n back

theorem unique (one : Least d a b) (other : Least e a b) : d = e :=
  Nat.le_antisymm (one.2 e other.1) (other.2 d one.1)

end Least

section Counted
variable [DecidableEq α]

-- The count by the first letters of both words: change or keep them, take the one
-- out, or put the other in.
def distance : List α → List α → Nat
  | [],b => b.length
  | x::a,[] => (x::a).length
  | x::a,y::b => min (min (distance a b+if x = y then 0 else 1) (distance a (y::b)+1)) (distance (x::a) b+1)
termination_by a b => a.length+b.length

@[simp] theorem distance_nil_left (b : List α) : distance [] b = b.length := by simp [distance]

@[simp] theorem distance_nil_right (a : List α) : distance a [] = a.length := by cases a <;> simp [distance]

theorem distance_cons : distance (x::a) (y::b) =
    min (min (distance a b+if x = y then 0 else 1) (distance a (y::b)+1)) (distance (x::a) b+1) := by
  simp only [distance]

theorem distance_self (a : List α) : distance a a = 0 := by
  induction a with
  | nil => simp
  | cons x a ih => simp [distance_cons,ih]

theorem distance_put : distance a (x::b) ≤ distance a b+1 := by
  cases a with
  | nil => simp
  | cons y a =>
    rw [distance_cons]
    exact Nat.min_le_right _ _

theorem distance_taken : distance (x::a) b ≤ distance a b+1 := by
  cases b with
  | nil => simp
  | cons y b =>
    rw [distance_cons]
    omega

theorem distance_put_back : distance a b ≤ distance (x::a) b+1 := by
  induction b with
  | nil => simp; omega
  | cons y b ih =>
    have put : distance a (y::b) ≤ distance a b+1 := distance_put
    rw [distance_cons]
    split <;> omega

theorem distance_changed : distance (x::a) b ≤ distance (y::a) b+1 := by
  induction b with
  | nil => simp
  | cons z b ih =>
    rw [distance_cons,distance_cons]
    split <;> split <;> omega

-- An edit behind a letter is felt no more than the edit itself.
theorem distance_behind (felt : ∀ c, distance a c ≤ distance b c+1) (c : List α) :
    distance (x::a) c ≤ distance (x::b) c+1 := by
  induction c with
  | nil => simpa using felt []
  | cons z c ih =>
    have same := felt c
    have taken := felt (z::c)
    rw [distance_cons,distance_cons]
    split <;> omega

theorem distance_edited (edit : LetterEdit a b) (c : List α) : distance a c ≤ distance b c+1 := by
  have along : ∀ before a b : List α, (∀ c, distance a c ≤ distance b c+1) → ∀ c, distance (before++a) c ≤ distance (before++b) c+1 := by
    intro before
    induction before with
    | nil => exact fun a b felt => felt
    | cons x before ih => exact fun a b felt => distance_behind (ih a b felt)
  cases edit with
  | insertion before after x => exact along before after (x::after) (fun c => distance_put_back) c
  | deletion before after x => exact along before (x::after) after (fun c => distance_taken) c
  | substitution before after x y => exact along before (x::after) (y::after) (fun c => distance_changed) c

theorem distance_le (spelled : Respelled n a b) : distance a b ≤ n := by
  induction spelled with
  | kept a => simp [distance_self]
  | edit first _ ih =>
    have felt := distance_edited first
    exact Nat.le_trans (felt _) (Nat.succ_le_succ ih)

theorem respelled_distance (a b : List α) : Respelled (distance a b) a b := by
  induction a,b using distance.induct with
  | case1 b => simpa using Respelled.spelled_out b
  | case2 x a => simpa using (Respelled.spelled_out (x::a)).symm
  | case3 x a y b kept taken put =>
    have changed : Respelled (distance a b+if x = y then 0 else 1) (x::a) (y::b) := by
      split
      · rename_i same
        subst same
        exact kept.behind
      · exact .edit (.substitution [] a x y) kept.behind
    have shorter : Respelled (distance a (y::b)+1) (x::a) (y::b) := .edit (.deletion [] a x) taken
    have longer : Respelled (distance (x::a) b+1) (x::a) (y::b) := put.snoc (.insertion [] b y)
    rw [distance_cons]
    rcases min_choice (min (distance a b+if x = y then 0 else 1) (distance a (y::b)+1)) (distance (x::a) b+1) with first | last
    · rw [first]
      rcases min_choice (distance a b+if x = y then 0 else 1) (distance a (y::b)+1) with change | deleted
      · rwa [change]
      · rwa [deleted]
    · rwa [last]

theorem distance_least (a b : List α) : Least (distance a b) a b := ⟨respelled_distance a b,fun _ => distance_le⟩

theorem distance_le_longer (a b : List α) : distance a b ≤ max a.length b.length := by
  induction a,b using distance.induct with
  | case1 b => simp
  | case2 x a => simp
  | case3 x a y b changed _ _ =>
    simp only [List.length_cons]
    rw [distance_cons]
    split <;> omega

-- The distances of one word to the words read so far, as one row of the table.
def rowOf (a : List α) : List α → List α → List Nat
  | seen,[] => [distance a seen]
  | seen,y::b => distance a seen :: rowOf a (y::seen) b

theorem rowOf_cons (a seen b : List α) : rowOf a seen b = distance a seen :: (rowOf a seen b).tail := by
  cases b <;> rfl

theorem rowOf_last (a : List α) (seen b : List α) : (rowOf a seen b)[b.length]? = some (distance a (b.reverse++seen)) := by
  induction b generalizing seen with
  | nil => rfl
  | cons y b ih => simpa [rowOf] using ih (y::seen)

theorem rowOf_nil (seen b : List α) : rowOf [] seen b = List.range' seen.length (b.length+1) := by
  induction b generalizing seen with
  | nil => simp [rowOf]
  | cons y b ih => simp [rowOf,ih,List.range'_succ]

-- A row holds no smaller cell than the row before it.
theorem rowOf_above {bound : Nat} (seen b : List α) (first : bound < distance (x::a) seen)
    (above : ∀ cell ∈ rowOf a seen b, bound < cell) : ∀ cell ∈ rowOf (x::a) seen b, bound < cell := by
  induction b generalizing seen with
  | nil => simpa [rowOf] using first
  | cons y b ih =>
    have before : bound < distance a seen := above _ (by simp [rowOf])
    have rest : ∀ cell ∈ rowOf a (y::seen) b, bound < cell := fun cell mem => above cell (by simp [rowOf,mem])
    have up : bound < distance a (y::seen) := by
      refine rest _ ?_
      rw [rowOf_cons]
      exact List.mem_cons_self
    have next : bound < distance (x::a) (y::seen) := by
      rw [distance_cons]
      split <;> omega
    intro cell mem
    rcases List.mem_cons.mp mem with rfl | mem
    · exact first
    · exact ih (y::seen) next rest cell mem

end Counted

end Library
