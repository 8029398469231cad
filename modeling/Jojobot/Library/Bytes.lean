import Jojobot.Library.Text

namespace Library

section
variable {text before middle after rest word : Text} {c : Char} {n b : Nat}

-- The length of a text in UTF-8, as every offset of the source counts.
def byteLength (text : Text) : Nat := (text.map Char.utf8Size).sum

-- `is_char_boundary`.
def isCharBoundary : Text → Nat → Bool
  | _,0 => true
  | [],_+1 => false
  | c::rest,n+1 => if n+1 < c.utf8Size then false else isCharBoundary rest (n+1-c.utf8Size)

def dropBytes : Text → Nat → Option Text
  | text,0 => some text
  | [],_+1 => none
  | c::rest,n+1 => if n+1 < c.utf8Size then none else dropBytes rest (n+1-c.utf8Size)

def takeBytes : Text → Nat → Option Text
  | _,0 => some []
  | [],_+1 => none
  | c::rest,n+1 => if n+1 < c.utf8Size then none else (takeBytes rest (n+1-c.utf8Size)).map (c::·)

-- `text[start..stop]`, which stops the program off a boundary.
def slice (text : Text) (start stop : Nat) : Option Text :=
  if start ≤ stop then (dropBytes text start).bind (takeBytes · (stop-start)) else none

@[simp] theorem byteLength_nil : byteLength [] = 0 := rfl
@[simp] theorem byteLength_cons (c : Char) (text : Text) : byteLength (c::text) = c.utf8Size+byteLength text := by
  simp [byteLength]
@[simp] theorem byteLength_append (before after : Text) : byteLength (before++after) = byteLength before+byteLength after := by
  simp [byteLength]

@[simp] theorem byteLength_reverse (text : Text) : byteLength text.reverse = byteLength text := by
  simp [byteLength]

theorem byteLength_zero : byteLength text = 0 ↔ text = [] := by
  cases text with
  | nil => simp
  | cons c rest =>
    have some' := c.utf8Size_pos
    simp
    omega

theorem dropBytes_append (before after : Text) : dropBytes (before++after) (byteLength before) = some after := by
  induction before with
  | nil => cases after <;> rfl
  | cons c before ih =>
    have some' := c.utf8Size_pos
    obtain ⟨n,size⟩ : ∃ n, byteLength (c::before) = n+1 := ⟨byteLength (c::before)-1,by simp; omega⟩
    rw [byteLength_cons] at size
    rw [byteLength_cons,size,List.cons_append,dropBytes,if_neg (by omega),← size,Nat.add_sub_cancel_left]
    exact ih

theorem takeBytes_append (before after : Text) : takeBytes (before++after) (byteLength before) = some before := by
  induction before with
  | nil => cases after <;> rfl
  | cons c before ih =>
    have some' := c.utf8Size_pos
    obtain ⟨n,size⟩ : ∃ n, c.utf8Size+byteLength before = n+1 := ⟨c.utf8Size+byteLength before-1,by omega⟩
    rw [byteLength_cons,size,List.cons_append,takeBytes,if_neg (by omega),← size,Nat.add_sub_cancel_left,ih]
    rfl

theorem slice_middle (before middle after : Text) :
    slice (before++middle++after) (byteLength before) (byteLength before+byteLength middle) = some middle := by
  unfold slice
  rw [if_pos (Nat.le_add_right _ _),List.append_assoc,dropBytes_append,Option.bind_some,Nat.add_sub_cancel_left,takeBytes_append]

theorem dropBytes_some (dropped : dropBytes text n = some rest) : ∃ before, text = before++rest ∧ byteLength before = n := by
  induction text generalizing n with
  | nil =>
    cases n with
    | zero => exact ⟨[],Option.some.inj dropped,rfl⟩
    | succ n => cases dropped
  | cons c text ih =>
    cases n with
    | zero => exact ⟨[],Option.some.inj dropped,rfl⟩
    | succ n =>
      rw [dropBytes] at dropped
      split at dropped
      · cases dropped
      · obtain ⟨before,parts,length⟩ := ih dropped
        refine ⟨c::before,by rw [parts]; rfl,?_⟩
        rw [byteLength_cons]
        omega

theorem takeBytes_some (taken : takeBytes text n = some word) : ∃ after, text = word++after ∧ byteLength word = n := by
  induction text generalizing n word with
  | nil =>
    cases n with
    | zero =>
      cases taken
      exact ⟨[],rfl,rfl⟩
    | succ n => cases taken
  | cons c text ih =>
    cases n with
    | zero =>
      cases taken
      exact ⟨c::text,rfl,rfl⟩
    | succ n =>
      rw [takeBytes] at taken
      split at taken
      · cases taken
      · obtain ⟨inner,took,same⟩ := Option.map_eq_some_iff.mp taken
        obtain ⟨after,parts,length⟩ := ih took
        subst same
        refine ⟨after,by rw [parts]; rfl,?_⟩
        rw [byteLength_cons]
        omega

theorem slice_some {m : Nat} (cut : slice text n m = some word) :
    ∃ before after, text = before++word++after ∧ byteLength before = n ∧ byteLength (before++word) = m := by
  unfold slice at cut
  split at cut
  · obtain ⟨rest,dropped,taken⟩ := Option.bind_eq_some_iff.mp cut
    obtain ⟨before,parts,length⟩ := dropBytes_some dropped
    obtain ⟨after,parts',length'⟩ := takeBytes_some taken
    subst parts'
    refine ⟨before,after,by rw [parts,List.append_assoc],length,?_⟩
    rw [byteLength_append]
    omega
  · cases cut

theorem boundary_iff : isCharBoundary text n = true ↔ ∃ before after, text = before++after ∧ byteLength before = n := by
  induction text generalizing n with
  | nil =>
    cases n with
    | zero => exact ⟨fun _ => ⟨[],[],rfl,rfl⟩,fun _ => rfl⟩
    | succ n =>
      simp only [isCharBoundary,Bool.false_eq_true,false_iff]
      intro found
      obtain ⟨before,after,parts,length⟩ := found
      obtain ⟨rfl,_⟩ := List.append_eq_nil_iff.mp parts.symm
      cases length
  | cons c rest ih =>
    cases n with
    | zero => exact ⟨fun _ => ⟨[],c::rest,rfl,rfl⟩,fun _ => by simp [isCharBoundary]⟩
    | succ n =>
      rw [isCharBoundary]
      constructor
      · intro inside
        split at inside
        · cases inside
        · obtain ⟨before,after,rfl,length⟩ := ih.mp inside
          exact ⟨c::before,after,rfl,by rw [byteLength_cons]; omega⟩
      · intro found
        obtain ⟨before,after,parts,length⟩ := found
        cases before with
        | nil => cases length
        | cons d before =>
          obtain ⟨rfl,rfl⟩ := List.cons.inj parts
          rw [byteLength_cons] at length
          rw [if_neg (by omega)]
          exact ih.mpr ⟨before,after,rfl,by omega⟩

theorem boundary_le (inside : isCharBoundary text n = true) : n ≤ byteLength text := by
  obtain ⟨before,after,rfl,rfl⟩ := boundary_iff.mp inside
  rw [byteLength_append]
  omega

theorem boundary_last (text : Text) : isCharBoundary text (byteLength text) = true :=
  boundary_iff.mpr ⟨text,[],(List.append_nil text).symm,rfl⟩

-- A character is at most four bytes long, so a boundary is never further than three.
theorem boundary_near (within : n ≤ byteLength text) : ∃ low high, isCharBoundary text low = true ∧
    isCharBoundary text high = true ∧ low ≤ n ∧ n ≤ high ∧ n ≤ low+3 ∧ high ≤ n+3 := by
  induction text generalizing n with
  | nil =>
    have zero : n = 0 := by simpa using within
    subst zero
    exact ⟨0,0,rfl,rfl,by omega,by omega,by omega,by omega⟩
  | cons c rest ih =>
    have most := c.utf8Size_le_four
    rcases Nat.lt_or_ge n c.utf8Size with inside | past
    · cases n with
      | zero =>
        have first : isCharBoundary (c::rest) 0 = true := by simp [isCharBoundary]
        exact ⟨0,0,first,first,by omega,by omega,by omega,by omega⟩
      | succ n =>
        refine ⟨0,c.utf8Size,by simp [isCharBoundary],boundary_iff.mpr ⟨[c],rest,rfl,by simp⟩,by omega,by omega,by omega,by omega⟩
    · rw [byteLength_cons] at within
      obtain ⟨low,high,atLow,atHigh,under,over',near,nearer⟩ := @ih (n-c.utf8Size) (by omega)
      obtain ⟨before,after,parts,length⟩ := boundary_iff.mp atLow
      obtain ⟨before',after',parts',length'⟩ := boundary_iff.mp atHigh
      exact ⟨c.utf8Size+low,c.utf8Size+high,boundary_iff.mpr ⟨c::before,after,by rw [parts]; rfl,by simp [length]⟩,
        boundary_iff.mpr ⟨c::before',after',by rw [parts']; rfl,by simp [length']⟩,by omega,by omega,by omega,by omega⟩

-- Two boundaries in order cut the text in three.
theorem cut_in_three {m : Nat} (first : isCharBoundary text n = true) (second : isCharBoundary text m = true) (ordered : n ≤ m) :
    ∃ before middle after, text = before++middle++after ∧ byteLength before = n ∧ byteLength (before++middle) = m := by
  obtain ⟨before,rest,parts,length⟩ := boundary_iff.mp first
  obtain ⟨both,after,parts',length'⟩ := boundary_iff.mp second
  have whole : before++rest = both++after := parts.symm.trans parts'
  rcases List.append_eq_append_iff.mp whole with ⟨middle,same,_⟩ | ⟨middle,same,_⟩
  · subst same
    exact ⟨before,middle,after,parts',length,length'⟩
  · subst same
    rw [byteLength_append] at length
    have none : middle = [] := byteLength_zero.mp (by omega)
    subst none
    exact ⟨both,[],after,by simpa using parts',by simpa using length,by simpa using length'⟩

-- `start -= 1` and `stop += 1` until a boundary is met.
def boundaryBefore (text : Text) : Nat → Nat
  | 0 => 0
  | n+1 => if isCharBoundary text (n+1) then n+1 else boundaryBefore text n

def boundaryAfter (text : Text) : Nat → Nat → Option Nat
  | 0,_ => none
  | fuel+1,n => if isCharBoundary text n then some n else boundaryAfter text fuel (n+1)

theorem boundaryBefore_greatest (text : Text) (n : Nat) :
    IsGreatest {b | isCharBoundary text b = true ∧ b ≤ n} (boundaryBefore text n) := by
  induction n with
  | zero => exact ⟨⟨by cases text <;> rfl,Nat.le_refl _⟩,fun b found => found.2⟩
  | succ n ih =>
    rw [boundaryBefore]
    split
    · rename_i here
      exact ⟨⟨here,Nat.le_refl _⟩,fun b found => found.2⟩
    · rename_i apart
      refine ⟨⟨ih.1.1,Nat.le_succ_of_le ih.1.2⟩,fun b found => ih.2 ⟨found.1,?_⟩⟩
      rcases Nat.lt_or_ge b (n+1) with less | same
      · exact Nat.le_of_lt_succ less
      · have equal : b = n+1 := Nat.le_antisymm found.2 same
        rw [equal] at found
        exact absurd found.1 apart

theorem boundaryAfter_least {fuel : Nat} (met : isCharBoundary text b = true) (above : n ≤ b) (enough : b < fuel+n) :
    ∃ stop, boundaryAfter text fuel n = some stop ∧ IsLeast {b | isCharBoundary text b = true ∧ n ≤ b} stop := by
  induction fuel generalizing n with
  | zero => omega
  | succ fuel ih =>
    rw [boundaryAfter]
    split
    · rename_i here
      exact ⟨n,rfl,⟨here,Nat.le_refl _⟩,fun b found => found.2⟩
    · rename_i apart
      have further : n+1 ≤ b := by
        rcases Nat.lt_or_ge n b with less | same
        · exact less
        · have equal : b = n := Nat.le_antisymm same above
          rw [equal] at met
          exact absurd met apart
      obtain ⟨stop,ran,least⟩ := ih further (by omega)
      refine ⟨stop,ran,⟨least.1.1,Nat.le_of_succ_le least.1.2⟩,fun b found => least.2 ⟨found.1,?_⟩⟩
      rcases Nat.lt_or_ge n b with less | same
      · exact less
      · have equal : b = n := Nat.le_antisymm same found.2
        rw [equal] at found
        exact absurd found.1 apart

end
end Library
