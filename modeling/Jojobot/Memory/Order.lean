import Jojobot.Library.Text

namespace Memory
open Library Std

-- The digits in byte order, so that keys compare as text the way they do as numbers.
def DIGITS : Text := "0123456789ABCDEFGHIJKLMNOPQRSTUVWXYZabcdefghijklmnopqrstuvwxyz".toList

inductive OrderError where
  | notAKey (key : Text)
  | noRoom (lower upper : Text)
deriving DecidableEq, Repr

def index (c : Char) : Nat := (DIGITS.idxOf? c).getD 0
def digit (n : Nat) : Char := DIGITS.getD n '0'

def isAKey (key : Text) : Bool := key ≠ [] && key.all (DIGITS.contains ·) && key.getLast? ≠ some '0'

-- The longest prefix the two share, with `a` read as padded by zeros.
def shared : Text → Text → Nat
  | _,[] => 0
  | a,c::b => if a.headD '0' = c then shared a.tail b + 1 else 0

-- `midpoint` of the source with no upper key.
def midpointAbove : Text → Text
  | [] => [digit ((0+62+1)/2)]
  | c::rest => if 62 - index c > 1 then [digit ((index c+62+1)/2)] else digit (index c) :: midpointAbove rest

-- What `midpoint` does once the two share nothing; it reads `b[0]`, and `between`
-- hands it no upper key that runs out first.
def midpointApart (a b : Text) : Text :=
  let low := (a.head?.map index).getD 0
  let high := index (b.headD '0')
  if high - low > 1 then [digit ((low+high+1)/2)]
  else if b.length > 1 then [b.headD '0']
  else digit low :: midpointAbove a.tail

def midpoint (a : Text) : Option Text → Text
  | none => midpointAbove a
  | some b => b.take (shared a b) ++ midpointApart (a.drop (shared a b)) (b.drop (shared a b))

-- Two bounds with the lower one not below the upper.
def crossed : Option Text → Option Text → Option (Text × Text)
  | some lower,some upper => if compare lower upper ≠ .lt then some (lower,upper) else none
  | _,_ => none

def between (lower upper : Option Text) : Except OrderError Text :=
  match (lower.toList ++ upper.toList).find? (!isAKey ·),crossed lower upper with
  | some key,_ => .error (.notAKey key)
  | none,some (lower,upper) => .error (.noRoom lower upper)
  | none,none => .ok (midpoint (lower.getD []) upper)

-- `count` keys in order, minted by halves; the fuel is the count.
def spreadFrom : Nat → Option Text → Option Text → Nat → Except OrderError (List Text)
  | 0,_,_,_ => .ok []
  | _,_,_,0 => .ok []
  | fuel+1,lower,upper,count+1 => do
    let middle ← between lower upper
    let before := (count+1)/2
    let keys ← spreadFrom fuel lower (some middle) before
    let rest ← spreadFrom fuel (some middle) upper (count+1-before-1)
    .ok (keys ++ middle :: rest)

def spread (lower upper : Option Text) (count : Nat) : Except OrderError (List Text) :=
  spreadFrom count lower upper count

example : between (some "1z".toList) (some "2".toList) = .ok "1zV".toList := by rfl

variable {a b key lower upper : Text} {c d : Char} {n : Nat}

def Digits (text : Text) : Prop := ∀ c ∈ text, c ∈ DIGITS

theorem isAKey_iff : isAKey key = true ↔ key ≠ [] ∧ Digits key ∧ key.getLast? ≠ some '0' := by
  simp [isAKey,Digits,and_assoc]

theorem digits_sorted : DIGITS.Pairwise fun c d => compare c d = .lt := by decide +kernel

theorem digit_mem (n : Nat) : digit n ∈ DIGITS := by
  rw [digit,List.getD_eq_getElem?_getD]
  cases found : DIGITS[n]? with
  | none => decide
  | some c => exact List.mem_of_getElem? found

theorem digit_index (member : c ∈ DIGITS) : index c < 62 ∧ digit (index c) = c := by
  obtain ⟨n,found⟩ := Option.isSome_iff_exists.mp (List.isSome_idxOf?.mpr member)
  obtain ⟨bound,same,_⟩ := List.idxOf?_eq_some_iff.mp found
  rw [index,found,Option.getD_some,digit,List.getD_eq_getElem?_getD,List.getElem?_eq_getElem bound]
  exact ⟨bound,same⟩

theorem digit_lt {m : Nat} (less : n < m) (bound : m < 62) : compare (digit n) (digit m) = .lt := by
  have inside : n < DIGITS.length ∧ m < DIGITS.length := ⟨Nat.lt_trans less bound,bound⟩
  have ordered := List.pairwise_iff_getElem.mp digits_sorted n m inside.1 inside.2 less
  simpa [digit,List.getD_eq_getElem?_getD,List.getElem?_eq_getElem inside.1,List.getElem?_eq_getElem inside.2]
    using ordered

theorem index_lt (inC : c ∈ DIGITS) (inD : d ∈ DIGITS) (less : compare c d = .lt) : index c < index d := by
  obtain ⟨_,same⟩ := digit_index inC
  obtain ⟨bound,other⟩ := digit_index inD
  rcases Nat.lt_trichotomy (index c) (index d) with before | equal | after
  · exact before
  · rw [← same,← other,equal,ReflOrd.compare_self] at less
    cases less
  · have back := digit_lt after (digit_index inC).1
    rw [same,other,OrientedCmp.gt_iff_lt.symm] at back
    rw [less] at back
    cases back

theorem digit_zero : digit 0 = '0' := rfl

theorem digit_pos (positive : 0 < n) (bound : n < 62) : digit n ≠ '0' := by
  intro same
  have less := digit_lt positive bound
  rw [same,digit_zero,ReflOrd.compare_self] at less
  cases less

theorem lt_cons (less : compare c d = .lt) : compare (c::a) (d::b) = .lt := by
  rw [List.compare_cons_cons,less]; rfl

theorem cons_lt_iff : compare (c::a) (c::b) = .lt ↔ compare a b = .lt := by
  rw [List.compare_cons_cons,ReflOrd.compare_self]; rfl

theorem lt_of_cons (less : compare (c::a) (d::b) = .lt) :
    compare c d = .lt ∨ (c = d ∧ compare a b = .lt) := by
  rw [List.compare_cons_cons] at less
  cases heads : compare c d with
  | lt => exact .inl rfl
  | eq => rw [heads] at less; exact .inr ⟨LawfulEqOrd.eq_of_compare heads,less⟩
  | gt => rw [heads] at less; cases less

theorem Digits.cons_iff : Digits (c::a) ↔ c ∈ DIGITS ∧ Digits a := List.forall_mem_cons

theorem isAKey_single (member : c ∈ DIGITS) (solid : c ≠ '0') : isAKey [c] = true :=
  isAKey_iff.mpr ⟨by simp,by simpa [Digits] using member,by simpa using solid⟩

theorem isAKey_cons (member : c ∈ DIGITS) (rest : isAKey a = true) : isAKey (c::a) = true := by
  obtain ⟨named,digits,last⟩ := isAKey_iff.mp rest
  refine isAKey_iff.mpr ⟨by simp,Digits.cons_iff.mpr ⟨member,digits⟩,?_⟩
  rwa [List.getLast?_cons_of_ne_nil named]

theorem above_key (digits : Digits a) :
    isAKey (midpointAbove a) = true ∧ compare a (midpointAbove a) = .lt := by
  induction a with
  | nil => exact ⟨by decide,rfl⟩
  | cons c rest ih =>
    obtain ⟨member,digits⟩ := Digits.cons_iff.mp digits
    obtain ⟨bound,same⟩ := digit_index member
    rw [midpointAbove]
    split
    · refine ⟨isAKey_single (digit_mem _) (digit_pos (by omega) (by omega)),lt_cons ?_⟩
      have less := @digit_lt (index c) ((index c+62+1)/2) (by omega) (by omega)
      rwa [same] at less
    · rw [same]
      exact ⟨isAKey_cons member (ih digits).1,cons_lt_iff.mpr (ih digits).2⟩

theorem midpointApart_cons (a b : Text) (d : Char) : midpointApart a (d::b) =
    if index d - (a.head?.map index).getD 0 > 1 then [digit (((a.head?.map index).getD 0+index d+1)/2)]
    else if (d::b).length > 1 then [d]
    else digit ((a.head?.map index).getD 0) :: midpointAbove a.tail := rfl

-- With nothing shared, the first digits say which is lower, a missing one read as zero.
theorem apart_key (digits : Digits a) (above : Digits (d::b)) (less : compare a (d::b) = .lt)
    (apart : a.headD '0' ≠ d) : isAKey (midpointApart a (d::b)) = true ∧
      compare a (midpointApart a (d::b)) = .lt ∧ compare (midpointApart a (d::b)) (d::b) = .lt := by
  obtain ⟨inD,_⟩ := Digits.cons_iff.mp above
  obtain ⟨bound,same⟩ := digit_index inD
  have low : (a.head?.map index).getD 0 < index d := by
    cases a with
    | nil =>
      rw [List.head?_nil,Option.map_none,Option.getD_none]
      by_contra none
      have zero : index d = 0 := by omega
      rw [zero,digit_zero] at same
      exact apart same
    | cons c rest =>
      obtain ⟨inC,_⟩ := Digits.cons_iff.mp digits
      rcases lt_of_cons less with heads | ⟨heads,_⟩
      · exact index_lt inC inD heads
      · exact (apart heads).elim
  have under : ∀ {m : Nat} {rest : Text}, (a.head?.map index).getD 0 < m → m < 62 →
      compare a (digit m::rest) = .lt := by
    intro m rest between bound
    cases a with
    | nil => rfl
    | cons c tail =>
      obtain ⟨inC,_⟩ := Digits.cons_iff.mp digits
      refine lt_cons ?_
      rw [← (digit_index inC).2]
      exact digit_lt between bound
  have beneath : ∀ {m : Nat} {rest : Text}, m < index d → compare (digit m::rest) (d::b) = .lt := by
    intro m rest between
    refine lt_cons ?_
    rw [← same]
    exact digit_lt between bound
  rw [midpointApart_cons]
  by_cases wide : index d - (a.head?.map index).getD 0 > 1
  · rw [if_pos wide]
    exact ⟨isAKey_single (digit_mem _) (digit_pos (by omega) (by omega)),
      under (by omega) (by omega),beneath (by omega)⟩
  · rw [if_neg wide]
    by_cases more : (d::b).length > 1
    · rw [if_pos more]
      obtain ⟨e,rest,rfl⟩ : ∃ e rest, b = e::rest := List.exists_cons_of_ne_nil (by rintro rfl; simp at more)
      refine ⟨?_,?_,cons_lt_iff.mpr rfl⟩
      · rw [← same]; exact isAKey_single (digit_mem _) (digit_pos (by omega) bound)
      · rw [← same]; exact under low bound
    · rw [if_neg more]
      have tail : Digits a.tail := fun c member => digits c (List.mem_of_mem_tail member)
      refine ⟨isAKey_cons (digit_mem _) (above_key tail).1,?_,beneath low⟩
      cases a with
      | nil => rfl
      | cons c rest =>
        obtain ⟨inC,_⟩ := Digits.cons_iff.mp digits
        rw [List.head?_cons,Option.map_some,Option.getD_some,(digit_index inC).2]
        exact cons_lt_iff.mpr (above_key tail).2

theorem midpoint_cons (a b : Text) (d : Char) : midpoint a (some (d::b)) =
    if a.headD '0' = d then d :: midpoint a.tail (some b) else midpointApart a (d::b) := by
  simp only [midpoint,shared]
  split
  · cases a <;> simp
  · simp

-- An upper key that starts with the digit the lower one has goes on, and stays above it.
theorem key_goes_on (key : isAKey (d::b) = true) (less : compare a (d::b) = .lt) (heads : a.headD '0' = d) :
    isAKey b = true ∧ compare a.tail b = .lt := by
  obtain ⟨_,above,last⟩ := isAKey_iff.mp key
  have more : b ≠ [] := by
    rintro rfl
    cases a with
    | nil => exact last (by simp [← heads])
    | cons c rest =>
      cases show c = d from heads
      rw [cons_lt_iff] at less
      cases rest <;> cases less
  refine ⟨isAKey_iff.mpr ⟨more,(Digits.cons_iff.mp above).2,by rwa [List.getLast?_cons_of_ne_nil more] at last⟩,?_⟩
  cases a with
  | nil => cases b with
    | nil => exact (more rfl).elim
    | cons => rfl
  | cons c rest =>
    cases show c = d from heads
    exact cons_lt_iff.mp less

-- Digit by digit along the upper key, which runs out last because it does not end in zero.
theorem midpoint_key (digits : Digits a) (key : isAKey b = true) (less : compare a b = .lt) :
    isAKey (midpoint a (some b)) = true ∧ compare a (midpoint a (some b)) = .lt ∧
      compare (midpoint a (some b)) b = .lt := by
  induction b generalizing a with
  | nil => cases key
  | cons d b ih =>
    obtain ⟨_,above,_⟩ := isAKey_iff.mp key
    rw [midpoint_cons]
    split
    · rename_i heads
      obtain ⟨tailKey,tailLess⟩ := key_goes_on key less heads
      obtain ⟨isKey,low,high⟩ := ih (fun c member => digits c (List.mem_of_mem_tail member)) tailKey tailLess
      refine ⟨isAKey_cons (Digits.cons_iff.mp above).1 isKey,?_,cons_lt_iff.mpr high⟩
      cases a with
      | nil => rfl
      | cons c rest =>
        cases show c = d from heads
        exact cons_lt_iff.mpr low
    · rename_i heads
      exact apart_key digits above less heads

-- A key minted between two keys is a key and sorts strictly between them, and two
-- keys with the lower one first always have one between them.
def Under (lower : Option Text) (key : Text) : Prop := ∀ below, lower = some below → compare below key = .lt
def Over (upper : Option Text) (key : Text) : Prop := ∀ above, upper = some above → compare key above = .lt
def Keyed (bound : Option Text) : Prop := ∀ key, bound = some key → isAKey key = true

theorem between_guard {lower upper : Option Text} :
    (lower.toList ++ upper.toList).find? (!isAKey ·) = none ↔ Keyed lower ∧ Keyed upper := by
  simp only [List.find?_eq_none,List.mem_append,Option.mem_toList,Bool.not_eq_true',Bool.not_eq_false,or_imp,
    forall_and]
  rfl

theorem crossed_none {lower upper : Option Text} : crossed lower upper = none ↔
    ∀ low high, lower = some low → upper = some high → compare low high = .lt := by
  cases lower <;> cases upper <;> simp [crossed]

theorem midpoint_between {lower upper : Option Text} (below : Keyed lower) (above : Keyed upper)
    (room : ∀ low high, lower = some low → upper = some high → compare low high = .lt) :
    isAKey (midpoint (lower.getD []) upper) = true ∧ Under lower (midpoint (lower.getD []) upper) ∧
      Over upper (midpoint (lower.getD []) upper) := by
  have digits : Digits (lower.getD []) := by
    cases lower with
    | none => intro c member; cases member
    | some low => exact (isAKey_iff.mp (below low rfl)).2.1
  have under : ∀ {key}, compare (lower.getD []) key = .lt → Under lower key := by
    intro key less low same
    subst same
    exact less
  cases upper with
  | none =>
    obtain ⟨isKey,less⟩ := above_key digits
    exact ⟨isKey,under less,fun _ none => by cases none⟩
  | some high =>
    have key := above high rfl
    have less : compare (lower.getD []) high = .lt := by
      cases lower with
      | none =>
        obtain ⟨c,rest,rfl⟩ := List.exists_cons_of_ne_nil (isAKey_iff.mp key).1
        rfl
      | some low => exact room low high rfl rfl
    obtain ⟨isKey,low,beneath⟩ := midpoint_key digits key less
    exact ⟨isKey,under low,fun above same => by cases same; exact beneath⟩

theorem between_ok {lower upper : Option Text} (below : Keyed lower) (above : Keyed upper)
    (room : ∀ low high, lower = some low → upper = some high → compare low high = .lt) :
    between lower upper = .ok (midpoint (lower.getD []) upper) := by
  have uncrossed := crossed_none.mpr room
  rw [between,between_guard.mpr ⟨below,above⟩,uncrossed]

theorem between_inv {lower upper : Option Text} (minted : between lower upper = .ok key) :
    Keyed lower ∧ Keyed upper ∧ (∀ low high, lower = some low → upper = some high → compare low high = .lt) ∧
      key = midpoint (lower.getD []) upper := by
  rw [between] at minted
  split at minted
  · cases minted
  · cases minted
  · rename_i guarded uncrossed
    obtain ⟨below,above⟩ := between_guard.mp guarded
    exact ⟨below,above,crossed_none.mp uncrossed,(Except.ok.inj minted).symm⟩

theorem between_key {lower upper : Option Text} (minted : between lower upper = .ok key) :
    isAKey key = true ∧ Under lower key ∧ Over upper key := by
  obtain ⟨below,above,room,rfl⟩ := between_inv minted
  exact midpoint_between below above room

-- A spread answers, with that many keys in order, all of them inside its bounds.
theorem spreadFrom_keys {fuel count : Nat} {lower upper : Option Text} (enough : count ≤ fuel)
    (below : Keyed lower) (above : Keyed upper)
    (room : ∀ low high, lower = some low → upper = some high → compare low high = .lt) :
    ∃ keys, spreadFrom fuel lower upper count = .ok keys ∧ keys.length = count ∧
      keys.Pairwise (fun a b => compare a b = .lt) ∧
      ∀ key ∈ keys, isAKey key = true ∧ Under lower key ∧ Over upper key := by
  induction fuel generalizing lower upper count with
  | zero =>
    have none : count = 0 := by omega
    subst none
    exact ⟨[],rfl,rfl,.nil,by simp⟩
  | succ fuel ih =>
    cases count with
    | zero => exact ⟨[],rfl,rfl,.nil,by simp⟩
    | succ count =>
      have minted := between_ok below above room
      obtain ⟨isKey,under,beneath⟩ := between_key minted
      generalize midpoint (lower.getD []) upper = middle at minted isKey under beneath
      have keyed : Keyed (some middle) := fun key same => by cases same; exact isKey
      have few : (count+1)/2 ≤ fuel ∧ count+1-(count+1)/2-1 ≤ fuel := by omega
      obtain ⟨firsts,first,firstLength,firstOrder,firstBounds⟩ := ih few.1 below keyed
        (fun low high lowIs highIs => by cases highIs; exact under low lowIs)
      obtain ⟨rests,rest,restLength,restOrder,restBounds⟩ := ih few.2 keyed above
        (fun low high lowIs highIs => by cases lowIs; exact beneath high highIs)
      refine ⟨firsts ++ middle :: rests,?_,?_,?_,?_⟩
      · rw [spreadFrom,minted]
        simp only [bind,Except.bind,first,rest]
      · simp only [List.length_append,List.length_cons]; omega
      · refine List.pairwise_append.mpr ⟨firstOrder,List.pairwise_cons.mpr ⟨?_,restOrder⟩,?_⟩
        · exact fun key member => (restBounds key member).2.1 middle rfl
        · intro key inFirst other inRest
          have before := (firstBounds key inFirst).2.2 middle rfl
          rcases List.mem_cons.mp inRest with rfl | inRest
          · exact before
          · exact TransCmp.lt_trans before ((restBounds other inRest).2.1 middle rfl)
      · intro key member
        rcases List.mem_append.mp member with member | member
        · obtain ⟨isKey,low,high⟩ := firstBounds key member
          exact ⟨isKey,low,fun top same => TransCmp.lt_trans (high middle rfl) (beneath top same)⟩
        · rcases List.mem_cons.mp member with rfl | member
          · exact ⟨isKey,under,beneath⟩
          · obtain ⟨isKey,low,high⟩ := restBounds key member
            exact ⟨isKey,fun bottom same => TransCmp.lt_trans (under bottom same) (low middle rfl),high⟩

theorem spread_keys (count : Nat) : ∃ keys, spread none none count = .ok keys ∧ keys.length = count ∧
    keys.Pairwise (fun a b => compare a b = .lt) ∧ ∀ key ∈ keys, isAKey key = true := by
  have unkeyed : Keyed none := fun _ none => by cases none
  obtain ⟨keys,ran,length,order,bounds⟩ := spreadFrom_keys (Nat.le_refl count) unkeyed unkeyed
    (fun _ _ none => by cases none)
  exact ⟨keys,ran,length,order,fun key member => (bounds key member).1⟩

end Memory
