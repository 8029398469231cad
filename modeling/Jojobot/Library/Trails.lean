import Mathlib

namespace Library

variable {L V : Type} {next : V → List (L × V)}

-- A way through a graph, each link with the thing it ends at.
abbrev Trail (L V : Type) := List (L × V)

def ending (start : V) (trail : Trail L V) : V := (trail.getLast?.map Prod.snd).getD start

def Linked (next : V → List (L × V)) : Nat → V → V → Prop
  | 0,v,w => v = w
  | n+1,v,w => ∃ link ∈ next v, Linked next n link.2 w

-- How many links one thing is from another, by the shortest way.
def Away (next : V → List (L × V)) (v : V) (n : Nat) (w : V) : Prop := IsLeast {m | Linked next m v w} n

-- A walk in depth that goes into nothing twice: one link of a thing it is at.
def enter [DecidableEq V] (into : V → List V → List (Trail L V)) (v : V) (seen : List V)
    (found : List (Trail L V)) (link : L × V) : List (Trail L V) :=
  if link.2 ∈ seen ++ found.map (ending v) then found
  else found ++ [link] :: (into link.2 (seen ++ found.map (ending v) ++ [link.2])).map (link :: ·)

def visit [DecidableEq V] (next : V → List (L × V)) : Nat → V → List V → List (Trail L V)
  | 0,_,_ => []
  | n+1,v,seen => (next v).foldl (enter (visit next n) v seen) []

@[simp] theorem ending_nil (start : V) : ending (L := L) start [] = start := rfl

@[simp] theorem ending_single (start : V) (link : L × V) : ending start [link] = link.2 := rfl

@[simp] theorem ending_snoc (start : V) (trail : Trail L V) (link : L × V) :
    ending start (trail ++ [link]) = link.2 := by
  simp [ending]

theorem ending_cons (start : V) (link : L × V) (trail : Trail L V) :
    ending start (link :: trail) = ending link.2 trail := by
  cases trail with
  | nil => rfl
  | cons next rest => simp [ending,List.getLast?_cons]

theorem endings_below (v : V) (link : L × V) (below : List (Trail L V)) :
    (below.map (link :: ·)).map (ending v) = below.map (ending link.2) := by
  simp [Function.comp_def,ending_cons]

-- The links of a thing that a walk with so many links to spare goes along.
def spared (next : V → List (L × V)) : Nat → V → List (L × V)
  | 0,_ => []
  | _+1,v => next v

-- What a walk of a thing found by the links of it that were tried.
structure Visits [DecidableEq V] (next : V → List (L × V)) (n : Nat) (v : V) (seen : List V)
    (tried : List (L × V)) (found : List (Trail L V)) : Prop where
  within : ∀ trail ∈ found, trail ≠ [] ∧ trail.length ≤ n
  fresh : ∀ trail ∈ found, ending v trail ∉ seen
  apart : (found.map (ending v)).Nodup
  grown : ∀ trail ∈ found, ∃ before link, trail = before ++ [link] ∧
    (before = [] ∧ link ∈ tried ∨ before ∈ found ∧ link ∈ next (ending v before))
  closed : ∀ trail ∈ found, trail.length < n → ∀ link ∈ next (ending v trail),
    link.2 ∈ seen ++ found.map (ending v)
  opened : ∀ link ∈ tried, link.2 ∈ seen ++ found.map (ending v)

variable [DecidableEq V] {n : Nat} {v : V} {seen : List V} {tried : List (L × V)} {found : List (Trail L V)}

theorem Visits.start : Visits next n v seen [] [] :=
  ⟨nofun,nofun,.nil,nofun,nofun,nofun⟩

theorem Visits.passed {link : L × V} (given : Visits next n v seen tried found)
    (met : link.2 ∈ seen ++ found.map (ending v)) : Visits next n v seen (tried ++ [link]) found := by
  refine { given with grown := ?_,opened := ?_ }
  · intro trail has
    obtain ⟨before,last,shape,grown⟩ := given.grown trail has
    refine ⟨before,last,shape,grown.imp_left ?_⟩
    intro ⟨empty,tried⟩
    exact ⟨empty,List.mem_append_left _ tried⟩
  · intro other has
    rcases List.mem_append.mp has with had | is
    · exact given.opened other had
    · rwa [List.mem_singleton.mp is]

-- A walk gone into from a link: the ways it finds start with the link.
omit [DecidableEq V] in
theorem mem_entered {link : L × V} {below : List (Trail L V)} {trail : Trail L V} :
    trail ∈ found ++ [link] :: below.map (link :: ·) ↔ trail ∈ found ∨ trail = [link] ∨ ∃ rest ∈ below, link :: rest = trail := by
  rw [List.mem_append,List.mem_cons,List.mem_map]

omit [DecidableEq V] in
theorem endings_entered (link : L × V) (below : List (Trail L V)) :
    (found ++ [link] :: below.map (link :: ·)).map (ending v) = found.map (ending v) ++ link.2 :: below.map (ending link.2) := by
  rw [List.map_append,List.map_cons,endings_below]
  rfl

theorem Visits.apart_entered {link : L × V} {below : List (Trail L V)} (given : Visits next (n+1) v seen tried found)
    (new : link.2 ∉ seen ++ found.map (ending v))
    (went : Visits next n link.2 (seen ++ found.map (ending v) ++ [link.2]) (spared next n link.2) below) :
    (found.map (ending v) ++ link.2 :: below.map (ending link.2)).Nodup := by
  rw [List.nodup_append]
  refine ⟨given.apart,?_,?_⟩
  · rw [List.nodup_cons]
    refine ⟨?_,went.apart⟩
    intro has
    obtain ⟨rest,has,same⟩ := List.mem_map.mp has
    exact went.fresh rest has (by simp [same])
  · intro a had b has same
    subst same
    rcases List.mem_cons.mp has with is | has
    · exact new (List.mem_append_right _ (is ▸ had))
    · obtain ⟨rest,has,same⟩ := List.mem_map.mp has
      refine went.fresh rest has ?_
      rw [same]
      exact List.mem_append_left _ (List.mem_append_right _ had)

theorem Visits.grown_entered {link : L × V} {below : List (Trail L V)} (given : Visits next (n+1) v seen tried found)
    (went : Visits next n link.2 (seen ++ found.map (ending v) ++ [link.2]) (spared next n link.2) below)
    (trail : Trail L V) (has : trail ∈ found ++ [link] :: below.map (link :: ·)) :
    ∃ before last, trail = before ++ [last] ∧ (before = [] ∧ last ∈ tried ++ [link] ∨
      before ∈ found ++ [link] :: below.map (link :: ·) ∧ last ∈ next (ending v before)) := by
  rcases mem_entered.mp has with had | rfl | ⟨rest,deep,rfl⟩
  · obtain ⟨before,last,shape,grown⟩ := given.grown trail had
    refine ⟨before,last,shape,?_⟩
    rcases grown with ⟨empty,tried⟩ | ⟨there,linked⟩
    · exact .inl ⟨empty,List.mem_append_left _ tried⟩
    · exact .inr ⟨List.mem_append_left _ there,linked⟩
  · exact ⟨[],link,rfl,.inl ⟨rfl,by simp⟩⟩
  · obtain ⟨before,last,rfl,grown⟩ := went.grown rest deep
    refine ⟨link :: before,last,rfl,.inr ?_⟩
    rw [ending_cons,mem_entered]
    rcases grown with ⟨rfl,linked⟩ | ⟨there,linked⟩
    · cases n with
      | zero => exact absurd linked List.not_mem_nil
      | succ n => exact ⟨.inr (.inl rfl),linked⟩
    · exact ⟨.inr (.inr ⟨before,there,rfl⟩),linked⟩

theorem Visits.entered {link : L × V} {below : List (Trail L V)} (given : Visits next (n+1) v seen tried found)
    (new : link.2 ∉ seen ++ found.map (ending v))
    (went : Visits next n link.2 (seen ++ found.map (ending v) ++ [link.2]) (spared next n link.2) below) :
    Visits next (n+1) v seen (tried ++ [link]) (found ++ [link] :: below.map (link :: ·)) := by
  have wider : ∀ w, w ∈ seen ++ found.map (ending v) ++ [link.2] ++ below.map (ending link.2) →
      w ∈ seen ++ (found ++ [link] :: below.map (link :: ·)).map (ending v) := by
    intro w has
    rw [endings_entered]
    simpa [List.append_assoc] using has
  constructor
  · intro trail has
    rcases mem_entered.mp has with had | rfl | ⟨rest,deep,rfl⟩
    · exact given.within trail had
    · simp
    · have short := (went.within rest deep).2
      simp only [ne_eq,reduceCtorEq,not_false_eq_true,List.length_cons,true_and]
      omega
  · intro trail has
    rcases mem_entered.mp has with had | rfl | ⟨rest,deep,rfl⟩
    · exact given.fresh trail had
    · intro old
      exact new (List.mem_append_left _ old)
    · intro old
      rw [ending_cons] at old
      exact went.fresh rest deep (by simp [old])
  · rw [endings_entered]
    exact given.apart_entered new went
  · exact given.grown_entered went
  · intro trail has short other linked
    apply wider
    rcases mem_entered.mp has with had | rfl | ⟨rest,deep,rfl⟩
    · have old := given.closed trail had short other linked
      simp only [List.mem_append] at old ⊢
      tauto
    · cases n with
      | zero => simp at short
      | succ n => exact went.opened other linked
    · rw [ending_cons] at linked
      exact went.closed rest deep (by simpa using short) other linked
  · intro other has
    apply wider
    rcases List.mem_append.mp has with had | is
    · have old := given.opened other had
      simp only [List.mem_append] at old ⊢
      tauto
    · rw [List.mem_singleton.mp is]
      simp

theorem Visits.tried_all (given : Visits next (n+1) v seen tried found) (rest : List (L × V))
    (went : ∀ w seen, Visits next n w seen (spared next n w) (visit next n w seen)) :
    Visits next (n+1) v seen (tried ++ rest) (rest.foldl (enter (visit next n) v seen) found) := by
  induction rest generalizing tried found with
  | nil => simpa using given
  | cons link rest ih =>
    rw [List.foldl_cons,List.append_cons]
    apply ih
    unfold enter
    split
    · rename_i met
      exact given.passed met
    · rename_i new
      exact given.entered new (went ..)

theorem visits (next : V → List (L × V)) (n : Nat) : ∀ v seen,
    Visits next n v seen (spared next n v) (visit next n v seen) := by
  induction n with
  | zero => intro v seen; exact .start
  | succ n ih =>
    intro v seen
    have started : Visits next (n+1) v seen [] [] := .start
    have all := started.tried_all (next v) ih
    simpa [visit,spared] using all

omit [DecidableEq V] in
theorem Linked.snoc {w : V} {link : L × V} (linked : Linked next n v w) (further : link ∈ next w) :
    Linked next (n+1) v link.2 := by
  induction n generalizing v with
  | zero =>
    cases (show v = w from linked)
    exact ⟨link,further,rfl⟩
  | succ n ih =>
    obtain ⟨first,there,rest⟩ := linked
    exact ⟨first,there,ih rest⟩

theorem Visits.linked (given : Visits next n v seen tried found) (own : ∀ link ∈ tried, link ∈ next v) (length : Nat) :
    ∀ trail ∈ found, trail.length = length → Linked next length v (ending v trail) := by
  induction length with
  | zero =>
    intro trail has empty
    exact absurd (List.length_eq_zero_iff.mp empty) (given.within trail has).1
  | succ length ih =>
    intro trail has long
    obtain ⟨before,link,rfl,grown⟩ := given.grown trail has
    have short : before.length = length := by simpa using long
    rw [ending_snoc]
    rcases grown with ⟨rfl,linked⟩ | ⟨there,linked⟩
    · cases short
      exact ⟨link,own link linked,rfl⟩
    · exact (ih before there short).snoc linked

omit [DecidableEq V] in
theorem away_of_linked {w : V} (apart : w ≠ v) (linked : ∃ m ≤ n, Linked next m v w) :
    ∃ m, 1 ≤ m ∧ m ≤ n ∧ Away next v m w := by
  classical
  obtain ⟨m,short,linked⟩ := linked
  have some : ∃ m, Linked next m v w := ⟨m,linked⟩
  have least := Nat.find_min' some linked
  refine ⟨Nat.find some,?_,least.trans short,Nat.find_spec some,fun other has => Nat.find_min' some has⟩
  rw [Nat.one_le_iff_ne_zero]
  intro none
  have here := Nat.find_spec some
  rw [none] at here
  exact apart here.symm

end Library
