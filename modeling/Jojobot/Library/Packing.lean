import Mathlib.Data.Nat.Find

namespace Library

variable {piece : Nat → Nat → Prop} {onward : Nat → Prop} {start bound count one two : Nat}

-- What so many pieces, each begun where the one before ended, come to.
inductive Reaches (piece : Nat → Nat → Prop) (start : Nat) : Nat → Nat → Prop where
  | here : Reaches piece start 0 start
  | next {count one two : Nat} : Reaches piece start count one → piece one two → Reaches piece start (count+1) two

-- The furthest place that at most so many pieces come to.
structure Furthest (piece : Nat → Nat → Prop) (start count place : Nat) : Prop where
  reached : ∃ few ≤ count, Reaches piece start few place
  most : ∀ few ≤ count, ∀ other, Reaches piece start few other → other ≤ place

-- A furthest place, when from each one that fewer pieces come to it goes on.
def Packed (piece : Nat → Nat → Prop) (onward : Nat → Prop) (start place : Nat) : Prop :=
  ∃ count, Furthest piece start count place ∧ ∀ few < count, ∀ one, Furthest piece start few one → onward one

structure Longest (piece : Nat → Nat → Prop) (one two : Nat) : Prop where
  taken : piece one two
  most : ∀ other, piece one other → other ≤ two

-- What takes the longest piece there is, again and again.
inductive Greedy (piece : Nat → Nat → Prop) (onward : Nat → Prop) (start : Nat) : Nat → Prop where
  | here : Greedy piece onward start start
  | next {one two : Nat} : Greedy piece onward start one → onward one → Longest piece one two → Greedy piece onward start two

-- Pieces that can be begun later: what stays of one is one, or every piece from there
-- goes at least as far.
structure Packs (piece : Nat → Nat → Prop) (start bound : Nat) : Prop where
  forward : ∀ one two, piece one two → one < two
  within : ∀ one two, piece one two → two ≤ bound
  later : ∀ one later two, start < one → one ≤ later → later < two → piece one two →
    piece later two ∨ ∀ further, piece later further → two ≤ further

theorem Furthest.unique (first : Furthest piece start count one) (second : Furthest piece start count two) : one = two := by
  obtain ⟨few,within,reached⟩ := first.reached
  obtain ⟨few',within',reached'⟩ := second.reached
  exact Nat.le_antisymm (second.most few within one reached) (first.most few' within' two reached')

theorem Furthest.none (piece : Nat → Nat → Prop) (start : Nat) : Furthest piece start 0 start := by
  refine ⟨⟨0,Nat.le_refl _,.here⟩,?_⟩
  intro few none' other reached
  cases reached with
  | here => exact Nat.le_refl _
  | next => omega

theorem Packs.past (packs : Packs piece start bound) (reached : Reaches piece start count one) : start ≤ one ∧ (0 < count → start < one) := by
  induction reached with
  | here => exact ⟨Nat.le_refl _,fun some => absurd some (Nat.lt_irrefl 0)⟩
  | next _ step ih =>
    have further := packs.forward _ _ step
    have bound := ih.1
    exact ⟨by omega,fun _ => by omega⟩

theorem Packs.longest (packs : Packs piece start bound) (some : piece one two) : ∃ most, Longest piece one most := by
  classical
  have found := Nat.findGreatest_spec (packs.within one two some) some
  exact ⟨_,found,fun other taken => Nat.le_findGreatest (packs.within one other taken) taken⟩

-- The longest piece from a furthest place comes to the furthest place of one piece more.
theorem Furthest.next (packs : Packs piece start bound) (furthest : Furthest piece start count one) (longest : Longest piece one two) :
    Furthest piece start (count+1) two := by
  obtain ⟨few,within,reached⟩ := furthest.reached
  refine ⟨⟨few+1,by omega,.next reached longest.taken⟩,?_⟩
  intro many within' other reached'
  have further := packs.forward _ _ longest.taken
  cases reached' with
  | here => exact Nat.le_trans (packs.past reached).1 (Nat.le_of_lt further)
  | @next most before _ earlier step =>
    have ahead := furthest.most most (by omega) before earlier
    rcases Nat.lt_or_ge one other with past | short
    · rcases Nat.eq_zero_or_pos most with none' | some
      · -- No piece was taken yet: the furthest place is the start itself or a place beyond it.
        subst none'
        cases earlier
        rcases Nat.eq_zero_or_pos count with none' | some
        · subst none'
          have same := furthest.unique (.none piece start)
          exact longest.most other (same ▸ step)
        · exact absurd (furthest.most 1 some other (.next .here step)) (by omega)
      · have begun := (packs.past earlier).2 some
        rcases packs.later before one other begun ahead past step with kept | all
        · exact longest.most other kept
        · exact all two longest.taken
    · omega

-- The furthest places are where the longest pieces come to.
theorem packed_iff (packs : Packs piece start bound) (goes : ∀ one, onward one → ∃ two, piece one two) (place : Nat) :
    Packed piece onward start place ↔ Greedy piece onward start place := by
  constructor
  · intro packed
    obtain ⟨count,furthest,onwards⟩ := packed
    have each : ∀ few ≤ count, ∃ one, Furthest piece start few one ∧ Greedy piece onward start one := by
      intro few
      induction few with
      | zero => exact fun _ => ⟨start,.none piece start,.here⟩
      | succ few ih =>
        intro within
        obtain ⟨one,top,greedy⟩ := ih (by omega)
        have goesOn := onwards few (by omega) one top
        obtain ⟨two,step⟩ := goes one goesOn
        obtain ⟨most,longest⟩ := packs.longest step
        exact ⟨most,top.next packs longest,.next greedy goesOn longest⟩
    obtain ⟨one,top,greedy⟩ := each count (Nat.le_refl _)
    exact furthest.unique top ▸ greedy
  · intro greedy
    induction greedy with
    | here => exact ⟨0,.none piece start,fun few none' => absurd none' (Nat.not_lt_zero few)⟩
    | next _ goesOn longest ih =>
      obtain ⟨count,furthest,onwards⟩ := ih
      refine ⟨count+1,furthest.next packs longest,?_⟩
      intro few within one top
      rcases Nat.lt_or_eq_of_le (Nat.le_of_lt_succ within) with fewer | same
      · exact onwards few fewer one top
      · subst same
        exact top.unique furthest ▸ goesOn

end Library
