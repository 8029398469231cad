import Jojobot.Library.Chase

namespace Library
open Relation

variable {κ : Type} {next more : κ → Option κ} {a b c start : κ}

abbrev Climbs (next : κ → Option κ) : κ → κ → Prop := TransGen (Steps next)

theorem Unlooped.fewer (unlooped : Unlooped next) (fewer : ∀ a b, more a = some b → next a = some b) : Unlooped more := by
  intro a loop
  exact unlooped a (TransGen.mono fewer _ _ loop)

-- One thing placed anew, above none of its own.
theorem Unlooped.placed [DecidableEq κ] (unlooped : Unlooped next) (thing : κ) (above : Option κ)
    (clear : ∀ named, above = some named → named ≠ thing ∧ ¬Climbs next named thing) :
    Unlooped (Function.update next thing above) := by
  -- A climb that leaves the thing goes through what it was placed under.
  have split : ∀ a b, Climbs (Function.update next thing above) a b →
      Climbs next a b ∨ ((a = thing ∨ Climbs next a thing) ∧ ∃ named, above = some named ∧ (b = named ∨ Climbs next named b)) := by
    intro a b climb
    induction climb with
    | single step =>
      by_cases here : a = thing
      · subst here
        rw [Steps,Function.update_self] at step
        exact Or.inr ⟨Or.inl rfl,_,step,Or.inl rfl⟩
      · rw [Steps,Function.update_of_ne here] at step
        exact Or.inl (.single step)
    | @tail b c path step ih =>
      by_cases here : b = thing
      · subst here
        rw [Steps,Function.update_self] at step
        rcases ih with climb | ⟨below,_⟩
        · exact Or.inr ⟨Or.inr climb,_,step,Or.inl rfl⟩
        · exact Or.inr ⟨below,_,step,Or.inl rfl⟩
      · rw [Steps,Function.update_of_ne here] at step
        rcases ih with climb | ⟨below,named,placed,reaches⟩
        · exact Or.inl (climb.tail step)
        · refine Or.inr ⟨below,named,placed,?_⟩
          rcases reaches with same | climb
          · subst same
            exact Or.inr (.single step)
          · exact Or.inr (climb.tail step)
  intro a loop
  rcases split a a loop with climb | ⟨below,named,placed,reaches⟩
  · exact unlooped a climb
  · obtain ⟨apart,clear⟩ := clear named placed
    rcases reaches with same | reaches
    · subst same
      rcases below with same | climb
      · exact apart same
      · exact clear climb
    · rcases below with same | climb
      · subst same
        exact clear reaches
      · exact clear (reaches.trans climb)

-- What names one thing names another, and the one is gone.
def renamed [DecidableEq κ] (gone kept named : κ) : κ := if named = gone then kept else named

-- Two things made one, neither above the other: what reaches either reaches both.
theorem Unlooped.joined [DecidableEq κ] (unlooped : Unlooped next) (gone kept : κ) (clear : ¬Climbs next gone kept)
    (clear' : ¬Climbs next kept gone)
    (joins : ∀ a b, more a = some b → ∃ from' to', renamed gone kept from' = a ∧ renamed gone kept to' = b ∧ next from' = some to') :
    Unlooped more := by
  have apart : ∀ one other, renamed gone kept one = kept → renamed gone kept other = kept → ¬Climbs next one other := by
    intro one other first second climb
    have sided : ∀ item, renamed gone kept item = kept → item = gone ∨ item = kept := by
      intro item same
      unfold renamed at same
      split at same
      · rename_i here
        exact Or.inl here
      · exact Or.inr same
    rcases sided one first with here | here
    · rcases sided other second with there | there
      · subst here there
        exact unlooped _ climb
      · subst here there
        exact clear climb
    · rcases sided other second with there | there
      · subst here there
        exact clear' climb
      · subst here there
        exact unlooped _ climb
  have only : ∀ one other, renamed gone kept one = renamed gone kept other → one = other ∨ renamed gone kept one = kept := by
    intro one other same
    unfold renamed at same ⊢
    by_cases first : one = gone
    · right
      rw [if_pos first]
    · rw [if_neg first] at same ⊢
      by_cases second : other = gone
      · rw [if_pos second] at same
        exact Or.inr same
      · rw [if_neg second] at same
        exact Or.inl same
  have split : ∀ a b, Climbs more a b →
      (∃ from' to', renamed gone kept from' = a ∧ renamed gone kept to' = b ∧ Climbs next from' to') ∨
        (∃ from' side, renamed gone kept from' = a ∧ renamed gone kept side = kept ∧ Climbs next from' side) ∧
          ∃ side to', renamed gone kept side = kept ∧ renamed gone kept to' = b ∧ Climbs next side to' := by
    intro a b climb
    induction climb with
    | single step =>
      obtain ⟨from',to',first,second,stepped⟩ := joins _ _ step
      exact Or.inl ⟨from',to',first,second,.single stepped⟩
    | tail path step ih =>
      obtain ⟨middle,to',first,second,stepped⟩ := joins _ _ step
      rcases ih with ⟨from',reached,here,there,climb⟩ | ⟨lower,side,reached,joined,there,climb⟩
      · rcases only reached middle (there.trans first.symm) with same | here'
        · subst same
          exact Or.inl ⟨from',to',here,second,climb.tail stepped⟩
        · exact Or.inr ⟨⟨from',reached,here,here',climb⟩,middle,to',first.trans (there.symm.trans here'),second,.single stepped⟩
      · rcases only reached middle (there.trans first.symm) with same | here'
        · subst same
          exact Or.inr ⟨lower,side,to',joined,second,climb.tail stepped⟩
        · exact Or.inr ⟨lower,middle,to',first.trans (there.symm.trans here'),second,.single stepped⟩
  intro a loop
  rcases split a a loop with ⟨from',to',first,second,climb⟩ | ⟨⟨from',side,first,joined,climb⟩,side',to',joined',second,climb'⟩
  · rcases only from' to' (first.trans second.symm) with same | here
    · subst same
      exact unlooped _ climb
    · exact apart from' to' here (second.trans (first.symm.trans here)) climb
  · rcases only to' from' (second.trans first.symm) with same | here
    · subst same
      exact apart side' side joined' joined (climb'.trans climb)
    · exact apart side' to' joined' here climb'

-- What a climb passes on its way from one thing to another.
inductive Stretch (next : κ → Option κ) (start : κ) : List κ → κ → Prop where
  | start : Stretch next start [] start
  | up {chain : List κ} {last above : κ} : Stretch next start chain last → next last = some above →
      Stretch next start (chain ++ [above]) above

-- A stretch that goes all the way up.
def Whole (next : κ → Option κ) (start : κ) (chain : List κ) : Prop := ∃ last, Stretch next start chain last ∧ next last = none

variable {chain : List κ} {last : κ}

theorem Stretch.reaches (stretch : Stretch next start chain last) : ∀ one ∈ start :: chain, ReflTransGen (Steps next) one last := by
  induction stretch with
  | start =>
    intro one member
    cases List.mem_singleton.mp member
    exact .refl
  | up earlier step ih =>
    intro one member
    rw [←List.cons_append] at member
    rcases List.mem_append.mp member with below | top
    · exact (ih one below).tail step
    · cases List.mem_singleton.mp top
      exact .refl

theorem Stretch.fresh (unlooped : Unlooped next) (stretch : Stretch next start chain last) (step : next last = some a) :
    a ∉ start :: chain := by
  intro member
  exact unlooped a (TransGen.tail' (stretch.reaches a member) step)

theorem Stretch.nodup (unlooped : Unlooped next) (stretch : Stretch next start chain last) : (start :: chain).Nodup := by
  induction stretch with
  | start => exact List.nodup_singleton _
  | up earlier step ih =>
    rw [←List.cons_append]
    apply ih.append (List.nodup_singleton _)
    intro one below top
    cases List.mem_singleton.mp top
    exact earlier.fresh unlooped step below

theorem Stretch.climbs (stretch : Stretch next start chain last) : ∀ one ∈ chain, Climbs next start one := by
  induction stretch with
  | start => exact List.forall_mem_nil _
  | up earlier step ih =>
    intro one member
    rcases List.mem_append.mp member with below | top
    · exact ih one below
    · cases List.mem_singleton.mp top
      exact TransGen.tail' (earlier.reaches _ List.mem_cons_self) step

theorem Stretch.onward (stretch : Stretch next start chain last) :
    ∀ one ∈ start :: chain, one = last ∨ ∃ above ∈ chain, next one = some above := by
  induction stretch with
  | start =>
    intro one member
    exact Or.inl (List.mem_singleton.mp member)
  | @up chain last above earlier step ih =>
    have top : above ∈ chain ++ [above] := List.mem_append_right _ List.mem_cons_self
    intro one member
    rw [←List.cons_append] at member
    rcases List.mem_append.mp member with below | here
    · right
      rcases ih one below with same | ⟨named,found,goes⟩
      · subst same
        exact ⟨above,top,step⟩
      · exact ⟨named,List.mem_append_left _ found,goes⟩
    · exact Or.inl (List.mem_singleton.mp here)

theorem Whole.mem_iff (whole : Whole next start chain) : a ∈ chain ↔ Climbs next start a := by
  obtain ⟨last,stretch,ends⟩ := whole
  constructor
  · exact stretch.climbs a
  · have onward : ∀ one ∈ start :: chain, ∀ above, next one = some above → above ∈ chain := by
      intro one member above step
      rcases stretch.onward one member with same | ⟨named,found,goes⟩
      · subst same
        rw [ends] at step
        cases step
      · cases goes.symm.trans step
        exact found
    intro climb
    induction climb with
    | single step => exact onward start List.mem_cons_self _ step
    | tail _ step ih => exact onward _ (List.mem_cons_of_mem _ ih) _ step

-- Each thing a stretch passes but its last has something above it.
theorem Stretch.bounded {domain : List κ} (covers : ∀ one, next one ≠ none → one ∈ domain)
    (stretch : Stretch next start chain last) (apart : (start :: chain).Nodup) : chain.length ≤ domain.length := by
  cases stretch with
  | start => exact Nat.zero_le _
  | @up below last _ earlier step =>
    rw [←List.cons_append] at apart
    have inside : start :: below ⊆ domain := by
      intro one member
      apply covers
      rcases earlier.onward one member with same | ⟨named,_,goes⟩
      · rw [same,step]
        exact Option.some_ne_none _
      · rw [goes]
        exact Option.some_ne_none _
    have fits := (apart.of_append_left.subperm inside).length_le
    rw [List.length_append]
    exact fits

-- A stretch that comes back on itself, or ends, has passed all there is to climb.
theorem Stretch.closed (stretch : Stretch next start chain last)
    (back : ∀ above, next last = some above → above ∈ start :: chain) (climb : Climbs next start a) : a ∈ start :: chain := by
  have onward : ∀ one ∈ start :: chain, ∀ above, next one = some above → above ∈ start :: chain := by
    intro one member above step
    rcases stretch.onward one member with same | ⟨named,found,goes⟩
    · subst same
      exact back above step
    · cases goes.symm.trans step
      exact List.mem_cons_of_mem _ found
  induction climb with
  | single step => exact onward start List.mem_cons_self _ step
  | tail _ step ih => exact onward _ ih _ step

theorem Stretch.settled (stretch : Stretch next start chain last) (apart : (start :: chain).Nodup)
    (back : ∀ above, next last = some above → above ∈ start :: chain) : a ∈ chain ↔ a ≠ start ∧ Climbs next start a := by
  constructor
  · intro member
    refine ⟨?_,stretch.climbs a member⟩
    intro same
    subst same
    exact (List.nodup_cons.mp apart).1 member
  · intro both
    exact (List.mem_cons.mp (stretch.closed back both.2)).resolve_left both.1

-- The walk that stops where it has been before.
def climbed [DecidableEq κ] (next : κ → Option κ) : Nat → List κ → κ → List κ
  | 0,_,_ => []
  | more+1,seen,here =>
    match next here with
    | none => []
    | some above => if above ∈ seen then [] else above :: climbed next more (seen ++ [above]) above

theorem climbed_onward [DecidableEq κ] {domain : List κ} (covers : ∀ one, next one ≠ none → one ∈ domain) (more : Nat)
    (stretch : Stretch next start chain last) (apart : (start :: chain).Nodup) (enough : domain.length < more+chain.length) :
    a ∈ chain ∨ a ∈ climbed next more (start :: chain) last ↔ a ≠ start ∧ Climbs next start a := by
  induction more generalizing chain last with
  | zero =>
    have fits := stretch.bounded covers apart
    omega
  | succ more ih =>
    unfold climbed
    cases goes : next last with
    | none =>
      rw [←stretch.settled apart fun above step => by rw [goes] at step; cases step]
      simp
    | some above =>
      dsimp only
      split
      · rename_i been
        rw [←stretch.settled apart fun other step => by rw [goes] at step; cases step; exact been]
        simp
      · rename_i fresh
        have apart' : (start :: (chain ++ [above])).Nodup := by
          rw [←List.cons_append]
          apply apart.append (List.nodup_singleton _)
          intro one below top
          cases List.mem_singleton.mp top
          exact fresh below
        have longer : domain.length < more+(chain ++ [above]).length := by
          rw [List.length_append,List.length_singleton]
          omega
        rw [←ih (stretch.up goes) apart' longer,List.mem_append,List.mem_singleton,List.mem_cons,or_assoc]
        rfl

theorem mem_climbed [DecidableEq κ] {domain : List κ} (covers : ∀ one, next one ≠ none → one ∈ domain) :
    a ∈ climbed next (domain.length+1) [start] start ↔ a ≠ start ∧ Climbs next start a := by
  rw [←climbed_onward covers (domain.length+1) .start (List.nodup_singleton _) (Nat.lt_succ_self _)]
  simp

-- The climb itself, `more` bounding what it passes.
def lineUp (next : κ → Option κ) : Nat → κ → List κ
  | 0,_ => []
  | more+1,here =>
    match next here with
    | none => []
    | some above => above :: lineUp next more above

theorem lineUp_onward {domain : List κ} (unlooped : Unlooped next) (covers : ∀ one, next one ≠ none → one ∈ domain) (more : Nat)
    (stretch : Stretch next start chain last) (enough : domain.length ≤ more+chain.length) :
    Whole next start (chain ++ lineUp next more last) := by
  induction more generalizing chain last with
  | zero =>
    refine ⟨last,by simpa [lineUp] using stretch,?_⟩
    cases goes : next last with
    | none => rfl
    | some above =>
      have fits := (stretch.up goes).bounded covers ((stretch.up goes).nodup unlooped)
      rw [List.length_append,List.length_singleton] at fits
      omega
  | succ more ih =>
    unfold lineUp
    cases goes : next last with
    | none => exact ⟨last,by simpa using stretch,goes⟩
    | some above =>
      have longer : domain.length ≤ more+(chain ++ [above]).length := by
        rw [List.length_append,List.length_singleton]
        omega
      simpa using ih (stretch.up goes) longer

theorem lineUp_whole {domain : List κ} (unlooped : Unlooped next) (covers : ∀ one, next one ≠ none → one ∈ domain) (start : κ) :
    Whole next start (lineUp next domain.length start) := by
  simpa using lineUp_onward unlooped covers domain.length .start (Nat.le_refl _)

theorem mem_lineUp {domain : List κ} (unlooped : Unlooped next) (covers : ∀ one, next one ≠ none → one ∈ domain) (start a : κ) :
    a ∈ start :: lineUp next domain.length start ↔ ReflTransGen (Steps next) start a := by
  rw [List.mem_cons,(lineUp_whole unlooped covers start).mem_iff]
  exact reflTransGen_iff_eq_or_transGen.symm

end Library
