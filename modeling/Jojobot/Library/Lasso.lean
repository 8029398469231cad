import Jojobot.Library.Climb

namespace Library
open Relation

variable {κ : Type} {next : κ → Option κ} {start a b last onward : κ} {front chain after path : List κ}

-- A run given fuel answers, and answers the same with more.
def Returns {α : Type} (run : Nat → Option α) (answer : α) : Prop := ∃ enough, ∀ fuel, enough < fuel → run fuel = some answer

theorem Returns.unique {α : Type} {run : Nat → Option α} {one two : α} (first : Returns run one) (second : Returns run two) : one = two := by
  obtain ⟨enough,ran⟩ := first
  obtain ⟨enough',ran'⟩ := second
  have here := ran (max enough enough'+1) (by omega)
  have there := ran' (max enough enough'+1) (by omega)
  exact Option.some.inj (here.symm.trans there)

theorem Returns.of_more {α : Type} {run : Nat → Option α} {answer : α} (more : ∀ fuel, run fuel = some answer → run (fuel+1) = some answer)
    {few : Nat} (ran : run few = some answer) : Returns run answer := by
  refine ⟨few,?_⟩
  intro fuel enough
  induction enough with
  | refl => exact more few ran
  | step _ ih => exact more _ ih

-- What the following of a partial function comes back to.
def OnCycle (next : κ → Option κ) (start a : κ) : Prop := ReflTransGen (Steps next) start a ∧ TransGen (Steps next) a a
def Revisits (next : κ → Option κ) (start : κ) : Prop := ∃ a, OnCycle next start a

theorem Stretch.rest (stretch : Stretch next start chain last) (split : start :: chain = front ++ a :: after) :
    Stretch next a after last := by
  induction stretch generalizing after with
  | start =>
    cases front with
    | nil =>
      cases split
      exact .start
    | cons one front => simp at split
  | @up chain last above earlier step ih =>
    rcases List.eq_nil_or_concat after with none' | ⟨rest,top,some'⟩
    · subst none'
      rw [←List.cons_append] at split
      cases (List.append_inj' split rfl).2
      exact .start
    · subst some'
      have split' : (start :: chain) ++ [above] = (front ++ a :: rest) ++ [top] := by simpa using split
      obtain ⟨same,here⟩ := List.append_inj' split' rfl
      cases here
      rw [List.concat_eq_append]
      exact (ih same).up step

-- A stretch that comes back into itself never leaves the part it came back into.
theorem Stretch.inside (stretch : Stretch next a after last) (back : ∀ above, next last = some above → above ∈ after)
    (climb : Climbs next a b) : b ∈ after := by
  have onward : ∀ one ∈ a :: after, ∀ above, next one = some above → above ∈ after := by
    intro one member above step
    rcases stretch.onward one member with same | ⟨named,found,goes⟩
    · subst same
      exact back above step
    · cases goes.symm.trans step
      exact found
  induction climb with
  | single step => exact onward a List.mem_cons_self _ step
  | tail _ step ih => exact onward _ (List.mem_cons_of_mem _ ih) _ step

-- Of a stretch that comes back on itself, the part it came back into is the cycle.
theorem Stretch.cycle (stretch : Stretch next start chain last) (apart : (start :: chain).Nodup)
    (split : start :: chain = front ++ onward :: after) (back : next last = some onward) :
    a ∈ onward :: after ↔ OnCycle next start a := by
  have around := stretch.rest split
  have reaches : ∀ one ∈ start :: chain, ReflTransGen (Steps next) start one := by
    intro one member
    rcases List.mem_cons.mp member with same | above
    · exact same ▸ .refl
    · exact (stretch.climbs one above).to_reflTransGen
  have here : onward ∈ start :: chain := split ▸ List.mem_append_right _ List.mem_cons_self
  constructor
  · intro member
    refine ⟨reaches a (split ▸ List.mem_append_right _ member),?_⟩
    have down : ReflTransGen (Steps next) onward a := by
      rcases List.mem_cons.mp member with same | above
      · exact same ▸ .refl
      · exact (around.climbs a above).to_reflTransGen
    exact TransGen.trans_left (TransGen.tail' (around.reaches a member) back) down
  · intro both
    have member : a ∈ start :: chain := by
      rcases reflTransGen_iff_eq_or_transGen.mp both.1 with same | climb
      · exact same ▸ List.mem_cons_self
      · refine stretch.closed ?_ climb
        intro above step
        cases back.symm.trans step
        exact here
    rw [split] at member
    rcases List.mem_append.mp member with before | inside
    · -- A thing before the part come back into is left behind for good.
      obtain ⟨ahead,behind,same⟩ := List.append_of_mem before
      subst same
      have split' : start :: chain = ahead ++ a :: (behind ++ onward :: after) := by simpa using split
      have again := (stretch.rest split').inside
        (fun above step => by cases back.symm.trans step; exact List.mem_append_right _ List.mem_cons_self) both.2
      rw [split'] at apart
      exact absurd again (List.nodup_cons.mp apart.of_append_right).1
    · exact inside

structure Chased (κ : Type) where
  path : List κ
  last : κ
  looped : Option Nat

-- Following until nothing is next or what is next was passed.
def chased [DecidableEq κ] (next : κ → Option κ) : Nat → List κ → κ → Option (Chased κ)
  | 0,_,_ => none
  | fuel+1,path,here =>
    match next here with
    | none => some ⟨path,here,none⟩
    | some onward =>
      if onward ∈ path then some ⟨path,here,path.findIdx? (· = onward)⟩
      else chased next fuel (path ++ [onward]) onward

variable [DecidableEq κ]

theorem drop_findIdx? (has : a ∈ path) :
    ∃ place front after, path.findIdx? (· = a) = some place ∧ path = front ++ a :: after ∧ path.drop place = a :: after := by
  induction path with
  | nil => cases has
  | cons one rest ih =>
    by_cases same : one = a
    · subst same
      exact ⟨0,[],rest,by simp [List.findIdx?_cons],rfl,rfl⟩
    · have later : a ∈ rest := (List.mem_cons.mp has).resolve_left fun here => same here.symm
      obtain ⟨place,front,after,found,split,dropped⟩ := ih later
      refine ⟨place+1,one::front,after,?_,by rw [split]; rfl,by simpa using dropped⟩
      simp [List.findIdx?_cons,same,found]

-- What a chase ends with: it passed all that is reached, and either stopped where
-- nothing is next or came back to the cycle it names.
structure Chase (next : κ → Option κ) (start : κ) (ended : Chased κ) : Prop where
  passed : ∀ a, a ∈ ended.path ↔ ReflTransGen (Steps next) start a
  stops : ended.looped = none → Ends next start ended.last
  loops : ∀ place, ended.looped = some place →
    (ended.path.drop place).Nodup ∧ ended.path.drop place ≠ [] ∧ ∀ a, a ∈ ended.path.drop place ↔ OnCycle next start a

theorem chased_onward {domain : List κ} (covers : ∀ one, next one ≠ none → one ∈ domain) (fuel : Nat)
    (stretch : Stretch next start chain last) (apart : (start :: chain).Nodup) (enough : domain.length < fuel+chain.length) :
    ∃ ended, chased next fuel (start :: chain) last = some ended ∧ Chase next start ended := by
  induction fuel generalizing chain last with
  | zero =>
    have fits := stretch.bounded covers apart
    omega
  | succ fuel ih =>
    have reached : ∀ one ∈ start :: chain, ReflTransGen (Steps next) start one := by
      intro one member
      rcases List.mem_cons.mp member with same | above
      · exact same ▸ .refl
      · exact (stretch.climbs one above).to_reflTransGen
    have passed : (∀ above, next last = some above → above ∈ start :: chain) →
        ∀ a, a ∈ start :: chain ↔ ReflTransGen (Steps next) start a := by
      intro back a
      refine ⟨reached a,?_⟩
      intro line
      rcases reflTransGen_iff_eq_or_transGen.mp line with same | climb
      · exact same ▸ List.mem_cons_self
      · exact stretch.closed back climb
    unfold chased
    cases goes : next last with
    | none =>
      refine ⟨_,rfl,passed ?_,?_,?_⟩
      · intro above step
        rw [goes] at step
        cases step
      · intro _
        exact ⟨stretch.reaches start List.mem_cons_self,goes⟩
      · intro place some'
        cases some'
    | some onward =>
      dsimp only
      split
      · rename_i been
        obtain ⟨place,front,after,found,split,dropped⟩ := drop_findIdx? been
        refine ⟨_,rfl,passed ?_,?_,?_⟩
        · intro above step
          cases goes.symm.trans step
          exact been
        · intro none'
          simp [found] at none'
        · intro other some'
          cases found.symm.trans some'
          change ((start :: chain).drop place).Nodup ∧ _ ∧ ∀ a, a ∈ (start :: chain).drop place ↔ _
          refine ⟨apart.sublist (List.drop_sublist _ _),?_,?_⟩
          · rw [dropped]
            exact List.cons_ne_nil _ _
          · intro a
            rw [dropped]
            exact stretch.cycle apart split goes
      · rename_i fresh
        have apart' : (start :: (chain ++ [onward])).Nodup := by
          rw [←List.cons_append]
          exact apart.append (List.nodup_singleton _) (List.disjoint_singleton.mpr fresh)
        have longer : domain.length < fuel+(chain ++ [onward]).length := by
          rw [List.length_append,List.length_singleton]
          omega
        exact ih (stretch.up goes) apart' longer

theorem chased_ends {domain : List κ} (covers : ∀ one, next one ≠ none → one ∈ domain) (start : κ) {fuel : Nat}
    (enough : domain.length < fuel) : ∃ ended, chased next fuel [start] start = some ended ∧ Chase next start ended :=
  chased_onward covers fuel .start (List.nodup_singleton _) (by simpa using enough)

-- From the end nothing is next, and a cycle would be on the way to it.
omit [DecidableEq κ] in
theorem Ends.apart {b : κ} (ends : Ends next b last) : ¬TransGen (Steps next) b b := by
  obtain ⟨path,stopped⟩ := ends
  induction path using ReflTransGen.head_induction_on with
  | refl =>
    intro loop
    obtain ⟨middle,step,_⟩ := TransGen.head'_iff.mp loop
    rw [Steps,stopped] at step
    cases step
  | head step path ih =>
    intro loop
    obtain ⟨middle,first,rest⟩ := TransGen.head'_iff.mp loop
    cases first.symm.trans step
    exact ih (TransGen.tail' rest first)

omit [DecidableEq κ] in
theorem Ends.along (ends : Ends next start last) (line : ReflTransGen (Steps next) start b) : Ends next b last := by
  induction line with
  | refl => exact ends
  | tail _ step ih =>
    refine ⟨?_,ends.2⟩
    rcases ih.1.cases_head with same | ⟨middle,first,path⟩
    · rw [same,Steps,ends.2] at step
      cases step
    · cases first.symm.trans step
      exact path

omit [DecidableEq κ] in
theorem Ends.unlooped (ends : Ends next start last) : ¬Revisits next start := by
  intro revisits
  obtain ⟨a,line,loop⟩ := revisits
  exact (ends.along line).apart loop

omit [DecidableEq κ] in
theorem Chase.revisits {ended : Chased κ} (chase : Chase next start ended) : ended.looped ≠ none ↔ Revisits next start := by
  constructor
  · intro looped
    obtain ⟨place,some'⟩ := Option.ne_none_iff_exists'.mp looped
    obtain ⟨_,filled,cycle⟩ := chase.loops place some'
    obtain ⟨a,member⟩ := List.exists_mem_of_ne_nil _ filled
    exact ⟨a,(cycle a).mp member⟩
  · intro revisits none'
    exact (chase.stops none').unlooped revisits

end Library
