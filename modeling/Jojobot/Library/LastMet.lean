import Jojobot.Library.Climb

namespace Library
open Relation

variable {κ : Type} [DecidableEq κ] {near : κ → List κ} {start thing one two : κ} {pairs more : List (κ × κ)}
  {asked things : List κ}

-- A search asks one thing after another what is near it. Each pair is a thing asked
-- and a thing it named, in the order they were heard.
def met (start : κ) (pairs : List (κ × κ)) : List κ :=
  pairs.foldl (fun seen pair => if seen.contains pair.2 then seen else seen ++ [pair.2]) [start]

-- The thing a search first heard of another from.
def metThrough (start : κ) (pairs : List (κ × κ)) (thing : κ) : Option κ :=
  if thing = start then none else (pairs.find? (·.2 = thing)).map (·.1)

def scanned (near : κ → List κ) (asked : List κ) : List (κ × κ) := asked.flatMap fun one => (near one).map (one,·)

def waiting (near : κ → List κ) (start : κ) (asked : List κ) : List κ :=
  (met start (scanned near asked)).filter fun thing => !asked.contains thing

-- What a search asks that takes the last thing met of those it has not asked.
def askedBy (near : κ → List κ) (start : κ) : Nat → List κ
  | 0 => []
  | steps+1 => askedBy near start steps ++ (waiting near start (askedBy near start steps)).getLast?.toList

-- A thing is heard of again from one it was met through.
def Closing (start : κ) (pairs : List (κ × κ)) : Prop :=
  ∃ pair ∈ pairs, ReflTransGen (Steps (metThrough start pairs)) pair.1 pair.2

-- Every thing asked had been met.
inductive Heard (start : κ) : List (κ × κ) → Prop where
  | nothing : Heard start []
  | next {pairs : List (κ × κ)} {one : κ} (thing : κ) : Heard start pairs → one ∈ met start pairs →
      Heard start (pairs ++ [(one,thing)])

theorem met_next (start one thing : κ) (pairs : List (κ × κ)) :
    met start (pairs ++ [(one,thing)]) = if thing ∈ met start pairs then met start pairs else met start pairs ++ [thing] := by
  simp [met,List.foldl_append]

theorem mem_met : thing ∈ met start pairs ↔ thing = start ∨ ∃ pair ∈ pairs, pair.2 = thing := by
  induction pairs using List.reverseRecOn with
  | nil => simp [met]
  | append_singleton pairs pair ih =>
    have split : ∀ has : Prop, has ∨ pair.2 = thing → (∃ other ∈ pairs ++ [pair], other.2 = thing) ∨ has := by
      intro has either
      rcases either with old | here
      · exact Or.inr old
      · exact Or.inl ⟨pair,List.mem_append_right _ List.mem_cons_self,here⟩
    rw [show pair = (pair.1,pair.2) from rfl,met_next]
    simp only [List.mem_append,List.mem_singleton,or_and_right,exists_or,exists_eq_left]
    split
    · rename_i known
      rw [ih]
      constructor
      · rintro (here | old)
        · exact Or.inl here
        · exact Or.inr (Or.inl old)
      · rintro (here | old | same)
        · exact Or.inl here
        · exact Or.inr old
        · subst same
          exact ih.mp known
    · rw [List.mem_append,List.mem_singleton,ih,or_assoc]
      simp only [eq_comm]

theorem start_met (start : κ) (pairs : List (κ × κ)) : start ∈ met start pairs := mem_met.mpr (Or.inl rfl)

theorem met_nodup (start : κ) (pairs : List (κ × κ)) : (met start pairs).Nodup := by
  induction pairs using List.reverseRecOn with
  | nil => exact List.nodup_singleton _
  | append_singleton pairs pair ih =>
    rw [show pair = (pair.1,pair.2) from rfl,met_next]
    split
    · exact ih
    · rename_i fresh
      exact ih.append (List.nodup_singleton _) (List.disjoint_singleton.mpr fresh)

theorem met_kept (has : thing ∈ met start pairs) : thing ∈ met start (pairs ++ more) := by
  rcases mem_met.mp has with here | ⟨pair,there,same⟩
  · exact mem_met.mpr (Or.inl here)
  · exact mem_met.mpr (Or.inr ⟨pair,List.mem_append_left _ there,same⟩)

theorem metThrough_next (start one thing other : κ) (pairs : List (κ × κ)) :
    metThrough start (pairs ++ [(one,thing)]) other =
      if other = thing ∧ thing ∉ met start pairs then some one else metThrough start pairs other := by
  unfold metThrough
  rw [List.find?_append,Option.map_or]
  by_cases here : other = start
  · have known : start ∈ met start pairs := start_met start pairs
    have not : ¬(other = thing ∧ thing ∉ met start pairs) := by
      intro both
      rw [←both.1,here] at both
      exact both.2 known
    rw [if_pos here,if_pos here,if_neg not]
  · rw [if_neg here,if_neg here]
    cases found : pairs.find? (·.2 = other) with
    | some pair =>
      have known : other ∈ met start pairs :=
        mem_met.mpr (Or.inr ⟨pair,List.mem_of_find?_eq_some found,by simpa using List.find?_some found⟩)
      have not : ¬(other = thing ∧ thing ∉ met start pairs) := fun both => both.2 (both.1 ▸ known)
      simp [not]
    | none =>
      have absent : other ∉ met start pairs := by
        intro known
        rcases mem_met.mp known with same | ⟨pair,there,same⟩
        · exact here same
        · have miss := List.find?_eq_none.mp found pair there
          simp [same] at miss
      by_cases same : other = thing
      · subst same
        simp [absent]
      · have apart : thing ≠ other := fun same' => same same'.symm
        simp [same,apart]

theorem metThrough_kept (found : metThrough start pairs thing = some one) : metThrough start (pairs ++ more) thing = some one := by
  unfold metThrough at *
  split at found
  · cases found
  · rename_i apart
    rw [if_neg apart,List.find?_append,Option.map_or,found]
    rfl

theorem metThrough_pair (found : metThrough start pairs thing = some one) : (one,thing) ∈ pairs ∧ thing ≠ start := by
  unfold metThrough at found
  split at found
  · cases found
  · rename_i apart
    obtain ⟨pair,there,same⟩ := Option.map_eq_some_iff.mp found
    have named : pair.2 = thing := by simpa using List.find?_some there
    subst same named
    exact ⟨List.mem_of_find?_eq_some there,apart⟩

theorem metThrough_found (has : thing ∈ met start pairs) (apart : thing ≠ start) : ∃ one, metThrough start pairs thing = some one := by
  rcases mem_met.mp has with same | ⟨pair,there,same⟩
  · exact absurd same apart
  · have some' : (pairs.find? (·.2 = thing)).isSome := List.find?_isSome.mpr ⟨pair,there,by simpa using same⟩
    obtain ⟨first,found⟩ := Option.isSome_iff_exists.mp some'
    exact ⟨first.1,by simp [metThrough,apart,found]⟩

theorem Closing.kept (closing : Closing start pairs) : Closing start (pairs ++ more) := by
  obtain ⟨pair,there,line⟩ := closing
  exact ⟨pair,List.mem_append_left _ there,ReflTransGen.mono (fun _ _ => metThrough_kept) _ _ line⟩

theorem Heard.sources (heard : Heard start pairs) : ∀ pair ∈ pairs, pair.1 ∈ met start pairs := by
  induction heard with
  | nothing => intro pair member; cases member
  | next thing _ known ih =>
    intro pair member
    rcases List.mem_append.mp member with old | last
    · exact met_kept (ih pair old)
    · cases List.mem_singleton.mp last
      exact met_kept known

-- What a met thing was met through had been met too.
theorem Heard.line (heard : Heard start pairs) (has : one ∈ met start pairs)
    (line : ReflTransGen (Steps (metThrough start pairs)) one two) : two ∈ met start pairs := by
  induction line with
  | refl => exact has
  | tail _ step _ => exact heard.sources _ (metThrough_pair step).1

theorem Heard.unlooped (heard : Heard start pairs) : Unlooped (metThrough start pairs) := by
  induction heard with
  | nothing =>
    intro a loop
    obtain ⟨b,step,_⟩ := TransGen.head'_iff.mp loop
    simp [Steps,metThrough] at step
  | @next pairs one thing heard known ih =>
    by_cases has : thing ∈ met start pairs
    · have same : metThrough start (pairs ++ [(one,thing)]) = metThrough start pairs := by
        funext other
        simp [metThrough_next,has]
      exact same ▸ ih
    · have placed : metThrough start (pairs ++ [(one,thing)]) = Function.update (metThrough start pairs) thing (some one) := by
        funext other
        rw [metThrough_next]
        by_cases same : other = thing <;> simp [same,has]
      rw [placed]
      apply ih.placed
      intro named same
      cases same
      constructor
      · intro same
        exact has (same ▸ known)
      · intro climb
        exact has (heard.line known climb.to_reflTransGen)

-- The line up from a met thing is settled: nothing heard later changes it.
theorem Heard.line_next (heard : Heard start pairs) (has : one ∈ met start pairs) (other thing : κ) :
    ReflTransGen (Steps (metThrough start (pairs ++ [(other,thing)]))) one two ↔
      ReflTransGen (Steps (metThrough start pairs)) one two := by
  constructor
  · intro line
    induction line with
    | refl => exact .refl
    | @tail b c _ step ih =>
      have known : b ∈ met start pairs := heard.line has ih
      have not : ¬(b = thing ∧ thing ∉ met start pairs) := fun both => both.2 (both.1 ▸ known)
      rw [Steps,metThrough_next,if_neg not] at step
      exact ih.tail step
  · exact ReflTransGen.mono (fun _ _ => metThrough_kept) _ _

theorem Heard.closing_next (heard : Heard start pairs) (known : one ∈ met start pairs) (thing : κ) :
    Closing start (pairs ++ [(one,thing)]) ↔ Closing start pairs ∨ ReflTransGen (Steps (metThrough start pairs)) one thing := by
  constructor
  · intro closing
    obtain ⟨pair,there,line⟩ := closing
    rcases List.mem_append.mp there with old | last
    · exact Or.inl ⟨pair,old,(heard.line_next (heard.sources pair old) one thing).mp line⟩
    · cases List.mem_singleton.mp last
      exact Or.inr ((heard.line_next known one thing).mp line)
  · intro either
    rcases either with closing | line
    · exact closing.kept
    · exact ⟨(one,thing),List.mem_append_right _ List.mem_cons_self,(heard.line_next known one thing).mpr line⟩

theorem Heard.all (heard : Heard start pairs) (known : one ∈ met start pairs) (named : List κ) :
    Heard start (pairs ++ named.map (one,·)) := by
  induction named using List.reverseRecOn with
  | nil => simpa using heard
  | append_singleton named last ih =>
    have more : pairs ++ (named ++ [last]).map (one,·) = (pairs ++ named.map (one,·)) ++ [(one,last)] := by simp
    rw [more]
    exact .next last ih (met_kept known)

omit [DecidableEq κ] in
theorem mem_scanned {pair : κ × κ} : pair ∈ scanned near asked ↔ pair.1 ∈ asked ∧ pair.2 ∈ near pair.1 := by
  unfold scanned
  rw [List.mem_flatMap]
  constructor
  · intro found
    obtain ⟨one,has,there⟩ := found
    obtain ⟨two,named,same⟩ := List.mem_map.mp there
    subst same
    exact ⟨has,named⟩
  · intro both
    exact ⟨pair.1,both.1,List.mem_map.mpr ⟨pair.2,both.2,rfl⟩⟩

omit [DecidableEq κ] in
theorem scanned_snoc (near : κ → List κ) (asked : List κ) (one : κ) :
    scanned near (asked ++ [one]) = scanned near asked ++ (near one).map (one,·) := by
  simp [scanned]

theorem mem_waiting : thing ∈ waiting near start asked ↔ thing ∈ met start (scanned near asked) ∧ thing ∉ asked := by
  simp [waiting]

theorem askedBy_next {steps : Nat} (next : (waiting near start (askedBy near start steps)).getLast? = some one) :
    askedBy near start (steps+1) = askedBy near start steps ++ [one] := by
  simp [askedBy,next]

theorem askedBy_heard (near : κ → List κ) (start : κ) (steps : Nat) : Heard start (scanned near (askedBy near start steps)) := by
  induction steps with
  | zero => exact .nothing
  | succ steps ih =>
    cases next : (waiting near start (askedBy near start steps)).getLast? with
    | none => simpa [askedBy,next] using ih
    | some one =>
      rw [askedBy_next next,scanned_snoc]
      exact ih.all (mem_waiting.mp (List.mem_of_getLast? next)).1 _

theorem askedBy_met (near : κ → List κ) (start : κ) (steps : Nat) :
    askedBy near start steps ⊆ met start (scanned near (askedBy near start steps)) := by
  induction steps with
  | zero => exact List.nil_subset _
  | succ steps ih =>
    cases next : (waiting near start (askedBy near start steps)).getLast? with
    | none => simpa [askedBy,next] using ih
    | some one =>
      rw [askedBy_next next,scanned_snoc]
      intro thing member
      rcases List.mem_append.mp member with old | last
      · exact met_kept (ih old)
      · cases List.mem_singleton.mp last
        exact met_kept (mem_waiting.mp (List.mem_of_getLast? next)).1

theorem askedBy_nodup (near : κ → List κ) (start : κ) (steps : Nat) : (askedBy near start steps).Nodup := by
  induction steps with
  | zero => exact List.nodup_nil
  | succ steps ih =>
    cases next : (waiting near start (askedBy near start steps)).getLast? with
    | none => simpa [askedBy,next] using ih
    | some one =>
      rw [askedBy_next next]
      exact ih.append (List.nodup_singleton _) (List.disjoint_singleton.mpr (mem_waiting.mp (List.mem_of_getLast? next)).2)

theorem askedBy_prefix (near : κ → List κ) (start : κ) {few many : Nat} (later : few ≤ many) :
    ∃ rest, askedBy near start many = askedBy near start few ++ rest := by
  induction later with
  | refl => exact ⟨[],(List.append_nil _).symm⟩
  | @step many _ ih =>
    obtain ⟨rest,same⟩ := ih
    exact ⟨rest ++ _,by rw [askedBy,same,List.append_assoc]⟩

theorem askedBy_still {few many : Nat} (idle : waiting near start (askedBy near start few) = []) (later : few ≤ many) :
    askedBy near start many = askedBy near start few := by
  induction later with
  | refl => rfl
  | step _ ih => simp [askedBy,ih,idle]

-- A search that still has something to ask has asked one thing at each step.
theorem askedBy_length {steps : Nat} (busy : waiting near start (askedBy near start steps) ≠ []) :
    (askedBy near start steps).length = steps := by
  induction steps with
  | zero => rfl
  | succ steps ih =>
    cases next : (waiting near start (askedBy near start steps)).getLast? with
    | none =>
      have idle := List.getLast?_eq_none_iff.mp next
      have still : askedBy near start (steps+1) = askedBy near start steps := by simp [askedBy,next]
      rw [still] at busy
      exact absurd idle busy
    | some one =>
      have was : waiting near start (askedBy near start steps) ≠ [] := by
        intro idle
        simp [idle] at next
      simp [askedBy_next next,ih was]

theorem met_known (known : ∀ one two, two ∈ near one → two ∈ things) : met start (scanned near asked) ⊆ start :: things := by
  intro thing has
  rcases mem_met.mp has with same | ⟨pair,there,same⟩
  · exact List.mem_cons.mpr (Or.inl same)
  · exact List.mem_cons_of_mem _ (known _ _ (same ▸ (mem_scanned.mp there).2))

theorem askedBy_idle (known : ∀ one two, two ∈ near one → two ∈ things) (start : κ) {steps : Nat} (enough : things.length+1 < steps) :
    waiting near start (askedBy near start steps) = [] := by
  by_contra busy
  have inside : askedBy near start steps ⊆ start :: things := fun one has => met_known known (askedBy_met near start steps has)
  have fits := ((askedBy_nodup near start steps).subperm inside).length_le
  rw [askedBy_length busy,List.length_cons] at fits
  omega

theorem Heard.reached (heard : Heard start pairs) (true' : ∀ pair ∈ pairs, pair.2 ∈ near pair.1) (has : thing ∈ met start pairs) :
    ReflTransGen (fun later earlier => later ∈ near earlier) thing start := by
  induction heard generalizing thing with
  | nothing =>
    rcases mem_met.mp has with same | ⟨pair,there,_⟩
    · exact same ▸ .refl
    · cases there
  | @next pairs one last _ known ih =>
    have before : ∀ pair ∈ pairs, pair.2 ∈ near pair.1 := fun pair there => true' pair (List.mem_append_left _ there)
    rw [met_next] at has
    split at has
    · exact ih before has
    · rcases List.mem_append.mp has with old | here
      · exact ih before old
      · cases List.mem_singleton.mp here
        exact .head (true' (one,last) (List.mem_append_right _ List.mem_cons_self)) (ih before known)

theorem Closing.later {few many : Nat} (closing : Closing start (scanned near (askedBy near start few))) (later : few ≤ many) :
    Closing start (scanned near (askedBy near start many)) := by
  obtain ⟨rest,same⟩ := askedBy_prefix near start later
  rw [same,scanned,List.flatMap_append]
  exact closing.kept

-- A loop met at any step is met by the search that has nothing left to ask.
theorem Closing.last {step last : Nat} (closing : Closing start (scanned near (askedBy near start step)))
    (idle : waiting near start (askedBy near start last) = []) : Closing start (scanned near (askedBy near start last)) := by
  rcases Nat.le_total step last with early | late
  · exact closing.later early
  · rw [←askedBy_still idle late]
    exact closing

-- A search with nothing left to ask has met all that can be reached.
theorem met_complete (idle : waiting near start asked = [])
    (path : ReflTransGen (fun later earlier => later ∈ near earlier) thing start) : thing ∈ met start (scanned near asked) := by
  induction path using ReflTransGen.head_induction_on with
  | refl => exact start_met _ _
  | @head a c step _ ih =>
    have done : c ∈ asked := by
      by_contra left
      have has := mem_waiting.mpr ⟨ih,left⟩
      rw [idle] at has
      cases has
    exact mem_met.mpr (Or.inr ⟨(c,a),mem_scanned.mpr ⟨done,step⟩,rfl⟩)

end Library
