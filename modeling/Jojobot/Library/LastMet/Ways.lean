import Jojobot.Library.FirstWay
import Jojobot.Library.LastMet

namespace Library
open Relation

variable {κ : Type} [DecidableEq κ] {near : κ → List κ} {start one two other more thing : κ} {pairs : List (κ × κ)}
  {asked way : List κ}

theorem idxOf_snoc (items : List κ) (one thing : κ) : (items ++ [one]).idxOf thing =
    if thing ∈ items then items.idxOf thing else if thing = one then items.length else items.length+1 := by
  by_cases has : thing ∈ items
  · rw [if_pos has,List.idxOf_append_of_mem has]
  · rw [if_neg has,List.idxOf_append_of_notMem has]
    by_cases same : thing = one
    · rw [if_pos same,same,List.idxOf_cons_self]
      rfl
    · rw [if_neg same,List.idxOf_cons_ne _ (Ne.symm same)]
      rfl

-- The order in which things are asked and met, and what each was first heard of from.
structure Ordered (near : κ → List κ) (start : κ) (asked : List κ) : Prop where
  parent : ∀ one two, metThrough start (scanned near asked) two = some one → asked.idxOf one < asked.idxOf two
  first : ∀ one two other, metThrough start (scanned near asked) two = some one → other ∈ asked → two ∈ near other →
    asked.idxOf one ≤ asked.idxOf other
  heard : ∀ one two other more, metThrough start (scanned near asked) two = some one →
    metThrough start (scanned near asked) more = some other →
    (met start (scanned near asked)).idxOf two < (met start (scanned near asked)).idxOf more → asked.idxOf one ≤ asked.idxOf other
  -- While a thing waits, what is asked lies below the thing it was heard of from.
  below : ∀ one two other, metThrough start (scanned near asked) two = some one → other ∈ asked →
    asked.idxOf one < asked.idxOf other → asked.idxOf other < asked.idxOf two →
    ReflTransGen (Steps (metThrough start (scanned near asked))) other one
  -- Of two things that wait at once, the one met last is asked first.
  last : ∀ one two more, metThrough start (scanned near asked) more = some one →
    (met start (scanned near asked)).idxOf two < (met start (scanned near asked)).idxOf more →
    asked.idxOf one < asked.idxOf two → asked.idxOf more ≤ asked.idxOf two
  siblings : ∀ one two more, metThrough start (scanned near asked) two = some one →
    metThrough start (scanned near asked) more = some one → (near one).idxOf two < (near one).idxOf more →
    (met start (scanned near asked)).idxOf two < (met start (scanned near asked)).idxOf more

theorem Ordered.begun (near : κ → List κ) (start : κ) : Ordered near start [] := by
  constructor
  all_goals simp [scanned,metThrough]

theorem metThrough_source (found : metThrough start (scanned near asked) two = some one) : one ∈ asked ∧ two ∈ near one :=
  mem_scanned.mp (metThrough_pair found).1

theorem metThrough_met (found : metThrough start pairs two = some one) : two ∈ met start pairs :=
  mem_met.mpr (Or.inr ⟨(one,two),(metThrough_pair found).1,rfl⟩)

-- What is heard of from one thing more: nothing met before changes its place.
theorem metThrough_more (found : metThrough start (scanned near (asked ++ [one])) thing = some two) :
    metThrough start (scanned near asked) thing = some two ∨
      (two = one ∧ thing ∈ near one ∧ thing ∉ met start (scanned near asked)) := by
  cases earlier : metThrough start (scanned near asked) thing with
  | some first =>
    have kept : metThrough start (scanned near asked ++ (near one).map (one,·)) thing = some first := metThrough_kept earlier
    rw [←scanned_snoc] at kept
    exact Or.inl (kept.symm.trans found)
  | none =>
    have apart := (metThrough_pair found).2
    have fresh : thing ∉ met start (scanned near asked) := by
      intro known
      obtain ⟨first,through⟩ := metThrough_found known apart
      rw [earlier] at through
      cases through
    obtain ⟨source,named⟩ := metThrough_source found
    right
    rcases List.mem_append.mp source with old | here
    · exact absurd (mem_met.mpr (Or.inr ⟨(two,thing),mem_scanned.mpr ⟨old,named⟩,rfl⟩)) fresh
    · cases List.mem_singleton.mp here
      exact ⟨rfl,named,fresh⟩

theorem met_more (known : thing ∈ met start pairs) (more : List (κ × κ)) :
    (met start (pairs ++ more)).idxOf thing = (met start pairs).idxOf thing := by
  induction more using List.reverseRecOn with
  | nil => rw [List.append_nil]
  | append_singleton more pair ih =>
    rw [←List.append_assoc,show pair = (pair.1,pair.2) from rfl,met_next]
    split
    · exact ih
    · rw [List.idxOf_append_of_mem (met_kept known)]
      exact ih

theorem met_new (known : one ∈ met start pairs) (fresh : two ∉ met start pairs) (more : List (κ × κ)) :
    (met start (pairs ++ more)).idxOf one < (met start (pairs ++ more)).idxOf two := by
  rw [met_more known]
  refine Nat.lt_of_lt_of_le (List.idxOf_lt_length_iff.mpr known) ?_
  induction more using List.reverseRecOn with
  | nil => rw [List.append_nil,List.idxOf_eq_length fresh]
  | append_singleton more pair ih =>
    rw [←List.append_assoc,show pair = (pair.1,pair.2) from rfl,met_next]
    split
    · exact ih
    · by_cases has : two ∈ met start (pairs ++ more)
      · rw [List.idxOf_append_of_mem has]
        exact ih
      · rw [idxOf_snoc,if_neg has]
        rw [List.idxOf_eq_length has] at ih
        split
        · exact ih
        · exact Nat.le_succ_of_le ih

-- What one thing names is met in the order it is named.
theorem met_named (fresh : more ∉ met start pairs) {named : List κ} (has : more ∈ named) (order : named.idxOf two < named.idxOf more) :
    (met start (pairs ++ named.map (one,·))).idxOf two < (met start (pairs ++ named.map (one,·))).idxOf more := by
  induction named using List.reverseRecOn with
  | nil => cases has
  | append_singleton named last ih =>
    have line : pairs ++ (named ++ [last]).map (one,·) = (pairs ++ named.map (one,·)) ++ [(one,last)] := by simp
    have earlier : two ∈ named := by
      by_contra off
      rw [List.idxOf_append_of_notMem off] at order
      have bound := List.idxOf_lt_length_iff.mpr has
      rw [List.length_append,List.length_singleton] at bound
      omega
    have known : two ∈ met start (pairs ++ named.map (one,·)) :=
      mem_met.mpr (Or.inr ⟨(one,two),List.mem_append_right _ (List.mem_map_of_mem earlier),rfl⟩)
    rw [line]
    by_cases old : more ∈ named
    · have known' : more ∈ met start (pairs ++ named.map (one,·)) :=
        mem_met.mpr (Or.inr ⟨(one,more),List.mem_append_right _ (List.mem_map_of_mem old),rfl⟩)
      rw [met_more known,met_more known']
      rw [List.idxOf_append_of_mem earlier,List.idxOf_append_of_mem old] at order
      exact ih old order
    · apply met_new known
      intro known'
      rcases mem_met.mp known' with same | ⟨pair,there,same⟩
      · exact fresh (same ▸ start_met start pairs)
      · rcases List.mem_append.mp there with before | here
        · exact fresh (mem_met.mpr (Or.inr ⟨pair,before,same⟩))
        · obtain ⟨other,inside,shape⟩ := List.mem_map.mp here
          subst shape
          exact old (same ▸ inside)

-- The last of what waits is the last of it that was met.
theorem waiting_last (next : (waiting near start asked).getLast? = some one) (waits : two ∈ waiting near start asked) :
    (met start (scanned near asked)).idxOf two ≤ (met start (scanned near asked)).idxOf one := by
  have sorted : (met start (scanned near asked)).Pairwise fun a b =>
      (met start (scanned near asked)).idxOf a ≤ (met start (scanned near asked)).idxOf b := by
    apply List.pairwise_iff_getElem.mpr
    intro i j first second less
    rw [(met_nodup start _).idxOf_getElem,(met_nodup start _).idxOf_getElem]
    exact less.le
  have kept := sorted.sublist (List.filter_sublist (p := fun thing => !asked.contains thing))
  obtain ⟨front,shape⟩ := List.getLast?_eq_some_iff.mp next
  change (waiting near start asked).Pairwise _ at kept
  rw [shape] at kept waits
  rcases List.mem_append.mp waits with earlier | same
  · exact (List.pairwise_append.mp kept).2.2 two earlier one (List.mem_singleton_self one)
  · rw [List.mem_singleton.mp same]

-- One thing more is asked: the last that waits.
structure Asking (near : κ → List κ) (start : κ) (asked : List κ) (one : κ) : Prop where
  inside : asked ⊆ met start (scanned near asked)
  next : (waiting near start asked).getLast? = some one

section Asking
variable {first : κ}

theorem Asking.known (asking : Asking near start asked one) : one ∈ met start (scanned near asked) :=
  (mem_waiting.mp (List.mem_of_getLast? asking.next)).1

theorem Asking.fresh (asking : Asking near start asked one) : one ∉ asked := (mem_waiting.mp (List.mem_of_getLast? asking.next)).2

theorem Asking.last (asking : Asking near start asked one) (has : two ∈ met start (scanned near asked)) (off : two ∉ asked) :
    (met start (scanned near asked)).idxOf two ≤ (met start (scanned near asked)).idxOf one :=
  waiting_last asking.next (mem_waiting.mpr ⟨has,off⟩)

-- Who a thing was first heard of from: as before, or the thing just asked.
theorem Asking.through (asking : Asking near start asked one)
    (found : metThrough start (scanned near (asked ++ [one])) two = some first) :
    (metThrough start (scanned near asked) two = some first ∧ first ∈ asked ∧ two ∈ met start (scanned near asked)) ∨
      (first = one ∧ two ∈ near one ∧ two ∉ met start (scanned near asked) ∧ two ∉ asked ∧ two ≠ one) := by
  rcases metThrough_more found with old | ⟨same,named,unmet⟩
  · exact Or.inl ⟨old,(metThrough_source old).1,metThrough_met old⟩
  · exact Or.inr ⟨same,named,unmet,fun has => unmet (asking.inside has),fun same => unmet (same ▸ asking.known)⟩

theorem place_kept (has : two ∈ met start (scanned near asked)) (one : κ) :
    (met start (scanned near (asked ++ [one]))).idxOf two = (met start (scanned near asked)).idxOf two := by
  rw [scanned_snoc]
  exact met_more has _

theorem place_later (has : two ∈ met start (scanned near asked)) (off : more ∉ met start (scanned near asked)) (one : κ) :
    (met start (scanned near (asked ++ [one]))).idxOf two < (met start (scanned near (asked ++ [one]))).idxOf more := by
  rw [scanned_snoc]
  exact met_new has off _

theorem Asking.parent (asking : Asking near start asked one) (ordered : Ordered near start asked)
    (found : metThrough start (scanned near (asked ++ [one])) two = some first) :
    (asked ++ [one]).idxOf first < (asked ++ [one]).idxOf two := by
  rw [idxOf_snoc,idxOf_snoc]
  rcases asking.through found with ⟨old,source,_⟩ | ⟨same,_,_,off,apart⟩
  · have less := ordered.parent first two old
    have short := List.idxOf_lt_length_iff.mpr source
    rw [if_pos source]
    split
    · exact less
    · split <;> omega
  · subst same
    rw [if_neg asking.fresh,if_pos rfl,if_neg off,if_neg apart]
    omega

theorem Asking.firstNamer (asking : Asking near start asked one) (ordered : Ordered near start asked)
    (found : metThrough start (scanned near (asked ++ [one])) two = some first) (has : other ∈ asked ++ [one])
    (named : two ∈ near other) : (asked ++ [one]).idxOf first ≤ (asked ++ [one]).idxOf other := by
  rw [idxOf_snoc,idxOf_snoc]
  rcases asking.through found with ⟨old,source,_⟩ | ⟨same,_,unmet,_,_⟩
  · have short := List.idxOf_lt_length_iff.mpr source
    rw [if_pos source]
    rcases List.mem_append.mp has with before | here
    · rw [if_pos before]
      exact ordered.first first two other old before named
    · cases List.mem_singleton.mp here
      rw [if_neg asking.fresh,if_pos rfl]
      omega
  · subst same
    rcases List.mem_append.mp has with before | here
    · exact absurd (mem_met.mpr (Or.inr ⟨(other,two),mem_scanned.mpr ⟨before,named⟩,rfl⟩)) unmet
    · cases List.mem_singleton.mp here
      exact Nat.le_refl _

theorem Asking.heard (asking : Asking near start asked one) (ordered : Ordered near start asked)
    (found : metThrough start (scanned near (asked ++ [one])) two = some first)
    (found' : metThrough start (scanned near (asked ++ [one])) more = some other)
    (order : (met start (scanned near (asked ++ [one]))).idxOf two < (met start (scanned near (asked ++ [one]))).idxOf more) :
    (asked ++ [one]).idxOf first ≤ (asked ++ [one]).idxOf other := by
  rw [idxOf_snoc,idxOf_snoc]
  rcases asking.through found with ⟨old,source,has⟩ | ⟨same,_,unmet,_,_⟩
  · have short := List.idxOf_lt_length_iff.mpr source
    rw [if_pos source]
    rcases asking.through found' with ⟨old',source',has'⟩ | ⟨same,_,_,_,_⟩
    · rw [if_pos source']
      rw [place_kept has,place_kept has'] at order
      exact ordered.heard first two other more old old' order
    · subst same
      rw [if_neg asking.fresh,if_pos rfl]
      omega
  · subst same
    rcases asking.through found' with ⟨_,_,has'⟩ | ⟨same,_,_,_,_⟩
    · have later := place_later has' unmet first
      omega
    · subst same
      exact Nat.le_refl _

-- The thing asked was met after one that waits, so it was heard of no sooner: it lies
-- below what the waiting one was heard of from.
theorem Asking.under (asking : Asking near start asked one) (ordered : Ordered near start asked)
    (found : metThrough start (scanned near asked) two = some first) (off : two ∉ asked) (apart : two ≠ one) :
    ReflTransGen (Steps (metThrough start (scanned near asked))) one first := by
  have has := metThrough_met found
  have before : (met start (scanned near asked)).idxOf two < (met start (scanned near asked)).idxOf one :=
    Nat.lt_of_le_of_ne (asking.last has off) fun same => apart ((List.idxOf_inj has).mp same)
  have notStart : one ≠ start := by
    intro same
    have zero : (met start (scanned near asked)).idxOf start = 0 := by
      have kept := met_more (start_met start []) (scanned near asked)
      simpa [met] using kept
    rw [same,zero] at before
    omega
  obtain ⟨source,through⟩ := metThrough_found asking.known notStart
  have inside := (metThrough_source through).1
  have short := List.idxOf_lt_length_iff.mpr inside
  have long := List.idxOf_eq_length off
  rcases Nat.lt_or_ge (asked.idxOf first) (asked.idxOf source) with less | least
  · exact .head through (ordered.below first two source found inside less (by omega))
  · have most := ordered.heard first two source one found through before
    have same : first = source := (List.idxOf_inj (metThrough_source found).1).mp (Nat.le_antisymm most least)
    exact .single (same ▸ through)

theorem Asking.below (asking : Asking near start asked one) (ordered : Ordered near start asked)
    (found : metThrough start (scanned near (asked ++ [one])) two = some first) (has : other ∈ asked ++ [one])
    (order : (asked ++ [one]).idxOf first < (asked ++ [one]).idxOf other)
    (order' : (asked ++ [one]).idxOf other < (asked ++ [one]).idxOf two) :
    ReflTransGen (Steps (metThrough start (scanned near (asked ++ [one])))) other first := by
  rw [idxOf_snoc,idxOf_snoc] at order order'
  rcases asking.through found with ⟨old,source,_⟩ | ⟨same,_,_,_,_⟩
  · have climbs : ∀ low high, ReflTransGen (Steps (metThrough start (scanned near asked))) low high →
        ReflTransGen (Steps (metThrough start (scanned near (asked ++ [one])))) low high := by
      intro low high
      rw [scanned_snoc]
      exact ReflTransGen.mono (fun _ _ => metThrough_kept) low high
    apply climbs
    rw [if_pos source] at order
    rcases List.mem_append.mp has with before | here
    · have short := List.idxOf_lt_length_iff.mpr before
      rw [if_pos before] at order order'
      apply ordered.below first two other old before order
      split at order'
      · exact order'
      · rename_i off
        rw [List.idxOf_eq_length off]
        exact short
    · cases List.mem_singleton.mp here
      rw [if_neg asking.fresh,if_pos rfl] at order'
      apply asking.under ordered old
      · intro inside
        have short := List.idxOf_lt_length_iff.mpr inside
        rw [if_pos inside] at order'
        omega
      · intro same
        rw [same,if_neg asking.fresh,if_pos rfl] at order'
        omega
  · subst same
    rw [if_neg asking.fresh,if_pos rfl] at order
    rcases List.mem_append.mp has with before | here
    · have short := List.idxOf_lt_length_iff.mpr before
      rw [if_pos before] at order
      omega
    · cases List.mem_singleton.mp here
      exact .refl

theorem Asking.sooner (asking : Asking near start asked one) (ordered : Ordered near start asked)
    (found : metThrough start (scanned near (asked ++ [one])) more = some first)
    (order : (met start (scanned near (asked ++ [one]))).idxOf two < (met start (scanned near (asked ++ [one]))).idxOf more)
    (above : (asked ++ [one]).idxOf first < (asked ++ [one]).idxOf two) :
    (asked ++ [one]).idxOf more ≤ (asked ++ [one]).idxOf two := by
  rw [idxOf_snoc,idxOf_snoc] at above ⊢
  rcases asking.through found with ⟨old,source,has'⟩ | ⟨same,_,_,off,apart⟩
  · have has : two ∈ met start (scanned near asked) := by
      by_contra unmet
      have later := place_later has' unmet one
      omega
    rw [place_kept has,place_kept has'] at order
    have short := List.idxOf_lt_length_iff.mpr source
    rw [if_pos source] at above
    have waits : asked.idxOf first < asked.idxOf two := by
      by_cases inside : two ∈ asked
      · rw [if_pos inside] at above
        exact above
      · rw [List.idxOf_eq_length inside]
        exact short
    have sooner := ordered.last first two more old order waits
    by_cases inside : two ∈ asked
    · have short' := List.idxOf_lt_length_iff.mpr inside
      have inside' : more ∈ asked := List.idxOf_lt_length_iff.mp (by omega)
      rw [if_pos inside,if_pos inside']
      exact sooner
    · rw [if_neg inside]
      by_cases inside' : more ∈ asked
      · have short' := List.idxOf_lt_length_iff.mpr inside'
        rw [if_pos inside']
        split <;> omega
      · -- Both wait: were the first of them asked now, the other would not have been met later.
        have apart : two ≠ one := by
          intro same
          have behind := asking.last has' inside'
          rw [same] at order
          omega
        rw [if_neg inside',if_neg apart]
        split <;> omega
  · subst same
    rw [if_neg asking.fresh,if_pos rfl] at above
    rw [if_neg off,if_neg apart]
    split
    · rename_i inside
      have short := List.idxOf_lt_length_iff.mpr inside
      rw [if_pos inside] at above
      omega
    · rename_i outside
      rw [if_neg outside] at above
      split
      · rename_i same
        rw [if_pos same] at above
        omega
      · exact Nat.le_refl _

theorem Asking.siblings (asking : Asking near start asked one) (ordered : Ordered near start asked)
    (found : metThrough start (scanned near (asked ++ [one])) two = some first)
    (found' : metThrough start (scanned near (asked ++ [one])) more = some first)
    (order : (near first).idxOf two < (near first).idxOf more) :
    (met start (scanned near (asked ++ [one]))).idxOf two < (met start (scanned near (asked ++ [one]))).idxOf more := by
  rcases asking.through found with ⟨old,_,has⟩ | ⟨same,_,unmet,_,_⟩
  · rcases asking.through found' with ⟨old',_,has'⟩ | ⟨_,_,unmet',_,_⟩
    · rw [place_kept has,place_kept has']
      exact ordered.siblings first two more old old' order
    · exact place_later has unmet' one
  · subst same
    rcases asking.through found' with ⟨_,source',_⟩ | ⟨_,named',unmet',_,_⟩
    · exact absurd source' asking.fresh
    · rw [scanned_snoc]
      exact met_named unmet' named' order

end Asking

theorem Ordered.next (ordered : Ordered near start asked) (asking : Asking near start asked one) :
    Ordered near start (asked ++ [one]) where
  parent _ _ := asking.parent ordered
  first _ _ _ := asking.firstNamer ordered
  heard _ _ _ _ := asking.heard ordered
  below _ _ _ := asking.below ordered
  last _ _ _ := asking.sooner ordered
  siblings _ _ _ := asking.siblings ordered

theorem askedBy_ordered (near : κ → List κ) (start : κ) (steps : Nat) : Ordered near start (askedBy near start steps) := by
  induction steps with
  | zero => exact .begun near start
  | succ steps ih =>
    cases next : (waiting near start (askedBy near start steps)).getLast? with
    | none => simpa [askedBy,next] using ih
    | some one =>
      rw [askedBy_next next]
      exact ih.next ⟨askedBy_met near start steps,next⟩

-- The way a thing was reached by: each thing on it first heard of from the one before.
inductive Line (through : κ → Option κ) (start : κ) : List κ → κ → Prop where
  | start : Line through start [] start
  | next {way : List κ} {one two : κ} : Line through start way one → through two = some one → Line through start (way ++ [two]) two

section Line
variable {through : κ → Option κ} {lead rest : List κ}

omit [DecidableEq κ] in
theorem Line.ends (line : Line through start way thing) : wayEnd start way = thing := by
  cases line with
  | start => rfl
  | next _ _ => exact wayEnd_snoc ..

omit [DecidableEq κ] in
theorem Line.mem (line : Line through start way thing) (root : through start = none) :
    one ∈ start::way ↔ ReflTransGen (Steps through) thing one := by
  induction line with
  | start =>
    rw [List.mem_singleton]
    constructor
    · intro same
      exact same ▸ .refl
    · intro climb
      rcases ReflTransGen.cases_head climb with same | ⟨next,step,_⟩
      · exact same.symm
      · cases root.symm.trans step
  | @next way from' thing line step ih =>
    rw [←List.cons_append,List.mem_append,ih,List.mem_singleton]
    constructor
    · intro either
      rcases either with above | same
      · exact .head step above
      · exact same ▸ .refl
    · intro climb
      rcases ReflTransGen.cases_head climb with same | ⟨next,step',above⟩
      · exact Or.inr same.symm
      · cases Option.some.inj (step.symm.trans step')
        exact Or.inl above

-- What a line turns to was heard of from where it turned, which has its own line up to there.
omit [DecidableEq κ] in
theorem Line.parts (line : Line through start way thing) (shape : way = lead ++ two::rest) :
    Line through start lead (wayEnd start lead) ∧ through two = some (wayEnd start lead) ∧
      ReflTransGen (Steps through) thing two := by
  induction line generalizing rest with
  | start => simp at shape
  | @next way from' thing line step ih =>
    rcases List.eq_nil_or_concat' rest with none' | ⟨front,last,parts⟩
    · subst none'
      obtain ⟨same,same'⟩ := List.append_inj' shape rfl
      cases List.singleton_inj.mp same'
      subst same
      rw [line.ends]
      exact ⟨line,step,.refl⟩
    · subst parts
      rw [←List.cons_append,←List.append_assoc] at shape
      obtain ⟨same,same'⟩ := List.append_inj' shape rfl
      obtain ⟨up,turns,climb⟩ := ih same
      exact ⟨up,turns,.head step climb⟩

end Line

section Search
variable (ordered : Ordered near start asked) (idle : waiting near start asked = [])
include ordered

theorem Ordered.climbs {low high : κ} (climb : ReflTransGen (Steps (metThrough start (scanned near asked))) low high) :
    asked.idxOf high ≤ asked.idxOf low := by
  induction climb with
  | refl => exact Nat.le_refl _
  | tail _ step ih => exact (ordered.parent _ _ step).le.trans ih

include idle

omit ordered in
theorem asked_all (has : one ∈ met start (scanned near asked)) : one ∈ asked := by
  by_contra off
  have waits := mem_waiting.mpr ⟨has,off⟩
  rw [idle] at waits
  cases waits

omit ordered in
theorem asked_near (has : one ∈ asked) (named : two ∈ near one) : two ∈ asked :=
  asked_all idle (mem_met.mpr (Or.inr ⟨(one,two),mem_scanned.mpr ⟨has,named⟩,rfl⟩))

theorem line_to (inside : asked ⊆ met start (scanned near asked)) (has : thing ∈ asked) :
    ∃ way, Line (metThrough start (scanned near asked)) start way thing ∧ (start::way).Nodup ∧ Direct near start way := by
  have root : metThrough start (scanned near asked) start = none := if_pos rfl
  induction rank : asked.idxOf thing using Nat.strongRecOn generalizing thing with
  | ind rank ih =>
    by_cases top : thing = start
    · subst top
      exact ⟨[],.start,List.nodup_singleton _,trivial⟩
    · obtain ⟨one,through⟩ := metThrough_found (inside has) top
      have above := ordered.parent one thing through
      obtain ⟨way,line,simple,direct⟩ := ih _ (rank ▸ above) (metThrough_source through).1 rfl
      have fresh : thing ∉ start::way := by
        intro on
        have climb := ordered.climbs ((line.mem root).mp on)
        omega
      refine ⟨way ++ [thing],.next line through,?_,?_⟩
      · rw [←List.cons_append]
        exact simple.append (List.nodup_singleton _) (List.disjoint_singleton.mpr fresh)
      · apply direct.snoc simple
        · rw [line.ends]
          exact (metThrough_source through).2
        · intro passed on apart named
          rw [line.ends] at apart
          have climb := (line.mem root).mp on
          -- A thing further up the line was asked sooner, and would have been the first to name it.
          have asked' : passed ∈ asked := by
            rcases ReflTransGen.cases_tail climb with same | ⟨low,_,step⟩
            · exact absurd same apart
            · exact (metThrough_source step).1
          have least := ordered.first one thing passed through asked' named
          have most := ordered.climbs climb
          exact apart ((List.idxOf_inj asked').mp (Nat.le_antisymm most least))

-- What follows on a way is asked before a thing when it begins before it and nothing
-- above that thing names any of it.
theorem follows_before {before : κ} {rest : List κ} (way : Way near one rest) (has : one ∈ asked)
    (sooner : asked.idxOf one < asked.idxOf before) (inside : before ∈ asked) (apart : start ∉ rest)
    (off : ∀ further ∈ rest, further ≠ before ∧ ∀ passed, ReflTransGen (Steps (metThrough start (scanned near asked))) before passed →
      passed ≠ before → further ∉ near passed) : ∀ further ∈ rest, asked.idxOf further < asked.idxOf before := by
  induction rest generalizing one with
  | nil => intro further member; cases member
  | cons two rest ih =>
    have member := asked_near idle has way.1
    have known : two ∈ met start (scanned near asked) :=
      mem_met.mpr (Or.inr ⟨(one,two),mem_scanned.mpr ⟨has,way.1⟩,rfl⟩)
    obtain ⟨source,through⟩ := metThrough_found known (fun same => apart (same ▸ List.mem_cons_self))
    have least := ordered.first source two one through has way.1
    have here : asked.idxOf two < asked.idxOf before := by
      by_contra after
      obtain ⟨differ,none'⟩ := off two List.mem_cons_self
      have beyond : asked.idxOf before < asked.idxOf two := by
        refine Nat.lt_of_le_of_ne (Nat.le_of_not_lt after) fun same => differ ?_
        exact ((List.idxOf_inj inside).mp same).symm
      have climb := ordered.below source two before through inside (by omega) beyond
      refine none' source climb ?_ (metThrough_source through).2
      intro same
      subst same
      omega
    intro further later
    rcases List.mem_cons.mp later with same | later
    · exact same ▸ here
    · exact ih way.2 member here (fun same => apart (List.mem_cons_of_mem _ same))
        (fun more has => off more (List.mem_cons_of_mem _ has)) further later

-- What lies on a way that turns off a line is not asked first: it would have come before
-- everything the line goes on to.
theorem turned_before {lead rest : List κ} {end' : κ} (line : Line (metThrough start (scanned near asked)) start lead end')
    (direct : Direct near start (lead ++ one::rest)) (simple : (start::(lead ++ one::rest)).Nodup) (has : end' ∈ asked)
    (sooner : asked.idxOf one < asked.idxOf end') : asked.idxOf (wayEnd one rest) < asked.idxOf end' := by
  have root : metThrough start (scanned near asked) start = none := if_pos rfl
  have ends := line.ends
  have goes := (way_append.mp direct.goes).2
  rw [ends] at goes
  have apart := (List.nodup_append.mp ((List.cons_append ▸ simple : ((start::lead) ++ one::rest).Nodup))).2.2
  have all := follows_before ordered idle goes.2 (asked_near idle has goes.1) sooner has
    (fun member => apart start List.mem_cons_self start (List.mem_cons_of_mem _ member) rfl) (by
      intro further member
      constructor
      · intro same
        exact apart end' (ends ▸ wayEnd_mem start lead) further (List.mem_cons_of_mem _ member) same.symm
      · intro passed climb differ
        exact direct.beyond ((line.mem root).mpr climb) (ends ▸ differ) further (List.mem_cons_of_mem _ member))
  rcases List.mem_cons.mp (wayEnd_mem one rest) with same | later
  · exact same.symm ▸ sooner
  · exact all _ later

-- Nor is it asked between where it turned off and what the line turned to there.
theorem turned_between {lead rest : List κ} {end' : κ} (line : Line (metThrough start (scanned near asked)) start lead end')
    (direct : Direct near start (lead ++ one::rest)) (simple : (start::(lead ++ one::rest)).Nodup)
    (through : metThrough start (scanned near asked) two = some end') (inside : two ∈ asked)
    (sooner : asked.idxOf one < asked.idxOf two) : asked.idxOf (wayEnd one rest) < asked.idxOf two := by
  have root : metThrough start (scanned near asked) start = none := if_pos rfl
  have ends := line.ends
  have behind := direct.behind
  rw [ends] at behind
  have apart := (List.nodup_append.mp ((List.cons_append ▸ simple : ((start::lead) ++ one::rest).Nodup))).2.2
  have named := metThrough_source through
  have all := follows_before ordered idle behind.2.2.goes (asked_near idle named.1 behind.1) sooner inside
    (fun member => apart start List.mem_cons_self start (List.mem_cons_of_mem _ member) rfl) (by
      intro further member
      constructor
      · intro same
        exact behind.2.1 further member (same ▸ named.2)
      · intro passed climb differ
        rcases ReflTransGen.cases_head climb with same | ⟨next,step,above⟩
        · exact absurd same.symm differ
        · cases Option.some.inj (through.symm.trans step)
          by_cases last : passed = end'
          · exact last ▸ behind.2.1 further member
          · exact direct.beyond ((line.mem root).mpr above) (ends ▸ last) further (List.mem_cons_of_mem _ member))
  rcases List.mem_cons.mp (wayEnd_mem one rest) with same | later
  · exact same.symm ▸ sooner
  · exact all _ later

-- The line by which a thing was reached is the first of the ways to it without short cuts.
theorem line_first (line : Line (metThrough start (scanned near asked)) start way thing) (simple : (start::way).Nodup)
    (direct : Direct near start way) : FirstWay (Direct near start) (Later near) start thing way where
  sorted := direct
  simple := simple
  ends := line.ends
  first := by
    have root : metThrough start (scanned near asked) start = none := if_pos rfl
    intro other direct' simple' ends' sooner
    obtain ⟨lead,one,two,rest,rest',shape,shape',turns⟩ := sooner.parts
    subst shape
    obtain ⟨up,through,climb⟩ := line.parts shape'
    rw [wayEnd_append] at ends'
    generalize end_ : wayEnd start lead = end' at up through turns ends'
    have goes := (way_append.mp direct'.goes).2
    rw [end_] at goes
    have ends'' : wayEnd one rest = thing := ends'
    have named := metThrough_source through
    have above := ordered.parent end' two through
    have below := ordered.climbs climb
    have apart := List.nodup_append.mp ((List.cons_append ▸ simple' : ((start::lead) ++ one::rest).Nodup))
    have fresh : one ≠ end' := by
      intro same
      exact apart.2.2 end' (end_ ▸ wayEnd_mem start lead) one List.mem_cons_self same.symm
    have known : one ∈ met start (scanned near asked) :=
      mem_met.mpr (Or.inr ⟨(end',one),mem_scanned.mpr ⟨named.1,goes.1⟩,rfl⟩)
    have asked' := asked_all idle known
    rcases Nat.lt_trichotomy (asked.idxOf one) (asked.idxOf end') with before | same | after
    · have reached := turned_before ordered idle up direct' simple' named.1 before
      rw [ends''] at reached
      omega
    · exact fresh ((List.idxOf_inj asked').mp same)
    · obtain ⟨source,through'⟩ := metThrough_found known fun same =>
        apart.2.2 start List.mem_cons_self one List.mem_cons_self same.symm
      have least := ordered.first source one end' through' named.1 goes.1
      by_cases same : source = end'
      · -- Both were heard of from where the ways part, so the one named later was asked first.
        subst same
        have order := ordered.siblings source two one through through' turns
        have most := ordered.last source two one through' order above
        have differ : one ≠ two := by
          intro equal
          subst equal
          exact Nat.lt_irrefl _ turns
        have two' : two ∈ asked := asked_near idle named.1 named.2
        have strict : asked.idxOf one < asked.idxOf two :=
          Nat.lt_of_le_of_ne most fun equal => differ ((List.idxOf_inj asked').mp equal)
        have reached := turned_between ordered idle up direct' simple' through two' strict
        rw [ends''] at reached
        omega
      · have inside := (metThrough_source through').1
        have strict : asked.idxOf source < asked.idxOf end' :=
          Nat.lt_of_le_of_ne least fun equal => same ((List.idxOf_inj inside).mp equal)
        have climbs := ordered.below source one end' through' named.1 strict after
        exact direct'.beyond ((up.mem root).mpr climbs) (end_.symm ▸ same) one List.mem_cons_self (metThrough_source through').2

-- A search that has asked all there is closes a loop when some thing names one on the first
-- way to it.
theorem closing_on_first_way (inside : asked ⊆ met start (scanned near asked)) : Closing start (scanned near asked) ↔
    ∃ thing way one, FirstWay (Direct near start) (Later near) start thing way ∧ one ∈ near thing ∧ one ∈ start::way := by
  have root : metThrough start (scanned near asked) start = none := if_pos rfl
  constructor
  · intro closing
    obtain ⟨⟨thing,one⟩,there,climb⟩ := closing
    obtain ⟨has,named⟩ := mem_scanned.mp there
    obtain ⟨way,line,simple,direct⟩ := line_to ordered idle inside has
    exact ⟨thing,way,one,line_first ordered idle line simple direct,named,(line.mem root).mpr climb⟩
  · intro found
    obtain ⟨thing,way,one,first,named,on⟩ := found
    have begun : start ∈ asked := asked_all idle (start_met _ _)
    have walked : ∀ way, ∀ start ∈ asked, Way near start way → wayEnd start way ∈ asked := by
      intro way
      induction way with
      | nil => intro start has _; exact has
      | cons two way ih => intro start has goes; exact ih two (asked_near idle has goes.1) goes.2
    have has : thing ∈ asked := first.ends ▸ walked way start begun first.sorted.goes
    obtain ⟨other,line,simple,direct⟩ := line_to ordered idle inside has
    have same := first.unique later_total (fun way => Direct.goes) (line_first ordered idle line simple direct)
    subst same
    exact ⟨(thing,one),mem_scanned.mpr ⟨has,named⟩,(line.mem root).mp on⟩

end Search

end Library
