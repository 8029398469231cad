import Jojobot.Library.FirstWay
import Jojobot.Library.Trails

namespace Library

variable {L V : Type} [DecidableEq V] {next : V → List (L × V)} {n : Nat} {start v w : V} {link : L × V}
  {seen : List V} {tried rest : List (L × V)} {lead trail : Trail L V} {found earlier later below : List (Trail L V)}

-- The things that a thing is linked to, in the order of its links.
def linkedTo (next : V → List (L × V)) (v : V) : List V := (next v).map Prod.snd

omit [DecidableEq V] in
theorem mem_linkedTo : w ∈ linkedTo next v ↔ ∃ link ∈ next v, link.2 = w := List.mem_map

-- The ways of at most so many links.
def Short (next : V → List (L × V)) (n : Nat) (start : V) (way : List V) : Prop := Way (linkedTo next) start way ∧ way.length ≤ n

-- Whatever has a way shorter than the depth has a first way shorter than the depth.
def Unhidden (next : V → List (L × V)) (n : Nat) (start : V) : Prop :=
  ∀ thing, thing ≠ start → (∃ m < n, Linked next m start thing) →
    ∀ way, FirstWay (Short next n start) (Earlier (linkedTo next)) start thing way → way.length < n

-- What a walk had found when it went along a link of the lead's end.
structure Gone (next : V → List (L × V)) (n : Nat) (v : V) (seen : List V) (found : List (Trail L V)) (lead : Trail L V)
    (link : L × V) (earlier later : List (Trail L V)) (tried rest : List (L × V)) : Prop where
  placed : found = earlier ++ (lead ++ [link])::later
  order : next (ending v lead) = tried ++ link::rest
  opened : ∀ other ∈ tried, other.2 ∈ seen ++ earlier.map (ending v)
  closed : ∀ one ∈ earlier, one <+: lead ∨ one.length = n ∨ ∀ other ∈ next (ending v one), other.2 ∈ seen ++ earlier.map (ending v)

-- A trail is found while the walk is below each link that the trail goes along.
def Orderly (next : V → List (L × V)) (n : Nat) (v : V) (seen : List V) (found : List (Trail L V)) : Prop :=
  ∀ trail ∈ found, ∀ lead link, lead ++ [link] <+: trail →
    ∃ earlier later tried rest, Gone next n v seen found lead link earlier later tried rest ∧ trail ∈ (lead ++ [link])::later

omit [DecidableEq V] in
theorem Gone.more (gone : Gone next n v seen found lead link earlier later tried rest) (more : List (Trail L V)) :
    Gone next n v seen (found ++ more) lead link earlier (later ++ more) tried rest :=
  {gone with placed := by rw [gone.placed,List.append_assoc,List.cons_append]}

theorem Gone.under {first : L × V} (gone : Gone next n first.2 (seen ++ found.map (ending v) ++ [first.2]) below lead link
      earlier later tried rest) (visits : Visits next (n+1) v seen tried' found) :
    Gone next (n+1) v seen (found ++ [first]::below.map (first::·)) (first::lead) link
      (found ++ [first]::earlier.map (first::·)) (later.map (first::·)) tried rest := by
  have endings : (found ++ [first]::earlier.map (first::·)).map (ending v) =
      found.map (ending v) ++ first.2::earlier.map (ending first.2) := by
    rw [List.map_append,List.map_cons,endings_below]; rfl
  have wider : ∀ w, w ∈ seen ++ found.map (ending v) ++ [first.2] ++ earlier.map (ending first.2) →
      w ∈ seen ++ (found ++ [first]::earlier.map (first::·)).map (ending v) := by
    intro w has
    rw [endings]
    simpa [List.append_assoc] using has
  refine ⟨?_,?_,fun other has => wider _ (gone.opened other has),?_⟩
  · rw [gone.placed]
    simp
  · rw [ending_cons]
    exact gone.order
  · intro one has
    simp only [List.mem_append,List.mem_cons,List.mem_map] at has
    rcases has with had | same | ⟨below,has,same⟩
    · rcases Nat.lt_or_ge one.length (n+1) with short | long
      · right; right
        intro other linked
        have old := visits.closed one had short other linked
        rw [endings]
        simp only [List.mem_append] at old ⊢
        tauto
      · exact Or.inr (Or.inl (Nat.le_antisymm (visits.within one had).2 long))
    · subst same
      exact Or.inl ⟨lead,rfl⟩
    · subst same
      rcases gone.closed below has with under | full | all
      · exact Or.inl (List.cons_prefix_cons.mpr ⟨rfl,under⟩)
      · exact Or.inr (Or.inl (by simp [full]))
      · right; right
        intro other linked
        rw [ending_cons] at linked
        exact wider _ (all other linked)

theorem Orderly.entered (orderly : Orderly next (n+1) v seen found) (visits : Visits next (n+1) v seen tried found)
    (order : next v = tried ++ link::rest)
    (went : Orderly next n link.2 (seen ++ found.map (ending v) ++ [link.2]) below) :
    Orderly next (n+1) v seen (found ++ [link]::below.map (link::·)) := by
  have here : Gone next (n+1) v seen (found ++ [link]::below.map (link::·)) [] link found (below.map (link::·)) tried rest := by
    refine ⟨rfl,order,visits.opened,?_⟩
    intro one has
    rcases Nat.lt_or_ge one.length (n+1) with short | long
    · exact Or.inr (Or.inr (visits.closed one has short))
    · exact Or.inr (Or.inl (Nat.le_antisymm (visits.within one has).2 long))
  intro trail has lead last under
  rcases List.mem_append.mp has with old | new
  · obtain ⟨earlier,later,tried,rest,gone,since⟩ := orderly trail old lead last under
    refine ⟨earlier,_,tried,rest,gone.more _,?_⟩
    rw [←List.cons_append]
    exact List.mem_append_left _ since
  · cases lead with
    | nil =>
      have same : last = link := by
        rcases List.mem_cons.mp new with is | has
        · subst is
          exact (List.cons_prefix_cons.mp under).1
        · obtain ⟨deeper,_,is⟩ := List.mem_map.mp has
          subst is
          exact (List.cons_prefix_cons.mp under).1
      subst same
      exact ⟨found,_,tried,rest,here,new⟩
    | cons first lead =>
      rcases List.mem_cons.mp new with is | has
      · subst is
        have short := under.length_le
        simp at short
      · obtain ⟨deeper,inside,is⟩ := List.mem_map.mp has
        subst is
        obtain ⟨same,inner⟩ := List.cons_prefix_cons.mp under
        subst same
        obtain ⟨earlier,later,tried',rest',gone,since⟩ := went deeper inside lead last inner
        refine ⟨_,_,tried',rest',gone.under visits,?_⟩
        rcases List.mem_cons.mp since with same | later
        · exact List.mem_cons.mpr (Or.inl (by rw [same]; rfl))
        · exact List.mem_cons_of_mem _ (List.mem_map_of_mem later)

theorem Orderly.tried_all (orderly : Orderly next (n+1) v seen found) (visits' : Visits next (n+1) v seen tried found)
    (order : next v = tried ++ rest) (went : ∀ w seen, Orderly next n w seen (visit next n w seen)) :
    Orderly next (n+1) v seen (rest.foldl (enter (visit next n) v seen) found) := by
  induction rest generalizing tried found with
  | nil => exact orderly
  | cons link rest ih =>
    rw [List.foldl_cons]
    unfold enter
    split
    · rename_i met
      exact ih orderly (visits'.passed met) (by simp [order])
    · rename_i new
      exact ih (orderly.entered visits' order (went _ _)) (visits'.entered new (visits ..)) (by simp [order])

theorem visit_orderly (next : V → List (L × V)) (n : Nat) : ∀ v seen, Orderly next n v seen (visit next n v seen) := by
  induction n with
  | zero => intro v seen trail has; cases has
  | succ n ih =>
    intro v seen
    have begun : Orderly next (n+1) v seen [] := fun trail has => absurd has List.not_mem_nil
    exact begun.tried_all .start rfl ih

-- The things a trail comes to, one after another.
omit [DecidableEq V] in
theorem wayEnd_trail (start : V) (trail : Trail L V) : wayEnd start (trail.map Prod.snd) = ending start trail := by
  induction trail using List.reverseRecOn with
  | nil => rfl
  | append_singleton trail link _ => rw [List.map_append,List.map_singleton,wayEnd_snoc,ending_snoc]

omit [DecidableEq V] in
theorem ending_passed {inner outer : Trail L V} (under : inner <+: outer) (start : V) :
    ending start inner ∈ start::outer.map Prod.snd := by
  obtain ⟨more,shape⟩ := under
  have has := wayEnd_mem start (inner.map Prod.snd)
  rw [wayEnd_trail] at has
  rw [←shape,List.map_append,←List.cons_append]
  exact List.mem_append_left _ has

omit [DecidableEq V] in
theorem passed_ending (has : w ∈ trail.map Prod.snd) (start : V) : ∃ inner, inner ≠ [] ∧ inner <+: trail ∧ ending start inner = w := by
  obtain ⟨link,member,same⟩ := List.mem_map.mp has
  obtain ⟨front,back,shape⟩ := List.append_of_mem member
  refine ⟨front ++ [link],by simp,⟨back,by simp [shape]⟩,?_⟩
  rw [ending_snoc,same]

omit [DecidableEq V] in
theorem linked_way {way : List V} (goes : Way (linkedTo next) start way) : Linked next way.length start (wayEnd start way) := by
  induction way generalizing start with
  | nil => rfl
  | cons two way ih =>
    obtain ⟨link,has,same⟩ := mem_linkedTo.mp goes.1
    subst same
    exact ⟨link,has,ih goes.2⟩

omit [DecidableEq V] in
theorem Linked.last (linked : Linked next (n+1) v w) : ∃ between, Linked next n v between ∧ ∃ link ∈ next between, link.2 = w := by
  induction n generalizing v with
  | zero =>
    obtain ⟨link,has,same⟩ := linked
    exact ⟨v,rfl,link,has,same⟩
  | succ n ih =>
    obtain ⟨first,there,rest⟩ := linked
    obtain ⟨between,led,last⟩ := ih rest
    exact ⟨between,⟨first,there,led⟩,last⟩

section Visited
variable (visits : Visits next n start [start] tried found)
include visits

theorem Visits.prefixed {inner : Trail L V} (has : trail ∈ found) (under : inner <+: trail) (some : inner ≠ []) : inner ∈ found := by
  induction trail using List.reverseRecOn with
  | nil => exact absurd (List.prefix_nil.mp under) some
  | append_singleton trail link ih =>
    rcases List.prefix_concat_iff.mp under with whole | shorter
    · exact whole ▸ has
    · obtain ⟨before,last,shape,grown⟩ := visits.grown _ has
      obtain ⟨same,_⟩ := List.append_inj' shape rfl
      rcases grown with ⟨empty,_⟩ | ⟨there,_⟩
      · rw [same,empty] at shorter
        exact absurd (List.prefix_nil.mp shorter) some
      · exact ih (same ▸ there) shorter

theorem Visits.simple (has : trail ∈ found) : (start::trail.map Prod.snd).Nodup := by
  induction trail using List.reverseRecOn with
  | nil => exact absurd rfl (visits.within _ has).1
  | append_singleton trail link ih =>
    have distinct : (start::trail.map Prod.snd).Nodup := by
      by_cases empty : trail = []
      · subst empty
        exact List.nodup_singleton _
      · exact ih (visits.prefixed has (List.prefix_append ..) empty)
    have fresh : link.2 ∉ start::trail.map Prod.snd := by
      intro passed
      rcases List.mem_cons.mp passed with back | again
      · exact visits.fresh _ has (by rw [ending_snoc,back]; exact List.mem_singleton_self _)
      · obtain ⟨inner,some,under,ends⟩ := passed_ending again start
        have there := visits.prefixed has (under.trans (List.prefix_append ..)) some
        have same := List.inj_on_of_nodup_map visits.apart there has (by rw [ends,ending_snoc])
        have short := under.length_le
        rw [same] at short
        simp at short
    rw [List.map_append,List.map_singleton,←List.cons_append]
    exact distinct.append (List.nodup_singleton _) (List.disjoint_singleton.mpr fresh)

theorem Visits.goes (own : ∀ link ∈ tried, link ∈ next start) (has : trail ∈ found) : Way (linkedTo next) start (trail.map Prod.snd) := by
  induction trail using List.reverseRecOn with
  | nil => trivial
  | append_singleton trail link ih =>
    obtain ⟨before,last,shape,grown⟩ := visits.grown _ has
    obtain ⟨same,same'⟩ := List.append_inj' shape rfl
    cases List.singleton_inj.mp same'
    subst same
    rw [List.map_append,List.map_singleton,way_append,wayEnd_trail]
    rcases grown with ⟨empty,linked⟩ | ⟨there,linked⟩
    · subst empty
      exact ⟨trivial,List.mem_map_of_mem (own link linked),trivial⟩
    · exact ⟨ih there,List.mem_map_of_mem linked,trivial⟩

end Visited

-- No trail of the whole depth ends at a thing that has a shorter way.
def Unspent (next : V → List (L × V)) (n : Nat) (start : V) (found : List (Trail L V)) : Prop :=
  ∀ trail ∈ found, trail.length = n → ¬∃ m < n, Linked next m start (ending start trail)

-- What a walk had found before it turned to a link has, with each thing off the lead, all
-- that a way goes on to from there.
omit [DecidableEq V] in
theorem Gone.onward {way : List V} {length : Nat} (gone : Gone next n start [start] found lead link earlier later tried rest)
    (unspent : Unspent next n start earlier) (goes : Way (linkedTo next) w way) (linked : Linked next length start w)
    (short : length+way.length ≤ n) (off : ∀ thing ∈ w::way, thing ∉ start::lead.map Prod.snd)
    (has : w ∈ earlier.map (ending start)) : wayEnd w way ∈ earlier.map (ending start) := by
  induction way generalizing w length with
  | nil => exact has
  | cons two way ih =>
    obtain ⟨one,there,ends⟩ := List.mem_map.mp has
    obtain ⟨further,member,same⟩ := mem_linkedTo.mp goes.1
    have more : two ∈ [start] ++ earlier.map (ending start) := by
      rcases gone.closed one there with under | full | all
      · exact absurd (ends ▸ ending_passed under start) (off w List.mem_cons_self)
      · refine absurd ⟨length,?_,ends ▸ linked⟩ (unspent one there full)
        rw [List.length_cons] at short
        omega
      · exact same ▸ all further (ends.symm ▸ member)
    have apart := off two (List.mem_cons_of_mem _ List.mem_cons_self)
    rcases List.mem_append.mp more with back | met
    · exact absurd (List.mem_cons.mpr (Or.inl (List.mem_singleton.mp back))) apart
    · refine ih goes.2 (same ▸ linked.snoc member) ?_ (fun thing later => off thing (List.mem_cons_of_mem _ later)) met
      rw [List.length_cons] at short
      omega

-- A trail found with none of the whole depth in a shorter way's place before it goes by the
-- first way to where it ends.
theorem visit_first_way (own : ∀ link ∈ tried, link ∈ next start) (visits : Visits next n start [start] tried found)
    (orderly : Orderly next n start [start] found) (has : trail ∈ found)
    (unspent : ∀ earlier later, found = earlier ++ trail::later → Unspent next n start earlier) :
    FirstWay (Short next n start) (Earlier (linkedTo next)) start (ending start trail) (trail.map Prod.snd) where
  sorted := ⟨visits.goes own has,by rw [List.length_map]; exact (visits.within trail has).2⟩
  simple := visits.simple has
  ends := wayEnd_trail start trail
  first := by
    intro other sorted simple ends sooner
    obtain ⟨front,one,two,way,way',shape,shape',turns⟩ := sooner.parts
    subst shape
    obtain ⟨lead,back,split,things,things'⟩ := List.map_eq_append_iff.mp shape'
    obtain ⟨link,back,split',turn,_⟩ := List.map_eq_cons_iff.mp things'
    subst things turn split' split
    rw [wayEnd_trail] at turns
    obtain ⟨earlier,later,tried,rest,gone,since⟩ := orderly _ has lead link ⟨back,by simp⟩
    have spare : Unspent next n start earlier := by
      obtain ⟨more,after,shape⟩ := List.append_of_mem since
      have whole := unspent (earlier ++ more) after (by rw [gone.placed,shape,List.append_assoc])
      exact fun one member => whole one (List.mem_append_left _ member)
    obtain ⟨goes,along⟩ := way_append.mp sorted.1
    have length := sorted.2
    rw [List.length_append,List.length_cons] at length
    have apart := (List.nodup_append.mp ((List.cons_append ▸ simple : ((start::lead.map Prod.snd) ++ one::way).Nodup))).2.2
    have off : ∀ thing ∈ one::way, thing ∉ start::lead.map Prod.snd :=
      fun thing member passed => apart thing passed thing member rfl
    have met : one ∈ earlier.map (ending start) := by
      -- The link to it comes before the one that was turned to.
      unfold Earlier linkedTo at turns
      rw [gone.order,List.map_append,List.map_cons] at turns
      have before : one ∈ tried.map Prod.snd := by
        by_contra after
        rw [List.idxOf_append_of_notMem after] at turns
        by_cases known : link.2 ∈ tried.map Prod.snd
        · rw [List.idxOf_append_of_mem known] at turns
          have bound := List.idxOf_lt_length_iff.mpr known
          omega
        · rw [List.idxOf_append_of_notMem known,List.idxOf_cons_self] at turns
          omega
      obtain ⟨first,member,same⟩ := List.mem_map.mp before
      rcases List.mem_append.mp (same ▸ gone.opened first member) with back | found
      · exact absurd (List.mem_cons.mpr (Or.inl (List.mem_singleton.mp back))) (off one List.mem_cons_self)
      · exact found
    have linked : Linked next ((lead.map Prod.snd).length+1) start one := by
      have step := linked_way (way_append.mpr ⟨goes,along.1,trivial⟩ : Way (linkedTo next) start (lead.map Prod.snd ++ [one]))
      rwa [List.length_append,wayEnd_snoc] at step
    have reached := gone.onward spare along.2 linked (by omega) off met
    rw [wayEnd_append] at ends
    rw [show wayEnd one way = _ from ends] at reached
    -- What was found before does not end where the trail ends.
    have distinct := visits.apart
    rw [gone.placed,List.map_append] at distinct
    exact (List.nodup_append.mp distinct).2.2 _ reached _ (List.mem_map_of_mem since) rfl

omit [DecidableEq V] in
theorem spared_own (next : V → List (L × V)) (n : Nat) (start : V) : ∀ link ∈ spared next n start, link ∈ next start := by
  cases n with
  | zero => intro link has; cases has
  | succ n => exact fun link has => has

theorem met_within (unspent : Unspent next n start (visit next n start [start])) (m : Nat) :
    ∀ w, m ≤ n → Linked next m start w → w ∈ [start] ++ (visit next n start [start]).map (ending start) := by
  have walked := visits next n start [start]
  induction m with
  | zero =>
    intro w _ linked
    exact List.mem_append_left _ (List.mem_singleton.mpr (show start = w from linked).symm)
  | succ m ih =>
    intro w short linked
    obtain ⟨between,led,link,member,same⟩ := linked.last
    subst same
    rcases List.mem_append.mp (ih between (Nat.le_of_succ_le short) led) with here | met
    · rw [List.mem_singleton.mp here] at member
      apply walked.opened link
      obtain ⟨more,shape⟩ := Nat.exists_eq_add_of_lt short
      rw [shape]
      exact member
    · obtain ⟨trail,has,same⟩ := List.mem_map.mp met
      subst same
      apply walked.closed trail has _ link member
      refine Nat.lt_of_le_of_ne (walked.within trail has).2 ?_
      intro full
      exact unspent trail has full ⟨m,short,led⟩

-- With no trail spent so, a walk finds all there is within its depth.
theorem visit_complete (unspent : Unspent next n start (visit next n start [start])) (w : V) :
    w ∈ (visit next n start [start]).map (ending start) ↔ w ≠ start ∧ ∃ m, 1 ≤ m ∧ m ≤ n ∧ Away next start m w := by
  have walked := visits next n start [start]
  constructor
  · intro found
    obtain ⟨trail,has,same⟩ := List.mem_map.mp found
    subst same
    have apart : ending start trail ≠ start := by simpa using walked.fresh trail has
    exact ⟨apart,away_of_linked apart ⟨_,(walked.within trail has).2,walked.linked (spared_own next n start) _ trail has rfl⟩⟩
  · intro away
    obtain ⟨apart,m,_,short,away⟩ := away
    rcases List.mem_append.mp (met_within unspent m w short away.1) with here | met
    · exact absurd (List.mem_singleton.mp here) apart
    · exact met

-- That no trail is spent so is a matter of the first ways alone.
theorem unspent_iff (next : V → List (L × V)) (n : Nat) (start : V) :
    Unspent next n start (visit next n start [start]) ↔ Unhidden next n start := by
  have walked := visits next n start [start]
  have own := spared_own next n start
  have orderly := visit_orderly next n start [start]
  constructor
  · intro unspent thing apart near way first
    obtain ⟨m,short,linked⟩ := near
    obtain ⟨trail,has,same⟩ := List.mem_map.mp
      ((visit_complete unspent thing).mpr ⟨apart,away_of_linked apart ⟨m,short.le,linked⟩⟩)
    have first' := visit_first_way own walked orderly has fun earlier later shape one member =>
      unspent one (shape ▸ List.mem_append_left _ member)
    rw [same] at first'
    have whole := first.unique earlier_total (fun way => And.left) first'
    rw [whole,List.length_map]
    refine Nat.lt_of_le_of_ne (walked.within trail has).2 ?_
    intro full
    exact unspent trail has full (same ▸ ⟨m,short,linked⟩)
  · intro unhidden
    -- The trails before each one are not spent so: by induction on the trails before.
    have each : ∀ earlier rest, visit next n start [start] = earlier ++ rest → Unspent next n start earlier := by
      intro earlier
      induction earlier using List.reverseRecOn with
      | nil => intro _ _ trail has; cases has
      | append_singleton earlier last ih =>
        intro rest shape trail has full near
        rw [List.append_assoc,List.singleton_append] at shape
        have before := ih _ shape
        rcases List.mem_append.mp has with old | new
        · exact before trail old full near
        · have same := List.mem_singleton.mp new
          subst same
          have has : trail ∈ visit next n start [start] := shape ▸ List.mem_append_right _ List.mem_cons_self
          have first := visit_first_way own walked orderly has fun front back shape' => by
            have distinct := (List.Nodup.of_map _ walked.apart)
            rw [shape] at distinct
            have both := (List.append_cons_inj_of_notMem
              (fun member => List.disjoint_of_nodup_append distinct member List.mem_cons_self)
              (List.nodup_cons.mp (List.nodup_append.mp distinct).2.1).1).mp (shape.symm.trans shape')
            exact both.1 ▸ before
          have apart : ending start trail ≠ start := by simpa using walked.fresh trail has
          have short := unhidden _ apart near _ first
          rw [List.length_map] at short
          omega
    exact each _ [] (List.append_nil _).symm

end Library
