import Jojobot.Library.Keyed
import Jojobot.Search.Sessions.Staged

namespace Search
open Library Memory

variable {Columns Marks : Type}

-- One plain read of the runs: no run twice, no beat twice in the whole list.
structure Reading (sessions : List (Session Columns Marks)) : Prop where
  runs : (sessions.map (·.id)).Nodup
  beats : (sessions.flatMap fun session => session.entries.map (·.id)).Nodup

def documents (sessions : List (Session Columns Marks)) : List Document :=
  sessions.flatMap fun session => session.entries.map (documentOf session)

def about (id : Text) (documents : List Document) : List Document := documents.filter (·.entryId = id)

section
variable {sessions : List (Session Columns Marks)} {session other : Session Columns Marks} {entry beat : JournalEntry Marks}
  {docs : List Document} {id : Text}

theorem Reading.own (reading : Reading sessions) (has : session ∈ sessions) : (session.entries.map (·.id)).Nodup :=
  (List.nodup_flatMap.mp reading.beats).1 session has

theorem Reading.run (reading : Reading sessions) (has : session ∈ sessions) (there : other ∈ sessions)
    (same : session.id = other.id) : session = other :=
  List.inj_on_of_nodup_map reading.runs has there same

theorem Reading.holder (reading : Reading sessions) (has : session ∈ sessions) (there : other ∈ sessions)
    (own : entry ∈ session.entries) (mine : beat ∈ other.entries) (same : entry.id = beat.id) : session = other := by
  by_contra apart
  have disjoint := (List.nodup_flatMap.mp reading.beats).2
  have symmetric : Std.Symm (Function.onFun List.Disjoint fun session : Session Columns Marks => session.entries.map (·.id)) :=
    ⟨fun _ _ none => List.Disjoint.symm none⟩
  have none := disjoint.forall has there apart
  exact none (List.mem_map_of_mem own) (same ▸ List.mem_map_of_mem mine)

theorem Reading.documents_apart (reading : Reading sessions) : ((documents sessions).map (·.entryId)).Nodup := by
  simpa [documents,List.map_flatMap,Function.comp_def,documentOf] using reading.beats

theorem about_held (reading : Reading sessions) (alike : docs.Perm (documents sessions)) (has : session ∈ sessions)
    (own : entry ∈ session.entries) : about entry.id docs = [documentOf session entry] := by
  have member : documentOf session entry ∈ documents sessions :=
    List.mem_flatMap.mpr ⟨session,has,List.mem_map_of_mem own⟩
  have alone : about entry.id (documents sessions) = [documentOf session entry] := filter_key reading.documents_apart member
  have alike : (about entry.id docs).Perm (about entry.id (documents sessions)) := alike.filter _
  exact List.perm_singleton.mp (alone ▸ alike)

theorem about_unheld (alike : docs.Perm (documents sessions))
    (none : ∀ session ∈ sessions, ∀ entry ∈ session.entries, entry.id ≠ id) : about id docs = [] := by
  apply List.filter_eq_nil_iff.mpr
  intro document member same
  obtain ⟨session,has,made⟩ := List.mem_flatMap.mp (alike.mem_iff.mp member)
  obtain ⟨entry,own,rfl⟩ := List.mem_map.mp made
  exact none session has entry own (of_decide_eq_true same)

end

section
variable {old : Option (Session Columns Marks)} {session : Session Columns Marks}
  {entry was : JournalEntry Marks} {docs : List Document} {id : Text}

theorem changesOps_append (first second : List (EntryChange Marks)) :
    changesOps session (first ++ second) = changesOps session first ++ changesOps session second :=
  List.flatMap_append

def removals (old : Option (Session Columns Marks)) (session : Session Columns Marks) : List Text :=
  ((old.elim [] (·.entries)).map (·.id)).filter fun id => !(session.entries.map (·.id)).contains id

theorem mem_removals : id ∈ removals old session ↔
    (∃ was ∈ old.elim [] (·.entries), was.id = id) ∧ ∀ entry ∈ session.entries, entry.id ≠ id := by
  simp [removals]

theorem removals_kept (stays : id ∉ removals old session) :
    about id (landed carries docs ((removals old session).map fun id => .drop (.entryId id))) = about id docs := by
  apply landed_quiet
  intro op member
  obtain ⟨gone,has,rfl⟩ := List.mem_map.mp member
  intro document held
  have own : document.entryId = id := by simpa using held
  have apart : id ≠ gone := fun same => stays (same ▸ has)
  simpa [carries,own] using apart

variable [DecidableEq Marks]

-- The operations a run that this reading rewrites stages.
def turn (old : Option (Session Columns Marks)) (session : Session Columns Marks) : List (Staged Term Document) :=
  changesOps session (entryChanges old session)

theorem entryChange_about {change : EntryChange Marks} (made : entryChange old session entry = some change) :
    change.about = entry.id := by
  unfold entryChange at made
  split at made
  · split at made
    · cases made
    · cases made
      rfl
  · cases made
    rfl

theorem kept_quiet (entries : List (JournalEntry Marks)) (others : ∀ entry ∈ entries, entry.id ≠ id) :
    ∀ op ∈ changesOps session (entries.filterMap (entryChange old session)), op.Quiet carries (·.entryId = id) := by
  apply changes_quiet
  intro change member
  obtain ⟨entry,has,made⟩ := List.mem_filterMap.mp member
  rw [entryChange_about made]
  exact others entry has

theorem turn_parts : turn old session = changesOps session (session.entries.filterMap (entryChange old session)) ++
    (removals old session).map fun id => .drop (.entryId id) := by
  unfold turn entryChanges
  rw [changesOps_append]
  congr 1
  simp [changesOps,removals,List.flatMap_map,EntryChange.ops,← List.map_eq_flatMap]

-- A run that neither held the beat nor holds it leaves its documents alone.
theorem turn_untouched (without : ∀ entry ∈ session.entries, entry.id ≠ id)
    (never : ∀ was ∈ old.elim [] (·.entries), was.id ≠ id) : about id (landed carries docs (turn old session)) = about id docs := by
  rw [turn_parts,landed_append,removals_kept]
  · exact landed_quiet (kept_quiet session.entries without)
  · intro member
    obtain ⟨was,has,same⟩ := (mem_removals.mp member).1
    exact never was has same

theorem turn_given (without : ∀ entry ∈ session.entries, entry.id ≠ id)
    (held : ∃ was ∈ old.elim [] (·.entries), was.id = id) : about id (landed carries docs (turn old session)) = [] := by
  have goes : id ∈ removals old session := mem_removals.mpr ⟨held,without⟩
  have drops : (removals old session).map (fun id => (Staged.drop (.entryId id) : Staged Term Document)) =
      ((removals old session).map Term.entryId).map .drop := by simp
  rw [turn_parts,landed_append,drops,landed_drops]
  apply List.filter_eq_nil_iff.mpr
  intro document member same
  have stays := (List.mem_filter.mp member).2
  simp only [List.any_map,Bool.not_eq_true',List.any_eq_false,Function.comp_apply] at stays
  exact stays id goes (beq_iff_eq.mpr (of_decide_eq_true same))

theorem turn_holds (apart : (session.entries.map (·.id)).Nodup) (has : entry ∈ session.entries) :
    about entry.id (landed carries docs (turn old session)) =
      about entry.id (landed carries docs (changesOps session (entryChange old session entry).toList)) := by
  have stays : entry.id ∉ removals old session := fun member => (mem_removals.mp member).2 entry has rfl
  obtain ⟨front,back,shape⟩ := List.append_of_mem has
  have only : [entry].filterMap (entryChange old session) = (entryChange old session entry).toList := by
    cases made : entryChange old session entry <;> simp [made]
  rw [turn_parts,landed_append,removals_kept stays,shape]
  rw [shape] at apart
  simp only [List.map_append,List.map_cons,List.nodup_append,List.nodup_cons,List.mem_cons,List.mem_map] at apart
  have before : ∀ other ∈ front, other.id ≠ entry.id := fun other member =>
    apart.2.2 other.id ⟨other,member,rfl⟩ entry.id (Or.inl rfl)
  have after : ∀ other ∈ back, other.id ≠ entry.id := fun other member same => apart.2.1.1 ⟨other,member,same⟩
  rw [← List.singleton_append,List.filterMap_append,List.filterMap_append,only,changesOps_append,changesOps_append,
    landed_append,landed_append]
  have ends : ∀ docs, about entry.id (landed carries docs (changesOps session (back.filterMap (entryChange old session)))) =
      about entry.id docs := fun docs => landed_quiet (kept_quiet back after)
  rw [ends]
  exact landed_congr (landed_quiet (kept_quiet front before))

-- A beat its run did not hold is added to what stands under its id.
theorem turn_added (apart : (session.entries.map (·.id)).Nodup) (has : entry ∈ session.entries)
    (fresh : ∀ was ∈ old.elim [] (·.entries), was.id ≠ entry.id) :
    about entry.id (landed carries docs (turn old session)) = about entry.id docs ++ [documentOf session entry] := by
  have made : entryChange old session entry = some (.add entry) := by
    simp [entryChange,entriesById_none.mpr fresh]
  rw [turn_holds apart has,made]
  simp [about,changesOps,EntryChange.ops,Staged.apply,documentOf]

theorem turn_kept (apart : (session.entries.map (·.id)).Nodup) (has : entry ∈ session.entries)
    (was : ((old.elim [] (·.entries)).map (·.id)).Nodup) (held : entry ∈ old.elim [] (·.entries))
    (stayed : ownerMoved old session = false) :
    about entry.id (landed carries docs (turn old session)) = about entry.id docs := by
  have found := (entriesById_some was).mpr ⟨held,rfl⟩
  have made : entryChange old session entry = none := by simp [entryChange,found,stayed]
  rw [turn_holds apart has,made]
  rfl

theorem turn_replaced (apart : (session.entries.map (·.id)).Nodup) (has : entry ∈ session.entries)
    (olds : ((old.elim [] (·.entries)).map (·.id)).Nodup) (held : was ∈ old.elim [] (·.entries)) (same : was.id = entry.id)
    (moved : ¬ (was = entry ∧ ownerMoved old session = false)) :
    about entry.id (landed carries docs (turn old session)) = [documentOf session entry] := by
  have found := (entriesById_some olds).mpr ⟨held,same⟩
  have made : entryChange old session entry = some (.replace entry) := by simp [entryChange,found,moved]
  rw [turn_holds apart has,made]
  simp [about,changesOps,EntryChange.ops,Staged.apply,carries,documentOf,List.filter_filter]

end
end Search
