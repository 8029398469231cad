import Jojobot.Memory.Room.Counted

namespace Room
open Library Std Memory

variable {starts : List Timestamp} {at' cutoff : Timestamp} {agesAfterRuns : Nat}

theorem newest_first (later : ∀ start ∈ starts, start ≤ at') :
    sortBy (fun a b => compare b a) (starts ++ [at']) = at' :: sortBy (fun a b => compare b a) starts := by
  apply sortBy_unique
  · intro a b ab ba
    exact Int.le_antisymm (Int.isLE_compare.mp ba) (Int.isLE_compare.mp ab)
  · exact ((sortBy_perm _ starts).cons at').trans (List.perm_append_singleton at' starts).symm
  · apply List.pairwise_cons.mpr
    refine ⟨?_,sortBy_pairwise starts⟩
    intro start member
    exact Int.isLE_compare.mpr (later start (mem_sortBy.mp member))

theorem agingCutoff_start (cuts : agingCutoff starts agesAfterRuns = some cutoff) : cutoff ∈ starts := by
  unfold agingCutoff at cuts
  split at cuts
  · cases cuts
  · exact mem_sortBy.mp (List.mem_of_getElem? cuts)

-- A new run moves the cutoff forward.
theorem agingCutoff_forward (later : ∀ start ∈ starts, start ≤ at') (cuts : agingCutoff starts agesAfterRuns = some cutoff) :
    ∃ next, agingCutoff (starts ++ [at']) agesAfterRuns = some next ∧ cutoff ≤ next := by
  have earlier := later cutoff (agingCutoff_start cuts)
  unfold agingCutoff at cuts ⊢
  split at cuts
  · cases cuts
  · rename_i asked
    obtain ⟨counted,enough⟩ := not_or.mp asked
    have still : ¬(agesAfterRuns = 0 ∨ (starts ++ [at']).length < agesAfterRuns) := by
      rw [List.length_append,List.length_singleton]
      omega
    rw [if_neg still,newest_first later]
    obtain ⟨runs,same⟩ := Nat.exists_eq_succ_of_ne_zero counted
    subst same
    cases runs with
    | zero => exact ⟨at',rfl,earlier⟩
    | succ runs =>
      obtain ⟨inside,isCutoff⟩ := List.getElem?_eq_some_iff.mp cuts
      refine ⟨(sortBy (fun a b => compare b a) starts)[runs],List.getElem?_eq_getElem (Nat.lt_of_succ_lt inside),?_⟩
      have sorted : (sortBy (fun a b => compare b a) starts).Pairwise fun a b => (compare b a).isLE = true := sortBy_pairwise starts
      have ordered := List.pairwise_iff_getElem.mp sorted runs (runs+1) (Nat.lt_of_succ_lt inside) inside (Nat.lt_succ_self runs)
      rw [←isCutoff]
      exact Int.isLE_compare.mp ordered

-- What was quiet stays quiet, so a new run only takes thoughts out of the count.
theorem quiet_forward (later : ∀ start ∈ starts, start ≤ at') {touched : Option Timestamp}
    (quiet : isQuiet touched (agingCutoff starts agesAfterRuns) = true) :
    isQuiet touched (agingCutoff (starts ++ [at']) agesAfterRuns) = true := by
  unfold isQuiet at quiet
  split at quiet
  · rename_i _ _ moment cutoff cuts
    obtain ⟨next,nextCuts,forward⟩ := agingCutoff_forward later cuts
    rw [nextCuts]
    apply decide_eq_true
    exact Int.lt_of_lt_of_le (of_decide_eq_true quiet) forward
  · cases quiet

theorem live_backward (later : ∀ start ∈ starts, start ≤ at') {writes : List ClaimWrite} {claim : Claim}
    (live : isLive writes (agingCutoff (starts ++ [at']) agesAfterRuns) claim = true) :
    isLive writes (agingCutoff starts agesAfterRuns) claim = true := by
  unfold isLive at live ⊢
  obtain ⟨seat,counted⟩ := Bool.and_eq_true_iff.mp live
  rw [seat,Bool.true_and]
  cases quiet : isQuiet (touchedMoment writes claim.id) (agingCutoff starts agesAfterRuns) with
  | false => rfl
  | true =>
    rw [quiet_forward later quiet] at counted
    cases counted

end Room
