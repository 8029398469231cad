import Jojobot.Memory.Bags.Predicted
import Jojobot.Memory.Merge.Ledger

namespace Memory
open Library Std Merge

variable [Floats] {declared : List FoldType}

def standing (writes : List KeyWrite) (key : Text) : List KeyWrite := (under writes key).filter fun write => write.status = .active

-- The value of a key that folds to its newest write, off writes in their order.
theorem newest_value {key : Text} {writes : List KeyWrite} (newest : foldOf key declared = .newest)
    (unreserved : reservedKey key = false) (sorted : Sorted writes) :
    (foldedFields writes declared)[key]? =
      (((standing writes key).getLast?).bind (·.value)).filter (counts declared key) := by
  have sent : sentFor key writes = (standing writes key).map (·.value) := by
    unfold sentFor standing under
    have plain : ((writes.filter fun write => write.status = .active && !reservedKey write.key).filter (·.key = key)) =
        (writes.filter (ServedWrite.key · = key)).filter fun write => write.status = .active := by
      rw [List.filter_filter,List.filter_filter]
      apply List.filter_congr
      intro write _
      by_cases same : write.key = key
      · subst same
        simp [unreserved,ServedWrite.key]
      · simp [same,ServedWrite.key]
    rw [plain]
    congr 1
    apply sortBy_eq (List.Perm.refl _)
    apply List.Pairwise.imp_of_mem _ ((sorted key).filter _)
    intro a b inA inB less
    have keyA := (mem_under.mp (List.mem_filter.mp inA).1).2
    have keyB := (mem_under.mp (List.mem_filter.mp inB).1).2
    have same : a.key = b.key := keyA.trans keyB.symm
    have earlier : a.ordinal < b.ordinal := Int.ofNat_lt.mp less
    simpa [byKeyAndOrdinal,compareLex,compareOn,same] using Nat.compare_eq_lt.mpr earlier
  rw [foldedFields_key]
  change (({} : Cell).layAll declared key (sentFor key writes)).value = _
  rw [sent]
  rcases List.eq_nil_or_concat' (standing writes key) with none' | ⟨front,last,shape⟩
  · rw [none']
    rfl
  · rw [shape,List.map_append,List.getLast?_concat]
    exact newest_last newest _ _ last.value

omit [Floats] in
theorem appendWrites_sorted {fact : Fact} {moment : Timestamp} {bags : Bags} {rows : List FieldRow}
    (wrote : List (Text × Option Text)) (sorted : Sorted (writesOn rows)) :
    Sorted (writesOn (appendWrites fact moment bags rows wrote)) := by
  unfold appendWrites
  induction wrote generalizing rows with
  | nil => exact sorted
  | cons row rest ih =>
    apply ih
    intro key
    rw [writesOn_append,under_append]
    apply List.pairwise_append.mpr
    refine ⟨sorted key,?_,?_⟩
    · apply List.Pairwise.filter
      unfold writesOn
      rw [List.filter_cons]
      split
      · exact List.pairwise_singleton ..
      · exact List.Pairwise.nil
    · intro other earlier write last
      obtain ⟨inRows,otherKey⟩ := mem_under.mp earlier
      obtain ⟨inLast,writeKey⟩ := mem_under.mp last
      obtain ⟨stored,found,same⟩ := List.mem_map.mp inRows
      obtain ⟨laid,member,same'⟩ := List.mem_map.mp inLast
      cases List.mem_singleton.mp (List.mem_filter.mp member).1
      subst same
      subst same'
      have known : stored.write ∈ rows.map (·.write) := List.mem_map_of_mem (List.mem_filter.mp found).1
      have before := lt_nextOrdinal known (otherKey.trans writeKey.symm)
      exact Int.ofNat_lt.mpr before

end Memory
