import Jojobot.Memory.Document.Fit.Chunks

namespace Document
open Library

variable {text raw front : Text} {lines : List Text} {block other : Nat × Nat} {fence : Option (Char × Nat × Nat)} {place : Nat}

-- What every block is: a stretch of whole lines with words in it.
structure IsBlock (text : Text) (block : Nat × Nat) : Prop where
  ordered : block.1 < block.2
  within : block.2 ≤ text.length
  words : trim (slice text block) ≠ []
  ended : block.2 = text.length ∨ text[block.2-1]? = some '\n'

theorem words_wider {a b : Nat} (words : trim ((text.drop a).take b) ≠ []) (more : b ≤ c) : trim ((text.drop a).take c) ≠ [] := by
  intro blank
  apply words
  apply trim_nil_iff.mpr
  intro d member
  exact trim_nil_iff.mp blank d (List.take_subset_take_left _ more member)

-- Blocks come one behind the other, each behind what was read before it or from the
-- fence that was open.
theorem fencedBlocksFrom_facts (lines : List Text) (lined : LinesOf lines) (fence : Option (Char × Nat × Nat)) {front : Text}
    (whole : text = front ++ lines.flatten)
    (held : ∀ c run start, fence = some (c,run,start) → start < front.length ∧ trim ((text.drop start).take (front.length-start)) ≠ []) :
    (fencedBlocksFrom fence front.length lines).Pairwise (fun a b => a.2 ≤ b.1) ∧
      ∀ block ∈ fencedBlocksFrom fence front.length lines, IsBlock text block ∧ front.length < block.2 ∧
        ((∃ c run, fence = some (c,run,block.1)) ∨ front.length ≤ block.1) := by
  induction lines generalizing fence front with
  | nil =>
    refine ⟨?_,?_⟩
    · rw [fencedBlocksFrom]
      exact List.Pairwise.nil
    · intro block has
      rw [fencedBlocksFrom] at has
      cases has
  | cons raw rest ih =>
    obtain ⟨filled,ends,_⟩ := lined.first
    have positive : 0 < raw.length := List.length_pos_of_ne_nil filled
    have whole' : text = (front ++ raw) ++ rest.flatten := by simpa using whole
    have length : (front ++ raw).length = front.length+raw.length := List.length_append
    have total : text.length = front.length+raw.length+rest.flatten.length := by
      rw [whole',List.length_append,List.length_append]
    have later := fun next held => ih lined.rest next whole' held
    rw [length] at later
    have onward : ∀ next : Option (Char × Nat × Nat),
        (∀ block ∈ fencedBlocksFrom next (front.length+raw.length) rest, IsBlock text block ∧ front.length+raw.length < block.2 ∧
          ((∃ c run, next = some (c,run,block.1)) ∨ front.length+raw.length ≤ block.1)) →
        (∀ c run start, next = some (c,run,start) → (∃ c run, fence = some (c,run,start)) ∨ front.length ≤ start) →
        ∀ block ∈ fencedBlocksFrom next (front.length+raw.length) rest, IsBlock text block ∧ front.length < block.2 ∧
          ((∃ c run, fence = some (c,run,block.1)) ∨ front.length ≤ block.1) := by
      intro next facts from' block has
      obtain ⟨is,past,either⟩ := facts block has
      refine ⟨is,by omega,?_⟩
      rcases either with ⟨c,run,same⟩ | behind
      · exact from' c run block.1 same
      · exact Or.inr (by omega)
    have slice_front : ∀ start, start ≤ front.length → (text.drop start).take (front.length+raw.length-start) =
        (text.drop start).take (front.length-start) ++ raw := by
      intro start before
      have cut : text.drop start = front.drop start ++ (raw ++ rest.flatten) := by
        rw [whole,List.flatten_cons,List.drop_append_of_le_length before]
      rw [cut]
      have first : (front.drop start ++ (raw ++ rest.flatten)).take (front.length-start) = front.drop start := by
        rw [List.take_append_of_le_length (by simp)]
        exact List.take_of_length_le (by simp)
      rw [first,←List.append_assoc]
      have exact' : front.length+raw.length-start = (front.drop start ++ raw).length := by
        rw [List.length_append,List.length_drop]
        omega
      rw [exact']
      exact List.take_left
    have kept : ∀ c run start, fence = some (c,run,start) →
        start < front.length+raw.length ∧ trim ((text.drop start).take (front.length+raw.length-start)) ≠ [] := by
      intro c run start same
      obtain ⟨before,words⟩ := held c run start same
      exact ⟨by omega,words_wider words (by omega)⟩
    unfold fencedBlocksFrom
    split
    · rename_i c run behind opens
      have opened : ∀ c' run' start, some (c,run,front.length) = some (c',run',start) →
          start < front.length+raw.length ∧ trim ((text.drop start).take (front.length+raw.length-start)) ≠ [] := by
        intro c' run' start same
        cases same
        refine ⟨by omega,?_⟩
        rw [slice_front _ (Nat.le_refl _)]
        simpa using bare_words opens
      obtain ⟨ordered,facts⟩ := later (some (c,run,front.length)) opened
      refine ⟨ordered,onward _ facts ?_⟩
      intro c' run' start same
      cases same
      exact Or.inr (Nat.le_refl _)
    · rename_i c run start other' length' behind closes
      split
      · obtain ⟨before,words⟩ := held c run start rfl
        obtain ⟨ordered,facts⟩ := later none (fun _ _ _ same => by cases same)
        have nothing : ∀ (c : Char) (run start : Nat), (none : Option (Char × Nat × Nat)) = some (c,run,start) →
            (∃ c' run', some (c,run,start) = some (c',run',start)) ∨ front.length ≤ start := fun _ _ _ same => by cases same
        refine ⟨List.pairwise_cons.mpr ⟨?_,ordered⟩,?_⟩
        · intro block has
          rcases (facts block has).2.2 with ⟨_,_,same⟩ | behind'
          · cases same
          · exact behind'
        · intro block has
          rcases List.mem_cons.mp has with here | there
          · subst here
            refine ⟨⟨by omega,by omega,?_,?_⟩,by omega,Or.inl ⟨c,run,rfl⟩⟩
            · exact words_wider words (by omega)
            · by_cases more : rest = []
              · left
                rw [total,more]
                simp
              · right
                have last := ends more
                change text[front.length+raw.length-1]? = some '\n'
                rw [whole,List.flatten_cons,List.getElem?_append_right (by omega),List.getElem?_append_left (by omega)]
                rw [List.getLast?_eq_getElem?] at last
                rw [←last]
                congr 1
                omega
          · exact onward none facts (fun _ _ _ same => by cases same) block there
      · obtain ⟨ordered,facts⟩ := later (some (c,run,start)) kept
        exact ⟨ordered,onward _ facts fun c' run' start' same => Or.inl ⟨c',run',same⟩⟩
    · obtain ⟨ordered,facts⟩ := later none (fun _ _ _ same => by cases same)
      exact ⟨ordered,onward none facts fun _ _ _ same => by cases same⟩
    · rename_i held' _
      obtain ⟨ordered,facts⟩ := later (some held') kept
      exact ⟨ordered,onward _ facts fun c' run' start' same => Or.inl ⟨c',run',same⟩⟩

theorem fencedBlocks_facts (text : Text) : (fencedBlocks text).Pairwise (fun a b => a.2 ≤ b.1) ∧ ∀ block ∈ fencedBlocks text, IsBlock text block := by
  have whole : text = [] ++ (splitInclusive text).flatten := (splitInclusive_flatten text).symm
  obtain ⟨ordered,facts⟩ := fencedBlocksFrom_facts (splitInclusive text) (splitInclusive_linesOf text) none whole (fun _ _ _ same => by cases same)
  exact ⟨ordered,fun block has => (facts block has).1⟩

-- Two blocks are one, or one stands behind the other.
theorem blocks_apart (has : block ∈ fencedBlocks text) (has' : other ∈ fencedBlocks text) : block = other ∨ block.2 ≤ other.1 ∨ other.2 ≤ block.1 := by
  obtain ⟨before,after,split⟩ := List.append_of_mem has
  have ordered := (fencedBlocks_facts text).1
  rw [split] at ordered has'
  obtain ⟨_,behind,across⟩ := List.pairwise_append.mp ordered
  rcases List.mem_append.mp has' with earlier | rest
  · exact Or.inr (Or.inr (across other earlier block List.mem_cons_self))
  · rcases List.mem_cons.mp rest with same | later
    · exact Or.inl same.symm
    · exact Or.inr (Or.inl ((List.pairwise_cons.mp behind).1 other later))

end Document
