import Jojobot.Requests.Canonical.ReadBack

namespace Requests
open Library Std

variable {ν : Type} {print : Printer ν}

theorem written_keys (map : List (Text × Value ν)) : (writeMembers print map).map Prod.fst = map.map Prod.fst := by
  rw [writeMembers_eq,List.map_map]
  rfl

-- Members of distinct keys are sorted in one way, whatever order they came in.
theorem sortBy_members {one other : List (Text × Text)} (same : one.Perm other) (distinct : (other.map Prod.fst).Nodup) :
    sortBy (compareOn Prod.fst) one = sortBy (compareOn Prod.fst) other := by
  apply sortBy_eq ((sortBy_perm _ other).trans same.symm)
  apply sortBy_strict
  refine (List.pairwise_map.mp distinct).imp ?_
  intro a b differ equal
  exact differ (LawfulEqOrd.eq_of_compare equal)

theorem found_written {map other : List (Text × Value ν)} {entry : Text × Text}
    (found : ∀ one ∈ map, ∃ value, (one.1,value) ∈ other ∧ writeCanonical print one.2 = writeCanonical print value)
    (mem : entry ∈ writeMembers print map) : entry ∈ writeMembers print other := by
  rw [writeMembers_eq,List.mem_map] at mem ⊢
  obtain ⟨one,here,rfl⟩ := mem
  obtain ⟨value,there,same⟩ := found one here
  exact ⟨(one.1,value),there,by rw [written,written,same]⟩

theorem Value.Distinct.one_value {map : List (Text × Value ν)} {key : Text} {one other : Value ν}
    (distinct : (map.map Prod.fst).Nodup) (here : (key,one) ∈ map) (there : (key,other) ∈ map) : one = other :=
  congrArg Prod.snd (List.inj_on_of_nodup_map distinct here there rfl)

theorem written_alike (v : Value ν) : ∀ w, v.Distinct → w.Distinct → v.Same w → writeCanonical print v = writeCanonical print w := by
  induction v using Value.every with
  | null =>
    intro w _ _ same
    cases w <;> simp_all [Value.Same]
  | bool value =>
    intro w _ _ same
    cases w <;> simp_all [Value.Same]
  | number value =>
    intro w _ _ same
    cases w <;> simp_all [Value.Same]
  | string text =>
    intro w _ _ same
    cases w <;> simp_all [Value.Same]
  | array items ih =>
    intro w distinct distinct' same
    cases w with
    | array others =>
      have texts : items.map (writeCanonical print) = others.map (writeCanonical print) := by
        rw [← List.forall₂_eq_eq_eq,List.forall₂_map_left_iff,List.forall₂_map_right_iff]
        have alike := Value.sameItems_iff.mp same
        have one := Value.distinctItems_iff.mp distinct
        have other := Value.distinctItems_iff.mp distinct'
        clear same distinct distinct'
        induction alike with
        | nil => exact .nil
        | cons first _ later =>
          simp only [List.forall_mem_cons] at ih one other
          exact .cons (ih.1 _ one.1 other.1 first) (later ih.2 one.2 other.2)
      rw [writeCanonical,writeCanonical,writeItems_eq,writeItems_eq,texts]
    | _ => cases same
  | object map ih =>
    intro w distinct distinct' same
    cases w with
    | object other =>
      obtain ⟨keys,members⟩ := same
      rw [Value.sameMembers_iff] at members
      have inner := Value.distinctMembers_iff.mp distinct.2
      have inner' := Value.distinctMembers_iff.mp distinct'.2
      have there : ∀ one ∈ map, ∃ value, (one.1,value) ∈ other ∧ writeCanonical print one.2 = writeCanonical print value := by
        intro one here
        obtain ⟨found,mem,alike⟩ := members one here
        exact ⟨found,mem,ih one here found (inner one here) (inner' _ mem) alike⟩
      have back : ∀ one ∈ other, ∃ value, (one.1,value) ∈ map ∧ writeCanonical print one.2 = writeCanonical print value := by
        intro one here
        obtain ⟨entry,mem,key⟩ := List.mem_map.mp ((keys one.1).mpr (List.mem_map_of_mem here))
        obtain ⟨found,mem',texts⟩ := there entry mem
        rw [key] at mem'
        obtain rfl := Value.Distinct.one_value distinct'.1 mem' here
        exact ⟨entry.2,by rw [← key]; exact mem,texts.symm⟩
      have perm : (writeMembers print map).Perm (writeMembers print other) := by
        refine (List.perm_ext_iff_of_nodup ?_ ?_).mpr fun entry => ⟨found_written there,found_written back⟩
        · exact List.Nodup.of_map Prod.fst (by rw [written_keys]; exact distinct.1)
        · exact List.Nodup.of_map Prod.fst (by rw [written_keys]; exact distinct'.1)
      rw [writeCanonical,writeCanonical,sortBy_members perm (by rw [written_keys]; exact distinct'.1)]
    | _ => cases same

theorem kept_distinct (arguments : Arguments ν) : (Value.object (kept arguments.map)).Distinct := by
  obtain ⟨keys,inner⟩ := arguments.distinct
  refine ⟨keys.sublist (List.filter_sublist.map _),Value.distinctMembers_iff.mpr ?_⟩
  intro entry mem
  exact Value.distinctMembers_iff.mp inner entry (List.mem_of_mem_filter mem)

theorem canonical_text_names_the_call (lawful : print.Lawful) (a b : Arguments ν) :
    canonicalArguments print a = canonicalArguments print b ↔
      (Value.object (kept a.map)).Same (Value.object (kept b.map)) := by
  constructor
  · intro same
    have stopped : Stopped stops [] := fun c head => by cases head
    exact (lawful.read_back _ _ [] [] stopped stopped (by simpa [canonicalArguments] using same)).1
  · exact written_alike _ _ (kept_distinct a) (kept_distinct b)

-- A printing that escapes what would end a string, and whole numbers.
def escape (c : Char) : Text := if c = '"' ∨ c = '\\' then ['\\',c] else [c]

def plainPrinter : Printer Nat where
  string text := '"'::text.flatMap escape++['"']
  number := printNat

theorem escaped_text (text : Text) : Escaped (text.flatMap escape) := by
  induction text with
  | nil => exact .nil
  | cons c text ih =>
    rw [List.flatMap_cons,escape]
    split
    · exact .escape ih
    · rename_i free
      exact .plain (fun quote => free (Or.inl quote)) (fun slash => free (Or.inr slash)) ih

theorem escape_inj {s t : Text} (same : s.flatMap escape = t.flatMap escape) : s = t := by
  induction s generalizing t with
  | nil =>
    cases t with
    | nil => rfl
    | cons d t =>
      simp only [List.flatMap_nil,List.flatMap_cons,escape] at same
      split at same <;> cases same
  | cons c s ih =>
    cases t with
    | nil =>
      simp only [List.flatMap_nil,List.flatMap_cons,escape] at same
      split at same <;> cases same
    | cons d t =>
      simp only [List.flatMap_cons,escape] at same
      split at same <;> split at same
      · simp only [List.cons_append,List.nil_append,List.cons.injEq,true_and] at same
        rw [same.1,ih same.2]
      · rename_i free
        exact (free (Or.inr (List.cons.inj same).1.symm)).elim
      · rename_i free _
        exact (free (Or.inr (List.cons.inj same).1)).elim
      · simp only [List.cons_append,List.nil_append,List.cons.injEq] at same
        rw [same.1,ih same.2]

theorem plainPrinter_lawful : plainPrinter.Lawful where
  string_injective s t same := escape_inj (List.append_cancel_right (List.cons.inj same).2)
  number_injective n m same := printNat_inj same
  quoted s := ⟨s.flatMap escape,rfl,escaped_text s⟩
  numeric n := by
    refine ⟨Nat.toDigits_ne_nil,?_⟩
    intro c mem
    simp [isNumeric,printNat_digit mem]

theorem kept_taken {key : Text} (taken : key = ARGUMENT ∨ key = "sid".toList) (value : Value ν) (map : List (Text × Value ν)) :
    kept ((key,value)::map) = kept map := by
  rcases taken with rfl | rfl <;> simp [kept]

theorem kept_cons {key : Text} (request : key ≠ ARGUMENT) (session : key ≠ "sid".toList) (value : Value ν) (map : List (Text × Value ν)) :
    kept ((key,value)::map) = (key,value)::kept map := by
  have stays : (key != ARGUMENT && key != "sid".toList) = true := by
    rw [bne_iff_ne.mpr request,bne_iff_ne.mpr session]
    rfl
  exact List.filter_cons_of_pos stays

def inner : Value Nat := .object [(['y'],.number 2),(['x'],.null)]
def turned : Value Nat := .object [(['x'],.null),(['y'],.number 2)]
def listed : Value Nat := .array [.object [],.string ['q']]

def asked : Arguments Nat where
  map := [(['b'],inner),(['a'],listed),("sid".toList,.string ['k'])]
  distinct := ⟨by decide +kernel,by simp [Value.Distinct,Value.DistinctMembers,Value.DistinctItems,inner,listed]⟩

def resent : Arguments Nat where
  map := [(ARGUMENT,.string ['r']),(['a'],listed),(['b'],turned)]
  distinct := ⟨by decide +kernel,by simp [Value.Distinct,Value.DistinctMembers,Value.DistinctItems,turned,listed]⟩

theorem a_resent_call_reads_the_same : canonicalArguments plainPrinter asked = canonicalArguments plainPrinter resent := by
  refine (canonical_text_names_the_call plainPrinter_lawful asked resent).mpr ?_
  have first : kept asked.map = [(['b'],inner),(['a'],listed)] := by
    rw [asked,kept_cons (by decide +kernel) (by decide +kernel),kept_cons (by decide +kernel) (by decide +kernel),
      kept_taken (Or.inr rfl)]
    rfl
  have second : kept resent.map = [(['a'],listed),(['b'],turned)] := by
    rw [resent,kept_taken (Or.inl rfl),kept_cons (by decide +kernel) (by decide +kernel),
      kept_cons (by decide +kernel) (by decide +kernel)]
    rfl
  have nested : inner.Same turned :=
    ⟨fun key => by simp [or_comm],⟨.number 2,by simp,rfl⟩,⟨.null,by simp,trivial⟩,trivial⟩
  have same : listed.Same listed := ⟨⟨fun key => Iff.rfl,trivial⟩,rfl,trivial⟩
  rw [first,second]
  exact ⟨fun key => by simp [or_comm],⟨turned,by simp,nested⟩,⟨listed,by simp,same⟩,trivial⟩

end Requests
