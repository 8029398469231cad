import Jojobot.Requests.Canonical

namespace Requests
open Library Std

variable {ν : Type} {print : Printer ν}

theorem forall₂_found {α β : Type} {R : α → β → Prop} {xs : List α} {ys : List β} (alike : List.Forall₂ R xs ys) {x : α}
    (mem : x ∈ xs) : ∃ y ∈ ys, R x y := by
  induction alike with
  | nil => cases mem
  | cons first _ ih =>
    rcases List.mem_cons.mp mem with rfl | later
    · exact ⟨_,List.mem_cons_self,first⟩
    · obtain ⟨y,there,related⟩ := ih later
      exact ⟨y,List.mem_cons_of_mem _ there,related⟩

namespace Value

theorem every {P : Value ν → Prop} (null : P null) (bool : ∀ value, P (.bool value)) (number : ∀ value, P (.number value))
    (string : ∀ text, P (.string text)) (array : ∀ items, (∀ item ∈ items, P item) → P (.array items))
    (object : ∀ map, (∀ entry ∈ map, P entry.2) → P (.object map)) (value : Value ν) : P value := by
  refine @Value.rec ν P (fun items => ∀ item ∈ items, P item) (fun map => ∀ entry ∈ map, P entry.2) (fun entry => P entry.2)
    null bool number string array object ?_ ?_ ?_ ?_ ?_ value
  · intro item member
    cases member
  · intro item items first rest
    exact List.forall_mem_cons.mpr ⟨first,rest⟩
  · intro entry member
    cases member
  · intro entry map first rest
    exact List.forall_mem_cons.mpr ⟨first,rest⟩
  · intro key value inner
    exact inner

theorem distinctItems_iff {items : List (Value ν)} : DistinctItems items ↔ ∀ item ∈ items, item.Distinct := by
  induction items with
  | nil => simp [DistinctItems]
  | cons item items ih => simp [DistinctItems,ih]

theorem distinctMembers_iff {map : List (Text × Value ν)} : DistinctMembers map ↔ ∀ entry ∈ map, entry.2.Distinct := by
  induction map with
  | nil => simp [DistinctMembers]
  | cons entry map ih =>
    obtain ⟨key,value⟩ := entry
    rw [DistinctMembers,ih,List.forall_mem_cons]

theorem sameItems_iff {items others : List (Value ν)} : SameItems items others ↔ List.Forall₂ Same items others := by
  induction items generalizing others with
  | nil => cases others <;> simp [SameItems]
  | cons item items ih => cases others <;> simp [SameItems,ih]

theorem sameMembers_iff {map other : List (Text × Value ν)} :
    SameMembers map other ↔ ∀ entry ∈ map, ∃ found, (entry.1,found) ∈ other ∧ Same entry.2 found := by
  induction map with
  | nil => simp [SameMembers]
  | cons entry map ih =>
    obtain ⟨key,value⟩ := entry
    rw [SameMembers,ih,List.forall_mem_cons]

end Value
open Value

theorem writeItems_eq (items : List (Value ν)) : writeItems print items = items.map (writeCanonical print) := by
  induction items with
  | nil => rfl
  | cons item items ih => rw [writeItems,ih,List.map_cons]

def written (print : Printer ν) (entry : Text × Value ν) : Text × Text := (entry.1,writeCanonical print entry.2)

theorem writeMembers_eq (map : List (Text × Value ν)) : writeMembers print map = map.map (written print) := by
  induction map with
  | nil => rfl
  | cons entry map ih =>
    obtain ⟨key,value⟩ := entry
    rw [writeMembers,ih,List.map_cons,written]

theorem writeMembers_sorted (map : List (Text × Value ν)) :
    (sortBy (compareOn Prod.fst) (writeMembers print map)).map (member print) =
      (sortBy (compareOn Prod.fst) map).map fun entry => member print (written print entry) := by
  have moved : sortBy (compareOn Prod.fst) (map.map (written print)) = (sortBy (compareOn Prod.fst) map).map (written print) :=
    sortBy_map (written print) (fun a _ b _ => rfl)
  rw [writeMembers_eq,moved,List.map_map]
  rfl

-- The marks that end a value in a nested writing.
def stops (c : Char) : Bool := c = ',' || c = ']' || c = '}'

theorem Escaped.read_back {body other rest behind : Text} (escaped : Escaped body) (also : Escaped other)
    (same : body++ '"'::rest = other++ '"'::behind) : body = other ∧ rest = behind := by
  induction escaped generalizing other with
  | nil =>
    cases also with
    | nil => simpa using same
    | plain quote _ _ => exact (quote (by simpa using (congrArg List.head? same).symm)).elim
    | escape _ => exact absurd (congrArg List.head? same) (by simp)
  | plain quote backslash _ ih =>
    cases also with
    | nil => exact (quote (by simpa using congrArg List.head? same)).elim
    | plain _ _ more =>
      simp only [List.cons_append,List.cons.injEq] at same
      obtain ⟨rfl,later⟩ := same
      obtain ⟨rfl,ends⟩ := ih more later
      exact ⟨rfl,ends⟩
    | escape _ => exact (backslash (by simpa using congrArg List.head? same)).elim
  | escape _ ih =>
    cases also with
    | nil => exact absurd (congrArg List.head? same) (by simp)
    | plain _ backslash _ => exact (backslash (by simpa using (congrArg List.head? same).symm)).elim
    | escape more =>
      simp only [List.cons_append,List.cons.injEq,true_and] at same
      obtain ⟨rfl,later⟩ := same
      obtain ⟨rfl,ends⟩ := ih more later
      exact ⟨rfl,ends⟩

theorem stops_not_numeric {c : Char} (stop : stops c = true) : isNumeric c = false := by
  simp only [stops,Bool.or_eq_true,decide_eq_true_eq] at stop
  rcases stop with (rfl | rfl) | rfl <;> rfl

-- The shape a value's text begins with: every number begins alike.
def Value.kind : Value ν → Char
  | .null => 'n'
  | .bool value => if value then 't' else 'f'
  | .number _ => '0'
  | .string _ => '"'
  | .array _ => '['
  | .object _ => '{'

def kindOf (c : Char) : Char := if isNumeric c then '0' else c

-- Members in the same places of both sorted objects are the members of the objects.
theorem same_members {map other : List (Text × Value ν)}
    (alike : List.Forall₂ (fun one other => one.1 = other.1 ∧ Value.Same one.2 other.2)
      (sortBy (compareOn Prod.fst) map) (sortBy (compareOn Prod.fst) other)) : Value.Same (.object map) (.object other) := by
  refine ⟨?_,Value.sameMembers_iff.mpr ?_⟩
  · intro key
    have keys : (sortBy (compareOn Prod.fst) map).map Prod.fst = (sortBy (compareOn Prod.fst) other).map Prod.fst := by
      rw [← List.forall₂_eq_eq_eq,List.forall₂_map_left_iff,List.forall₂_map_right_iff]
      exact alike.imp fun _ _ both => both.1
    have one := ((sortBy_perm (compareOn Prod.fst) map).map Prod.fst).mem_iff (a := key)
    have two := ((sortBy_perm (compareOn Prod.fst) other).map Prod.fst).mem_iff (a := key)
    rw [← one,← two,keys]
  · intro entry mem
    obtain ⟨found,there,key,value⟩ := forall₂_found alike (mem_sortBy.mpr mem)
    exact ⟨found.2,by rw [key]; exact mem_sortBy.mp there,value⟩

namespace Printer.Lawful
variable (lawful : print.Lawful)
include lawful

theorem string_read_back {s t rest behind : Text} (same : print.string s++rest = print.string t++behind) :
    s = t ∧ rest = behind := by
  obtain ⟨body,one,escaped⟩ := lawful.quoted s
  obtain ⟨other,two,also⟩ := lawful.quoted t
  have bodies := same
  rw [one,two] at bodies
  simp only [List.cons_append,List.append_assoc,List.nil_append,List.cons.injEq,true_and] at bodies
  obtain ⟨rfl,ends⟩ := escaped.read_back also bodies
  exact ⟨lawful.string_injective s t (one.trans two.symm),ends⟩

theorem number_read_back {n m : ν} {rest behind : Text} (stop : Stopped stops rest) (stop' : Stopped stops behind)
    (same : print.number n++rest = print.number m++behind) : n = m ∧ rest = behind := by
  have past : ∀ n rest, Stopped stops rest → (print.number n++rest).takeWhile isNumeric = print.number n := by
    intro n rest stop
    have none : rest.takeWhile isNumeric = [] := by
      cases rest with
      | nil => rfl
      | cons c rest =>
        have mark := stop c rfl
        simp only [stops,Bool.or_eq_true,decide_eq_true_eq] at mark
        rcases mark with (rfl | rfl) | rfl <;> rfl
    rw [List.takeWhile_append_of_pos (lawful.numeric n).2,none,List.append_nil]
  have texts : print.number n = print.number m := by
    rw [← past n rest stop,same,past m behind stop']
  rw [texts] at same
  exact ⟨lawful.number_injective n m texts,List.append_cancel_left same⟩

-- What a value's text begins with gives its shape away.
theorem opening (value : Value ν) :
    ∃ c text, writeCanonical print value = c::text ∧ kindOf c = value.kind ∧ stops c = false := by
  cases value with
  | null => exact ⟨'n',_,rfl,rfl,rfl⟩
  | bool value =>
    cases value with
    | false => exact ⟨'f',_,rfl,rfl,rfl⟩
    | true => exact ⟨'t',_,rfl,rfl,rfl⟩
  | array items => exact ⟨'[',_,rfl,rfl,rfl⟩
  | object map => exact ⟨'{',_,rfl,rfl,rfl⟩
  | string text =>
    obtain ⟨body,one,_⟩ := lawful.quoted text
    exact ⟨'"',_,by rw [writeCanonical,one]; rfl,rfl,rfl⟩
  | number value =>
    obtain ⟨written,numeric⟩ := lawful.numeric value
    obtain ⟨c,text,shape⟩ := List.exists_cons_of_ne_nil written
    have mark := numeric c (by simp [shape])
    refine ⟨c,text,by rw [writeCanonical,shape],by simp [kindOf,mark,Value.kind],?_⟩
    by_contra stop
    have not := stops_not_numeric (Bool.eq_true_of_not_eq_false stop)
    rw [mark] at not
    cases not

theorem opens (value : Value ν) : ∃ c text, writeCanonical print value = c::text ∧ stops c = false := by
  obtain ⟨c,text,shape,_,free⟩ := lawful.opening value
  exact ⟨c,text,shape,free⟩

theorem member_opens (entry : Text × Value ν) : ∃ c text, member print (written print entry) = c::text ∧ stops c = false := by
  obtain ⟨body,quoted,_⟩ := lawful.quoted entry.1
  exact ⟨'"',_,by rw [member,written,quoted]; rfl,rfl⟩

theorem member_read_back (entry : Text × Value ν) (inner : Unmistaken Value.Same stops (writeCanonical print) entry.2) :
    Unmistaken (fun one other => one.1 = other.1 ∧ Value.Same one.2 other.2) stops (fun entry => member print (written print entry)) entry := by
  intro other rest behind stop stop' same
  simp only [member,written,List.append_assoc,List.cons_append] at same
  obtain ⟨key,later⟩ := lawful.string_read_back same
  obtain ⟨value,ends⟩ := inner other.2 rest behind stop stop' (List.cons.inj later).2
  exact ⟨⟨key,value⟩,ends⟩

theorem same_kind {v w : Value ν} {rest behind : Text} (same : writeCanonical print v++rest = writeCanonical print w++behind) :
    v.kind = w.kind := by
  obtain ⟨c,text,one,kind,_⟩ := lawful.opening v
  obtain ⟨d,other,two,kind',_⟩ := lawful.opening w
  rw [one,two] at same
  obtain rfl : c = d := (List.cons.inj same).1
  exact kind.symm.trans kind'

-- A text that two values' begin with is of values alike, and both end where it does.
theorem read_back (value : Value ν) : Unmistaken Value.Same stops (writeCanonical print) value := by
  induction value using Value.every with
  | null =>
    intro w rest behind _ _ same
    cases w with
    | null => exact ⟨trivial,List.append_cancel_left same⟩
    | bool other => cases other <;> cases lawful.same_kind same
    | _ => cases lawful.same_kind same
  | bool value =>
    intro w rest behind _ _ same
    have kind := lawful.same_kind same
    cases w with
    | bool other =>
      cases value <;> cases other
      · exact ⟨rfl,List.append_cancel_left same⟩
      · cases kind
      · cases kind
      · exact ⟨rfl,List.append_cancel_left same⟩
    | _ => cases value <;> cases kind
  | number value =>
    intro w rest behind stop stop' same
    cases w with
    | number other => exact lawful.number_read_back stop stop' same
    | bool other => cases other <;> cases lawful.same_kind same
    | _ => cases lawful.same_kind same
  | string text =>
    intro w rest behind _ _ same
    cases w with
    | string other => exact lawful.string_read_back same
    | bool other => cases other <;> cases lawful.same_kind same
    | _ => cases lawful.same_kind same
  | array items ih =>
    intro w rest behind _ _ same
    cases w with
    | array others =>
      simp only [writeCanonical,writeItems_eq,List.cons_append,List.append_assoc,List.nil_append,List.cons.injEq,true_and] at same
      obtain ⟨alike,ends⟩ := joined_inj rfl rfl (by decide) lawful.opens items others ih same
      exact ⟨Value.sameItems_iff.mpr alike,ends⟩
    | bool other => cases other <;> cases lawful.same_kind same
    | _ => cases lawful.same_kind same
  | object map ih =>
    intro w rest behind _ _ same
    cases w with
    | object other =>
      simp only [writeCanonical,writeMembers_sorted,List.cons_append,List.append_assoc,List.nil_append,List.cons.injEq,true_and] at same
      obtain ⟨alike,ends⟩ := joined_inj (R := fun one other => one.1 = other.1 ∧ Value.Same one.2 other.2) rfl rfl (by decide)
        lawful.member_opens (sortBy (compareOn Prod.fst) map) (sortBy (compareOn Prod.fst) other)
        (fun entry mem => lawful.member_read_back entry (ih entry (mem_sortBy.mp mem))) same
      exact ⟨same_members alike,ends⟩
    | bool other => cases other <;> cases lawful.same_kind same
    | _ => cases lawful.same_kind same

end Printer.Lawful

end Requests
