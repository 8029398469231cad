import Jojobot.Library.Text

namespace Library

variable {β : Type} {R : β → β → Prop} {stops : Char → Bool} {write : β → Text} {parting closing : Char} {rest other : Text}

-- Nothing follows, or a mark that no written item begins with.
def Stopped (stops : Char → Bool) (rest : Text) : Prop := ∀ c, rest.head? = some c → stops c = true

-- One item's text, with anything stopped behind it, is that of an item alike and no other.
def Unmistaken (R : β → β → Prop) (stops : Char → Bool) (write : β → Text) (x : β) : Prop :=
  ∀ y rest other, Stopped stops rest → Stopped stops other → write x++rest = write y++other → R x y ∧ rest = other

-- The mark stands before every item but the first.
def joined (parting : Char) : List Text → Text
  | [] => []
  | first::others => first++others.flatMap (parting::·)

theorem Stopped.cons {c : Char} (stop : stops c = true) (rest : Text) : Stopped stops (c::rest) := by
  intro d head
  obtain rfl := Option.some.inj head
  exact stop

theorem followers_stopped (parts : stops parting = true) (closes : stops closing = true) (texts : List Text) (rest : Text) :
    Stopped stops (texts.flatMap (parting::·)++closing::rest) := by
  cases texts with
  | nil => exact Stopped.cons closes rest
  | cons text texts => exact Stopped.cons parts _

-- Items each behind the mark, up to a closing one, are read back in one way.
theorem followers_inj (parts : stops parting = true) (closes : stops closing = true) (differ : parting ≠ closing)
    (xs ys : List β) (unmistaken : ∀ x ∈ xs, Unmistaken R stops write x)
    (same : (xs.map write).flatMap (parting::·)++closing::rest = (ys.map write).flatMap (parting::·)++closing::other) :
    List.Forall₂ R xs ys ∧ rest = other := by
  induction xs generalizing ys with
  | nil =>
    cases ys with
    | nil => exact ⟨.nil,by simpa using same⟩
    | cons y ys => exact (differ (by simpa using (congrArg List.head? same).symm)).elim
  | cons x xs ih =>
    cases ys with
    | nil => exact (differ (by simpa using congrArg List.head? same)).elim
    | cons y ys =>
      simp only [List.map_cons,List.flatMap_cons,List.cons_append,List.append_assoc,List.cons.injEq,true_and] at same
      obtain ⟨first,later⟩ := unmistaken x List.mem_cons_self y _ _
        (followers_stopped parts closes _ _) (followers_stopped parts closes _ _) same
      obtain ⟨others,behind⟩ := ih ys (fun z mem => unmistaken z (List.mem_cons_of_mem x mem)) later
      exact ⟨.cons first others,behind⟩

theorem joined_inj (parts : stops parting = true) (closes : stops closing = true) (differ : parting ≠ closing)
    (opens : ∀ y, ∃ c text, write y = c::text ∧ stops c = false)
    (xs ys : List β) (unmistaken : ∀ x ∈ xs, Unmistaken R stops write x)
    (same : joined parting (xs.map write)++closing::rest = joined parting (ys.map write)++closing::other) :
    List.Forall₂ R xs ys ∧ rest = other := by
  have notClosed : ∀ y behind more, closing::behind ≠ write y++more := by
    intro y behind more same
    obtain ⟨c,text,written,open'⟩ := opens y
    rw [written] at same
    obtain rfl : closing = c := (List.cons.inj same).1
    rw [closes] at open'
    cases open'
  cases xs with
  | nil =>
    cases ys with
    | nil => exact ⟨.nil,by simpa [joined] using same⟩
    | cons y ys =>
      simp only [List.map_nil,List.map_cons,joined,List.nil_append,List.append_assoc] at same
      exact (notClosed y _ _ same).elim
  | cons x xs =>
    cases ys with
    | nil =>
      simp only [List.map_nil,List.map_cons,joined,List.nil_append,List.append_assoc] at same
      exact (notClosed x _ _ same.symm).elim
    | cons y ys =>
      simp only [List.map_cons,joined,List.append_assoc] at same
      obtain ⟨first,later⟩ := unmistaken x List.mem_cons_self y _ _
        (followers_stopped parts closes _ _) (followers_stopped parts closes _ _) same
      obtain ⟨others,behind⟩ := followers_inj parts closes differ xs ys
        (fun z mem => unmistaken z (List.mem_cons_of_mem x mem)) later
      exact ⟨.cons first others,behind⟩

end Library
