import Jojobot.Library.ByKey
import Jojobot.Memory.Folds
import Jojobot.Memory.Writes

namespace Memory
open Library Std

-- The standard float, as far as a counter's total reads and prints one.
class Floats where
  F64 : Type
  ofWhole : Int → F64
  add : F64 → F64 → F64
  parseFloat : Text → Option F64
  printFloat : F64 → Text

-- Whole numbers: enough of a float to run a test on.
@[reducible] def wholeFloats : Floats where
  F64 := Int
  ofWhole n := n
  add a b := a+b
  parseFloat _ := none
  printFloat := printInt

variable [Floats]

-- A counter's running total. Its whole numbers are 128 bits wide in the source, which no
-- count of 64-bit numbers that fits a store runs past.
inductive Total where
  | empty
  | whole (running : Int)
  | fractional (running : Floats.F64)

def Total.plus (total : Total) (value : Text) : Option Total :=
  let value := trim value
  let held : Total := match total with
    | .empty => .whole 0
    | held => held
  match held,parseSigned 64 value with
  | .whole running,some added => some (.whole (running+added))
  | held,_ =>
    let running := match held with
      | .fractional running => running
      | .whole running => Floats.ofWhole running
      | .empty => Floats.ofWhole 0
    (Floats.parseFloat value).map fun added => .fractional (Floats.add running added)

def Total.render : Total → Text
  | .empty => "0".toList
  | .whole running => printInt running
  | .fractional running => Floats.printFloat running

-- A view's declaration keys, on which a blank is a stored blank.
def VIEW_DECLARATION_KEYS : List Text :=
  ["selects".toList,"answers_type".toList,"follow_shape".toList,"follow_relation".toList,"follow_direction".toList,
    "follow_fits_type".toList]

def holdsAList (key : Text) (declared : List FoldType) : Bool := declared.any fun d => (d.field key).any (·.list)

def holdsAValue (value : Text) : Bool := trim value ≠ []

-- Whether a value counts as one under its key, or takes the key off as a blank does.
def counts (declared : List FoldType) (key value : Text) : Bool :=
  holdsAValue value || VIEW_DECLARATION_KEYS.contains (trim key) || holdsAList key declared

def heldValue (write : KeyWrite) (declared : List FoldType) : Option Text :=
  write.value.filter (counts declared write.key)

-- The rows of the fold: each key's value, the moment of the write holding it, and a
-- counter's total.
structure FoldState where
  folded : Fields := {}
  moments : ExtTreeMap Text (Option Timestamp) := {}
  totals : ExtTreeMap Text Total := {}

def FoldState.drop (state : FoldState) (key : Text) : FoldState :=
  ⟨state.folded.erase key,state.moments.erase key,state.totals.erase key⟩

def FoldState.put (state : FoldState) (write : KeyWrite) (value : Text) : FoldState :=
  { state with
    folded := state.folded.insert write.key value
    moments := state.moments.insert write.key write.writtenAt }

def foldStep (declared : List FoldType) (state : FoldState) (write : KeyWrite) : FoldState :=
  match heldValue write declared with
  | none => state.drop write.key
  | some value =>
    match foldOf write.key declared with
    | .newest => state.put write value
    | .describes => state
    | .sum =>
      match ((state.totals[write.key]?).getD .empty).plus value with
      | some total => { state.put write total.render with totals := state.totals.insert write.key total }
      | none => if state.folded.contains write.key then state else state.put write value

def byKeyAndOrdinal : KeyWrite → KeyWrite → Ordering :=
  compareLex (compareOn KeyWrite.key) (compareOn KeyWrite.ordinal)

instance byKeyAndOrdinal_trans : TransCmp byKeyAndOrdinal :=
  inferInstanceAs (TransCmp (compareLex (compareOn KeyWrite.key) (compareOn KeyWrite.ordinal)))

def standingWrites (writes : List KeyWrite) : List KeyWrite :=
  sortBy byKeyAndOrdinal (writes.filter fun write => write.status = .active && !reservedKey write.key)

def fold (writes : List KeyWrite) (declared : List FoldType) : FoldState :=
  (standingWrites writes).foldl (foldStep declared) {}

-- A thing's fields: the writes of its active records folded key by key.
def foldedFields (writes : List KeyWrite) (declared : List FoldType) : Fields := (fold writes declared).folded

-- What the fold holds of one key.
structure Cell where
  value : Option Text := none
  total : Total := .empty

def FoldState.cell (state : FoldState) (key : Text) : Cell := ⟨state.folded[key]?,(state.totals[key]?).getD .empty⟩

-- What one write of the key makes of it.
def Cell.lay (declared : List FoldType) (key : Text) (cell : Cell) (sent : Option Text) : Cell :=
  match sent.filter (counts declared key) with
  | none => {}
  | some value =>
    match foldOf key declared with
    | .newest => { cell with value := some value }
    | .describes => cell
    | .sum =>
      match cell.total.plus value with
      | some total => ⟨some total.render,total⟩
      | none => { cell with value := cell.value.or (some value) }

theorem foldStep_other {state : FoldState} {write : KeyWrite} {key : Text} (declared : List FoldType) (other : write.key ≠ key) :
    (foldStep declared state write).cell key = state.cell key := by
  unfold foldStep FoldState.cell
  split
  · simp [FoldState.drop,ExtTreeMap.getElem?_erase,other]
  · split
    · simp [FoldState.put,ExtTreeMap.getElem?_insert,other]
    · rfl
    · split
      · simp [FoldState.put,ExtTreeMap.getElem?_insert,other]
      · split
        · rfl
        · simp [FoldState.put,ExtTreeMap.getElem?_insert,other]

theorem foldStep_same (declared : List FoldType) (state : FoldState) (write : KeyWrite) :
    (foldStep declared state write).cell write.key = (state.cell write.key).lay declared write.key write.value := by
  unfold foldStep Cell.lay FoldState.cell heldValue
  cases write.value.filter (counts declared write.key) with
  | none => simp [FoldState.drop]
  | some value =>
    dsimp only
    cases foldOf write.key declared with
    | newest => simp [FoldState.put]
    | describes => rfl
    | sum =>
      dsimp only
      cases ((state.totals[write.key]?).getD .empty).plus value with
      | some total => simp [FoldState.put]
      | none =>
        dsimp only
        cases held : state.folded[write.key]? with
        | none =>
          rw [if_neg (by rw [←ExtTreeMap.isSome_getElem?_eq_contains,held]; simp)]
          simp [FoldState.put]
        | some old =>
          rw [if_pos (by rw [←ExtTreeMap.isSome_getElem?_eq_contains,held]; rfl)]
          simp [held]

-- Each key is folded on its own, over its own writes in their order.
theorem foldl_cell (declared : List FoldType) (key : Text) (writes : List KeyWrite) (state : FoldState) :
    (writes.foldl (foldStep declared) state).cell key =
      ((writes.filter (·.key = key)).map (·.value)).foldl (Cell.lay declared key) (state.cell key) := by
  rw [List.foldl_map]
  refine @foldl_by_key KeyWrite FoldState Text Cell _ KeyWrite.key (foldStep declared) (·.cell key)
    (fun cell write => cell.lay declared key write.value) key ?_ ?_ writes state
  · intro state write other
    exact foldStep_other declared other
  · intro state write same
    subst same
    exact foldStep_same declared state write

-- The values sent for a key by the writes that stand, oldest first.
def sentFor (key : Text) (writes : List KeyWrite) : List (Option Text) :=
  (sortBy byKeyAndOrdinal ((writes.filter fun write => write.status = .active && !reservedKey write.key).filter
    (·.key = key))).map (·.value)

def cellOf (declared : List FoldType) (key : Text) (writes : List KeyWrite) : Cell :=
  (sentFor key writes).foldl (Cell.lay declared key) {}

theorem fold_cell (declared : List FoldType) (key : Text) (writes : List KeyWrite) :
    (fold writes declared).cell key = cellOf declared key writes := by
  unfold fold cellOf sentFor standingWrites
  rw [foldl_cell,sortBy_filter]
  simp [FoldState.cell]

theorem foldedFields_key (declared : List FoldType) (key : Text) (writes : List KeyWrite) :
    (foldedFields writes declared)[key]? = (cellOf declared key writes).value := by
  rw [←fold_cell]
  rfl

-- A write that comes in last lays its value on what its key held, and nothing else moves.
theorem cellOf_concat {writes : List KeyWrite} {write : KeyWrite} (declared : List FoldType) (key : Text)
    (newest : ∀ other ∈ writes, other.key = write.key → other.ordinal ≤ write.ordinal) :
    cellOf declared key (writes ++ [write]) =
      if write.key = key ∧ write.status = .active ∧ reservedKey key = false then
        (cellOf declared key writes).lay declared key write.value
      else cellOf declared key writes := by
  unfold cellOf sentFor
  rw [List.filter_append,List.filter_append]
  split
  · rename_i counted
    obtain ⟨same,active,unreserved⟩ := counted
    subst same
    have kept : ([write].filter fun write => write.status = .active && !reservedKey write.key).filter
        (·.key = write.key) = [write] := by
      simp [active,unreserved]
    rw [kept,sortBy_concat,List.map_append,List.foldl_append]
    · rfl
    · intro other member
      have parts := (List.mem_filter.mp member).2
      have same : other.key = write.key := by simpa using parts
      have earlier := newest other (List.mem_filter.mp (List.mem_filter.mp member).1).1 same
      simpa [byKeyAndOrdinal,compareLex,compareOn,same] using Nat.isLE_compare.mpr earlier
  · rename_i uncounted
    have gone : ([write].filter fun write => write.status = .active && !reservedKey write.key).filter
        (·.key = key) = [] := by
      simp only [List.filter_eq_nil_iff,List.mem_filter,List.mem_singleton]
      intro other member same
      obtain ⟨same',counted⟩ := member
      subst same'
      simp only [decide_eq_true_eq] at same
      subst same
      apply uncounted
      simpa using counted
    rw [gone,List.append_nil]

end Memory
