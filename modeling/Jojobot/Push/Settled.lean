import Mathlib.Algebra.Order.BigOperators.Group.List
import Jojobot.Push.Runs

namespace Pushing
open Library Std Memory Mailbox

-- A pass at the moment the one before it reported as next due.
def advance (latest : Timestamp) (policy : Policy) (answers : Answers) : Outbox × Option Timestamp → Outbox × Option Timestamp
  | (outbox,none) => (outbox,none)
  | (outbox,some at') =>
    let pass := drain latest policy answers outbox at'
    (pass.1,pass.2.bind (·.nextDue))

def chase (latest : Timestamp) (policy : Policy) (answers : Nat → Answers) (start : Outbox × Option Timestamp) :
    Nat → Outbox × Option Timestamp
  | 0 => start
  | pass+1 => advance latest policy (answers pass) (chase latest policy answers start pass)

-- The time a row may still be tried in.
def Row.left (latest : Timestamp) (policy : Policy) (row : Row) : Nat :=
  if row.standing = .pending then (deadline latest policy row.toPush-row.nextAttemptAt).toNat+1 else 0

variable {latest now at' : Timestamp} {policy : Policy} {answers : Answers} {outbox before after : Outbox} {row next : Row}

theorem delay_positive (first : 0 < policy.firstDelay) (longest : 0 < policy.longestDelay) (attempts : Nat) :
    0 < policy.delayAfter attempts := by
  unfold Policy.delayAfter
  apply Nat.lt_min.mpr
  refine ⟨Nat.mul_pos first (Nat.lt_min.mpr ⟨Nat.two_pow_pos _,by decide⟩),longest⟩

theorem nextDue_least (found : nextDue outbox = some at') :
    (∃ row ∈ outbox, row.dueAt at' = true) ∧ ∀ row ∈ outbox, row.standing = .pending → at' ≤ row.nextAttemptAt := by
  unfold nextDue at found
  obtain ⟨member,least⟩ := List.min?_eq_some_iff.mp found
  refine ⟨?_,?_⟩
  · obtain ⟨row,pending,same⟩ := List.mem_map.mp member
    obtain ⟨has,isPending⟩ := List.mem_filter.mp pending
    exact ⟨row,has,dueAt_iff.mpr ⟨of_decide_eq_true isPending,Int.le_of_eq same⟩⟩
  · intro row has pending
    exact least _ (List.mem_map.mpr ⟨row,List.mem_filter.mpr ⟨has,decide_eq_true pending⟩,rfl⟩)

theorem nextDue_none (nothing : nextDue outbox = none) : ∀ row ∈ outbox, row.standing ≠ .pending := by
  intro row has pending
  unfold nextDue at nothing
  have member : row.nextAttemptAt ∈ (outbox.filter (·.standing = .pending)).map (·.nextAttemptAt) :=
    List.mem_map.mpr ⟨row,List.mem_filter.mpr ⟨has,decide_eq_true pending⟩,rfl⟩
  rw [List.min?_eq_none_iff.mp nothing] at member
  cases member

theorem waited_less {limit earlier later : Int} (forward : earlier < later) (before : earlier < limit) :
    (limit-later).toNat < (limit-earlier).toNat := by omega

-- A due row of a pass that is recorded has less time left.
theorem Fate.left (delays : ∀ attempts, 0 < policy.delayAfter attempts) (fate : Fate latest policy answers now row next) :
    next.left latest policy ≤ row.left latest policy ∧
      (row.dueAt now = true → answers.record row.message ≠ .lost → next.left latest policy < row.left latest policy) := by
  cases fate with
  | unchanged still =>
    refine ⟨Nat.le_refl _,fun isDue recorded => ?_⟩
    rcases still with notDue | lost
    · exact absurd isDue (Bool.eq_false_iff.mp notDue)
    · exact absurd lost recorded
  | @ended standing isDue over' =>
    have none' : ({ row with standing := standing } : Row).left latest policy = 0 := if_neg over'
    have some' : row.left latest policy = (Pushing.deadline latest policy row.toPush-row.nextAttemptAt).toNat+1 := if_pos (dueAt_iff.mp isDue).1
    rw [none',some']
    exact ⟨Nat.zero_le _,fun _ _ => Nat.succ_pos _⟩
  | again isDue before =>
    obtain ⟨pending,arrived⟩ := dueAt_iff.mp isDue
    have was : row.left latest policy = (Pushing.deadline latest policy row.toPush-row.nextAttemptAt).toNat+1 := if_pos pending
    have delay := delays (row.attempts+1)
    have still : ({ row with
        attempts := storedAttempts (row.attempts+1)
        nextAttemptAt := min (now+policy.delayAfter (row.attempts+1)) (Pushing.deadline latest policy row.toPush) } : Row).left latest policy =
        (Pushing.deadline latest policy row.toPush-min (now+policy.delayAfter (row.attempts+1)) (Pushing.deadline latest policy row.toPush)).toNat+1 :=
      if_pos pending
    have less : (Pushing.deadline latest policy row.toPush-min (now+policy.delayAfter (row.attempts+1))
        (Pushing.deadline latest policy row.toPush)).toNat < (Pushing.deadline latest policy row.toPush-row.nextAttemptAt).toNat := by
      have later : now < min (now+(policy.delayAfter (row.attempts+1) : Int)) (Pushing.deadline latest policy row.toPush) :=
        lt_min_iff.mpr ⟨Int.lt_add_of_pos_right now (Int.natCast_pos.mpr delay),before⟩
      exact waited_less (Int.lt_of_le_of_lt arrived later) (Int.lt_of_le_of_lt arrived before)
    rw [was,still]
    exact ⟨Nat.succ_le_succ (Nat.le_of_lt less),fun _ _ => Nat.succ_lt_succ less⟩

-- A report of the rows still to be settled.
def Reports (pass : Outbox × Option Timestamp) : Prop := pass.2 = nextDue pass.1

theorem drain_reports (listed : answers.dueAnswers = true) (reported : answers.nextDueAnswers = true) (outbox : Outbox) (now : Timestamp) :
    Reports (advance latest policy answers (outbox,some now)) := by
  unfold Reports advance drain
  dsimp only
  rw [if_pos listed,if_pos reported]
  rfl

theorem advance_timely {pass : Outbox × Option Timestamp} (timely : Timely latest policy pass.1) :
    Timely latest policy (advance latest policy answers pass).1 := by
  obtain ⟨outbox,moment⟩ := pass
  cases moment with
  | none => exact timely
  | some at' => exact timely.drained answers at'

theorem advance_reports {pass : Outbox × Option Timestamp} (listed : answers.dueAnswers = true) (answered : answers.nextDueAnswers = true)
    (reports : Reports pass) : Reports (advance latest policy answers pass) := by
  obtain ⟨outbox,moment⟩ := pass
  cases moment with
  | none => exact reports
  | some at' => exact drain_reports listed answered outbox at'

def left (latest : Timestamp) (policy : Policy) (outbox : Outbox) : Nat := (outbox.map (Row.left latest policy)).sum

-- A pass at the moment reported has a row to settle, and leaves less time.
theorem advance_left (delays : ∀ attempts, 0 < policy.delayAfter attempts) (listed : answers.dueAnswers = true)
    (recorded : ∀ message, answers.record message ≠ .lost) (timely : Timely latest policy outbox) (moment : nextDue outbox = some at') :
    left latest policy (advance latest policy answers (outbox,some at')).1 < left latest policy outbox := by
  obtain ⟨⟨row,has,isDue⟩,_⟩ := nextDue_least moment
  unfold left advance
  rw [drain_rows timely.apart listed,List.map_map]
  apply List.sum_lt_sum
  · intro row _
    exact ((settled_fate latest policy answers at' row).left delays).1
  · exact ⟨row,has,((settled_fate latest policy answers at' row).left delays).2 isDue (recorded _)⟩

section
variable {every : Nat → Answers} {start : Outbox × Option Timestamp}

theorem chase_timely (timely : Timely latest policy start.1) (pass : Nat) : Timely latest policy (chase latest policy every start pass).1 := by
  induction pass with
  | zero => exact timely
  | succ pass ih => exact advance_timely ih

theorem chase_reports (listed : ∀ pass, (every pass).dueAnswers = true ∧ (every pass).nextDueAnswers = true)
    (first : ∃ moment, start.2 = some moment) (pass : Nat) : Reports (chase latest policy every start (pass+1)) := by
  induction pass with
  | zero =>
    obtain ⟨moment,is⟩ := first
    obtain ⟨outbox,first⟩ := start
    subst is
    exact drain_reports (listed 0).1 (listed 0).2 outbox moment
  | succ pass ih => exact advance_reports (listed _).1 (listed _).2 ih

-- Each pass after the first leaves less time, while there is a row to settle.
theorem chase_left (delays : ∀ attempts, 0 < policy.delayAfter attempts) (timely : Timely latest policy start.1)
    (listed : ∀ pass, (every pass).dueAnswers = true ∧ (every pass).nextDueAnswers = true)
    (recorded : ∀ pass message, (every pass).record message ≠ .lost) (first : ∃ moment, start.2 = some moment) (passes : Nat) :
    (∃ pass ≤ passes, (chase latest policy every start (pass+1)).2 = none) ∨
      left latest policy (chase latest policy every start (passes+1)).1+passes ≤ left latest policy (chase latest policy every start 1).1 := by
  induction passes with
  | zero => exact Or.inr (Nat.le_refl _)
  | succ passes ih =>
    rcases ih with ended | less
    · obtain ⟨pass,early,ended⟩ := ended
      exact Or.inl ⟨pass,Nat.le_succ_of_le early,ended⟩
    · have reports := @chase_reports latest policy every start listed first passes
      have timely := @chase_timely latest policy every start timely (passes+1)
      cases moment : (chase latest policy every start (passes+1)).2 with
      | none => exact Or.inl ⟨passes,Nat.le_succ passes,moment⟩
      | some at' =>
        right
        have earlier : chase latest policy every start (passes+1) = ((chase latest policy every start (passes+1)).1,some at') :=
          Prod.ext rfl moment
        have further := advance_left delays (listed (passes+1)).1 (recorded (passes+1)) timely (reports.symm.trans moment)
        rw [← earlier] at further
        change left latest policy (chase latest policy every start (passes+1+1)).1 < _ at further
        omega

-- Followed as reported, the passes come to an end with no row pending.
theorem chase_ends (delays : ∀ attempts, 0 < policy.delayAfter attempts) (timely : Timely latest policy start.1)
    (listed : ∀ pass, (every pass).dueAnswers = true ∧ (every pass).nextDueAnswers = true)
    (recorded : ∀ pass message, (every pass).record message ≠ .lost) (first : ∃ moment, start.2 = some moment) :
    ∃ passes, (chase latest policy every start passes).2 = none ∧
      ∀ row ∈ (chase latest policy every start passes).1, row.standing ≠ .pending := by
  have far := chase_left delays timely listed recorded first (left latest policy (chase latest policy every start 1).1+1)
  rcases far with ended | less
  · obtain ⟨pass,_,ended⟩ := ended
    exact ⟨pass+1,ended,nextDue_none ((chase_reports listed first pass).symm.trans ended)⟩
  · omega

-- No pass that follows a report comes later than a pending row's deadline.
theorem chase_within (timely : Timely latest policy start.1)
    (listed : ∀ pass, (every pass).dueAnswers = true ∧ (every pass).nextDueAnswers = true) (first : ∃ moment, start.2 = some moment)
    (pass : Nat) (moment : (chase latest policy every start (pass+1)).2 = some at') :
    ∀ row ∈ (chase latest policy every start (pass+1)).1, row.standing = .pending → at' ≤ deadline latest policy row.toPush := by
  intro row has pending
  have least := (nextDue_least ((chase_reports listed first pass).symm.trans moment)).2 row has pending
  exact Int.le_trans least ((chase_timely timely (pass+1)).within row has pending)

end

end Pushing
