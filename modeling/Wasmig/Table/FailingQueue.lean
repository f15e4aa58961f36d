import Mathlib.Algebra.GroupWithZero.Nat
import Wasmig.Table.StateQueue

/-! The state queue when memory runs out.

Every call on the queue may fail to allocate: an enqueue then leaves it alone, a
confirmation may lose entries at its front (a push that throws) or at its back (a copy that
throws). Over a run of calls, whatever the allocations do, no position is handed out twice,
out of order or without having been accepted, and no entry is marked that a confirmation did
not reach (`stateQueue_degrades`); nothing is lost exactly when every confirmation keeps its
entries. -/
namespace Wasmig
open Base

/-- A call on a queue, with what its allocations meet. -/
inductive QueueAttempt where
  | enqueue (alloc : Bool) (fidx offset : UInt32)
  | dequeue
  | confirmPending (allocs : ConfirmAllocs) (fidx offset : UInt32)

namespace QueueAttempt

/-- The queue after the call. -/
def next (queue : StateQueue) : QueueAttempt → StateQueue
  | enqueue alloc fidx offset => (stateQueueEnqueue queue alloc fidx offset).2
  | dequeue => (stateQueueDequeue queue).2
  | confirmPending allocs fidx offset => (stateQueueConfirmPending queue allocs fidx offset).2

def Step (queue : StateQueue) (attempt : QueueAttempt) (queue' : StateQueue) : Prop := queue' = attempt.next queue

/-- The positions whose enqueue returned `true`, in order. -/
def accepted (steps : List (StateQueue × QueueAttempt)) : List (UInt32 × UInt32) :=
  steps.filterMap fun step => match step.2 with
    | enqueue alloc fidx offset =>
      if (stateQueueEnqueue step.1 alloc fidx offset).1 then some (fidx, offset) else none
    | _ => none

/-- The positions that dequeues put out, in order. -/
def handedOut (steps : List (StateQueue × QueueAttempt)) : List (UInt32 × UInt32) :=
  steps.filterMap fun step => match step.2 with
    | dequeue => (stateQueueDequeue step.1).1
    | _ => none

end QueueAttempt

/-! ### What a confirmation leaves -/

/-- The whole queue reaches the temporary one. -/
def ConfirmAllocs.Drains (allocs : ConfirmAllocs) (queue : StateQueue) : Prop :=
  allocs.temp = true ∧ ∀ k, k < queue.length → allocs.push k = true

instance (allocs : ConfirmAllocs) (queue : StateQueue) : Decidable (allocs.Drains queue) :=
  inferInstanceAs (Decidable (_ ∧ _))

/-- No entry is lost: none was moved, or all were and came back. -/
def ConfirmAllocs.Keeps (allocs : ConfirmAllocs) (queue : StateQueue) : Prop :=
  allocs.temp = false ∨ queue = [] ∨ allocs.Drains queue ∧ ∀ n, allocs.copy = some n → queue.length ≤ n

/-- After a push that throws what is left are the last entries, with no new mark. -/
theorem confirmPending_undrained {queue : StateQueue} {allocs : ConfirmAllocs} (fidx offset : UInt32)
    (h : ¬ allocs.Drains queue) :
    ∃ n, (stateQueueConfirmPending queue allocs fidx offset).2 = queue.drop n ∧
      (n = 0 ↔ allocs.temp = false) := by
  unfold stateQueueConfirmPending
  by_cases htemp : allocs.temp = false
  · rw [if_pos htemp]
    exact ⟨0, rfl, iff_of_true rfl htemp⟩
  · rw [if_neg htemp]
    have hpush : ∃ j < queue.length, allocs.push (0 + j) = false := by
      apply Classical.byContradiction
      intro hnone
      exact h ⟨by simpa using htemp, by simpa using hnone⟩
    obtain ⟨j, -, heq⟩ := drain_thrown fidx offset 0 queue [] false hpush
    rw [heq]
    exact ⟨j + 1, rfl, iff_of_false (Nat.succ_ne_zero j) htemp⟩

/-- Once the queue has been drained what is left are the first entries, with their marks. -/
theorem confirmPending_drained {queue : StateQueue} {allocs : ConfirmAllocs} (fidx offset : UInt32)
    (h : allocs.Drains queue) :
    ∃ n, (stateQueueConfirmPending queue allocs fidx offset).2 =
        (queue.map (StateQueueEntry.confirm (fidx, offset))).take n ∧
      (queue.length ≤ n ↔ ∀ n, allocs.copy = some n → queue.length ≤ n) := by
  obtain ⟨htemp, hpush⟩ := h
  unfold stateQueueConfirmPending
  rw [if_neg (by simp [htemp]), drain_eq fidx offset 0 queue [] false (by simpa using hpush)]
  cases allocs.copy with
  | none => exact ⟨queue.length, (List.take_of_length_le (by simp)).symm, iff_of_true (Nat.le_refl _) (by simp)⟩
  | some n => exact ⟨n, rfl, by simp⟩

/-- What is left of the positions is in order. -/
theorem confirmPending_sublist (queue : StateQueue) (allocs : ConfirmAllocs) (fidx offset : UInt32) :
    ((stateQueueConfirmPending queue allocs fidx offset).2.map StateQueueEntry.position).Sublist
      (queue.map StateQueueEntry.position) := by
  by_cases h : allocs.Drains queue
  · obtain ⟨n, heq, -⟩ := confirmPending_drained fidx offset h
    rw [heq, List.map_take, List.map_map]
    exact List.take_sublist ..
  · obtain ⟨n, heq, -⟩ := confirmPending_undrained fidx offset h
    rw [heq]
    exact (List.drop_sublist ..).map _

/-- Nothing is lost exactly when the allocations keep the queue. -/
theorem confirmPending_length_iff (queue : StateQueue) (allocs : ConfirmAllocs) (fidx offset : UInt32) :
    (stateQueueConfirmPending queue allocs fidx offset).2.length = queue.length ↔ allocs.Keeps queue := by
  unfold ConfirmAllocs.Keeps
  by_cases h : allocs.Drains queue
  · obtain ⟨n, heq, hn⟩ := confirmPending_drained fidx offset h
    rw [heq, List.length_take, List.length_map, ← hn, and_iff_right h]
    constructor
    · intro hmin
      exact .inr (.inr (by omega))
    · rintro (htemp | rfl | hle)
      · exact absurd (htemp.symm.trans h.1) Bool.false_ne_true
      · exact Nat.min_zero n
      · omega
  · obtain ⟨n, heq, hn⟩ := confirmPending_undrained fidx offset h
    rw [heq, List.length_drop, ← hn]
    simp only [h, false_and, or_false, ← List.length_eq_zero_iff]
    omega

/-! ### Runs -/

namespace QueueAttempt

/-- What the call loses: entries that leave the queue and are not put out. -/
def lost (queue : StateQueue) : QueueAttempt → Nat
  | confirmPending allocs fidx offset => queue.length - (stateQueueConfirmPending queue allocs fidx offset).2.length
  | _ => 0

/-- The call is not a confirmation that loses entries. -/
def Keeps (queue : StateQueue) : QueueAttempt → Prop
  | confirmPending allocs _ _ => allocs.Keeps queue
  | _ => True

theorem lost_eq_zero_iff (queue : StateQueue) (attempt : QueueAttempt) : attempt.lost queue = 0 ↔ attempt.Keeps queue := by
  cases attempt with
  | enqueue alloc fidx offset => exact iff_of_true rfl trivial
  | dequeue => exact iff_of_true rfl trivial
  | confirmPending allocs fidx offset =>
    have hle := (confirmPending_sublist queue allocs fidx offset).length_le
    simp only [List.length_map] at hle
    refine Iff.trans ?_ (confirmPending_length_iff queue allocs fidx offset)
    simp only [lost]
    omega

variable {first last : StateQueue} {steps : List (StateQueue × QueueAttempt)}

/-- Positions come out in the order in which they were accepted, whatever is lost. -/
theorem handedOut_sublist (hrun : Run Step first steps last) :
    (handedOut steps ++ last.map StateQueueEntry.position).Sublist
      (first.map StateQueueEntry.position ++ accepted steps) := by
  induction hrun with
  | nil queue => simp [handedOut, accepted]
  | @cons queue queue' last attempt steps step rest ih =>
    subst step
    cases attempt with
    | enqueue alloc fidx offset =>
      cases alloc with
      | false => exact ih
      | true =>
        have hnext : (next queue (enqueue true fidx offset)).map StateQueueEntry.position =
            queue.map StateQueueEntry.position ++ [(fidx, offset)] := by
          simp [next, stateQueueEnqueue, StateQueueEntry.position]
        rw [hnext, List.append_assoc] at ih
        exact ih
    | dequeue =>
      cases queue with
      | nil => exact ih
      | cons entry queue => exact ih.cons_cons entry.position
    | confirmPending allocs fidx offset =>
      exact ih.trans ((confirmPending_sublist queue allocs fidx offset).append_right _)

/-- Every accepted entry comes out, or is still there, or was lost by some call. -/
theorem length_conserved (hrun : Run Step first steps last) :
    first.length + (accepted steps).length =
      (handedOut steps).length + last.length + (steps.map fun step => step.2.lost step.1).sum := by
  induction hrun with
  | nil queue => simp [handedOut, accepted]
  | @cons queue queue' last attempt steps step rest ih =>
    subst step
    rw [List.map_cons, List.sum_cons]
    cases attempt with
    | enqueue alloc fidx offset =>
      cases alloc with
      | false => simpa [accepted, handedOut, lost, next, stateQueueEnqueue] using ih
      | true =>
        simp only [next, stateQueueEnqueue, if_true, List.length_append, List.length_singleton] at ih
        simp only [accepted, handedOut, lost, stateQueueEnqueue, if_true, List.filterMap_cons, List.length_cons] at ih ⊢
        omega
    | dequeue =>
      cases queue with
      | nil => simpa [accepted, handedOut, lost, next, stateQueueDequeue] using ih
      | cons entry queue =>
        simp only [next, stateQueueDequeue, accepted, handedOut, lost, List.filterMap_cons, List.length_cons] at ih ⊢
        omega
    | confirmPending allocs fidx offset =>
      have hle := (confirmPending_sublist queue allocs fidx offset).length_le
      simp only [List.length_map] at hle
      simp only [next, accepted, handedOut, lost, List.filterMap_cons] at ih ⊢
      omega

/-- Whether some call marks the entries of a position that are in the queue by then. -/
def markedBy (steps : List (StateQueue × QueueAttempt)) (position : UInt32 × UInt32) : Bool :=
  steps.any fun step => match step.2 with
    | confirmPending allocs fidx offset => decide (allocs.Drains step.1) && (fidx, offset) == position
    | _ => false

/-- The entries that calls have put in a queue, each with whether it has been marked since. -/
def arrived : List (StateQueue × QueueAttempt) → StateQueue
  | [] => []
  | (queue, enqueue alloc fidx offset) :: steps =>
    if (stateQueueEnqueue queue alloc fidx offset).1 then
      ⟨fidx, offset, markedBy steps (fidx, offset)⟩ :: arrived steps
    else arrived steps
  | (_, dequeue) :: steps => arrived steps
  | (_, confirmPending _ _ _) :: steps => arrived steps

/-- An entry that was there before some calls. -/
def since (steps : List (StateQueue × QueueAttempt)) (entry : StateQueueEntry) : StateQueueEntry :=
  {entry with isConfirmed := entry.isConfirmed || markedBy steps entry.position}

theorem since_nil : since [] = id := by
  funext entry
  simp [since, markedBy]

theorem since_drained {queue : StateQueue} {allocs : ConfirmAllocs} (h : allocs.Drains queue) (fidx offset : UInt32)
    (steps : List (StateQueue × QueueAttempt)) (entry : StateQueueEntry) :
    since steps (entry.confirm (fidx, offset)) = since ((queue, confirmPending allocs fidx offset) :: steps) entry := by
  have hmarked : markedBy ((queue, confirmPending allocs fidx offset) :: steps) entry.position =
      (entry.position == (fidx, offset) || markedBy steps entry.position) := by
    rw [markedBy, List.any_cons]
    simp only [h, decide_true, Bool.true_and]
    rw [Bool.beq_comm]
    rfl
  unfold since
  rw [hmarked, ← Bool.or_assoc]
  rfl

theorem since_undrained {queue : StateQueue} {allocs : ConfirmAllocs} (h : ¬ allocs.Drains queue)
    (fidx offset : UInt32) (steps : List (StateQueue × QueueAttempt)) :
    since ((queue, confirmPending allocs fidx offset) :: steps) = since steps := by
  funext entry
  simp [since, markedBy, h]

/-- What a confirmation leaves, as it will be after some more calls. -/
theorem confirmPending_since (queue : StateQueue) (allocs : ConfirmAllocs) (fidx offset : UInt32)
    (steps : List (StateQueue × QueueAttempt)) :
    let before := queue.map (since ((queue, confirmPending allocs fidx offset) :: steps))
    ((next queue (confirmPending allocs fidx offset)).map (since steps)).Sublist before ∧
      (allocs.Keeps queue → (next queue (confirmPending allocs fidx offset)).map (since steps) = before) := by
  intro before
  have hsublist : ((next queue (confirmPending allocs fidx offset)).map (since steps)).Sublist before := by
    by_cases h : allocs.Drains queue
    · obtain ⟨n, heq, -⟩ := confirmPending_drained fidx offset h
      rw [next, heq, List.map_take, List.map_map]
      have hsince : since steps ∘ StateQueueEntry.confirm (fidx, offset) =
          since ((queue, confirmPending allocs fidx offset) :: steps) :=
        funext (since_drained h fidx offset steps)
      rw [hsince]
      exact List.take_sublist ..
    · obtain ⟨n, heq, -⟩ := confirmPending_undrained fidx offset h
      show (List.map _ _).Sublist (queue.map (since ((queue, confirmPending allocs fidx offset) :: steps)))
      rw [next, heq, since_undrained h]
      exact (List.drop_sublist ..).map _
  refine ⟨hsublist, fun hkeeps => hsublist.eq_of_length ?_⟩
  have hlength := (confirmPending_length_iff queue allocs fidx offset).mpr hkeeps
  simpa [before, next] using hlength

/-- What is left is some of what arrived, each entry marked as the calls since have it. -/
theorem last_sublist (hrun : Run Step first steps last) :
    last.Sublist (first.map (since steps) ++ arrived steps) := by
  induction hrun with
  | nil queue => simp [arrived, since_nil]
  | @cons queue queue' last attempt steps step rest ih =>
    subst step
    cases attempt with
    | enqueue alloc fidx offset =>
      cases alloc with
      | false => exact ih
      | true =>
        have hnext : next queue (enqueue true fidx offset) = queue ++ [⟨fidx, offset, false⟩] := rfl
        rw [hnext, List.map_append, List.append_assoc] at ih
        exact ih
    | dequeue =>
      cases queue with
      | nil => exact ih
      | cons entry queue => exact ih.cons _
    | confirmPending allocs fidx offset =>
      exact ih.trans ((confirmPending_since queue allocs fidx offset steps).1.append_right _)

/-- When nothing is lost what is left are the last arrivals. -/
theorem last_eq_drop (hrun : Run Step first steps last) (hkeeps : ∀ step ∈ steps, step.2.Keeps step.1) :
    last = (first.map (since steps) ++ arrived steps).drop (handedOut steps).length := by
  induction hrun with
  | nil queue => simp [arrived, handedOut, since_nil]
  | @cons queue queue' last attempt steps step rest ih =>
    subst step
    replace ih := ih fun step hstep => hkeeps step (List.mem_cons_of_mem _ hstep)
    cases attempt with
    | enqueue alloc fidx offset =>
      cases alloc with
      | false => exact ih
      | true =>
        have hnext : next queue (enqueue true fidx offset) = queue ++ [⟨fidx, offset, false⟩] := rfl
        rw [hnext, List.map_append, List.append_assoc] at ih
        exact ih
    | dequeue =>
      cases queue with
      | nil => exact ih
      | cons entry queue => exact ih
    | confirmPending allocs fidx offset =>
      have hkeep : allocs.Keeps queue := hkeeps _ (List.mem_cons_self ..)
      rw [(confirmPending_since queue allocs fidx offset steps).2 hkeep] at ih
      exact ih

end QueueAttempt

open QueueAttempt in
/-- A new queue whose calls may fail to find memory: what has come out and what is left are
accepted positions in the order of their acceptance, none twice; each entry left is marked
exactly when a confirmation of its position has moved it since it arrived; and positions
are missing exactly when some confirmation lost entries. When none did the queue is the last
arrivals. -/
theorem stateQueue_degrades {steps : List (StateQueue × QueueAttempt)} {last : StateQueue}
    (hrun : Run Step stateQueueCreate steps last) :
    (handedOut steps ++ last.map StateQueueEntry.position).Sublist (accepted steps) ∧
      last.Sublist (arrived steps) ∧
      (handedOut steps ++ last.map StateQueueEntry.position = accepted steps ↔
        ∀ step ∈ steps, step.2.Keeps step.1) ∧
      ((∀ step ∈ steps, step.2.Keeps step.1) → last = (arrived steps).drop (handedOut steps).length) := by
  have hsublist : (handedOut steps ++ last.map StateQueueEntry.position).Sublist (accepted steps) :=
    handedOut_sublist hrun
  refine ⟨hsublist, last_sublist hrun, ?_, last_eq_drop hrun⟩
  have hlength := length_conserved hrun
  have hkeeps : (∀ step ∈ steps, step.2.Keeps step.1) ↔ (steps.map fun step => step.2.lost step.1).sum = 0 := by
    simp only [← lost_eq_zero_iff, List.sum_eq_zero_iff_forall_eq_nat, List.forall_mem_map]
  rw [hkeeps]
  constructor
  · intro heq
    have hall := congrArg List.length heq
    simp only [List.length_append, List.length_map] at hall
    have hnone : (stateQueueCreate : StateQueue).length = 0 := rfl
    omega
  · intro hnone
    apply hsublist.eq_of_length
    simp only [List.length_append, List.length_map]
    have hempty : (stateQueueCreate : StateQueue).length = 0 := rfl
    omega

open QueueAttempt in
/-- The first push of a confirmation throws: the first of two positions is gone. -/
theorem stateQueue_degrades_lost :
    ∃ steps, Run Step stateQueueCreate steps [⟨3, 4, false⟩] ∧
      (handedOut steps ++ [(3, 4)]).Sublist (accepted steps) := by
  have hrun : Run Step stateQueueCreate _ [⟨3, 4, false⟩] :=
    .cons (a := .enqueue true 1 2) rfl (.cons (a := .enqueue true 3 4) rfl
      (.cons (a := .confirmPending ⟨true, fun k => k != 0, none⟩ 3 4) rfl (.nil _)))
  exact ⟨_, hrun, (stateQueue_degrades hrun).1⟩

end Wasmig
