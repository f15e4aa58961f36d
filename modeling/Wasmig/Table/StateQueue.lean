import Wasmig.Base.Runs

/-! The state queue (`table_v3.cpp`): the positions an instruction is awaited at, first in
first out, each with a mark that it has been confirmed.

`confirm_pending` empties the queue into a temporary one, marking as it goes, and copies
that one back. As long as memory is found this relabels the entries and does nothing else
(`confirmPending_eq`); `stateQueue_fifo` says what the calls on one queue amount to. When
it is not found entries are gone or marked, almost always (`confirmPending_atomic_iff`). -/
namespace Wasmig
open Base

structure StateQueueEntry where
  fidx : UInt32
  offset : UInt32
  isConfirmed : Bool
deriving DecidableEq, Repr

/-- `std::queue<StateQueueEntry>`, the front first. It is what a `StateManagementQueue` that
is not null points to. -/
abbrev StateQueue := List StateQueueEntry

/-- `wasmig_state_queue_create` when it succeeds. -/
def stateQueueCreate : StateQueue := []

/-- `wasmig_state_queue_enqueue(queue, fidx, offset)`; the entry may find no memory. -/
def stateQueueEnqueue (queue : StateQueue) (alloc : Bool) (fidx offset : UInt32) : Bool × StateQueue :=
  if alloc then (true, queue ++ [⟨fidx, offset, false⟩]) else (false, queue)

/-- `wasmig_state_queue_dequeue(queue, ..)`: what it puts out when it returns `true`. -/
def stateQueueDequeue : StateQueue → Option (UInt32 × UInt32) × StateQueue
  | [] => (none, [])
  | entry :: queue => (some (entry.fidx, entry.offset), queue)

/-- What the allocations of `wasmig_state_queue_confirm_pending` meet. -/
structure ConfirmAllocs where
  /-- Whether the temporary queue can be made. -/
  temp : Bool
  /-- Whether the `k`-th push finds memory. -/
  push : Nat → Bool
  /-- `none`, or how much of the temporary queue is copied back when that throws. -/
  copy : Option Nat

/-- What the loop of `wasmig_state_queue_confirm_pending` leaves. -/
inductive Drained where
  /-- The temporary queue, and whether the position was found. -/
  | drained (temp : StateQueue) (found : Bool)
  /-- A push has thrown: what is left of the queue. -/
  | thrown (queue : StateQueue)

/-- The loop of `wasmig_state_queue_confirm_pending`, from the `k`-th entry on. -/
def drain (push : Nat → Bool) (fidx offset : UInt32) : Nat → StateQueue → StateQueue → Bool → Drained
  | _, [], temp, found => .drained temp found
  | k, entry :: queue, temp, found =>
    let matched := entry.fidx = fidx ∧ entry.offset = offset
    let entry := if matched then {entry with isConfirmed := true} else entry
    -- The entry has left the queue before it is pushed on the other one.
    if push k then drain push fidx offset (k + 1) queue (temp ++ [entry]) (if matched then true else found)
    else .thrown queue

/-- `wasmig_state_queue_confirm_pending(queue, fidx, offset)`. -/
def stateQueueConfirmPending (queue : StateQueue) (allocs : ConfirmAllocs) (fidx offset : UInt32) :
    Bool × StateQueue :=
  if allocs.temp = false then (false, queue) else
  match drain allocs.push fidx offset 0 queue [] false with
  | .thrown left => (false, left)
  | .drained temp found =>
    match allocs.copy with
    | none => (found, temp)
    | some n => (false, temp.take n)

/-- `wasmig_state_queue_is_empty(queue)`. -/
def stateQueueIsEmpty (queue : StateQueue) : Bool := queue.isEmpty

/-- `wasmig_state_queue_size(queue)`. -/
def stateQueueSize (queue : StateQueue) : Nat := queue.length

/-! ### Confirmation -/

/-- Every allocation succeeds. -/
def ConfirmAllocs.enough : ConfirmAllocs := ⟨true, fun _ => true, none⟩

/-- The position of an entry. -/
def StateQueueEntry.position (entry : StateQueueEntry) : UInt32 × UInt32 := (entry.fidx, entry.offset)

/-- An entry once a position has been confirmed: marked if it has that position, and
otherwise as it was. -/
def StateQueueEntry.confirm (position : UInt32 × UInt32) (entry : StateQueueEntry) : StateQueueEntry :=
  {entry with isConfirmed := entry.isConfirmed || entry.position == position}

theorem StateQueueEntry.position_eq_iff (entry : StateQueueEntry) (fidx offset : UInt32) :
    entry.position = (fidx, offset) ↔ entry.fidx = fidx ∧ entry.offset = offset := Prod.mk.injEq .. ▸ Iff.rfl

/-- The loop marks an entry as the source does it. -/
theorem StateQueueEntry.confirm_eq (entry : StateQueueEntry) (fidx offset : UInt32) :
    (if entry.fidx = fidx ∧ entry.offset = offset then {entry with isConfirmed := true} else entry) =
      entry.confirm (fidx, offset) := by
  unfold confirm
  by_cases h : entry.position = (fidx, offset)
  · rw [if_pos ((position_eq_iff ..).mp h), beq_iff_eq.mpr h, Bool.or_true]
  · rw [if_neg fun hm => h ((position_eq_iff ..).mpr hm), beq_eq_false_iff_ne.mpr h, Bool.or_false]

/-- The queue drained without a throw: the entries follow those drained before. -/
theorem drain_eq {push : Nat → Bool} (fidx offset : UInt32) (k : Nat) (queue temp : StateQueue) (found : Bool)
    (hpush : ∀ j, j < queue.length → push (k + j) = true) :
    drain push fidx offset k queue temp found =
      .drained (temp ++ queue.map (StateQueueEntry.confirm (fidx, offset)))
        (found || queue.any fun entry => entry.position == (fidx, offset)) := by
  induction queue generalizing k temp found with
  | nil => simp [drain]
  | cons entry queue ih =>
    have hfound : (if entry.fidx = fidx ∧ entry.offset = offset then true else found) =
        (found || entry.position == (fidx, offset)) := by
      by_cases h : entry.position = (fidx, offset)
      · rw [if_pos ((StateQueueEntry.position_eq_iff ..).mp h), beq_iff_eq.mpr h, Bool.or_true]
      · rw [if_neg fun hm => h ((StateQueueEntry.position_eq_iff ..).mpr hm), beq_eq_false_iff_ne.mpr h,
          Bool.or_false]
    have hhere : push k = true := hpush 0 (Nat.succ_pos _)
    have hrest : ∀ j, j < queue.length → push (k + 1 + j) = true := by
      intro j hj
      rw [Nat.add_right_comm]
      exact hpush (j + 1) (Nat.succ_lt_succ hj)
    unfold drain
    dsimp only
    rw [if_pos hhere, ih _ _ _ hrest, StateQueueEntry.confirm_eq, hfound]
    simp [Bool.or_assoc]

/-- Confirming a position relabels the entries, and finds it if one of them has it. -/
theorem confirmPending_eq (queue : StateQueue) (fidx offset : UInt32) :
    stateQueueConfirmPending queue .enough fidx offset =
      (queue.any fun entry => entry.position == (fidx, offset),
        queue.map (StateQueueEntry.confirm (fidx, offset))) := by
  unfold stateQueueConfirmPending
  rw [drain_eq fidx offset 0 queue [] false fun _ _ => rfl]
  simp [ConfirmAllocs.enough]

/-! ### Runs -/

inductive StateQueueCall where
  | enqueue (fidx offset : UInt32)
  | dequeue
  | confirmPending (fidx offset : UInt32)

/-- The queue after a call whose allocations succeed. -/
def StateQueueCall.next (queue : StateQueue) : StateQueueCall → StateQueue
  | .enqueue fidx offset => (stateQueueEnqueue queue true fidx offset).2
  | .dequeue => (stateQueueDequeue queue).2
  | .confirmPending fidx offset => (stateQueueConfirmPending queue .enough fidx offset).2

def StateQueueCall.Step (queue : StateQueue) (call : StateQueueCall) (queue' : StateQueue) : Prop :=
  queue' = call.next queue

/-- The positions enqueued in a run, in order. -/
def enqueued (steps : List (StateQueue × StateQueueCall)) : List (UInt32 × UInt32) :=
  steps.filterMap fun step => match step.2 with
    | .enqueue fidx offset => some (fidx, offset)
    | _ => none

/-- The positions that the dequeues of a run put out, in order. -/
def dequeued (steps : List (StateQueue × StateQueueCall)) : List (UInt32 × UInt32) :=
  steps.filterMap fun step => match step.2 with
    | .dequeue => (stateQueueDequeue step.1).1
    | _ => none

/-- Whatever is enqueued comes out, or is still there: of what was in the queue first and
what was enqueued since, the dequeued positions are the first and those left the rest. -/
theorem queue_conserved {first last : StateQueue} {steps : List (StateQueue × StateQueueCall)}
    (hrun : Run StateQueueCall.Step first steps last) :
    first.map StateQueueEntry.position ++ enqueued steps =
      dequeued steps ++ last.map StateQueueEntry.position := by
  induction hrun with
  | nil queue => simp [enqueued, dequeued]
  | @cons queue queue' last call steps step rest ih =>
    subst step
    cases call with
    | enqueue fidx offset =>
      have hnext : (StateQueueCall.next queue (.enqueue fidx offset)).map StateQueueEntry.position =
          queue.map StateQueueEntry.position ++ [(fidx, offset)] := by
        simp [StateQueueCall.next, stateQueueEnqueue, StateQueueEntry.position]
      rw [hnext, List.append_assoc] at ih
      exact ih
    | dequeue =>
      cases queue with
      | nil => exact ih
      | cons entry queue => exact congrArg (entry.position :: ·) ih
    | confirmPending fidx offset =>
      have hnext : (StateQueueCall.next queue (.confirmPending fidx offset)).map StateQueueEntry.position =
          queue.map StateQueueEntry.position := by
        rw [StateQueueCall.next, confirmPending_eq, List.map_map]
        rfl
      rw [hnext] at ih
      exact ih

/-- Whether some call confirms a position. -/
def confirmedBy (calls : List StateQueueCall) (position : UInt32 × UInt32) : Bool :=
  calls.any fun call => match call with
    | .confirmPending fidx offset => (fidx, offset) == position
    | _ => false

/-- The entries that calls have put in a queue, each with whether it has been confirmed
since. -/
def arrivals : List StateQueueCall → StateQueue
  | [] => []
  | .enqueue fidx offset :: calls => ⟨fidx, offset, confirmedBy calls (fidx, offset)⟩ :: arrivals calls
  | .dequeue :: calls => arrivals calls
  | .confirmPending _ _ :: calls => arrivals calls

/-- An entry that was there before some calls. -/
def StateQueueEntry.after (calls : List StateQueueCall) (entry : StateQueueEntry) : StateQueueEntry :=
  {entry with isConfirmed := entry.isConfirmed || confirmedBy calls entry.position}

theorem StateQueueEntry.after_nil : StateQueueEntry.after [] = id := by
  funext entry
  simp [after, confirmedBy]

theorem StateQueueEntry.after_confirm (calls : List StateQueueCall) (fidx offset : UInt32) (entry : StateQueueEntry) :
    (entry.confirm (fidx, offset)).after calls = entry.after (.confirmPending fidx offset :: calls) := by
  unfold after confirm confirmedBy
  rw [List.any_cons, ← Bool.or_assoc, Bool.beq_comm (a := entry.position)]
  rfl

/-- After a run a queue is what was in it and what came in, less what came out; an entry is
marked when it was at first or has been confirmed since. -/
theorem queue_relabelled {first last : StateQueue} {steps : List (StateQueue × StateQueueCall)}
    (hrun : Run StateQueueCall.Step first steps last) :
    last = (first.map (StateQueueEntry.after (steps.map Prod.snd)) ++ arrivals (steps.map Prod.snd)).drop
      (dequeued steps).length := by
  induction hrun with
  | nil queue => simp [arrivals, dequeued, StateQueueEntry.after_nil]
  | @cons queue queue' last call steps step rest ih =>
    subst step
    cases call with
    | enqueue fidx offset =>
      have hnext : StateQueueCall.next queue (.enqueue fidx offset) = queue ++ [⟨fidx, offset, false⟩] := rfl
      rw [hnext, List.map_append, List.append_assoc] at ih
      exact ih
    | dequeue =>
      cases queue with
      | nil => exact ih
      | cons entry queue => exact ih
    | confirmPending fidx offset =>
      have hnext : StateQueueCall.next queue (.confirmPending fidx offset) =
          queue.map (StateQueueEntry.confirm (fidx, offset)) := by
        rw [StateQueueCall.next, confirmPending_eq]
      rw [hnext, List.map_map] at ih
      apply ih.trans
      simp only [Function.comp_def, StateQueueEntry.after_confirm]
      rfl

/-- The calls on a new queue: positions come out in the order in which they went in, each
once; the size counts those that have not come out; a dequeue fails exactly on the empty
queue; and a confirmation finds a position exactly when an entry has it, marks all entries
that do, and changes nothing else. What is left are the last arrivals, each marked
exactly when it has been confirmed since. -/
theorem stateQueue_fifo {steps : List (StateQueue × StateQueueCall)} {last : StateQueue}
    (hrun : Run StateQueueCall.Step stateQueueCreate steps last) :
    enqueued steps = dequeued steps ++ last.map StateQueueEntry.position ∧
    last = (arrivals (steps.map Prod.snd)).drop (dequeued steps).length ∧
    stateQueueSize last + (dequeued steps).length = (enqueued steps).length ∧
    ((stateQueueDequeue last).1 = none ↔ last = []) ∧
    (stateQueueIsEmpty last = true ↔ last = []) ∧
    ∀ fidx offset,
      ((stateQueueConfirmPending last .enough fidx offset).1 = true ↔
        ∃ entry ∈ last, entry.fidx = fidx ∧ entry.offset = offset) ∧
      ∀ i : Nat, (stateQueueConfirmPending last .enough fidx offset).2[i]? =
        last[i]?.map fun entry =>
          if entry.fidx = fidx ∧ entry.offset = offset then {entry with isConfirmed := true} else entry := by
  have hconserved : enqueued steps = dequeued steps ++ last.map StateQueueEntry.position :=
    queue_conserved hrun
  refine ⟨hconserved, queue_relabelled hrun, ?_, ?_, List.isEmpty_iff, fun fidx offset => ?_⟩
  · rw [hconserved, List.length_append, List.length_map, Nat.add_comm]
    rfl
  · cases last with
    | nil => exact iff_of_true rfl rfl
    | cons entry queue => exact iff_of_false (by simp [stateQueueDequeue]) (by simp)
  · rw [confirmPending_eq]
    constructor
    · simp only [List.any_eq_true, beq_iff_eq, StateQueueEntry.position_eq_iff]
    · intro i
      simp only [List.getElem?_map, StateQueueEntry.confirm_eq]

/-- Two positions of which the first is confirmed between its two entries, and comes out. -/
theorem stateQueue_fifo_confirmed :
    ∃ steps, Run StateQueueCall.Step stateQueueCreate steps [⟨3, 4, false⟩, ⟨1, 2, false⟩] ∧
      enqueued steps = dequeued steps ++ [(3, 4), (1, 2)] := by
  have hrun : Run StateQueueCall.Step stateQueueCreate _ [⟨3, 4, false⟩, ⟨1, 2, false⟩] :=
    .cons (a := .enqueue 1 2) rfl (.cons (a := .enqueue 3 4) rfl (.cons (a := .confirmPending 1 2) rfl
      (.cons (a := .enqueue 1 2) rfl (.cons (a := .dequeue) rfl (.nil _)))))
  exact ⟨_, hrun, (stateQueue_fifo hrun).1⟩

/-! ### Failure

An entry leaves the queue before it is pushed on the temporary one, and the handler puts
nothing back: the call returns `false` with whatever the queue holds by then. -/

/-- Some allocation throws while a position is confirmed. -/
def ConfirmAllocs.Throws (allocs : ConfirmAllocs) (queue : StateQueue) : Prop :=
  allocs.temp = false ∨ (∃ k < queue.length, allocs.push k = false) ∨ allocs.copy ≠ none

/-- The throw comes before the first entry is popped, or there is none to pop, or it comes
with every entry back in the queue and no mark set on the way. -/
def ConfirmAllocs.SparesQueue (allocs : ConfirmAllocs) (queue : StateQueue) (fidx offset : UInt32) : Prop :=
  allocs.temp = false ∨ queue = [] ∨
    (∀ k < queue.length, allocs.push k = true) ∧ (∃ n, allocs.copy = some n ∧ queue.length ≤ n) ∧
      ∀ entry ∈ queue, entry.fidx = fidx → entry.offset = offset → entry.isConfirmed = true

/-- A push that throws ends the loop, and its entry is in neither queue. -/
theorem drain_thrown {push : Nat → Bool} (fidx offset : UInt32) (k : Nat) (queue temp : StateQueue) (found : Bool)
    (hpush : ∃ j < queue.length, push (k + j) = false) :
    ∃ j < queue.length, drain push fidx offset k queue temp found = .thrown (queue.drop (j + 1)) := by
  induction queue generalizing k temp found with
  | nil =>
    obtain ⟨j, hj, -⟩ := hpush
    exact absurd hj (Nat.not_lt_zero j)
  | cons entry queue ih =>
    unfold drain
    dsimp only
    by_cases hhere : push k = true
    · rw [if_pos hhere]
      have hrest : ∃ j < queue.length, push (k + 1 + j) = false := by
        obtain ⟨j, hj, hthrow⟩ := hpush
        cases j with
        | zero => exact absurd (hhere.symm.trans hthrow) (by simp)
        | succ j => exact ⟨j, Nat.lt_of_succ_lt_succ hj, by rwa [Nat.add_right_comm]⟩
      obtain ⟨j, hj, heq⟩ := ih (k + 1) _ _ hrest
      exact ⟨j + 1, Nat.succ_lt_succ hj, heq⟩
    · rw [if_neg hhere]
      exact ⟨0, Nat.succ_pos _, rfl⟩

/-- What is left behind the entry that was lost is not the queue. -/
theorem drop_succ_ne (queue : StateQueue) {j : Nat} (hj : j < queue.length) : queue.drop (j + 1) ≠ queue := by
  intro heq
  have hlen : queue.length - (j + 1) = queue.length := by rw [← List.length_drop, heq]
  omega

/-- Confirming changes nothing exactly when the entries with the position are marked
already. -/
theorem map_confirm_eq_self (queue : StateQueue) (fidx offset : UInt32) :
    queue.map (StateQueueEntry.confirm (fidx, offset)) = queue ↔
      ∀ entry ∈ queue, entry.fidx = fidx → entry.offset = offset → entry.isConfirmed = true := by
  have hentry : ∀ entry : StateQueueEntry, entry.confirm (fidx, offset) = entry ↔
      (entry.fidx = fidx → entry.offset = offset → entry.isConfirmed = true) := by
    intro entry
    obtain ⟨f, o, confirmed⟩ := entry
    cases confirmed <;> simp [StateQueueEntry.confirm, StateQueueEntry.position]
  simpa [hentry] using List.map_inj_left (l := queue) (f := StateQueueEntry.confirm (fidx, offset)) (g := id)

/-- The part of the temporary queue that came back is the queue when it is all of it and
nothing in it was marked. -/
theorem take_confirm_eq_self (queue : StateQueue) (fidx offset : UInt32) (n : Nat) :
    (queue.map (StateQueueEntry.confirm (fidx, offset))).take n = queue ↔
      queue = [] ∨ queue.length ≤ n ∧
        ∀ entry ∈ queue, entry.fidx = fidx → entry.offset = offset → entry.isConfirmed = true := by
  constructor
  · intro heq
    have hlen : min n queue.length = queue.length := by simpa using congrArg List.length heq
    refine .inr ⟨by omega, ?_⟩
    rw [List.take_of_length_le (by rw [List.length_map]; omega)] at heq
    exact (map_confirm_eq_self queue fidx offset).mp heq
  · rintro (rfl | ⟨hn, hmarked⟩)
    · simp
    · rw [List.take_of_length_le (by rwa [List.length_map])]
      exact (map_confirm_eq_self queue fidx offset).mpr hmarked

/-- When an allocation throws the call returns `false`, and the queue is what it was
exactly when the throw spares it. -/
theorem confirmPending_atomic_iff (queue : StateQueue) (allocs : ConfirmAllocs) (fidx offset : UInt32)
    (hthrows : allocs.Throws queue) :
    (stateQueueConfirmPending queue allocs fidx offset).1 = false ∧
      ((stateQueueConfirmPending queue allocs fidx offset).2 = queue ↔ allocs.SparesQueue queue fidx offset) := by
  unfold stateQueueConfirmPending ConfirmAllocs.SparesQueue
  by_cases htemp : allocs.temp = false
  · simp [htemp]
  rw [if_neg htemp]
  by_cases hpush : ∃ k < queue.length, allocs.push k = false
  · obtain ⟨j, hj, heq⟩ := drain_thrown fidx offset 0 queue [] false (by simpa using hpush)
    rw [heq]
    refine ⟨rfl, iff_of_false (drop_succ_ne queue hj) ?_⟩
    rintro (h | rfl | ⟨hall, -⟩)
    · exact htemp h
    · exact absurd hj (Nat.not_lt_zero j)
    · obtain ⟨k, hk, hthrow⟩ := hpush
      exact absurd ((hall k hk).symm.trans hthrow) (by simp)
  · have hall : ∀ k < queue.length, allocs.push k = true := by simpa using hpush
    rw [drain_eq fidx offset 0 queue [] false (by simpa using hall)]
    cases hcopy : allocs.copy with
    | none => exact absurd hthrows (by simp [ConfirmAllocs.Throws, htemp, hpush, hcopy])
    | some n =>
      refine ⟨rfl, (take_confirm_eq_self queue fidx offset n).trans ?_⟩
      simp only [htemp, Bool.true_eq_false, false_or, Option.some.injEq, exists_eq_left', and_iff_right hall]

/-- A copy that throws with the only entry, another position, back in the queue. -/
theorem confirmPending_atomic_iff_copied :
    (stateQueueConfirmPending [⟨1, 2, false⟩] ⟨true, fun _ => true, some 1⟩ 3 4).2 = [⟨1, 2, false⟩] :=
  (confirmPending_atomic_iff _ ⟨true, fun _ => true, some 1⟩ 3 4 (.inr (.inr (by simp)))).2.mpr
    (.inr (.inr ⟨fun _ _ => rfl, ⟨1, rfl, Nat.le_refl _⟩, by simp⟩))

/-- Forty-three positions, which a `std::deque` keeps in more than one chunk. -/
def longQueue : StateQueue := (List.range 43).map fun k => ⟨UInt32.ofNat k, 2, false⟩

/-- The push that asks for the second chunk throws: 42 positions are gone, and no sign of them. -/
theorem confirmPending_loses_entry :
    ¬ ∀ (queue : StateQueue) (allocs : ConfirmAllocs) (fidx offset : UInt32), allocs.Throws queue →
      (stateQueueConfirmPending queue allocs fidx offset).1 = false →
      (stateQueueConfirmPending queue allocs fidx offset).2 = queue := by
  intro h
  have hrun : stateQueueConfirmPending longQueue ⟨true, fun k => k != 41, none⟩ 1 2 = (false, [⟨42, 2, false⟩]) := by
    rfl
  have hkept := h longQueue ⟨true, fun k => k != 41, none⟩ 1 2 (.inr (.inl ⟨41, by decide, rfl⟩))
  rw [hrun] at hkept
  exact absurd (congrArg List.length (hkept rfl)) (by decide)

end Wasmig
