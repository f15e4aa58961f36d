import Wasmig.Base.RefCount

/-! The persistent stack (`stack.cpp`): linked nodes with reference counts, shared
between stacks.

Operations take the allocated nodes and return them; `none` is the use of a node that
has been freed. The address of a new node is the allocator's choice and may be one that
was used before. A reference count is an `int`; counts are taken to stay below 2^31. -/
namespace Wasmig
open Base Base.RefCount

abbrev Addr := Nat

/-- A `Stack`: `NULL`, the shared empty stack, or an allocated node. -/
inductive Stack where
  | null
  | empty
  | node (a : Addr)
deriving DecidableEq, Repr

/-- `struct stack_node`. -/
structure StackNode where
  value : UInt64
  next : Stack
  refCount : Int
  isTerminal : Bool
deriving DecidableEq, Repr

/-- The nodes allocated and not yet freed. -/
abbrev Nodes := Heap Addr StackNode

/-- The node a stack is counted on: `NULL` and the shared empty stack are exempt. -/
def Stack.target : Stack → Option Addr
  | .node a => some a
  | .null => none
  | .empty => none

/-- How nodes are counted. -/
def nodeCounting : Counting Addr StackNode where
  count := StackNode.refCount
  recount n i := {n with refCount := i}
  link n := n.next.target
  count_recount _ _ := rfl
  link_recount _ _ := rfl
  recount_count _ := rfl
  recount_recount _ _ _ := rfl

/-- `stack_retain`. -/
def stackRetain (nodes : Nodes) : Stack → Option Nodes
  | .null => some nodes
  | .empty => some nodes
  | .node a => (nodes.lookup a).map fun n => nodes.insert a {n with refCount := n.refCount + 1}

/-- `stack_release`, through at most `fuel` nodes. -/
def stackReleaseThrough : Nat → Nodes → Stack → Option Nodes
  | _, nodes, .null => some nodes
  | _, nodes, .empty => some nodes
  | 0, _, .node _ => none
  | fuel + 1, nodes, .node a =>
    (nodes.lookup a).bind fun n =>
      let nodes := nodes.insert a {n with refCount := n.refCount - 1}
      if n.refCount - 1 ≤ 0 then
        (stackReleaseThrough fuel nodes n.next).bind fun nodes => free nodes a
      else some nodes

/-- `stack_release`: it can free no more nodes than there are. -/
def stackRelease (nodes : Nodes) (stack : Stack) : Option Nodes :=
  stackReleaseThrough nodes.keys.card nodes stack

/-- What a stack that is not `NULL` points to. -/
def readNode (nodes : Nodes) : Stack → Option StackNode
  | .null => none
  | .empty => some ⟨0, .null, 1, true⟩
  | .node a => nodes.lookup a

/-- `stack ? stack : empty_stack`. -/
def Stack.orEmpty : Stack → Stack
  | .null => .empty
  | stack => stack

/-- `wasmig_stack_create()`, the new root at `a`. -/
def stackCreate (nodes : Nodes) (a : Addr) : Nodes × Stack :=
  (nodes.insert a ⟨0, .null, 1, true⟩, .node a)

/-- `wasmig_stack_empty()`. -/
def stackEmpty : Stack := .empty

/-- `wasmig_stack_push(stack, value)`, the new node at `a`. -/
def stackPush (nodes : Nodes) (stack : Stack) (value : UInt64) (a : Addr) : Option (Nodes × Stack) :=
  (stackRetain (nodes.insert a ⟨value, stack, 1, false⟩) stack).map fun nodes => (nodes, .node a)

/-- `wasmig_stack_is_empty(stack)`. -/
def stackIsEmpty (nodes : Nodes) (stack : Stack) : Option Bool :=
  if stack = .null then some true else (readNode nodes stack).map StackNode.isTerminal

/-- `wasmig_stack_pop(stack, &value)`: the nodes, the rest and the value. -/
def stackPop (nodes : Nodes) (stack : Stack) : Option (Nodes × Stack × UInt64) :=
  if stack = .null then some (nodes, .empty, 0)
  else
    (readNode nodes stack).bind fun n =>
      if n.isTerminal then some (nodes, stack, 0)
      else (stackRetain nodes n.next).map fun nodes => (nodes, n.next.orEmpty, n.value)

/-- `wasmig_stack_top(stack)`. -/
def stackTop (nodes : Nodes) (stack : Stack) : Option UInt64 :=
  if stack = .null then some 0
  else (readNode nodes stack).map fun n => if n.isTerminal then 0 else n.value

/-- The loop of `wasmig_stack_size`, through at most `fuel` nodes. -/
def stackSizeLoop : Nat → Nodes → Stack → Nat → Option Nat
  | _, _, .null, count => some count
  | _, _, .empty, count => some count
  | 0, _, .node _, _ => none
  | fuel + 1, nodes, .node a, count =>
    (nodes.lookup a).bind fun n =>
      if n.isTerminal then some count else stackSizeLoop fuel nodes n.next (count + 1)

/-- `wasmig_stack_size(stack)`: without a circle it comes across no more nodes than there
are, and these are fewer than a `size_t` counts. -/
def stackSize (nodes : Nodes) (stack : Stack) : Option Nat :=
  stackSizeLoop nodes.keys.card nodes stack 0

/-- `wasmig_stack_destroy(stack)`. -/
def stackDestroy (nodes : Nodes) (stack : Stack) : Option Nodes := stackRelease nodes stack

/-! ### References -/

/-- Releasing a stack is releasing the node it is counted on. -/
theorem stackReleaseThrough_eq (fuel : Nat) (nodes : Nodes) (stack : Stack) :
    stackReleaseThrough fuel nodes stack =
      match stack.target with
      | none => some nodes
      | some a => release nodeCounting fuel nodes a := by
  induction fuel generalizing nodes stack with
  | zero =>
    cases stack with
    | null => rfl
    | empty => rfl
    | node a => rfl
  | succ fuel ih =>
    cases stack with
    | null => rfl
    | empty => rfl
    | node a =>
      simp only [stackReleaseThrough, Stack.target, release]
      refine congrArg _ (funext fun n => ?_)
      show (if n.refCount - 1 ≤ 0 then _ else _) = if n.refCount - 1 ≤ 0 then _ else _
      split
      · have hlink : nodeCounting.link n = n.next.target := rfl
        rw [ih, hlink]
        cases n.next.target with
        | none => rfl
        | some t => rfl
      · rfl

theorem stackRetain_eq (nodes : Nodes) (stack : Stack) :
    stackRetain nodes stack =
      match stack.target with
      | none => some nodes
      | some a => retain nodeCounting nodes a := by
  cases stack with
  | null => rfl
  | empty => rfl
  | node a => rfl

/-- The nodes that references are counted on. -/
def targets (refs : Multiset Stack) : Multiset Addr := refs.filterMap Stack.target

theorem targets_cons (stack : Stack) (refs : Multiset Stack) :
    targets (stack ::ₘ refs) = stack.target.elim 0 ({·}) + targets refs := by
  unfold targets
  cases h : stack.target with
  | none => rw [Multiset.filterMap_cons_none _ _ h, Option.elim_none, zero_add]
  | some a => rw [Multiset.filterMap_cons_some _ _ _ h, Option.elim_some, Multiset.singleton_add]

theorem count_targets (refs : Multiset Stack) (a : Addr) : (targets refs).count a = refs.count (.node a) := by
  induction refs using Multiset.induction with
  | empty => rfl
  | cons stack refs ih =>
    rw [targets_cons, Multiset.count_add, ih]
    cases stack with
    | null => rw [Multiset.count_cons_of_ne (by simp)]; simp [Stack.target]
    | empty => rw [Multiset.count_cons_of_ne (by simp)]; simp [Stack.target]
    | node b =>
      by_cases hab : a = b
      · subst hab
        rw [Multiset.count_cons_self, Stack.target, Option.elim_some, Multiset.count_singleton_self, add_comm]
      · rw [Multiset.count_cons_of_ne (by simpa using hab), Stack.target, Option.elim_some,
          Multiset.count_singleton, if_neg hab, zero_add]

/-- The nodes account for the references held from outside, and their links do not go
round. -/
structure Sound (nodes : Nodes) (refs : Multiset Stack) : Prop where
  accounted : Accounted nodeCounting nodes (targets refs)
  acyclic : Acyclic nodeCounting nodes

/-- A stack that may be read: no node, or a live one. -/
def Live (nodes : Nodes) (stack : Stack) : Prop := ∀ a, stack = .node a → a ∈ nodes

namespace Sound
variable {nodes : Nodes} {refs : Multiset Stack} {stack : Stack}

theorem empty : Sound ∅ 0 := by
  refine ⟨⟨fun k n h => ?_, fun k n h => ?_, fun k h => ?_⟩, ⟨fun _ => 0, fun k n t h => ?_⟩⟩
  · cases h
  · cases h
  · cases h
  · cases h

theorem congr (h : Sound nodes refs) {refs' : Multiset Stack} (ht : targets refs' = targets refs) :
    Sound nodes refs' := ⟨ht ▸ h.accounted, h.acyclic⟩

/-- What is held is live. -/
theorem live (h : Sound nodes refs) (hmem : stack ∈ refs) : Live nodes stack := by
  rintro a rfl
  refine h.accounted.closed a (Multiset.mem_add.mpr (Or.inl ?_))
  rw [← Multiset.count_pos, count_targets, Multiset.count_pos]
  exact hmem

/-- And so is what a live node links to. -/
theorem live_next (h : Sound nodes refs) {n : StackNode} (hread : readNode nodes stack = some n) :
    Live nodes n.next := by
  intro t ht
  cases stack with
  | null => cases hread
  | empty =>
    cases hread
    cases ht
  | node a =>
    refine h.accounted.closed t (Multiset.mem_add.mpr (Or.inr ?_))
    refine (mem_links nodeCounting).mpr ⟨a, n, hread, ?_⟩
    show n.next.target = some t
    rw [ht]
    rfl

theorem live_link (h : Sound nodes refs) {a : Addr} {n : StackNode} (hn : nodes.lookup a = some n) :
    Live nodes n.next :=
  h.live_next (show readNode nodes (.node a) = some n from hn)

theorem read (hlive : Live nodes stack) (hne : stack ≠ .null) : ∃ n, readNode nodes stack = some n := by
  cases stack with
  | null => exact absurd rfl hne
  | empty => exact ⟨_, rfl⟩
  | node a => exact Finmap.mem_iff.mp (hlive a rfl)

theorem retain (h : Sound nodes refs) (hlive : Live nodes stack) :
    ∃ nodes', stackRetain nodes stack = some nodes' ∧ Sound nodes' (stack ::ₘ refs) := by
  rw [stackRetain_eq]
  cases ht : stack.target with
  | none =>
    refine ⟨nodes, rfl, h.congr ?_⟩
    rw [targets_cons, ht, Option.elim_none, zero_add]
  | some a =>
    have hstack : stack = .node a := by
      cases stack with
      | null => cases ht
      | empty => cases ht
      | node b =>
        cases ht
        rfl
    obtain ⟨nodes', hretain, ha, hkept⟩ := h.accounted.retain (hlive a hstack)
    refine ⟨nodes', hretain, ?_, h.acyclic.kept hkept⟩
    rwa [targets_cons, ht, Option.elim_some, Multiset.singleton_add]

theorem release (h : Sound nodes (stack ::ₘ refs)) :
    ∃ nodes', stackRelease nodes stack = some nodes' ∧ Sound nodes' refs := by
  have ha := h.accounted
  rw [targets_cons] at ha
  rw [stackRelease, stackReleaseThrough_eq]
  cases ht : stack.target with
  | none =>
    rw [ht, Option.elim_none, zero_add] at ha
    exact ⟨nodes, rfl, ha, h.acyclic⟩
  | some a =>
    rw [ht, Option.elim_some, Multiset.singleton_add] at ha
    obtain ⟨nodes', hrelease, ha', hkept⟩ := ha.release _ (Nat.le_refl _)
    exact ⟨nodes', hrelease, ha', h.acyclic.kept hkept⟩

/-- A new node on top of a stack that takes over the reference to it. -/
theorem insert (h : Sound nodes (stack ::ₘ refs)) {a : Addr} (ha : a ∉ nodes) (value : UInt64)
    (isTerminal : Bool) : Sound (nodes.insert a ⟨value, stack, 1, isTerminal⟩) (.node a ::ₘ refs) := by
  have hacc := h.accounted
  rw [targets_cons] at hacc
  refine ⟨?_, h.acyclic.alloc hacc ha⟩
  rw [targets_cons, Stack.target, Option.elim_some, Multiset.singleton_add]
  exact hacc.alloc ha rfl

theorem create (h : Sound nodes refs) {a : Addr} (ha : a ∉ nodes) :
    Sound (stackCreate nodes a).1 (.node a ::ₘ refs) := by
  have hnull : Sound nodes (.null ::ₘ refs) :=
    h.congr (by rw [targets_cons, Stack.target, Option.elim_none, zero_add])
  exact hnull.insert ha 0 true

theorem push (h : Sound nodes refs) (hlive : Live nodes stack) {a : Addr} (ha : a ∉ nodes) (value : UInt64) :
    ∃ nodes', stackPush nodes stack value a = some (nodes', .node a) ∧ Sound nodes' (.node a ::ₘ refs) := by
  obtain ⟨nodes', hretain, hsound⟩ := h.retain hlive
  -- The new node is there before its stack is retained; it is not in the way.
  have hcommute : stackRetain (nodes.insert a ⟨value, stack, 1, false⟩) stack =
      some (nodes'.insert a ⟨value, stack, 1, false⟩) ∧ a ∉ nodes' := by
    cases stack with
    | null =>
      cases hretain
      exact ⟨rfl, ha⟩
    | empty =>
      cases hretain
      exact ⟨rfl, ha⟩
    | node b =>
      have hab : a ≠ b := fun hab => ha (hab ▸ hlive b rfl)
      obtain ⟨n, hn⟩ := Finmap.mem_iff.mp (hlive b rfl)
      rw [stackRetain, hn, Option.map_some] at hretain
      cases hretain
      refine ⟨?_, fun hmem => (Finmap.mem_insert.mp hmem).elim hab ha⟩
      rw [stackRetain, Finmap.lookup_insert_of_ne _ hab.symm, hn, Option.map_some,
        Finmap.insert_insert_of_ne _ hab]
  refine ⟨nodes'.insert a ⟨value, stack, 1, false⟩, ?_, hsound.insert hcommute.2 value false⟩
  rw [stackPush, hcommute.1, Option.map_some]

/-- A pop leaves an empty stack alone and hands back its rest otherwise, with a reference
to it. -/
theorem pop (h : Sound nodes refs) (hlive : Live nodes stack) :
    ∃ nodes' rest value isEmpty, stackPop nodes stack = some (nodes', rest, value) ∧
      stackIsEmpty nodes stack = some isEmpty ∧
      Sound nodes' (if isEmpty then refs else rest ::ₘ refs) := by
  unfold stackPop stackIsEmpty
  by_cases hnull : stack = .null
  · rw [if_pos hnull, if_pos hnull]
    exact ⟨nodes, .empty, 0, true, rfl, rfl, h⟩
  rw [if_neg hnull, if_neg hnull]
  obtain ⟨n, hread⟩ := read hlive hnull
  rw [hread, Option.bind_some, Option.map_some]
  by_cases hterminal : n.isTerminal = true
  · rw [if_pos hterminal, hterminal]
    exact ⟨nodes, stack, 0, true, rfl, rfl, h⟩
  · obtain ⟨nodes', hretain, hsound⟩ := h.retain (h.live_next hread)
    rw [if_neg hterminal, hretain, Option.map_some, eq_false_of_ne_true hterminal]
    refine ⟨nodes', n.next.orEmpty, n.value, false, rfl, rfl, hsound.congr ?_⟩
    rw [if_neg Bool.false_ne_true, targets_cons, targets_cons]
    cases n.next with
    | null => rfl
    | empty => rfl
    | node b => rfl

end Sound

end Wasmig
