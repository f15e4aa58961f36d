import Wasmig.Stack.Accounting
import Wasmig.Stack.Calls

/-! Stacks are persistent lists.

A stack denotes the values of its nodes down to a terminal one, `NULL` or the shared
empty stack (`Denotes`). Nodes change in their counts only, so a call leaves alone what a
stack denotes as long as its first node stays; that node stays while the stack is held,
and keeps those behind it (`Denotes.agrees`). `stack_persistent` draws the conclusion for
runs, in which the addresses of freed nodes may be used again. -/
namespace Wasmig
open Base Base.RefCount

/-- The values from the top of a stack down. -/
inductive Denotes (nodes : Nodes) : Stack → List UInt64 → Prop where
  | null : Denotes nodes .null []
  | empty : Denotes nodes .empty []
  | terminal {a : Addr} {n : StackNode} (hn : nodes.lookup a = some n) (hterminal : n.isTerminal = true) :
    Denotes nodes (.node a) []
  | value {a : Addr} {n : StackNode} {vs : List UInt64} (hn : nodes.lookup a = some n)
    (hterminal : n.isTerminal = false) (hnext : Denotes nodes n.next vs) :
    Denotes nodes (.node a) (n.value :: vs)

namespace Denotes
variable {nodes nodes' : Nodes} {refs : Multiset Stack} {stack : Stack} {vs : List UInt64}

theorem unique {ws : List UInt64} (h : Denotes nodes stack vs) (h' : Denotes nodes stack ws) : vs = ws := by
  induction h generalizing ws with
  | null => cases h'; rfl
  | empty => cases h'; rfl
  | terminal hn hterminal =>
    cases h' with
    | terminal => rfl
    | value hn' hterminal' =>
      rw [hn] at hn'
      cases hn'
      rw [hterminal] at hterminal'
      cases hterminal'
  | value hn hterminal hnext ih =>
    cases h' with
    | terminal hn' hterminal' =>
      rw [hn] at hn'
      cases hn'
      rw [hterminal] at hterminal'
      cases hterminal'
    | value hn' hterminal' hnext' =>
      rw [hn] at hn'
      cases hn'
      rw [ih hnext']

/-- A live stack denotes a list: links do not go round, and lead to live nodes. -/
theorem exists_of_live (h : Sound nodes refs) (hlive : Live nodes stack) : ∃ vs, Denotes nodes stack vs := by
  cases stack with
  | null => exact ⟨[], .null⟩
  | empty => exact ⟨[], .empty⟩
  | node a =>
    apply h.acyclic.induction (P := fun a => ∃ vs, Denotes nodes (.node a) vs) _ (hlive a rfl)
    intro a n hn ih
    cases hterminal : n.isTerminal with
    | true => exact ⟨[], .terminal hn hterminal⟩
    | false =>
      have hnext : ∃ vs, Denotes nodes n.next vs := by
        have hlive' : Live nodes n.next := h.live_link hn
        cases hlink : n.next with
        | null => exact ⟨[], .null⟩
        | empty => exact ⟨[], .empty⟩
        | node t => exact ih t (congrArg Stack.target hlink) (hlive' t hlink)
      obtain ⟨vs, hvs⟩ := hnext
      exact ⟨n.value :: vs, .value hn hterminal hvs⟩

/-- A stack that is live before and after nodes changed in their counts, came and went
denotes what it did. -/
theorem agrees (h : Denotes nodes stack vs) (hagrees : Agrees nodeCounting nodes nodes')
    (hsound : Sound nodes' refs) (hlive : Live nodes' stack) : Denotes nodes' stack vs := by
  induction h with
  | null => exact .null
  | empty => exact .empty
  | @terminal a n hn hterminal =>
    obtain ⟨n', hn'⟩ := Finmap.mem_iff.mp (hlive a rfl)
    obtain ⟨i, rfl⟩ := hagrees a n n' hn hn'
    exact terminal (n := nodeCounting.recount n i) hn' hterminal
  | @value a n vs hn hterminal hnext ih =>
    obtain ⟨n', hn'⟩ := Finmap.mem_iff.mp (hlive a rfl)
    obtain ⟨i, rfl⟩ := hagrees a n n' hn hn'
    have hlive' := hsound.live_link hn'
    exact value (n := nodeCounting.recount n i) hn' hterminal (ih hlive')

theorem orEmpty (h : Denotes nodes stack vs) : Denotes nodes stack.orEmpty vs := by
  cases h with
  | null => exact .empty
  | empty => exact .empty
  | terminal hn hterminal => exact .terminal hn hterminal
  | value hn hterminal hnext => exact .value hn hterminal hnext

end Denotes

/-! ### What the operations say -/

/-- The operations on a stack are those on the list `vs`. -/
structure Behaves (nodes : Nodes) (stack : Stack) (vs : List UInt64) : Prop where
  isEmpty : stackIsEmpty nodes stack = some vs.isEmpty
  top : stackTop nodes stack = some (vs.headD 0)
  size : stackSize nodes stack = some vs.length
  push : ∀ value a, a ∉ nodes → ∃ nodes' top, stackPush nodes stack value a = some (nodes', top) ∧
    Denotes nodes' top (value :: vs)
  pop : ∃ nodes' rest, stackPop nodes stack = some (nodes', rest, vs.headD 0) ∧ Denotes nodes' rest vs.tail

namespace Denotes
variable {nodes : Nodes} {refs : Multiset Stack} {stack : Stack} {vs : List UInt64}

theorem isEmpty (h : Denotes nodes stack vs) : stackIsEmpty nodes stack = some vs.isEmpty := by
  cases h with
  | null => rfl
  | empty => rfl
  | terminal hn hterminal => simp [stackIsEmpty, readNode, hn, hterminal]
  | value hn hterminal => simp [stackIsEmpty, readNode, hn, hterminal]

theorem top (h : Denotes nodes stack vs) : stackTop nodes stack = some (vs.headD 0) := by
  cases h with
  | null => rfl
  | empty => rfl
  | terminal hn hterminal => simp [stackTop, readNode, hn, hterminal]
  | value hn hterminal => simp [stackTop, readNode, hn, hterminal]

/-- The loop with fuel for the depth of the stack. -/
theorem sizeLoop {depth : Addr → Nat} (hpos : ∀ a ∈ nodes, 0 < depth a)
    (hdepth : ∀ a n t, nodes.lookup a = some n → n.next.target = some t → depth t < depth a)
    (h : Denotes nodes stack vs) {fuel : Nat} (hfuel : ∀ a, stack = .node a → depth a ≤ fuel) (count : Nat) :
    stackSizeLoop fuel nodes stack count = some (count + vs.length) := by
  induction h generalizing fuel count with
  | null => cases fuel <;> rfl
  | empty => cases fuel <;> rfl
  | @terminal a n hn hterminal =>
    have hle := hfuel a rfl
    have hlt := hpos a (Finmap.mem_of_lookup_eq_some hn)
    obtain ⟨fuel, rfl⟩ : ∃ k, fuel = k + 1 := ⟨fuel - 1, by omega⟩
    rw [stackSizeLoop, hn, Option.bind_some, if_pos hterminal]
    rfl
  | @value a n vs hn hterminal hnext ih =>
    have hle := hfuel a rfl
    have hlt := hpos a (Finmap.mem_of_lookup_eq_some hn)
    obtain ⟨fuel, rfl⟩ : ∃ k, fuel = k + 1 := ⟨fuel - 1, by omega⟩
    have hnext' : ∀ t, n.next = .node t → depth t ≤ fuel := by
      intro t ht
      have hlink := hdepth a n t hn (congrArg Stack.target ht)
      omega
    rw [stackSizeLoop, hn, Option.bind_some, if_neg (by simp [hterminal]), ih hnext', List.length_cons]
    congr 1
    omega

theorem size (hsound : Sound nodes refs) (h : Denotes nodes stack vs) :
    stackSize nodes stack = some vs.length := by
  obtain ⟨depth, hle, hpos, hdepth⟩ := hsound.acyclic.exists_depth
  rw [stackSize, h.sizeLoop hpos hdepth (fun a _ => hle a), Nat.zero_add]

end Denotes

namespace Denotes
variable {nodes : Nodes} {refs : Multiset Stack} {stack : Stack} {vs : List UInt64}

/-- A pushed node is not in the way of the stack below it. -/
theorem push (hsound : Sound nodes refs) (hlive : Live nodes stack) (h : Denotes nodes stack vs) {a : Addr}
    (ha : a ∉ nodes) (value : UInt64) :
    ∃ nodes' top, stackPush nodes stack value a = some (nodes', top) ∧ Denotes nodes' top (value :: vs) := by
  obtain ⟨nodes', hpush, hsound'⟩ := hsound.push hlive ha value
  refine ⟨nodes', .node a, hpush, ?_⟩
  obtain ⟨n, hn⟩ := Finmap.mem_iff.mp (hsound'.live (Multiset.mem_cons_self ..) a rfl)
  have hnew : ∃ i, n = {value := value, next := stack, refCount := i, isTerminal := false} := by
    obtain ⟨nodes₁, hretain, heq⟩ := Option.map_eq_some_iff.mp hpush
    cases heq
    obtain ⟨m, i, hm, rfl⟩ := stackRetain_kept hretain a n hn
    rw [Finmap.lookup_insert] at hm
    cases hm
    exact ⟨i, rfl⟩
  obtain ⟨i, rfl⟩ := hnew
  have hbelow : Live nodes' stack := hsound'.live_link hn
  exact .value hn rfl (h.agrees (stackPush_agrees ha hpush) hsound' hbelow)

theorem pop (hsound : Sound nodes refs) (hlive : Live nodes stack) (h : Denotes nodes stack vs) :
    ∃ nodes' rest, stackPop nodes stack = some (nodes', rest, vs.headD 0) ∧ Denotes nodes' rest vs.tail := by
  cases h with
  | null => exact ⟨nodes, .empty, rfl, .empty⟩
  | empty => exact ⟨nodes, .empty, rfl, .empty⟩
  | @terminal a n hn hterminal =>
    refine ⟨nodes, .node a, ?_, .terminal hn hterminal⟩
    simp [stackPop, readNode, hn, hterminal]
  | @value a n vs hn hterminal hnext =>
    obtain ⟨nodes', hretain, hsound'⟩ := hsound.retain (hsound.live_link hn)
    have hrest : Denotes nodes' n.next vs :=
      hnext.agrees (stackRetain_kept hretain).agrees hsound' (hsound'.live (Multiset.mem_cons_self ..))
    refine ⟨nodes', n.next.orEmpty, ?_, hrest.orEmpty⟩
    simp [stackPop, readNode, hn, hterminal, hretain]

theorem behaves (hsound : Sound nodes refs) (hlive : Live nodes stack) (h : Denotes nodes stack vs) :
    Behaves nodes stack vs where
  isEmpty := h.isEmpty
  top := h.top
  size := h.size hsound
  push value _ ha := h.push hsound hlive ha value
  pop := h.pop hsound hlive

/-- A new root is an empty list. -/
theorem create (nodes : Nodes) (a : Addr) : Denotes (stackCreate nodes a).1 (stackCreate nodes a).2 [] :=
  .terminal (Finmap.lookup_insert _) rfl

end Denotes

/-! ### Runs -/

/-- One call leaves what a stack denotes alone, unless it frees the stack. -/
theorem denotes_step {c c' : Client} {call : Call} (haccounted : Accounted c.process c.owned)
    (hstep : Client.Step c call c') {stack : Stack} {vs : List UInt64} (h : Denotes c.process.nodes stack vs)
    (hlive : Live c'.process.nodes stack) : Denotes c'.process.nodes stack vs :=
  h.agrees (afterCall_next hstep.1 hstep.2).agrees (accounted_step c call c' hstep haccounted) hlive

/-- While a stack is held it denotes one and the same list, whatever calls are made and
wherever nodes are allocated, and the operations on the stack are those on the list. -/
theorem stack_persistent {before after : List (Client × Call)} {c last : Client} {stack : Stack}
    (hbefore : Run Client.Step Client.start before c) (hafter : Run Client.Step c after last)
    (hheld : Run.Throughout (fun s => s.Holds stack) after last) :
    ∃ vs, Run.Throughout
      (fun s => (∀ ws, Denotes s.process.nodes stack ws ↔ ws = vs) ∧ Behaves s.process.nodes stack vs)
      after last := by
  have haccounted := accounted_run hbefore
  have hholds := hheld.head hafter
  obtain ⟨vs, hvs⟩ := Denotes.exists_of_live haccounted (haccounted.live hholds)
  refine ⟨vs, ?_⟩
  have hkept : Run.Throughout (fun s => Accounted s.process s.owned ∧ s.Holds stack ∧
      Denotes s.process.nodes stack vs) after last := by
    refine Run.keeps_while ?_ hafter ⟨haccounted, hholds, hvs⟩ hheld
    rintro s call s' hstep hholds ⟨haccounted, -, hvs⟩
    have haccounted' := accounted_step s call s' hstep haccounted
    exact ⟨haccounted', hholds, denotes_step haccounted hstep hvs (haccounted'.live hholds)⟩
  apply hkept.imp
  intro s h
  obtain ⟨haccounted, hholds, hvs⟩ := h
  constructor
  · intro ws
    constructor
    · intro hws
      exact hws.unique hvs
    · rintro rfl
      exact hvs
  · exact hvs.behaves haccounted (haccounted.live hholds)

/-- The first of two stacks that share a node, before and after the second is pushed. -/
theorem stack_persistent_sharing :
    ∃ vs, Run.Throughout
      (fun s => (∀ ws, Denotes s.process.nodes (.node 1) ws ↔ ws = vs) ∧ Behaves s.process.nodes (.node 1) vs)
      [(pushedClient, Call.push (.node 1) 9 2)] sharingClient := by
  refine stack_persistent (.cons pushedClient_step (.nil _)) (.cons sharingClient_step (.nil _)) ?_
  constructor
  · intro p hp
    rw [List.mem_singleton.mp hp]
    exact Or.inl (Multiset.mem_singleton_self _)
  · exact Or.inl (Multiset.mem_cons_of_mem (Multiset.mem_singleton_self _))

end Wasmig
