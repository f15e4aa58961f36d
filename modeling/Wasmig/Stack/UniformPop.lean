import Wasmig.Stack.Iteration

/-! A client that takes every stack `wasmig_stack_pop` returns for a new reference.

That is what it is, except for an empty stack of `wasmig_stack_create`: such a root is
counted, and handed back without a reference of its own. `uniformPop_iff` says that these
roots are exactly where it goes wrong, and that a loop of pops gets to one just when its
stack ends in one. -/
namespace Wasmig
open Base Base.RefCount

/-- An empty stack that was allocated. -/
def IsRoot (nodes : Nodes) (stack : Stack) : Prop :=
  ∃ a n, stack = .node a ∧ nodes.lookup a = some n ∧ n.isTerminal = true

/-- A stack whose last node is an empty one that was allocated. -/
inductive EndsInRoot (nodes : Nodes) : Stack → Prop where
  | root {a : Addr} {n : StackNode} (hn : nodes.lookup a = some n) (hterminal : n.isTerminal = true) :
    EndsInRoot nodes (.node a)
  | value {a : Addr} {n : StackNode} (hn : nodes.lookup a = some n) (hterminal : n.isTerminal = false)
    (hnext : EndsInRoot nodes n.next) : EndsInRoot nodes (.node a)

/-- `t = wasmig_stack_pop(s, &v); wasmig_stack_destroy(s); s = t;`, as often as that. -/
def popLoop : Nat → Nodes → Stack → Option (Nodes × Stack)
  | 0, nodes, stack => some (nodes, stack)
  | count + 1, nodes, stack =>
    (stackPop nodes stack).bind fun r =>
      (stackDestroy r.1 stack).bind fun nodes => popLoop count nodes r.2.1

namespace Client

/-- The client after a call, if it owns what a pop returns whatever that is. -/
def uniformNext (c : Client) : Call → Option Client
  | .pop stack =>
    (stackPop c.process.nodes stack).map fun r => ⟨{c.process with nodes := r.1}, r.2.1 ::ₘ c.owned⟩
  | call => c.next call

def UniformStep (c : Client) (call : Call) (c' : Client) : Prop := c.Allowed call ∧ c.uniformNext call = some c'

/-- A call that is not the pop of an allocated root. -/
def SparesRoots (c : Client) (call : Call) : Prop := ∀ stack, call = .pop stack → ¬ IsRoot c.process.nodes stack

theorem uniformNext_eq (c : Client) {call : Call} (h : ∀ stack, call ≠ .pop stack) :
    c.uniformNext call = c.next call := by
  cases call with
  | pop stack => exact absurd rfl (h stack)
  | _ => rfl

end Client

/-! ### Pops -/

/-- What a pop returns has a reference, unless it is an allocated root. -/
theorem Sound.pop_reference {nodes : Nodes} {refs : Multiset Stack} {stack : Stack} (h : Sound nodes refs)
    (hlive : Live nodes stack) (hroot : ¬ IsRoot nodes stack) :
    ∃ nodes' rest value, stackPop nodes stack = some (nodes', rest, value) ∧ Sound nodes' (rest ::ₘ refs) := by
  cases stack with
  | null =>
    refine ⟨nodes, .empty, 0, rfl, h.congr ?_⟩
    rw [targets_cons, Stack.target, Option.elim_none, zero_add]
  | empty =>
    refine ⟨nodes, .empty, 0, rfl, h.congr ?_⟩
    rw [targets_cons, Stack.target, Option.elim_none, zero_add]
  | node a =>
    obtain ⟨nodes', rest, value, isEmpty, hpop, hempty, hsound⟩ := h.pop hlive
    obtain ⟨n, hn⟩ := Finmap.mem_iff.mp (hlive a rfl)
    have hread : readNode nodes (.node a) = some n := hn
    rw [stackIsEmpty, if_neg Stack.noConfusion, hread, Option.map_some] at hempty
    cases isEmpty with
    | true => exact absurd ⟨a, n, rfl, hn, Option.some.inj hempty⟩ hroot
    | false => exact ⟨nodes', rest, value, hpop, hsound⟩

theorem Accounted.uniformNext {c : Client} (h : Accounted c.process c.owned) {call : Call} (ha : c.Allowed call)
    (hspares : c.SparesRoots call) :
    ∃ c', c.uniformNext call = some c' ∧ Accounted c'.process c'.owned := by
  by_cases hpop : ∃ stack, call = .pop stack
  · obtain ⟨stack, rfl⟩ := hpop
    obtain ⟨nodes, rest, value, hpop, hsound⟩ := Sound.pop_reference h (h.live ha) (hspares stack rfl)
    refine ⟨_, by rw [Client.uniformNext, hpop, Option.map_some], ?_⟩
    exact hsound.congr (congrArg targets (Multiset.cons_add ..))
  · rw [c.uniformNext_eq fun stack heq => hpop ⟨stack, heq⟩]
    exact h.next ha

theorem accounted_uniformStep (c : Client) (call : Call) (c' : Client) (hstep : Client.UniformStep c call c')
    (h : Accounted c.process c.owned) (hspares : c.SparesRoots call) : Accounted c'.process c'.owned := by
  obtain ⟨hallowed, hnext⟩ := hstep
  obtain ⟨c'', hnext', haccounted⟩ := h.uniformNext hallowed hspares
  rw [hnext] at hnext'
  cases hnext'
  exact haccounted

theorem accounted_uniformRun {c last : Client} {steps : List (Client × Call)}
    (hrun : Run Client.UniformStep c steps last) (h : Accounted c.process c.owned)
    (hspares : ∀ s ∈ steps, s.1.SparesRoots s.2) : Accounted last.process last.owned :=
  (Run.invariant accounted_uniformStep hrun h hspares).2

/-! ### Nothing left -/

/-- A run that pops no allocated root leads from one client to the other. -/
def LeadsTo (c last : Client) : Prop :=
  ∃ steps, Run Client.UniformStep c steps last ∧ ∀ s ∈ steps, s.1.SparesRoots s.2

namespace LeadsTo
variable {c c' last : Client}

theorem refl (c : Client) : LeadsTo c c := ⟨[], .nil c, fun _ hs => absurd hs List.not_mem_nil⟩

theorem trans (h : LeadsTo c c') (h' : LeadsTo c' last) : LeadsTo c last := by
  obtain ⟨steps, hrun, hspares⟩ := h
  obtain ⟨steps', hrun', hspares'⟩ := h'
  refine ⟨steps ++ steps', hrun.append hrun', ?_⟩
  intro s hs
  rcases List.mem_append.mp hs with hs | hs
  · exact hspares s hs
  · exact hspares' s hs

/-- One call that is not a pop. -/
theorem single {call : Call} (hcall : ∀ stack, call ≠ .pop stack) (hstep : Client.Step c call c') :
    LeadsTo c c' := by
  refine ⟨[(c, call)], .cons ⟨hstep.1, ?_⟩ (.nil c'), ?_⟩
  · rw [c.uniformNext_eq hcall]
    exact hstep.2
  · intro s hs stack heq
    rw [List.mem_singleton.mp hs] at heq
    exact absurd heq (hcall stack)

end LeadsTo

/-- The client destroys the stacks that the nodes account for. -/
theorem leadsTo_destroyed {owned extra : Multiset Stack} {c : Client} (howned : c.owned = owned + extra)
    (h : Accounted c.process owned) : ∃ last, LeadsTo c last ∧ last.owned = extra ∧ Accounted last.process 0 := by
  induction owned using Multiset.induction generalizing c with
  | empty => exact ⟨c, .refl c, by rw [howned, zero_add], h⟩
  | cons stack owned ih =>
    obtain ⟨nodes, hrelease, hsound⟩ := (h.erase (Or.inl (Multiset.mem_cons_self ..))).release
    rw [Multiset.erase_cons_head] at hsound
    have hmem : stack ∈ c.owned := by
      rw [howned, Multiset.cons_add]
      exact Multiset.mem_cons_self ..
    have hstep : Client.Step c (.destroy stack) ⟨{c.process with nodes := nodes}, c.owned.erase stack⟩ := by
      refine ⟨Or.inl hmem, ?_⟩
      rw [Client.next, stackDestroy, hrelease, Option.map_some]
    have howned' : c.owned.erase stack = owned + extra := by
      rw [howned, Multiset.cons_add, Multiset.erase_cons_head]
    obtain ⟨last, hlast, hextra, haccounted⟩ := ih (c := ⟨{c.process with nodes := nodes}, _⟩) howned' hsound
    exact ⟨last, (LeadsTo.single (fun _ => Call.noConfusion) hstep).trans hlast, hextra, haccounted⟩

/-- And its iterators. -/
theorem leadsTo_noIterators {c : Client} (h : Accounted c.process 0) :
    ∃ last, LeadsTo c last ∧ last.owned = c.owned ∧ Accounted last.process 0 ∧ last.process.iterators = ∅ := by
  induction hcard : c.process.iterators.keys.card generalizing c with
  | zero => exact ⟨c, .refl c, rfl, h, eq_empty_of_card hcard⟩
  | succ count ih =>
    obtain ⟨it, hit⟩ := Finset.card_pos.mp (show 0 < c.process.iterators.keys.card by omega)
    have hthere : Client.There c.process.iterators (some it) := by
      rintro a ⟨⟩
      exact Finmap.mem_keys.mp hit
    obtain ⟨p, hdestroy, haccounted⟩ := h.iteratorDestroy hthere
    have hstep : Client.Step c (.iteratorDestroy (some it)) ⟨p, c.owned⟩ :=
      ⟨hthere, by rw [Client.next, hdestroy, Option.map_some]⟩
    have hcard' : p.iterators.keys.card = count := by
      obtain ⟨current, -, hdestroy⟩ := Option.bind_eq_some_iff.mp hdestroy
      obtain ⟨nodes, -, rfl⟩ := Option.map_eq_some_iff.mp hdestroy
      rw [Finmap.keys_erase, Finset.card_erase_of_mem hit, hcard, Nat.add_sub_cancel]
    obtain ⟨last, hlast, howned, haccounted', hnone⟩ := ih (c := ⟨p, c.owned⟩) haccounted hcard'
    exact ⟨last, (LeadsTo.single (fun _ => Call.noConfusion) hstep).trans hlast, howned, haccounted', hnone⟩

/-- And its maps. -/
theorem leadsTo_noMaps {c : Client} (h : Accounted c.process 0) (hiterators : c.process.iterators = ∅) :
    ∃ last, LeadsTo c last ∧ last.owned = c.owned ∧ Accounted last.process 0 ∧ last.process.iterators = ∅ ∧
      last.process.maps = ∅ := by
  induction hcard : c.process.maps.keys.card generalizing c with
  | zero => exact ⟨c, .refl c, rfl, h, hiterators, eq_empty_of_card hcard⟩
  | succ count ih =>
    obtain ⟨m, hm⟩ := Finset.card_pos.mp (show 0 < c.process.maps.keys.card by omega)
    obtain ⟨pairs, hpairs⟩ := Finmap.mem_iff.mp (Finmap.mem_keys.mp hm)
    have hthere : Client.There c.process.maps (some m) := by
      rintro a ⟨⟩
      exact Finmap.mem_keys.mp hm
    have horder : ∀ a pairs', some m = some a → c.process.maps.lookup a = some pairs' →
        pairs.keys.toList.Nodup ∧ ∀ key, key ∈ pairs.keys.toList ↔ key ∈ pairs' := by
      rintro a pairs' ⟨⟩ hpairs'
      rw [hpairs] at hpairs'
      cases hpairs'
      exact ⟨Finset.nodup_toList _, fun key => by rw [Finset.mem_toList, Finmap.mem_keys]⟩
    obtain ⟨p, hdestroy, haccounted⟩ := h.mapDestroy hthere horder
    have hstep : Client.Step c (.mapDestroy (some m) pairs.keys.toList) ⟨p, c.owned⟩ :=
      ⟨⟨hthere, horder⟩, by rw [Client.next, hdestroy, Option.map_some]⟩
    have hmaps : p.maps = c.process.maps.erase m := (stackStateMapDestroy_spec hdestroy).1.maps
    have hcard' : p.maps.keys.card = count := by
      rw [hmaps, Finmap.keys_erase, Finset.card_erase_of_mem hm, hcard, Nat.add_sub_cancel]
    have hiterators' : p.iterators = ∅ := (stackStateMapDestroy_spec hdestroy).2.trans hiterators
    obtain ⟨last, hlast, howned, hrest⟩ := ih (c := ⟨p, c.owned⟩) haccounted hiterators' hcard'
    exact ⟨last, (LeadsTo.single (fun _ => Call.noConfusion) hstep).trans hlast, howned, hrest⟩

/-- What the nodes do not account for is left when all nodes are gone. -/
theorem leadsTo_noNodes {owned extra : Multiset Stack} {c : Client} (howned : c.owned = owned + extra)
    (h : Accounted c.process owned) : ∃ last, LeadsTo c last ∧ last.owned = extra ∧ last.process.nodes = ∅ := by
  obtain ⟨c₁, hc₁, hextra, h₁⟩ := leadsTo_destroyed howned h
  obtain ⟨c₂, hc₂, hextra₂, h₂, hiterators⟩ := leadsTo_noIterators h₁
  obtain ⟨c₃, hc₃, hextra₃, h₃, hiterators₃, hmaps⟩ := leadsTo_noMaps h₂ hiterators
  refine ⟨c₃, (hc₁.trans hc₂).trans hc₃, by rw [hextra₃, hextra₂, hextra], ?_⟩
  unfold Accounted at h₃
  rw [hiterators₃, hmaps, held_empty, slots_empty, add_zero, add_zero] at h₃
  exact h₃.accounted.no_leak h₃.acyclic

/-! ### The loop -/

namespace EndsInRoot
variable {nodes nodes' : Nodes} {stack : Stack}

theorem of_isRoot (h : IsRoot nodes stack) : EndsInRoot nodes stack := by
  obtain ⟨a, n, rfl, hn, hterminal⟩ := h
  exact .root hn hterminal

/-- Nodes that are kept end where they did. -/
theorem of_kept (h : EndsInRoot nodes' stack) (hkept : Kept nodeCounting nodes nodes') : EndsInRoot nodes stack := by
  induction h with
  | root hn hterminal =>
    obtain ⟨n, i, hn', rfl⟩ := hkept _ _ hn
    exact .root hn' hterminal
  | value hn hterminal hnext ih =>
    obtain ⟨n, i, hn', rfl⟩ := hkept _ _ hn
    exact .value hn' hterminal ih

theorem orEmpty_iff : EndsInRoot nodes stack.orEmpty ↔ EndsInRoot nodes stack := by
  cases stack with
  | null =>
    constructor
    · intro h
      cases h
    · intro h
      cases h
  | empty => exact Iff.rfl
  | node a => exact Iff.rfl

end EndsInRoot

/-- What a pop returns, unless there is nothing to pop: the stack behind the top node. -/
theorem stackPop_value {nodes : Nodes} {a : Addr} {n : StackNode} (hn : nodes.lookup a = some n)
    (hterminal : n.isTerminal = false) :
    stackPop nodes (.node a) = (stackRetain nodes n.next).map fun nodes => (nodes, n.next.orEmpty, n.value) := by
  have hread : readNode nodes (.node a) = some n := hn
  rw [stackPop, if_neg Stack.noConfusion, hread, Option.bind_some, if_neg (by simp [hterminal])]

/-- One round of the loop, unless it is about an allocated root: the reference to the stack has
become one to the rest. -/
theorem Sound.popRound {nodes : Nodes} {refs : Multiset Stack} {stack : Stack} (h : Sound nodes (stack ::ₘ refs))
    (hroot : ¬ IsRoot nodes stack) :
    ∃ nodes₁ nodes₂ rest value, stackPop nodes stack = some (nodes₁, rest, value) ∧
      stackDestroy nodes₁ stack = some nodes₂ ∧ Sound nodes₂ (rest ::ₘ refs) ∧ Kept nodeCounting nodes nodes₂ := by
  obtain ⟨nodes₁, rest, value, hpop, hsound₁⟩ := h.pop_reference (h.live (Multiset.mem_cons_self ..)) hroot
  rw [Multiset.cons_swap] at hsound₁
  obtain ⟨nodes₂, hrelease, hsound₂⟩ := hsound₁.release
  exact ⟨nodes₁, nodes₂, rest, value, hpop, hrelease, hsound₂,
    (stackPop_kept hpop).trans (stackRelease_kept hrelease)⟩

/-- The rest of a stack ends where the stack does. -/
theorem endsInRoot_rest {nodes nodes' : Nodes} {stack rest : Stack} {value : UInt64}
    (hpop : stackPop nodes stack = some (nodes', rest, value)) (hrest : EndsInRoot nodes rest) :
    EndsInRoot nodes stack := by
  cases stack with
  | null =>
    cases hpop
    cases hrest
  | empty =>
    cases hpop
    cases hrest
  | node a =>
    rw [stackPop, if_neg Stack.noConfusion] at hpop
    obtain ⟨n, hn, hpop⟩ := Option.bind_eq_some_iff.mp hpop
    split at hpop
    · cases hpop
      exact hrest
    · rename_i hterminal
      obtain ⟨nodes₁, -, heq⟩ := Option.map_eq_some_iff.mp hpop
      cases heq
      exact .value hn (eq_false_of_ne_true hterminal) (EndsInRoot.orEmpty_iff.mp hrest)

/-- A stack that does not end in an allocated root may be popped on and on. -/
theorem popLoop_safe (count : Nat) {nodes : Nodes} {refs : Multiset Stack} {stack : Stack}
    (h : Sound nodes (stack ::ₘ refs)) (hends : ¬ EndsInRoot nodes stack) :
    ∃ r, popLoop count nodes stack = some r := by
  induction count generalizing nodes stack with
  | zero => exact ⟨_, rfl⟩
  | succ count ih =>
    have hroot : ¬ IsRoot nodes stack := fun hroot => hends (.of_isRoot hroot)
    obtain ⟨nodes₁, nodes₂, rest, value, hpop, hdestroy, hsound, hkept⟩ := h.popRound hroot
    have hends' : ¬ EndsInRoot nodes₂ rest := fun hrest => hends (endsInRoot_rest hpop (hrest.of_kept hkept))
    obtain ⟨r, hr⟩ := ih hsound hends'
    refine ⟨r, ?_⟩
    rw [popLoop, hpop, Option.bind_some, hdestroy, Option.bind_some, hr]

/-- Releasing a node frees it or takes one from its count. -/
theorem stackDestroy_node {nodes nodes' : Nodes} {a : Addr} {n : StackNode} (hn : nodes.lookup a = some n)
    (h : stackDestroy nodes (.node a) = some nodes') :
    a ∉ nodes' ∨ nodes' = nodes.insert a {n with refCount := n.refCount - 1} ∧ 0 < n.refCount - 1 := by
  have hcard : 0 < nodes.keys.card :=
    Finset.card_pos.mpr ⟨a, Finmap.mem_keys.mpr (Finmap.mem_of_lookup_eq_some hn)⟩
  obtain ⟨fuel, hfuel⟩ : ∃ k, nodes.keys.card = k + 1 := ⟨nodes.keys.card - 1, by omega⟩
  rw [stackDestroy, stackRelease, hfuel, stackReleaseThrough, hn, Option.bind_some] at h
  dsimp only at h
  split at h
  · obtain ⟨nodes₁, -, h⟩ := Option.bind_eq_some_iff.mp h
    unfold free at h
    split at h
    · cases h
      exact Or.inl Finmap.notMem_erase_self
    · cases h
  · rename_i hcount
    cases h
    exact Or.inr ⟨rfl, Int.lt_of_not_ge hcount⟩

/-- At an allocated root a round takes one from its count, or the loop soon reads it freed. -/
theorem popLoop_rootRound {nodes : Nodes} {a : Addr} {n : StackNode} (hn : nodes.lookup a = some n)
    (hterminal : n.isTerminal = true) :
    (∃ rounds, popLoop rounds nodes (.node a) = none) ∨ 0 < n.refCount - 1 ∧
      ∀ rounds, popLoop (rounds + 1) nodes (.node a) =
        popLoop rounds (nodes.insert a {n with refCount := n.refCount - 1}) (.node a) := by
  have hread : readNode nodes (.node a) = some n := hn
  have hround : ∀ rounds, popLoop (rounds + 1) nodes (.node a) =
      (stackDestroy nodes (.node a)).bind fun nodes => popLoop rounds nodes (.node a) := by
    intro rounds
    rw [popLoop, stackPop, if_neg Stack.noConfusion, hread, Option.bind_some, if_pos hterminal,
      Option.bind_some]
  cases hdestroy : stackDestroy nodes (.node a) with
  | none => exact Or.inl ⟨1, by rw [hround, hdestroy, Option.bind_none]⟩
  | some nodes' =>
    rcases stackDestroy_node hn hdestroy with hgone | ⟨rfl, hleft⟩
    · have hread' : readNode nodes' (.node a) = none := Finmap.lookup_eq_none.mpr hgone
      refine Or.inl ⟨2, ?_⟩
      rw [hround, hdestroy, Option.bind_some, popLoop, stackPop, if_neg Stack.noConfusion, hread']
      rfl
    · refine Or.inr ⟨hleft, fun rounds => ?_⟩
      rw [hround, hdestroy, Option.bind_some]

/-- However many references there are to an allocated root, the loop uses them up. -/
theorem popLoop_root {a : Addr} (count : Nat) {nodes : Nodes} {n : StackNode} (hn : nodes.lookup a = some n)
    (hterminal : n.isTerminal = true) (hcount : n.refCount ≤ count) :
    ∃ rounds, popLoop rounds nodes (.node a) = none := by
  induction count generalizing nodes n with
  | zero =>
    rcases popLoop_rootRound hn hterminal with hnone | ⟨hleft, -⟩
    · exact hnone
    · omega
  | succ count ih =>
    rcases popLoop_rootRound hn hterminal with hnone | ⟨hleft, hround⟩
    · exact hnone
    · have hcount' : n.refCount - 1 ≤ count := by omega
      obtain ⟨rounds, hrounds⟩ := ih (n := {n with refCount := n.refCount - 1}) (Finmap.lookup_insert _) hterminal
        hcount'
      exact ⟨rounds + 1, by rw [hround, hrounds]⟩

/-- A stack that ends in an allocated root may not. -/
theorem popLoop_unsafe {nodes₀ nodes : Nodes} {refs : Multiset Stack} {stack : Stack}
    (hends : EndsInRoot nodes₀ stack) (hagrees : Agrees nodeCounting nodes₀ nodes)
    (h : Sound nodes (stack ::ₘ refs)) : ∃ rounds, popLoop rounds nodes stack = none := by
  induction hends generalizing nodes with
  | @root a n hn hterminal =>
    obtain ⟨n', hn'⟩ := Finmap.mem_iff.mp (h.live (Multiset.mem_cons_self ..) a rfl)
    obtain ⟨i, rfl⟩ := hagrees a n n' hn hn'
    exact popLoop_root i.toNat hn' hterminal (Int.self_le_toNat i)
  | @value a n hn hterminal hnext ih =>
    obtain ⟨n', hn'⟩ := Finmap.mem_iff.mp (h.live (Multiset.mem_cons_self ..) a rfl)
    obtain ⟨i, rfl⟩ := hagrees a n n' hn hn'
    have hterminal' : (nodeCounting.recount n i).isTerminal = false := hterminal
    have hroot : ¬ IsRoot nodes (.node a) := by
      rintro ⟨b, m, heq, hm, hroot⟩
      cases heq
      rw [hn'] at hm
      cases hm
      rw [hterminal'] at hroot
      cases hroot
    obtain ⟨nodes₁, nodes₂, rest, value, hpop, hdestroy, hsound, hkept⟩ := h.popRound hroot
    have hrest : rest = n.next.orEmpty := by
      have hpop' := hpop
      rw [stackPop_value hn' hterminal'] at hpop'
      obtain ⟨nodes', -, heq⟩ := Option.map_eq_some_iff.mp hpop'
      cases heq
      rfl
    -- A link to `NULL` does not lead to an allocated root.
    have hlink : n.next.orEmpty = n.next := by
      cases hlink : n.next with
      | null =>
        rw [hlink] at hnext
        cases hnext
      | empty => rfl
      | node b => rfl
    rw [hrest, hlink] at hsound
    obtain ⟨rounds, hrounds⟩ := ih (hagrees.kept hkept) hsound
    refine ⟨rounds + 1, ?_⟩
    rw [popLoop, hpop, Option.bind_some, hdestroy, Option.bind_some, hrest, hlink, hrounds]

/-! ### Where pops are safe -/

/-- After the pop the client may destroy the stack and the rest, in any order and with other calls
in between: no freed node is used in a run from there that pops no allocated root. -/
def PopsSafely (c : Client) (stack : Stack) : Prop :=
  ∃ popped, Client.UniformStep c (.pop stack) popped ∧
    ∀ last, LeadsTo popped last → ∀ call, last.Allowed call → ∃ c', last.uniformNext call = some c'

/-- A call that pops an allocated root uses no freed node itself. -/
theorem Accounted.uniformNext_exists {c : Client} (h : Accounted c.process c.owned) {call : Call}
    (ha : c.Allowed call) : ∃ c', c.uniformNext call = some c' := by
  by_cases hpop : ∃ stack, call = .pop stack
  · obtain ⟨stack, rfl⟩ := hpop
    obtain ⟨nodes, rest, value, isEmpty, hpop, -, -⟩ := Sound.pop h (h.live ha)
    exact ⟨_, by rw [Client.uniformNext, hpop, Option.map_some]⟩
  · rw [c.uniformNext_eq fun stack heq => hpop ⟨stack, heq⟩]
    obtain ⟨c', hnext, -⟩ := h.next ha
    exact ⟨c', hnext⟩

theorem popsSafely_of_notRoot {c : Client} {stack : Stack} (h : Accounted c.process c.owned)
    (hheld : c.Holds stack) (hroot : ¬ IsRoot c.process.nodes stack) : PopsSafely c stack := by
  have hspares : c.SparesRoots (.pop stack) := by
    rintro _ ⟨⟩
    exact hroot
  have hallowed : c.Allowed (.pop stack) := hheld
  obtain ⟨popped, hnext, haccounted⟩ := h.uniformNext hallowed hspares
  refine ⟨popped, ⟨hallowed, hnext⟩, ?_⟩
  rintro last ⟨steps, hrun, hspares⟩ call hcall
  exact (accounted_uniformRun hrun haccounted hspares).uniformNext_exists hcall

/-- Once a root has been popped the client can give away one reference too many. -/
theorem not_popsSafely_of_root {c : Client} {stack : Stack} (h : Accounted c.process c.owned)
    (hroot : IsRoot c.process.nodes stack) : ¬ PopsSafely c stack := by
  obtain ⟨a, n, rfl, hn, hterminal⟩ := hroot
  have hread : readNode c.process.nodes (.node a) = some n := hn
  rintro ⟨popped, ⟨-, hnext⟩, hsafe⟩
  rw [Client.uniformNext, stackPop, if_neg Stack.noConfusion, hread, Option.bind_some, if_pos hterminal] at hnext
  cases hnext
  have howned : Stack.node a ::ₘ c.owned = c.owned + {.node a} := by
    rw [add_comm, Multiset.singleton_add]
  obtain ⟨last, hlast, hextra, hnodes⟩ := leadsTo_noNodes (c := ⟨c.process, .node a ::ₘ c.owned⟩) howned h
  have hallowed : last.Allowed (.destroy (.node a)) := by
    refine Or.inl ?_
    rw [hextra]
    exact Multiset.mem_singleton_self _
  obtain ⟨c', hdestroy⟩ := hsafe last hlast (.destroy (.node a)) hallowed
  rw [Client.uniformNext_eq _ fun _ => Call.noConfusion, Client.next, hnodes] at hdestroy
  cases hdestroy

/-- A client that owns what every pop returns is safe exactly at pops of other stacks than
allocated roots, and in a loop of pops exactly with stacks that do not end in one. -/
theorem uniformPop_iff {c : Client} {stack : Stack} (hbefore : LeadsTo Client.start c) (hheld : c.Holds stack) :
    (PopsSafely c stack ↔ ¬ IsRoot c.process.nodes stack) ∧
      ((∀ rounds, ∃ r, popLoop rounds c.process.nodes stack = some r) ↔ ¬ EndsInRoot c.process.nodes stack) := by
  obtain ⟨steps, hrun, hspares⟩ := hbefore
  have h := accounted_uniformRun hrun accounted_start hspares
  have hsound := h.erase hheld
  constructor
  · constructor
    · intro hsafe hroot
      exact not_popsSafely_of_root h hroot hsafe
    · exact popsSafely_of_notRoot h hheld
  · constructor
    · intro hsafe hends
      obtain ⟨rounds, hnone⟩ := popLoop_unsafe hends (Kept.refl _).agrees hsound
      obtain ⟨r, hsome⟩ := hsafe rounds
      rw [hnone] at hsome
      cases hsome
    · intro hends rounds
      exact popLoop_safe rounds hsound hends

/-- A stack of one value on `NULL`. -/
theorem uniformPop_iff_pushed :
    PopsSafely pushedClient (.node 1) ∧ ∀ rounds, ∃ r, popLoop rounds pushedClient.process.nodes (.node 1) = some r := by
  have hpushed : pushedClient.process.nodes.lookup 1 = some ⟨7, .null, 1, false⟩ := Finmap.lookup_insert _
  have hends : ¬ EndsInRoot pushedClient.process.nodes (.node 1) := by
    intro hends
    cases hends with
    | root hn hterminal =>
      rw [hpushed] at hn
      cases hn
      cases hterminal
    | value hn hterminal hnext =>
      rw [hpushed] at hn
      cases hn
      cases hnext
  have hbefore : LeadsTo Client.start pushedClient := .single (fun _ => Call.noConfusion) pushedClient_step
  obtain ⟨hpops, hloop⟩ := uniformPop_iff hbefore (Or.inl (Multiset.mem_singleton_self (Stack.node 1)))
  exact ⟨hpops.mpr fun hroot => hends (.of_isRoot hroot), hloop.mpr hends⟩

/-- A client that has made a root. -/
def rootClient : Client := ⟨{Process.start with nodes := Finmap.insert 1 ⟨0, .null, 1, true⟩ ∅}, {.node 1}⟩

/-- The root is popped, and both handles are destroyed. -/
theorem uniformPop_root :
    ¬ ∀ c stack, LeadsTo Client.start c → c.Holds stack →
      PopsSafely c stack ∧ ∀ rounds, ∃ r, popLoop rounds c.process.nodes stack = some r := by
  intro h
  have hcreate : Client.Step Client.start (.create 1) rootClient := ⟨Finmap.notMem_empty, rfl⟩
  have hheld : rootClient.Holds (.node 1) := Or.inl (Multiset.mem_singleton_self _)
  obtain ⟨⟨popped, ⟨-, hpop⟩, hsafe⟩, -⟩ :=
    h rootClient (.node 1) (.single (fun _ => Call.noConfusion) hcreate) hheld
  have hpopped : popped = ⟨rootClient.process, {.node 1, .node 1}⟩ := by
    cases hpop
    rfl
  have hstep : Client.Step popped (.destroy (.node 1)) ⟨Process.start, {.node 1}⟩ := by
    rw [hpopped]
    exact ⟨Or.inl (Multiset.mem_cons_self (Stack.node 1) {.node 1}), rfl⟩
  have hheld' : Client.Holds ⟨Process.start, {.node 1}⟩ (.node 1) := Or.inl (Multiset.mem_singleton_self _)
  obtain ⟨c', hnone⟩ := hsafe _ (.single (fun _ => Call.noConfusion) hstep) (.destroy (.node 1)) hheld'
  cases hnone

end Wasmig
