import Wasmig.Stack.Metadata
import Wasmig.Stack.Reachable

/-! Stacks when memory runs out.

A call that finds no memory returns `NULL`, which is an empty stack, or `false`, and changes
neither stacks nor iterators nor maps. But a pair that finds no room in its map has been
retained by then, and nobody releases it: its references are lost. Otherwise counts count
what they do when there is memory, and no call uses a freed node (`shortage_accounting`). -/
namespace Wasmig
open Base Base.RefCount

/-! ### Calls that may find no memory -/

/-- `wasmig_stack_create()`: the new root at `a`, if there is memory. -/
def stackCreateOrNull (nodes : Nodes) : Option Addr → Nodes × Stack
  | none => (nodes, .null)
  | some a => stackCreate nodes a

/-- `wasmig_stack_push(stack, value)`: the new node at `a`, if there is memory. -/
def stackPushOrNull (nodes : Nodes) (stack : Stack) (value : UInt64) : Option Addr → Option (Nodes × Stack)
  | none => some (nodes, .null)
  | some a => stackPush nodes stack value a

namespace Process

/-- `wasmig_stack_iterator_create(stack)`: the iterator at `it`, if there is memory. -/
def stackIteratorCreateOrNull (p : Process) (stack : Stack) : StackIterator → Option (Process × StackIterator)
  | none => some (p, none)
  | some it => (p.stackIteratorCreate stack it).map fun p => (p, some it)

/-- `wasmig_stack_state_map_create()`: the map at `m`, if there is memory. -/
def stackStateMapCreateOrNull (p : Process) : StackStateMap → Process × StackStateMap
  | none => (p, none)
  | some m => (p.stackStateMapCreate m, some m)

/-- `wasmig_stack_state_save_pair(map, key, address_stack, type_stack)`, where `memory` is
whether there is room for a new entry. -/
def stackStateSavePairOrFail (p : Process) (map : StackStateMap) (key : UInt32) (addressStack typeStack : Stack)
    (memory : Bool) : Option (Process × Bool) :=
  match map with
  | none => some (p, false)
  | some m =>
    (p.maps.lookup m).bind fun pairs =>
      (releaseEntry p.nodes pairs key).bind fun nodes =>
        (stackRetain nodes addressStack).bind fun nodes =>
          (stackRetain nodes typeStack).map fun nodes =>
            if key ∈ pairs ∨ memory = true then
              ({p with nodes := nodes, maps := p.maps.insert m (pairs.insert key ⟨addressStack, typeStack⟩)}, true)
            else ({p with nodes := nodes}, false)

end Process

/-- A call that finds no memory. -/
inductive Shortage where
  | create
  | push (stack : Stack) (value : UInt64)
  | iteratorCreate (stack : Stack)
  | mapCreate
  | savePair (map : StackStateMap) (key : UInt32) (addressStack typeStack : Stack)

inductive Attempt where
  | served (call : Call)
  | short (shortage : Shortage)

namespace Client

/-- What a client may try. -/
def MayTry (c : Client) : Attempt → Prop
  | .served call => c.Allowed call
  | .short (.push stack _) => c.Holds stack
  | .short (.iteratorCreate stack) => c.Holds stack
  | .short (.savePair map _ addressStack typeStack) =>
    There c.process.maps map ∧ c.Holds addressStack ∧ c.Holds typeStack
  | .short _ => True

/-- The client after an attempt; `none` when it used freed memory. -/
def attempt (c : Client) : Attempt → Option Client
  | .served call => c.next call
  | .short .create =>
    let (nodes, stack) := stackCreateOrNull c.process.nodes none
    some ⟨{c.process with nodes := nodes}, stack ::ₘ c.owned⟩
  | .short (.push stack value) =>
    (stackPushOrNull c.process.nodes stack value none).map fun r =>
      ⟨{c.process with nodes := r.1}, r.2 ::ₘ c.owned⟩
  | .short (.iteratorCreate stack) =>
    (c.process.stackIteratorCreateOrNull stack none).map fun r => {c with process := r.1}
  | .short .mapCreate => some {c with process := (c.process.stackStateMapCreateOrNull none).1}
  | .short (.savePair map key addressStack typeStack) =>
    (c.process.stackStateSavePairOrFail map key addressStack typeStack false).map fun r => {c with process := r.1}

/-- An attempt the client may make, made. -/
def Tries (c : Client) (attempt : Attempt) (c' : Client) : Prop := c.MayTry attempt ∧ c.attempt attempt = some c'

end Client

/-- The references that an attempt loses: those to a pair that finds no room in its map. -/
def lostBy : Client × Attempt → Multiset Addr
  | (c, .short (.savePair (some m) key addressStack typeStack)) =>
    if c.process.stackStateExists (some m) key = some true then 0 else targets {addressStack, typeStack}
  | _ => 0

/-- The references lost in a run. -/
def lost (steps : List (Client × Attempt)) : Multiset Addr := (steps.map lostBy).sum

/-! ### Lost references -/

/-- The client if it owned the lost references as well. -/
def Client.withLost (c : Client) (refs : Multiset Addr) : Client := ⟨c.process, c.owned + refs.map .node⟩

/-- Counts count the lost references, too. -/
def Owing (c : Client) (refs : Multiset Addr) : Prop :=
  Accounted (c.withLost refs).process (c.withLost refs).owned

theorem targets_map_node (refs : Multiset Addr) : targets (refs.map .node) = refs := by
  rw [targets, Multiset.filterMap_map]
  exact Multiset.filterMap_some refs

theorem targets_add (refs refs' : Multiset Stack) : targets (refs + refs') = targets refs + targets refs' :=
  Multiset.filterMap_add ..

/-- A lost reference is one more root. -/
theorem withLost_reached {c : Client} {refs : Multiset Addr} {nodes : Nodes} {a : Addr} :
    (c.withLost refs).Reached nodes a ↔ c.Reached nodes a ∨ ∃ b ∈ refs, Reaches nodes a (.node b) := by
  have hroots : ∀ stack, stack ∈ (c.withLost refs).roots ↔ stack ∈ c.roots ∨ ∃ b ∈ refs, .node b = stack := by
    intro stack
    show stack ∈ c.owned + refs.map .node + (held c.process.iterators + slots c.process.maps) ↔
      stack ∈ c.owned + (held c.process.iterators + slots c.process.maps) ∨ _
    simp only [Multiset.mem_add, Multiset.mem_map]
    exact or_right_comm
  constructor
  · intro h
    obtain ⟨stack, hroot, hreaches⟩ := h
    rcases (hroots stack).mp hroot with hroot | ⟨b, hb, rfl⟩
    · exact Or.inl ⟨stack, hroot, hreaches⟩
    · exact Or.inr ⟨b, hb, hreaches⟩
  · rintro (⟨stack, hroot, hreaches⟩ | ⟨b, hb, hreaches⟩)
    · exact ⟨stack, (hroots stack).mpr (Or.inl hroot), hreaches⟩
    · exact ⟨_, (hroots _).mpr (Or.inr ⟨b, hb, rfl⟩), hreaches⟩

theorem withLost_holds {c : Client} {stack : Stack} (h : c.Holds stack) (refs : Multiset Addr) :
    (c.withLost refs).Holds stack :=
  h.imp_left fun hmem => Multiset.mem_add.mpr (Or.inl hmem)

theorem withLost_allowed {c : Client} {call : Call} (h : c.Allowed call) (refs : Multiset Addr) :
    (c.withLost refs).Allowed call := by
  cases call with
  | push stack value a => exact ⟨withLost_holds h.1 refs, h.2⟩
  | pop stack => exact withLost_holds h refs
  | destroy stack => exact withLost_holds h refs
  | iteratorCreate stack it => exact ⟨withLost_holds h.1 refs, h.2⟩
  | savePair map key addressStack typeStack =>
    exact ⟨h.1, withLost_holds h.2.1 refs, withLost_holds h.2.2 refs⟩
  | _ => exact h

/-- A call does not touch the lost references. -/
theorem withLost_next {c : Client} {call : Call} (h : c.Allowed call) (refs : Multiset Addr) :
    (c.withLost refs).next call = (c.next call).map fun c' => c'.withLost refs := by
  have hcons : ∀ (p : Process) (stack : Stack) (owned : Multiset Stack),
      Client.mk p (stack ::ₘ (owned + refs.map .node)) = Client.withLost ⟨p, stack ::ₘ owned⟩ refs := by
    intro p stack owned
    rw [Client.withLost, Multiset.cons_add]
  cases call with
  | create a => exact congrArg some (hcons ..)
  | empty => exact congrArg some (hcons ..)
  | push stack value a =>
    rw [Client.next, Client.next, Option.map_map]
    exact congrArg (Option.map · _) (funext fun r => hcons ..)
  | pop stack =>
    rw [Client.next, Client.next, Option.map_bind]
    refine congrArg (Option.bind _) (funext fun isEmpty => ?_)
    rw [Function.comp_apply, Option.map_map]
    refine congrArg (Option.map · _) (funext fun r => ?_)
    cases isEmpty with
    | true => rfl
    | false => exact hcons ..
  | destroy stack =>
    have herase : (c.owned + refs.map Stack.node).erase stack = c.owned.erase stack + refs.map Stack.node := by
      by_cases hmem : stack ∈ c.owned
      · exact Multiset.erase_add_left_pos _ hmem
      · have hnone : stack ∉ refs.map Stack.node := by
          intro hlost
          obtain ⟨a, -, rfl⟩ := Multiset.mem_map.mp hlost
          rcases h with hheld | hnull | hempty
          · exact hmem hheld
          · cases hnull
          · cases hempty
        rw [Multiset.erase_of_notMem hmem, Multiset.erase_of_notMem]
        exact fun hsum => (Multiset.mem_add.mp hsum).elim hmem hnone
    rw [Client.next, Client.next, Option.map_map]
    refine congrArg (Option.map · _) (funext fun nodes => ?_)
    exact congrArg (Client.mk _) herase
  | loadPair map key =>
    rw [Client.next, Client.next, Option.map_map]
    refine congrArg (Option.map · _) (funext fun r => ?_)
    obtain ⟨p, loaded⟩ := r
    cases loaded with
    | none => rfl
    | some pair =>
      refine congrArg (Client.mk p) ?_
      rw [Multiset.cons_add, Multiset.cons_add]
      rfl
  | mapCreate m => rfl
  | registrySave id map => rfl
  | registryClear => rfl
  | _ =>
    rw [Client.next, Client.next, Option.map_map]
    rfl

/-! ### One attempt -/

/-- A pair under a key that is there needs no memory. -/
theorem savePairOrFail_of_mem {p : Process} {m : Addr} {pairs : StackPairs} {key : UInt32}
    (hpairs : p.maps.lookup m = some pairs) (hkey : key ∈ pairs) (addressStack typeStack : Stack) (memory : Bool) :
    p.stackStateSavePairOrFail (some m) key addressStack typeStack memory =
      p.stackStateSavePair (some m) key addressStack typeStack := by
  rw [Process.stackStateSavePairOrFail, Process.stackStateSavePair, hpairs, Option.bind_some, Option.bind_some]
  simp only [hkey, true_or, if_true]

/-- A pair that finds no room is retained all the same. -/
theorem savePairOrFail_of_notMem {p : Process} {m : Addr} {pairs : StackPairs} {key : UInt32}
    (hpairs : p.maps.lookup m = some pairs) (hkey : key ∉ pairs) (addressStack typeStack : Stack) :
    p.stackStateSavePairOrFail (some m) key addressStack typeStack false =
      (stackRetain p.nodes addressStack).bind fun nodes =>
        (stackRetain nodes typeStack).map fun nodes => ({p with nodes := nodes}, false) := by
  rw [Process.stackStateSavePairOrFail, hpairs, Option.bind_some, Process.releaseEntry,
    Finmap.lookup_eq_none.mpr hkey]
  simp only [hkey, Bool.false_eq_true, or_self, if_false]
  rfl

theorem Sound.retainPair {nodes : Nodes} {refs : Multiset Stack} {addressStack typeStack : Stack}
    (h : Sound nodes refs) (haddress : Live nodes addressStack) (htype : Live nodes typeStack) :
    ∃ nodes₁ nodes₂, stackRetain nodes addressStack = some nodes₁ ∧ stackRetain nodes₁ typeStack = some nodes₂ ∧
      Sound nodes₂ (typeStack ::ₘ addressStack ::ₘ refs) := by
  obtain ⟨nodes₁, hretain₁, hsound₁⟩ := h.retain haddress
  have htype₁ : Live nodes₁ typeStack := fun a ha => stackRetain_mem hretain₁ (htype a ha)
  obtain ⟨nodes₂, hretain₂, hsound₂⟩ := hsound₁.retain htype₁
  exact ⟨nodes₁, nodes₂, hretain₁, hretain₂, hsound₂⟩

namespace Owing
variable {c : Client} {refs : Multiset Addr}

theorem lose_none (h : Owing c refs) : Owing c (refs + 0) := (Multiset.add_zero refs).symm ▸ h

/-- A call that is served loses nothing. -/
theorem next (h : Owing c refs) {call : Call} (hallowed : c.Allowed call) :
    ∃ c', c.next call = some c' ∧ Owing c' refs := by
  obtain ⟨c'', hnext, haccounted⟩ := Accounted.next h (withLost_allowed hallowed refs)
  rw [withLost_next hallowed] at hnext
  obtain ⟨c', hc', rfl⟩ := Option.map_eq_some_iff.mp hnext
  exact ⟨c', hc', haccounted⟩

theorem null (h : Owing c refs) : Owing {c with owned := .null ::ₘ c.owned} refs := by
  apply Sound.congr h
  show targets (.null ::ₘ c.owned + _ + _) = _
  rw [Multiset.cons_add, Multiset.cons_add, targets_cons, Stack.target, Option.elim_none, zero_add]
  rfl

theorem savePair (h : Owing c refs) {map : StackStateMap} {key : UInt32} {addressStack typeStack : Stack}
    (hmay : c.MayTry (.short (.savePair map key addressStack typeStack))) :
    ∃ c', c.attempt (.short (.savePair map key addressStack typeStack)) = some c' ∧
      Owing c' (refs + lostBy (c, .short (.savePair map key addressStack typeStack))) := by
  obtain ⟨hthere, haddress, htype⟩ := hmay
  cases map with
  | none => exact ⟨c, rfl, h.lose_none⟩
  | some m =>
    obtain ⟨pairs, hpairs⟩ := Finmap.mem_iff.mp (hthere m rfl)
    have hexists : c.process.stackStateExists (some m) key = some true ↔ key ∈ pairs := by
      rw [Process.stackStateExists, hpairs, Option.map_some, Option.some_inj, Option.isSome_iff_exists,
        Finmap.mem_iff]
    rw [Client.attempt, lostBy]
    by_cases hkey : key ∈ pairs
    · rw [savePairOrFail_of_mem hpairs hkey, if_pos (hexists.mpr hkey), add_zero]
      have hallowed : c.Allowed (.savePair (some m) key addressStack typeStack) := ⟨hthere, haddress, htype⟩
      exact h.next hallowed
    · have hsound : Sound c.process.nodes _ := h
      obtain ⟨nodes₁, nodes₂, hretain₁, hretain₂, hsound⟩ := hsound.retainPair
        (Accounted.live h (withLost_holds haddress refs)) (Accounted.live h (withLost_holds htype refs))
      rw [savePairOrFail_of_notMem hpairs hkey, if_neg (hexists.not.mpr hkey)]
      refine ⟨_, by rw [hretain₁, Option.bind_some, hretain₂, Option.map_some, Option.map_some], ?_⟩
      apply Sound.congr hsound
      show targets (c.owned + (refs + targets {addressStack, typeStack}).map .node + _) =
        targets (typeStack ::ₘ addressStack ::ₘ (c.owned + refs.map .node + _))
      have hpair : ({addressStack, typeStack} : Multiset Stack) = addressStack ::ₘ typeStack ::ₘ 0 := rfl
      have hnone : targets 0 = 0 := rfl
      simp only [targets_add, targets_map_node, targets_cons, hpair, hnone]
      abel

/-- An attempt uses no freed node, and what it loses is accounted for. -/
theorem attempt (h : Owing c refs) {attempt : Attempt} (hmay : c.MayTry attempt) :
    ∃ c', c.attempt attempt = some c' ∧ Owing c' (refs + lostBy (c, attempt)) := by
  cases attempt with
  | served call =>
    obtain ⟨c', hnext, howing⟩ := h.next hmay
    exact ⟨c', hnext, howing.lose_none⟩
  | short shortage =>
    cases shortage with
    | create => exact ⟨_, rfl, h.null.lose_none⟩
    | push stack value => exact ⟨_, rfl, h.null.lose_none⟩
    | iteratorCreate stack => exact ⟨c, rfl, h.lose_none⟩
    | mapCreate => exact ⟨c, rfl, h.lose_none⟩
    | savePair map key addressStack typeStack => exact h.savePair hmay

end Owing

/-! ### Runs -/

section
variable {steps : List (Client × Attempt)} {c last : Client}

theorem owing_run {refs : Multiset Addr} (hrun : Run Client.Tries c steps last) (h : Owing c refs) :
    Owing last (refs + lost steps) := by
  induction hrun generalizing refs with
  | nil c => exact h.lose_none
  | @cons c c' last attempt steps step rest ih =>
    obtain ⟨hmay, hattempt⟩ := step
    obtain ⟨c'', hattempt', howing⟩ := h.attempt hmay
    cases hattempt.symm.trans hattempt'
    have hlost : lost ((c, attempt) :: steps) = lostBy (c, attempt) + lost steps := by
      rw [lost, List.map_cons, List.sum_cons]
      rfl
    rw [hlost, ← add_assoc]
    exact ih howing

theorem owing_of_run (hrun : Run Client.Tries Client.start steps last) : Owing last (lost steps) := by
  have hstart : Owing Client.start 0 := accounted_start
  have howing := owing_run hrun hstart
  rwa [zero_add] at howing

/-- In every run in which any call may find no memory, no attempt uses a freed node; the
count of every node is the number of references to it that the client owns, of nodes that
link to it, of map slots and of iterators, and of those that were lost; and the nodes there
are those that a root or a lost reference leads to. -/
theorem shortage_accounting (hrun : Run Client.Tries Client.start steps last) :
    (∀ attempt, last.MayTry attempt → ∃ c', last.attempt attempt = some c') ∧
    (∀ a n, last.process.nodes.lookup a = some n →
      n.refCount = (last.owned.count (.node a) + linksTo last.process.nodes a +
        (slots last.process.maps).count (.node a) + (held last.process.iterators).count (.node a) +
        (lost steps).count a : Nat)) ∧
    (∀ a, a ∈ last.process.nodes ↔ last.Reached last.process.nodes a ∨
      ∃ b ∈ lost steps, Reaches last.process.nodes a (.node b)) := by
  have howing := owing_of_run hrun
  refine ⟨fun attempt hmay => ?_, fun a n hn => ?_, fun a => ?_⟩
  · obtain ⟨c', hattempt, -⟩ := howing.attempt hmay
    exact ⟨c', hattempt⟩
  · have hcount : n.refCount = _ := (Sound.accounted howing).count a n hn
    have howned : (last.withLost (lost steps)).owned.count (.node a) =
        last.owned.count (.node a) + (lost steps).count a := by
      rw [Client.withLost, Multiset.count_add, ← count_targets (.map _ _), targets_map_node]
    have hprocess : (last.withLost (lost steps)).process = last.process := rfl
    rw [hcount, Multiset.count_add, count_targets, count_links, Multiset.count_add, Multiset.count_add, howned,
      hprocess]
    congr 1
    omega
  · exact (Accounted.mem_iff_reached howing).trans withLost_reached

end

theorem Client.Step.tries {c c' : Client} {call : Call} (h : Client.Step c call c') :
    Client.Tries c (.served call) c' := h

/-- A map is registered and 7 is pushed. -/
def savingSteps : List (Client × Attempt) :=
  [(Client.start, .served (.mapCreate 1)),
    (⟨{Process.start with maps := Finmap.insert 1 ∅ ∅}, 0⟩, .served (.registrySave 200 (some 1))),
    (registeredClient, .served (.push .null 7 1))]

theorem savingSteps_run : Run Client.Tries Client.start savingSteps savingClient :=
  .cons createdClient_step.tries (.cons registeredClient_step.tries (.cons savingClient_step.tries (.nil _)))

theorem savingClient_mayTry (key : UInt32) :
    savingClient.MayTry (.short (.savePair (some 1) key (.node 1) .null)) := by
  refine ⟨fun m hm => ?_, Or.inl (Multiset.mem_singleton_self _), Or.inr (Or.inl rfl)⟩
  cases hm
  exact Finmap.mem_insert.mpr (Or.inl rfl)

theorem short_savePair_owned {c c' : Client} {map : StackStateMap} {key : UInt32} {addressStack typeStack : Stack}
    (h : c.attempt (.short (.savePair map key addressStack typeStack)) = some c') : c'.owned = c.owned := by
  rw [Client.attempt] at h
  obtain ⟨r, -, rfl⟩ := Option.map_eq_some_iff.mp h
  rfl

/-- A pair that finds no room, and its stack destroyed: the node stays. -/
theorem shortage_accounting_lost :
    ∃ steps last, Run Client.Tries Client.start steps last ∧ last.owned = 0 ∧ 1 ∈ last.process.nodes := by
  obtain ⟨c, hc, -⟩ := (owing_of_run savingSteps_run).attempt (savingClient_mayTry 5)
  have howned : c.owned = {.node 1} := short_savePair_owned hc
  have hrun := savingSteps_run.append (.cons ⟨savingClient_mayTry 5, hc⟩ (.nil _))
  have hdestroy : c.MayTry (.served (.destroy (.node 1))) := Or.inl (howned ▸ Multiset.mem_singleton_self _)
  obtain ⟨last, hlast, -⟩ := (owing_of_run hrun).attempt hdestroy
  have hrun' := hrun.append (.cons ⟨hdestroy, hlast⟩ (.nil _))
  refine ⟨_, last, hrun', ?_, ((shortage_accounting hrun').2.2 1).mpr (Or.inr ⟨1, ?_, .here⟩)⟩
  · rw [Client.attempt, Client.next] at hlast
    obtain ⟨nodes, -, rfl⟩ := Option.map_eq_some_iff.mp hlast
    show c.owned.erase (.node 1) = 0
    rw [howned]
    exact Multiset.erase_singleton ..
  · have hexists : savingClient.process.stackStateExists (some 1) 5 = some false := by
      rw [Process.stackStateExists, show savingClient.process.maps.lookup 1 = some ∅ from Finmap.lookup_insert _]
      rfl
    have hlost : lostBy (savingClient, .short (.savePair (some 1) 5 (.node 1) .null)) = {1} := by
      rw [lostBy, hexists, if_neg (by decide)]
      rfl
    simp [lost, hlost]

end Wasmig
