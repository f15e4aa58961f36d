import Wasmig.Base.Runs
import Wasmig.Stack.Process

/-! A client of the stacks: the calls it makes and the references it owns.

The client is trusted with what the interface asks of it (`Allowed`): it passes stacks it
owns, destroys each reference once, and uses no iterator or map it has destroyed. What
it owns after a call is what it owned and what the call hands out; where a call places
something new, and in which order a map meets its entries, is the environment's choice. -/
namespace Wasmig
open Base

inductive Call where
  | create (a : Addr)
  | empty
  | push (stack : Stack) (value : UInt64) (a : Addr)
  | pop (stack : Stack)
  | destroy (stack : Stack)
  | iteratorCreate (stack : Stack) (it : Addr)
  | iteratorNext (it : StackIterator)
  | iteratorDestroy (it : StackIterator)
  | mapCreate (m : Addr)
  | savePair (map : StackStateMap) (key : UInt32) (addressStack typeStack : Stack)
  | loadPair (map : StackStateMap) (key : UInt32)
  | remove (map : StackStateMap) (key : UInt32)
  | mapDestroy (map : StackStateMap) (order : List UInt32)
  | registrySave (id : UInt32) (map : StackStateMap)
  | registryClear

structure Client where
  process : Process
  /-- The references the client owns. -/
  owned : Multiset Stack

namespace Client

/-- A client that has not made a call. -/
def start : Client := ⟨Process.start, 0⟩

/-- A stack the client may pass: one it owns, `NULL` or the shared empty stack. -/
def Holds (c : Client) (stack : Stack) : Prop := stack ∈ c.owned ∨ stack = .null ∨ stack = .empty

/-- A handle the client may pass: `NULL`, or that of something still there. -/
def There {ν : Type} (objects : RefCount.Heap Addr ν) (handle : Option Addr) : Prop :=
  ∀ a, handle = some a → a ∈ objects

/-- What a client may do, and what the environment does with it. -/
def Allowed (c : Client) : Call → Prop
  | .create a => a ∉ c.process.nodes
  | .empty => True
  | .push stack _ a => c.Holds stack ∧ a ∉ c.process.nodes
  | .pop stack => c.Holds stack
  | .destroy stack => c.Holds stack
  | .iteratorCreate stack it => c.Holds stack ∧ it ∉ c.process.iterators
  | .iteratorNext it => There c.process.iterators it
  | .iteratorDestroy it => There c.process.iterators it
  | .mapCreate m => m ∉ c.process.maps
  | .savePair map _ addressStack typeStack =>
    There c.process.maps map ∧ c.Holds addressStack ∧ c.Holds typeStack
  | .loadPair map _ => There c.process.maps map
  | .remove map _ => There c.process.maps map
  | .mapDestroy map order =>
    There c.process.maps map ∧
      ∀ m pairs, map = some m → c.process.maps.lookup m = some pairs →
        order.Nodup ∧ ∀ key, key ∈ order ↔ key ∈ pairs
  | .registrySave _ map => There c.process.maps map
  | .registryClear => True

/-- The client after a call; `none` when the call used freed memory. -/
def next (c : Client) : Call → Option Client
  | .create a =>
    let (nodes, stack) := stackCreate c.process.nodes a
    some ⟨{c.process with nodes := nodes}, stack ::ₘ c.owned⟩
  | .empty => some {c with owned := stackEmpty ::ₘ c.owned}
  | .push stack value a =>
    (stackPush c.process.nodes stack value a).map fun r =>
      ⟨{c.process with nodes := r.1}, r.2 ::ₘ c.owned⟩
  | .pop stack =>
    -- An empty stack is handed back without a new reference.
    (stackIsEmpty c.process.nodes stack).bind fun isEmpty =>
      (stackPop c.process.nodes stack).map fun r =>
        ⟨{c.process with nodes := r.1}, if isEmpty then c.owned else r.2.1 ::ₘ c.owned⟩
  | .destroy stack =>
    (stackDestroy c.process.nodes stack).map fun nodes =>
      ⟨{c.process with nodes := nodes}, c.owned.erase stack⟩
  | .iteratorCreate stack it =>
    (c.process.stackIteratorCreate stack it).map fun p => {c with process := p}
  | .iteratorNext it => (c.process.stackIteratorNext it).map fun r => {c with process := r.1}
  | .iteratorDestroy it => (c.process.stackIteratorDestroy it).map fun p => {c with process := p}
  | .mapCreate m => some {c with process := c.process.stackStateMapCreate m}
  | .savePair map key addressStack typeStack =>
    (c.process.stackStateSavePair map key addressStack typeStack).map fun r => {c with process := r.1}
  | .loadPair map key =>
    (c.process.stackStateLoadPair map key).map fun r =>
      match r.2 with
      | none => {c with process := r.1}
      | some pair => ⟨r.1, pair.1 ::ₘ pair.2 ::ₘ c.owned⟩
  | .remove map key => (c.process.stackStateRemove map key).map fun r => {c with process := r.1}
  | .mapDestroy map order => (c.process.stackStateMapDestroy map order).map fun p => {c with process := p}
  | .registrySave id map => some {c with process := (c.process.stackStateMapRegistrySave id map).1}
  | .registryClear => some {c with process := c.process.stackStateMapRegistryClear}

/-- A call the client may make, made. -/
def Step (c : Client) (call : Call) (c' : Client) : Prop := c.Allowed call ∧ c.next call = some c'

end Client

end Wasmig
