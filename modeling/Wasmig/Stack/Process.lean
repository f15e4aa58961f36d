import Wasmig.Stack.Node

/-! What a process holds besides stacks: iterators over them, maps that keep pairs of
them, and the registries of such maps (`stack.cpp`, `registry.cpp`).

There are two registries. `registry.cpp` saves into and loads from its own; destroying
a map takes the map out of the one of `stack.cpp`, which nothing ever fills. -/
namespace Wasmig
open Base Base.RefCount

/-- `stack_state_map::stack_pair`. -/
structure StackPair where
  addressStack : Stack
  typeStack : Stack
deriving DecidableEq, Repr

/-- The entries of a `stack_state_map`. -/
abbrev StackPairs := Heap UInt32 StackPair

/-- A `StackStateMap`: where the map is, or `NULL`. -/
abbrev StackStateMap := Option Addr

/-- A `StackIterator`: where the iterator is, or `NULL`. -/
abbrev StackIterator := Option Addr

/-- `std::unordered_map<uint32_t, StackStateMap>`, whose maps are never `NULL`. -/
abbrev Registry := UInt32 → Option Addr

structure Process where
  nodes : Nodes
  /-- The iterators there are, by address: their current stacks. -/
  iterators : Heap Addr Stack
  /-- The maps there are, by address. -/
  maps : Heap Addr StackPairs
  /-- The registry of `stack.cpp`. -/
  gStateMapRegistry : Registry
  /-- The registry of `registry.cpp`. -/
  gStackStateMapRegistry : Registry

namespace Process

/-- A process at its start. -/
def start : Process := ⟨∅, ∅, ∅, fun _ => none, fun _ => none⟩

/-! ### Iterators -/

/-- `wasmig_stack_iterator_create(stack)`, the iterator at `it`. -/
def stackIteratorCreate (p : Process) (stack : Stack) (it : Addr) : Option Process :=
  (stackRetain p.nodes stack.orEmpty).map fun nodes =>
    {p with nodes := nodes, iterators := p.iterators.insert it stack.orEmpty}

/-- `wasmig_stack_iterator_next(it)`: the value returned with what is left. -/
def stackIteratorNext (p : Process) : StackIterator → Option (Process × UInt64)
  | none => some (p, 0)
  | some it =>
    (p.iterators.lookup it).bind fun current =>
      if current = .null then some (p, 0)
      else
        (readNode p.nodes current).bind fun n =>
          if n.isTerminal then some (p, 0)
          else
            -- The next node is retained before the current one is released.
            (stackRetain p.nodes n.next.orEmpty).bind fun nodes =>
              (stackRelease nodes current).map fun nodes =>
                ({p with nodes := nodes, iterators := p.iterators.insert it n.next.orEmpty}, n.value)

/-- `wasmig_stack_iterator_destroy(it)`. -/
def stackIteratorDestroy (p : Process) : StackIterator → Option Process
  | none => some p
  | some it =>
    (p.iterators.lookup it).bind fun current =>
      (stackRelease p.nodes current).map fun nodes =>
        {p with nodes := nodes, iterators := p.iterators.erase it}

/-! ### Maps -/

/-- The two releases that end a pair. -/
def releasePair (nodes : Nodes) (pair : StackPair) : Option Nodes :=
  (stackRelease nodes pair.addressStack).bind fun nodes => stackRelease nodes pair.typeStack

/-- The releases for a key that is saved again. -/
def releaseEntry (nodes : Nodes) (pairs : StackPairs) (key : UInt32) : Option Nodes :=
  match pairs.lookup key with
  | some pair => releasePair nodes pair
  | none => some nodes

/-- `wasmig_stack_state_map_create()`, the map at `m`. -/
def stackStateMapCreate (p : Process) (m : Addr) : Process := {p with maps := p.maps.insert m ∅}

/-- `wasmig_stack_state_save_pair(map, key, address_stack, type_stack)`. -/
def stackStateSavePair (p : Process) (map : StackStateMap) (key : UInt32) (addressStack typeStack : Stack) :
    Option (Process × Bool) :=
  match map with
  | none => some (p, false)
  | some m =>
    (p.maps.lookup m).bind fun pairs =>
      -- The pair that was there is released before the new one is retained.
      (releaseEntry p.nodes pairs key).bind fun nodes =>
        (stackRetain nodes addressStack).bind fun nodes =>
          (stackRetain nodes typeStack).map fun nodes =>
            ({p with nodes := nodes, maps := p.maps.insert m (pairs.insert key ⟨addressStack, typeStack⟩)}, true)

/-- `wasmig_stack_state_load_pair(map, key, ..)`: the pair it puts out when it returns
`true`. -/
def stackStateLoadPair (p : Process) (map : StackStateMap) (key : UInt32) :
    Option (Process × Option (Stack × Stack)) :=
  match map with
  | none => some (p, none)
  | some m =>
    (p.maps.lookup m).bind fun pairs =>
      match pairs.lookup key with
      | none => some (p, none)
      | some pair =>
        (stackRetain p.nodes pair.addressStack.orEmpty).bind fun nodes =>
          (stackRetain nodes pair.typeStack.orEmpty).map fun nodes =>
            ({p with nodes := nodes}, some (pair.addressStack.orEmpty, pair.typeStack.orEmpty))

/-- `wasmig_stack_state_exists(map, key)`. -/
def stackStateExists (p : Process) (map : StackStateMap) (key : UInt32) : Option Bool :=
  match map with
  | none => some false
  | some m => (p.maps.lookup m).map fun pairs => (pairs.lookup key).isSome

/-- `wasmig_stack_state_remove(map, key)`. -/
def stackStateRemove (p : Process) (map : StackStateMap) (key : UInt32) : Option (Process × Bool) :=
  match map with
  | none => some (p, false)
  | some m =>
    (p.maps.lookup m).bind fun pairs =>
      match pairs.lookup key with
      | none => some (p, false)
      | some pair =>
        (releasePair p.nodes pair).map fun nodes =>
          ({p with nodes := nodes, maps := p.maps.insert m (pairs.erase key)}, true)

/-- The releases of `wasmig_stack_state_map_destroy`, in the order in which the entries
are met. -/
def releasePairs (nodes : Nodes) (pairs : StackPairs) : List UInt32 → Option Nodes
  | [] => some nodes
  | key :: order =>
    (pairs.lookup key).bind fun pair =>
      (releasePair nodes pair).bind fun nodes => releasePairs nodes pairs order

/-- A registry without a map. -/
def unregister (registry : Registry) (m : Addr) : Registry := fun id =>
  if registry id = some m then none else registry id

/-- `wasmig_stack_state_map_destroy(map)`, which meets the map's entries in `order`. -/
def stackStateMapDestroy (p : Process) (map : StackStateMap) (order : List UInt32) : Option Process :=
  match map with
  | none => some p
  | some m =>
    (p.maps.lookup m).bind fun pairs =>
      (releasePairs p.nodes pairs order).map fun nodes =>
        { p with
          nodes := nodes
          maps := p.maps.erase m
          gStateMapRegistry := unregister p.gStateMapRegistry m }

/-! ### The registry -/

/-- `wasmig_stack_state_map_registry_save(id, map)`. -/
def stackStateMapRegistrySave (p : Process) (id : UInt32) (map : StackStateMap) : Process × Bool :=
  match map with
  | none => (p, false)
  | some m =>
    match p.gStackStateMapRegistry id with
    | some _ => (p, false)
    | none => ({p with gStackStateMapRegistry := Function.update p.gStackStateMapRegistry id (some m)}, true)

/-- `wasmig_stack_state_map_registry_load(id)`. -/
def stackStateMapRegistryLoad (p : Process) (id : UInt32) : StackStateMap := p.gStackStateMapRegistry id

/-- `wasmig_stack_state_map_registry_clear()`. -/
def stackStateMapRegistryClear (p : Process) : Process :=
  {p with gStackStateMapRegistry := fun _ => none}

/-- `wasmig_load_metadata_stacks(fidx, offset, ..)`. -/
def loadMetadataStacks (p : Process) (fidx offset : UInt32) : Option (Process × Option (Stack × Stack)) :=
  p.stackStateLoadPair (p.stackStateMapRegistryLoad fidx) offset

end Process

end Wasmig
