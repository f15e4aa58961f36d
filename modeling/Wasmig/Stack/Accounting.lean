import Mathlib.Tactic.Abel
import Wasmig.Stack.Handles

/-! Every reference is accounted for.

Besides the client, iterators and the slots of maps hold references to nodes. Together
with the client's they are what the counts of the nodes count, along with the links of
other nodes: one call keeps that so and uses no freed node (`Accounted.next`), and
`stack_accounting` draws the conclusions for runs. -/
namespace Wasmig
open Base Base.RefCount

/-! ### Who holds references -/

/-- The stacks that iterators hold. -/
def held (iterators : Heap Addr Stack) : Multiset Stack := iterators.entries.map fun e => e.2

/-- The stacks in the slots of one map. -/
def stacksOf (pairs : StackPairs) : Multiset Stack :=
  pairs.entries.bind fun e => e.2.addressStack ::ₘ e.2.typeStack ::ₘ 0

/-- The stacks in the slots of all maps. -/
def slots (maps : Heap Addr StackPairs) : Multiset Stack := maps.entries.bind fun e => stacksOf e.2

/-- The nodes whose link is to the node `a`. -/
def linksTo (nodes : Nodes) (a : Addr) : Nat := nodes.entries.countP fun e => e.2.next = .node a

theorem held_insert (iterators : Heap Addr Stack) (it : Addr) (stack : Stack) :
    held (iterators.insert it stack) = stack ::ₘ held (iterators.erase it) := by
  rw [held, entries_insert, Multiset.map_cons]
  rfl

theorem held_lookup {iterators : Heap Addr Stack} {it : Addr} {stack : Stack}
    (h : iterators.lookup it = some stack) : held iterators = stack ::ₘ held (iterators.erase it) := by
  rw [held, entries_of_lookup h, Multiset.map_cons]
  rfl

theorem stacksOf_insert (pairs : StackPairs) (key : UInt32) (pair : StackPair) :
    stacksOf (pairs.insert key pair) =
      pair.addressStack ::ₘ pair.typeStack ::ₘ stacksOf (pairs.erase key) := by
  rw [stacksOf, entries_insert, Multiset.cons_bind, Multiset.cons_add, Multiset.cons_add, zero_add]
  rfl

theorem stacksOf_lookup {pairs : StackPairs} {key : UInt32} {pair : StackPair}
    (h : pairs.lookup key = some pair) :
    stacksOf pairs = pair.addressStack ::ₘ pair.typeStack ::ₘ stacksOf (pairs.erase key) := by
  rw [stacksOf, entries_of_lookup h, Multiset.cons_bind, Multiset.cons_add, Multiset.cons_add, zero_add]
  rfl

theorem slots_insert (maps : Heap Addr StackPairs) (m : Addr) (pairs : StackPairs) :
    slots (maps.insert m pairs) = stacksOf pairs + slots (maps.erase m) := by
  rw [slots, entries_insert, Multiset.cons_bind]
  rfl

theorem slots_lookup {maps : Heap Addr StackPairs} {m : Addr} {pairs : StackPairs}
    (h : maps.lookup m = some pairs) : slots maps = stacksOf pairs + slots (maps.erase m) := by
  rw [slots, entries_of_lookup h, Multiset.cons_bind]
  rfl

/-- The stacks of a pair are in the slots. -/
theorem mem_slots {maps : Heap Addr StackPairs} {m : Addr} {pairs : StackPairs} {key : UInt32} {pair : StackPair}
    (hpairs : maps.lookup m = some pairs) (hkey : pairs.lookup key = some pair) :
    pair.addressStack ∈ slots maps ∧ pair.typeStack ∈ slots maps := by
  rw [slots_lookup hpairs, stacksOf_lookup hkey]
  simp

theorem live_orEmpty {nodes : Nodes} {stack : Stack} (h : Live nodes stack) : Live nodes stack.orEmpty := by
  cases stack with
  | null =>
    intro a ha
    cases ha
  | empty => exact h
  | node a => exact h

/-! ### Pairs -/

namespace Sound
variable {nodes : Nodes} {refs : Multiset Stack}

theorem releasePair {pair : StackPair} (h : Sound nodes (pair.addressStack ::ₘ pair.typeStack ::ₘ refs)) :
    ∃ nodes', Process.releasePair nodes pair = some nodes' ∧ Sound nodes' refs := by
  obtain ⟨nodes₁, h₁, hsound₁⟩ := h.release
  obtain ⟨nodes₂, h₂, hsound₂⟩ := hsound₁.release
  exact ⟨nodes₂, by rw [Process.releasePair, h₁, Option.bind_some, h₂], hsound₂⟩

/-- All slots of a map, in any order: those of `left` are still to come. -/
theorem releasePairs {pairs : StackPairs} (order : List UInt32) (left : StackPairs)
    (h : Sound nodes (stacksOf left + refs)) (hnodup : order.Nodup) (hleft : ∀ key, key ∈ order ↔ key ∈ left)
    (hsame : ∀ key, key ∈ order → pairs.lookup key = left.lookup key) :
    ∃ nodes', Process.releasePairs nodes pairs order = some nodes' ∧ Sound nodes' refs := by
  induction order generalizing nodes left with
  | nil =>
    have hempty : left = ∅ := by
      apply Finmap.ext_lookup
      intro key
      rw [Finmap.lookup_empty, Finmap.lookup_eq_none, ← hleft]
      exact List.not_mem_nil
    rw [hempty] at h
    exact ⟨nodes, rfl, h.congr (congrArg targets (zero_add refs).symm)⟩
  | cons key order ih =>
    obtain ⟨hkey, hnodup⟩ := List.nodup_cons.mp hnodup
    obtain ⟨pair, hpair⟩ := Finmap.mem_iff.mp ((hleft key).mp (List.mem_cons_self ..))
    rw [stacksOf_lookup hpair, Multiset.cons_add, Multiset.cons_add] at h
    obtain ⟨nodes', hrelease, hsound⟩ := h.releasePair
    have herase : ∀ key', key' ∈ order ↔ key' ∈ left.erase key := by
      intro key'
      rw [Finmap.mem_erase, ← hleft, List.mem_cons]
      constructor
      · intro hmem
        exact ⟨fun heq => hkey (heq ▸ hmem), Or.inr hmem⟩
      · rintro ⟨hne, heq | hmem⟩
        · exact absurd heq hne
        · exact hmem
    have hsame' : ∀ key', key' ∈ order → pairs.lookup key' = (left.erase key).lookup key' := by
      intro key' hmem
      have hne : key' ≠ key := fun heq => hkey (heq ▸ hmem)
      rw [hsame key' (List.mem_cons_of_mem _ hmem), Finmap.lookup_erase_ne hne]
    obtain ⟨nodes'', hreleases, hsound'⟩ := ih (left.erase key) hsound hnodup herase hsame'
    refine ⟨nodes'', ?_, hsound'⟩
    rw [Process.releasePairs, hsame key (List.mem_cons_self ..), hpair, Option.bind_some, hrelease,
      Option.bind_some, hreleases]

end Sound

/-! ### One call -/

/-- The nodes of a process account for its references and those owned outside. -/
def Accounted (p : Process) (owned : Multiset Stack) : Prop :=
  Sound p.nodes (owned + (held p.iterators + slots p.maps))

namespace Accounted
variable {p : Process} {owned : Multiset Stack} {stack : Stack}

theorem live (h : Accounted p owned) (hstack : stack ∈ owned ∨ stack = .null ∨ stack = .empty) :
    Live p.nodes stack := by
  rcases hstack with hmem | rfl | rfl
  · exact Sound.live h (Multiset.mem_add.mpr (Or.inl hmem))
  · intro a ha
    cases ha
  · intro a ha
    cases ha

/-- Destroying `NULL` or the shared empty stack needs no reference. -/
theorem erase (h : Accounted p owned) (hstack : stack ∈ owned ∨ stack = .null ∨ stack = .empty) :
    Sound p.nodes (stack ::ₘ (owned.erase stack + (held p.iterators + slots p.maps))) := by
  rw [← Multiset.cons_add]
  by_cases hmem : stack ∈ owned
  · rw [Multiset.cons_erase hmem]
    exact h
  · rw [Multiset.erase_of_notMem hmem]
    apply Sound.congr h
    rw [Multiset.cons_add, targets_cons]
    rcases hstack with hmem' | rfl | rfl
    · exact absurd hmem' hmem
    · rw [Stack.target, Option.elim_none, zero_add]
    · rw [Stack.target, Option.elim_none, zero_add]

theorem iteratorCreate (h : Accounted p owned) (hlive : Live p.nodes stack) {it : Addr} (hit : it ∉ p.iterators) :
    ∃ p', p.stackIteratorCreate stack it = some p' ∧ Accounted p' owned := by
  obtain ⟨nodes, hretain, hsound⟩ := Sound.retain h (live_orEmpty hlive)
  refine ⟨_, by rw [Process.stackIteratorCreate, hretain, Option.map_some], ?_⟩
  refine Sound.congr hsound (congrArg targets ?_)
  show owned + (held (p.iterators.insert it stack.orEmpty) + slots p.maps) = _
  rw [held_insert, erase_of_notMem hit, Multiset.cons_add, Multiset.add_cons]

/-- The references with that of one iterator apart. -/
theorem refs_iterator (owned : Multiset Stack) {it : Addr} {current : Stack}
    (hcurrent : p.iterators.lookup it = some current) :
    owned + (held p.iterators + slots p.maps) =
      current ::ₘ (owned + (held (p.iterators.erase it) + slots p.maps)) := by
  rw [held_lookup hcurrent, Multiset.cons_add, Multiset.add_cons]

theorem iteratorNext (h : Accounted p owned) {it : StackIterator} (hit : Client.There p.iterators it) :
    ∃ p' value, p.stackIteratorNext it = some (p', value) ∧ Accounted p' owned := by
  cases it with
  | none => exact ⟨p, 0, rfl, h⟩
  | some it =>
    obtain ⟨current, hcurrent⟩ := Finmap.mem_iff.mp (hit it rfl)
    have hrefs := refs_iterator owned hcurrent
    rw [Process.stackIteratorNext, hcurrent, Option.bind_some]
    by_cases hnull : current = .null
    · rw [if_pos hnull]
      exact ⟨p, 0, rfl, h⟩
    rw [if_neg hnull]
    have hlive : Live p.nodes current := Sound.live h (by rw [hrefs]; exact Multiset.mem_cons_self ..)
    obtain ⟨n, hread⟩ := Sound.read hlive hnull
    rw [hread, Option.bind_some]
    by_cases hterminal : n.isTerminal = true
    · rw [if_pos hterminal]
      exact ⟨p, 0, rfl, h⟩
    rw [if_neg hterminal]
    obtain ⟨nodes₁, hretain, hsound₁⟩ := Sound.retain h (live_orEmpty (Sound.live_next h hread))
    rw [hrefs, Multiset.cons_swap] at hsound₁
    obtain ⟨nodes₂, hrelease, hsound₂⟩ := hsound₁.release
    refine ⟨_, _, by rw [hretain, Option.bind_some, hrelease, Option.map_some], ?_⟩
    refine Sound.congr hsound₂ (congrArg targets ?_)
    show owned + (held (p.iterators.insert it n.next.orEmpty) + slots p.maps) = _
    rw [held_insert, Multiset.cons_add, Multiset.add_cons]

theorem iteratorDestroy (h : Accounted p owned) {it : StackIterator} (hit : Client.There p.iterators it) :
    ∃ p', p.stackIteratorDestroy it = some p' ∧ Accounted p' owned := by
  cases it with
  | none => exact ⟨p, rfl, h⟩
  | some it =>
    obtain ⟨current, hcurrent⟩ := Finmap.mem_iff.mp (hit it rfl)
    have hrefs := refs_iterator owned hcurrent
    obtain ⟨nodes, hrelease, hsound⟩ := Sound.release (Sound.congr h (congrArg targets hrefs.symm))
    refine ⟨_, by rw [Process.stackIteratorDestroy, hcurrent, Option.bind_some, hrelease, Option.map_some], ?_⟩
    exact hsound

theorem mapCreate (h : Accounted p owned) {m : Addr} (hm : m ∉ p.maps) :
    Accounted (p.stackStateMapCreate m) owned := by
  refine Sound.congr h (congrArg targets ?_)
  show owned + (held p.iterators + slots (p.maps.insert m ∅)) = _
  have hnone : stacksOf ∅ = 0 := rfl
  rw [slots_insert, erase_of_notMem hm, hnone, zero_add]

/-- The references with those of one map apart. -/
theorem refs_map (owned : Multiset Stack) {m : Addr} {pairs : StackPairs} (hm : p.maps.lookup m = some pairs) :
    owned + (held p.iterators + slots p.maps) =
      stacksOf pairs + (owned + (held p.iterators + slots (p.maps.erase m))) := by
  rw [slots_lookup hm]
  abel

theorem savePair (h : Accounted p owned) {map : StackStateMap} (hmap : Client.There p.maps map) (key : UInt32)
    {addressStack typeStack : Stack}
    (haddress : addressStack ∈ owned ∨ addressStack = .null ∨ addressStack = .empty)
    (htype : typeStack ∈ owned ∨ typeStack = .null ∨ typeStack = .empty) :
    ∃ p' saved, p.stackStateSavePair map key addressStack typeStack = some (p', saved) ∧ Accounted p' owned := by
  cases map with
  | none => exact ⟨p, false, rfl, h⟩
  | some m =>
    obtain ⟨pairs, hpairs⟩ := Finmap.mem_iff.mp (hmap m rfl)
    -- What is left once the old pair has been released.
    have hreleased : ∃ nodes, Process.releaseEntry p.nodes pairs key = some nodes ∧
        Sound nodes (stacksOf (pairs.erase key) +
          (owned + (held p.iterators + slots (p.maps.erase m)))) := by
      have hsound := Sound.congr h (congrArg targets (refs_map owned hpairs).symm)
      unfold Process.releaseEntry
      cases hkey : pairs.lookup key with
      | none =>
        rw [erase_of_notMem (Finmap.lookup_eq_none.mp hkey)]
        exact ⟨p.nodes, rfl, hsound⟩
      | some pair =>
        rw [stacksOf_lookup hkey, Multiset.cons_add, Multiset.cons_add] at hsound
        exact hsound.releasePair
    obtain ⟨nodes, hrelease, hsound⟩ := hreleased
    have hlive : ∀ {nodes : Nodes} {refs : Multiset Stack} {stack : Stack}, Sound nodes (refs + owned) →
        (stack ∈ owned ∨ stack = .null ∨ stack = .empty) → Live nodes stack := by
      intro nodes refs stack hsound hstack
      rcases hstack with hmem | rfl | rfl
      · exact hsound.live (Multiset.mem_add.mpr (Or.inr hmem))
      · intro a ha
        cases ha
      · intro a ha
        cases ha
    have howned : stacksOf (pairs.erase key) + (owned + (held p.iterators + slots (p.maps.erase m))) =
        (stacksOf (pairs.erase key) + (held p.iterators + slots (p.maps.erase m))) + owned := by abel
    rw [howned] at hsound
    obtain ⟨nodes₁, hretain₁, hsound₁⟩ := hsound.retain (hlive hsound haddress)
    rw [← Multiset.cons_add] at hsound₁
    obtain ⟨nodes₂, hretain₂, hsound₂⟩ := hsound₁.retain (hlive hsound₁ htype)
    refine ⟨_, _, by
      rw [Process.stackStateSavePair, hpairs, Option.bind_some, hrelease, Option.bind_some, hretain₁,
        Option.bind_some, hretain₂, Option.map_some], ?_⟩
    refine Sound.congr hsound₂ (congrArg targets ?_)
    show owned + (held p.iterators + slots (p.maps.insert m (pairs.insert key ⟨addressStack, typeStack⟩))) = _
    rw [slots_insert, stacksOf_insert]
    simp only [← Multiset.singleton_add]
    abel

theorem loadPair (h : Accounted p owned) {map : StackStateMap} (hmap : Client.There p.maps map) (key : UInt32) :
    ∃ p' loaded, p.stackStateLoadPair map key = some (p', loaded) ∧
      Accounted p' (match loaded with
        | none => owned
        | some pair => pair.1 ::ₘ pair.2 ::ₘ owned) := by
  cases map with
  | none => exact ⟨p, none, rfl, h⟩
  | some m =>
    obtain ⟨pairs, hpairs⟩ := Finmap.mem_iff.mp (hmap m rfl)
    rw [Process.stackStateLoadPair, hpairs, Option.bind_some]
    cases hkey : pairs.lookup key with
    | none => exact ⟨p, none, rfl, h⟩
    | some pair =>
      have hslots := mem_slots hpairs hkey
      have hlive : ∀ {nodes : Nodes} {refs : Multiset Stack} {stack : Stack},
          Sound nodes (refs + (held p.iterators + slots p.maps)) → stack ∈ slots p.maps → Live nodes stack := by
        intro nodes refs stack hsound hstack
        exact hsound.live (Multiset.mem_add.mpr (Or.inr (Multiset.mem_add.mpr (Or.inr hstack))))
      obtain ⟨nodes₁, hretain₁, hsound₁⟩ := Sound.retain h (live_orEmpty (hlive h hslots.1))
      rw [← Multiset.cons_add] at hsound₁
      obtain ⟨nodes₂, hretain₂, hsound₂⟩ := hsound₁.retain (live_orEmpty (hlive hsound₁ hslots.2))
      dsimp only
      refine ⟨_, _, by rw [hretain₁, Option.bind_some, hretain₂, Option.map_some], ?_⟩
      refine Sound.congr hsound₂ (congrArg targets ?_)
      show pair.addressStack.orEmpty ::ₘ pair.typeStack.orEmpty ::ₘ owned + (held p.iterators + slots p.maps) = _
      rw [Multiset.cons_swap, Multiset.cons_add]

theorem remove (h : Accounted p owned) {map : StackStateMap} (hmap : Client.There p.maps map) (key : UInt32) :
    ∃ p' removed, p.stackStateRemove map key = some (p', removed) ∧ Accounted p' owned := by
  cases map with
  | none => exact ⟨p, false, rfl, h⟩
  | some m =>
    obtain ⟨pairs, hpairs⟩ := Finmap.mem_iff.mp (hmap m rfl)
    rw [Process.stackStateRemove, hpairs, Option.bind_some]
    cases hkey : pairs.lookup key with
    | none => exact ⟨p, false, rfl, h⟩
    | some pair =>
      have hsound := Sound.congr h (congrArg targets (refs_map owned hpairs).symm)
      rw [stacksOf_lookup hkey, Multiset.cons_add, Multiset.cons_add] at hsound
      obtain ⟨nodes, hrelease, hsound⟩ := hsound.releasePair
      dsimp only
      refine ⟨_, _, by rw [hrelease, Option.map_some], ?_⟩
      refine Sound.congr hsound (congrArg targets ?_)
      show owned + (held p.iterators + slots (p.maps.insert m (pairs.erase key))) = _
      rw [slots_insert]
      abel

theorem mapDestroy (h : Accounted p owned) {map : StackStateMap} (hmap : Client.There p.maps map)
    {order : List UInt32} (horder : ∀ m pairs, map = some m → p.maps.lookup m = some pairs →
      order.Nodup ∧ ∀ key, key ∈ order ↔ key ∈ pairs) :
    ∃ p', p.stackStateMapDestroy map order = some p' ∧ Accounted p' owned := by
  cases map with
  | none => exact ⟨p, rfl, h⟩
  | some m =>
    obtain ⟨pairs, hpairs⟩ := Finmap.mem_iff.mp (hmap m rfl)
    obtain ⟨hnodup, hkeys⟩ := horder m pairs rfl hpairs
    obtain ⟨nodes, hreleases, hsound⟩ :=
      (Sound.congr h (congrArg targets (refs_map owned hpairs).symm)).releasePairs order pairs hnodup hkeys
        (fun _ _ => rfl)
    refine ⟨_, by rw [Process.stackStateMapDestroy, hpairs, Option.bind_some, hreleases, Option.map_some], ?_⟩
    exact hsound

end Accounted

/-- A call the client may make uses no freed node and keeps the account. -/
theorem Accounted.next {c : Client} (h : Accounted c.process c.owned) {call : Call} (ha : c.Allowed call) :
    ∃ c', c.next call = some c' ∧ Accounted c'.process c'.owned := by
  cases call with
  | create a => exact ⟨_, rfl, (Sound.create h ha).congr (congrArg targets (Multiset.cons_add ..))⟩
  | empty =>
    refine ⟨_, rfl, Sound.congr h ?_⟩
    show targets (.empty ::ₘ c.owned + _) = _
    rw [Multiset.cons_add, targets_cons, Stack.target, Option.elim_none, zero_add]
  | push stack value a =>
    obtain ⟨nodes, hpush, hsound⟩ := Sound.push h (h.live ha.1) ha.2 value
    refine ⟨_, by rw [Client.next, hpush, Option.map_some], ?_⟩
    exact hsound.congr (congrArg targets (Multiset.cons_add ..))
  | pop stack =>
    obtain ⟨nodes, rest, value, isEmpty, hpop, hempty, hsound⟩ := Sound.pop h (h.live ha)
    refine ⟨_, by rw [Client.next, hempty, Option.bind_some, hpop, Option.map_some], ?_⟩
    cases isEmpty with
    | true => exact hsound
    | false => exact hsound.congr (congrArg targets (Multiset.cons_add ..))
  | destroy stack =>
    obtain ⟨nodes, hrelease, hsound⟩ := (h.erase ha).release
    refine ⟨_, by rw [Client.next, stackDestroy, hrelease, Option.map_some], ?_⟩
    exact hsound
  | iteratorCreate stack it =>
    obtain ⟨p, hnext, haccounted⟩ := h.iteratorCreate (h.live ha.1) ha.2
    exact ⟨_, by rw [Client.next, hnext, Option.map_some], haccounted⟩
  | iteratorNext it =>
    obtain ⟨p, value, hnext, haccounted⟩ := h.iteratorNext ha
    exact ⟨_, by rw [Client.next, hnext, Option.map_some], haccounted⟩
  | iteratorDestroy it =>
    obtain ⟨p, hnext, haccounted⟩ := h.iteratorDestroy ha
    exact ⟨_, by rw [Client.next, hnext, Option.map_some], haccounted⟩
  | mapCreate m => exact ⟨_, rfl, h.mapCreate ha⟩
  | savePair map key addressStack typeStack =>
    obtain ⟨p, saved, hnext, haccounted⟩ := h.savePair ha.1 key ha.2.1 ha.2.2
    exact ⟨_, by rw [Client.next, hnext, Option.map_some], haccounted⟩
  | loadPair map key =>
    obtain ⟨p, loaded, hnext, haccounted⟩ := h.loadPair ha key
    refine ⟨_, by rw [Client.next, hnext, Option.map_some], ?_⟩
    cases loaded with
    | none => exact haccounted
    | some pair => exact haccounted
  | remove map key =>
    obtain ⟨p, removed, hnext, haccounted⟩ := h.remove ha key
    exact ⟨_, by rw [Client.next, hnext, Option.map_some], haccounted⟩
  | mapDestroy map order =>
    obtain ⟨p, hnext, haccounted⟩ := h.mapDestroy ha.1 ha.2
    exact ⟨_, by rw [Client.next, hnext, Option.map_some], haccounted⟩
  | registrySave id map =>
    refine ⟨_, rfl, ?_⟩
    show Accounted (c.process.stackStateMapRegistrySave id map).1 c.owned
    unfold Process.stackStateMapRegistrySave
    split
    · exact h
    · split
      · exact h
      · exact h
  | registryClear => exact ⟨_, rfl, h⟩

/-! ### Runs -/

theorem count_links (nodes : Nodes) (a : Addr) : (links nodeCounting nodes).count a = linksTo nodes a := by
  unfold links linksTo
  induction nodes.entries using Multiset.induction with
  | empty => rfl
  | cons e entries ih =>
    rw [Multiset.cons_bind, Multiset.count_add, ih, Multiset.countP_cons, add_comm]
    congr 1
    have hlink : linkOf nodeCounting e.2 = e.2.next.target.elim 0 ({·}) := rfl
    rw [hlink]
    cases e.2.next with
    | null => rfl
    | empty => rfl
    | node b =>
      rw [Stack.target, Option.elim_some, Multiset.count_singleton]
      refine if_congr ?_ rfl rfl
      rw [Stack.node.injEq, eq_comm]

@[simp] theorem held_empty : held ∅ = 0 := rfl

@[simp] theorem slots_empty : slots ∅ = 0 := rfl

theorem accounted_start : Accounted Process.start 0 := Sound.empty.congr (by simp [Process.start])

theorem accounted_step (c : Client) (call : Call) (c' : Client) (hstep : Client.Step c call c')
    (h : Accounted c.process c.owned) : Accounted c'.process c'.owned := by
  obtain ⟨hallowed, hnext⟩ := hstep
  obtain ⟨c'', hnext', haccounted⟩ := h.next hallowed
  rw [hnext] at hnext'
  cases hnext'
  exact haccounted

theorem accounted_run {steps : List (Client × Call)} {last : Client}
    (hrun : Run Client.Step Client.start steps last) : Accounted last.process last.owned :=
  Run.keeps (fun c => Accounted c.process c.owned) accounted_step hrun accounted_start

/-- In every run of a client that keeps to what is allowed, the count of every node is
the number of references to it that the client owns, of nodes that link to it, of map
slots and of iterators; no allowed call uses a freed node; and once the client owns no node
and has destroyed all iterators and maps it created, there are no nodes. -/
theorem stack_accounting {steps : List (Client × Call)} {last : Client}
    (hrun : Run Client.Step Client.start steps last) :
    (∀ a n, last.process.nodes.lookup a = some n →
      n.refCount = (last.owned.count (.node a) + linksTo last.process.nodes a +
        (slots last.process.maps).count (.node a) + (held last.process.iterators).count (.node a) : Nat)) ∧
    (∀ call, last.Allowed call → ∃ c', last.next call = some c') ∧
    ((∀ a, .node a ∉ last.owned) → AllDestroyed steps → last.process.nodes = ∅) := by
  have h := accounted_run hrun
  refine ⟨fun a n hn => ?_, fun call hallowed => ?_, fun howned hdestroyed => ?_⟩
  · have hcount : n.refCount = _ := (Sound.accounted h).count a n hn
    rw [hcount, Multiset.count_add, count_targets, count_links, Multiset.count_add, Multiset.count_add]
    congr 1
    omega
  · obtain ⟨c', hnext, -⟩ := h.next hallowed
    exact ⟨c', hnext⟩
  · obtain ⟨hiterators, hmaps⟩ := (allDestroyed_iff hrun).mp hdestroyed
    have hnone : targets (last.owned + (held last.process.iterators + slots last.process.maps)) = 0 := by
      rw [hiterators, hmaps, held_empty, slots_empty, add_zero, add_zero]
      refine Multiset.eq_zero_of_forall_notMem fun a ha => howned a ?_
      rw [← Multiset.count_pos, count_targets] at ha
      exact Multiset.count_pos.mp ha
    have haccounted := Sound.accounted h
    rw [hnone] at haccounted
    exact haccounted.no_leak (Sound.acyclic h)

/-- A client that has pushed 7 on `NULL`. -/
def pushedClient : Client :=
  ⟨{Process.start with nodes := Finmap.insert 1 ⟨7, .null, 1, false⟩ ∅}, {.node 1}⟩

theorem pushedClient_step : Client.Step Client.start (.push .null 7 1) pushedClient :=
  ⟨⟨Or.inr (Or.inl rfl), Finmap.notMem_empty⟩, rfl⟩

/-- It has pushed 9 on that: its two stacks share a node. -/
def sharingClient : Client :=
  ⟨{Process.start with
      nodes := Finmap.insert 1 ⟨7, .null, 2, false⟩ (Finmap.insert 2 ⟨9, .node 1, 1, false⟩
        (Finmap.insert 1 ⟨7, .null, 1, false⟩ ∅))}, {.node 2, .node 1}⟩

theorem sharingClient_step : Client.Step pushedClient (.push (.node 1) 9 2) sharingClient := by
  have hlookup : Finmap.lookup 1 (Finmap.insert 2 ⟨9, .node 1, 1, false⟩ pushedClient.process.nodes) =
      some (⟨7, .null, 1, false⟩ : StackNode) := by
    rw [Finmap.lookup_insert_of_ne _ (by decide)]
    exact Finmap.lookup_insert _
  refine ⟨⟨Or.inl (Multiset.mem_singleton_self _), ?_⟩, ?_⟩
  · intro hmem
    rcases Finmap.mem_insert.mp hmem with h | h
    · cases h
    · exact Finmap.notMem_empty h
  · rw [Client.next, stackPush, stackRetain, hlookup]
    rfl

theorem sharingClient_run : Run Client.Step Client.start
    [(Client.start, .push .null 7 1), (pushedClient, .push (.node 1) 9 2)] sharingClient :=
  .cons pushedClient_step (.cons sharingClient_step (.nil _))

theorem Client.next_destroy {c c' : Client} {stack : Stack} (h : c.next (.destroy stack) = some c') :
    ∃ nodes, c' = ⟨{c.process with nodes := nodes}, c.owned.erase stack⟩ := by
  obtain ⟨nodes, -, rfl⟩ := Option.map_eq_some_iff.mp h
  exact ⟨nodes, rfl⟩

/-- The shared node, and all nodes once both stacks are destroyed. -/
theorem stack_accounting_sharing :
    (2 : Int) = (sharingClient.owned.count (.node 1) + linksTo sharingClient.process.nodes 1 +
        (slots sharingClient.process.maps).count (.node 1) +
        (held sharingClient.process.iterators).count (.node 1) : Nat) ∧
      ∃ steps last, Run Client.Step Client.start steps last ∧
        steps.map Prod.snd =
          [.push .null 7 1, .push (.node 1) 9 2, .destroy (.node 1), .destroy (.node 2)] ∧
        last.process.nodes = ∅ := by
  obtain ⟨hcounts, hcalls, -⟩ := stack_accounting sharingClient_run
  refine ⟨hcounts 1 ⟨7, .null, 2, false⟩ (Finmap.lookup_insert _), ?_⟩
  have hfirst : sharingClient.Allowed (.destroy (.node 1)) :=
    Or.inl (Multiset.mem_cons_of_mem (Multiset.mem_singleton_self _))
  obtain ⟨c, hc⟩ := hcalls _ hfirst
  have howned : c.owned = {.node 2} := by
    obtain ⟨nodes, rfl⟩ := Client.next_destroy hc
    rfl
  have hrun := sharingClient_run.append (.cons ⟨hfirst, hc⟩ (.nil _))
  have hsecond : c.Allowed (.destroy (.node 2)) := Or.inl (howned ▸ Multiset.mem_singleton_self _)
  obtain ⟨last, hlast⟩ := (stack_accounting hrun).2.1 _ hsecond
  have hnone : last.owned = 0 := by
    obtain ⟨nodes, rfl⟩ := Client.next_destroy hlast
    show c.owned.erase (.node 2) = 0
    rw [howned]
    exact Multiset.erase_singleton ..
  have hrun' := hrun.append (.cons ⟨hsecond, hlast⟩ (.nil _))
  refine ⟨_, last, hrun', rfl, (stack_accounting hrun').2.2 (fun a ha => ?_) fun a => ⟨?_, ?_⟩⟩
  · rw [hnone] at ha
    exact Multiset.notMem_zero _ ha
  · exact vacant_of_keep (by simp [iteratorEffect])
  · exact vacant_of_keep (by simp [mapPresence])

end Wasmig
