import Wasmig.Stack.Client

/-! What a call does to nodes and maps.

`AfterCall` says it once for all calls (`afterCall_next`). Whatever a call is for, of the
nodes that are still there it changes the counts only (`AfterCall.agrees`). -/
namespace Wasmig
open Base Base.RefCount

/-! ### Stacks -/

theorem stackRetain_kept {nodes nodes' : Nodes} {stack : Stack} (h : stackRetain nodes stack = some nodes') :
    Kept nodeCounting nodes nodes' := by
  rw [stackRetain_eq] at h
  cases ht : stack.target with
  | none =>
    rw [ht] at h
    cases h
    exact Kept.refl nodes
  | some a =>
    rw [ht] at h
    exact retain_kept h

theorem stackRelease_kept {nodes nodes' : Nodes} {stack : Stack} (h : stackRelease nodes stack = some nodes') :
    Kept nodeCounting nodes nodes' := by
  rw [stackRelease, stackReleaseThrough_eq] at h
  cases ht : stack.target with
  | none =>
    rw [ht] at h
    cases h
    exact Kept.refl nodes
  | some a =>
    rw [ht] at h
    exact release_kept _ h

theorem stackPush_agrees {nodes nodes' : Nodes} {stack top : Stack} {value : UInt64} {a : Addr}
    (ha : a ∉ nodes) (h : stackPush nodes stack value a = some (nodes', top)) :
    Agrees nodeCounting nodes nodes' := by
  obtain ⟨nodes₁, hretain, heq⟩ := Option.map_eq_some_iff.mp h
  cases heq
  exact (agrees_insert _ ha).kept (stackRetain_kept hretain)

theorem stackPop_kept {nodes nodes' : Nodes} {stack rest : Stack} {value : UInt64}
    (h : stackPop nodes stack = some (nodes', rest, value)) : Kept nodeCounting nodes nodes' := by
  unfold stackPop at h
  split at h
  · cases h
    exact Kept.refl nodes
  · obtain ⟨n, -, h⟩ := Option.bind_eq_some_iff.mp h
    split at h
    · cases h
      exact Kept.refl nodes
    · obtain ⟨nodes₁, hretain, heq⟩ := Option.map_eq_some_iff.mp h
      cases heq
      exact stackRetain_kept hretain

/-! ### Iterators and maps -/

/-- A process with other references, to nodes it had before, and the same maps and
registries. -/
structure OnlyRefs (p p' : Process) : Prop where
  kept : Kept nodeCounting p.nodes p'.nodes
  maps : p'.maps = p.maps
  loaded : p'.gStackStateMapRegistry = p.gStackStateMapRegistry
  cleaned : p'.gStateMapRegistry = p.gStateMapRegistry

theorem OnlyRefs.refl (p : Process) : OnlyRefs p p := ⟨Kept.refl _, rfl, rfl, rfl⟩

theorem releasePair_kept {nodes nodes' : Nodes} {pair : StackPair}
    (h : Process.releasePair nodes pair = some nodes') : Kept nodeCounting nodes nodes' := by
  obtain ⟨nodes₁, haddress, htype⟩ := Option.bind_eq_some_iff.mp h
  exact (stackRelease_kept haddress).trans (stackRelease_kept htype)

theorem releasePairs_kept {pairs : StackPairs} (order : List UInt32) {nodes nodes' : Nodes}
    (h : Process.releasePairs nodes pairs order = some nodes') : Kept nodeCounting nodes nodes' := by
  induction order generalizing nodes with
  | nil =>
    cases h
    exact Kept.refl _
  | cons key order ih =>
    obtain ⟨pair, -, h⟩ := Option.bind_eq_some_iff.mp h
    obtain ⟨nodes₁, hpair, h⟩ := Option.bind_eq_some_iff.mp h
    exact (releasePair_kept hpair).trans (ih h)

section
variable {p p' : Process}

theorem stackIteratorCreate_only {stack : Stack} {it : Addr} (h : p.stackIteratorCreate stack it = some p') :
    OnlyRefs p p' := by
  obtain ⟨nodes, hretain, rfl⟩ := Option.map_eq_some_iff.mp h
  exact ⟨stackRetain_kept hretain, rfl, rfl, rfl⟩

/-- A `next` moves no other iterator. -/
theorem stackIteratorNext_spec {it : StackIterator} {value : UInt64}
    (h : p.stackIteratorNext it = some (p', value)) :
    OnlyRefs p p' ∧ ∀ other, it ≠ some other → p'.iterators.lookup other = p.iterators.lookup other := by
  cases it with
  | none =>
    cases h
    exact ⟨OnlyRefs.refl p, fun _ _ => rfl⟩
  | some it =>
    obtain ⟨current, -, h⟩ := Option.bind_eq_some_iff.mp h
    split at h
    · cases h
      exact ⟨OnlyRefs.refl p, fun _ _ => rfl⟩
    obtain ⟨n, -, h⟩ := Option.bind_eq_some_iff.mp h
    split at h
    · cases h
      exact ⟨OnlyRefs.refl p, fun _ _ => rfl⟩
    obtain ⟨nodes, hretain, h⟩ := Option.bind_eq_some_iff.mp h
    obtain ⟨nodes', hrelease, h⟩ := Option.map_eq_some_iff.mp h
    cases h
    refine ⟨⟨(stackRetain_kept hretain).trans (stackRelease_kept hrelease), rfl, rfl, rfl⟩, ?_⟩
    intro other hne
    exact Finmap.lookup_insert_of_ne _ fun heq => hne (congrArg some heq.symm)

theorem stackIteratorDestroy_spec {it : StackIterator} (h : p.stackIteratorDestroy it = some p') :
    OnlyRefs p p' ∧ ∀ other, it ≠ some other → p'.iterators.lookup other = p.iterators.lookup other := by
  cases it with
  | none =>
    cases h
    exact ⟨OnlyRefs.refl p, fun _ _ => rfl⟩
  | some it =>
    obtain ⟨current, -, h⟩ := Option.bind_eq_some_iff.mp h
    obtain ⟨nodes, hrelease, rfl⟩ := Option.map_eq_some_iff.mp h
    refine ⟨⟨stackRelease_kept hrelease, rfl, rfl, rfl⟩, ?_⟩
    intro other hne
    exact Finmap.lookup_erase_ne fun heq => hne (congrArg some heq.symm)

theorem stackStateLoadPair_spec {map : StackStateMap} {key : UInt32} {loaded : Option (Stack × Stack)}
    (h : p.stackStateLoadPair map key = some (p', loaded)) : OnlyRefs p p' ∧ p'.iterators = p.iterators := by
  cases map with
  | none =>
    cases h
    exact ⟨OnlyRefs.refl p, rfl⟩
  | some m =>
    obtain ⟨pairs, -, h⟩ := Option.bind_eq_some_iff.mp h
    split at h
    · cases h
      exact ⟨OnlyRefs.refl p, rfl⟩
    · obtain ⟨nodes, haddress, h⟩ := Option.bind_eq_some_iff.mp h
      obtain ⟨nodes', htype, h⟩ := Option.map_eq_some_iff.mp h
      cases h
      exact ⟨⟨(stackRetain_kept haddress).trans (stackRetain_kept htype), rfl, rfl, rfl⟩, rfl⟩

theorem stackStateSavePair_spec {m : Addr} {key : UInt32} {addressStack typeStack : Stack} {saved : Bool}
    (h : p.stackStateSavePair (some m) key addressStack typeStack = some (p', saved)) :
    ∃ pairs, p.maps.lookup m = some pairs ∧ saved = true ∧
      OnlyRefs {p with maps := p.maps.insert m (pairs.insert key ⟨addressStack, typeStack⟩)} p' ∧
      p'.iterators = p.iterators := by
  obtain ⟨pairs, hpairs, h⟩ := Option.bind_eq_some_iff.mp h
  obtain ⟨nodes, hrelease, h⟩ := Option.bind_eq_some_iff.mp h
  obtain ⟨nodes', haddress, h⟩ := Option.bind_eq_some_iff.mp h
  obtain ⟨nodes'', htype, h⟩ := Option.map_eq_some_iff.mp h
  cases h
  have hreleased : Kept nodeCounting p.nodes nodes := by
    unfold Process.releaseEntry at hrelease
    split at hrelease
    · exact releasePair_kept hrelease
    · cases hrelease
      exact Kept.refl _
  exact ⟨pairs, hpairs, rfl,
    ⟨(hreleased.trans (stackRetain_kept haddress)).trans (stackRetain_kept htype), rfl, rfl, rfl⟩, rfl⟩

/-- Removing takes out an entry that is there; it returns whether there is one. -/
theorem stackStateRemove_spec {m : Addr} {key : UInt32} {removed : Bool}
    (h : p.stackStateRemove (some m) key = some (p', removed)) :
    ∃ pairs, p.maps.lookup m = some pairs ∧ removed = (pairs.lookup key).isSome ∧
      OnlyRefs {p with maps := p.maps.insert m (pairs.erase key)} p' ∧ p'.iterators = p.iterators := by
  obtain ⟨pairs, hpairs, h⟩ := Option.bind_eq_some_iff.mp h
  refine ⟨pairs, hpairs, ?_⟩
  split at h
  · rename_i hkey
    cases h
    rw [hkey, erase_of_notMem (Finmap.lookup_eq_none.mp hkey), ← insert_insert_erase, insert_erase hpairs]
    exact ⟨rfl, OnlyRefs.refl p, rfl⟩
  · rename_i pair hkey
    obtain ⟨nodes, hrelease, h⟩ := Option.map_eq_some_iff.mp h
    cases h
    rw [hkey]
    exact ⟨rfl, ⟨releasePair_kept hrelease, rfl, rfl, rfl⟩, rfl⟩

theorem stackStateMapDestroy_spec {m : Addr} {order : List UInt32}
    (h : p.stackStateMapDestroy (some m) order = some p') :
    OnlyRefs {p with
      maps := p.maps.erase m
      gStateMapRegistry := Process.unregister p.gStateMapRegistry m} p' ∧ p'.iterators = p.iterators := by
  obtain ⟨pairs, -, h⟩ := Option.bind_eq_some_iff.mp h
  obtain ⟨nodes, hreleases, rfl⟩ := Option.map_eq_some_iff.mp h
  exact ⟨⟨releasePairs_kept order hreleases, rfl, rfl, rfl⟩, rfl⟩

end

/-! ### Calls -/

/-- A call that is not about the entries of a map, maps or the registry. -/
def Call.KeepsTables : Call → Prop
  | .mapCreate _ => False
  | .savePair (some _) _ _ _ => False
  | .remove (some _) _ => False
  | .mapDestroy _ _ => False
  | .registrySave _ _ => False
  | .registryClear => False
  | _ => True

/-- A process after a call: only nodes have changed, or it is known what has become of maps
and registries. -/
inductive AfterCall (p : Process) : Call → Process → Prop where
  | nodes {call : Call} {p' : Process} (hcall : call.KeepsTables)
    (agrees : Agrees nodeCounting p.nodes p'.nodes) (maps : p'.maps = p.maps)
    (loaded : p'.gStackStateMapRegistry = p.gStackStateMapRegistry)
    (cleaned : p'.gStateMapRegistry = p.gStateMapRegistry) : AfterCall p call p'
  | created (m : Addr) : AfterCall p (.mapCreate m) (p.stackStateMapCreate m)
  | saved (m : Addr) (key : UInt32) (addressStack typeStack : Stack) {pairs : StackPairs} {p' : Process}
    (hpairs : p.maps.lookup m = some pairs)
    (honly : OnlyRefs {p with maps := p.maps.insert m (pairs.insert key ⟨addressStack, typeStack⟩)} p') :
    AfterCall p (.savePair (some m) key addressStack typeStack) p'
  | removed (m : Addr) (key : UInt32) {pairs : StackPairs} {p' : Process} (hpairs : p.maps.lookup m = some pairs)
    (honly : OnlyRefs {p with maps := p.maps.insert m (pairs.erase key)} p') :
    AfterCall p (.remove (some m) key) p'
  | notDestroyed (order : List UInt32) : AfterCall p (.mapDestroy none order) p
  | destroyed (m : Addr) (order : List UInt32) {p' : Process}
    (honly : OnlyRefs {p with
      maps := p.maps.erase m
      gStateMapRegistry := Process.unregister p.gStateMapRegistry m} p') :
    AfterCall p (.mapDestroy (some m) order) p'
  | registered (id : UInt32) (map : StackStateMap) :
    AfterCall p (.registrySave id map) (p.stackStateMapRegistrySave id map).1
  | cleared : AfterCall p .registryClear p.stackStateMapRegistryClear

theorem OnlyRefs.afterCall {p p' : Process} (h : OnlyRefs p p') {call : Call} (hcall : call.KeepsTables) :
    AfterCall p call p' :=
  .nodes hcall h.kept.agrees h.maps h.loaded h.cleaned

/-- What a call can do. A node may be allocated at the address of one freed long ago. -/
theorem afterCall_next {c c' : Client} {call : Call} (hallowed : c.Allowed call) (h : c.next call = some c') :
    AfterCall c.process call c'.process := by
  cases call with
  | create a =>
    cases h
    exact .nodes trivial (agrees_insert _ hallowed) rfl rfl rfl
  | empty =>
    cases h
    exact (OnlyRefs.refl _).afterCall trivial
  | push stack value a =>
    obtain ⟨r, hpush, rfl⟩ := Option.map_eq_some_iff.mp h
    exact .nodes trivial (stackPush_agrees hallowed.2 hpush) rfl rfl rfl
  | pop stack =>
    obtain ⟨isEmpty, -, h⟩ := Option.bind_eq_some_iff.mp h
    obtain ⟨r, hpop, rfl⟩ := Option.map_eq_some_iff.mp h
    exact .nodes trivial (stackPop_kept hpop).agrees rfl rfl rfl
  | destroy stack =>
    obtain ⟨nodes, hrelease, rfl⟩ := Option.map_eq_some_iff.mp h
    exact .nodes trivial (stackRelease_kept hrelease).agrees rfl rfl rfl
  | iteratorCreate stack it =>
    obtain ⟨p, hp, rfl⟩ := Option.map_eq_some_iff.mp h
    exact (stackIteratorCreate_only hp).afterCall trivial
  | iteratorNext it =>
    obtain ⟨r, hr, rfl⟩ := Option.map_eq_some_iff.mp h
    exact (stackIteratorNext_spec hr).1.afterCall trivial
  | iteratorDestroy it =>
    obtain ⟨p, hp, rfl⟩ := Option.map_eq_some_iff.mp h
    exact (stackIteratorDestroy_spec hp).1.afterCall trivial
  | mapCreate m =>
    cases h
    exact .created m
  | savePair map key addressStack typeStack =>
    obtain ⟨r, hr, rfl⟩ := Option.map_eq_some_iff.mp h
    cases map with
    | none =>
      cases hr
      exact (OnlyRefs.refl _).afterCall trivial
    | some m =>
      obtain ⟨pairs, hpairs, -, honly, -⟩ := stackStateSavePair_spec hr
      exact .saved m key addressStack typeStack hpairs honly
  | loadPair map key =>
    obtain ⟨r, hr, hc⟩ := Option.map_eq_some_iff.mp h
    have hprocess : c'.process = r.1 := by
      rw [← hc]
      split
      · rfl
      · rfl
    rw [hprocess]
    exact (stackStateLoadPair_spec hr).1.afterCall trivial
  | remove map key =>
    obtain ⟨r, hr, rfl⟩ := Option.map_eq_some_iff.mp h
    cases map with
    | none =>
      cases hr
      exact (OnlyRefs.refl _).afterCall trivial
    | some m =>
      obtain ⟨pairs, hpairs, -, honly, -⟩ := stackStateRemove_spec hr
      exact .removed m key hpairs honly
  | mapDestroy map order =>
    obtain ⟨p, hp, rfl⟩ := Option.map_eq_some_iff.mp h
    cases map with
    | none =>
      cases hp
      exact .notDestroyed order
    | some m => exact .destroyed m order (stackStateMapDestroy_spec hp).1
  | registrySave id map =>
    cases h
    exact .registered id map
  | registryClear =>
    cases h
    exact .cleared

/-- Saving a map under an id changes nothing but the registry that is loaded from. -/
theorem stackStateMapRegistrySave_rest (p : Process) (id : UInt32) (map : StackStateMap) :
    (p.stackStateMapRegistrySave id map).1.nodes = p.nodes ∧
      (p.stackStateMapRegistrySave id map).1.maps = p.maps ∧
      (p.stackStateMapRegistrySave id map).1.gStateMapRegistry = p.gStateMapRegistry ∧
      (p.stackStateMapRegistrySave id map).1.iterators = p.iterators := by
  unfold Process.stackStateMapRegistrySave
  split
  · exact ⟨rfl, rfl, rfl, rfl⟩
  · split
    · exact ⟨rfl, rfl, rfl, rfl⟩
    · exact ⟨rfl, rfl, rfl, rfl⟩

/-- Nodes that are there before and after a call differ in their counts only. -/
theorem AfterCall.agrees {p p' : Process} {call : Call} (h : AfterCall p call p') :
    Agrees nodeCounting p.nodes p'.nodes := by
  cases h with
  | nodes _ hagrees => exact hagrees
  | created => exact (Kept.refl _).agrees
  | saved _ _ _ _ _ honly => exact honly.kept.agrees
  | removed _ _ _ honly => exact honly.kept.agrees
  | notDestroyed => exact (Kept.refl _).agrees
  | destroyed _ _ honly => exact honly.kept.agrees
  | registered id map =>
    rw [(stackStateMapRegistrySave_rest p id map).1]
    exact (Kept.refl _).agrees
  | cleared => exact (Kept.refl _).agrees

end Wasmig
