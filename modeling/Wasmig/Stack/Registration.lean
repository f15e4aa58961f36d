import Wasmig.Stack.Calls

/-! Registered maps.

A registered map should be one that is still there. The registry that is loaded from is
not the one that destroying a map takes it out of, which stays empty
(`gStateMapRegistry_empty`), so a map that is destroyed while it is registered dangles:
`registry_dangling_iff` says that a run is free of dangling maps exactly when it does
not do that. -/
namespace Wasmig
open Base

/-- What is loaded under any id is `NULL` or a map that is there. -/
def NoDangling (c : Client) : Prop :=
  ∀ id m, c.process.stackStateMapRegistryLoad id = some m → m ∈ c.process.maps

/-- A call does not destroy a registered map. -/
def KeepsRegistered (c : Client) : Call → Prop
  | .mapDestroy map _ => ∀ m, map = some m → ∀ id, c.process.stackStateMapRegistryLoad id ≠ some m
  | _ => True

/-! ### What calls do to maps and registries -/

/-- A process with other references but the same maps and registries. -/
structure SameMaps (p p' : Process) : Prop where
  maps : ∀ m, m ∈ p'.maps ↔ m ∈ p.maps
  loaded : p'.gStackStateMapRegistry = p.gStackStateMapRegistry
  cleaned : p'.gStateMapRegistry = p.gStateMapRegistry

/-- Replacing the entries of a map that is there. -/
theorem OnlyRefs.same_insert {p p' : Process} {m : Addr} {pairs pairs' : StackPairs}
    (hm : p.maps.lookup m = some pairs) (h : OnlyRefs {p with maps := p.maps.insert m pairs'} p') :
    SameMaps p p' := by
  refine ⟨fun m' => ?_, h.loaded, h.cleaned⟩
  rw [h.maps, Finmap.mem_insert]
  apply or_iff_right_of_imp
  rintro rfl
  exact Finmap.mem_of_lookup_eq_some hm

/-- The maps and registries after a call. -/
inductive MapsAfter (p : Process) : Call → Process → Prop where
  | same (call : Call) {p' : Process} (h : SameMaps p p') (hnot : ∀ map order, call ≠ .mapDestroy map order) :
    MapsAfter p call p'
  | created (m : Addr) : MapsAfter p (.mapCreate m) (p.stackStateMapCreate m)
  | notDestroyed (order : List UInt32) : MapsAfter p (.mapDestroy none order) p
  | destroyed (m : Addr) (order : List UInt32) {p' : Process}
    (maps : ∀ m', m' ∈ p'.maps ↔ m' ≠ m ∧ m' ∈ p.maps)
    (loaded : p'.gStackStateMapRegistry = p.gStackStateMapRegistry)
    (cleaned : p'.gStateMapRegistry = Process.unregister p.gStateMapRegistry m) :
    MapsAfter p (.mapDestroy (some m) order) p'
  | registered (id : UInt32) (map : StackStateMap) :
    MapsAfter p (.registrySave id map) (p.stackStateMapRegistrySave id map).1
  | cleared : MapsAfter p .registryClear p.stackStateMapRegistryClear

theorem AfterCall.mapsAfter {p p' : Process} {call : Call} (h : AfterCall p call p') : MapsAfter p call p' := by
  cases h with
  | nodes hcall _ hmaps hloaded hcleaned =>
    refine .same _ ⟨fun m => by rw [hmaps], hloaded, hcleaned⟩ fun map order heq => ?_
    rw [heq] at hcall
    exact hcall
  | created m => exact .created m
  | saved _ _ _ _ hpairs honly => exact .same _ (honly.same_insert hpairs) fun _ _ heq => by cases heq
  | removed _ _ hpairs honly => exact .same _ (honly.same_insert hpairs) fun _ _ heq => by cases heq
  | notDestroyed order => exact .notDestroyed order
  | destroyed m order honly =>
    refine .destroyed m order (fun m' => ?_) honly.loaded honly.cleaned
    rw [honly.maps]
    exact Finmap.mem_erase
  | registered id map => exact .registered id map
  | cleared => exact .cleared

/-! ### Runs -/

theorem stackStateMapRegistrySave_load {p : Process} {id id' : UInt32} {map : StackStateMap} {m : Addr}
    (h : (p.stackStateMapRegistrySave id map).1.gStackStateMapRegistry id' = some m) :
    map = some m ∨ p.gStackStateMapRegistry id' = some m := by
  unfold Process.stackStateMapRegistrySave at h
  split at h
  · exact Or.inr h
  · split at h
    · exact Or.inr h
    · dsimp only at h
      by_cases hid : id' = id
      · rw [hid, Function.update_self] at h
        exact Or.inl h
      · rw [Function.update_of_ne hid] at h
        exact Or.inr h

/-- One call. -/
theorem noDangling_step (c : Client) (call : Call) (c' : Client) (hstep : Client.Step c call c')
    (h : NoDangling c) : NoDangling c' ↔ KeepsRegistered c call := by
  obtain ⟨hallowed, hnext⟩ := hstep
  have hafter := (afterCall_next hallowed hnext).mapsAfter
  unfold NoDangling at h ⊢
  generalize c'.process = p' at hafter ⊢
  cases hafter with
  | same _ hsame hnot =>
    refine iff_of_true (fun id m hload => ?_) ?_
    · rw [Process.stackStateMapRegistryLoad, hsame.loaded] at hload
      exact (hsame.maps m).mpr (h id m hload)
    · cases call with
      | mapDestroy map order => exact absurd rfl (hnot map order)
      | _ => trivial
  | created m =>
    exact iff_of_true (fun id m' hload => Finmap.mem_insert.mpr (Or.inr (h id m' hload))) trivial
  | notDestroyed order => exact iff_of_true h fun m hm => by cases hm
  | destroyed m order hmaps hloaded hcleaned =>
    constructor
    · intro hnone m' hm' id hload
      cases hm'
      have hmem := hnone id m (by rw [Process.stackStateMapRegistryLoad, hloaded]; exact hload)
      exact ((hmaps m).mp hmem).1 rfl
    · intro hkeeps id m' hload
      rw [Process.stackStateMapRegistryLoad, hloaded] at hload
      refine (hmaps m').mpr ⟨?_, h id m' hload⟩
      rintro rfl
      exact hkeeps m' rfl id hload
  | registered id map =>
    refine iff_of_true (fun id' m hload => ?_) trivial
    rw [(stackStateMapRegistrySave_rest c.process id map).2.1]
    rcases stackStateMapRegistrySave_load hload with hmap | hload
    · exact hallowed m hmap
    · exact h id' m hload
  | cleared => exact iff_of_true (fun id m hload => by cases hload) trivial

/-- Nothing is ever in the registry that destroying a map cleans. -/
theorem gStateMapRegistry_empty {steps : List (Client × Call)} {last : Client}
    (hrun : Run Client.Step Client.start steps last) (id : UInt32) :
    last.process.gStateMapRegistry id = none := by
  refine Run.keeps (fun c => ∀ id, c.process.gStateMapRegistry id = none) ?_ hrun (fun _ => rfl) id
  intro c call c' h₁ h id
  obtain ⟨hallowed, hnext⟩ := h₁
  have hafter := (afterCall_next hallowed hnext).mapsAfter
  generalize c'.process = p' at hafter ⊢
  cases hafter with
  | same _ hsame hnot => rw [hsame.cleaned, h]
  | created m => exact h id
  | notDestroyed order => exact h id
  | destroyed m order hmaps hloaded hcleaned =>
    rw [hcleaned, Process.unregister, h]
    exact if_neg fun h => by cases h
  | registered id' map => rw [(stackStateMapRegistrySave_rest c.process id' map).2.2.1, h]
  | cleared => exact h id

/-- No registered map dangles in any state of a run exactly when no registered map is
destroyed in it. -/
theorem registry_dangling_iff {steps : List (Client × Call)} {last : Client}
    (hrun : Run Client.Step Client.start steps last) :
    Run.Throughout NoDangling steps last ↔ ∀ p ∈ steps, KeepsRegistered p.1 p.2 :=
  Run.invariant_iff noDangling_step hrun fun id m hload => by cases hload

/-- A client that has created a map and registered it under 200. -/
def registeredClient : Client :=
  ⟨{Process.start with
      maps := Finmap.insert 1 ∅ ∅
      gStackStateMapRegistry := Function.update (fun _ => none) 200 (some 1)}, 0⟩

/-- The client after it has destroyed the map. -/
def danglingClient : Client :=
  {registeredClient with process := {registeredClient.process with
    maps := registeredClient.process.maps.erase 1
    gStateMapRegistry := Process.unregister registeredClient.process.gStateMapRegistry 1 }}

theorem createdClient_step :
    Client.Step Client.start (.mapCreate 1) ⟨{Process.start with maps := Finmap.insert 1 ∅ ∅}, 0⟩ :=
  ⟨Finmap.notMem_empty, rfl⟩

theorem registeredClient_step :
    Client.Step ⟨{Process.start with maps := Finmap.insert 1 ∅ ∅}, 0⟩ (.registrySave 200 (some 1))
      registeredClient :=
  ⟨fun _ hm => Finmap.mem_insert.mpr (Or.inl (Option.some.inj hm).symm), rfl⟩

theorem danglingClient_step : Client.Step registeredClient (.mapDestroy (some 1) []) danglingClient := by
  have hlookup : registeredClient.process.maps.lookup 1 = some ∅ := Finmap.lookup_insert _
  refine ⟨⟨fun m hm => ?_, fun m pairs hm hpairs => ?_⟩, ?_⟩
  · cases hm
    exact Finmap.mem_of_lookup_eq_some hlookup
  · cases hm
    rw [hlookup] at hpairs
    cases hpairs
    exact ⟨List.nodup_nil, fun key => iff_of_false List.not_mem_nil Finmap.notMem_empty⟩
  · simp only [Client.next, Process.stackStateMapDestroy, hlookup]
    rfl

theorem registry_dangling_iff_registered :
    ∃ steps, Run Client.Step Client.start steps registeredClient ∧
      (Run.Throughout NoDangling steps registeredClient ↔ ∀ p ∈ steps, KeepsRegistered p.1 p.2) :=
  have hrun := Run.cons createdClient_step (.cons registeredClient_step (.nil _))
  ⟨_, hrun, registry_dangling_iff hrun⟩

/-- A map that is created, registered and destroyed is still loaded. -/
theorem registry_dangling :
    ¬ ∀ (steps : List (Client × Call)) (last : Client),
      Run Client.Step Client.start steps last → NoDangling last := by
  intro h
  have hrun := Run.cons createdClient_step (.cons registeredClient_step (.cons danglingClient_step (.nil _)))
  have hload : danglingClient.process.stackStateMapRegistryLoad 200 = some 1 := by
    show Function.update (fun _ => none) 200 (some 1) 200 = some 1
    exact Function.update_self ..
  exact Finmap.notMem_erase_self (h _ _ hrun 200 1 hload)

end Wasmig
