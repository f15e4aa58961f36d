import Wasmig.Base.History
import Wasmig.Stack.Calls

/-! The iterators and maps that a client has created and not destroyed.

A call places an iterator or a map at an address, takes it away or leaves what is there
(`iteratorEffect`, `mapPresence`). After a run there is nothing left at any address exactly
if everything that was created has been destroyed (`allDestroyed_iff`). -/
namespace Wasmig
open Base Base.RefCount

/-- What a call does to whether there is an iterator at an address. -/
def iteratorEffect (it : Addr) (step : Client × Call) : Effect Unit :=
  match step.2 with
  | .iteratorCreate _ it' => if it' = it then .set () else .keep
  | .iteratorDestroy (some it') => if it' = it then .clear else .keep
  | _ => .keep

/-- What a call does to whether there is a map at an address. -/
def mapPresence (m : Addr) (step : Client × Call) : Effect Unit :=
  match step.2 with
  | .mapCreate m' => if m' = m then .set () else .keep
  | .mapDestroy (some m') _ => if m' = m then .clear else .keep
  | _ => .keep

/-- Every iterator and every map that is created in the run is destroyed later in it. -/
def AllDestroyed (steps : List (Client × Call)) : Prop :=
  ∀ a, Vacant (iteratorEffect a) steps ∧ Vacant (mapPresence a) steps

/-- A call that is not made on the iterator at `it`. -/
def Call.LeavesIterator (it : Addr) (call : Call) : Prop :=
  call ≠ .iteratorNext (some it) ∧ call ≠ .iteratorDestroy (some it)

/-! ### Presence -/

/-- Whether there is something at an address. -/
def present {ν : Type} (objects : Heap Addr ν) (a : Addr) : Option Unit := (objects.lookup a).map fun _ => ()

section
variable {ν : Type} {objects : Heap Addr ν} {a b : Addr}

theorem present_eq_none : present objects a = none ↔ a ∉ objects := by
  rw [present, Option.map_eq_none_iff, Finmap.lookup_eq_none]

theorem present_of_mem (h : a ∈ objects) : present objects a = some () := by
  obtain ⟨v, hv⟩ := Finmap.mem_iff.mp h
  rw [present, hv]
  rfl

theorem present_insert (v : ν) :
    present (objects.insert b v) a = if b = a then some () else present objects a := by
  by_cases h : b = a
  · rw [if_pos h, h]
    exact present_of_mem (Finmap.mem_insert.mpr (Or.inl rfl))
  · rw [if_neg h, present, Finmap.lookup_insert_of_ne _ (Ne.symm h), present]

theorem present_erase : present (objects.erase b) a = if b = a then none else present objects a := by
  by_cases h : b = a
  · rw [if_pos h, h, present, Finmap.lookup_erase]
    rfl
  · rw [if_neg h, present, Finmap.lookup_erase_ne (Ne.symm h), present]

/-- Nothing is anywhere. -/
theorem eq_empty_iff_present : objects = ∅ ↔ ∀ a, present objects a = none := by
  constructor
  · rintro rfl a
    exact present_eq_none.mpr Finmap.notMem_empty
  · intro h
    refine Finmap.ext_lookup fun a => ?_
    rw [Finmap.lookup_empty]
    exact Finmap.lookup_eq_none.mpr (present_eq_none.mp (h a))

end

/-! ### Calls -/

/-- Only a call on an iterator changes it. -/
theorem iterators_next {c c' : Client} {call : Call} {it : Addr} (h : c.next call = some c')
    (hnew : ∀ stack, call ≠ .iteratorCreate stack it) (hleaves : call.LeavesIterator it) :
    c'.process.iterators.lookup it = c.process.iterators.lookup it := by
  cases call with
  | create a =>
    cases h
    rfl
  | empty =>
    cases h
    rfl
  | push stack value a =>
    obtain ⟨r, -, rfl⟩ := Option.map_eq_some_iff.mp h
    rfl
  | pop stack =>
    obtain ⟨isEmpty, -, h⟩ := Option.bind_eq_some_iff.mp h
    obtain ⟨r, -, rfl⟩ := Option.map_eq_some_iff.mp h
    rfl
  | destroy stack =>
    obtain ⟨nodes, -, rfl⟩ := Option.map_eq_some_iff.mp h
    rfl
  | iteratorCreate stack it' =>
    obtain ⟨p, hp, rfl⟩ := Option.map_eq_some_iff.mp h
    obtain ⟨nodes, -, rfl⟩ := Option.map_eq_some_iff.mp hp
    have hother : it ≠ it' := fun heq => hnew stack (heq ▸ rfl)
    exact Finmap.lookup_insert_of_ne _ hother
  | iteratorNext handle =>
    obtain ⟨r, hr, rfl⟩ := Option.map_eq_some_iff.mp h
    exact (stackIteratorNext_spec hr).2 it fun heq => hleaves.1 (congrArg Call.iteratorNext heq)
  | iteratorDestroy handle =>
    obtain ⟨p, hp, rfl⟩ := Option.map_eq_some_iff.mp h
    exact (stackIteratorDestroy_spec hp).2 it fun heq => hleaves.2 (congrArg Call.iteratorDestroy heq)
  | mapCreate m =>
    cases h
    rfl
  | savePair map key addressStack typeStack =>
    obtain ⟨r, hr, rfl⟩ := Option.map_eq_some_iff.mp h
    cases map with
    | none =>
      cases hr
      rfl
    | some m =>
      obtain ⟨pairs, -, -, -, hsame⟩ := stackStateSavePair_spec hr
      exact congrArg (·.lookup it) hsame
  | loadPair map key =>
    obtain ⟨r, hr, hc⟩ := Option.map_eq_some_iff.mp h
    have hprocess : c'.process = r.1 := by
      rw [← hc]
      split
      · rfl
      · rfl
    rw [hprocess, (stackStateLoadPair_spec hr).2]
  | remove map key =>
    obtain ⟨r, hr, rfl⟩ := Option.map_eq_some_iff.mp h
    cases map with
    | none =>
      cases hr
      rfl
    | some m =>
      obtain ⟨pairs, -, -, -, hsame⟩ := stackStateRemove_spec hr
      exact congrArg (·.lookup it) hsame
  | mapDestroy map order =>
    obtain ⟨p, hp, rfl⟩ := Option.map_eq_some_iff.mp h
    cases map with
    | none =>
      cases hp
      rfl
    | some m => exact congrArg (·.lookup it) (stackStateMapDestroy_spec hp).2
  | registrySave id map =>
    cases h
    exact congrArg (·.lookup it) (stackStateMapRegistrySave_rest c.process id map).2.2.2
  | registryClear =>
    cases h
    rfl

/-- A `next` leaves the iterator there. -/
theorem stackIteratorNext_present {p p' : Process} {it : Addr} {value : UInt64}
    (h : p.stackIteratorNext (some it) = some (p', value)) (a : Addr) :
    present p'.iterators a = present p.iterators a := by
  obtain ⟨current, hcurrent, h⟩ := Option.bind_eq_some_iff.mp h
  split at h
  · cases h
    rfl
  obtain ⟨n, -, h⟩ := Option.bind_eq_some_iff.mp h
  split at h
  · cases h
    rfl
  obtain ⟨nodes, -, h⟩ := Option.bind_eq_some_iff.mp h
  obtain ⟨nodes', -, h⟩ := Option.map_eq_some_iff.mp h
  cases h
  rw [present_insert]
  split
  · rename_i heq
    rw [← heq, present_of_mem (Finmap.mem_of_lookup_eq_some hcurrent)]
  · rfl

/-- An iterator is there from its creation to its destruction. -/
theorem iteratorEffect_next {c c' : Client} {call : Call} (hstep : Client.Step c call c') (it : Addr) :
    present c'.process.iterators it = (iteratorEffect it (c, call)).emplace (present c.process.iterators it) := by
  obtain ⟨hallowed, hnext⟩ := hstep
  have hothers : (∀ stack, call ≠ .iteratorCreate stack it) → call.LeavesIterator it →
      present c'.process.iterators it = present c.process.iterators it := by
    intro hnew hleaves
    rw [present, iterators_next hnext hnew hleaves, present]
  cases call with
  | iteratorCreate stack it' =>
    obtain ⟨p, hp, rfl⟩ := Option.map_eq_some_iff.mp hnext
    obtain ⟨nodes, -, rfl⟩ := Option.map_eq_some_iff.mp hp
    rw [present_insert]
    by_cases hit : it' = it
    · have hnone := present_eq_none.mpr hallowed.2
      simp [iteratorEffect, hit, hit ▸ hnone, Effect.emplace]
    · simp [iteratorEffect, hit, Effect.emplace]
  | iteratorNext handle =>
    obtain ⟨r, hr, rfl⟩ := Option.map_eq_some_iff.mp hnext
    cases handle with
    | none =>
      cases hr
      rfl
    | some it' => exact stackIteratorNext_present hr it
  | iteratorDestroy handle =>
    obtain ⟨p, hp, rfl⟩ := Option.map_eq_some_iff.mp hnext
    cases handle with
    | none =>
      cases hp
      rfl
    | some it' =>
      obtain ⟨current, -, hp⟩ := Option.bind_eq_some_iff.mp hp
      obtain ⟨nodes, -, rfl⟩ := Option.map_eq_some_iff.mp hp
      rw [present_erase]
      by_cases hit : it' = it <;> simp [iteratorEffect, hit, Effect.emplace]
  | _ => exact hothers (fun _ => Call.noConfusion) ⟨Call.noConfusion, Call.noConfusion⟩

/-- A map is there from its creation to its destruction. -/
theorem mapPresence_next {c c' : Client} {call : Call} (hstep : Client.Step c call c') (m : Addr) :
    present c'.process.maps m = (mapPresence m (c, call)).emplace (present c.process.maps m) := by
  have hallowed := hstep.1
  have hcall := afterCall_next hstep.1 hstep.2
  generalize c'.process = p' at hcall ⊢
  cases hcall with
  | @nodes call p' hcall _ hmaps =>
    rw [hmaps]
    cases call with
    | mapCreate => cases hcall
    | mapDestroy => cases hcall
    | _ => rfl
  | created m' =>
    rw [Process.stackStateMapCreate, present_insert]
    by_cases hm : m' = m
    · have hnone := present_eq_none.mpr hallowed
      simp [mapPresence, hm, hm ▸ hnone, Effect.emplace]
    · simp [mapPresence, hm, Effect.emplace]
  | @saved m' key addressStack typeStack pairs p' hpairs honly =>
    rw [honly.maps, present_insert]
    split
    · rename_i heq
      rw [← heq, present_of_mem (Finmap.mem_of_lookup_eq_some hpairs)]
      rfl
    · rfl
  | @removed m' key pairs p' hpairs honly =>
    rw [honly.maps, present_insert]
    split
    · rename_i heq
      rw [← heq, present_of_mem (Finmap.mem_of_lookup_eq_some hpairs)]
      rfl
    · rfl
  | notDestroyed order => rfl
  | @destroyed m' order p' honly =>
    rw [honly.maps, present_erase]
    by_cases hm : m' = m <;> simp [mapPresence, hm, Effect.emplace]
  | registered id map =>
    rw [(stackStateMapRegistrySave_rest c.process id map).2.1]
    rfl
  | cleared => rfl

/-- There are no iterators and no maps left exactly if all have been destroyed. -/
theorem allDestroyed_iff {steps : List (Client × Call)} {last : Client}
    (hrun : Run Client.Step Client.start steps last) :
    AllDestroyed steps ↔ last.process.iterators = ∅ ∧ last.process.maps = ∅ := by
  have hiterators : ∀ it, present last.process.iterators it = none ↔ Vacant (iteratorEffect it) steps := fun it =>
    (Run.lookup_first_iff (fun _ _ _ hstep => iteratorEffect_next hstep it) hrun rfl).1
  have hmaps : ∀ m, present last.process.maps m = none ↔ Vacant (mapPresence m) steps := fun m =>
    (Run.lookup_first_iff (fun _ _ _ hstep => mapPresence_next hstep m) hrun rfl).1
  rw [eq_empty_iff_present, eq_empty_iff_present]
  simp only [hiterators, hmaps, AllDestroyed, forall_and]

end Wasmig
