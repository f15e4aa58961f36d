import Wasmig.Base.Objects
import Wasmig.Table.ForwardMap

/-! Address maps and forbidden lists in a process, and the ones it keeps at hand
(`table_v3.cpp`, `registry.cpp`).

A process has any number of both, at addresses that `malloc` may give out again. Two static
variables keep the handle that was saved last. Lookups in a map or a list depend on the
calls on it since it was created (`tables_history`). Destroying an object does not clear the
variable that keeps its handle, so `load` may hand out a dangling handle:
`registry_usable_iff` says when. -/
namespace Wasmig
open Base

/-! ### Forbidden lists -/

/-- `std::set<uint64_t>`. It is what a `CheckpointForbiddenList` that is not null points to. -/
abbrev ForbiddenList := Finset UInt64

/-- `wasmig_forbidden_list_create` when it succeeds. -/
def forbiddenListCreate : ForbiddenList := ∅

/-- `wasmig_forbidden_list_add(list, addr)`; a new entry may find no memory. -/
def forbiddenListAdd (list : ForbiddenList) (alloc : Bool) (addr : UInt64) : Bool × ForbiddenList :=
  if addr ∈ list ∨ alloc = true then (true, insert addr list) else (false, list)

/-- `wasmig_forbidden_list_contains(list, addr)`. -/
def forbiddenListContains (list : ForbiddenList) (addr : UInt64) : Bool := decide (addr ∈ list)

/-- `wasmig_forbidden_list_remove(list, addr)`. -/
def forbiddenListRemove (list : ForbiddenList) (addr : UInt64) : Bool × ForbiddenList :=
  (decide (addr ∈ list), list.erase addr)

/-- `wasmig_forbidden_list_size(list)`. -/
def forbiddenListSize (list : ForbiddenList) : Nat := list.card

/-- The calls that change a list. -/
inductive ForbiddenListUpdate where
  | add (alloc : Bool) (addr : UInt64)
  | remove (addr : UInt64)

/-- What a call returns, and the list after it. -/
def ForbiddenListUpdate.call (list : ForbiddenList) : ForbiddenListUpdate → Bool × ForbiddenList
  | .add alloc addr => forbiddenListAdd list alloc addr
  | .remove addr => forbiddenListRemove list addr

/-- What a call does to an address: an addition that returns `true` sets it. -/
def forbiddenEffect (addr : UInt64) (list : ForbiddenList) : ForbiddenListUpdate → Effect Unit
  | .add alloc addr' => if addr' = addr ∧ (forbiddenListAdd list alloc addr').1 = true then .set () else .keep
  | .remove addr' => if addr' = addr then .clear else .keep

/-- An address of a list, as a place in it. -/
def forbidden (addr : UInt64) (list : ForbiddenList) : Option Unit := if addr ∈ list then some () else none

theorem forbidden_iff {addr : UInt64} {list : ForbiddenList} :
    forbidden addr list = some () ↔ forbiddenListContains list addr = true := by
  unfold forbidden forbiddenListContains
  by_cases h : addr ∈ list <;> simp [h]

/-- One call, as an address sees it. -/
theorem forbidden_call (addr : UInt64) (list : ForbiddenList) (update : ForbiddenListUpdate) :
    forbidden addr (update.call list).2 = (forbiddenEffect addr list update).apply (forbidden addr list) := by
  cases update with
  | add alloc addr' =>
    by_cases hentry : addr' ∈ list ∨ alloc = true
    · have hadd : forbiddenListAdd list alloc addr' = (true, insert addr' list) := if_pos hentry
      by_cases hsame : addr' = addr
      · cases hsame
        simp [forbiddenEffect, ForbiddenListUpdate.call, hadd, forbidden, Effect.apply]
      · simp [forbiddenEffect, ForbiddenListUpdate.call, hadd, forbidden, Effect.apply, hsame, Ne.symm hsame]
    · have hadd : forbiddenListAdd list alloc addr' = (false, list) := if_neg hentry
      simp [forbiddenEffect, ForbiddenListUpdate.call, hadd, Effect.apply]
  | remove addr' =>
    simp only [forbiddenEffect, ForbiddenListUpdate.call, forbiddenListRemove]
    by_cases hsame : addr' = addr
    · simp [forbidden, Effect.apply, hsame]
    · simp [forbidden, Effect.apply, hsame, Ne.symm hsame]

/-! ### The process -/

/-- A `set_backward` does not look whether it is given a map. -/
def AddressMapUpdate.NullSafe : AddressMapUpdate → Prop
  | .setBackward .. => False
  | _ => True

def addressMaps : Kind AddressMap AddressMapUpdate where
  init := addressMapCreate
  next map update := (update.call map).2
  nullSafe := AddressMapUpdate.NullSafe

def forbiddenLists : Kind ForbiddenList ForbiddenListUpdate where
  init := forbiddenListCreate
  next list update := (update.call list).2
  nullSafe _ := True

/-- The maps and lists of a process, and the handles it keeps, 0 for `NULL`. -/
structure TableProcess where
  maps : Objects AddressMap
  lists : Objects ForbiddenList
  /-- `g_address_map_singleton`. -/
  addressMapSingleton : Nat
  /-- `g_forbidden_list_singleton`. -/
  forbiddenListSingleton : Nat

namespace TableProcess

/-- `wasmig_address_map_save(map)`. -/
def addressMapSave (p : TableProcess) (map : Nat) : Bool × TableProcess := (true, {p with addressMapSingleton := map})

/-- `wasmig_address_map_load()`. -/
def addressMapLoad (p : TableProcess) : Nat := p.addressMapSingleton

/-- `wasmig_address_map_exists()`. -/
def addressMapExists (p : TableProcess) : Bool := p.addressMapSingleton != 0

/-- `wasmig_address_map_clear()`. -/
def addressMapClear (p : TableProcess) : TableProcess := {p with addressMapSingleton := 0}

/-- `wasmig_forbidden_list_save(list)`. -/
def forbiddenListSave (p : TableProcess) (list : Nat) : Bool × TableProcess :=
  (true, {p with forbiddenListSingleton := list})

/-- `wasmig_forbidden_list_load()`. -/
def forbiddenListLoad (p : TableProcess) : Nat := p.forbiddenListSingleton

/-- `wasmig_forbidden_list_exists()`. -/
def forbiddenListExists (p : TableProcess) : Bool := p.forbiddenListSingleton != 0

/-- `wasmig_forbidden_list_clear()`. -/
def forbiddenListClear (p : TableProcess) : TableProcess := {p with forbiddenListSingleton := 0}

/-- A process that has no maps and no lists yet. -/
def start : TableProcess := ⟨fun _ => none, fun _ => none, 0, 0⟩

end TableProcess

inductive TableAction where
  | addressMap (action : ObjectAction AddressMapUpdate)
  | addressMapSave (map : Nat)
  | addressMapClear
  | forbiddenList (action : ObjectAction ForbiddenListUpdate)
  | forbiddenListSave (list : Nat)
  | forbiddenListClear

/-- A step of a process that passes on only handles it may use. A new object is put where
there is neither a map nor a list. -/
inductive TableProcess.Step (p : TableProcess) : TableAction → TableProcess → Prop where
  | addressMap {action : ObjectAction AddressMapUpdate} {maps : Objects AddressMap}
    (step : addressMaps.Step p.maps action maps)
    (apart : ∀ address, action = .create address → p.lists address = none) :
    Step p (.addressMap action) {p with maps := maps}
  | addressMapSave {map : Nat} (usable : p.maps.Usable map) : Step p (.addressMapSave map) (p.addressMapSave map).2
  | addressMapClear : Step p .addressMapClear p.addressMapClear
  | forbiddenList {action : ObjectAction ForbiddenListUpdate} {lists : Objects ForbiddenList}
    (step : forbiddenLists.Step p.lists action lists)
    (apart : ∀ address, action = .create address → p.maps address = none) :
    Step p (.forbiddenList action) {p with lists := lists}
  | forbiddenListSave {list : Nat} (usable : p.lists.Usable list) :
    Step p (.forbiddenListSave list) (p.forbiddenListSave list).2
  | forbiddenListClear : Step p .forbiddenListClear p.forbiddenListClear

/-! ### What maps and lists hold -/

/-- What an action does to the address of a position in a map. -/
def mapEffect (handle : Nat) (fidx offset : UInt32) : TableProcess × TableAction → Effect UInt64
  | (p, .addressMap action) =>
    Kind.effectAt (fun map update => forwardEffect fidx offset (map, update)) handle p.maps action
  | _ => .keep

/-- What an action does to an address in a list. -/
def listEffect (handle : Nat) (addr : UInt64) : TableProcess × TableAction → Effect Unit
  | (p, .forbiddenList action) => Kind.effectAt (forbiddenEffect addr) handle p.lists action
  | _ => .keep

theorem mapEffect_step {handle : Nat} (hhandle : handle ≠ 0) (fidx offset : UInt32) (p : TableProcess)
    (action : TableAction) (p' : TableProcess) (hstep : p.Step action p') :
    (p'.maps handle).bind (addressMapGetValue · fidx offset) =
      (mapEffect handle fidx offset (p, action)).apply ((p.maps handle).bind (addressMapGetValue · fidx offset)) := by
  cases hstep with
  | addressMap step apart =>
    exact step.bind_place rfl
      (fun map update => forwardEffect_step fidx offset map update _ rfl) hhandle
  | _ => rfl

theorem listEffect_step {handle : Nat} (hhandle : handle ≠ 0) (addr : UInt64) (p : TableProcess)
    (action : TableAction) (p' : TableProcess) (hstep : p.Step action p') :
    (p'.lists handle).bind (forbidden addr) =
      (listEffect handle addr (p, action)).apply ((p.lists handle).bind (forbidden addr)) := by
  cases hstep with
  | forbiddenList step apart => exact step.bind_place rfl (forbidden_call addr) hhandle
  | _ => rfl

/-- Over any run, with any number of maps and lists and addresses used again: a lookup in a
map gives what the last call on that map that bound the position or removed it left, the
map's creation being a call that removes everything; a list contains the addresses whose
last call on it was an addition that returned `true`, and its size is their number. -/
theorem tables_history {steps : List (TableProcess × TableAction)} {last : TableProcess}
    (hrun : Run TableProcess.Step TableProcess.start steps last) {handle : Nat} (hhandle : handle ≠ 0) :
    (∀ map, last.maps handle = some map → ∀ fidx offset value,
      (addressMapGetValue map fidx offset = some value ↔ LastSet (mapEffect handle fidx offset) steps value)) ∧
    (∀ list, last.lists handle = some list →
      (∀ addr, forbiddenListContains list addr = true ↔ LastSet (listEffect handle addr) steps ()) ∧
      forbiddenListSize list = Set.ncard {addr | LastSet (listEffect handle addr) steps ()}) := by
  constructor
  · intro map hmap fidx offset value
    have hlookup := Run.lookup_iff (mapEffect_step hhandle fidx offset) hrun value
    rw [hmap] at hlookup
    refine hlookup.trans (or_iff_left ?_)
    rintro ⟨hstart, -⟩
    cases hstart
  · intro list hlist
    have hcontains : ∀ addr, forbiddenListContains list addr = true ↔ LastSet (listEffect handle addr) steps () := by
      intro addr
      have hlookup := Run.lookup_iff (listEffect_step hhandle addr) hrun ()
      rw [hlist] at hlookup
      refine forbidden_iff.symm.trans (hlookup.trans (or_iff_left ?_))
      rintro ⟨hstart, -⟩
      cases hstart
    refine ⟨hcontains, ?_⟩
    simp only [← hcontains, forbiddenListContains, decide_eq_true_eq]
    exact (Set.ncard_coe_finset list).symm

/-- A list is destroyed and another created where it was: it starts empty. -/
theorem tables_history_recreated :
    ∃ steps last list, Run TableProcess.Step TableProcess.start steps last ∧ last.lists 64 = some list ∧
      ∀ addr, forbiddenListContains list addr = true ↔ LastSet (listEffect 64 addr) steps () := by
  have hfirst : TableProcess.start.lists 64 = none := rfl
  have hrun : Run TableProcess.Step TableProcess.start _ _ :=
    .cons (.forbiddenList (.create hfirst (by decide)) fun _ _ => rfl)
      (.cons (.forbiddenList (.call (Function.update_self ..) (.add true 6)) fun _ _ => rfl)
        (.cons (.forbiddenList (.destroy (Function.update_self ..)) fun _ _ => rfl)
          (.cons (.forbiddenList (.create (Function.update_self ..) (by decide)) fun _ _ => rfl)
            (.cons (.forbiddenList (.call (Function.update_self ..) (.add true 7)) fun _ _ => rfl) (.nil _)))))
  refine ⟨_, _, forbiddenLists.next forbiddenLists.init (.add true 7), hrun, rfl, ?_⟩
  exact ((tables_history hrun (show 64 ≠ 0 by decide)).2 _ rfl).1

/-! ### The handles a process keeps -/

namespace TableProcess

/-- Neither `load` hands out a dangling handle. -/
def Sound (p : TableProcess) : Prop := p.maps.Usable p.addressMapLoad ∧ p.lists.Usable p.forbiddenListLoad

/-- The object destroyed is one that was saved. -/
def DestroysSaved (p : TableProcess) : TableAction → Prop
  | .addressMap action => action = .destroy p.addressMapLoad ∧ p.addressMapLoad ≠ 0
  | .forbiddenList action => action = .destroy p.forbiddenListLoad ∧ p.forbiddenListLoad ≠ 0
  | _ => False

theorem Step.sound_iff {p p' : TableProcess} {action : TableAction} (hstep : p.Step action p') (hp : p.Sound) :
    p'.Sound ↔ ¬ p.DestroysSaved action := by
  obtain ⟨hmap, hlist⟩ := hp
  cases hstep with
  | addressMap step apart => exact (and_iff_left hlist).trans (step.usable_iff hmap)
  | forbiddenList step apart => exact (and_iff_right hmap).trans (step.usable_iff hlist)
  | addressMapSave usable => exact iff_of_true ⟨usable, hlist⟩ not_false
  | forbiddenListSave usable => exact iff_of_true ⟨hmap, usable⟩ not_false
  | addressMapClear => exact iff_of_true ⟨.inl rfl, hlist⟩ not_false
  | forbiddenListClear => exact iff_of_true ⟨hmap, .inl rfl⟩ not_false

/-- A handle, unless it is `NULL`. -/
def nonNull (handle : Nat) : Option Nat := if handle = 0 then none else some handle

/-- What is done to the handle that is kept: it is set or, by saving `NULL`, cleared. -/
def keptEffect (handle : Nat) : Effect Nat := if handle = 0 then .clear else .set handle

theorem nonNull_kept (handle : Nat) (old : Option Nat) : nonNull handle = (keptEffect handle).apply old := by
  unfold nonNull keptEffect
  split <;> rfl

/-- What an action does to the map that is kept. -/
def keptMapEffect : TableProcess × TableAction → Effect Nat
  | (_, .addressMapSave map) => keptEffect map
  | (_, .addressMapClear) => .clear
  | _ => .keep

/-- What an action does to the list that is kept. -/
def keptListEffect : TableProcess × TableAction → Effect Nat
  | (_, .forbiddenListSave list) => keptEffect list
  | (_, .forbiddenListClear) => .clear
  | _ => .keep

theorem keptMapEffect_step (p : TableProcess) (action : TableAction) (p' : TableProcess) (hstep : p.Step action p') :
    nonNull p'.addressMapLoad = (keptMapEffect (p, action)).apply (nonNull p.addressMapLoad) := by
  cases hstep with
  | addressMapSave usable => exact nonNull_kept _ _
  | _ => rfl

theorem keptListEffect_step (p : TableProcess) (action : TableAction) (p' : TableProcess) (hstep : p.Step action p') :
    nonNull p'.forbiddenListLoad = (keptListEffect (p, action)).apply (nonNull p.forbiddenListLoad) := by
  cases hstep with
  | forbiddenListSave usable => exact nonNull_kept _ _
  | _ => rfl

theorem kept_iff {load : TableProcess → Nat} {effect : TableProcess × TableAction → Effect Nat}
    (hstep : ∀ p action p', p.Step action p' → nonNull (load p') = (effect (p, action)).apply (nonNull (load p)))
    (hstart : load start = 0) {steps : List (TableProcess × TableAction)} {last : TableProcess}
    (hrun : Run Step start steps last) {handle : Nat} (hhandle : handle ≠ 0) :
    load last = handle ↔ LastSet effect steps handle := by
  have hlookup := Run.lookup_iff hstep hrun handle
  have hload : nonNull (load last) = some handle ↔ load last = handle := by
    unfold nonNull
    split
    · rename_i hnull
      exact iff_of_false nofun fun heq => hhandle (heq.symm.trans hnull)
    · exact Option.some_inj
  refine hload.symm.trans (hlookup.trans (or_iff_left ?_))
  rintro ⟨hfirst, -⟩
  rw [hstart] at hfirst
  cases hfirst

end TableProcess

open TableProcess in
/-- Over any run in which only usable handles are passed on, `load` hands out the handle that
was saved last, or `NULL` if there was none or it was cleared since; and it is the handle of
an object there is, in every state of the run, exactly if no step destroys the object whose
handle is kept at the time. -/
theorem registry_usable_iff {steps : List (TableProcess × TableAction)} {last : TableProcess}
    (hrun : Run TableProcess.Step start steps last) :
    (Run.Throughout TableProcess.Sound steps last ↔ ∀ step ∈ steps, ¬ step.1.DestroysSaved step.2) ∧
    (∀ map, map ≠ 0 → (last.addressMapLoad = map ↔ LastSet keptMapEffect steps map)) ∧
    (∀ list, list ≠ 0 → (last.forbiddenListLoad = list ↔ LastSet keptListEffect steps list)) ∧
    (last.addressMapExists = true ↔ ∃ map, map ≠ 0 ∧ LastSet keptMapEffect steps map) ∧
    (last.forbiddenListExists = true ↔ ∃ list, list ≠ 0 ∧ LastSet keptListEffect steps list) := by
  have hmap : ∀ map, map ≠ 0 → (last.addressMapLoad = map ↔ LastSet keptMapEffect steps map) :=
    fun map hne => kept_iff keptMapEffect_step rfl hrun hne
  have hlist : ∀ list, list ≠ 0 → (last.forbiddenListLoad = list ↔ LastSet keptListEffect steps list) :=
    fun list hne => kept_iff keptListEffect_step rfl hrun hne
  refine ⟨Run.invariant_iff (fun p action p' hstep hp => hstep.sound_iff hp) hrun ⟨.inl rfl, .inl rfl⟩, hmap, hlist,
    ?_, ?_⟩
  · refine Iff.trans (bne_iff_ne (b := 0)) ⟨fun hne => ⟨_, hne, (hmap _ hne).mp rfl⟩, ?_⟩
    rintro ⟨map, hne, hset⟩
    exact ne_of_eq_of_ne ((hmap map hne).mpr hset) hne
  · refine Iff.trans (bne_iff_ne (b := 0)) ⟨fun hne => ⟨_, hne, (hlist _ hne).mp rfl⟩, ?_⟩
    rintro ⟨list, hne, hset⟩
    exact ne_of_eq_of_ne ((hlist list hne).mpr hset) hne

/-- A list that is saved and then destroyed. -/
theorem registry_usable_iff_dangling :
    ∃ steps last, Run TableProcess.Step TableProcess.start steps last ∧
      (last.forbiddenListLoad = 96 ↔ LastSet TableProcess.keptListEffect steps 96) := by
  have hfirst : TableProcess.start.lists 96 = none := rfl
  have hrun : Run TableProcess.Step TableProcess.start _ _ :=
    .cons (.forbiddenList (.create hfirst (by decide)) fun _ _ => rfl)
      (.cons (.forbiddenListSave (show Objects.Usable _ 96 from .inr (by simp)))
        (.cons (.forbiddenList (.destroy (Function.update_self ..)) fun _ _ => rfl) (.nil _)))
  exact ⟨_, _, hrun, (registry_usable_iff hrun).2.2.1 96 (by decide)⟩

end Wasmig
