import Wasmig.Base.History
import Wasmig.Table.AddressMap
import Mathlib.Data.Set.Card

/-! The address map as a map from code positions.

Four calls change an address map, and what `wasmig_address_map_get_value` and its
companions report is decided by the forward table alone: by the last call that bound the
position or removed it (`addressMap_forward`). `set_backward` leaves that table alone, and
packing keeps positions apart. -/
namespace Wasmig
open Base

/-- `wasmig_address_map_set_forward(map, fidx, offset, value)`. -/
def addressMapSetForward (map : AddressMap) (alloc : Bool) (fidx offset : UInt32) (value : UInt64) :
    Bool × AddressMap :=
  match assign map.kvImpl alloc (packFidxOffset fidx offset) value with
  | none => (false, map)
  | some kv => (true, {map with kvImpl := kv})

/-- `wasmig_address_map_set_backward(map, fidx, offset, value)`. -/
def addressMapSetBackward (map : AddressMap) (alloc : Bool) (fidx offset : UInt32) (value : UInt64) :
    Bool × AddressMap :=
  match assign map.vkImpl alloc value (packFidxOffset fidx offset) with
  | none => (false, map)
  | some vk => (true, {map with vkImpl := vk})

/-- `wasmig_address_map_exist_value(map, fidx, offset)`. -/
def addressMapExistValue (map : AddressMap) (fidx offset : UInt32) : Bool :=
  decide (packFidxOffset fidx offset ∈ map.kvImpl)

/-- `wasmig_address_map_size(map)`. -/
def addressMapSize (map : AddressMap) : Nat := map.kvImpl.keys.card

/-! ### The calls -/

/-- The calls that change a map. -/
inductive AddressMapUpdate where
  | setBidirect (allocs : Allocs) (fidx offset : UInt32) (value : UInt64)
  | setForward (alloc : Bool) (fidx offset : UInt32) (value : UInt64)
  | setBackward (alloc : Bool) (fidx offset : UInt32) (value : UInt64)
  | remove (fidx offset : UInt32)

/-- What a call returns, and the map after it. -/
def AddressMapUpdate.call (map : AddressMap) : AddressMapUpdate → Bool × AddressMap
  | .setBidirect allocs fidx offset value => addressMapSetBidirect map allocs fidx offset value
  | .setForward alloc fidx offset value => addressMapSetForward map alloc fidx offset value
  | .setBackward alloc fidx offset value => addressMapSetBackward map alloc fidx offset value
  | .remove fidx offset => addressMapRemove map fidx offset

def AddressMapUpdate.Step (map : AddressMap) (update : AddressMapUpdate) (map' : AddressMap) : Prop :=
  map' = (update.call map).2

/-- What a call does to the address of a position. A binding sets it unless its forward
entry is a new one that finds no memory. -/
def forwardEffect (fidx offset : UInt32) : AddressMap × AddressMapUpdate → Effect UInt64
  | (map, .setBidirect allocs fidx' offset' value) =>
    if (fidx', offset') = (fidx, offset) ∧ (addressMapExistValue map fidx offset = true ∨ allocs.kv = true) then
      .set value
    else .keep
  | (map, .setForward alloc fidx' offset' value) =>
    if (fidx', offset') = (fidx, offset) ∧ (addressMapExistValue map fidx offset = true ∨ alloc = true) then
      .set value
    else .keep
  | (_, .setBackward ..) => .keep
  | (_, .remove fidx' offset') => if (fidx', offset') = (fidx, offset) then .clear else .keep

/-- An assignment in the forward table. -/
theorem lookup_assign (table : AddressTable) (alloc : Bool) (fidx offset fidx' offset' : UInt32)
    (value : UInt64) :
    ((assign table alloc (packFidxOffset fidx' offset') value).getD table).lookup (packFidxOffset fidx offset) =
      if (fidx', offset') = (fidx, offset) ∧ (packFidxOffset fidx offset ∈ table ∨ alloc = true) then some value
      else table.lookup (packFidxOffset fidx offset) := by
  unfold assign
  by_cases hsame : (fidx', offset') = (fidx, offset)
  · cases hsame
    by_cases hentry : packFidxOffset fidx offset ∈ table ∨ alloc = true
    · rw [if_pos hentry, Option.getD_some, Finmap.lookup_insert, if_pos ⟨rfl, hentry⟩]
    · rw [if_neg hentry, Option.getD_none, if_neg fun h => hentry h.2]
  · have hne : packFidxOffset fidx offset ≠ packFidxOffset fidx' offset' := fun h =>
      hsame (packFidxOffset_injective h).symm
    have hother : ¬ ((fidx', offset') = (fidx, offset) ∧
        (packFidxOffset fidx offset ∈ table ∨ alloc = true)) := fun h => hsame h.1
    rw [if_neg hother]
    split
    · rw [Option.getD_some, Finmap.lookup_insert_of_ne _ hne]
    · rfl

theorem setBidirect_kvImpl (map : AddressMap) (allocs : Allocs) (fidx offset : UInt32) (value : UInt64) :
    (addressMapSetBidirect map allocs fidx offset value).2.kvImpl =
      (assign map.kvImpl allocs.kv (packFidxOffset fidx offset) value).getD map.kvImpl := by
  rw [addressMapSetBidirect_eq]
  dsimp only
  cases assign map.kvImpl allocs.kv (packFidxOffset fidx offset) value with
  | none => rfl
  | some kv => rfl

theorem setForward_kvImpl (map : AddressMap) (alloc : Bool) (fidx offset : UInt32) (value : UInt64) :
    (addressMapSetForward map alloc fidx offset value).2.kvImpl =
      (assign map.kvImpl alloc (packFidxOffset fidx offset) value).getD map.kvImpl := by
  unfold addressMapSetForward
  cases assign map.kvImpl alloc (packFidxOffset fidx offset) value with
  | none => rfl
  | some kv => rfl

theorem setBackward_kvImpl (map : AddressMap) (alloc : Bool) (fidx offset : UInt32) (value : UInt64) :
    (addressMapSetBackward map alloc fidx offset value).2.kvImpl = map.kvImpl := by
  unfold addressMapSetBackward
  cases assign map.vkImpl alloc value (packFidxOffset fidx offset) with
  | none => rfl
  | some vk => rfl

/-- One call, as the address of a position sees it. -/
theorem forwardEffect_step (fidx offset : UInt32) (map : AddressMap) (update : AddressMapUpdate)
    (map' : AddressMap) (hstep : update.Step map map') :
    addressMapGetValue map' fidx offset =
      (forwardEffect fidx offset (map, update)).apply (addressMapGetValue map fidx offset) := by
  subst hstep
  unfold addressMapGetValue forwardEffect AddressMapUpdate.call addressMapExistValue
  cases update with
  | setBidirect allocs fidx' offset' value =>
    simp only [setBidirect_kvImpl, lookup_assign, decide_eq_true_eq]
    split
    · rfl
    · rfl
  | setForward alloc fidx' offset' value =>
    simp only [setForward_kvImpl, lookup_assign, decide_eq_true_eq]
    split
    · rfl
    · rfl
  | setBackward alloc fidx' offset' value =>
    simp only [setBackward_kvImpl]
    rfl
  | remove fidx' offset' =>
    simp only [(addressMapRemove_tables map fidx' offset').1]
    by_cases hsame : (fidx', offset') = (fidx, offset)
    · cases hsame
      rw [if_pos rfl, Finmap.lookup_erase]
      rfl
    · have hne : packFidxOffset fidx offset ≠ packFidxOffset fidx' offset' := fun h =>
        hsame (packFidxOffset_injective h).symm
      rw [if_neg hsame, Finmap.lookup_erase_ne hne]
      rfl

/-! ### What the map reports -/

theorem existValue_iff (map : AddressMap) (fidx offset : UInt32) :
    addressMapExistValue map fidx offset = true ↔ ∃ value, addressMapGetValue map fidx offset = some value := by
  rw [addressMapExistValue, decide_eq_true_eq, Finmap.mem_iff]
  rfl

/-- A remove finds what a lookup finds. -/
theorem remove_iff (map : AddressMap) (fidx offset : UInt32) :
    (addressMapRemove map fidx offset).1 = true ↔ ∃ value, addressMapGetValue map fidx offset = some value := by
  unfold addressMapRemove addressMapGetValue
  dsimp only
  cases map.kvImpl.lookup (packFidxOffset fidx offset) with
  | none => simp
  | some value => simp

/-- The size is the number of positions that have an address. -/
theorem size_eq (map : AddressMap) :
    addressMapSize map =
      {pair : UInt32 × UInt32 | ∃ value, addressMapGetValue map pair.1 pair.2 = some value}.ncard := by
  have hinj : Function.Injective fun pair : UInt32 × UInt32 => packFidxOffset pair.1 pair.2 :=
    fun _ _ h => packFidxOffset_injective h
  have hkeys : (↑map.kvImpl.keys : Set UInt64) =
      (fun pair : UInt32 × UInt32 => packFidxOffset pair.1 pair.2) ''
        {pair | ∃ value, addressMapGetValue map pair.1 pair.2 = some value} := by
    ext packed
    simp only [Finset.mem_coe, Finmap.mem_keys, Set.mem_image, Set.mem_ofPred_eq, Finmap.mem_iff,
      addressMapGetValue]
    constructor
    · intro h
      obtain ⟨value, hvalue⟩ := h
      exact ⟨unpackFidxOffset packed, ⟨value, (packFidxOffset_unpack packed).symm ▸ hvalue⟩,
        packFidxOffset_unpack packed⟩
    · rintro ⟨pair, hpair, rfl⟩
      exact hpair
  rw [addressMapSize, ← Set.ncard_coe_finset, hkeys, Set.ncard_image_of_injective _ hinj]

/-- What was inserted is found. -/
theorem assign_lookup {table table' : AddressTable} {alloc : Bool} {key value : UInt64}
    (h : assign table alloc key value = some table') : table'.lookup key = some value := by
  unfold assign at h
  split at h
  · cases h
    exact Finmap.lookup_insert _
  · cases h

/-- A backward entry is read as the position it was made from. -/
theorem setBackward_getKey {map : AddressMap} {alloc : Bool} {fidx offset : UInt32} {value : UInt64}
    (h : (addressMapSetBackward map alloc fidx offset value).1 = true) :
    addressMapGetKey (addressMapSetBackward map alloc fidx offset value).2 value = some (fidx, offset) := by
  unfold addressMapSetBackward at h ⊢
  cases hassign : assign map.vkImpl alloc value (packFidxOffset fidx offset) with
  | none =>
    rw [hassign] at h
    cases h
  | some vk => simp [addressMapGetKey, assign_lookup hassign, unpackFidxOffset_pack]

theorem setBidirect_getKey {map : AddressMap} {allocs : Allocs} {fidx offset : UInt32} {value : UInt64}
    (h : (addressMapSetBidirect map allocs fidx offset value).1 = true) :
    addressMapGetKey (addressMapSetBidirect map allocs fidx offset value).2 value = some (fidx, offset) := by
  have heq : addressMapSetBidirect map allocs fidx offset value =
      match assign map.kvImpl allocs.kv (packFidxOffset fidx offset) value with
      | none => (false, {map with vkImpl := unbind map.kvImpl map.vkImpl (packFidxOffset fidx offset)})
      | some kv =>
        match assign (unbind map.kvImpl map.vkImpl (packFidxOffset fidx offset)) allocs.vk value
          (packFidxOffset fidx offset) with
        | none => (false, ⟨kv, unbind map.kvImpl map.vkImpl (packFidxOffset fidx offset)⟩)
        | some vk => (true, ⟨kv, vk⟩) := by
    unfold addressMapSetBidirect unbind
    dsimp only
    cases map.kvImpl.lookup (packFidxOffset fidx offset) with
    | none => rfl
    | some old => rfl
  rw [heq] at h ⊢
  cases hkv : assign map.kvImpl allocs.kv (packFidxOffset fidx offset) value with
  | none =>
    rw [hkv] at h
    cases h
  | some kv =>
    rw [hkv] at h
    cases hvk : assign (unbind map.kvImpl map.vkImpl (packFidxOffset fidx offset)) allocs.vk value
        (packFidxOffset fidx offset) with
    | none =>
      rw [hvk] at h
      cases h
    | some vk => simp [addressMapGetKey, assign_lookup hvk, unpackFidxOffset_pack]

/-- After any calls on a new map, a position has the address it was bound to last unless it
has been removed since; the lookup, the existence test, the size and the result of a remove
all say so. `set_backward` changes none of them, the positions are kept apart by their
packing, and a reverse lookup unpacks the position that was packed. -/
theorem addressMap_forward {steps : List (AddressMap × AddressMapUpdate)} {last : AddressMap}
    (hrun : Run AddressMapUpdate.Step addressMapCreate steps last) :
    (∀ fidx offset value, addressMapGetValue last fidx offset = some value ↔
      LastSet (forwardEffect fidx offset) steps value) ∧
    (∀ fidx offset, addressMapExistValue last fidx offset = true ↔
      ∃ value, LastSet (forwardEffect fidx offset) steps value) ∧
    addressMapSize last =
      {pair : UInt32 × UInt32 | ∃ value, LastSet (forwardEffect pair.1 pair.2) steps value}.ncard ∧
    (∀ fidx offset, (addressMapRemove last fidx offset).1 = true ↔
      ∃ value, LastSet (forwardEffect fidx offset) steps value) ∧
    (∀ alloc fidx offset value,
      (∀ fidx' offset', addressMapGetValue (addressMapSetBackward last alloc fidx offset value).2 fidx' offset' =
        addressMapGetValue last fidx' offset') ∧
      (∀ fidx' offset', addressMapExistValue (addressMapSetBackward last alloc fidx offset value).2 fidx' offset' =
        addressMapExistValue last fidx' offset') ∧
      addressMapSize (addressMapSetBackward last alloc fidx offset value).2 = addressMapSize last ∧
      ((addressMapSetBackward last alloc fidx offset value).1 = true →
        addressMapGetKey (addressMapSetBackward last alloc fidx offset value).2 value = some (fidx, offset))) ∧
    (∀ allocs fidx offset value, (addressMapSetBidirect last allocs fidx offset value).1 = true →
      addressMapGetKey (addressMapSetBidirect last allocs fidx offset value).2 value = some (fidx, offset)) ∧
    ∀ fidx offset fidx' offset' : UInt32, packFidxOffset fidx offset = packFidxOffset fidx' offset' →
      (fidx, offset) = (fidx', offset') := by
  have hvalue : ∀ fidx offset value, addressMapGetValue last fidx offset = some value ↔
      LastSet (forwardEffect fidx offset) steps value := by
    intro fidx offset value
    have hnew : addressMapGetValue addressMapCreate fidx offset = none := Finmap.lookup_empty _
    rw [hrun.lookup_iff (forwardEffect_step fidx offset) value, hnew]
    exact or_iff_left fun h => by cases h.1
  refine ⟨hvalue, ?_, ?_, ?_, ?_, fun _ _ _ _ => setBidirect_getKey, fun _ _ _ _ => packFidxOffset_injective⟩
  · intro fidx offset
    simp only [existValue_iff, hvalue]
  · simp only [size_eq, hvalue]
  · intro fidx offset
    simp only [remove_iff, hvalue]
  · intro alloc fidx offset value
    have hkv := setBackward_kvImpl last alloc fidx offset value
    refine ⟨?_, ?_, ?_, setBackward_getKey⟩
    · intro fidx' offset'
      rw [addressMapGetValue, hkv]
      rfl
    · intro fidx' offset'
      rw [addressMapExistValue, hkv]
      rfl
    · rw [addressMapSize, hkv]
      rfl

/-- A position bound, bound again and looked up, with another one removed in between. -/
def reboundMap : AddressMap :=
  (AddressMapUpdate.call ((AddressMapUpdate.call ((AddressMapUpdate.call addressMapCreate
    (.setBidirect enough 1 2 0x10)).2) (.remove 2 1)).2) (.setForward true 1 2 0x20)).2

theorem addressMap_forward_rebound : addressMapGetValue reboundMap 1 2 = some 0x20 := by
  have hrun : Run AddressMapUpdate.Step addressMapCreate _ reboundMap :=
    .cons (a := .setBidirect enough 1 2 0x10) rfl (.cons (a := .remove 2 1) rfl
      (.cons (a := .setForward true 1 2 0x20) rfl (.nil _)))
  refine ((addressMap_forward hrun).1 1 2 0x20).mpr ⟨[_, _], _, [], rfl, ?_, ?_⟩
  · decide
  · simp

end Wasmig
