import Wasmig.Base.Inverse
import Wasmig.Base.Runs

/-! The address map (`table_v3.cpp`): code positions to addresses and back, in two
tables that are updated side by side.

`set_bidirect` takes the key's old address out of the backward table and then inserts in
both. It does not look at the key the new address was bound to, so binding an address a
second time leaves the first key in the forward table alone:
`addressMap_inverse_iff` says which runs keep the tables inverse. -/
namespace Wasmig
open Base

/-- `pack_fidx_offset`. -/
def packFidxOffset (fidx offset : UInt32) : UInt64 := (fidx.toUInt64 <<< 32) ||| offset.toUInt64

/-- `unpack_fidx_offset`. -/
def unpackFidxOffset (packed : UInt64) : UInt32 × UInt32 :=
  ((packed >>> 32).toUInt32, (packed &&& 0xffffffff).toUInt32)

theorem packFidxOffset_toNat (fidx offset : UInt32) :
    (packFidxOffset fidx offset).toNat = fidx.toNat * 2 ^ 32 + offset.toNat := by
  have hf := fidx.toNat_lt
  have ho := offset.toNat_lt
  have hshift : (fidx.toUInt64 <<< 32).toNat = fidx.toNat <<< 32 := by
    rw [UInt64.toNat_shiftLeft, UInt32.toNat_toUInt64]
    show fidx.toNat <<< 32 % 2 ^ 64 = _
    rw [Nat.shiftLeft_eq]
    exact Nat.mod_eq_of_lt (by omega)
  rw [packFidxOffset, UInt64.toNat_or, hshift, UInt32.toNat_toUInt64,
    ← Nat.shiftLeft_add_eq_or_of_lt (by omega), Nat.shiftLeft_eq]

theorem unpackFidxOffset_pack (fidx offset : UInt32) :
    unpackFidxOffset (packFidxOffset fidx offset) = (fidx, offset) := by
  have hf := fidx.toNat_lt
  have ho := offset.toNat_lt
  have hpack := packFidxOffset_toNat fidx offset
  refine Prod.ext (UInt32.toNat.inj ?_) (UInt32.toNat.inj ?_)
  · show ((packFidxOffset fidx offset) >>> 32).toUInt32.toNat = fidx.toNat
    rw [UInt64.toNat_toUInt32, UInt64.toNat_shiftRight, hpack]
    show (fidx.toNat * 2 ^ 32 + offset.toNat) >>> 32 % 2 ^ 32 = fidx.toNat
    rw [Nat.shiftRight_eq_div_pow]
    omega
  · show (packFidxOffset fidx offset &&& 0xffffffff).toUInt32.toNat = offset.toNat
    rw [UInt64.toNat_toUInt32, UInt64.toNat_and, hpack]
    show ((fidx.toNat * 2 ^ 32 + offset.toNat) &&& (2 ^ 32 - 1)) % 2 ^ 32 = offset.toNat
    rw [Nat.and_two_pow_sub_one_eq_mod]
    omega

/-- Every packed word is a packed position. -/
theorem packFidxOffset_unpack (packed : UInt64) :
    packFidxOffset (unpackFidxOffset packed).1 (unpackFidxOffset packed).2 = packed := by
  have hp := packed.toNat_lt
  refine UInt64.toNat.inj ?_
  rw [packFidxOffset_toNat]
  show (packed >>> 32).toUInt32.toNat * 2 ^ 32 + (packed &&& 0xffffffff).toUInt32.toNat = packed.toNat
  rw [UInt64.toNat_toUInt32, UInt64.toNat_toUInt32, UInt64.toNat_shiftRight, UInt64.toNat_and]
  show packed.toNat >>> 32 % 2 ^ 32 * 2 ^ 32 + (packed.toNat &&& (2 ^ 32 - 1)) % 2 ^ 32 = packed.toNat
  rw [Nat.shiftRight_eq_div_pow, Nat.and_two_pow_sub_one_eq_mod]
  omega

/-! ### The two tables -/

/-- `std::unordered_map<uint64_t, uint64_t>`. -/
abbrev AddressTable := Finmap fun _ : UInt64 => UInt64

/-- What an `AddressMap` that is not null points to. -/
structure AddressMap where
  /-- Packed positions to addresses. -/
  kvImpl : AddressTable
  /-- Addresses to packed positions. -/
  vkImpl : AddressTable

/-- Whether a new entry of each table finds memory. -/
structure Allocs where
  kv : Bool
  vk : Bool
deriving DecidableEq, Repr

/-- `table[key] = value`; `none` when it throws, which only a new entry can. -/
def assign (table : AddressTable) (alloc : Bool) (key value : UInt64) : Option AddressTable :=
  if key ∈ table ∨ alloc = true then some (table.insert key value) else none

/-- `wasmig_address_map_create` when it succeeds. -/
def addressMapCreate : AddressMap := ⟨∅, ∅⟩

/-- `wasmig_address_map_set_bidirect(map, fidx, offset, value)`; an entry that finds no
memory ends it where it is. -/
def addressMapSetBidirect (map : AddressMap) (allocs : Allocs) (fidx offset : UInt32) (value : UInt64) :
    Bool × AddressMap :=
  let packed := packFidxOffset fidx offset
  let vk := match map.kvImpl.lookup packed with
    | some old => map.vkImpl.erase old
    | none => map.vkImpl
  match assign map.kvImpl allocs.kv packed value with
  | none => (false, {map with vkImpl := vk})
  | some kv =>
    match assign vk allocs.vk value packed with
    | none => (false, ⟨kv, vk⟩)
    | some vk => (true, ⟨kv, vk⟩)

/-- `wasmig_address_map_get_key(map, value, ..)`. -/
def addressMapGetKey (map : AddressMap) (value : UInt64) : Option (UInt32 × UInt32) :=
  (map.vkImpl.lookup value).map unpackFidxOffset

/-- `wasmig_address_map_get_value(map, fidx, offset, ..)`. -/
def addressMapGetValue (map : AddressMap) (fidx offset : UInt32) : Option UInt64 :=
  map.kvImpl.lookup (packFidxOffset fidx offset)

/-- `wasmig_address_map_remove(map, fidx, offset)`. -/
def addressMapRemove (map : AddressMap) (fidx offset : UInt32) : Bool × AddressMap :=
  let packed := packFidxOffset fidx offset
  match map.kvImpl.lookup packed with
  | some value => (true, ⟨map.kvImpl.erase packed, map.vkImpl.erase value⟩)
  | none => (false, map)

/-! ### Runs -/

inductive AddressMapCall where
  | setBidirect (allocs : Allocs) (fidx offset : UInt32) (value : UInt64)
  | remove (fidx offset : UInt32)

/-- The map after a call. -/
def AddressMapCall.next (map : AddressMap) : AddressMapCall → AddressMap
  | .setBidirect allocs fidx offset value => (addressMapSetBidirect map allocs fidx offset value).2
  | .remove fidx offset => (addressMapRemove map fidx offset).2

/-- The calls on one map. -/
def AddressMapStep (map : AddressMap) (call : AddressMapCall) (map' : AddressMap) : Prop :=
  map' = call.next map

/-- The position of a value and the value of a position agree. -/
def MutuallyInverse (map : AddressMap) : Prop :=
  ∀ fidx offset value, addressMapGetValue map fidx offset = some value ↔
    addressMapGetKey map value = some (fidx, offset)

/-- The calls that keep them so: a binding takes an address that no other position has,
and its reverse entry finds memory (or the binding fails before it changes anything). -/
def KeepsInverse (map : AddressMap) : AddressMapCall → Prop
  | .setBidirect allocs fidx offset value =>
    (addressMapGetValue map fidx offset = none ∧ allocs.kv = false) ∨
    (allocs.vk = true ∧ ∀ fidx' offset', addressMapGetValue map fidx' offset' = some value →
      (fidx', offset') = (fidx, offset))
  | .remove _ _ => True

theorem packFidxOffset_injective {fidx offset fidx' offset' : UInt32}
    (h : packFidxOffset fidx offset = packFidxOffset fidx' offset') : (fidx, offset) = (fidx', offset') := by
  rw [← unpackFidxOffset_pack fidx offset, h, unpackFidxOffset_pack]

theorem mutuallyInverse_iff (map : AddressMap) : MutuallyInverse map ↔ Inverse map.kvImpl map.vkImpl := by
  constructor
  · intro h packed value
    have hp := h (unpackFidxOffset packed).1 (unpackFidxOffset packed).2 value
    rw [addressMapGetValue, packFidxOffset_unpack, addressMapGetKey, Option.map_eq_some_iff] at hp
    rw [hp]
    constructor
    · intro h
      obtain ⟨packed', hv, hu⟩ := h
      rw [hv, ← packFidxOffset_unpack packed', hu, packFidxOffset_unpack]
    · exact fun hv => ⟨packed, hv, rfl⟩
  · intro h fidx offset value
    rw [addressMapGetValue, h, addressMapGetKey, Option.map_eq_some_iff]
    constructor
    · exact fun hv => ⟨_, hv, unpackFidxOffset_pack fidx offset⟩
    · intro h
      obtain ⟨packed, hv, hu⟩ := h
      rw [hv, ← packFidxOffset_unpack packed, hu]

/-- A remove takes the pair out of both tables. -/
theorem addressMapRemove_tables (map : AddressMap) (fidx offset : UInt32) :
    (addressMapRemove map fidx offset).2.kvImpl = map.kvImpl.erase (packFidxOffset fidx offset) ∧
      (addressMapRemove map fidx offset).2.vkImpl =
        unbind map.kvImpl map.vkImpl (packFidxOffset fidx offset) := by
  unfold addressMapRemove unbind
  dsimp only
  cases hv : map.kvImpl.lookup (packFidxOffset fidx offset) with
  | some value => exact ⟨rfl, rfl⟩
  | none =>
    refine ⟨Finmap.ext_lookup fun packed => ?_, rfl⟩
    show map.kvImpl.lookup packed = _
    by_cases hp : packed = packFidxOffset fidx offset
    · rw [hp, Finmap.lookup_erase]
      exact hv
    · rw [Finmap.lookup_erase_ne hp]

/-- A binding takes the old pair out of the backward table, and then inserts the new
one in both. -/
theorem addressMapSetBidirect_eq (map : AddressMap) (allocs : Allocs) (fidx offset : UInt32) (value : UInt64) :
    (addressMapSetBidirect map allocs fidx offset value).2 =
      let packed := packFidxOffset fidx offset
      let vk := unbind map.kvImpl map.vkImpl packed
      match assign map.kvImpl allocs.kv packed value with
      | none => {map with vkImpl := vk}
      | some kv => ⟨kv, (assign vk allocs.vk value packed).getD vk⟩ := by
  unfold addressMapSetBidirect unbind
  dsimp only
  cases map.kvImpl.lookup (packFidxOffset fidx offset) with
  | some old =>
    dsimp only
    cases assign map.kvImpl allocs.kv (packFidxOffset fidx offset) value with
    | none => rfl
    | some kv =>
      dsimp only
      cases assign (map.vkImpl.erase old) allocs.vk value (packFidxOffset fidx offset) with
      | none => rfl
      | some vk => rfl
  | none =>
    dsimp only
    cases assign map.kvImpl allocs.kv (packFidxOffset fidx offset) value with
    | none => rfl
    | some kv =>
      dsimp only
      cases assign map.vkImpl allocs.vk value (packFidxOffset fidx offset) with
      | none => rfl
      | some vk => rfl

/-- An assignment is refused, or makes the entry. -/
theorem assign_cases (table : AddressTable) (alloc : Bool) (key value : UInt64) :
    (table.lookup key = none ∧ alloc = false ∧ assign table alloc key value = none) ∨
      (¬ (table.lookup key = none ∧ alloc = false) ∧
        assign table alloc key value = some (table.insert key value)) := by
  unfold assign
  by_cases h : key ∈ table ∨ alloc = true
  · rw [if_pos h]
    refine Or.inr ⟨fun hrefused => ?_, rfl⟩
    rcases h with hmem | htrue
    · exact Finmap.lookup_eq_none.mp hrefused.1 hmem
    · rw [hrefused.2] at htrue
      cases htrue
  · obtain ⟨hmem, halloc⟩ := not_or.mp h
    rw [if_neg h]
    exact Or.inl ⟨Finmap.lookup_eq_none.mpr hmem, eq_false_of_ne_true halloc, rfl⟩

/-- That no other position has an address, of packed positions. -/
theorem others_iff (map : AddressMap) (fidx offset : UInt32) (value : UInt64) :
    (∀ fidx' offset', addressMapGetValue map fidx' offset' = some value → (fidx', offset') = (fidx, offset)) ↔
      ∀ packed, map.kvImpl.lookup packed = some value → packed = packFidxOffset fidx offset := by
  constructor
  · intro hall packed hp
    rw [← packFidxOffset_unpack packed] at hp
    obtain ⟨hf, ho⟩ := Prod.mk.inj (hall _ _ hp)
    rw [← packFidxOffset_unpack packed, hf, ho]
  · exact fun hall fidx' offset' hp => packFidxOffset_injective (hall _ hp)

/-- A binding keeps inverse tables inverse exactly when no other position has the
address and its reverse entry is made, or when it is refused at once. -/
theorem keepsInverse_setBidirect {map : AddressMap} (h : Inverse map.kvImpl map.vkImpl) (allocs : Allocs)
    (fidx offset : UInt32) (value : UInt64) :
    Inverse (addressMapSetBidirect map allocs fidx offset value).2.kvImpl
        (addressMapSetBidirect map allocs fidx offset value).2.vkImpl ↔
      KeepsInverse map (.setBidirect allocs fidx offset value) := by
  unfold KeepsInverse
  dsimp only
  rw [others_iff, addressMapSetBidirect_eq, addressMapGetValue]
  generalize packFidxOffset fidx offset = packed
  dsimp only
  obtain ⟨hnone, halloc, hassign⟩ | ⟨hset, hassign⟩ := assign_cases map.kvImpl allocs.kv packed value
  · -- Nothing was there to take out, and nothing is put in.
    rw [hassign, unbind_of_none _ hnone]
    exact iff_of_true h (Or.inl ⟨hnone, halloc⟩)
  · rw [hassign, or_iff_right hset]
    unfold assign
    dsimp only
    by_cases hentry : value ∈ unbind map.kvImpl map.vkImpl packed
    · -- The address is another position's, whose entry is overwritten.
      rw [if_pos (Or.inl hentry), Option.getD_some, h.bind_iff]
      obtain ⟨packed', hp'⟩ := Finmap.mem_iff.mp hentry
      rw [lookup_unbind] at hp'
      split at hp'
      · cases hp'
      · rename_i hne
        have hother := (h packed' value).mpr hp'
        refine iff_of_false (fun hall => ?_) (fun hall => ?_)
        · exact hne (hall packed' hother ▸ hother)
        · exact hne (hall.2 packed' hother ▸ hother)
    · by_cases halloc : allocs.vk = true
      · rw [if_pos (Or.inr halloc), Option.getD_some, h.bind_iff, and_iff_right halloc]
      · rw [if_neg (not_or.mpr ⟨hentry, halloc⟩), Option.getD_none]
        exact iff_of_false (Inverse.not_half (Finmap.lookup_eq_none.mpr hentry)) (fun hall => halloc hall.1)

/-- One call on inverse tables. -/
theorem keepsInverse_iff (map : AddressMap) (call : AddressMapCall) (map' : AddressMap)
    (hstep : AddressMapStep map call map') (h : MutuallyInverse map) :
    MutuallyInverse map' ↔ KeepsInverse map call := by
  rw [mutuallyInverse_iff] at h ⊢
  subst hstep
  cases call with
  | setBidirect allocs fidx offset value => exact keepsInverse_setBidirect h allocs fidx offset value
  | remove fidx offset =>
    obtain ⟨hkv, hvk⟩ := addressMapRemove_tables map fidx offset
    refine iff_of_true ?_ trivial
    show Inverse (addressMapRemove map fidx offset).2.kvImpl (addressMapRemove map fidx offset).2.vkImpl
    rw [hkv, hvk]
    exact h.erase _

/-- The tables of a new map stay inverse throughout exactly the runs in which every
binding takes an address that no other position has. -/
theorem addressMap_inverse_iff {steps : List (AddressMap × AddressMapCall)} {last : AddressMap}
    (hrun : Run AddressMapStep addressMapCreate steps last) :
    Run.Throughout MutuallyInverse steps last ↔ ∀ p ∈ steps, KeepsInverse p.1 p.2 :=
  Run.invariant_iff keepsInverse_iff hrun ((mutuallyInverse_iff _).mpr Inverse.empty)

/-- Every entry finds memory. -/
def enough : Allocs := ⟨true, true⟩

/-- Two positions bound to one address. -/
def boundTwice : AddressMap :=
  (AddressMapCall.setBidirect enough 0 2 0x1000).next
    ((AddressMapCall.setBidirect enough 0 1 0x1000).next addressMapCreate)

private theorem boundTwice_run :
    ∃ steps, Run AddressMapStep addressMapCreate steps boundTwice :=
  ⟨_, .cons (a := .setBidirect enough 0 1 0x1000) rfl
    (.cons (a := .setBidirect enough 0 2 0x1000) rfl (.nil _))⟩

theorem addressMap_inverse_iff_bound_twice :
    ∃ steps, Run AddressMapStep addressMapCreate steps boundTwice ∧
      (Run.Throughout MutuallyInverse steps boundTwice ↔ ∀ p ∈ steps, KeepsInverse p.1 p.2) := by
  obtain ⟨steps, hrun⟩ := boundTwice_run
  exact ⟨steps, hrun, addressMap_inverse_iff hrun⟩

/-- The first of them still has the address, which is the second's. -/
theorem addressMap_not_inverse :
    ¬ ∀ steps last, Run AddressMapStep addressMapCreate steps last → MutuallyInverse last := by
  intro h
  obtain ⟨steps, hrun⟩ := boundTwice_run
  have hforward : addressMapGetValue boundTwice 0 1 = some 0x1000 := by decide
  have hback := (h steps boundTwice hrun 0 1 0x1000).mp hforward
  exact absurd hback (by decide)

end Wasmig
