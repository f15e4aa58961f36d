import Wasmig.Base.Links
import Wasmig.Table.ForwardMap

/-! The reverse table of the address map.

`set_bidirect` and `remove` take out the reverse entry of the address that the forward
table has for their position, whosever entry that is, and no other. When two positions
have had one address that entry may be the other's (`addressMap_others_iff`), and when
the two tables have been set apart it need not be the only one that names the position
(`addressMap_removed_iff`). -/
namespace Wasmig
open Base

/-! ### The tables as partial maps -/

/-- Positions to addresses, as a forward table has them. -/
def addressOf (kv : AddressTable) : UInt32 × UInt32 → Option UInt64 := fun position =>
  kv.lookup (packFidxOffset position.1 position.2)

/-- Addresses to positions, as a reverse table has them. -/
def positionOf (vk : AddressTable) : UInt64 → Option (UInt32 × UInt32) := fun address =>
  (vk.lookup address).map unpackFidxOffset

theorem addressOf_insert (kv : AddressTable) (fidx offset : UInt32) (value : UInt64) :
    addressOf (kv.insert (packFidxOffset fidx offset) value) =
      Function.update (addressOf kv) (fidx, offset) (some value) := by
  funext position
  by_cases h : position = (fidx, offset)
  · subst h
    rw [Function.update_self]
    exact Finmap.lookup_insert _
  · rw [Function.update_of_ne h]
    exact Finmap.lookup_insert_of_ne _ fun hp => h (packFidxOffset_injective hp)

theorem addressOf_erase (kv : AddressTable) (fidx offset : UInt32) :
    addressOf (kv.erase (packFidxOffset fidx offset)) = Function.update (addressOf kv) (fidx, offset) none := by
  funext position
  by_cases h : position = (fidx, offset)
  · subst h
    rw [Function.update_self]
    exact Finmap.lookup_erase ..
  · rw [Function.update_of_ne h]
    exact Finmap.lookup_erase_ne fun hp => h (packFidxOffset_injective hp)

theorem positionOf_insert (vk : AddressTable) (fidx offset : UInt32) (value : UInt64) :
    positionOf (vk.insert value (packFidxOffset fidx offset)) =
      Function.update (positionOf vk) value (some (fidx, offset)) := by
  funext address
  unfold positionOf
  by_cases h : address = value
  · subst h
    rw [Function.update_self, Finmap.lookup_insert, Option.map_some, unpackFidxOffset_pack]
  · rw [Function.update_of_ne h, Finmap.lookup_insert_of_ne _ h]

theorem positionOf_unbind (kv vk : AddressTable) (fidx offset : UInt32) :
    positionOf (unbind kv vk (packFidxOffset fidx offset)) =
      cut (addressOf kv) (positionOf vk) (fidx, offset) := by
  funext address
  rw [positionOf, lookup_unbind, apply_ite (Option.map unpackFidxOffset)]
  rfl

/-! ### What each call does to them -/

theorem setForward_links (map : AddressMap) (alloc : Bool) (fidx offset : UInt32) (value : UInt64) :
    (addressOf map.kvImpl (fidx, offset) = none ∧ alloc = false ∧
        (addressMapSetForward map alloc fidx offset value).2 = map) ∨
      (¬ (addressOf map.kvImpl (fidx, offset) = none ∧ alloc = false) ∧
        addressOf (addressMapSetForward map alloc fidx offset value).2.kvImpl =
          Function.update (addressOf map.kvImpl) (fidx, offset) (some value) ∧
        (addressMapSetForward map alloc fidx offset value).2.vkImpl = map.vkImpl) := by
  obtain ⟨hnone, halloc, hassign⟩ | ⟨hset, hassign⟩ :=
    assign_cases map.kvImpl alloc (packFidxOffset fidx offset) value
  · rw [addressMapSetForward, hassign]
    exact Or.inl ⟨hnone, halloc, rfl⟩
  · rw [addressMapSetForward, hassign]
    exact Or.inr ⟨hset, addressOf_insert .., rfl⟩

theorem setBackward_links (map : AddressMap) (alloc : Bool) (fidx offset : UInt32) (value : UInt64) :
    (positionOf map.vkImpl value = none ∧ alloc = false ∧
        (addressMapSetBackward map alloc fidx offset value).2 = map) ∨
      (¬ (positionOf map.vkImpl value = none ∧ alloc = false) ∧
        (addressMapSetBackward map alloc fidx offset value).2.kvImpl = map.kvImpl ∧
        positionOf (addressMapSetBackward map alloc fidx offset value).2.vkImpl =
          Function.update (positionOf map.vkImpl) value (some (fidx, offset))) := by
  have hnone : positionOf map.vkImpl value = none ↔ map.vkImpl.lookup value = none := Option.map_eq_none_iff
  rw [hnone]
  obtain ⟨hfree, halloc, hassign⟩ | ⟨hset, hassign⟩ :=
    assign_cases map.vkImpl alloc value (packFidxOffset fidx offset)
  · rw [addressMapSetBackward, hassign]
    exact Or.inl ⟨hfree, halloc, rfl⟩
  · rw [addressMapSetBackward, hassign]
    exact Or.inr ⟨hset, rfl, positionOf_insert ..⟩

/-- A removal clears the position and cuts its address. -/
theorem remove_links (map : AddressMap) (fidx offset : UInt32) :
    addressOf (addressMapRemove map fidx offset).2.kvImpl =
        Function.update (addressOf map.kvImpl) (fidx, offset) none ∧
      positionOf (addressMapRemove map fidx offset).2.vkImpl =
        cut (addressOf map.kvImpl) (positionOf map.vkImpl) (fidx, offset) := by
  obtain ⟨hkv, hvk⟩ := addressMapRemove_tables map fidx offset
  rw [hkv, hvk]
  exact ⟨addressOf_erase .., positionOf_unbind ..⟩

/-- A binding is refused at once, or sets the forward entry, having cut the old address; then
it sets the reverse entry if that finds memory. -/
theorem setBidirect_links (map : AddressMap) (allocs : Allocs) (fidx offset : UInt32) (value : UInt64) :
    (addressOf map.kvImpl (fidx, offset) = none ∧ allocs.kv = false ∧
        (addressMapSetBidirect map allocs fidx offset value).2 = map) ∨
      (¬ (addressOf map.kvImpl (fidx, offset) = none ∧ allocs.kv = false) ∧
        addressOf (addressMapSetBidirect map allocs fidx offset value).2.kvImpl =
          Function.update (addressOf map.kvImpl) (fidx, offset) (some value) ∧
        (cut (addressOf map.kvImpl) (positionOf map.vkImpl) (fidx, offset) value = none ∧ allocs.vk = false ∧
            positionOf (addressMapSetBidirect map allocs fidx offset value).2.vkImpl =
              cut (addressOf map.kvImpl) (positionOf map.vkImpl) (fidx, offset) ∨
          ¬ (cut (addressOf map.kvImpl) (positionOf map.vkImpl) (fidx, offset) value = none ∧
              allocs.vk = false) ∧
            positionOf (addressMapSetBidirect map allocs fidx offset value).2.vkImpl =
              Function.update (cut (addressOf map.kvImpl) (positionOf map.vkImpl) (fidx, offset)) value
                (some (fidx, offset)))) := by
  have hnone : cut (addressOf map.kvImpl) (positionOf map.vkImpl) (fidx, offset) value = none ↔
      (unbind map.kvImpl map.vkImpl (packFidxOffset fidx offset)).lookup value = none := by
    rw [← positionOf_unbind]
    exact Option.map_eq_none_iff
  rw [addressMapSetBidirect_eq, hnone]
  dsimp only
  obtain ⟨hnew, halloc, hassign⟩ | ⟨hset, hassign⟩ :=
    assign_cases map.kvImpl allocs.kv (packFidxOffset fidx offset) value
  · rw [hassign, unbind_of_none _ hnew]
    exact Or.inl ⟨hnew, halloc, rfl⟩
  rw [hassign]
  dsimp only
  refine Or.inr ⟨hset, addressOf_insert .., ?_⟩
  obtain ⟨hfree, halloc', hassign'⟩ | ⟨hset', hassign'⟩ :=
    assign_cases (unbind map.kvImpl map.vkImpl (packFidxOffset fidx offset)) allocs.vk value
      (packFidxOffset fidx offset)
  · rw [hassign', Option.getD_none, positionOf_unbind]
    exact Or.inl ⟨hfree, halloc', rfl⟩
  · rw [hassign', Option.getD_some, positionOf_insert, positionOf_unbind]
    exact Or.inr ⟨hset', rfl⟩

/-! ### Other positions' entries -/

/-- Binding or removing a position leaves every address but `value` with the other position
that it has. -/
def KeepsOthers (map : AddressMap) (fidx offset : UInt32) (value : UInt64) : Prop :=
  ∀ address, address ≠ value → ∀ fidx' offset', (fidx', offset') ≠ (fidx, offset) →
    addressMapGetKey map address = some (fidx', offset') →
    (∀ allocs, addressMapGetKey (addressMapSetBidirect map allocs fidx offset value).2 address =
      some (fidx', offset')) ∧
    addressMapGetKey (addressMapRemove map fidx offset).2 address = some (fidx', offset')

/-- The address of a position, unless it is `value`, resolves to no other position. -/
def HasOwnAddress (map : AddressMap) (fidx offset : UInt32) (value : UInt64) : Prop :=
  ∀ address, address ≠ value → addressMapGetValue map fidx offset = some address →
    ∀ fidx' offset', addressMapGetKey map address = some (fidx', offset') → (fidx', offset') = (fidx, offset)

/-- The calls that leave every position its own address: none makes an address that one
position has resolve to another, or has the forward table give a position an address that
resolves to another. A call that finds no memory for its entry does neither. -/
def KeepsOwnAddresses (map : AddressMap) : AddressMapUpdate → Prop
  | .setBidirect allocs fidx offset value =>
    (addressMapGetValue map fidx offset = none ∧ allocs.kv = false) ∨
    ((addressMapGetKey map value = none ∨ addressMapGetValue map fidx offset = some value) ∧ allocs.vk = false) ∨
    ∀ fidx' offset', addressMapGetValue map fidx' offset' = some value → (fidx', offset') = (fidx, offset)
  | .setForward alloc fidx offset value =>
    (addressMapGetValue map fidx offset = none ∧ alloc = false) ∨
    ∀ fidx' offset', addressMapGetKey map value = some (fidx', offset') → (fidx', offset') = (fidx, offset)
  | .setBackward alloc fidx offset value =>
    (addressMapGetKey map value = none ∧ alloc = false) ∨
    ∀ fidx' offset', addressMapGetValue map fidx' offset' = some value → (fidx', offset') = (fidx, offset)
  | .remove _ _ => True

/-- Of addresses other than the one bound, a binding only cuts the old one. -/
theorem setBidirect_getKey_of_ne (map : AddressMap) (allocs : Allocs) (fidx offset : UInt32)
    {value address : UInt64} (h : address ≠ value) :
    addressMapGetKey (addressMapSetBidirect map allocs fidx offset value).2 address =
      cut (addressOf map.kvImpl) (positionOf map.vkImpl) (fidx, offset) address := by
  show positionOf (addressMapSetBidirect map allocs fidx offset value).2.vkImpl address = _
  obtain ⟨hnone, -, hmap⟩ | ⟨-, -, ⟨-, -, hvk⟩ | ⟨-, hvk⟩⟩ := setBidirect_links map allocs fidx offset value
  · have hne : addressOf map.kvImpl (fidx, offset) ≠ some address := by
      rw [hnone]
      nofun
    rw [hmap, cut_of_ne hne]
  · rw [hvk]
  · rw [hvk, Function.update_of_ne h]

theorem keepsOthers_iff (map : AddressMap) (fidx offset : UInt32) (value : UInt64) :
    KeepsOthers map fidx offset value ↔ HasOwnAddress map fidx offset value := by
  have hcut := cut_keeps_iff (f := addressOf map.kvImpl) (g := positionOf map.vkImpl) (fidx, offset) value
  have hremove : ∀ address, addressMapGetKey (addressMapRemove map fidx offset).2 address =
      cut (addressOf map.kvImpl) (positionOf map.vkImpl) (fidx, offset) address :=
    fun address => congrFun (remove_links map fidx offset).2 address
  constructor
  · intro h address hne hvalue fidx' offset' hkey
    refine hcut.mp (fun address' hne' position hposition hkey' => ?_) address hne hvalue _ hkey
    rw [← hremove]
    exact (h address' hne' position.1 position.2 hposition hkey').2
  · intro h address hne fidx' offset' hother hkey
    have hkept := hcut.mpr (fun address' hne' hvalue position hkey' =>
      h address' hne' hvalue position.1 position.2 hkey') address hne _ hother hkey
    refine ⟨fun allocs => ?_, ?_⟩
    · rw [setBidirect_getKey_of_ne map allocs fidx offset hne]
      exact hkept
    · rw [hremove]
      exact hkept

/-- All positions have their own addresses when the tables share none. -/
theorem hasOwnAddress_iff (map : AddressMap) :
    (∀ fidx offset value, HasOwnAddress map fidx offset value) ↔
      Unshared (addressOf map.kvImpl) (positionOf map.vkImpl) := by
  constructor
  · intro h position address hvalue position' hkey
    have hne : address ≠ address + 1 := fun heq => by
      have hlt := address.toNat_lt
      have hnat := congrArg UInt64.toNat heq
      rw [UInt64.toNat_add] at hnat
      have hone : (1 : UInt64).toNat = 1 := rfl
      omega
    exact h position.1 position.2 _ address hne hvalue position'.1 position'.2 hkey
  · intro h fidx offset value address _ hvalue fidx' offset' hkey
    exact h (fidx, offset) address hvalue (fidx', offset') hkey

/-- One call on a map whose positions have their own addresses. -/
theorem keepsOwnAddresses_iff (map : AddressMap) (update : AddressMapUpdate) (map' : AddressMap)
    (hstep : update.Step map map') (h : Unshared (addressOf map.kvImpl) (positionOf map.vkImpl)) :
    Unshared (addressOf map'.kvImpl) (positionOf map'.vkImpl) ↔ KeepsOwnAddresses map update := by
  subst hstep
  cases update with
  | setBidirect allocs fidx offset value =>
    have hcut := cut_eq_none_iff (f := addressOf map.kvImpl) (g := positionOf map.vkImpl)
      (a := (fidx, offset)) (b := value)
    show Unshared (addressOf (addressMapSetBidirect map allocs fidx offset value).2.kvImpl)
      (positionOf (addressMapSetBidirect map allocs fidx offset value).2.vkImpl) ↔ _
    obtain ⟨hnone, halloc, hmap⟩ | ⟨hset, hkv, ⟨hnone, halloc, hvk⟩ | ⟨hboth, hvk⟩⟩ :=
      setBidirect_links map allocs fidx offset value
    · rw [hmap]
      exact iff_of_true h (Or.inl ⟨hnone, halloc⟩)
    · rw [hkv, hvk]
      exact iff_of_true (h.half hnone) (Or.inr (Or.inl ⟨hcut.mp hnone, halloc⟩))
    · rw [hkv, hvk, h.bind_iff]
      rw [hcut] at hboth
      exact Prod.forall.trans ((or_iff_right hboth).symm.trans (or_iff_right hset).symm)
  | setForward alloc fidx offset value =>
    show Unshared (addressOf (addressMapSetForward map alloc fidx offset value).2.kvImpl)
      (positionOf (addressMapSetForward map alloc fidx offset value).2.vkImpl) ↔ _
    obtain ⟨hnone, halloc, hmap⟩ | ⟨hset, hkv, hvk⟩ := setForward_links map alloc fidx offset value
    · rw [hmap]
      exact iff_of_true h (Or.inl ⟨hnone, halloc⟩)
    · rw [hkv, hvk, h.forward_iff]
      exact Prod.forall.trans (or_iff_right hset).symm
  | setBackward alloc fidx offset value =>
    show Unshared (addressOf (addressMapSetBackward map alloc fidx offset value).2.kvImpl)
      (positionOf (addressMapSetBackward map alloc fidx offset value).2.vkImpl) ↔ _
    obtain ⟨hnone, halloc, hmap⟩ | ⟨hset, hkv, hvk⟩ := setBackward_links map alloc fidx offset value
    · rw [hmap]
      exact iff_of_true h (Or.inl ⟨hnone, halloc⟩)
    · rw [hkv, hvk, h.backward_iff]
      exact Prod.forall.trans (or_iff_right hset).symm
  | remove fidx offset =>
    show Unshared (addressOf (addressMapRemove map fidx offset).2.kvImpl)
      (positionOf (addressMapRemove map fidx offset).2.vkImpl) ↔ _
    rw [(remove_links map fidx offset).1, (remove_links map fidx offset).2]
    exact iff_of_true (h.remove _) trivial

/-- After any calls on a new map, binding or removing a position leaves the others' addresses
alone exactly when the position's own address is no other's; and it does so for all
positions, throughout the run, exactly when every call leaves positions their own
addresses. -/
theorem addressMap_others_iff {steps : List (AddressMap × AddressMapUpdate)} {last : AddressMap}
    (hrun : Run AddressMapUpdate.Step addressMapCreate steps last) :
    (∀ fidx offset value, KeepsOthers last fidx offset value ↔ HasOwnAddress last fidx offset value) ∧
    (Run.Throughout (fun map => ∀ fidx offset value, KeepsOthers map fidx offset value) steps last ↔
      ∀ p ∈ steps, KeepsOwnAddresses p.1 p.2) := by
  refine ⟨keepsOthers_iff last, ?_⟩
  have hshared : ∀ map : AddressMap, (∀ fidx offset value, KeepsOthers map fidx offset value) ↔
      Unshared (addressOf map.kvImpl) (positionOf map.vkImpl) := by
    intro map
    simp only [keepsOthers_iff]
    exact hasOwnAddress_iff map
  have hnew : Unshared (addressOf addressMapCreate.kvImpl) (positionOf addressMapCreate.vkImpl) := by
    intro position address hvalue
    cases hvalue
  simp only [hshared]
  exact Run.invariant_iff keepsOwnAddresses_iff hrun hnew

private theorem boundTwice_updates :
    ∃ steps, Run AddressMapUpdate.Step addressMapCreate steps boundTwice :=
  ⟨_, .cons (a := .setBidirect enough 0 1 0x1000) rfl
    (.cons (a := .setBidirect enough 0 2 0x1000) rfl (.nil _))⟩

theorem addressMap_others_iff_bound_twice :
    KeepsOthers boundTwice 0 1 0x2000 ↔ HasOwnAddress boundTwice 0 1 0x2000 := by
  obtain ⟨steps, hrun⟩ := boundTwice_updates
  exact (addressMap_others_iff hrun).1 0 1 0x2000

/-- Removing the first position takes the second one's address. -/
theorem addressMap_others_lost :
    ¬ ∀ steps last, Run AddressMapUpdate.Step addressMapCreate steps last →
      ∀ fidx offset value, KeepsOthers last fidx offset value := by
  intro h
  obtain ⟨steps, hrun⟩ := boundTwice_updates
  have hkept := (h steps boundTwice hrun 0 1 0x2000 0x1000 (by decide) 0 2 (by decide) (by decide)).2
  exact absurd hkept (by decide)

/-! ### Traces of removed positions -/

/-- A removed position has no address, and no address resolves to it. -/
def LeavesNoTrace (map : AddressMap) (fidx offset : UInt32) : Prop :=
  addressMapGetValue (addressMapRemove map fidx offset).2 fidx offset = none ∧
    ∀ address, addressMapGetKey (addressMapRemove map fidx offset).2 address ≠ some (fidx, offset)

/-- Every address that resolves to a position is the one it has. -/
def OneAddress (map : AddressMap) (fidx offset : UInt32) : Prop :=
  ∀ address, addressMapGetKey map address = some (fidx, offset) → addressMapGetValue map fidx offset = some address

/-- The calls that keep it so for all positions: a position is set forward only to the
address that resolves to it, if one does, and an address backward only to a position that
has it. -/
def KeepsOneAddress (map : AddressMap) : AddressMapUpdate → Prop
  | .setBidirect _ _ _ _ => True
  | .setForward _ fidx offset value =>
    ∀ address, addressMapGetKey map address = some (fidx, offset) → address = value
  | .setBackward alloc fidx offset value =>
    (addressMapGetKey map value = none ∧ alloc = false) ∨ addressMapGetValue map fidx offset = some value
  | .remove _ _ => True

theorem leavesNoTrace_iff (map : AddressMap) (fidx offset : UInt32) :
    LeavesNoTrace map fidx offset ↔ OneAddress map fidx offset := by
  obtain ⟨hkv, hvk⟩ := remove_links map fidx offset
  have hcut := cut_traceless_iff (f := addressOf map.kvImpl) (g := positionOf map.vkImpl) (fidx, offset)
  rw [← hvk] at hcut
  have hvalue : addressMapGetValue (addressMapRemove map fidx offset).2 fidx offset = none := by
    show addressOf (addressMapRemove map fidx offset).2.kvImpl (fidx, offset) = none
    rw [hkv, Function.update_self]
  exact (and_iff_right hvalue).trans hcut

theorem oneAddress_iff (map : AddressMap) :
    (∀ fidx offset, OneAddress map fidx offset) ↔ Backed (addressOf map.kvImpl) (positionOf map.vkImpl) := by
  constructor
  · intro h address position hkey
    exact h position.1 position.2 address hkey
  · intro h fidx offset address hkey
    exact h address (fidx, offset) hkey

/-- One call on a map whose positions have one address each. -/
theorem keepsOneAddress_iff (map : AddressMap) (update : AddressMapUpdate) (map' : AddressMap)
    (hstep : update.Step map map') (h : Backed (addressOf map.kvImpl) (positionOf map.vkImpl)) :
    Backed (addressOf map'.kvImpl) (positionOf map'.vkImpl) ↔ KeepsOneAddress map update := by
  subst hstep
  cases update with
  | setBidirect allocs fidx offset value =>
    refine iff_of_true ?_ trivial
    show Backed (addressOf (addressMapSetBidirect map allocs fidx offset value).2.kvImpl)
      (positionOf (addressMapSetBidirect map allocs fidx offset value).2.vkImpl)
    obtain ⟨-, -, hmap⟩ | ⟨-, hkv, ⟨-, -, hvk⟩ | ⟨-, hvk⟩⟩ := setBidirect_links map allocs fidx offset value
    · rw [hmap]
      exact h
    · rw [hkv, hvk]
      exact h.replace _ _
    · rw [hkv, hvk]
      exact h.bind _ _
  | setForward alloc fidx offset value =>
    show Backed (addressOf (addressMapSetForward map alloc fidx offset value).2.kvImpl)
      (positionOf (addressMapSetForward map alloc fidx offset value).2.vkImpl) ↔ _
    obtain ⟨hnone, -, hmap⟩ | ⟨-, hkv, hvk⟩ := setForward_links map alloc fidx offset value
    · rw [hmap]
      refine iff_of_true h fun address hkey => ?_
      have hvalue := h address (fidx, offset) hkey
      rw [hnone] at hvalue
      cases hvalue
    · rw [hkv, hvk, h.forward_iff]
      rfl
  | setBackward alloc fidx offset value =>
    show Backed (addressOf (addressMapSetBackward map alloc fidx offset value).2.kvImpl)
      (positionOf (addressMapSetBackward map alloc fidx offset value).2.vkImpl) ↔ _
    obtain ⟨hnone, halloc, hmap⟩ | ⟨hset, hkv, hvk⟩ := setBackward_links map alloc fidx offset value
    · rw [hmap]
      exact iff_of_true h (Or.inl ⟨hnone, halloc⟩)
    · rw [hkv, hvk, h.backward_iff]
      exact (or_iff_right hset).symm
  | remove fidx offset =>
    refine iff_of_true ?_ trivial
    show Backed (addressOf (addressMapRemove map fidx offset).2.kvImpl)
      (positionOf (addressMapRemove map fidx offset).2.vkImpl)
    rw [(remove_links map fidx offset).1, (remove_links map fidx offset).2]
    exact h.replace _ _

/-- After any calls on a new map, removing a position leaves no trace of it exactly when every
address that resolves to it is the one it has; and it would leave none of any position,
throughout the run, exactly when every call keeps positions to one address. -/
theorem addressMap_removed_iff {steps : List (AddressMap × AddressMapUpdate)} {last : AddressMap}
    (hrun : Run AddressMapUpdate.Step addressMapCreate steps last) :
    (∀ fidx offset, LeavesNoTrace last fidx offset ↔ OneAddress last fidx offset) ∧
    (Run.Throughout (fun map => ∀ fidx offset, LeavesNoTrace map fidx offset) steps last ↔
      ∀ p ∈ steps, KeepsOneAddress p.1 p.2) := by
  refine ⟨leavesNoTrace_iff last, ?_⟩
  have hbacked : ∀ map : AddressMap, (∀ fidx offset, LeavesNoTrace map fidx offset) ↔
      Backed (addressOf map.kvImpl) (positionOf map.vkImpl) := by
    intro map
    simp only [leavesNoTrace_iff]
    exact oneAddress_iff map
  have hnew : Backed (addressOf addressMapCreate.kvImpl) (positionOf addressMapCreate.vkImpl) := by
    intro address position hkey
    cases hkey
  simp only [hbacked]
  exact Run.invariant_iff keepsOneAddress_iff hrun hnew

/-- A position bound both ways and then set forward to another address. -/
def setForwardMap : AddressMap :=
  (AddressMapUpdate.call (AddressMapUpdate.call addressMapCreate (.setBidirect enough 0 1 0x1000)).2
    (.setForward true 0 1 0x2000)).2

private theorem setForwardMap_run : ∃ steps, Run AddressMapUpdate.Step addressMapCreate steps setForwardMap :=
  ⟨_, .cons (a := .setBidirect enough 0 1 0x1000) rfl (.cons (a := .setForward true 0 1 0x2000) rfl (.nil _))⟩

theorem addressMap_removed_iff_set_forward :
    LeavesNoTrace setForwardMap 0 1 ↔ OneAddress setForwardMap 0 1 := by
  obtain ⟨steps, hrun⟩ := setForwardMap_run
  exact (addressMap_removed_iff hrun).1 0 1

/-- The address that the position had first still resolves to it when it has been removed. -/
theorem addressMap_removed_trace :
    ¬ ∀ steps last, Run AddressMapUpdate.Step addressMapCreate steps last →
      ∀ fidx offset, LeavesNoTrace last fidx offset := by
  intro h
  obtain ⟨steps, hrun⟩ := setForwardMap_run
  have hkey : addressMapGetKey (addressMapRemove setForwardMap 0 1).2 0x1000 = some (0, 1) := by decide
  exact (h steps setForwardMap hrun 0 1).2 0x1000 hkey

end Wasmig
