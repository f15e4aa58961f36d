import Wasmig.Table.Registry
import Wasmig.Table.ReverseMap

/-! What addresses resolve to.

An address resolves to the position that was last bound to it, backward or both ways, but
the entry does not only go with that binding: whatever position the forward table gives the
address takes it along when it is bound again or removed. `addresses_history` says this of
every map of a process. A position that is bound both ways to the address it has loses its
entry and needs memory for a new one. -/
namespace Wasmig
open Base

/-- `wasmig_address_map_exist_key(map, address)`. -/
def addressMapExistKey (map : AddressMap) (address : UInt64) : Bool := decide (address ∈ map.vkImpl)

theorem existKey_iff (map : AddressMap) (address : UInt64) :
    addressMapExistKey map address = true ↔ ∃ position, addressMapGetKey map address = some position := by
  rw [addressMapExistKey, decide_eq_true_eq, Finmap.mem_iff]
  simp only [addressMapGetKey, Option.map_eq_some_iff]
  constructor
  · intro h
    obtain ⟨packed, hpacked⟩ := h
    exact ⟨_, packed, hpacked, rfl⟩
  · intro h
    obtain ⟨position, packed, hpacked, -⟩ := h
    exact ⟨packed, hpacked⟩

/-- What a call does to the position of an address. A binding sets it if its entries find
memory, the reverse one in the table that the position's old address has been taken out of;
the call takes the entry of the address the position had in any case. -/
def reverseEffect (address : UInt64) : AddressMap × AddressMapUpdate → Effect (UInt32 × UInt32)
  | (map, .setBidirect allocs fidx offset value) =>
    if value = address ∧ (addressMapExistValue map fidx offset = true ∨ allocs.kv = true) ∧
        (addressMapExistKey map address = true ∧ addressMapGetValue map fidx offset ≠ some address ∨
          allocs.vk = true) then
      .set (fidx, offset)
    else if addressMapGetValue map fidx offset = some address then .clear
    else .keep
  | (_, .setForward ..) => .keep
  | (map, .setBackward alloc fidx offset value) =>
    if value = address ∧ (addressMapExistKey map address = true ∨ alloc = true) then .set (fidx, offset)
    else .keep
  | (map, .remove fidx offset) => if addressMapGetValue map fidx offset = some address then .clear else .keep

/-! ### One call -/

section
variable (address : UInt64) (map : AddressMap)

/-- What cutting a position's address does to an address. -/
theorem cut_apply (fidx offset : UInt32) :
    cut (addressOf map.kvImpl) (positionOf map.vkImpl) (fidx, offset) address =
      (if addressMapGetValue map fidx offset = some address then Effect.clear else .keep).apply
        (addressMapGetKey map address) := by
  by_cases hvalue : addressMapGetValue map fidx offset = some address
  · rw [if_pos hvalue]
    exact if_pos hvalue
  · rw [if_neg hvalue]
    exact if_neg hvalue

/-- An entry finds memory if it is there already. -/
theorem found_iff {ν : Type} {entry : Option ν} {exist : Bool} (alloc : Bool)
    (h : exist = true ↔ ∃ v, entry = some v) :
    exist = true ∨ alloc = true ↔ ¬ (entry = none ∧ alloc = false) := by
  rw [h, ← Option.ne_none_iff_exists', not_and_or, Bool.not_eq_false]

theorem reverseEffect_setBidirect (allocs : Allocs) (fidx offset : UInt32) (value : UInt64) :
    addressMapGetKey (addressMapSetBidirect map allocs fidx offset value).2 address =
      (reverseEffect address (map, .setBidirect allocs fidx offset value)).apply (addressMapGetKey map address) := by
  have hforward := found_iff allocs.kv (existValue_iff map fidx offset)
  have hreverse : addressMapExistKey map address = true ∧ addressMapGetValue map fidx offset ≠ some address ∨
      allocs.vk = true ↔
      ¬ (cut (addressOf map.kvImpl) (positionOf map.vkImpl) (fidx, offset) address = none ∧
        allocs.vk = false) := by
    rw [not_and_or, Bool.not_eq_false, cut_eq_none_iff, not_or, existKey_iff, ← Option.ne_none_iff_exists']
    rfl
  have hcut := cut_apply address map fidx offset
  rw [reverseEffect]
  show positionOf (addressMapSetBidirect map allocs fidx offset value).2.vkImpl address = _
  obtain ⟨hnone, halloc, hmap⟩ | ⟨hset, -, hvk⟩ := setBidirect_links map allocs fidx offset value
  · have hold : addressMapGetValue map fidx offset ≠ some address := by
      rw [show addressMapGetValue map fidx offset = none from hnone]
      nofun
    rw [hmap, if_neg fun h => hforward.mp h.2.1 ⟨hnone, halloc⟩, if_neg hold]
    rfl
  · by_cases hvalue : value = address
    · subst hvalue
      obtain ⟨hnone, halloc, hvk⟩ | ⟨hfound, hvk⟩ := hvk
      · rw [hvk, if_neg fun h => hreverse.mp h.2.2 ⟨hnone, halloc⟩]
        exact hcut
      · rw [hvk, if_pos ⟨rfl, hforward.mpr hset, hreverse.mpr hfound⟩]
        exact Function.update_self ..
    · rw [if_neg fun h => hvalue h.1, ← hcut]
      obtain ⟨-, -, hvk⟩ | ⟨-, hvk⟩ := hvk
      · rw [hvk]
      · rw [hvk, Function.update_of_ne (Ne.symm hvalue)]

theorem reverseEffect_setBackward (alloc : Bool) (fidx offset : UInt32) (value : UInt64) :
    addressMapGetKey (addressMapSetBackward map alloc fidx offset value).2 address =
      (reverseEffect address (map, .setBackward alloc fidx offset value)).apply (addressMapGetKey map address) := by
  have hreverse := found_iff alloc (existKey_iff map address)
  rw [reverseEffect]
  show positionOf (addressMapSetBackward map alloc fidx offset value).2.vkImpl address = _
  obtain ⟨hnone, halloc, hmap⟩ | ⟨hset, -, hvk⟩ := setBackward_links map alloc fidx offset value
  · rw [hmap]
    split
    · rename_i h
      cases h.1
      exact absurd ⟨hnone, halloc⟩ (hreverse.mp h.2)
    · rfl
  · by_cases hvalue : value = address
    · subst hvalue
      rw [hvk, if_pos ⟨rfl, hreverse.mpr hset⟩]
      exact Function.update_self ..
    · rw [hvk, if_neg fun h => hvalue h.1]
      exact Function.update_of_ne (Ne.symm hvalue) ..

/-- One call, as an address sees it. -/
theorem reverseEffect_call (update : AddressMapUpdate) :
    addressMapGetKey (update.call map).2 address =
      (reverseEffect address (map, update)).apply (addressMapGetKey map address) := by
  cases update with
  | setBidirect allocs fidx offset value => exact reverseEffect_setBidirect address map allocs fidx offset value
  | setForward alloc fidx offset value =>
    obtain ⟨-, -, hmap⟩ | ⟨-, -, hvk⟩ := setForward_links map alloc fidx offset value
    · exact congrArg (addressMapGetKey · address) hmap
    · exact congrArg (positionOf · address) hvk
  | setBackward alloc fidx offset value => exact reverseEffect_setBackward address map alloc fidx offset value
  | remove fidx offset => exact (congrFun (remove_links map fidx offset).2 address).trans (cut_apply ..)

end

/-! ### Any run -/

/-- What an action does to the position of an address in a map. -/
def positionEffect (handle : Nat) (address : UInt64) : TableProcess × TableAction → Effect (UInt32 × UInt32)
  | (p, .addressMap action) =>
    Kind.effectAt (fun map update => reverseEffect address (map, update)) handle p.maps action
  | _ => .keep

theorem positionEffect_step {handle : Nat} (hhandle : handle ≠ 0) (address : UInt64) (p : TableProcess)
    (action : TableAction) (p' : TableProcess) (hstep : p.Step action p') :
    (p'.maps handle).bind (addressMapGetKey · address) =
      (positionEffect handle address (p, action)).apply ((p.maps handle).bind (addressMapGetKey · address)) := by
  cases hstep with
  | addressMap step apart => exact step.bind_place rfl (reverseEffect_call address) hhandle
  | _ => rfl

/-- Over any run, with any number of maps and addresses used again: an address resolves in a
map to the position that was bound to it last, unless a call that bound or removed a position
that had the address has taken the entry since. -/
theorem addresses_history {steps : List (TableProcess × TableAction)} {last : TableProcess}
    (hrun : Run TableProcess.Step TableProcess.start steps last) {handle : Nat} (hhandle : handle ≠ 0)
    {map : AddressMap} (hmap : last.maps handle = some map) (address : UInt64) :
    (∀ position, addressMapGetKey map address = some position ↔
      LastSet (positionEffect handle address) steps position) ∧
    (addressMapExistKey map address = true ↔ ∃ position, LastSet (positionEffect handle address) steps position) := by
  have hkey : ∀ position, addressMapGetKey map address = some position ↔
      LastSet (positionEffect handle address) steps position := by
    intro position
    have hlookup := Run.lookup_iff (positionEffect_step hhandle address) hrun position
    rw [hmap] at hlookup
    refine hlookup.trans (or_iff_left ?_)
    rintro ⟨hstart, -⟩
    cases hstart
  refine ⟨hkey, ?_⟩
  simp only [existKey_iff, hkey]

/-- A position that is bound again to the address it has, without memory for the entry. -/
theorem addresses_history_lost :
    ∃ steps last map, Run TableProcess.Step TableProcess.start steps last ∧ last.maps 32 = some map ∧
      addressMapGetValue map 3 4 = some 0x1000 ∧
      ¬ ∃ position, LastSet (positionEffect 32 0x1000) steps position := by
  have hfirst : TableProcess.start.maps 32 = none := rfl
  have hrun : Run TableProcess.Step TableProcess.start _ _ :=
    .cons (.addressMap (.create hfirst (by decide)) fun _ _ => rfl)
      (.cons (.addressMap (.call (Function.update_self ..) (.setBidirect enough 3 4 0x1000)) nofun)
        (.cons (.addressMap (.call (Function.update_self ..) (.setBidirect ⟨true, false⟩ 3 4 0x1000)) nofun)
          (.nil _)))
  refine ⟨_, _, _, hrun, rfl, by decide, ?_⟩
  rw [← (addresses_history hrun (show 32 ≠ 0 by decide) rfl 0x1000).2]
  decide

end Wasmig
