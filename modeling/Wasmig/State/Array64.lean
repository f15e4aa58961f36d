import Wasmig.State.Restore

/-! Arrays of `uint64_t` and their messages (`state.cpp`).

`from_array64` and `to_array64` ask for a block of as many bytes as there are elements, and
copy as many: an eighth of what `from_array32` and `to_array32` would, which count four bytes
an element. The elements of the result reach past its block, and what they are there is left
to what memory held, unless there are none (`array64_lossless_iff`); those in the first eighth
get across (`array64_survives_iff`). -/
namespace Wasmig
open Base

/-- `State__Array64`, its elements in a block. -/
structure State.Array64 where
  nContents : Nat
  contents : Block

/-- An `Array64` whose elements are in a block. -/
structure Array64Block where
  size : UInt32
  contents : Block

/-- The bytes of the elements of an array. -/
def elementBytes (array : Array64) : Memory := fun x =>
  (leBytes 8 (array.contents.getD (x / 8) 0).toNat).getD (x % 8) 0

/-- `from_array64(array)` when memory holds `held` where its block is made. -/
def fromArray64 (array : Array64) (held : Memory) : State.Array64 where
  nContents := array.size.toNat
  contents := .copied held (elementBytes array) array.size.toNat

/-- `to_array64(array_proto)` when memory holds `held` where its block is made; `none` when it
copies past the end of the message's block. -/
def toArray64 (arrayProto : State.Array64) (held : Memory) : Option Array64Block :=
  let size := UInt32.ofNat arrayProto.nContents
  if size.toNat ≤ arrayProto.contents.allocated then
    some ⟨size, .copied held arrayProto.contents.bytes size.toNat⟩
  else none

/-! ### Elements -/

/-- A cell is made of its eight bytes. -/
theorem cell_eq_iff (block block' : Memory) (i : Nat) :
    cell block i = cell block' i ↔ ∀ k < 8, block (8 * i + k) = block' (8 * i + k) := by
  constructor
  · intro heq k hk
    have hle : ofLE (block.read (8 * i) 8) = ofLE (block'.read (8 * i) 8) := by
      rw [← cell_toNat, ← cell_toNat, heq]
    have hread : block.read (8 * i) 8 = block'.read (8 * i) 8 := by
      have hbytes := leBytes_ofLE (block.read (8 * i) 8)
      have hbytes' := leBytes_ofLE (block'.read (8 * i) 8)
      rw [Memory.read_length] at hbytes hbytes'
      rw [← hbytes, ← hbytes', hle]
    rw [← Memory.read_getD block _ 8 k hk, hread, Memory.read_getD _ _ _ _ hk]
  · intro hsame
    rw [cell, cell, Memory.read_congr hsame]

theorem cell_elementBytes {array : Array64} {i : Nat} {x : UInt64} (hx : array.contents[i]? = some x) :
    cell (elementBytes array) i = x := by
  have hread : (elementBytes array).read (8 * i) 8 = leBytes 8 x.toNat := by
    apply List.ext_getElem (by simp)
    intro k _ hlength
    have hk : k < 8 := by simpa using hlength
    have hdiv : (8 * i + k) / 8 = i := by omega
    have hmod : k % 8 = k := Nat.mod_eq_of_lt hk
    simp [Memory.read, elementBytes, hdiv, hmod, hx, List.getElem?_eq_getElem hlength]
  have hlt := x.toNat_lt
  rw [cell, hread, ofLE_leBytes, Nat.mod_eq_of_lt (by omega), UInt64.ofNat_toNat]

/-- A cell of a copy is that of its source, whatever memory held, when all of it is copied. -/
theorem cell_copied_iff (data : Memory) (n i : Nat) :
    (∀ held, cell (Block.copied held data n).bytes i = cell data i) ↔ 8 * (i + 1) ≤ n := by
  simp only [cell_eq_iff, Block.copied_bytes]
  constructor
  · intro hsame
    by_contra hlt
    -- Where memory differs from the source in every byte, the last byte of the cell does.
    have hlast := hsame (fun x => data x + 1) 7 (by decide)
    rw [if_neg (by omega)] at hlast
    simp at hlast
  · intro hle held k hk
    rw [if_pos (by omega)]

/-- The elements of the array can be read at the block. -/
def SameElements (block : Block) (array : Array64) : Prop :=
  ∀ i x, array.contents[i]? = some x → cell block.bytes i = x

/-! ### There and back -/

theorem toArray64_fromArray64 (array : Array64) (held held' : Memory) :
    toArray64 (fromArray64 array held) held' =
      some ⟨array.size, .copied held' (elementBytes array) array.size.toNat⟩ := by
  have hsize : UInt32.ofNat (fromArray64 array held).nContents = array.size := UInt32.ofNat_toNat ..
  unfold toArray64
  rw [hsize]
  have hbytes := Block.copied_copied held held' (elementBytes array) array.size.toNat
  exact (if_pos (Nat.le_refl _)).trans (by rw [fromArray64, hbytes])

/-- The message of the array and the array made of that have its elements. -/
structure ElementsKept (array : Array64) (held held' : Memory) : Prop where
  count : (fromArray64 array held).nContents = array.size.toNat
  message : SameElements (fromArray64 array held).contents array
  returned : ∃ array', toArray64 (fromArray64 array held) held' = some array' ∧ array'.size = array.size ∧
    SameElements array'.contents array

/-- They have them within their blocks. -/
structure Lossless (array : Array64) (held held' : Memory) : Prop extends ElementsKept array held held' where
  messageFits : 8 * array.size.toNat ≤ (fromArray64 array held).contents.allocated
  returnedFits : ∀ array', toArray64 (fromArray64 array held) held' = some array' →
    8 * array.size.toNat ≤ array'.contents.allocated

/-- An element gets there and back, whatever memory held, exactly when its bytes are in the
first eighth of the elements. -/
theorem array64_survives_iff (array : Array64) {i : Nat} {x : UInt64} (hx : array.contents[i]? = some x) :
    ((∀ held, cell (fromArray64 array held).contents.bytes i = x) ↔ 8 * (i + 1) ≤ array.size.toNat) ∧
    ((∀ held held' array', toArray64 (fromArray64 array held) held' = some array' →
      cell array'.contents.bytes i = x) ↔ 8 * (i + 1) ≤ array.size.toNat) := by
  have hcopied := cell_copied_iff (elementBytes array) array.size.toNat i
  rw [cell_elementBytes hx] at hcopied
  simp only [toArray64_fromArray64, Option.some.injEq, forall_eq', forall_const]
  exact ⟨hcopied, hcopied⟩

/-- Nothing is lost of an empty array. -/
theorem lossless_empty {array : Array64} (hempty : array.size = 0) (held held' : Memory) :
    Lossless array held held' := by
  have hcontents : array.contents = [] := by
    rw [← List.length_eq_zero_iff, array.length_contents, hempty]
    rfl
  have hnone : ∀ block, SameElements block array := by
    intro block i x hx
    rw [hcontents] at hx
    cases hx
  have hfits : ∀ n, 8 * array.size.toNat ≤ n := by
    intro n
    rw [hempty]
    exact Nat.zero_le n
  exact ⟨⟨rfl, hnone _, _, toArray64_fromArray64 .., rfl, hnone _⟩, hfits _, fun _ _ => hfits _⟩

/-- The conversion of a 64-bit array and back is lossless exactly when the array is empty,
whatever memory held; and the elements by themselves come across, whatever it held, for no
other array either. -/
theorem array64_lossless_iff (array : Array64) :
    (∀ held held', Lossless array held held' ↔ array.size = 0) ∧
    ((∀ held held', ElementsKept array held held') ↔ array.size = 0) := by
  constructor
  · intro held held'
    constructor
    · intro h
      have hfits : 8 * array.size.toNat ≤ array.size.toNat := h.messageFits
      exact UInt32.toNat_inj.mp (show array.size.toNat = 0 by omega)
    · intro hempty
      exact lossless_empty hempty held held'
  · constructor
    · intro hkept
      by_contra hsize
      have hpos : 0 < array.size.toNat := Nat.pos_of_ne_zero fun hzero => hsize (UInt32.toNat_inj.mp hzero)
      -- The last element is not in the first eighth.
      have hlt : array.size.toNat - 1 < array.contents.length := by
        rw [array.length_contents]
        omega
      have hlast := List.getElem?_eq_getElem hlt
      have hle := (array64_survives_iff array hlast).1.mp fun held => (hkept held held).message _ _ hlast
      omega
    · intro hempty held held'
      exact (lossless_empty hempty held held').toElementsKept

/-- One element, in a block of a byte: the low byte of 300 is left. -/
theorem array64_truncated :
    ¬ ∀ (array : Array64) (held held' : Memory), Lossless array held held' := by
  intro h
  have hsame := (h ⟨1, [300], rfl⟩ (fun _ => 0) (fun _ => 0)).message 0 300 rfl
  exact absurd hsame (by decide)

end Wasmig
