import Wasmig.Base.Memory
import Wasmig.State.Serialize
import Wasmig.Utils

/-! The state side of `restore.cpp`: the program counter, the globals and the call
stack, read back from their images.

Reads return what the file holds; a read that finds too little leaves the rest of its
destination as it was. What a restore returns is `none` where the code follows a `NULL`
pointer or copies past the end of a block, and `some none` for the `{0, NULL}` of a
failure that is reported. -/
namespace Wasmig
open Base Base.Stdio

/-! ### The program counter -/

/-- The bytes of a variable after those that could be read into it. -/
def readOver (held read : Bytes) : Bytes := read ++ held.drop read.length

/-- `wasmig_restore_pc()` when its local, which is not initialised, holds `pc`. Four
bytes are read into each field; those of `offset` are the low ones. -/
def restorePc (dir : Directory) (pc : CodePos) : CodePos :=
  match openImageRb dir "program_counter.img" with
  | none => ⟨0, 0⟩
  | some fp =>
    let fidx := fread fp 4 1
    let offset := fread fidx.fp 4 1
    ⟨word32 (readOver (le32 pc.fidx) fidx.data),
      UInt64.ofNat (ofLE (readOver (leBytes 8 pc.offset.toNat) offset.data))⟩

/-! ### Globals without their types -/

/-- An array of `uint64_t`: its element `i`. -/
def cell (block : Memory) (i : Nat) : UInt64 := UInt64.ofNat (ofLE (block.read (8 * i) 8))

theorem cell_toNat (block : Memory) (i : Nat) : (cell block i).toNat = ofLE (block.read (8 * i) 8) := by
  have hlt := ofLE_lt (block.read (8 * i) 8)
  rw [Memory.read_length] at hlt
  rw [cell, UInt64.toNat_ofNat']
  exact Nat.mod_eq_of_lt hlt

/-- The array of `size` elements in a block. -/
def array64Of (block : Memory) (size : UInt32) : Array64 where
  size := size
  contents := (List.range size.toNat).map (cell block)
  length_contents := by rw [List.length_map, List.length_range]

/-- The loop of `wasmig_restore_global`, from element `i` on: `types[i]` bytes into
`&contents[i]`; `none` when they go past the end of the block. -/
def readGlobals (size : UInt32) : Nat → Bytes → Reader → Memory → Option Memory
  | _, [], _, block => some block
  | i, ty :: types, fp, block =>
    let item := fread fp ty.toNat 1
    if 8 * i + item.data.length ≤ 8 * size.toNat then
      readGlobals size (i + 1) types item.fp (block.write (8 * i) item.data)
    else none

/-- `wasmig_restore_global(types)` when the block it allocates holds `block`. An `int` counts
the elements. -/
def restoreGlobal (dir : Directory) (types : Array8) (block : Memory) : Option (Option Array64) :=
  match openImageRb dir "global.img" with
  | none => some none
  | some fp =>
    if types.size.toNat < 2 ^ 31 then
      (readGlobals types.size 0 types.contents fp block).map fun block => some (array64Of block types.size)
    else none

/-! ### Images with a message -/

/-- The buffer a whole image is handed on in. Its size is kept in 32 bits. -/
def imageBuffer (image : Bytes) : Array8 where
  size := lengthOf image
  contents := image.take (lengthOf image).toNat
  length_contents := List.length_take_of_le (by
    rw [lengthOf, UInt32.toNat_ofNat']
    exact Nat.mod_le ..)

/-- The buffer of the image a stream is on: its size is told, its start sought, and all of
it read. -/
def readImage (fp : Reader) : Array8 :=
  let fileSize := fp.seekEnd.tell
  imageBuffer (fread fp.seekEnd.seekStart fileSize 1).data

section
variable (pb : ProtobufC)

/-- `wasmig_restore_global_v2()`. -/
def restoreGlobalV2 (dir : Directory) : Option (Option TypedArray) :=
  match openImageRb dir "global.img" with
  | none => some none
  | some fp => (deserializeTypedArray pb (readImage fp)).map some

/-- `wasmig_restore_stack()`. -/
def restoreStack (dir : Directory) : Option (Option CallStack) :=
  match openImageRb dir "call_stack.img" with
  | none => some none
  | some fp => (deserializeCallStack pb (readImage fp)).map some

end

@[simp] theorem readImage_ofFile (image : Bytes) : readImage (Reader.ofFile image) = imageBuffer image := by
  have hdata : (fread (Reader.ofFile image).seekEnd.seekStart image.length 1).data = image := by
    rw [fread_data, Nat.mul_one]
    exact List.take_length
  show imageBuffer (fread (Reader.ofFile image).seekEnd.seekStart image.length 1).data = _
  rw [hdata]

theorem restoreStack_image (pb : ProtobufC) {dir : Directory} {image : Bytes}
    (h : dir "call_stack.img" = some image) :
    restoreStack pb dir = (deserializeCallStack pb (imageBuffer image)).map some := by
  rw [restoreStack, openImageRb, h, Option.map_some]
  simp

theorem restoreGlobalV2_image (pb : ProtobufC) {dir : Directory} {image : Bytes}
    (h : dir "global.img" = some image) :
    restoreGlobalV2 pb dir = (deserializeTypedArray pb (imageBuffer image)).map some := by
  rw [restoreGlobalV2, openImageRb, h, Option.map_some]
  simp

/-- An image of less than 4 GiB is handed on whole. -/
theorem imageBuffer_contents {image : Bytes} (h : image.length < 2 ^ 32) : (imageBuffer image).contents = image :=
  take_lengthOf h

/-- An image of eight bytes or more gives the two words of a program counter; what the local
held stays in the high half of the offset. -/
theorem restorePc_image {dir : Directory} {fidx offset : UInt32} {rest : Bytes}
    (h : dir "program_counter.img" = some (le32 fidx ++ (le32 offset ++ rest))) (pc : CodePos) :
    restorePc dir pc = ⟨fidx, UInt64.ofNat (offset.toNat + 2 ^ 32 * (pc.offset.toNat / 2 ^ 32))⟩ := by
  have hfidx : (fread (Reader.ofFile (le32 fidx ++ (le32 offset ++ rest))) 4 1).data = le32 fidx := by
    rw [fread_data, unread_ofFile, List.take_left' (le32_length fidx)]
  have hrest : (fread (Reader.ofFile (le32 fidx ++ (le32 offset ++ rest))) 4 1).fp.unread = le32 offset ++ rest := by
    rw [fread_unread, unread_ofFile, List.drop_left' (le32_length fidx)]
  have hoffset : (fread (fread (Reader.ofFile (le32 fidx ++ (le32 offset ++ rest))) 4 1).fp 4 1).data =
      le32 offset := by
    rw [fread_data, hrest, List.take_left' (le32_length offset)]
  have hword : readOver (le32 pc.fidx) (le32 fidx) = le32 fidx := by
    rw [readOver, le32_length, List.drop_of_length_le (Nat.le_of_eq (le32_length pc.fidx)), List.append_nil]
  have hhigh : (leBytes 8 pc.offset.toNat).drop 4 = leBytes 4 (pc.offset.toNat / 2 ^ 32) :=
    leBytes_drop 4 4 pc.offset.toNat
  have hlow : ofLE (le32 offset) = offset.toNat := by
    rw [le32, ofLE_leBytes]
    exact Nat.mod_eq_of_lt offset.toNat_lt
  have hpc := pc.offset.toNat_lt
  have hkept : pc.offset.toNat / 2 ^ 32 % 256 ^ 4 = pc.offset.toNat / 2 ^ 32 := Nat.mod_eq_of_lt (by omega)
  unfold restorePc openImageRb
  rw [h]
  simp only [Option.map_some, hfidx, hoffset, hword, word32_le32, CodePos.mk.injEq, true_and]
  rw [readOver, le32_length, hhigh, ofLE_append, hlow, le32_length, ofLE_leBytes, hkept]
  rfl

/-- That is the program counter of the image when the high half was zero. -/
theorem restorePc_eq_iff {dir : Directory} {fidx offset : UInt32} {rest : Bytes}
    (h : dir "program_counter.img" = some (le32 fidx ++ (le32 offset ++ rest))) (pc : CodePos) :
    restorePc dir pc = ⟨fidx, offset.toUInt64⟩ ↔ pc.offset.toNat < 2 ^ 32 := by
  have hpc := pc.offset.toNat_lt
  have hoffset := offset.toNat_lt
  have hsmall : offset.toNat + 2 ^ 32 * (pc.offset.toNat / 2 ^ 32) < 2 ^ 64 := by omega
  rw [restorePc_image h pc, CodePos.mk.injEq, and_iff_right rfl, ← UInt64.toNat_inj, UInt64.toNat_ofNat',
    Nat.mod_eq_of_lt hsmall, UInt32.toNat_toUInt64]
  omega

end Wasmig
