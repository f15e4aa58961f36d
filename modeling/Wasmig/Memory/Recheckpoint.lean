import Mathlib.Data.List.Perm.Subperm
import Wasmig.Memory.Canonical
import Wasmig.Memory.Failure

/-! Checkpointing what was restored.

Accepted images of any format describe a memory: what they leave of zeros (`imageMemory`).
Restored into zeros and checkpointed again, they become the sparse image of that memory,
which restores like them, is no longer than any other of its format, and is itself when it
was written by a checkpoint (`recheckpoint_restores`). -/
namespace Wasmig
open Base Base.Stdio

variable {dir : Directory} {info : WasmigMemoryImageInfo}

/-- The memory that accepted images describe. -/
def imageMemory (dir : Directory) : Memory :=
  Memory.writeAll (fun _ => 0) ((directoryTranscript dir).visits.map (Visit.write 0))

/-- A restore into zeros leaves the memory of the images, and beyond it what was there. -/
theorem restoreMemoryInto_zeros {dst dstSize : Nat} (hready : Ready dir dst dstSize info) {ram : Ram}
    (hzero : ∀ i, i < info.totalSize → ram.bytes (dst + i) = 0) :
    (∀ i, i < info.totalSize → (restoreMemoryInto dir dst dstSize ram).2.bytes (dst + i) = imageMemory dir i) ∧
      ∀ x, (x < dst ∨ dst + info.totalSize ≤ x) →
        (restoreMemoryInto dir dst dstSize ram).2.bytes x = ram.bytes x := by
  rw [restoreMemoryInto_ready hready]
  constructor
  · intro i hi
    exact writeAll_visits _ dst i _ _ (hzero i hi)
  · intro x hx
    apply Memory.writeAll_outside
    intro write hwrite hcovers
    obtain ⟨v, hv, rfl⟩ := List.mem_map.mp hwrite
    have hinside := (directoryTranscript_within hready.valid v hv).inside
    have hstart : dst + v.offset.toNat ≤ x := hcovers.1
    have hstop : x < dst + v.offset.toNat + (v.data.take v.len.toNat).length := hcovers.2
    have hlen : (v.data.take v.len.toNat).length ≤ v.len.toNat := List.length_take_le ..
    omega

theorem restoreMemoryInto_code {dst dstSize : Nat} (hready : Ready dir dst dstSize info) (ram : Ram) :
    (restoreMemoryInto dir dst dstSize ram).1 = 0 ↔ (directoryTranscript dir).accepted = true := by
  rw [restoreMemoryInto_ready hready]
  cases (directoryTranscript dir).accepted <;> simp

/-! ### The shortest image -/

/-- A byte of the memory that is not zero is in a chunk that the image has a record of. -/
theorem recorded_of_nonzero (hpages : info.pageCount.toNat ≤ 65536) {image : Bytes}
    (himage : dir "memory.img" = some image) (hinfo : memoryImageInfo dir = some info)
    (hsparse : info.sparseFormat = true) (hformat : info.format = kSparseMemoryFormatV1) {i : Nat}
    (hi : imageMemory dir i ≠ 0) :
    i / 4096 ∈ ((recordCodec info.chunkCapacity).scan (recordCodec_consumes _) image).1.map fun r => r.1.toNat := by
  by_contra hmissing
  refine hi (Memory.writeAll_outside _ _ _ ?_)
  intro write hwrite hcovers
  obtain ⟨v, hv, rfl⟩ := List.mem_map.mp hwrite
  rw [directoryTranscript_of himage hinfo, imageTranscript, if_neg (by rw [hsparse]; exact Bool.noConfusion),
    if_pos hformat] at hv
  obtain ⟨r, hr, rfl⟩ := List.mem_map.mp hv
  obtain ⟨hindex, hbody⟩ := (recordCodec_valid info r).mp
    (((recordCodec info.chunkCapacity).scan_exact (recordCodec_consumes _) image).2 r hr)
  have hoffset : (r.1 * kMemoryChunkSize).toNat = r.1.toNat * 4096 := by
    rw [UInt32.toNat_mul, kMemoryChunkSize_toNat]
    exact Nat.mod_eq_of_lt (by omega)
  have hstart : 0 + (r.1 * kMemoryChunkSize).toNat ≤ i := hcovers.1
  have hstop : i < 0 + (r.1 * kMemoryChunkSize).toNat + (r.2.take 4096).length := hcovers.2
  rw [List.length_take, hbody] at hstop
  refine hmissing (List.mem_map.mpr ⟨r, hr, ?_⟩)
  show r.1.toNat = i / 4096
  omega

/-- No image of records describes the memory with fewer bytes than its sparse image. -/
theorem sparseImage_shortest (hpages : info.pageCount.toNat ≤ 65536) {image : Bytes}
    (himage : dir "memory.img" = some image) (hinfo : memoryImageInfo dir = some info)
    (hsparse : info.sparseFormat = true) (hformat : info.format = kSparseMemoryFormatV1) :
    (sparseImage (imageMemory dir) info.pageCount).length ≤ image.length := by
  have hsubset : nonzeroChunks (imageMemory dir) 0 (info.pageCount.toNat * 16) ⊆
      ((recordCodec info.chunkCapacity).scan (recordCodec_consumes _) image).1.map fun r => r.1.toNat := by
    intro k hk
    obtain ⟨j, hj, hbyte⟩ := (isZeroMemoryChunk_chunkAt _ k).mp (mem_nonzeroChunks.mp hk).2
    have hrecorded := recorded_of_nonzero hpages himage hinfo hsparse hformat hbyte
    rwa [show (k * 4096 + j) / 4096 = k by omega] at hrecorded
  have hnodup : (nonzeroChunks (imageMemory dir) 0 (info.pageCount.toNat * 16)).Nodup :=
    (List.nodup_range' ..).filter _
  have hle := (List.subperm_of_subset hnodup hsubset).length_le
  obtain ⟨hscan, hvalid⟩ := (recordCodec info.chunkCapacity).scan_exact (recordCodec_consumes _) image
  have hlength := records_length fun r hr => ((recordCodec_valid info r).mp (hvalid r hr)).2
  have himageLength := congrArg List.length hscan
  rw [List.length_append, recordCodec_encode, hlength] at himageLength
  rw [List.length_map] at hle
  rw [sparseImage, chunkRecords_length, himageLength]
  omega

/-! ### There and back again -/

/-- What a restore into zeros leaves is checkpointed as the sparse image of the memory of
the images. It restores like them into zeros; if they are of the same format it is no longer
than theirs; and if they were written by a checkpoint it is theirs. -/
theorem recheckpoint_restores (hpages : info.pageCount.toNat ≤ 65536) {dst dstSize : Nat} {ram : Ram}
    (hready : Ready dir dst dstSize info) (hzero : ∀ i, i < info.totalSize → ram.bytes (dst + i) = 0)
    (hrestored : (restoreMemoryInto dir dst dstSize ram).1 = 0) {restored : Memory}
    (hbytes : ∀ i, i < info.totalSize → restored i = (restoreMemoryInto dir dst dstSize ram).2.bytes (dst + i))
    {cwd : String} {w : World Path} (hsaved : MemorySaved cwd restored info.pageCount w) :
    let again := directory (checkpointMemory cwd restored info.pageCount w).2 cwd
    (∀ dst' dstSize' ram', (dst' = 0 → dstSize' = 0) → info.totalSize ≤ dstSize' →
      (∀ i, i < info.totalSize → ram'.bytes (dst' + i) = 0) →
      (restoreMemoryInto again dst' dstSize' ram').1 = 0 ∧ (restoreMemoryInto dir dst' dstSize' ram').1 = 0 ∧
        ∀ x, (restoreMemoryInto again dst' dstSize' ram').2.bytes x =
          (restoreMemoryInto dir dst' dstSize' ram').2.bytes x) ∧
    (info.sparseFormat = true → info.format = kSparseMemoryFormatV1 →
      ∀ image image', dir "memory.img" = some image → again "memory.img" = some image' →
        image'.length ≤ image.length) ∧
    (∀ memory, Checkpointed dir memory info.pageCount → again "memory.img" = dir "memory.img" ∧
      again "mem_page_count.img" = dir "mem_page_count.img") := by
  intro again
  have hagain : Checkpointed again restored info.pageCount := hsaved.checkpointed
  obtain ⟨hsame, -⟩ := restoreMemoryInto_zeros hready hzero
  have hrestoredBytes : ∀ i, i < info.pageCount.toNat * 65536 → restored i = imageMemory dir i :=
    fun i hi => (hbytes i hi).trans (hsame i hi)
  have himageAgain : again "memory.img" = some (sparseImage (imageMemory dir) info.pageCount) :=
    hagain.image.trans (congrArg some (sparseImage_congr hrestoredBytes))
  refine ⟨?_, ?_, ?_⟩
  · intro dst' dstSize' ram' hdst hlarge hzero'
    have hready' : Ready dir dst' dstSize' info := ⟨hready.valid, hdst, hlarge⟩
    have hreadyAgain : Ready again dst' dstSize' (sparseInfo kSparseMemoryFormatV1 info.pageCount) :=
      ⟨hagain.memoryImageInfo, hdst, hlarge⟩
    obtain ⟨hcode, hover⟩ := hagain.restored hpages hdst hlarge ram'
    obtain ⟨hinside, houtside⟩ := restoreMemoryInto_zeros hready' hzero'
    obtain ⟨-, houtsideAgain⟩ := restoreMemoryInto_zeros hreadyAgain hzero'
    refine ⟨hcode, (restoreMemoryInto_code hready' ram').mpr ((restoreMemoryInto_code hready ram).mp hrestored), ?_⟩
    intro x
    by_cases hx : x < dst' ∨ dst' + info.totalSize ≤ x
    · rw [houtside x hx]
      exact houtsideAgain x hx
    · obtain ⟨i, rfl⟩ := Nat.exists_eq_add_of_le (show dst' ≤ x by omega)
      have hi : i < info.totalSize := by omega
      rw [hinside i hi, hover, chunksOver_zeroed restored hi (hzero' i hi)]
      exact hrestoredBytes i hi
  · intro hsparse hformat image image' himage himage'
    cases himage'.symm.trans himageAgain
    exact sparseImage_shortest hpages himage hready.valid hsparse hformat
  · intro memory hdir
    refine ⟨?_, hagain.info.trans hdir.info.symm⟩
    rw [hagain.image, hdir.image, sparseImage_congr fun i hi => ?_]
    obtain ⟨-, hover⟩ := hdir.restored hpages hready.destination hready.large ram
    rw [hbytes i hi, hover]
    exact chunksOver_zeroed memory hi (hzero i hi)

/-- What a restore to `dst` leaves there. -/
def restoredAt (dir : Directory) (dst dstSize : Nat) (ram : Ram) : Memory :=
  fun i => (restoreMemoryInto dir dst dstSize ram).2.bytes (dst + i)

theorem restoredAt_apply (dir : Directory) (dst dstSize : Nat) (ram : Ram) (i : Nat) :
    restoredAt dir dst dstSize ram i = (restoreMemoryInto dir dst dstSize ram).2.bytes (dst + i) := rfl

/-- The marked page, from its legacy image over zeros. -/
theorem recheckpoint_restores_legacy :
    let again := directory
      (checkpointMemory "/" (restoredAt legacyMarkedPage 1 65536 ⟨fun _ => 0, []⟩) 1 freshWorld).2 "/"
    (restoreMemoryInto again 1 65536 ⟨fun _ => 0, []⟩).1 = 0 ∧
      (restoreMemoryInto again 1 65536 ⟨fun _ => 0, []⟩).2.bytes 5001 = 7 ∧
      ∀ x, (restoreMemoryInto again 1 65536 ⟨fun _ => 0, []⟩).2.bytes x =
        (restoreMemoryInto legacyMarkedPage 1 65536 ⟨fun _ => 0, []⟩).2.bytes x := by
  have hready : Ready legacyMarkedPage 1 65536 (legacyInfo 1) :=
    ⟨legacyMarkedPage_legacy.memoryImageInfo, by decide, Nat.le_refl _⟩
  obtain ⟨hrestored, hover⟩ := legacyMarkedPage_legacy.restored (by decide) (show 1 = 0 → 65536 = 0 by decide)
    (Nat.le_refl _) ⟨fun _ => 0, []⟩
  have hrestores := (recheckpoint_restores (show (legacyInfo 1).pageCount.toNat ≤ 65536 by decide) hready
    (fun _ _ => rfl) hrestored (fun i _ => restoredAt_apply legacyMarkedPage 1 65536 ⟨fun _ => 0, []⟩ i)
    (.of_faultless "/" _ 1 freshWorld_faultless)).1 1 65536
    ⟨fun _ => 0, []⟩ (by decide) (Nat.le_refl _) (fun _ _ => rfl)
  rw [show (legacyInfo 1).pageCount = 1 from rfl] at hrestores
  refine ⟨hrestores.1, ?_, hrestores.2.2⟩
  rw [hrestores.2.2, hover, chunksOver, if_pos ⟨by decide, List.mem_range.mpr (by decide)⟩]
  decide

end Wasmig
