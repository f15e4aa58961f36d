import Mathlib.Data.Nat.Count
import Wasmig.Memory.Delivered
import Wasmig.Memory.RoundTrip

/-! The sparse image as a normal form.

A memory of given pages has one sparse image, the records of its chunks that hold a
non-zero byte and of no others (`sparseImage_canonical`), and the image has one memory:
what a restore makes of it over a destination that was zero is the memory again
(`chunksOver_zeroed`), so equal images come from equal memories (`sparseImage_eq_iff`).
`checkpointMemory_canonical` says so of the file that a checkpoint writes. -/
namespace Wasmig
open Base Base.Stdio

instance (memory : Memory) : DecidablePred (HoldsNonzero memory) := fun k =>
  inferInstanceAs (Decidable (∃ x < 4096, memory (k * 4096 + x) ≠ 0))

/-- The image lists these chunks, each once behind its index and in increasing order, and
they are the chunks of the memory that hold a non-zero byte. -/
structure Canonical (memory : Memory) (pageCount : UInt32) (chunks : List Nat) (image : Bytes) : Prop where
  increasing : chunks.Pairwise (· < ·)
  complete : ∀ k, k ∈ chunks ↔ k < pageCount.toNat * 16 ∧ HoldsNonzero memory k
  index : ∀ k ∈ chunks, (UInt32.ofNat k).toNat = k
  records : image = chunks.flatMap fun k => le32 (UInt32.ofNat k) ++ memory.read (k * 4096) 4096

section Canonical
variable {memory memory' : Memory} {pageCount : UInt32}

theorem nonzeroChunks_increasing (memory : Memory) (n : Nat) : (nonzeroChunks memory 0 n).Pairwise (· < ·) :=
  List.Pairwise.filter _ (List.pairwise_lt_range' (s := 0) (n := n))

theorem nonzeroChunks_length (memory : Memory) (n : Nat) :
    (nonzeroChunks memory 0 n).length = Nat.count (HoldsNonzero memory) n := by
  rw [nonzeroChunks, ← List.countP_eq_length_filter, ← List.range_eq_range', Nat.count]
  apply List.countP_congr
  intro k _
  simp [isZeroMemoryChunk_chunkAt]

theorem sparseImage_canonical (memory : Memory) (hpages : pageCount.toNat ≤ 65536) :
    Canonical memory pageCount (nonzeroChunks memory 0 (pageCount.toNat * 16)) (sparseImage memory pageCount) where
  increasing := nonzeroChunks_increasing ..
  complete k := by rw [mem_nonzeroChunks, isZeroMemoryChunk_chunkAt]
  index k hk := (chunk_words hpages (mem_nonzeroChunks.mp hk).1).1
  records := by
    rw [sparseImage, chunkRecords, List.flatMap_map]
    simp only [recordBytes, chunkRecord]

/-! ### The memory of an image -/

/-- What a restore of an image of these pages leaves in a destination at 1 that was zero. -/
def restoredBytes (pageCount : UInt32) (image : Bytes) : Memory :=
  (restoreMemoryInto (images (sparseMetadata pageCount) image) 1 (pageCount.toNat * 65536)
    ⟨fun _ => 0, []⟩).2.bytes

theorem restoredBytes_sparseImage (memory : Memory) (hpages : pageCount.toNat ≤ 65536) {x : Nat}
    (hx : x < pageCount.toNat * 65536) :
    restoredBytes pageCount (sparseImage memory pageCount) (1 + x) = memory x := by
  have hdir : Checkpointed (images (sparseMetadata pageCount) (sparseImage memory pageCount)) memory pageCount :=
    ⟨images_image .., images_info ..⟩
  unfold restoredBytes
  rw [(hdir.restored hpages (fun h => absurd h Nat.one_ne_zero) (Nat.le_refl _) ⟨fun _ => 0, []⟩).2]
  exact chunksOver_zeroed memory hx rfl

/-- The image of a memory depends on its bytes only up to its pages. -/
theorem sparseImage_congr (hsame : ∀ x, x < pageCount.toNat * 65536 → memory x = memory' x) :
    sparseImage memory pageCount = sparseImage memory' pageCount := by
  have hchunk : ∀ k < pageCount.toNat * 16, ∀ x < 4096, memory (k * 4096 + x) = memory' (k * 4096 + x) :=
    fun k hk x hx => hsame _ (by omega)
  have hnonzero : ∀ k < pageCount.toNat * 16, HoldsNonzero memory k ↔ HoldsNonzero memory' k := fun k hk =>
    exists_congr fun x => and_congr_right fun hx => by rw [hchunk k hk x hx]
  have hchunks : nonzeroChunks memory 0 (pageCount.toNat * 16) =
      nonzeroChunks memory' 0 (pageCount.toNat * 16) := by
    unfold nonzeroChunks
    apply List.filter_congr
    intro k hk
    have hlt : k < pageCount.toNat * 16 := by simpa using hk
    rw [Bool.eq_iff_iff, Bool.not_eq_true', Bool.not_eq_true', isZeroMemoryChunk_chunkAt,
      isZeroMemoryChunk_chunkAt, hnonzero k hlt]
  have hrecords : ∀ k ∈ nonzeroChunks memory' 0 (pageCount.toNat * 16),
      chunkRecord memory k = chunkRecord memory' k := by
    intro k hk
    have hread : memory.read (k * 4096) 4096 = memory'.read (k * 4096) 4096 := by
      unfold Memory.read
      apply List.map_congr_left
      intro x hx
      exact hchunk k (mem_nonzeroChunks.mp hk).1 x (List.mem_range.mp hx)
    rw [chunkRecord, chunkRecord, hread]
  rw [sparseImage, sparseImage, chunkRecords, chunkRecords, hchunks, List.map_congr_left hrecords]

theorem sparseImage_eq_iff (hpages : pageCount.toNat ≤ 65536) :
    sparseImage memory pageCount = sparseImage memory' pageCount ↔
      ∀ x, x < pageCount.toNat * 65536 → memory x = memory' x := by
  refine ⟨fun heq x hx => ?_, sparseImage_congr⟩
  rw [← restoredBytes_sparseImage memory hpages hx, heq, restoredBytes_sparseImage memory' hpages hx]

end Canonical

/-! ### What a checkpoint writes -/

/-- The call succeeds, and its closes get through what its writes left to them. -/
structure MemorySaved (cwd : String) (memory : Memory) (curPage : UInt32) (w : World Path) : Prop where
  returned : (checkpointMemory cwd memory curPage w).1 = 0
  delivered : MemoryDelivered w memory curPage

theorem MemorySaved.image {cwd : String} {memory : Memory} {curPage : UInt32} {w : World Path}
    (h : MemorySaved cwd memory curPage w) :
    (checkpointMemory cwd memory curPage w).2.files (memoryPath cwd) = some (sparseImage memory curPage) := by
  obtain ⟨hcode, hfiles⟩ := checkpointMemory_spec cwd memory curPage w
  obtain ⟨image, info, hheld⟩ := hcode.mp h.returned
  obtain ⟨hle, -, himage, -⟩ := hfiles image info hheld
  rw [himage, (take_survivors_iff hle).mpr (h.delivered image info hheld).1]

/-- Both files of a successful checkpoint are whole. -/
theorem MemorySaved.checkpointed {cwd : String} {memory : Memory} {curPage : UInt32} {w : World Path}
    (h : MemorySaved cwd memory curPage w) :
    Checkpointed (directory (checkpointMemory cwd memory curPage w).2 cwd) memory curPage := by
  obtain ⟨hcode, hfiles⟩ := checkpointMemory_spec cwd memory curPage w
  obtain ⟨image, info, hheld⟩ := hcode.mp h.returned
  obtain ⟨-, hle, -, hinfo⟩ := hfiles image info hheld
  refine ⟨h.image, ?_⟩
  rw [← sparseMetadata_length curPage] at hle hinfo
  show (checkpointMemory cwd memory curPage w).2.files (pageCountPath cwd) = _
  rw [hinfo, (take_survivors_iff hle).mpr (h.delivered image info hheld).2]

theorem MemorySaved.of_faultless (cwd : String) (memory : Memory) (curPage : UInt32) {w : World Path}
    (hw : w.Faultless) : MemorySaved cwd memory curPage w where
  returned := (checkpointMemory_checkpointed cwd memory curPage hw).1
  delivered image info _ := by
    constructor <;> intro k hk <;> simp [hw _] at hk

/-- The image of at most 65536 pages that a checkpoint writes is the list of the chunks
that hold a non-zero byte, in strictly increasing order, so it has 4100 bytes for each of
them; and two memories of as many pages have the same image exactly when they are equal. -/
theorem checkpointMemory_canonical {cwd cwd' : String} {memory memory' : Memory} {curPage : UInt32}
    {w w' : World Path} (hpages : curPage.toNat ≤ 65536) (hsaved : MemorySaved cwd memory curPage w)
    (hsaved' : MemorySaved cwd' memory' curPage w') :
    ∃ image image' chunks,
      (checkpointMemory cwd memory curPage w).2.files (memoryPath cwd) = some image ∧
      (checkpointMemory cwd' memory' curPage w').2.files (memoryPath cwd') = some image' ∧
      Canonical memory curPage chunks image ∧
      image.length = 4100 * Nat.count (HoldsNonzero memory) (curPage.toNat * 16) ∧
      (image = image' ↔ ∀ x, x < curPage.toNat * 65536 → memory x = memory' x) := by
  refine ⟨_, _, _, hsaved.image, hsaved'.image, sparseImage_canonical memory hpages, ?_,
    sparseImage_eq_iff hpages⟩
  rw [sparseImage, chunkRecords_length, nonzeroChunks_length]

/-- A page with one byte set and a page of zeros. -/
theorem checkpointMemory_canonical_marked_page :
    ∃ image image',
      (checkpointMemory "/" markedPage 1 freshWorld).2.files (memoryPath "/") = some image ∧
      (checkpointMemory "/" (fun _ => 0) 1 freshWorld).2.files (memoryPath "/") = some image' ∧
      image ≠ image' := by
  obtain ⟨image, image', -, himage, himage', -, -, hsame⟩ := checkpointMemory_canonical
    (by decide) (.of_faultless "/" markedPage 1 freshWorld_faultless)
    (.of_faultless "/" (fun _ => 0) 1 freshWorld_faultless)
  refine ⟨image, image', himage, himage', ?_⟩
  intro heq
  exact absurd (hsame.mp heq 5000 (by decide)) (by decide)

end Wasmig
