import Wasmig.Memory.RestoreInto
import Wasmig.Memory.Written

/-! Memory images there and back.

A restore lays chunks of the stored memory over its destination (`chunksOver`): the
chunks that are not all zero from the sparse image of a memory
(`Checkpointed.restored`), all of them from its legacy image (`Legacy.restored`). The
round trip of a checkpoint and the comparison of the two formats are read off these. -/
namespace Wasmig
open Base Base.Stdio

/-- A destination with these chunks of the memory laid over it. -/
def chunksOver (memory : Memory) (chunks : List Nat) (dst : Nat) (base : Memory) : Memory := fun x =>
  if dst ≤ x ∧ (x - dst) / 4096 ∈ chunks then memory (x - dst) else base x

/-- The chunk `k` as it is written to a buffer at `dst`. -/
def chunkWrite (memory : Memory) (dst k : Nat) : Nat × Bytes :=
  (dst + k * 4096, memory.read (k * 4096) 4096)

theorem chunkWrite_covers (memory : Memory) (dst k x : Nat) :
    Memory.Covers (chunkWrite memory dst k) x ↔ dst ≤ x ∧ (x - dst) / 4096 = k := by
  unfold Memory.Covers chunkWrite
  dsimp only
  rw [Memory.read_length]
  omega

/-- Writing chunks of one memory lays them over what was there, in any order. -/
theorem writeAll_chunks (memory : Memory) (chunks : List Nat) (dst : Nat) (base : Memory) :
    base.writeAll (chunks.map (chunkWrite memory dst)) = chunksOver memory chunks dst base := by
  funext x
  unfold chunksOver
  by_cases hx : dst ≤ x ∧ (x - dst) / 4096 ∈ chunks
  · rw [if_pos hx]
    refine Memory.writeAll_source memory dst _ base x ?_ ?_
    · intro w hw
      obtain ⟨k, -, rfl⟩ := List.mem_map.mp hw
      refine ⟨Nat.le_add_right dst (k * 4096), fun i hi => ?_⟩
      simp only [chunkWrite, Memory.read_length] at hi
      simp only [chunkWrite, Memory.read_getD _ _ _ _ hi, Nat.add_sub_cancel_left]
    · exact ⟨_, List.mem_map_of_mem hx.2, (chunkWrite_covers ..).mpr ⟨hx.1, rfl⟩⟩
  · rw [if_neg hx]
    apply Memory.writeAll_outside
    intro w hw hcovers
    obtain ⟨k, hk, rfl⟩ := List.mem_map.mp hw
    obtain ⟨hle, heq⟩ := (chunkWrite_covers ..).mp hcovers
    exact hx ⟨hle, heq ▸ hk⟩

/-! ### Sparse images -/

/-- The directory holds the sparse images of a memory of these pages. -/
structure Checkpointed (dir : Directory) (memory : Memory) (pageCount : UInt32) : Prop where
  image : dir "memory.img" = some (sparseImage memory pageCount)
  info : dir "mem_page_count.img" = some (sparseMetadata pageCount)

section Sparse
variable {dir : Directory} {memory : Memory} {pageCount : UInt32}

theorem Checkpointed.memoryImageInfo (h : Checkpointed dir memory pageCount) :
    memoryImageInfo dir = some (sparseInfo kSparseMemoryFormatV1 pageCount) :=
  (memoryImageInfo_iff dir _).mpr ⟨Or.inl rfl, h.info⟩

theorem mem_nonzeroChunks {k n : Nat} :
    k ∈ nonzeroChunks memory 0 n ↔ k < n ∧ isZeroMemoryChunk (chunkAt memory k) = false := by
  rw [nonzeroChunks, List.mem_filter, List.mem_range'_1, Bool.not_eq_true', Nat.zero_add]
  exact and_congr_left' (and_iff_right (Nat.zero_le k))

/-- Below 65536 pages a chunk index is its own 32-bit word, and so is the chunk's
offset. -/
theorem chunk_words {k : Nat} (hpages : pageCount.toNat ≤ 65536) (hk : k < pageCount.toNat * 16) :
    (UInt32.ofNat k).toNat = k ∧ (UInt32.ofNat k * kMemoryChunkSize).toNat = k * 4096 := by
  have hword : (UInt32.ofNat k).toNat = k := by
    rw [UInt32.toNat_ofNat']
    exact Nat.mod_eq_of_lt (by omega)
  refine ⟨hword, ?_⟩
  rw [UInt32.toNat_mul, hword, kMemoryChunkSize_toNat]
  exact Nat.mod_eq_of_lt (by omega)

theorem chunkRecord_write {k : Nat} (dst : Nat) (hpages : pageCount.toNat ≤ 65536)
    (hk : k < pageCount.toNat * 16) :
    (recordVisit (chunkRecord memory k)).write dst = chunkWrite memory dst k := by
  have hoffset := (chunk_words hpages hk).2
  have hlen : kMemoryChunkSize.toNat = 4096 := rfl
  simp only [Visit.write, recordVisit, chunkRecord, chunkWrite, hoffset, hlen, Prod.mk.injEq, true_and]
  exact List.take_of_length_le (Nat.le_of_eq (Memory.read_length ..))

theorem chunkRecord_valid {k : Nat} (hpages : pageCount.toNat ≤ 65536) (hk : k < pageCount.toNat * 16) :
    (chunkRecord memory k).1.toNat < pageCount.toNat * 16 ∧ (chunkRecord memory k).2.length = 4096 := by
  refine ⟨?_, chunkRecord_length memory k⟩
  show (UInt32.ofNat k).toNat < pageCount.toNat * 16
  rw [(chunk_words hpages hk).1]
  exact hk

/-- The image of a memory is read as its records. -/
theorem Checkpointed.transcript (h : Checkpointed dir memory pageCount) (hpages : pageCount.toNat ≤ 65536) :
    directoryTranscript dir =
      ⟨(chunkRecords memory 0 (pageCount.toNat * 16)).map recordVisit, true⟩ := by
  refine directoryTranscript_records h.image h.memoryImageInfo fun r hr => ?_
  obtain ⟨k, hk, rfl⟩ := List.mem_map.mp hr
  exact chunkRecord_valid hpages (mem_nonzeroChunks.mp hk).1

/-- A restore from records of chunks that is accepted lays these chunks over the
destination. -/
theorem restoreMemoryInto_chunks (hpages : pageCount.toNat ≤ 65536) {chunks : List Nat}
    (hchunks : ∀ k ∈ chunks, k < pageCount.toNat * 16) {dst dstSize : Nat} {info : WasmigMemoryImageInfo}
    (hready : Ready dir dst dstSize info)
    (htranscript : directoryTranscript dir = ⟨(chunks.map (chunkRecord memory)).map recordVisit, true⟩) (ram : Ram) :
    (restoreMemoryInto dir dst dstSize ram).1 = 0 ∧
      (restoreMemoryInto dir dst dstSize ram).2.bytes = chunksOver memory chunks dst ram.bytes := by
  rw [restoreMemoryInto_ready hready, htranscript]
  refine ⟨rfl, ?_⟩
  show ram.bytes.writeAll _ = _
  rw [← writeAll_chunks, List.map_map, List.map_map]
  congr 1
  apply List.map_congr_left
  intro k hk
  exact chunkRecord_write dst hpages (hchunks k hk)

/-- A restore of the sparse image succeeds and lays the chunks that are not all zero
over the destination. -/
theorem Checkpointed.restored (h : Checkpointed dir memory pageCount) (hpages : pageCount.toNat ≤ 65536)
    {dst dstSize : Nat} (hdst : dst = 0 → dstSize = 0) (hlarge : pageCount.toNat * 65536 ≤ dstSize)
    (ram : Ram) :
    (restoreMemoryInto dir dst dstSize ram).1 = 0 ∧
      (restoreMemoryInto dir dst dstSize ram).2.bytes =
        chunksOver memory (nonzeroChunks memory 0 (pageCount.toNat * 16)) dst ram.bytes :=
  restoreMemoryInto_chunks hpages (fun _ hk => (mem_nonzeroChunks.mp hk).1)
    ⟨h.memoryImageInfo, hdst, hlarge⟩ (h.transcript hpages) ram

end Sparse

/-! ### The round trip -/

/-- The chunk `k` holds a non-zero byte. -/
def HoldsNonzero (memory : Memory) (k : Nat) : Prop := ∃ x < 4096, memory (k * 4096 + x) ≠ 0

/-- The zero test of the source looks at every byte of the chunk. -/
theorem isZeroMemoryChunk_chunkAt (memory : Memory) (k : Nat) :
    isZeroMemoryChunk (chunkAt memory k) = false ↔ HoldsNonzero memory k := by
  simp [isZeroMemoryChunk, chunkAt, HoldsNonzero]

/-- The byte `i` lies in a chunk that holds a non-zero byte. -/
def InNonzeroChunk (memory : Memory) (i : Nat) : Prop :=
  ∃ j, j < 4096 ∧ memory (i / 4096 * 4096 + j) ≠ 0

theorem isZeroMemoryChunk_iff (memory : Memory) (i : Nat) :
    isZeroMemoryChunk (chunkAt memory (i / 4096)) = false ↔ InNonzeroChunk memory i :=
  isZeroMemoryChunk_chunkAt memory (i / 4096)

/-- A byte outside such chunks is zero. -/
theorem eq_zero_of_not_inNonzeroChunk {memory : Memory} {i : Nat} (h : ¬ InNonzeroChunk memory i) :
    memory i = 0 := by
  by_contra hi
  refine h ⟨i % 4096, Nat.mod_lt _ (by decide), ?_⟩
  rw [Nat.div_add_mod']
  exact hi

theorem mem_nonzeroChunks_div {memory : Memory} (pages i : Nat) :
    i / 4096 ∈ nonzeroChunks memory 0 (pages * 16) ↔ i < pages * 65536 ∧ InNonzeroChunk memory i := by
  have hrange : i / 4096 < pages * 16 ↔ i < pages * 65536 := by omega
  rw [mem_nonzeroChunks, hrange, isZeroMemoryChunk_iff]

/-- Over bytes that were zero the chunks that hold a non-zero byte are the memory. -/
theorem chunksOver_zeroed (memory : Memory) {pages dst i : Nat} {base : Memory} (hi : i < pages * 65536)
    (hzero : base (dst + i) = 0) :
    chunksOver memory (nonzeroChunks memory 0 (pages * 16)) dst base (dst + i) = memory i := by
  unfold chunksOver
  rw [Nat.add_sub_cancel_left]
  by_cases hchunk : InNonzeroChunk memory i
  · rw [if_pos ⟨Nat.le_add_right .., (mem_nonzeroChunks_div ..).mpr ⟨hi, hchunk⟩⟩]
  · rw [if_neg fun h => hchunk ((mem_nonzeroChunks_div ..).mp h.2).2, hzero,
      eq_zero_of_not_inNonzeroChunk hchunk]

theorem checkpointMemory_checkpointed (cwd : String) (memory : Memory) (curPage : UInt32) {w : World Path}
    (hw : w.Faultless) :
    (checkpointMemory cwd memory curPage w).1 = 0 ∧
      Checkpointed (directory (checkpointMemory cwd memory curPage w).2 cwd) memory curPage := by
  obtain ⟨houtcome, -⟩ := checkpointMemory_outcome cwd memory curPage w
  cases houtcome with
  | neitherOpened hmem => exact absurd (hw _) hmem
  | sizeOpened hmem => exact absurd (hw _) hmem
  | memOpened _ hsize => exact absurd (hw _) hsize
  | bothOpened _ _ image info imageFile infoFile _ _ _ _ free =>
    obtain ⟨hcode, rfl, rfl⟩ := free hw
    exact ⟨hcode, imageFile, infoFile⟩

/-- A checkpoint without faults of at most 65536 pages is read back as sparse images of
those pages, and a restore into any destination large enough sets exactly the bytes in
chunks that hold a non-zero byte; a destination that was zero ends up with the memory. -/
theorem checkpointMemory_roundTrip (cwd : String) (memory : Memory) (curPage : UInt32)
    (hpages : curPage.toNat ≤ 65536) {w : World Path} (hw : w.Faultless) :
    (checkpointMemory cwd memory curPage w).1 = 0 ∧
    (∃ info, memoryImageInfo (directory (checkpointMemory cwd memory curPage w).2 cwd) = some info ∧
      info.sparseFormat = true ∧ info.pageCount = curPage) ∧
    ∀ dst dstSize ram, (dst = 0 → dstSize = 0) → curPage.toNat * 65536 ≤ dstSize →
      ∃ after, restoreMemoryInto (directory (checkpointMemory cwd memory curPage w).2 cwd) dst dstSize ram =
          (0, after) ∧
        (∀ i, i < curPage.toNat * 65536 → InNonzeroChunk memory i → after.bytes (dst + i) = memory i) ∧
        (∀ i, ¬ (i < curPage.toNat * 65536 ∧ InNonzeroChunk memory i) →
          after.bytes (dst + i) = ram.bytes (dst + i)) ∧
        (∀ x, x < dst → after.bytes x = ram.bytes x) ∧
        ((∀ i, i < curPage.toNat * 65536 → ram.bytes (dst + i) = 0) →
          ∀ i, i < curPage.toNat * 65536 → after.bytes (dst + i) = memory i) := by
  obtain ⟨hcode, hdir⟩ := checkpointMemory_checkpointed cwd memory curPage hw
  refine ⟨hcode, ⟨_, hdir.memoryImageInfo, rfl, rfl⟩, fun dst dstSize ram hdst hlarge => ?_⟩
  obtain ⟨hrestored, hbytes⟩ := hdir.restored hpages hdst hlarge ram
  generalize restoreMemoryInto (directory (checkpointMemory cwd memory curPage w).2 cwd) dst dstSize ram =
    r at hrestored hbytes ⊢
  obtain ⟨code, after⟩ := r
  dsimp only at hrestored hbytes
  subst hrestored
  have hset : ∀ i, i < curPage.toNat * 65536 → InNonzeroChunk memory i →
      after.bytes (dst + i) = memory i := by
    intro i hi hchunk
    rw [hbytes, chunksOver, Nat.add_sub_cancel_left,
      if_pos ⟨Nat.le_add_right .., (mem_nonzeroChunks_div ..).mpr ⟨hi, hchunk⟩⟩]
  have hkept : ∀ i, ¬ (i < curPage.toNat * 65536 ∧ InNonzeroChunk memory i) →
      after.bytes (dst + i) = ram.bytes (dst + i) := by
    intro i hi
    rw [hbytes, chunksOver, Nat.add_sub_cancel_left, if_neg fun h => hi ((mem_nonzeroChunks_div ..).mp h.2)]
  refine ⟨after, rfl, hset, hkept, ?_, ?_⟩
  · intro x hx
    rw [hbytes, chunksOver, if_neg (by omega)]
  · intro hzero i hi
    rw [hbytes]
    exact chunksOver_zeroed memory hi (hzero i hi)

/-- A working directory with no files, where nothing fails. -/
def freshWorld : World Path := ⟨fun _ => none, fun _ => none, 0⟩

theorem freshWorld_faultless : freshWorld.Faultless := fun _ => rfl

/-- One page with a single byte set in its second chunk. -/
def markedPage : Memory := fun i => if i = 5000 then 7 else 0

theorem checkpointMemory_roundTrip_marked_page :
    ∃ after, restoreMemoryInto (directory (checkpointMemory "/" markedPage 1 freshWorld).2 "/") 1 65536
        ⟨fun _ => 0, []⟩ = (0, after) ∧
      after.bytes 5001 = 7 ∧ after.bytes 70000 = 0 := by
  obtain ⟨after, hrestore, hset, hkept, -, -⟩ :=
    (checkpointMemory_roundTrip "/" markedPage 1 (by decide) freshWorld_faultless).2.2 1 65536
      ⟨fun _ => 0, []⟩ (by decide) (by decide)
  refine ⟨after, hrestore, ?_, ?_⟩
  · exact hset 5000 (by decide) ⟨904, by decide, by decide⟩
  · exact hkept 69999 (fun h => absurd h.1 (by decide))

/-! ### The two formats -/

/-- The directory holds the legacy images of a memory of these pages. -/
structure Legacy (dir : Directory) (memory : Memory) (pageCount : UInt32) : Prop where
  image : dir "memory.img" = some (memory.read 0 (pageCount.toNat * wasmPageSize))
  info : dir "mem_page_count.img" = some (le32 pageCount)

section Legacy
variable {dir : Directory} {memory : Memory} {pageCount : UInt32}

/-- The info read back from such a directory. -/
def legacyInfo (pageCount : UInt32) : WasmigMemoryImageInfo :=
  ⟨0, pageCount, kMemoryChunkSize, false, rfl⟩

theorem Legacy.memoryImageInfo (h : Legacy dir memory pageCount) :
    memoryImageInfo dir = some (legacyInfo pageCount) :=
  (memoryImageInfo_iff dir _).mpr ⟨rfl, h.info⟩

theorem Legacy.transcript (h : Legacy dir memory pageCount) :
    directoryTranscript dir = ⟨(List.range (pageCount.toNat * 16)).map
      (denseVisit (memory.read 0 (pageCount.toNat * wasmPageSize))), true⟩ := by
  have hdense : (legacyInfo pageCount).sparseFormat = false := rfl
  have hcount : (legacyInfo pageCount).pageCount = pageCount := rfl
  rw [directoryTranscript_of h.image h.memoryImageInfo, imageTranscript, if_pos hdense, hcount,
    denseTranscript, if_pos (Memory.read_length ..)]

/-- The chunk `k` of a memory of `n` chunks. -/
theorem read_chunk (memory : Memory) {k n : Nat} (hk : k < n) :
    ((memory.read 0 (n * 4096)).drop (k * 4096)).take 4096 = memory.read (k * 4096) 4096 := by
  rw [Memory.read_drop memory 0 _ _ (by omega), Memory.read_take memory _ _ _ (by omega),
    Nat.zero_add (k * 4096)]

/-- A restore of the legacy image succeeds and lays all chunks over the destination. -/
theorem Legacy.restored (h : Legacy dir memory pageCount) (hpages : pageCount.toNat ≤ 65536)
    {dst dstSize : Nat} (hdst : dst = 0 → dstSize = 0) (hlarge : pageCount.toNat * 65536 ≤ dstSize)
    (ram : Ram) :
    (restoreMemoryInto dir dst dstSize ram).1 = 0 ∧
      (restoreMemoryInto dir dst dstSize ram).2.bytes =
        chunksOver memory (List.range (pageCount.toNat * 16)) dst ram.bytes := by
  have hready : Ready dir dst dstSize (legacyInfo pageCount) := ⟨h.memoryImageInfo, hdst, hlarge⟩
  rw [restoreMemoryInto_ready hready, h.transcript]
  refine ⟨rfl, ?_⟩
  show ram.bytes.writeAll _ = _
  rw [← writeAll_chunks, List.map_map]
  congr 1
  apply List.map_congr_left
  intro k hk
  have hlt := List.mem_range.mp hk
  have hoffset : (UInt32.ofNat (k * 4096)).toNat = k * 4096 := by
    rw [UInt32.toNat_ofNat']
    exact Nat.mod_eq_of_lt (by omega)
  have hbody : ((memory.read 0 (pageCount.toNat * wasmPageSize)).drop (k * 4096)).take 4096 =
      memory.read (k * 4096) 4096 := by
    have hpage : pageCount.toNat * wasmPageSize = pageCount.toNat * 16 * 4096 := by
      rw [wasmPageSize, Nat.mul_assoc]
    rw [hpage]
    exact read_chunk memory hlt
  simp only [Function.comp_apply, Visit.write, denseVisit, chunkWrite, kMemoryChunkSize_toNat, hbody, hoffset]
  rw [List.take_of_length_le (Nat.le_of_eq (Memory.read_length ..))]

/-- The sparse and the legacy images of one memory restore with the same code to the
same bytes outside the chunks that are all zero, and to the same bytes everywhere
exactly when the destination was zero on those. -/
theorem restore_sparse_legacy (cwd : String) (hpages : pageCount.toNat ≤ 65536) {w : World Path}
    (hw : w.Faultless) (hlegacy : Legacy dir memory pageCount) {dst dstSize : Nat}
    (hdst : dst = 0 → dstSize = 0) (hlarge : pageCount.toNat * 65536 ≤ dstSize) (ram : Ram) :
    ∃ sparse dense,
      restoreMemoryInto (directory (checkpointMemory cwd memory pageCount w).2 cwd) dst dstSize ram =
        (0, sparse) ∧
      restoreMemoryInto dir dst dstSize ram = (0, dense) ∧
      (∀ x, (dst ≤ x → x - dst < pageCount.toNat * 65536 → InNonzeroChunk memory (x - dst)) →
        sparse.bytes x = dense.bytes x) ∧
      ((∀ x, sparse.bytes x = dense.bytes x) ↔
        ∀ i, i < pageCount.toNat * 65536 → ¬ InNonzeroChunk memory i → ram.bytes (dst + i) = 0) := by
  obtain ⟨hcode, hsparse⟩ := (checkpointMemory_checkpointed cwd memory pageCount hw).2.restored hpages hdst
    hlarge ram
  obtain ⟨hcode', hdense⟩ := hlegacy.restored hpages hdst hlarge ram
  generalize restoreMemoryInto (directory (checkpointMemory cwd memory pageCount w).2 cwd) dst dstSize ram =
    sparse at hcode hsparse ⊢
  generalize restoreMemoryInto dir dst dstSize ram = dense at hcode' hdense ⊢
  obtain ⟨code, sparse⟩ := sparse
  obtain ⟨code', dense⟩ := dense
  dsimp only at hcode hsparse hcode' hdense
  subst hcode hcode'
  have hrange : ∀ i, i / 4096 ∈ List.range (pageCount.toNat * 16) ↔ i < pageCount.toNat * 65536 := by
    intro i
    rw [List.mem_range]
    omega
  have hsame : ∀ x, (dst ≤ x → x - dst < pageCount.toNat * 65536 → InNonzeroChunk memory (x - dst)) →
      sparse.bytes x = dense.bytes x := by
    intro x hx
    rw [hsparse, hdense, chunksOver, chunksOver]
    refine ite_congr (propext ?_) (fun _ => rfl) (fun _ => rfl)
    rw [mem_nonzeroChunks_div, hrange]
    exact and_congr_right fun hle => and_iff_left_of_imp (hx hle)
  refine ⟨sparse, dense, rfl, rfl, hsame, ?_⟩
  -- On an all-zero chunk the legacy image writes zeros and the sparse one nothing.
  have hzero : ∀ i, i < pageCount.toNat * 65536 → ¬ InNonzeroChunk memory i →
      sparse.bytes (dst + i) = ram.bytes (dst + i) ∧ dense.bytes (dst + i) = 0 := by
    intro i hi hchunk
    rw [hsparse, hdense, chunksOver, chunksOver, Nat.add_sub_cancel_left,
      if_neg fun h => hchunk ((mem_nonzeroChunks_div ..).mp h.2).2,
      if_pos ⟨Nat.le_add_right .., (hrange i).mpr hi⟩]
    exact ⟨rfl, eq_zero_of_not_inNonzeroChunk hchunk⟩
  constructor
  · intro h i hi hchunk
    obtain ⟨hs, hd⟩ := hzero i hi hchunk
    rw [← hs, h, hd]
  · intro h x
    by_cases hx : dst ≤ x → x - dst < pageCount.toNat * 65536 → InNonzeroChunk memory (x - dst)
    · exact hsame x hx
    · simp only [not_forall] at hx
      obtain ⟨hle, hlt, hchunk⟩ := hx
      obtain ⟨i, rfl⟩ := Nat.exists_eq_add_of_le hle
      rw [Nat.add_sub_cancel_left] at hlt hchunk
      obtain ⟨hs, hd⟩ := hzero i hlt hchunk
      rw [hs, hd, h i hlt hchunk]

end Legacy

/-- The legacy images of `markedPage`. -/
def legacyMarkedPage : Directory := images (le32 1) (markedPage.read 0 (1 * wasmPageSize))

theorem legacyMarkedPage_legacy : Legacy legacyMarkedPage markedPage 1 := ⟨images_image .., images_info ..⟩

/-- Address space in which only the byte to be overwritten is not zero. -/
def markedRam : Ram := ⟨fun x => if x = 5001 then 9 else 0, []⟩

theorem restore_sparse_legacy_marked_page :
    ∃ sparse dense,
      restoreMemoryInto (directory (checkpointMemory "/" markedPage 1 freshWorld).2 "/") 1 65536 markedRam =
        (0, sparse) ∧
      restoreMemoryInto legacyMarkedPage 1 65536 markedRam = (0, dense) ∧
      sparse.bytes 5001 = 7 ∧ ∀ x, sparse.bytes x = dense.bytes x := by
  have hdst : 1 = 0 → 65536 = 0 := by decide
  have hmarked : InNonzeroChunk markedPage 5000 := ⟨904, by decide, by decide⟩
  obtain ⟨sparse, dense, hsparse, hdense, -, hsame⟩ :=
    restore_sparse_legacy "/" (by decide) freshWorld_faultless legacyMarkedPage_legacy hdst (by decide) markedRam
  have hover := ((checkpointMemory_checkpointed "/" markedPage 1 freshWorld_faultless).2.restored (by decide) hdst
    (by decide) markedRam).2
  rw [hsparse] at hover
  refine ⟨sparse, dense, hsparse, hdense, ?_, hsame.mpr fun i _ hchunk => ?_⟩
  · rw [congrFun hover 5001, chunksOver, if_pos ⟨by decide, (mem_nonzeroChunks_div ..).mpr ⟨by decide, hmarked⟩⟩]
    decide
  · have hother : 1 + i ≠ 5001 := by
      rintro heq
      obtain rfl : i = 5000 := by omega
      exact hchunk hmarked
    exact if_neg hother

/-- A destination that was not zero shows the difference: the sparse image leaves a chunk
that is all zero as it was, the legacy one clears it. -/
theorem restore_sparse_legacy_differ :
    (restoreMemoryInto (directory (checkpointMemory "/" markedPage 1 freshWorld).2 "/") 1 65536
        ⟨fun _ => 1, []⟩).2.bytes 1 ≠
      (restoreMemoryInto legacyMarkedPage 1 65536 ⟨fun _ => 1, []⟩).2.bytes 1 := by
  have hcheckpointed := (checkpointMemory_checkpointed "/" markedPage 1 freshWorld_faultless).2
  rw [(hcheckpointed.restored (by decide) (by decide) (by decide) ⟨fun _ => 1, []⟩).2,
    (legacyMarkedPage_legacy.restored (by decide) (by decide) (by decide) ⟨fun _ => 1, []⟩).2,
    chunksOver, chunksOver, if_neg, if_pos]
  · decide
  · exact ⟨Nat.le_refl 1, List.mem_range.mpr (by decide)⟩
  · rintro ⟨-, h⟩
    obtain ⟨-, j, hj, hbyte⟩ := (mem_nonzeroChunks_div 1 0).mp h
    refine hbyte (if_neg ?_)
    omega

end Wasmig
