import Mathlib.Data.List.Perm.Subperm
import Wasmig.Memory.RestoreMemory

/-! Images that are cut short.

The records of a sparse image are all of one length, so a cut leaves complete records and
the beginning of another (`sparseImage_cut`). A restore writes the chunks of the complete
ones in any case, and returns 0 when fewer than four bytes follow them
(`restore_truncated`). -/
namespace Wasmig
open Base Base.Stdio

variable {dir : Directory} {memory : Memory} {pageCount : UInt32} {n : Nat}

/-- What a cut leaves: complete records and less than one more. -/
theorem sparseImage_cut (memory : Memory) (pageCount : UInt32) (hn : n ≤ (sparseImage memory pageCount).length) :
    ∃ tail, (sparseImage memory pageCount).take n =
        (((nonzeroChunks memory 0 (pageCount.toNat * 16)).take (n / 4100)).map (chunkRecord memory)).flatMap
          recordBytes ++ tail ∧
      tail.length = n % 4100 := by
  have hcut : ∃ chunks after tail, nonzeroChunks memory 0 (pageCount.toNat * 16) = chunks ++ after ∧
      (sparseImage memory pageCount).take n = (chunks.map (chunkRecord memory)).flatMap recordBytes ++ tail ∧
      tail.length < 4100 := by
    rcases prefix_flatMap recordBytes (List.take_prefix n (sparseImage memory pageCount)) with
      hwhole | ⟨before, r, after, tail, hrecords, htake, htail⟩
    · exact ⟨_, [], [], (List.append_nil _).symm, hwhole.trans (List.append_nil _).symm, by decide⟩
    · obtain ⟨chunks, rest, hchunks, rfl, hrest⟩ := List.map_eq_append_iff.mp hrecords
      obtain ⟨k, rest', rfl, rfl, rfl⟩ := List.map_eq_cons_iff.mp hrest
      rw [recordBytes, List.length_append, le32_length, chunkRecord_length] at htail
      exact ⟨chunks, k :: rest', tail, hchunks, htake, htail⟩
  obtain ⟨chunks, after, tail, hchunks, htake, htail⟩ := hcut
  have hlength := congrArg List.length htake
  rw [List.length_take_of_le hn, List.length_append, writtenChunks_length] at hlength
  have hcount : n / 4100 = chunks.length := by omega
  refine ⟨tail, ?_, by omega⟩
  rw [htake, hcount, hchunks, List.take_left]

/-- The image is read as its complete records. -/
theorem truncated_transcript (hpages : pageCount.toNat ≤ 65536)
    (himage : dir "memory.img" = some ((sparseImage memory pageCount).take n))
    (hinfo : memoryImageInfo dir = some (sparseInfo kSparseMemoryFormatV1 pageCount))
    (hn : n ≤ (sparseImage memory pageCount).length) :
    directoryTranscript dir =
      ⟨(((nonzeroChunks memory 0 (pageCount.toNat * 16)).take (n / 4100)).map (chunkRecord memory)).map recordVisit,
        decide (n % 4100 < 4)⟩ := by
  obtain ⟨tail, htake, htail⟩ := sparseImage_cut memory pageCount hn
  rw [htake] at himage
  rw [← htail]
  refine directoryTranscript_cut himage hinfo (fun r hr => ?_) (by omega)
  obtain ⟨k, hk, rfl⟩ := List.mem_map.mp hr
  exact chunkRecord_valid hpages (mem_nonzeroChunks.mp (List.mem_of_mem_take hk)).1

/-- Chunks laid over zeros are the memory exactly when none of its chunks with a non-zero
byte is missing. -/
theorem chunksOver_whole_iff {chunks : List Nat} {dst : Nat} {base : Memory}
    (hzero : ∀ i, i < pageCount.toNat * 65536 → base (dst + i) = 0) :
    (∀ i, i < pageCount.toNat * 65536 → chunksOver memory chunks dst base (dst + i) = memory i) ↔
      ∀ k ∈ nonzeroChunks memory 0 (pageCount.toNat * 16), k ∈ chunks := by
  have hlaid : ∀ i, chunksOver memory chunks dst base (dst + i) =
      if i / 4096 ∈ chunks then memory i else base (dst + i) := by
    intro i
    rw [chunksOver, Nat.add_sub_cancel_left]
    exact if_congr (and_iff_right (Nat.le_add_right ..)) rfl rfl
  constructor
  · intro hwhole k hk
    obtain ⟨hlt, hnonzero⟩ := mem_nonzeroChunks.mp hk
    obtain ⟨j, hj, hbyte⟩ := (isZeroMemoryChunk_chunkAt memory k).mp hnonzero
    have hinside := byte_of_chunk hlt hj
    by_contra hmissing
    have hbytes := hwhole _ hinside
    rw [hlaid, chunk_of_byte k hj, if_neg hmissing, hzero _ hinside] at hbytes
    exact hbyte hbytes.symm
  · intro hall i hi
    rw [hlaid]
    split
    · rfl
    · rename_i hmissing
      have hchunk : ¬ InNonzeroChunk memory i := fun h =>
        hmissing (hall _ ((mem_nonzeroChunks_div pageCount.toNat i).mpr ⟨hi, h⟩))
      rw [hzero i hi, eq_zero_of_not_inNonzeroChunk hchunk]

/-- A restore from a sparse image of which `n` bytes are left writes the chunks of its
complete records, whether it succeeds or not. It succeeds when fewer than four bytes are
left over, and over zeros it is the memory only if nothing was cut off. -/
theorem restore_truncated (hpages : pageCount.toNat ≤ 65536)
    (himage : dir "memory.img" = some ((sparseImage memory pageCount).take n))
    (hinfo : dir "mem_page_count.img" = some (sparseMetadata pageCount))
    (hn : n ≤ (sparseImage memory pageCount).length) {dst dstSize : Nat} (hdst : dst = 0 → dstSize = 0)
    (hlarge : pageCount.toNat * 65536 ≤ dstSize) (ram : Ram) :
    ((restoreMemoryInto dir dst dstSize ram).1 = 0 ↔ n % 4100 < 4) ∧
    (restoreMemoryInto dir dst dstSize ram).2.bytes =
      chunksOver memory ((nonzeroChunks memory 0 (pageCount.toNat * 16)).take (n / 4100)) dst ram.bytes ∧
    ((∀ i, i < pageCount.toNat * 65536 → ram.bytes (dst + i) = 0) →
      ((∀ i, i < pageCount.toNat * 65536 →
          (restoreMemoryInto dir dst dstSize ram).2.bytes (dst + i) = memory i) ↔
        n = (sparseImage memory pageCount).length)) := by
  have hvalid : memoryImageInfo dir = some (sparseInfo kSparseMemoryFormatV1 pageCount) :=
    (memoryImageInfo_iff dir _).mpr ⟨Or.inl rfl, hinfo⟩
  have hready : Ready dir dst dstSize (sparseInfo kSparseMemoryFormatV1 pageCount) := ⟨hvalid, hdst, hlarge⟩
  have hbytes : (restoreMemoryInto dir dst dstSize ram).2.bytes =
      chunksOver memory ((nonzeroChunks memory 0 (pageCount.toNat * 16)).take (n / 4100)) dst ram.bytes := by
    rw [restoreMemoryInto_ready hready, truncated_transcript hpages himage hvalid hn]
    show ram.bytes.writeAll _ = _
    rw [← writeAll_chunks, List.map_map, List.map_map]
    congr 1
    apply List.map_congr_left
    intro k hk
    exact chunkRecord_write dst hpages (mem_nonzeroChunks.mp (List.mem_of_mem_take hk)).1
  refine ⟨?_, hbytes, fun hzero => ?_⟩
  · rw [restoreMemoryInto_ready hready, truncated_transcript hpages himage hvalid hn]
    by_cases hcut : n % 4100 < 4
    · simp [hcut]
    · simp [hcut]
  · rw [hbytes, chunksOver_whole_iff hzero]
    have hlength := chunkRecords_length memory 0 (pageCount.toNat * 16)
    rw [← sparseImage] at hlength
    constructor
    · intro hall
      -- All chunks are among the first `n / 4100`, so there are no more than that.
      have hnodup : (nonzeroChunks memory 0 (pageCount.toNat * 16)).Nodup := (List.nodup_range' ..).filter _
      have hle := (List.subperm_of_subset hnodup hall).length_le
      rw [List.length_take] at hle
      omega
    · intro hwhole k hk
      rwa [List.take_of_length_le]
      omega

theorem markedPage_image : 4100 ≤ (sparseImage markedPage 1).length := by
  have hchunk : 1 ∈ nonzeroChunks markedPage 0 ((1 : UInt32).toNat * 16) :=
    mem_nonzeroChunks.mpr ⟨by decide, (isZeroMemoryChunk_chunkAt markedPage 1).mpr ⟨904, by decide, by decide⟩⟩
  have hpos := List.length_pos_of_mem hchunk
  rw [sparseImage, chunkRecords_length]
  omega

/-- The first three bytes of an image restore as a page of zeros. -/
theorem restore_truncated_marked_page :
    let after := restoreMemoryInto (images (sparseMetadata 1) ((sparseImage markedPage 1).take 3)) 1 65536
      ⟨fun _ => 0, []⟩
    after.1 = 0 ∧ ¬ ∀ i, i < 65536 → after.2.bytes (1 + i) = markedPage i := by
  have himage := markedPage_image
  obtain ⟨hcode, -, hwhole⟩ := restore_truncated (n := 3) (by decide) (images_image ..) (images_info ..)
    (show 3 ≤ (sparseImage markedPage 1).length by omega) (show 1 = 0 → 65536 = 0 by decide) (by decide)
    ⟨fun _ => 0, []⟩
  refine ⟨hcode.mpr (by decide), fun h => ?_⟩
  have hlength := (hwhole fun _ _ => rfl).mp h
  omega

end Wasmig
