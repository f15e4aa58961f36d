import Wasmig.Base.Codec
import Wasmig.Memory.Restore

/-! The memory images as formats, and the readers as what they do with them.

A sparse `memory.img` is a run of records (format V1: a chunk index and its chunk) or
of extents (format V2: a first index, a count and that many chunks); a legacy one is
the memory itself. Each format is an exact codec, so an image has one reading: its
`Transcript`, the visits a reader makes and whether it accepts what it read.
`visitMemoryChunks_eq` says that the reader of `restore.cpp` does exactly that, and
`restoreMemoryInto_eq` that a restore copies the visits and returns the verdict;
everything else about the readers is about transcripts. -/
namespace Wasmig
open Base Base.Stdio

/-! ### Metadata -/

/-- The metadata of an image of `p` pages in the given format: the page count alone
for a legacy image, behind the format marker for a sparse one. -/
def metadata (info : WasmigMemoryImageInfo) : Bytes :=
  if info.sparseFormat then le32 info.format ++ le32 info.pageCount else le32 info.pageCount

/-- The infos there are: legacy ones with no format, sparse ones with a known format. -/
def WasmigMemoryImageInfo.Known (info : WasmigMemoryImageInfo) : Prop :=
  if info.sparseFormat then
    info.format = kSparseMemoryFormatV1 ∨ info.format = kSparseMemoryFormatV2
  else info.format = 0

private theorem eq_of_fields {a b : WasmigMemoryImageInfo} (hf : a.format = b.format)
    (hp : a.pageCount = b.pageCount) (hs : a.sparseFormat = b.sparseFormat) : a = b := by
  obtain ⟨_, _, _, _, ha⟩ := a
  obtain ⟨_, _, _, _, hb⟩ := b
  subst ha hb
  cases hf
  cases hp
  cases hs
  rfl

/-- What a metadata file says: a word is the page count of a legacy image, two are the
marker of a sparse one, which has to be known, and the page count. -/
def infoOf (b : Bytes) : Option WasmigMemoryImageInfo :=
  if b.length = 4 then some ⟨0, word32 b, kMemoryChunkSize, false, rfl⟩
  else if b.length = 4 * 2 then
    if word32 (b.take 4) ≠ kSparseMemoryFormatV1 ∧ word32 (b.take 4) ≠ kSparseMemoryFormatV2 then none
    else some ⟨word32 (b.take 4), word32 (b.drop 4), kMemoryChunkSize, true, rfl⟩
  else none

/-- The metadata that is accepted is the metadata of a known info, and it is read back
as that info. -/
theorem infoOf_iff (b : Bytes) (info : WasmigMemoryImageInfo) :
    infoOf b = some info ↔ info.Known ∧ b = metadata info := by
  unfold infoOf
  constructor
  · intro h
    split at h
    · rename_i h4
      cases h
      exact ⟨rfl, (le32_word32 b h4).symm⟩
    split at h
    · rename_i h8
      split at h
      · cases h
      · rename_i hknown
        cases h
        refine ⟨?_, ?_⟩
        · show word32 (b.take 4) = kSparseMemoryFormatV1 ∨ word32 (b.take 4) = kSparseMemoryFormatV2
          exact Decidable.or_iff_not_not_and_not.mpr hknown
        · show b = le32 (word32 (b.take 4)) ++ le32 (word32 (b.drop 4))
          rw [le32_word32 _ (by simp [h8]), le32_word32 _ (by simp [h8]), List.take_append_drop]
    · cases h
  · rintro ⟨hknown, rfl⟩
    cases hs : info.sparseFormat with
    | false =>
      have hk : info.format = 0 := by simpa [WasmigMemoryImageInfo.Known, hs] using hknown
      have hm : metadata info = le32 info.pageCount := by simp [metadata, hs]
      rw [hm, if_pos (le32_length _), word32_le32]
      exact congrArg some (eq_of_fields hk.symm rfl hs.symm)
    | true =>
      have hk : info.format = kSparseMemoryFormatV1 ∨ info.format = kSparseMemoryFormatV2 := by
        simpa [WasmigMemoryImageInfo.Known, hs] using hknown
      have hm : metadata info = le32 info.format ++ le32 info.pageCount := by simp [metadata, hs]
      rw [hm, if_neg (by simp), if_pos (by simp), List.take_left' (le32_length _),
        List.drop_left' (le32_length _), word32_le32, word32_le32,
        if_neg (Decidable.or_iff_not_not_and_not.mp hk)]
      exact congrArg some (eq_of_fields rfl rfl hs.symm)

theorem openImageRbOrFail_tried (dir : Directory) (f : Faults) (file : String) :
    Tried f (openImageRbOrFail dir f file) (openImageRb dir file) (· = none) := by
  unfold openImageRbOrFail
  refine Tried.check ?_ (Tried.done _ _)
  rfl

theorem getFileSizeOrFail_tried (f : Faults) (fp : Reader) :
    Tried f (getFileSizeOrFail f fp) (some (getFileSize fp)) (· = none) := by
  unfold getFileSizeOrFail
  refine Tried.check ?_ (Tried.check ?_ (Tried.check ?_ (Tried.done _ _)))
  all_goals rfl

/-- The reader of metadata says what the file does, or fails. -/
theorem inspectMemoryImageOrFail_tried (f : Faults) (memSizeFp : Reader) :
    Tried f (inspectMemoryImageOrFail f memSizeFp) (infoOf memSizeFp.content) (· = none) := by
  unfold inspectMemoryImageOrFail infoOf
  refine (getFileSizeOrFail_tried f memSizeFp).andThen ?_ ?_
  · obtain ⟨size, f⟩ := getFileSizeOrFail f memSizeFp
    rintro (rfl : size = some (memSizeFp.content.length, memSizeFp.seekEnd.seekStart))
    dsimp only
    have hunread : memSizeFp.seekEnd.seekStart.unread = memSizeFp.content := rfl
    generalize memSizeFp.seekEnd.seekStart = fp at hunread ⊢
    generalize memSizeFp.content = content at hunread ⊢
    have hitem := (fread_item fp 4 (by decide)).1
    rw [hunread] at hitem
    have hword : (fread fp 4 1).data = content.take 4 := by rw [fread_data, hunread]
    by_cases hlegacy : content.length = 4
    · simp only [if_pos hlegacy]
      rw [if_neg (by omega)] at hitem
      refine Tried.full (by decide) (by decide) hitem rfl fun hcount => ?_
      simp only [hcount]
      rw [hword, List.take_of_length_le (Nat.le_of_eq hlegacy)]
      exact Tried.done _ _
    simp only [if_neg hlegacy]
    by_cases hsparse : content.length = 4 * 2
    · simp only [if_pos hsparse]
      rw [if_neg (by omega)] at hitem
      have hrest : (fread fp 4 1).fp.unread = content.drop 4 := by rw [fread_unread, hunread]
      have hitem' := (fread_item (fread fp 4 1).fp 4 (by decide)).1
      rw [hrest, List.length_drop, if_neg (by omega)] at hitem'
      have hword' : (fread (fread fp 4 1).fp 4 1).data = content.drop 4 := by
        rw [fread_data, hrest, List.take_of_length_le (by simp [hsparse])]
      refine Tried.full (by decide) (by decide) hitem rfl fun hformat => ?_
      simp only [hformat]
      refine Tried.full (by decide) (by decide) hitem' rfl fun hcount => ?_
      simp only [hcount]
      rw [hword, hword']
      split
      · exact Tried.done _ _
      · exact Tried.done _ _
    · simp only [if_neg hsparse]
      exact Tried.done _ _
  · obtain ⟨size, f⟩ := getFileSizeOrFail f memSizeFp
    rintro (rfl : size = none)
    exact ⟨Faults.Ahead.refl _, rfl⟩

private theorem memoryImageInfoOrFail_infoOf (dir : Directory) (f : Faults) :
    Tried f (memoryImageInfoOrFail dir f) ((dir "mem_page_count.img").bind infoOf) (· = none) := by
  unfold memoryImageInfoOrFail
  refine (openImageRbOrFail_tried dir f "mem_page_count.img").andThen ?_ ?_
  · obtain ⟨memSizeFp, f⟩ := openImageRbOrFail dir f "mem_page_count.img"
    rintro (rfl : memSizeFp = (dir "mem_page_count.img").map Reader.ofFile)
    cases dir "mem_page_count.img" with
    | none => exact Tried.done _ _
    | some b => exact inspectMemoryImageOrFail_tried f (Reader.ofFile b)
  · obtain ⟨memSizeFp, f⟩ := openImageRbOrFail dir f "mem_page_count.img"
    rintro (rfl : memSizeFp = none)
    exact ⟨Faults.Ahead.refl _, rfl⟩

theorem memoryImageInfo_eq (dir : Directory) : memoryImageInfo dir = (dir "mem_page_count.img").bind infoOf :=
  (memoryImageInfoOrFail_infoOf dir .never).never

theorem memoryImageInfoOrFail_tried (dir : Directory) (f : Faults) :
    Tried f (memoryImageInfoOrFail dir f) (memoryImageInfo dir) (· = none) := by
  rw [memoryImageInfo_eq]
  exact memoryImageInfoOrFail_infoOf dir f

theorem memoryImageInfo_iff (dir : Directory) (info : WasmigMemoryImageInfo) :
    memoryImageInfo dir = some info ↔
      info.Known ∧ dir "mem_page_count.img" = some (metadata info) := by
  rw [memoryImageInfo_eq]
  cases dir "mem_page_count.img" with
  | none => simp
  | some b =>
    simp only [Option.bind_some, Option.some.injEq]
    exact infoOf_iff b info

/-! ### Images -/

/-- A record of format V1 in an image of `cap` chunks: a chunk index and its chunk. -/
def recordCodec (cap : Nat) : ExactCodec (UInt32 × Bytes) :=
  (ExactCodec.word.restrict fun i => decide (i.toNat < cap)).seq fun _ =>
    ExactCodec.block kMemoryChunkSize.toNat

/-- An extent of format V2 in an image of `cap` chunks: a first index and a count, and
that many chunks. -/
def extentCodec (cap : Nat) : ExactCodec ((UInt32 × UInt32) × Bytes) :=
  ((ExactCodec.word.seq fun _ => ExactCodec.word).restrict fun e =>
    decide (e.2 ≠ 0 ∧ e.1.toNat + e.2.toNat ≤ cap)).seq fun e =>
      ExactCodec.block (e.2.toNat * kMemoryChunkSize.toNat)

/-- The bytes of a record, whatever the size of the image. -/
def recordBytes (r : UInt32 × Bytes) : Bytes := le32 r.1 ++ r.2

/-- The bytes of an extent. -/
def extentBytes (e : (UInt32 × UInt32) × Bytes) : Bytes := le32 e.1.1 ++ le32 e.1.2 ++ e.2

theorem recordCodec_encode (cap : Nat) : (recordCodec cap).encode = recordBytes := rfl

theorem extentCodec_encode (cap : Nat) : (extentCodec cap).encode = extentBytes := rfl

theorem recordCodec_consumes (cap : Nat) : (recordCodec cap).Consumes :=
  ExactCodec.seq_consumes (ExactCodec.restrict_consumes ExactCodec.word_consumes _) _

theorem extentCodec_consumes (cap : Nat) : (extentCodec cap).Consumes :=
  ExactCodec.seq_consumes (ExactCodec.restrict_consumes
    (ExactCodec.seq_consumes ExactCodec.word_consumes _) _) _

/-- The chunks an image of this many pages is made of. -/
def WasmigMemoryImageInfo.chunkCapacity (info : WasmigMemoryImageInfo) : Nat :=
  info.pageCount.toNat * wasmPageSize / info.chunkSize.toNat

theorem chunkCapacity_eq (info : WasmigMemoryImageInfo) :
    info.chunkCapacity = info.pageCount.toNat * 16 := by
  rw [WasmigMemoryImageInfo.chunkCapacity, info.chunkSize_eq, kMemoryChunkSize_toNat, wasmPageSize]
  omega

theorem recordCodec_valid (info : WasmigMemoryImageInfo) (r : UInt32 × Bytes) :
    (recordCodec info.chunkCapacity).Valid r ↔
      r.1.toNat < info.pageCount.toNat * 16 ∧ r.2.length = 4096 := by
  rw [chunkCapacity_eq]
  show (True ∧ decide _ = true) ∧ _ ↔ _
  rw [true_and, decide_eq_true_eq]
  rfl

theorem extentCodec_valid (info : WasmigMemoryImageInfo) (e : (UInt32 × UInt32) × Bytes) :
    (extentCodec info.chunkCapacity).Valid e ↔
      e.1.2 ≠ 0 ∧ e.1.1.toNat + e.1.2.toNat ≤ info.pageCount.toNat * 16 ∧
        e.2.length = e.1.2.toNat * 4096 := by
  rw [chunkCapacity_eq, ← and_assoc]
  show ((True ∧ True) ∧ decide _ = true) ∧ _ ↔ _
  rw [true_and, true_and, decide_eq_true_eq]
  rfl

/-- One call of a visitor: the offset, the buffer, the length. -/
structure Visit where
  offset : UInt32
  data : Bytes
  len : UInt32
deriving DecidableEq

/-- What a reader does with an image: the visits it makes as long as the visitor
returns 0, and whether it returns 0 after them. -/
structure Transcript where
  visits : List Visit
  accepted : Bool

/-- The visit made for a record. -/
def recordVisit (r : UInt32 × Bytes) : Visit := ⟨r.1 * kMemoryChunkSize, r.2, kMemoryChunkSize⟩

/-- The visit made for an extent. -/
def extentVisit (e : (UInt32 × UInt32) × Bytes) : Visit :=
  ⟨e.1.1 * kMemoryChunkSize, e.2, UInt32.ofNat (e.1.2.toNat * kMemoryChunkSize.toNat)⟩

/-- The visit made for the chunk `k` of a legacy image. -/
def denseVisit (image : Bytes) (k : Nat) : Visit :=
  ⟨UInt32.ofNat (k * kMemoryChunkSize.toNat),
    (image.drop (k * kMemoryChunkSize.toNat)).take kMemoryChunkSize.toNat, kMemoryChunkSize⟩

/-- A sparse image is read as far as its records go. The reader takes an index it
cannot read for the end of the file, so up to three bytes after them are accepted. -/
def sparseTranscript {α : Type} {c : Codec α} (hc : c.Consumes) (visit : α → Visit)
    (image : Bytes) : Transcript :=
  ⟨(c.scan hc image).1.map visit, decide ((c.scan hc image).2.length < 4)⟩

/-- A legacy image is read if it has the right size. -/
def denseTranscript (pageCount : Nat) (image : Bytes) : Transcript :=
  if image.length = pageCount * wasmPageSize then ⟨(List.range (pageCount * 16)).map (denseVisit image), true⟩
  else ⟨[], false⟩

def imageTranscript (info : WasmigMemoryImageInfo) (image : Bytes) : Transcript :=
  if info.sparseFormat = false then denseTranscript info.pageCount.toNat image
  else if info.format = kSparseMemoryFormatV1 then
    sparseTranscript (recordCodec_consumes info.chunkCapacity) recordVisit image
  else sparseTranscript (extentCodec_consumes info.chunkCapacity) extentVisit image

/-- What is read from a directory; nothing is, when a file is missing or the metadata
is not valid. -/
def directoryTranscript (dir : Directory) : Transcript :=
  match dir "memory.img", memoryImageInfo dir with
  | some image, some info => imageTranscript info image
  | _, _ => ⟨[], false⟩

theorem recordCodec_decode (cap : Nat) (b : Bytes) :
    (recordCodec cap).decode b =
      if b.length < 4 then none
      else if (word32 (b.take 4)).toNat ≥ cap then none
      else if (b.drop 4).length < kMemoryChunkSize.toNat then none
      else some ((word32 (b.take 4), (b.drop 4).take kMemoryChunkSize.toNat),
        (b.drop 4).drop kMemoryChunkSize.toNat) := by
  simp only [recordCodec, ExactCodec.seq, ExactCodec.restrict, ExactCodec.word, ExactCodec.block]
  by_cases h4 : b.length < 4
  · simp only [if_pos h4, Option.filter_none]
  simp only [if_neg h4]
  by_cases hcap : (word32 (b.take 4)).toNat < cap
  · rw [if_neg (by omega), Option.filter_some, if_pos (decide_eq_true hcap)]
    dsimp only
    split
    · rfl
    · rfl
  · rw [if_pos (by omega), Option.filter_some, if_neg (by simp only [hcap]; decide)]

theorem extentCodec_decode (cap : Nat) (b : Bytes) :
    (extentCodec cap).decode b =
      let start := word32 (b.take 4)
      let count := word32 ((b.drop 4).take 4)
      let rest := (b.drop 4).drop 4
      if b.length < 4 then none
      else if (b.drop 4).length < 4 then none
      else if count = 0 ∨ start.toNat + count.toNat > cap then none
      else if rest.length < count.toNat * kMemoryChunkSize.toNat then none
      else some (((start, count), rest.take (count.toNat * kMemoryChunkSize.toNat)),
        rest.drop (count.toNat * kMemoryChunkSize.toNat)) := by
  simp only [extentCodec, ExactCodec.seq, ExactCodec.restrict, ExactCodec.word, ExactCodec.block]
  by_cases h4 : b.length < 4
  · simp only [if_pos h4, Option.filter_none]
  simp only [if_neg h4]
  by_cases h8 : (b.drop 4).length < 4
  · simp only [if_pos h8, Option.map_none, Option.filter_none]
  rw [if_neg h8, if_neg h8, Option.map_some, Option.filter_some]
  by_cases hbad : word32 ((b.drop 4).take 4) = 0 ∨
      (word32 (b.take 4)).toNat + (word32 ((b.drop 4).take 4)).toNat > cap
  · have hgood : ¬ (word32 ((b.drop 4).take 4) ≠ 0 ∧
        (word32 (b.take 4)).toNat + (word32 ((b.drop 4).take 4)).toNat ≤ cap) := by
      intro h
      obtain ⟨h0, hle⟩ := h
      rcases hbad with h | h
      · exact h0 h
      · omega
    rw [if_pos hbad, if_neg (by simp only [hgood]; decide)]
  · have hgood : word32 ((b.drop 4).take 4) ≠ 0 ∧
        (word32 (b.take 4)).toNat + (word32 ((b.drop 4).take 4)).toNat ≤ cap := by
      obtain ⟨h0, hle⟩ := not_or.mp hbad
      exact ⟨h0, by omega⟩
    rw [if_neg hbad, if_pos (decide_eq_true hgood)]
    dsimp only
    split
    · rfl
    · rfl

theorem mulOverflow_pages (pageCount : UInt32) :
    mulOverflow wasmPageSize pageCount.toNat = some (pageCount.toNat * wasmPageSize) := by
  have h := pageCount.toNat_lt
  rw [mulOverflow, if_pos (by rw [wasmPageSize]; omega), Nat.mul_comm]

/-! ### Complete images -/

/-- A directory with these two images. -/
def images (info image : Bytes) : Directory := fun name =>
  if name = "mem_page_count.img" then some info else if name = "memory.img" then some image else none

@[simp] theorem images_info (info image : Bytes) : images info image "mem_page_count.img" = some info := rfl

@[simp] theorem images_image (info image : Bytes) : images info image "memory.img" = some image := rfl

/-- The info read back from sparse metadata in a format. -/
def sparseInfo (format pageCount : UInt32) : WasmigMemoryImageInfo :=
  ⟨format, pageCount, kMemoryChunkSize, true, rfl⟩

theorem directoryTranscript_of {dir : Directory} {image : Bytes} {info : WasmigMemoryImageInfo}
    (himage : dir "memory.img" = some image) (hinfo : memoryImageInfo dir = some info) :
    directoryTranscript dir = imageTranscript info image := by
  unfold directoryTranscript
  rw [himage, hinfo]

/-- An image of complete records and the beginning of another is read as the complete ones. -/
theorem directoryTranscript_cut {dir : Directory} {tail : Bytes} {pageCount : UInt32}
    {records : List (UInt32 × Bytes)} (himage : dir "memory.img" = some (records.flatMap recordBytes ++ tail))
    (hinfo : memoryImageInfo dir = some (sparseInfo kSparseMemoryFormatV1 pageCount))
    (hvalid : ∀ r ∈ records, r.1.toNat < pageCount.toNat * 16 ∧ r.2.length = 4096) (htail : tail.length < 4100) :
    directoryTranscript dir = ⟨records.map recordVisit, decide (tail.length < 4)⟩ := by
  have hshort : (recordCodec (sparseInfo kSparseMemoryFormatV1 pageCount).chunkCapacity).decode tail = none := by
    have hbody : (tail.drop 4).length < kMemoryChunkSize.toNat ∨ tail.length < 4 := by
      rw [List.length_drop, kMemoryChunkSize_toNat]
      omega
    rw [recordCodec_decode]
    split
    · rfl
    · rename_i h4
      rw [if_pos (hbody.resolve_right h4), ite_self]
  have hscan := Codec.scan_encode
    (recordCodec_consumes (sparseInfo kSparseMemoryFormatV1 pageCount).chunkCapacity) records tail
    (fun r hr => (recordCodec_valid (sparseInfo kSparseMemoryFormatV1 pageCount) r).mpr (hvalid r hr)) hshort
  rw [recordCodec_encode] at hscan
  have hsparse : ¬ (sparseInfo kSparseMemoryFormatV1 pageCount).sparseFormat = false := Bool.noConfusion
  have hformat : (sparseInfo kSparseMemoryFormatV1 pageCount).format = kSparseMemoryFormatV1 := rfl
  rw [directoryTranscript_of himage hinfo, imageTranscript, if_neg hsparse, if_pos hformat,
    sparseTranscript, hscan]

/-- An image of complete records is read as those. -/
theorem directoryTranscript_records {dir : Directory} {pageCount : UInt32} {records : List (UInt32 × Bytes)}
    (himage : dir "memory.img" = some (records.flatMap recordBytes))
    (hinfo : memoryImageInfo dir = some (sparseInfo kSparseMemoryFormatV1 pageCount))
    (hvalid : ∀ r ∈ records, r.1.toNat < pageCount.toNat * 16 ∧ r.2.length = 4096) :
    directoryTranscript dir = ⟨records.map recordVisit, true⟩ := by
  rw [← List.append_nil (records.flatMap recordBytes)] at himage
  exact directoryTranscript_cut himage hinfo hvalid (by decide)

/-- An image of complete extents is read as those. -/
theorem directoryTranscript_extents {dir : Directory} {pageCount : UInt32}
    {extents : List ((UInt32 × UInt32) × Bytes)}
    (himage : dir "memory.img" = some (extents.flatMap extentBytes))
    (hinfo : memoryImageInfo dir = some (sparseInfo kSparseMemoryFormatV2 pageCount))
    (hvalid : ∀ e ∈ extents, e.1.2 ≠ 0 ∧ e.1.1.toNat + e.1.2.toNat ≤ pageCount.toNat * 16 ∧
      e.2.length = e.1.2.toNat * 4096) :
    directoryTranscript dir = ⟨extents.map extentVisit, true⟩ := by
  have hscan := Codec.scan_encode
    (extentCodec_consumes (sparseInfo kSparseMemoryFormatV2 pageCount).chunkCapacity) extents []
    (fun e he => (extentCodec_valid (sparseInfo kSparseMemoryFormatV2 pageCount) e).mpr (hvalid e he))
    (by rw [extentCodec_decode]; rfl)
  rw [List.append_nil, extentCodec_encode] at hscan
  have hsparse : ¬ (sparseInfo kSparseMemoryFormatV2 pageCount).sparseFormat = false := Bool.noConfusion
  have hformat : (sparseInfo kSparseMemoryFormatV2 pageCount).format ≠ kSparseMemoryFormatV1 := by
    show kSparseMemoryFormatV2 ≠ kSparseMemoryFormatV1
    decide
  rw [directoryTranscript_of himage hinfo, imageTranscript, if_neg hsparse, if_neg hformat,
    sparseTranscript, hscan]
  rfl

end Wasmig
