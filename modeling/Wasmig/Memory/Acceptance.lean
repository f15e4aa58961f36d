import Wasmig.Memory.Readers

/-! Which images `wasmig_visit_memory_chunks` accepts.

A well-formed image is, in full, what its metadata says: the declared bytes of a legacy
image, or complete records of a sparse one. The reader takes any index it cannot read
for the end of the file, so it also accepts a sparse image that stops one to three bytes
into an index: `visitMemoryChunks_accepts_iff` says that these are the only others. -/
namespace Wasmig
open Base Base.Stdio

/-- `image` is a run of complete records of the format of `info` in the chunks it
declares, and then `tail`. -/
def RecordsThen (info : WasmigMemoryImageInfo) (image tail : Bytes) : Prop :=
  if info.format = kSparseMemoryFormatV1 then
    ∃ records : List (UInt32 × Bytes),
      (∀ r ∈ records, r.1.toNat < info.pageCount.toNat * 16 ∧ r.2.length = 4096) ∧
      image = records.flatMap recordBytes ++ tail
  else
    ∃ extents : List ((UInt32 × UInt32) × Bytes),
      (∀ e ∈ extents, e.1.2 ≠ 0 ∧ e.1.1.toNat + e.1.2.toNat ≤ info.pageCount.toNat * 16 ∧
        e.2.length = e.1.2.toNat * 4096) ∧
      image = extents.flatMap extentBytes ++ tail

/-- `image` is, in full, an image for the metadata `info`. -/
def WellFormedImage (info : WasmigMemoryImageInfo) (image : Bytes) : Prop :=
  if info.sparseFormat = false then image.length = info.pageCount.toNat * wasmPageSize
  else RecordsThen info image []

/-- Valid metadata and a well-formed image for it. -/
def WellFormedImages (dir : Directory) : Prop :=
  ∃ info image, info.Known ∧ dir "mem_page_count.img" = some (metadata info) ∧
    dir "memory.img" = some image ∧ WellFormedImage info image

/-- Valid sparse metadata and an image cut inside the index of a record: complete
records, and then one to three bytes. -/
def CutInsideIndex (dir : Directory) : Prop :=
  ∃ info image tail, info.Known ∧ info.sparseFormat = true ∧
    dir "mem_page_count.img" = some (metadata info) ∧ dir "memory.img" = some image ∧
    RecordsThen info image tail ∧ 0 < tail.length ∧ tail.length < 4

/-! ### What is left of a sparse image -/

/-- What is left of a sparse image of `cap` chunks after the records that can be read. -/
def sparseTail (format : UInt32) (cap : Nat) (image : Bytes) : Bytes :=
  if format = kSparseMemoryFormatV1 then ((recordCodec cap).scan (recordCodec_consumes cap) image).2
  else ((extentCodec cap).scan (extentCodec_consumes cap) image).2

theorem recordCodec_short {cap : Nat} {tail : Bytes} (h : tail.length < 4) :
    (recordCodec cap).decode tail = none := by rw [recordCodec_decode, if_pos h]

theorem extentCodec_short {cap : Nat} {tail : Bytes} (h : tail.length < 4) :
    (extentCodec cap).decode tail = none := by
  rw [extentCodec_decode]
  exact if_pos h

/-- An image is its records and its tail. -/
theorem recordsThen_sparseTail (info : WasmigMemoryImageInfo) (image : Bytes) :
    RecordsThen info image (sparseTail info.format info.chunkCapacity image) := by
  unfold RecordsThen sparseTail
  by_cases hformat : info.format = kSparseMemoryFormatV1
  · rw [if_pos hformat, if_pos hformat]
    obtain ⟨hsplit, hvalid⟩ :=
      (recordCodec info.chunkCapacity).scan_exact (recordCodec_consumes _) image
    exact ⟨_, fun r hr => (recordCodec_valid info r).mp (hvalid r hr), hsplit⟩
  · rw [if_neg hformat, if_neg hformat]
    obtain ⟨hsplit, hvalid⟩ :=
      (extentCodec info.chunkCapacity).scan_exact (extentCodec_consumes _) image
    exact ⟨_, fun e he => (extentCodec_valid info e).mp (hvalid e he), hsplit⟩

/-- A tail too short for an index is the one the reader stops at. -/
theorem recordsThen_iff {info : WasmigMemoryImageInfo} {image tail : Bytes} (hshort : tail.length < 4) :
    RecordsThen info image tail ↔ sparseTail info.format info.chunkCapacity image = tail := by
  constructor
  · unfold RecordsThen sparseTail
    by_cases hformat : info.format = kSparseMemoryFormatV1
    · rw [if_pos hformat, if_pos hformat]
      rintro ⟨records, hvalid, rfl⟩
      exact congrArg Prod.snd (Codec.scan_encode (c := (recordCodec info.chunkCapacity).toCodec) _ records tail
        (fun r hr => (recordCodec_valid info r).mpr (hvalid r hr)) (recordCodec_short hshort))
    · rw [if_neg hformat, if_neg hformat]
      rintro ⟨extents, hvalid, rfl⟩
      exact congrArg Prod.snd (Codec.scan_encode (c := (extentCodec info.chunkCapacity).toCodec) _ extents tail
        (fun e he => (extentCodec_valid info e).mpr (hvalid e he)) (extentCodec_short hshort))
  · rintro rfl
    exact recordsThen_sparseTail info image

/-! ### Acceptance -/

theorem imageTranscript_accepted (info : WasmigMemoryImageInfo) (image : Bytes) :
    (imageTranscript info image).accepted = true ↔
      if info.sparseFormat = false then image.length = info.pageCount.toNat * wasmPageSize
      else (sparseTail info.format info.chunkCapacity image).length < 4 := by
  unfold imageTranscript sparseTail
  by_cases hs : info.sparseFormat = false
  · rw [if_pos hs, if_pos hs, denseTranscript]
    split
    · exact iff_of_true rfl ‹_›
    · exact iff_of_false Bool.false_ne_true ‹_›
  rw [if_neg hs, if_neg hs]
  by_cases hformat : info.format = kSparseMemoryFormatV1
  · rw [if_pos hformat, if_pos hformat]
    exact decide_eq_true_iff
  · rw [if_neg hformat, if_neg hformat]
    exact decide_eq_true_iff

theorem directoryTranscript_accepted (dir : Directory) :
    (directoryTranscript dir).accepted = true ↔
      ∃ info image, info.Known ∧ dir "mem_page_count.img" = some (metadata info) ∧
        dir "memory.img" = some image ∧ (imageTranscript info image).accepted = true := by
  unfold directoryTranscript
  constructor
  · intro h
    split at h
    · rename_i image info himage hinfo
      obtain ⟨hknown, hmeta⟩ := (memoryImageInfo_iff dir info).mp hinfo
      exact ⟨info, image, hknown, hmeta, himage, h⟩
    · cases h
  · intro h
    obtain ⟨info, image, hknown, hmeta, himage, h⟩ := h
    rw [himage, (memoryImageInfo_iff dir info).mpr ⟨hknown, hmeta⟩]
    exact h

/-- With a visitor that never fails, the code is the verdict of the transcript. -/
theorem run_willing {σ : Type} {visitor : Visitor σ} (hv : ∀ offset data len s, (visitor offset data len s).1 = 0)
    (t : Transcript) (s : σ) : (t.run visitor s).1 = 0 ↔ t.accepted = true := by
  obtain ⟨visits, accepted⟩ := t
  induction visits generalizing s with
  | nil =>
    rw [run_nil]
    cases accepted with
    | true => exact iff_of_true rfl rfl
    | false => exact iff_of_false (show ¬ (-1 : Int) = 0 by decide) Bool.false_ne_true
  | cons v visits ih =>
    rw [run_cons, if_neg (not_not_intro (hv ..))]
    exact ih _

/-- Reading with a visitor that never fails returns 0 exactly for the well-formed
images, unless the image is cut inside an index: that one is accepted. -/
theorem visitMemoryChunks_accepts_iff {σ : Type} (visitor : Visitor σ)
    (hv : ∀ offset data len s, (visitor offset data len s).1 = 0) (dir : Directory) (s : σ) :
    ((visitMemoryChunks dir visitor s).1 = 0 ↔ WellFormedImages dir) ↔ ¬ CutInsideIndex dir := by
  rw [visitMemoryChunks_eq, run_willing hv, directoryTranscript_accepted]
  constructor
  · intro h h₁
    obtain ⟨info, image, tail, hknown, hsparse, hmeta, himage, hrecords, hpos, hshort⟩ := h₁
    have hs : ¬ info.sparseFormat = false := by rw [hsparse]; decide
    have htail := (recordsThen_iff hshort).mp hrecords
    have haccepted : (imageTranscript info image).accepted = true := by
      rw [imageTranscript_accepted, if_neg hs, htail]
      exact hshort
    obtain ⟨info', image', hknown', hmeta', himage', hwell⟩ :=
      h.mp ⟨info, image, hknown, hmeta, himage, haccepted⟩
    have hinfo : info' = info := Option.some.inj
      (((memoryImageInfo_iff dir info').mpr ⟨hknown', hmeta'⟩).symm.trans
        ((memoryImageInfo_iff dir info).mpr ⟨hknown, hmeta⟩))
    rw [himage] at himage'
    cases himage'
    subst hinfo
    unfold WellFormedImage at hwell
    rw [if_neg hs, recordsThen_iff (by decide), htail] at hwell
    rw [hwell] at hpos
    exact Nat.lt_irrefl 0 hpos
  · intro hcut
    constructor
    · intro h
      obtain ⟨info, image, hknown, hmeta, himage, haccepted⟩ := h
      refine ⟨info, image, hknown, hmeta, himage, ?_⟩
      rw [imageTranscript_accepted] at haccepted
      unfold WellFormedImage
      by_cases hs : info.sparseFormat = false
      · rw [if_pos hs] at haccepted ⊢
        exact haccepted
      rw [if_neg hs] at haccepted ⊢
      rw [recordsThen_iff (by decide)]
      refine List.eq_nil_iff_length_eq_zero.mpr (Nat.eq_zero_of_not_pos fun hpos => hcut ?_)
      exact ⟨info, image, _, hknown, eq_true_of_ne_false hs, hmeta, himage,
        recordsThen_sparseTail info image, hpos, haccepted⟩
    · intro h
      obtain ⟨info, image, hknown, hmeta, himage, hwell⟩ := h
      refine ⟨info, image, hknown, hmeta, himage, ?_⟩
      rw [imageTranscript_accepted]
      unfold WellFormedImage at hwell
      by_cases hs : info.sparseFormat = false
      · rw [if_pos hs] at hwell ⊢
        exact hwell
      · rw [if_neg hs] at hwell ⊢
        rw [(recordsThen_iff (by decide)).mp hwell]
        decide

/-- The metadata of one sparse page, and an image of two bytes. -/
def cutImages : Directory := images (le32 kSparseMemoryFormatV1 ++ le32 1) [0, 0]

theorem visitMemoryChunks_accepts_iff_willing :
    ((visitMemoryChunks cutImages (fun _ _ _ n => (0, n + 1)) 0).1 = 0 ↔ WellFormedImages cutImages) ↔
      ¬ CutInsideIndex cutImages :=
  visitMemoryChunks_accepts_iff (fun _ _ _ n => (0, n + 1)) (fun _ _ _ _ => rfl) cutImages 0

private theorem cutImages_info {info : WasmigMemoryImageInfo} (hknown : info.Known)
    (h : cutImages "mem_page_count.img" = some (metadata info)) :
    info = ⟨kSparseMemoryFormatV1, 1, kMemoryChunkSize, true, rfl⟩ :=
  Option.some.inj (((memoryImageInfo_iff cutImages info).mpr ⟨hknown, h⟩).symm.trans
    ((memoryImageInfo_iff cutImages _).mpr ⟨Or.inl rfl, rfl⟩))

/-- The image of two bytes, half an index, is accepted and is not well-formed. -/
theorem visitMemoryChunks_accepts_cut_image :
    ¬ ((visitMemoryChunks cutImages (fun _ _ _ n => (0, n + 1)) 0).1 = 0 ↔ WellFormedImages cutImages) := by
  have htail : ∀ info : WasmigMemoryImageInfo, RecordsThen info [0, 0] [0, 0] := fun info => by
    unfold RecordsThen
    split
    · exact ⟨[], fun _ h => (by cases h), rfl⟩
    · exact ⟨[], fun _ h => (by cases h), rfl⟩
  intro h
  have haccepted : (visitMemoryChunks cutImages (fun _ _ _ n => (0, n + 1)) 0).1 = 0 := by
    rw [visitMemoryChunks_eq, run_willing (fun _ _ _ _ => rfl), directoryTranscript_accepted]
    refine ⟨⟨kSparseMemoryFormatV1, 1, kMemoryChunkSize, true, rfl⟩, [0, 0], Or.inl rfl, rfl, rfl, ?_⟩
    rw [imageTranscript_accepted, if_neg (by decide), (recordsThen_iff (by decide)).mp (htail _)]
    decide
  obtain ⟨info, image, hknown, hmeta, himage, hwell⟩ := h.mp haccepted
  cases cutImages_info hknown hmeta
  have himage' : image = [0, 0] := (Option.some.inj himage).symm
  unfold WellFormedImage at hwell
  rw [if_neg (by decide), himage', recordsThen_iff (by decide),
    (recordsThen_iff (by decide)).mp (htail _)] at hwell
  cases hwell

end Wasmig
