import Wasmig.Memory.RoundTrip

/-! Restoring after a checkpoint that failed.

A failed checkpoint is safe when a later restore into zeros fails, or gives what the
earlier images gave, or the memory that was to be written. All failures are safe but
one: `memory.img` is opened, and so emptied, before `mem_page_count.img` is, and when
the second cannot be opened the old metadata stays beside an empty image, which a
restore reads as a memory of zeros (`LosesMemory`). `checkpointMemory_safe_iff` says
that this is the only way. -/
namespace Wasmig
open Base Base.Stdio

/-! ### What the images say -/

/-- The images are accepted, and the memory they describe is zero everywhere. -/
structure Blank (dir : Directory) : Prop where
  accepted : (directoryTranscript dir).accepted = true
  zero : ∀ i, Memory.writeAll (fun _ => 0) ((directoryTranscript dir).visits.map (Visit.write 0)) i = 0

/-- What is written to a buffer does not depend on where the buffer is, nor on the
bytes before at any other place. -/
theorem writeAll_visits (visits : List Visit) (dst i : Nat) (base base' : Memory)
    (h : base (dst + i) = base' i) :
    base.writeAll (visits.map (Visit.write dst)) (dst + i) = base'.writeAll (visits.map (Visit.write 0)) i := by
  induction visits generalizing base base' with
  | nil => exact h
  | cons v visits ih =>
    apply ih
    simp only [Visit.write, Memory.write, h, Nat.zero_add]
    refine if_congr (by omega) ?_ rfl
    congr 1
    omega

/-- A directory whose images are those before with `memory.img` emptied. -/
structure Emptied (dir dir' : Directory) : Prop where
  image : dir' "memory.img" = some []
  info : dir' "mem_page_count.img" = dir "mem_page_count.img"

theorem Emptied.memoryImageInfo {dir dir' : Directory} (h : Emptied dir dir') :
    memoryImageInfo dir' = memoryImageInfo dir := by
  rw [memoryImageInfo_eq, memoryImageInfo_eq, h.info]

/-- An empty image is accepted as zeros if it is sparse, or a legacy one of no pages. -/
theorem imageTranscript_nil (info : WasmigMemoryImageInfo) :
    imageTranscript info [] =
      ⟨[], decide (info.sparseFormat = true ∨ info.pageCount.toNat = 0)⟩ := by
  unfold imageTranscript
  by_cases hs : info.sparseFormat = false
  · have hsize : (([] : Bytes).length = info.pageCount.toNat * wasmPageSize) ↔ info.pageCount.toNat = 0 := by
      rw [wasmPageSize, List.length_nil]
      omega
    rw [if_pos hs, denseTranscript, hs]
    simp only [hsize, Bool.false_eq_true, false_or]
    by_cases h0 : info.pageCount.toNat = 0
    · rw [if_pos h0, h0]
      rfl
    · rw [if_neg h0, decide_eq_false h0]
  · have ht : info.sparseFormat = true := eq_true_of_ne_false hs
    rw [if_neg hs, ht, decide_eq_true (Or.inl rfl)]
    split
    · rw [sparseTranscript, Codec.scan_none _ (by rw [recordCodec_decode]; rfl)]
      rfl
    · rw [sparseTranscript, Codec.scan_none _ (by rw [extentCodec_decode]; rfl)]
      rfl

/-! ### Safe failures -/

/-- The bytes of a destination are those of a memory of these pages, and zero after
them. -/
structure HoldsMemory (after : Ram) (dst dstSize : Nat) (memory : Memory) (pages : Nat) : Prop where
  fits : pages * 65536 ≤ dstSize
  inside : ∀ i, i < pages * 65536 → after.bytes (dst + i) = memory i
  outside : ∀ i, pages * 65536 ≤ i → i < dstSize → after.bytes (dst + i) = 0

/-- After a failed checkpoint, a restore into zeros fails, or leaves what it would have
restored before, or the new memory. -/
def FailsSafely (cwd : String) (memory : Memory) (curPage : UInt32) (w : World Path) : Prop :=
  (checkpointMemory cwd memory curPage w).1 = -1 →
  ∀ dst dstSize ram, (dst = 0 → dstSize = 0) → (∀ i, i < dstSize → ram.bytes (dst + i) = 0) →
    let earlier := restoreMemoryInto (directory w cwd) dst dstSize ram
    let later := restoreMemoryInto (directory (checkpointMemory cwd memory curPage w).2 cwd) dst dstSize ram
    later.1 = -1 ∨
    (earlier.1 = 0 ∧ ∀ i, i < dstSize → later.2.bytes (dst + i) = earlier.2.bytes (dst + i)) ∨
    HoldsMemory later.2 dst dstSize memory curPage.toNat

/-- The one unsafe failure: `memory.img` is opened and `mem_page_count.img` is not, the
metadata that stays accepts an empty image, and neither the earlier images nor the new
memory were zeros. -/
structure LosesMemory (cwd : String) (memory : Memory) (curPage : UInt32) (w : World Path) : Prop where
  memOpened : w.fault w.calls = none
  sizeNotOpened : w.fault (w.calls + 1) ≠ none
  accepting : ∃ info : WasmigMemoryImageInfo, info.Known ∧
    w.files (pageCountPath cwd) = some (metadata info) ∧
    (info.sparseFormat = true ∨ info.pageCount.toNat = 0) ∧
    ¬ (curPage.toNat ≤ info.pageCount.toNat ∧ ∀ i, i < curPage.toNat * 65536 → memory i = 0)
  notBlank : ¬ Blank (directory w cwd)

section Failed
variable {cwd : String} {memory : Memory} {curPage : UInt32} {w : World Path}

/-- Without valid metadata nothing is restored. -/
theorem restoreMemoryInto_invalid {dir : Directory} (h : memoryImageInfo dir = none) (dst dstSize : Nat)
    (ram : Ram) : (restoreMemoryInto dir dst dstSize ram).1 = -1 := by
  rw [restoreMemoryInto_refused fun info hready => by rw [hready.valid] at h; cases h]

/-- Nor from images that are not accepted. -/
theorem restoreMemoryInto_rejected {dir : Directory} (h : (directoryTranscript dir).accepted = false)
    (dst dstSize : Nat) (ram : Ram) : (restoreMemoryInto dir dst dstSize ram).1 = -1 := by
  by_cases hready : ∃ info, Ready dir dst dstSize info
  · obtain ⟨info, hready⟩ := hready
    rw [restoreMemoryInto_ready hready, h]
    rfl
  · rw [restoreMemoryInto_refused fun info h => hready ⟨info, h⟩]

theorem sparseImage_length_le (memory : Memory) (curPage : UInt32) :
    (sparseImage memory curPage).length ≤ 4100 * (curPage.toNat * 16) :=
  chunkRecords_length_le memory 0 _

/-- An incomplete metadata file of a checkpoint is not accepted beside its image: it is
too short, or it is the format marker alone, read as the page count of a legacy image
far larger than any that was written. -/
theorem incomplete_rejected (hpages : curPage.toNat ≤ 65536) {dir : Directory} {image info : Bytes}
    (himage : dir "memory.img" = some image) (hinfo : dir "mem_page_count.img" = some info)
    (himagePrefix : image <+: sparseImage memory curPage) (hinfoPrefix : info <+: sparseMetadata curPage)
    (hshort : info.length < 8) : (directoryTranscript dir).accepted = false := by
  cases hread : memoryImageInfo dir with
  | none =>
    unfold directoryTranscript
    rw [himage, hread]
  | some read =>
    obtain ⟨hknown, hmeta⟩ := (memoryImageInfo_iff dir read).mp hread
    have hbytes : info = metadata read := Option.some.inj (hinfo.symm.trans hmeta)
    have hdense : read.sparseFormat = false := by
      by_contra hs
      rw [hbytes, metadata, if_pos (eq_true_of_ne_false hs), List.length_append, le32_length, le32_length] at hshort
      exact Nat.lt_irrefl 8 hshort
    have hword : metadata read = le32 read.pageCount := by
      rw [metadata, hdense]
      rfl
    -- Four bytes of the metadata are the marker.
    have hmarker : le32 read.pageCount = le32 kSparseMemoryFormatV1 := by
      obtain ⟨rest, hrest⟩ := hinfoPrefix
      rw [hbytes, hword] at hrest
      exact List.append_inj_left hrest (by simp)
    have hcount : read.pageCount.toNat = 0x4d534731 := by
      rw [le32_injective hmarker]
      rfl
    have hle := Nat.le_trans himagePrefix.length_le (sparseImage_length_le memory curPage)
    have hsize : ¬ image.length = read.pageCount.toNat * wasmPageSize := by
      rw [hcount, wasmPageSize]
      omega
    rw [directoryTranscript_of himage hread, imageTranscript, if_pos hdense, denseTranscript, if_neg hsize]

/-- Everything the failure can leave, short of the old metadata beside an empty image,
is safe. -/
theorem failsSafely_unless (hpages : curPage.toNat ≤ 65536)
    (h : ¬ (w.fault w.calls = none ∧ w.fault (w.calls + 1) ≠ none)) : FailsSafely cwd memory curPage w := by
  intro hcode dst dstSize ram _ _
  dsimp only
  obtain ⟨houtcome, -⟩ := checkpointMemory_outcome cwd memory curPage w
  generalize checkpointMemory cwd memory curPage w = r at houtcome hcode ⊢
  cases houtcome with
  | neitherOpened _ _ _ files =>
    have hsame : directory r.2 cwd = directory w cwd := by
      unfold directory
      rw [files]
    rw [hsame]
    by_cases hearlier : (restoreMemoryInto (directory w cwd) dst dstSize ram).1 = -1
    · exact Or.inl hearlier
    · refine Or.inr (Or.inl ⟨?_, fun _ _ => rfl⟩)
      by_cases hready : ∃ info, Ready (directory w cwd) dst dstSize info
      · obtain ⟨info, hready⟩ := hready
        rw [restoreMemoryInto_ready hready] at hearlier ⊢
        dsimp only at hearlier ⊢
        split
        · rfl
        · rename_i hrejected
          rw [if_neg hrejected] at hearlier
          exact absurd rfl hearlier
      · rw [restoreMemoryInto_refused fun info h => hready ⟨info, h⟩] at hearlier
        exact absurd rfl hearlier
  | sizeOpened _ _ _ _ info =>
    refine Or.inl (restoreMemoryInto_invalid ?_ dst dstSize ram)
    rw [memoryImageInfo_eq, directory, show r.2.files ⟨cwd, "mem_page_count.img"⟩ = some [] from info]
    rfl
  | memOpened hmem hsize => exact absurd ⟨hmem, hsize⟩ h
  | bothOpened _ _ image info imageFile infoFile imagePrefix infoPrefix _ short _ =>
    exact Or.inl (restoreMemoryInto_rejected
      (incomplete_rejected hpages imageFile infoFile imagePrefix infoPrefix (short hcode)) dst dstSize ram)

/-- What the failure leaves when only `memory.img` can be opened. -/
theorem memOpened_emptied (cwd : String) (memory : Memory) (curPage : UInt32)
    (hmem : w.fault w.calls = none) (hsize : w.fault (w.calls + 1) ≠ none) :
    (checkpointMemory cwd memory curPage w).1 = -1 ∧
      Emptied (directory w cwd) (directory (checkpointMemory cwd memory curPage w).2 cwd) := by
  obtain ⟨houtcome, -⟩ := checkpointMemory_outcome cwd memory curPage w
  cases houtcome with
  | neitherOpened hnot => exact absurd hmem hnot
  | sizeOpened hnot => exact absurd hmem hnot
  | memOpened _ _ failed image info => exact ⟨failed, image, info⟩
  | bothOpened _ hopened => exact absurd hopened hsize

/-- A restore from the emptied images that is not refused leaves the destination as it
was. -/
theorem Emptied.restored {dir dir' : Directory} (h : Emptied dir dir') {info : WasmigMemoryImageInfo}
    {dst dstSize : Nat} (hready : Ready dir dst dstSize info)
    (haccepting : info.sparseFormat = true ∨ info.pageCount.toNat = 0) (ram : Ram) :
    (restoreMemoryInto dir' dst dstSize ram).1 = 0 ∧
      (restoreMemoryInto dir' dst dstSize ram).2.bytes = ram.bytes := by
  have hvalid : Wasmig.memoryImageInfo dir' = some info := h.memoryImageInfo.trans hready.valid
  rw [restoreMemoryInto_ready ⟨hvalid, hready.destination, hready.large⟩,
    directoryTranscript_of h.image hvalid, imageTranscript_nil, decide_eq_true haccepting]
  exact ⟨rfl, rfl⟩

/-- Blank images restore zeros. -/
theorem Blank.restored {dir : Directory} (h : Blank dir) {info : WasmigMemoryImageInfo} {dst dstSize : Nat}
    (hready : Ready dir dst dstSize info) {ram : Ram} (hzero : ∀ i, i < dstSize → ram.bytes (dst + i) = 0) :
    (restoreMemoryInto dir dst dstSize ram).1 = 0 ∧
      ∀ i, i < dstSize → (restoreMemoryInto dir dst dstSize ram).2.bytes (dst + i) = 0 := by
  rw [restoreMemoryInto_ready hready, h.accepted]
  refine ⟨rfl, fun i hi => ?_⟩
  show ram.bytes.writeAll _ (dst + i) = 0
  rw [writeAll_visits _ dst i _ (fun _ => 0) (hzero i hi), h.zero]

/-- The emptied image is harmless unless the memory is lost. -/
theorem failsSafely_emptied (hmem : w.fault w.calls = none) (hsize : w.fault (w.calls + 1) ≠ none)
    (h : ¬ LosesMemory cwd memory curPage w) : FailsSafely cwd memory curPage w := by
  intro _ dst dstSize ram hdst hzero
  dsimp only
  obtain ⟨-, hemptied⟩ := memOpened_emptied cwd memory curPage hmem hsize
  by_cases hready : ∃ info, Ready (directory w cwd) dst dstSize info
  · obtain ⟨info, hready⟩ := hready
    by_cases haccepting : info.sparseFormat = true ∨ info.pageCount.toNat = 0
    · obtain ⟨hlater, hbytes⟩ := hemptied.restored hready haccepting ram
      refine Or.inr ?_
      by_cases hblank : Blank (directory w cwd)
      · obtain ⟨hearlier, hzeros⟩ := hblank.restored hready hzero
        refine Or.inl ⟨hearlier, fun i hi => ?_⟩
        rw [hbytes, hzeros i hi, hzero i hi]
      · -- The new memory was zeros that fit.
        obtain ⟨hknown, hmeta⟩ := (memoryImageInfo_iff _ _).mp hready.valid
        have hnew : curPage.toNat ≤ info.pageCount.toNat ∧ ∀ i, i < curPage.toNat * 65536 → memory i = 0 := by
          by_contra hnew
          exact h ⟨hmem, hsize, ⟨info, hknown, hmeta, haccepting, hnew⟩, hblank⟩
        have hlarge := hready.large
        rw [WasmigMemoryImageInfo.totalSize, wasmPageSize] at hlarge
        have hfits : curPage.toNat * 65536 ≤ dstSize :=
          Nat.le_trans (Nat.mul_le_mul_right 65536 hnew.1) hlarge
        refine Or.inr ⟨hfits, fun i hi => ?_, fun i _ hi => ?_⟩
        · rw [hbytes, hzero i (Nat.lt_of_lt_of_le hi hfits), hnew.2 i hi]
        · rw [hbytes, hzero i hi]
    · refine Or.inl (restoreMemoryInto_rejected ?_ dst dstSize ram)
      rw [directoryTranscript_of hemptied.image (hemptied.memoryImageInfo.trans hready.valid),
        imageTranscript_nil, decide_eq_false haccepting]
  · refine Or.inl ?_
    rw [restoreMemoryInto_refused fun info hready' => hready
      ⟨info, hemptied.memoryImageInfo.symm.trans hready'.valid, hready'.destination, hready'.large⟩]

/-- A lost memory shows in a destination of the size of the earlier one. -/
theorem LosesMemory.not_failsSafely (h : LosesMemory cwd memory curPage w) :
    ¬ FailsSafely cwd memory curPage w := by
  intro hsafe
  obtain ⟨info, hknown, hmeta, haccepting, hnew⟩ := h.accepting
  obtain ⟨hcode, hemptied⟩ := memOpened_emptied cwd memory curPage h.memOpened h.sizeNotOpened
  have hready : Ready (directory w cwd) 1 info.totalSize info :=
    ⟨(memoryImageInfo_iff _ _).mpr ⟨hknown, hmeta⟩, fun h => absurd h (by decide), Nat.le_refl _⟩
  obtain ⟨hlater, hbytes⟩ := hemptied.restored hready haccepting ⟨fun _ => 0, []⟩
  rcases hsafe hcode 1 info.totalSize ⟨fun _ => 0, []⟩ hready.destination (fun _ _ => rfl) with
    hfailed | ⟨hearlier, hsame⟩ | hmemory
  · rw [hlater] at hfailed
    cases hfailed
  · -- The earlier images restored zeros, so they were blank.
    rw [restoreMemoryInto_ready hready] at hearlier hsame
    have haccepted : (directoryTranscript (directory w cwd)).accepted = true := by
      by_contra hnot
      rw [if_neg hnot] at hearlier
      cases hearlier
    refine h.notBlank ⟨haccepted, fun i => ?_⟩
    by_cases hi : i < info.totalSize
    · specialize hsame i hi
      rw [hbytes] at hsame
      rw [← writeAll_visits _ 1 i (fun _ => 0) (fun _ => 0) rfl]
      exact hsame.symm
    · apply Memory.writeAll_outside
      intro write hwrite hcovers
      obtain ⟨v, hv, rfl⟩ := List.mem_map.mp hwrite
      have hinside := (directoryTranscript_within hready.valid v hv).inside
      have hstop : i < 0 + v.offset.toNat + (v.data.take v.len.toNat).length := hcovers.2
      have hlen : (v.data.take v.len.toNat).length ≤ v.len.toNat := List.length_take_le ..
      omega
  · have hfits := hmemory.fits
    rw [WasmigMemoryImageInfo.totalSize, wasmPageSize] at hfits
    refine hnew ⟨Nat.le_of_mul_le_mul_right hfits (by decide), fun i hi => ?_⟩
    rw [← hmemory.inside i hi, hbytes]

/-- A failed checkpoint of at most 65536 pages is safe exactly when it does not lose the
memory. -/
theorem checkpointMemory_safe_iff (hpages : curPage.toNat ≤ 65536) :
    FailsSafely cwd memory curPage w ↔ ¬ LosesMemory cwd memory curPage w := by
  constructor
  · exact fun hsafe h => h.not_failsSafely hsafe
  · intro h
    by_cases hopened : w.fault w.calls = none ∧ w.fault (w.calls + 1) ≠ none
    · exact failsSafely_emptied hopened.1 hopened.2 h
    · exact failsSafely_unless hpages hopened

end Failed

/-- The images of `markedPage` in the working directory, and a second call to fail. -/
def secondOpenFails : World Path where
  files := fun path => images (sparseMetadata 1) (sparseImage markedPage 1) path.name
  fault := fun k => if k = 1 then some 0 else none
  calls := 0

private theorem secondOpenFails_checkpointed : Checkpointed (directory secondOpenFails "/") markedPage 1 :=
  ⟨rfl, rfl⟩

/-- Another page, all ones. -/
def onesPage : Memory := fun _ => 1

private theorem secondOpenFails_loses : LosesMemory "/" onesPage 1 secondOpenFails := by
  refine ⟨rfl, by decide, ⟨sparseInfo kSparseMemoryFormatV1 1, Or.inl rfl, rfl, Or.inl rfl, ?_⟩, ?_⟩
  · rintro ⟨-, hzero⟩
    exact absurd (hzero 0 (by decide)) (by decide)
  · intro hblank
    have hready : Ready (directory secondOpenFails "/") 1 65536 (sparseInfo kSparseMemoryFormatV1 1) :=
      ⟨secondOpenFails_checkpointed.memoryImageInfo, by decide, by decide⟩
    have hzeros : ∀ i, i < 65536 → (⟨fun _ => 0, []⟩ : Ram).bytes (1 + i) = 0 := fun _ _ => rfl
    have hzero := (hblank.restored hready hzeros).2 5000 (by decide)
    have hmarked : (1 + 5000 - 1) / 4096 ∈ nonzeroChunks markedPage 0 ((1 : UInt32).toNat * 16) :=
      (mem_nonzeroChunks_div 1 5000).mpr ⟨by decide, 904, by decide, by decide⟩
    rw [(secondOpenFails_checkpointed.restored (by decide) (by decide) (by decide) _).2, chunksOver,
      if_pos ⟨by decide, hmarked⟩] at hzero
    exact absurd hzero (by decide)

theorem checkpointMemory_safe_iff_second_open :
    FailsSafely "/" onesPage 1 secondOpenFails ↔ ¬ LosesMemory "/" onesPage 1 secondOpenFails :=
  checkpointMemory_safe_iff (by decide)

/-- The page is lost: the checkpoint returns -1, and a restore of the images it leaves
returns 0 with zeros. -/
theorem checkpointMemory_not_safe : ¬ FailsSafely "/" onesPage 1 secondOpenFails :=
  secondOpenFails_loses.not_failsSafely

end Wasmig
