import Wasmig.Memory.Delivered
import Wasmig.Memory.Failure

/-! `wasmig_restore_memory` (`restore.cpp`): the whole memory in a block of its own.

It restores into a block of zeros (`restoreMemoryInto`) and returns the block with its
size, which is kept in 32 bits. What it returns is the memory that was checkpointed
exactly when that has less than 65536 pages and its images are complete
(`restoreMemory_whole_iff`). -/
namespace Wasmig
open Base Base.Stdio

/-- `calloc(1, n)` when it gives out the block at `block`. -/
def calloc (ram : Ram) (block n : Nat) : Ram :=
  {ram with bytes := fun x => if block ≤ x ∧ x < block + n then 0 else ram.bytes x}

/-- The `Array8` that is returned, its contents an address and 0 the null pointer, and the
memory it is in. -/
structure RestoredMemory where
  size : UInt32
  contents : Nat
  ram : Ram

/-- `wasmig_restore_memory()` when `calloc` returns `block`, which is 0 if it fails. -/
def restoreMemoryOrFail (dir : Directory) (block : Nat) (ram : Ram) (f : Faults) : RestoredMemory × Faults :=
  let memoryFp := openImageRbOrFail dir f "memory.img"
  let memSizeFp := openImageRbOrFail dir memoryFp.2 "mem_page_count.img"
  match memoryFp.1, memSizeFp.1 with
  | some fp, some sizeFp =>
    match inspectMemoryImageOrFail memSizeFp.2 sizeFp with
    | (none, f) => (⟨0, 0, ram⟩, f)
    | (some info, f) =>
      match mulOverflow wasmPageSize info.pageCount.toNat with
      | none => (⟨0, 0, ram⟩, f)
      | some totalSize =>
        if block = 0 then (⟨0, 0, ram⟩, f) else
        match getFileSizeOrFail f fp with
        | (none, f) => (⟨0, 0, calloc ram block totalSize⟩, f)
        | (some _, f) =>
          let restored := restoreMemoryIntoOrFail dir block totalSize (calloc ram block totalSize) f
          if restored.1.1 ≠ 0 then (⟨0, 0, restored.1.2⟩, restored.2)
          else (⟨UInt32.ofNat totalSize, block, restored.1.2⟩, restored.2)
  | _, _ => (⟨0, 0, ram⟩, memSizeFp.2)

/-- `wasmig_restore_memory()` when nothing fails. -/
def restoreMemory (dir : Directory) (block : Nat) (ram : Ram) : RestoredMemory :=
  (restoreMemoryOrFail dir block ram .never).1

/-! ### A block of its own -/

/-- `{0, NULL}` -/
def RestoredMemory.Failed (r : RestoredMemory) : Prop := r.size = 0 ∧ r.contents = 0

/-- The block with what is restored into it, once the images are there. -/
def restoredBlock (dir : Directory) (block : Nat) (ram : Ram) : RestoredMemory :=
  match dir "memory.img", memoryImageInfo dir with
  | some _, some info =>
    if block = 0 then ⟨0, 0, ram⟩ else
    let restored := restoreMemoryInto dir block info.totalSize (calloc ram block info.totalSize)
    if restored.1 ≠ 0 then ⟨0, 0, restored.2⟩ else ⟨UInt32.ofNat info.totalSize, block, restored.2⟩
  | _, _ => ⟨0, 0, ram⟩

/-- What is returned once the block is there. -/
theorem restoredOrFail_tried (dir : Directory) (block totalSize : Nat) (ram : Ram) (f : Faults) :
    let restored := restoreMemoryIntoOrFail dir block totalSize ram f
    let whole := restoreMemoryInto dir block totalSize ram
    Tried f
      (if restored.1.1 ≠ 0 then ((⟨0, 0, restored.1.2⟩ : RestoredMemory), restored.2)
        else (⟨UInt32.ofNat totalSize, block, restored.1.2⟩, restored.2))
      (if whole.1 ≠ 0 then ⟨0, 0, whole.2⟩ else ⟨UInt32.ofNat totalSize, block, whole.2⟩) RestoredMemory.Failed := by
  dsimp only
  refine (restoreMemoryIntoOrFail_tried dir block totalSize ram f).andThen (fun hdone => ?_) fun hfailed => ?_
  · rw [hdone]
    split
    · exact Tried.done _ _
    · exact Tried.done _ _
  · rw [hfailed.1]
    exact ⟨Faults.Ahead.refl _, rfl, rfl⟩

private theorem restoreMemoryOrFail_restoredBlock (dir : Directory) (block : Nat) (ram : Ram) (f : Faults) :
    Tried f (restoreMemoryOrFail dir block ram f) (restoredBlock dir block ram) RestoredMemory.Failed := by
  unfold restoreMemoryOrFail restoredBlock
  rw [memoryImageInfo_eq]
  dsimp only
  refine (openImageRbOrFail_tried dir f "memory.img").andThen ?_ ?_
  · obtain ⟨memoryFp, f⟩ := openImageRbOrFail dir f "memory.img"
    rintro (rfl : memoryFp = (dir "memory.img").map Reader.ofFile)
    refine (openImageRbOrFail_tried dir f "mem_page_count.img").andThen ?_ ?_
    · obtain ⟨memSizeFp, f⟩ := openImageRbOrFail dir f "mem_page_count.img"
      rintro (rfl : memSizeFp = (dir "mem_page_count.img").map Reader.ofFile)
      cases dir "memory.img" with
      | none => exact Tried.done _ _
      | some image =>
        cases dir "mem_page_count.img" with
        | none => exact Tried.done _ _
        | some b =>
          rw [Option.map_some, Option.map_some, Option.bind_some]
          dsimp only
          refine (inspectMemoryImageOrFail_tried f (Reader.ofFile b)).andThen ?_ ?_
          · obtain ⟨info, f⟩ := inspectMemoryImageOrFail f (Reader.ofFile b)
            rintro (rfl : info = infoOf b)
            cases infoOf b with
            | none => exact Tried.done _ _
            | some info =>
              simp only [mulOverflow_pages]
              by_cases hblock : block = 0
              · rw [if_pos hblock, if_pos hblock]
                exact Tried.done _ _
              rw [if_neg hblock, if_neg hblock]
              refine (getFileSizeOrFail_tried f (Reader.ofFile image)).andThen ?_ ?_
              · obtain ⟨size, f⟩ := getFileSizeOrFail f (Reader.ofFile image)
                rintro (rfl : size = some (getFileSize (Reader.ofFile image)))
                exact restoredOrFail_tried dir block _ _ f
              · obtain ⟨size, f⟩ := getFileSizeOrFail f (Reader.ofFile image)
                rintro (rfl : size = none)
                exact ⟨Faults.Ahead.refl _, rfl, rfl⟩
          · obtain ⟨info, f⟩ := inspectMemoryImageOrFail f (Reader.ofFile b)
            rintro (rfl : info = none)
            exact ⟨Faults.Ahead.refl _, rfl, rfl⟩
    · obtain ⟨memSizeFp, f⟩ := openImageRbOrFail dir f "mem_page_count.img"
      rintro (rfl : memSizeFp = none)
      cases dir "memory.img" with
      | none => exact ⟨Faults.Ahead.refl _, rfl, rfl⟩
      | some image => exact ⟨Faults.Ahead.refl _, rfl, rfl⟩
  · obtain ⟨memoryFp, f⟩ := openImageRbOrFail dir f "memory.img"
    rintro (rfl : memoryFp = none)
    exact ⟨(openImageRbOrFail_tried dir f "mem_page_count.img").ahead, rfl, rfl⟩

theorem restoreMemory_eq (dir : Directory) (block : Nat) (ram : Ram) :
    restoreMemory dir block ram = restoredBlock dir block ram :=
  (restoreMemoryOrFail_restoredBlock dir block ram .never).never

/-- It returns what it does without failures, or `{0, NULL}`. -/
theorem restoreMemoryOrFail_tried (dir : Directory) (block : Nat) (ram : Ram) (f : Faults) :
    Tried f (restoreMemoryOrFail dir block ram f) (restoreMemory dir block ram) RestoredMemory.Failed := by
  rw [restoreMemory_eq]
  exact restoreMemoryOrFail_restoredBlock dir block ram f

/-- What was restored into the block, if it gets that far. -/
structure RestoresInto (dir : Directory) (block : Nat) (ram : Ram) (info : WasmigMemoryImageInfo)
    (after : Ram) : Prop where
  image : (dir "memory.img").isSome = true
  valid : memoryImageInfo dir = some info
  allocated : block ≠ 0
  restored : restoreMemoryInto dir block info.totalSize (calloc ram block info.totalSize) = (0, after)

section
variable {dir : Directory} {block : Nat} {ram : Ram}

theorem restoreMemory_restores {info : WasmigMemoryImageInfo} {after : Ram}
    (h : RestoresInto dir block ram info after) :
    restoreMemory dir block ram = ⟨UInt32.ofNat info.totalSize, block, after⟩ := by
  obtain ⟨image, himage⟩ := Option.isSome_iff_exists.mp h.image
  rw [restoreMemory_eq, restoredBlock, himage, h.valid]
  simp only [if_neg h.allocated, h.restored]
  exact if_neg fun hne => hne rfl

/-- Every failure is reported as `{0, NULL}`. -/
theorem restoreMemory_fails (h : ∀ info after, ¬ RestoresInto dir block ram info after) :
    (restoreMemory dir block ram).size = 0 ∧ (restoreMemory dir block ram).contents = 0 := by
  rw [restoreMemory_eq, restoredBlock]
  cases himage : dir "memory.img" with
  | none => exact ⟨rfl, rfl⟩
  | some image =>
    cases hinfo : memoryImageInfo dir with
    | none => exact ⟨rfl, rfl⟩
    | some info =>
      dsimp only
      by_cases hblock : block = 0
      · rw [if_pos hblock]
        exact ⟨rfl, rfl⟩
      rw [if_neg hblock]
      by_cases hrestored : (restoreMemoryInto dir block info.totalSize (calloc ram block info.totalSize)).1 = 0
      · refine absurd ?_ (h info (restoreMemoryInto dir block info.totalSize (calloc ram block info.totalSize)).2)
        exact ⟨by rw [himage]; rfl, hinfo, hblock, Prod.ext hrestored rfl⟩
      · rw [if_pos hrestored]
        exact ⟨rfl, rfl⟩

/-! ### What is returned -/

/-- The whole of a memory of so many pages is returned. -/
structure Whole (r : RestoredMemory) (memory : Memory) (pages : Nat) : Prop where
  contents : r.contents ≠ 0
  size : r.size.toNat = pages * 65536
  bytes : ∀ i, i < pages * 65536 → r.ram.bytes (r.contents + i) = memory i

section
variable {memory : Memory} {pageCount : UInt32}

/-- Records of chunks are restored into zeros. -/
theorem restoreMemory_chunks (hpages : pageCount.toNat ≤ 65536) {chunks : List Nat}
    (hchunks : ∀ k ∈ chunks, k < pageCount.toNat * 16) {image : Bytes} (himage : dir "memory.img" = some image)
    (hinfo : memoryImageInfo dir = some (sparseInfo kSparseMemoryFormatV1 pageCount))
    (htranscript : directoryTranscript dir = ⟨(chunks.map (chunkRecord memory)).map recordVisit, true⟩)
    (hblock : block ≠ 0) (ram : Ram) :
    (restoreMemory dir block ram).size = UInt32.ofNat (pageCount.toNat * 65536) ∧
      (restoreMemory dir block ram).contents = block ∧
      ∀ i, i < pageCount.toNat * 65536 → (restoreMemory dir block ram).ram.bytes (block + i) =
        if i / 4096 ∈ chunks then memory i else 0 := by
  have hready : Ready dir block (pageCount.toNat * 65536) (sparseInfo kSparseMemoryFormatV1 pageCount) :=
    ⟨hinfo, fun h => absurd h hblock, Nat.le_refl _⟩
  obtain ⟨hcode, hbytes⟩ := restoreMemoryInto_chunks hpages hchunks hready htranscript
    (calloc ram block (pageCount.toNat * 65536))
  have hrestores : RestoresInto dir block ram (sparseInfo kSparseMemoryFormatV1 pageCount)
      (restoreMemoryInto dir block (pageCount.toNat * 65536) (calloc ram block (pageCount.toNat * 65536))).2 :=
    ⟨by rw [himage]; rfl, hinfo, hblock, Prod.ext hcode rfl⟩
  rw [restoreMemory_restores hrestores]
  refine ⟨rfl, rfl, ?_⟩
  intro i hi
  have hzero : (calloc ram block (pageCount.toNat * 65536)).bytes (block + i) = 0 := if_pos (by omega)
  show (restoreMemoryInto dir block _ _).2.bytes (block + i) = _
  rw [hbytes, chunksOver, Nat.add_sub_cancel_left, hzero]
  exact if_congr (and_iff_right (Nat.le_add_right ..)) rfl rfl

/-- Complete images are restored whole, and the size is right below 65536 pages. -/
theorem Checkpointed.restoreMemory (h : Checkpointed dir memory pageCount) (hpages : pageCount.toNat ≤ 65536)
    (hblock : block ≠ 0) (ram : Ram) :
    (restoreMemory dir block ram).size = UInt32.ofNat (pageCount.toNat * 65536) ∧
      (pageCount.toNat < 65536 → Whole (restoreMemory dir block ram) memory pageCount.toNat) := by
  obtain ⟨hsize, hcontents, hbytes⟩ := restoreMemory_chunks hpages (fun _ hk => (mem_nonzeroChunks.mp hk).1) h.image
    h.memoryImageInfo (h.transcript hpages) hblock ram
  refine ⟨hsize, fun hsmall => ⟨by rw [hcontents]; exact hblock, ?_, ?_⟩⟩
  · rw [hsize, UInt32.toNat_ofNat']
    exact Nat.mod_eq_of_lt (by omega)
  · intro i hi
    rw [hcontents, hbytes i hi]
    split
    · rfl
    · rename_i hnot
      rw [mem_nonzeroChunks_div] at hnot
      exact (eq_zero_of_not_inNonzeroChunk fun hchunk => hnot ⟨hi, hchunk⟩).symm

theorem chunk_of_byte (k : Nat) {j : Nat} (hj : j < 4096) : (k * 4096 + j) / 4096 = k := by omega

theorem byte_of_chunk {k j pages : Nat} (hk : k < pages * 16) (hj : j < 4096) : k * 4096 + j < pages * 65536 := by
  omega

/-- An image that is cut short is rejected, or a chunk of it that was not zero comes back as
zeros. -/
theorem not_whole_of_cut (hpages : pageCount.toNat ≤ 65536) {image : Bytes}
    (himage : dir "memory.img" = some image) (hinfo : dir "mem_page_count.img" = some (sparseMetadata pageCount))
    (hread : image <+: sparseImage memory pageCount) (hcut : image ≠ sparseImage memory pageCount)
    (hblock : block ≠ 0) : ¬ Whole (restoreMemory dir block ram) memory pageCount.toNat := by
  intro hwhole
  have hvalid : memoryImageInfo dir = some (sparseInfo kSparseMemoryFormatV1 pageCount) :=
    (memoryImageInfo_iff dir _).mpr ⟨Or.inl rfl, hinfo⟩
  obtain ⟨before, r, after, tail, hrecords, rfl, htail⟩ := (prefix_flatMap recordBytes hread).resolve_left hcut
  obtain ⟨chunks, rest, hchunks, rfl, hrest⟩ := List.map_eq_append_iff.mp hrecords
  obtain ⟨k, rest', rfl, rfl, rfl⟩ := List.map_eq_cons_iff.mp hrest
  have hmem : ∀ k', k' ∈ chunks ∨ k' = k → k' < pageCount.toNat * 16 ∧
      isZeroMemoryChunk (chunkAt memory k') = false := by
    intro k' hk'
    apply mem_nonzeroChunks.mp
    rw [hchunks, List.mem_append, List.mem_cons]
    exact hk'.imp id Or.inl
  have hshort : tail.length < 4100 := by
    rw [recordBytes, List.length_append, le32_length, chunkRecord_length] at htail
    exact htail
  have htranscript := directoryTranscript_cut himage hvalid (fun r hr => by
    obtain ⟨k', hk', rfl⟩ := List.mem_map.mp hr
    exact chunkRecord_valid hpages (hmem k' (Or.inl hk')).1) hshort
  by_cases hindex : tail.length < 4
  · rw [decide_eq_true hindex] at htranscript
    obtain ⟨-, hcontents, hbytes⟩ := restoreMemory_chunks hpages (fun k' hk' => (hmem k' (Or.inl hk')).1)
      himage hvalid htranscript hblock ram
    -- The chunk after the last that is restored.
    have hfresh : k ∉ chunks := by
      have hnodup : (nonzeroChunks memory 0 (pageCount.toNat * 16)).Nodup :=
        (List.nodup_range' ..).filter _
      rw [hchunks] at hnodup
      exact fun hk => (List.nodup_append.mp hnodup).2.2 k hk k (List.mem_cons_self ..) rfl
    obtain ⟨hlt, hnonzero⟩ := hmem k (Or.inr rfl)
    have hstart : k * 4096 / 4096 = k := Nat.mul_div_cancel k (by decide)
    obtain ⟨j, hj, hbyte⟩ := (isZeroMemoryChunk_iff memory (k * 4096)).mp (by rw [hstart]; exact hnonzero)
    rw [hstart] at hbyte
    have hinside := byte_of_chunk hlt hj
    have hzero := hbytes (k * 4096 + j) hinside
    have hsame := hwhole.bytes (k * 4096 + j) hinside
    rw [chunk_of_byte k hj, if_neg hfresh] at hzero
    rw [hcontents, hzero] at hsame
    exact hbyte hsame.symm
  · rw [decide_eq_false hindex] at htranscript
    refine hwhole.contents (restoreMemory_fails fun info after h => ?_).2
    have haccepted : (directoryTranscript dir).accepted = false := by rw [htranscript]
    have hrejected := restoreMemoryInto_rejected haccepted block info.totalSize (calloc ram block info.totalSize)
    rw [h.restored] at hrejected
    cases hrejected

end

end

/-- Without all of the metadata nothing is restored. -/
theorem not_whole_of_short {dir : Directory} {block : Nat} {ram : Ram} {memory : Memory} {pageCount : UInt32}
    (hpages : pageCount.toNat ≤ 65536) {image info : Bytes} (himage : dir "memory.img" = some image)
    (hinfo : dir "mem_page_count.img" = some info) (himagePrefix : image <+: sparseImage memory pageCount)
    (hinfoPrefix : info <+: sparseMetadata pageCount) (hshort : info.length < 8) :
    ¬ Whole (restoreMemory dir block ram) memory pageCount.toNat := by
  intro hwhole
  refine hwhole.contents (restoreMemory_fails fun info' after h => ?_).2
  have hrejected := restoreMemoryInto_rejected
    (incomplete_rejected hpages himage hinfo himagePrefix hinfoPrefix hshort) block info'.totalSize
    (calloc ram block info'.totalSize)
  rw [h.restored] at hrejected
  cases hrejected

/-- What is returned is whole exactly when it is small enough and the images are complete. -/
theorem whole_iff_delivered (cwd : String) (memory : Memory) (curPage : UInt32) (hpages : curPage.toNat ≤ 65536)
    (w : World Path) (hcode : (checkpointMemory cwd memory curPage w).1 = 0) {block : Nat} (hblock : block ≠ 0)
    (ram : Ram) :
    Whole (restoreMemory (directory (checkpointMemory cwd memory curPage w).2 cwd) block ram) memory curPage.toNat ↔
      curPage.toNat < 65536 ∧ MemoryDelivered w memory curPage := by
  obtain ⟨hspec, hfiles⟩ := checkpointMemory_spec cwd memory curPage w
  constructor
  · intro hwhole
    have hsize := hwhole.size
    have hlt := (restoreMemory (directory (checkpointMemory cwd memory curPage w).2 cwd) block ram).size.toNat_lt
    refine ⟨by omega, fun image info hheld => ?_⟩
    obtain ⟨himageLe, hinfoLe, himage, hinfo⟩ := hfiles image info hheld
    rw [← sparseMetadata_length curPage] at hinfoLe hinfo
    have hinfoPass : Passes (w.fault (memoryLast w memory curPage + 1)) info := by
      by_contra hlost
      refine not_whole_of_short hpages himage hinfo (List.take_prefix ..) (List.take_prefix ..) ?_ hwhole
      have hless : survivors (w.fault (memoryLast w memory curPage + 1)) info < info :=
        Nat.lt_of_le_of_ne (survivors_le _ _) fun h => hlost ((survivors_eq_iff _ _).mp h)
      rw [List.length_take, sparseMetadata_length]
      rw [sparseMetadata_length] at hinfoLe
      omega
    refine ⟨?_, hinfoPass⟩
    rw [(take_survivors_iff hinfoLe).mpr hinfoPass] at hinfo
    by_contra hlost
    exact not_whole_of_cut hpages himage hinfo (List.take_prefix ..)
      (fun h => hlost ((take_survivors_iff himageLe).mp h)) hblock hwhole
  · intro h
    obtain ⟨hsmall, hdelivered⟩ := h
    obtain ⟨image, info, hheld⟩ := hspec.mp hcode
    obtain ⟨himageLe, hinfoLe, himage, hinfo⟩ := hfiles image info hheld
    obtain ⟨himagePass, hinfoPass⟩ := hdelivered image info hheld
    rw [(take_survivors_iff himageLe).mpr himagePass] at himage
    rw [← sparseMetadata_length curPage] at hinfoLe hinfo
    rw [(take_survivors_iff hinfoLe).mpr hinfoPass] at hinfo
    have hcheckpointed : Checkpointed (directory (checkpointMemory cwd memory curPage w).2 cwd) memory curPage :=
      ⟨himage, hinfo⟩
    exact (hcheckpointed.restoreMemory hpages hblock ram).2 hsmall

/-- Failure and success can be told apart. -/
theorem restoreMemory_reports (dir : Directory) (block : Nat) (ram : Ram) :
    (∀ info after, ¬ RestoresInto dir block ram info after) ∧
        (restoreMemory dir block ram).size = 0 ∧ (restoreMemory dir block ram).contents = 0 ∨
      (∃ info after, RestoresInto dir block ram info after) ∧ (restoreMemory dir block ram).contents ≠ 0 := by
  by_cases h : ∃ info after, RestoresInto dir block ram info after
  · obtain ⟨info, after, hrestores⟩ := h
    refine Or.inr ⟨⟨info, after, hrestores⟩, ?_⟩
    rw [restoreMemory_restores hrestores]
    exact hrestores.allocated
  · have hfails : ∀ info after, ¬ RestoresInto dir block ram info after := fun info after hrestores =>
      h ⟨info, after, hrestores⟩
    exact Or.inl ⟨hfails, restoreMemory_fails hfails⟩

/-- After a checkpoint of at most 65536 pages that returned 0, the whole memory is returned
exactly when there are less than 65536 of them and the images are complete. Every failure is
`{0, NULL}`, which no success is. -/
theorem restoreMemory_whole_iff (cwd : String) (memory : Memory) (curPage : UInt32) (hpages : curPage.toNat ≤ 65536)
    (w : World Path) (hcode : (checkpointMemory cwd memory curPage w).1 = 0) {block : Nat} (hblock : block ≠ 0)
    (ram : Ram) :
    (Whole (restoreMemory (directory (checkpointMemory cwd memory curPage w).2 cwd) block ram) memory curPage.toNat ↔
      curPage.toNat < 65536 ∧ MemoryDelivered w memory curPage) ∧
    ∀ (dir : Directory) (block : Nat) (ram : Ram),
      (∀ info after, ¬ RestoresInto dir block ram info after) ∧
          (restoreMemory dir block ram).size = 0 ∧ (restoreMemory dir block ram).contents = 0 ∨
        (∃ info after, RestoresInto dir block ram info after) ∧ (restoreMemory dir block ram).contents ≠ 0 := by
  constructor
  · exact whole_iff_delivered cwd memory curPage hpages w hcode hblock ram
  · exact restoreMemory_reports

/-- A memory that is all zeros, and nothing in it restored yet. -/
def blankRam : Ram := ⟨fun _ => 0, []⟩

theorem restoreMemory_whole_iff_marked_page :
    (Whole (restoreMemory (directory (checkpointMemory "/" markedPage 1 freshWorld).2 "/") 16 blankRam) markedPage 1 ↔
      1 < 65536 ∧ MemoryDelivered freshWorld markedPage 1) ∧
    ∀ (dir : Directory) (block : Nat) (ram : Ram),
      (∀ info after, ¬ RestoresInto dir block ram info after) ∧
          (restoreMemory dir block ram).size = 0 ∧ (restoreMemory dir block ram).contents = 0 ∨
        (∃ info after, RestoresInto dir block ram info after) ∧ (restoreMemory dir block ram).contents ≠ 0 :=
  restoreMemory_whole_iff "/" markedPage 1 (by decide) freshWorld
    (checkpointMemory_checkpointed "/" markedPage 1 freshWorld_faultless).1 (by decide) blankRam

/-- A memory of 65536 pages, which nothing fails for, is returned with the size 0. -/
theorem restoreMemory_largest_empty :
    (checkpointMemory "/" markedPage 65536 freshWorld).1 = 0 ∧
      (restoreMemory (directory (checkpointMemory "/" markedPage 65536 freshWorld).2 "/") 16 blankRam).size = 0 ∧
      ¬ Whole (restoreMemory (directory (checkpointMemory "/" markedPage 65536 freshWorld).2 "/") 16 blankRam)
        markedPage 65536 := by
  obtain ⟨hcode, hdir⟩ := checkpointMemory_checkpointed "/" markedPage 65536 freshWorld_faultless
  have hblock : 16 ≠ 0 := by decide
  have hsize := (hdir.restoreMemory (by decide) hblock blankRam).1
  refine ⟨hcode, hsize, fun hwhole => ?_⟩
  have hwhole := hwhole.size
  rw [hsize] at hwhole
  exact absurd hwhole (by decide)

end Wasmig
