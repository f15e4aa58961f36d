import Wasmig.Memory.Checkpoint
import Wasmig.Memory.Image

/-! What `wasmig_checkpoint_memory` leaves.

`sparseImage` and `sparseMetadata` are what the two files should hold. The chunk loop
writes a prefix of the first, all of it when it ends well (`writeMemoryChunks_wrote`),
and `checkpointMemory_outcome` says, for each way the two `fopen`s can go, what the call
returns and what the files hold after it, whatever the environment does. -/
namespace Wasmig
open Base Base.Stdio

/-- The chunk `k` of a memory. -/
def chunkAt (memory : Memory) (k : Nat) : Memory := fun i => memory (k * 4096 + i)

/-- The chunks among `n` from `k` on that are not all zero. -/
def nonzeroChunks (memory : Memory) (k n : Nat) : List Nat :=
  (List.range' k n).filter fun k => !isZeroMemoryChunk (chunkAt memory k)

/-- The record of the chunk `k`. -/
def chunkRecord (memory : Memory) (k : Nat) : UInt32 × Bytes :=
  (UInt32.ofNat k, memory.read (k * 4096) 4096)

/-- The records written for `n` chunks from `k` on. -/
def chunkRecords (memory : Memory) (k n : Nat) : List (UInt32 × Bytes) :=
  (nonzeroChunks memory k n).map (chunkRecord memory)

/-- The image of a memory of these pages. -/
def sparseImage (memory : Memory) (pageCount : UInt32) : Bytes :=
  (chunkRecords memory 0 (pageCount.toNat * 16)).flatMap recordBytes

/-- The metadata of such an image. -/
def sparseMetadata (pageCount : UInt32) : Bytes := le32 kSparseMemoryFormatV1 ++ le32 pageCount

theorem sparseMetadata_length (pageCount : UInt32) : (sparseMetadata pageCount).length = 8 := by
  rw [sparseMetadata, List.length_append, le32_length, le32_length]

theorem chunkRecord_length (memory : Memory) (k : Nat) : (chunkRecord memory k).2.length = 4096 := by
  simp only [chunkRecord, Memory.read_length]

@[simp] theorem chunkRecords_zero (memory : Memory) (k : Nat) : chunkRecords memory k 0 = [] := rfl

theorem nonzeroChunks_skip {memory : Memory} {k : Nat} (n : Nat)
    (h : isZeroMemoryChunk (chunkAt memory k) = true) :
    nonzeroChunks memory k (n + 1) = nonzeroChunks memory (k + 1) n := by
  rw [nonzeroChunks, List.range'_succ, List.filter_cons_of_neg (by rw [h]; decide), nonzeroChunks]

theorem nonzeroChunks_keep {memory : Memory} {k : Nat} (n : Nat)
    (h : ¬ isZeroMemoryChunk (chunkAt memory k) = true) :
    nonzeroChunks memory k (n + 1) = k :: nonzeroChunks memory (k + 1) n := by
  rw [nonzeroChunks, List.range'_succ, List.filter_cons_of_pos (by rw [Bool.not_eq_true] at h; rw [h]; rfl),
    nonzeroChunks]

theorem chunkRecords_skip {memory : Memory} {k : Nat} (n : Nat)
    (h : isZeroMemoryChunk (chunkAt memory k) = true) :
    chunkRecords memory k (n + 1) = chunkRecords memory (k + 1) n := by
  rw [chunkRecords, nonzeroChunks_skip n h, chunkRecords]

theorem chunkRecords_keep {memory : Memory} {k : Nat} (n : Nat)
    (h : ¬ isZeroMemoryChunk (chunkAt memory k) = true) :
    chunkRecords memory k (n + 1) = chunkRecord memory k :: chunkRecords memory (k + 1) n := by
  rw [chunkRecords, nonzeroChunks_keep n h, List.map_cons, chunkRecords]

/-- Every record has 4100 bytes. -/
theorem records_length {records : List (UInt32 × Bytes)} (h : ∀ r ∈ records, r.2.length = 4096) :
    (records.flatMap recordBytes).length = 4100 * records.length := by
  induction records with
  | nil => rfl
  | cons r records ih =>
    obtain ⟨hr, hrecords⟩ := List.forall_mem_cons.mp h
    rw [List.flatMap_cons, List.length_append, recordBytes, List.length_append, le32_length, hr, ih hrecords,
      List.length_cons]
    omega

theorem writtenChunks_length (memory : Memory) (chunks : List Nat) :
    ((chunks.map (chunkRecord memory)).flatMap recordBytes).length = 4100 * chunks.length := by
  rw [records_length, List.length_map]
  intro r hr
  obtain ⟨k, -, rfl⟩ := List.mem_map.mp hr
  exact chunkRecord_length memory k

theorem chunkRecords_length (memory : Memory) (k n : Nat) :
    ((chunkRecords memory k n).flatMap recordBytes).length = 4100 * (nonzeroChunks memory k n).length :=
  writtenChunks_length memory (nonzeroChunks memory k n)

/-- And a chunk has at most one. -/
theorem chunkRecords_length_le (memory : Memory) (k n : Nat) :
    ((chunkRecords memory k n).flatMap recordBytes).length ≤ 4100 * n := by
  have hle : (nonzeroChunks memory k n).length ≤ n :=
    Nat.le_trans (List.length_filter_le ..) (Nat.le_of_eq List.length_range')
  rw [chunkRecords_length]
  exact Nat.mul_le_mul_left 4100 hle

/-- The chunk loop with `k` chunks behind it and `n` ahead writes the records of those
ahead. -/
theorem writeMemoryChunks_wrote (memory : Memory) (k n : Nat) {memFp : Writer Path} {w : World Path}
    {written : Bytes} (h : Holds w memFp written) :
    Wrote w memFp written ((chunkRecords memory k n).flatMap recordBytes)
      ((writeMemoryChunks memory ((k + n) * 4096) (k * 4096) memFp w).ok = true)
      (writeMemoryChunks memory ((k + n) * 4096) (k * 4096) memFp w).world
      (writeMemoryChunks memory ((k + n) * 4096) (k * 4096) memFp w).fp := by
  induction n generalizing k memFp w written with
  | zero =>
    rw [writeMemoryChunks, Nat.add_zero, if_neg (Nat.lt_irrefl _)]
    exact (Wrote.nil h).congr (by simp)
  | succ n ih =>
    have hnext : k * 4096 + kMemoryChunkSize.toNat = (k + 1) * 4096 := by
      rw [kMemoryChunkSize_toNat]
      omega
    have hsplit : k + (n + 1) = k + 1 + n := by omega
    have hchunk : (fun i => memory (k * 4096 + i)) = chunkAt memory k := rfl
    rw [writeMemoryChunks, if_pos (by omega), hnext, hsplit]
    simp only [hchunk]
    by_cases hzero : isZeroMemoryChunk (chunkAt memory k) = true
    · simp only [if_pos hzero]
      rw [chunkRecords_skip n hzero]
      exact ih (k + 1) h
    have hindex : k * 4096 / kMemoryChunkSize.toNat = k := by
      rw [kMemoryChunkSize_toNat]
      omega
    have hread : (chunkAt memory k).read 0 kMemoryChunkSize.toNat = memory.read (k * 4096) 4096 := by
      simp [Memory.read, chunkAt]
    rw [chunkRecords_keep n hzero, List.flatMap_cons, recordBytes, chunkRecord, List.append_assoc]
    simp only [if_neg hzero]
    rw [hindex, hread]
    have hword := fwrite_spec h 4 1 (le32 (UInt32.ofNat k)) (by decide) (by decide) (by simp)
    generalize fwrite w memFp 4 (le32 (UInt32.ofNat k)) = index at hword ⊢
    by_cases hcount : index.count = 1
    · rw [if_neg (not_not_intro hcount)]
      refine hword.andThen hcount fun h => ?_
      have hbody := fwrite_spec h 1 kMemoryChunkSize.toNat (memory.read (k * 4096) 4096)
        (by decide) (by decide) (by simp)
      generalize fwrite index.world index.fp 1 (memory.read (k * 4096) 4096) = body at hbody ⊢
      by_cases hbodyCount : body.count = kMemoryChunkSize.toNat
      · rw [if_neg (not_not_intro hbodyCount)]
        exact hbody.andThen hbodyCount fun h => ih (k + 1) h
      · rw [if_pos hbodyCount]
        exact (hbody.stop hbodyCount _).congr (by simp)
    · rw [if_pos hcount]
      exact (hword.stop hcount _).congr (by simp)

/-! ### The two files -/

/-- `memory.img` in the working directory. -/
def memoryPath (cwd : String) : Path := ⟨cwd, "memory.img"⟩

/-- `mem_page_count.img` in the working directory. -/
def pageCountPath (cwd : String) : Path := ⟨cwd, "mem_page_count.img"⟩

theorem memoryPath_ne (cwd : String) : memoryPath cwd ≠ pageCountPath cwd := by
  intro h
  have hname : "memory.img" = "mem_page_count.img" := congrArg Path.name h
  exact absurd hname (by decide)

/-- What a checkpoint can return and leave, by how the two `fopen`s go. Once both files
are open, each holds a prefix of what it should, and an incomplete metadata file is what
makes the call fail. -/
inductive MemoryOutcome (cwd : String) (memory : Memory) (curPage : UInt32) (w : World Path)
    (code : Int) (w' : World Path) : Prop where
  | neitherOpened (mem : w.fault w.calls ≠ none) (size : w.fault (w.calls + 1) ≠ none)
      (failed : code = -1) (files : w'.files = w.files)
  | sizeOpened (mem : w.fault w.calls ≠ none) (size : w.fault (w.calls + 1) = none)
      (failed : code = -1) (image : w'.files (memoryPath cwd) = w.files (memoryPath cwd))
      (info : w'.files (pageCountPath cwd) = some [])
  | memOpened (mem : w.fault w.calls = none) (size : w.fault (w.calls + 1) ≠ none)
      (failed : code = -1) (image : w'.files (memoryPath cwd) = some [])
      (info : w'.files (pageCountPath cwd) = w.files (pageCountPath cwd))
  | bothOpened (mem : w.fault w.calls = none) (size : w.fault (w.calls + 1) = none)
      (image info : Bytes) (imageFile : w'.files (memoryPath cwd) = some image)
      (infoFile : w'.files (pageCountPath cwd) = some info)
      (imagePrefix : image <+: sparseImage memory curPage) (infoPrefix : info <+: sparseMetadata curPage)
      (codes : code = 0 ∨ code = -1) (short : code = -1 → info.length < 8)
      (free : w.Faultless → code = 0 ∧ image = sparseImage memory curPage ∧ info = sparseMetadata curPage)

/-- Two writers one after the other on two streams, and both streams closed. -/
theorem wrote_both {w w' w'' : World Path} {memFp memFp' sizeFp sizeFp' : Writer Path}
    {data data' : Bytes} {done done' : Prop} (hsize : Holds w sizeFp [])
    (hmem : Wrote w memFp [] data done w' memFp')
    (hinfo : Holds w' sizeFp [] → Wrote w' sizeFp [] data' done' w'' sizeFp')
    (hne : memFp.path ≠ sizeFp.path) :
    ∃ image info, (fclose (fclose w'' memFp').world sizeFp').world.files memFp.path = some image ∧
      (fclose (fclose w'' memFp').world sizeFp').world.files sizeFp.path = some info ∧
      image <+: data ∧ info <+: data' ∧ (¬ done' → info.length < data'.length) ∧
      (w.Faultless → done ∧ done' ∧ image = data ∧ info = data') ∧
      ∀ q, q ≠ memFp.path → q ≠ sizeFp.path →
        (fclose (fclose w'' memFp').world sizeFp').world.files q = w.files q := by
  specialize hinfo (hsize.frame hmem.frame hne.symm)
  obtain ⟨image₀, hholds, hprefix, hdone⟩ := hmem.holds
  obtain ⟨info₀, hholds', hprefix', hdone'⟩ := hinfo.holds
  rw [List.nil_append] at hprefix hdone hprefix' hdone'
  have hne' : memFp'.path ≠ sizeFp'.path := by
    rw [hmem.path, hinfo.path]
    exact hne
  have hmemFrame : Frame sizeFp.path w' w'' := hinfo.frame
  obtain ⟨image, info, himage, hinfoFile, hip, hip', hfree, hothers⟩ :=
    fclose_both (hholds.frame hmemFrame (hmem.path ▸ hne)) hholds' hne'
  rw [hmem.path] at himage hothers
  rw [hinfo.path] at hinfoFile hothers
  refine ⟨image, info, himage, hinfoFile, hip.trans hprefix, hip'.trans hprefix', ?_, ?_, ?_⟩
  · intro hnot
    have hlt : info₀.length ≠ data'.length := fun h => hnot (hdone'.mpr (hprefix'.eq_of_length h))
    have hle := hprefix'.length_le
    have hle' := hip'.length_le
    omega
  · intro hw
    have hw' : w'.Faultless := fun k => by
      rw [hmem.frame.fault]
      exact hw k
    have hw'' : w''.Faultless := fun k => by
      rw [hmemFrame.fault]
      exact hw' k
    obtain ⟨h, h'⟩ := hfree hw''
    exact ⟨hmem.free hw, hinfo.free hw', h.trans (hdone.mp (hmem.free hw)),
      h'.trans (hdone'.mp (hinfo.free hw'))⟩
  · intro q hq hq'
    rw [hothers q hq hq', hmemFrame.files q hq', hmem.frame.files q hq]

/-- What is left once both files are open. -/
theorem writeMemoryImages_spec (memory : Memory) (curPage : UInt32) {memFp memSizeFp : Writer Path}
    {w : World Path} (hmem : Holds w memFp []) (hsize : Holds w memSizeFp [])
    (hne : memFp.path ≠ memSizeFp.path) :
    ∃ image info,
      (writeMemoryImages memory curPage memFp memSizeFp w).2.files memFp.path = some image ∧
      (writeMemoryImages memory curPage memFp memSizeFp w).2.files memSizeFp.path = some info ∧
      image <+: sparseImage memory curPage ∧ info <+: sparseMetadata curPage ∧
      ((writeMemoryImages memory curPage memFp memSizeFp w).1 = 0 ∨
        (writeMemoryImages memory curPage memFp memSizeFp w).1 = -1 ∧ info.length < 8) ∧
      (w.Faultless → (writeMemoryImages memory curPage memFp memSizeFp w).1 = 0 ∧
        image = sparseImage memory curPage ∧ info = sparseMetadata curPage) ∧
      ∀ q, q ≠ memFp.path → q ≠ memSizeFp.path →
        (writeMemoryImages memory curPage memFp memSizeFp w).2.files q = w.files q := by
  have hchunks := writeMemoryChunks_wrote memory 0 (curPage.toNat * 16) hmem
  have htotal : (0 + curPage.toNat * 16) * 4096 = curPage.toNat * wasmPageSize := by
    rw [wasmPageSize]
    omega
  rw [Nat.zero_mul, htotal] at hchunks
  generalize hrun : writeMemoryImages memory curPage memFp memSizeFp w = r
  obtain ⟨code, after⟩ := r
  unfold writeMemoryImages at hrun
  dsimp only at hrun ⊢
  generalize writeMemoryChunks memory (curPage.toNat * wasmPageSize) 0 memFp w = chunks at hchunks hrun
  by_cases hok : chunks.ok = false
  · rw [if_pos hok] at hrun
    obtain ⟨rfl, rfl⟩ := Prod.mk.inj hrun
    obtain ⟨image, info, himage, hinfo, hip, hip', -, hfree, hothers⟩ :=
      wrote_both hsize hchunks Wrote.nil hne
    have hnil := List.prefix_nil.mp hip'
    subst hnil
    refine ⟨image, [], himage, hinfo, hip, List.nil_prefix, Or.inr ⟨rfl, by decide⟩, fun hw => ?_, hothers⟩
    rw [(hfree hw).1] at hok
    cases hok
  rw [if_neg hok] at hrun
  -- The metadata, in two steps; the chunks are in.
  have hformat := fun h : Holds chunks.world memSizeFp [] =>
    fwrite_spec h 4 1 (le32 kSparseMemoryFormatV1) (by decide) (by decide) (by simp)
  generalize fwrite chunks.world memSizeFp 4 (le32 kSparseMemoryFormatV1) = format at hformat hrun
  by_cases hcount : format.count = 1
  · rw [if_neg (not_not_intro hcount)] at hrun
    have hpages := fun h : Holds format.world format.fp ([] ++ le32 kSparseMemoryFormatV1) =>
      fwrite_spec h 4 1 (le32 curPage) (by decide) (by decide) (by simp)
    generalize fwrite format.world format.fp 4 (le32 curPage) = count at hpages hrun
    obtain ⟨image, info, himage, hinfo, hip, hip', hshort, hfree, hothers⟩ :=
      wrote_both hsize hchunks (fun h => (hformat h).andThen hcount hpages) hne
    by_cases hdone : count.count = 1
    · rw [if_neg (not_not_intro hdone)] at hrun
      obtain ⟨rfl, rfl⟩ := Prod.mk.inj hrun
      exact ⟨image, info, himage, hinfo, hip, hip', Or.inl rfl,
        fun hw => ⟨rfl, (hfree hw).2.2⟩, hothers⟩
    · rw [if_pos hdone] at hrun
      obtain ⟨rfl, rfl⟩ := Prod.mk.inj hrun
      refine ⟨image, info, himage, hinfo, hip, hip', Or.inr ⟨rfl, ?_⟩,
        fun hw => absurd (hfree hw).2.1 hdone, hothers⟩
      simpa using hshort hdone
  · rw [if_pos hcount] at hrun
    obtain ⟨rfl, rfl⟩ := Prod.mk.inj hrun
    obtain ⟨image, info, himage, hinfo, hip, hip', hshort, hfree, hothers⟩ :=
      wrote_both hsize hchunks hformat hne
    refine ⟨image, info, himage, hinfo, hip, hip'.trans (List.prefix_append ..), Or.inr ⟨rfl, ?_⟩,
      fun hw => absurd (hfree hw).2.1 hcount, hothers⟩
    have hlen := hshort hcount
    rw [le32_length] at hlen
    omega

/-- Everything a checkpoint can do. -/
theorem checkpointMemory_outcome (cwd : String) (memory : Memory) (curPage : UInt32) (w : World Path) :
    MemoryOutcome cwd memory curPage w (checkpointMemory cwd memory curPage w).1
        (checkpointMemory cwd memory curPage w).2 ∧
      ∀ q, q ≠ memoryPath cwd → q ≠ pageCountPath cwd →
        (checkpointMemory cwd memory curPage w).2.files q = w.files q := by
  have hne := memoryPath_ne cwd
  obtain ⟨hcalls, hfault⟩ := fopen_calls w (memoryPath cwd)
  have hsecond : (fopen w (memoryPath cwd)).world.fault (fopen w (memoryPath cwd)).world.calls =
      w.fault (w.calls + 1) := by rw [hcalls, hfault]
  have hmemPath : openImageWb w cwd "memory.img" = fopen w (memoryPath cwd) := rfl
  have hsizePath : openImageWb (fopen w (memoryPath cwd)).world cwd "mem_page_count.img" =
      fopen (fopen w (memoryPath cwd)).world (pageCountPath cwd) := rfl
  unfold checkpointMemory
  simp only [hmemPath, hsizePath]
  by_cases hmem : w.fault w.calls = none
  · obtain ⟨hfp, hholds, hframe⟩ := fopen_ok w (memoryPath cwd) hmem
    by_cases hsize : w.fault (w.calls + 1) = none
    · obtain ⟨hfp', hholds', hframe'⟩ := fopen_ok (fopen w (memoryPath cwd)).world (pageCountPath cwd)
        (hsecond.trans hsize)
      simp only [hfp, hfp']
      obtain ⟨image, info, himage, hinfo, hip, hip', hcodes, hfree, hothers⟩ :=
        writeMemoryImages_spec memory curPage (hholds.frame hframe' hne) hholds' hne
      refine ⟨.bothOpened hmem hsize image info himage hinfo hip hip' ?_ ?_ ?_, ?_⟩
      · exact hcodes.imp id And.left
      · intro hcode
        rcases hcodes with h | ⟨-, h⟩
        · rw [h] at hcode
          cases hcode
        · exact h
      · exact fun hw => hfree fun k => by
          rw [hframe'.fault, hframe.fault]
          exact hw k
      · intro q hq hq'
        rw [hothers q hq hq', hframe'.files q hq', hframe.files q hq]
    · have hfailed := fopen_failed (fopen w (memoryPath cwd)).world (pageCountPath cwd) (hsecond ▸ hsize)
      simp only [hfp, hfailed, closeOpened]
      obtain ⟨hclose, left, himage, hleft, -⟩ := fclose_spec (w := (fopen w (memoryPath cwd)).world.tick) hholds
      have hnil := List.prefix_nil.mp hleft
      subst hnil
      refine ⟨.memOpened hmem hsize rfl himage ?_, ?_⟩
      · rw [hclose.files _ hne.symm]
        exact hframe.files _ hne.symm
      · intro q hq _
        rw [hclose.files q hq]
        exact hframe.files q hq
  · have hfailed := fopen_failed w (memoryPath cwd) hmem
    rw [hfailed] at hsecond ⊢
    by_cases hsize : w.fault (w.calls + 1) = none
    · obtain ⟨hfp, hholds, hframe⟩ := fopen_ok w.tick (pageCountPath cwd) (hsecond.trans hsize)
      simp only [hfp, closeOpened]
      obtain ⟨hclose, left, hinfo, hleft, -⟩ := fclose_spec hholds
      have hnil := List.prefix_nil.mp hleft
      subst hnil
      refine ⟨.sizeOpened hmem hsize rfl ?_ hinfo, ?_⟩
      · rw [hclose.files _ hne]
        exact hframe.files _ hne
      · intro q _ hq
        rw [hclose.files q hq]
        exact hframe.files q hq
    · have hfailed' := fopen_failed w.tick (pageCountPath cwd) (hsecond ▸ hsize)
      simp only [hfailed', closeOpened]
      exact ⟨.neitherOpened hmem hsize rfl rfl, fun _ _ _ => rfl⟩

end Wasmig
