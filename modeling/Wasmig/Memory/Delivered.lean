import Wasmig.Base.Stream
import Wasmig.Memory.Written

/-! What of a memory checkpoint gets through.

`wasmig_checkpoint_memory` looks at the result of every write and at none of its two
closes. `checkpointMemory_spec` says, from the environment's answers alone, when it
returns 0 and what its files then hold: `MemoryDelivered` is that the closes get through
what the writes left to them. -/
namespace Wasmig
open Base Base.Stdio

/-- The lengths of the blocks written for `n` chunks from `k` on. -/
def memoryBlocks (memory : Memory) (k n : Nat) : List Nat :=
  (nonzeroChunks memory k n).flatMap fun _ => [4, 4096]

theorem memoryBlocks_skip {memory : Memory} {k : Nat} (n : Nat)
    (h : isZeroMemoryChunk (chunkAt memory k) = true) :
    memoryBlocks memory k (n + 1) = memoryBlocks memory (k + 1) n := by
  rw [memoryBlocks, nonzeroChunks_skip n h, memoryBlocks]

theorem memoryBlocks_keep {memory : Memory} {k : Nat} (n : Nat)
    (h : ¬ isZeroMemoryChunk (chunkAt memory k) = true) :
    memoryBlocks memory k (n + 1) = 4 :: 4096 :: memoryBlocks memory (k + 1) n := by
  rw [memoryBlocks, nonzeroChunks_keep n h, List.flatMap_cons, memoryBlocks]
  rfl

/-- The chunk loop writes all records of the chunks ahead, or it gives up. -/
theorem writeMemoryChunks_underway (memory : Memory) (k n : Nat) {w₀ : World Path} {path : Path}
    {reach : Option Nat} {last : Nat} {written : Bytes} {w : World Path} {fp : Writer Path}
    (h : Underway w₀ path [] reach last (memoryBlocks memory k n) written w fp) :
    ((writeMemoryChunks memory ((k + n) * 4096) (k * 4096) fp w).ok = true ∧
      Underway w₀ path [] reach last [] (written ++ (chunkRecords memory k n).flatMap recordBytes)
        (writeMemoryChunks memory ((k + n) * 4096) (k * 4096) fp w).world
        (writeMemoryChunks memory ((k + n) * 4096) (k * 4096) fp w).fp) ∨
    ((writeMemoryChunks memory ((k + n) * 4096) (k * 4096) fp w).ok = false ∧ reach = none) := by
  induction n generalizing k written w fp with
  | zero =>
    rw [writeMemoryChunks, Nat.add_zero, if_neg (Nat.lt_irrefl _)]
    have hnil : memoryBlocks memory k 0 = [] := rfl
    rw [hnil] at h
    refine Or.inl ⟨rfl, ?_⟩
    rw [chunkRecords_zero, List.flatMap_nil, List.append_nil]
    exact h
  | succ n ih =>
    have hnext : k * 4096 + kMemoryChunkSize.toNat = (k + 1) * 4096 := by
      rw [kMemoryChunkSize_toNat]
      omega
    have hsplit : k + (n + 1) = k + 1 + n := by omega
    have hchunk : (fun i => memory (k * 4096 + i)) = chunkAt memory k := rfl
    rw [writeMemoryChunks, if_pos (by omega), hnext, hsplit]
    simp only [hchunk]
    by_cases hzero : isZeroMemoryChunk (chunkAt memory k) = true
    · simp only [if_pos hzero]
      rw [chunkRecords_skip n hzero]
      exact ih (k + 1) (memoryBlocks_skip n hzero ▸ h)
    have hindex : k * 4096 / kMemoryChunkSize.toNat = k := by
      rw [kMemoryChunkSize_toNat]
      omega
    have hread : (chunkAt memory k).read 0 kMemoryChunkSize.toNat = memory.read (k * 4096) 4096 := by
      simp [Memory.read, chunkAt]
    rw [memoryBlocks_keep n hzero] at h
    rw [chunkRecords_keep n hzero, List.flatMap_cons, recordBytes, chunkRecord, List.append_assoc,
      ← List.append_assoc, ← List.append_assoc]
    simp only [if_neg hzero]
    rw [hindex, hread]
    have hword := h.write 4 1 (le32 (UInt32.ofNat k)) (le32_length _) (by decide) rfl (Or.inl Nat.one_pos)
    generalize fwrite w fp 4 (le32 (UInt32.ofNat k)) = index at hword ⊢
    obtain ⟨hcount, hword⟩ | ⟨hcount, hreach, -⟩ := hword
    · rw [if_neg (not_not_intro hcount)]
      have hbody := hword.write 1 kMemoryChunkSize.toNat (memory.read (k * 4096) 4096) (Memory.read_length ..)
        Nat.one_pos rfl (Or.inl (by decide))
      generalize fwrite index.world index.fp 1 (memory.read (k * 4096) 4096) = body at hbody ⊢
      obtain ⟨hcount', hbody⟩ | ⟨hcount', hreach, -⟩ := hbody
      · rw [if_neg (not_not_intro hcount')]
        exact ih (k + 1) hbody
      · rw [if_pos hcount']
        exact Or.inr ⟨rfl, hreach⟩
    · rw [if_pos hcount]
      exact Or.inr ⟨rfl, hreach⟩

/-- Once both files are open, the call gets to its end when all blocks are accepted, and
its closes put in the files what they get through. -/
theorem writeMemoryImages_underway (memory : Memory) (curPage : UInt32) {memFp memSizeFp : Writer Path}
    {w : World Path} {path : Path} {reach : Option Nat} {last : Nat}
    (hmem : Underway w path [] reach last (memoryBlocks memory 0 (curPage.toNat * 16)) [] w memFp)
    (hsize : Lays [] w memSizeFp []) (hpending : memSizeFp.pending = []) (hne : path ≠ memSizeFp.path) :
    ((writeMemoryImages memory curPage memFp memSizeFp w).1 = 0 ↔
      reach.isSome = true ∧ (heldBack w.fault last 0 [4, 4]).isSome = true) ∧
    ∀ image info, reach = some image → heldBack w.fault last 0 [4, 4] = some info →
      image ≤ (sparseImage memory curPage).length ∧ info ≤ 8 ∧
      (writeMemoryImages memory curPage memFp memSizeFp w).2.files path =
        some ((sparseImage memory curPage).take ((sparseImage memory curPage).length - image +
          survivors (w.fault (last + 2)) image)) ∧
      (writeMemoryImages memory curPage memFp memSizeFp w).2.files memSizeFp.path =
        some ((sparseMetadata curPage).take (8 - info + survivors (w.fault (last + 3)) info)) := by
  have hfailed : ¬ (-1 : Int) = 0 := by decide
  have hchunks := writeMemoryChunks_underway memory 0 (curPage.toNat * 16) hmem
  have htotal : (0 + curPage.toNat * 16) * 4096 = curPage.toNat * wasmPageSize := by
    rw [wasmPageSize]
    omega
  rw [Nat.zero_mul, htotal] at hchunks
  generalize hrun : writeMemoryImages memory curPage memFp memSizeFp w = r
  obtain ⟨code, after⟩ := r
  unfold writeMemoryImages at hrun
  dsimp only at hrun ⊢
  generalize writeMemoryChunks memory (curPage.toNat * wasmPageSize) 0 memFp w = chunks at hchunks hrun
  obtain ⟨hok, hchunks⟩ | ⟨hok, rfl⟩ := hchunks
  swap
  · rw [if_pos hok] at hrun
    obtain ⟨rfl, rfl⟩ := Prod.mk.inj hrun
    exact ⟨iff_of_false hfailed fun h => Bool.noConfusion h.1, fun _ _ h => by cases h⟩
  have hdone : ¬ chunks.ok = false := by rw [hok]; exact Bool.noConfusion
  rw [if_neg hdone] at hrun
  have hwhole :
      [] ++ (chunkRecords memory 0 (curPage.toNat * 16)).flatMap recordBytes = sparseImage memory curPage := by
    rw [List.nil_append, sparseImage]
  rw [hwhole] at hchunks
  obtain ⟨hreach, -⟩ := hchunks.finished
  have hlast := hchunks.calls
  have hfault : chunks.world.fault = w.fault := hchunks.frame.fault
  -- The metadata, on the other stream.
  have hinfo : Underway chunks.world memSizeFp.path [] (heldBack w.fault last 0 [4, 4]) (last + 2) [4, 4] []
      chunks.world memSizeFp :=
    ⟨Frame.refl .., Persists.refl _, rfl, hsize.frame hchunks.frame hne.symm,
      by rw [hlast, hfault, hpending]; rfl, by rw [hlast]; rfl⟩
  generalize heldBack w.fault last 0 [4, 4] = reach' at hinfo ⊢
  have hformat := hinfo.write 4 1 (le32 kSparseMemoryFormatV1) (le32_length _) (by decide) rfl (Or.inl Nat.one_pos)
  generalize fwrite chunks.world memSizeFp 4 (le32 kSparseMemoryFormatV1) = format at hformat hrun
  obtain ⟨hcount, hformat⟩ | ⟨hcount, rfl, -⟩ := hformat
  swap
  · rw [if_pos hcount] at hrun
    obtain ⟨rfl, rfl⟩ := Prod.mk.inj hrun
    exact ⟨iff_of_false hfailed fun h => Bool.noConfusion h.2, fun _ _ _ h => by cases h⟩
  rw [if_neg (not_not_intro hcount)] at hrun
  have hpages := hformat.write 4 1 (le32 curPage) (le32_length _) (by decide) rfl (Or.inl Nat.one_pos)
  generalize fwrite format.world format.fp 4 (le32 curPage) = count at hpages hrun
  obtain ⟨hcount', hpages⟩ | ⟨hcount', rfl, -⟩ := hpages
  swap
  · rw [if_pos hcount'] at hrun
    obtain ⟨rfl, rfl⟩ := Prod.mk.inj hrun
    exact ⟨iff_of_false hfailed fun h => Bool.noConfusion h.2, fun _ _ _ h => by cases h⟩
  rw [if_neg (not_not_intro hcount')] at hrun
  have hwhole' : [] ++ le32 kSparseMemoryFormatV1 ++ le32 curPage = sparseMetadata curPage := by
    rw [List.nil_append, sparseMetadata]
  rw [hwhole'] at hpages
  obtain ⟨hreach', -⟩ := hpages.finished
  obtain ⟨rfl, rfl⟩ := Prod.mk.inj hrun
  have hboth := hchunks.close_both hpages hne
  rw [sparseMetadata_length] at hboth
  refine ⟨iff_of_true rfl ?_, hboth⟩
  rw [hreach, hreach']
  exact ⟨rfl, rfl⟩

/-! ### The outcome of a call -/

/-- What the writes of a checkpoint leave to its closes: of the image and of its metadata. -/
structure MemoryHeld (w : World Path) (memory : Memory) (curPage : UInt32) (image info : Nat) : Prop where
  memOpened : w.fault w.calls = none
  sizeOpened : w.fault (w.calls + 1) = none
  image : heldBack w.fault (w.calls + 2) 0 (memoryBlocks memory 0 (curPage.toNat * 16)) = some image
  info : heldBack w.fault (w.calls + 2 + (memoryBlocks memory 0 (curPage.toNat * 16)).length) 0 [4, 4] = some info

/-- The number of the first of the two closes. -/
def memoryLast (w : World Path) (memory : Memory) (curPage : UInt32) : Nat :=
  w.calls + 4 + (memoryBlocks memory 0 (curPage.toNat * 16)).length

/-- The closes get through what is left to them. -/
def MemoryDelivered (w : World Path) (memory : Memory) (curPage : UInt32) : Prop :=
  ∀ image info, MemoryHeld w memory curPage image info →
    Passes (w.fault (memoryLast w memory curPage)) image ∧
      Passes (w.fault (memoryLast w memory curPage + 1)) info

/-- Both files have been opened. -/
theorem MemoryHeld.opened {w : World Path} {memory : Memory} {curPage : UInt32} {image info : Nat}
    (h : MemoryHeld w memory curPage image info) (cwd : String) :
    (fopen w (memoryPath cwd)).fp ≠ none ∧
      (fopen (fopen w (memoryPath cwd)).world (pageCountPath cwd)).fp ≠ none := by
  obtain ⟨hcalls, hfault⟩ := fopen_calls w (memoryPath cwd)
  have hanswer : (fopen w (memoryPath cwd)).world.fault (fopen w (memoryPath cwd)).world.calls = none := by
    rw [hcalls, hfault]
    exact h.sizeOpened
  rw [(fopen_ok w (memoryPath cwd) h.memOpened).1, (fopen_ok _ (pageCountPath cwd) hanswer).1]
  exact ⟨Option.some_ne_none _, Option.some_ne_none _⟩

/-- When a checkpoint succeeds, and what its files then hold. -/
theorem checkpointMemory_spec (cwd : String) (memory : Memory) (curPage : UInt32) (w : World Path) :
    ((checkpointMemory cwd memory curPage w).1 = 0 ↔ ∃ image info, MemoryHeld w memory curPage image info) ∧
    ∀ image info, MemoryHeld w memory curPage image info →
      image ≤ (sparseImage memory curPage).length ∧ info ≤ 8 ∧
      (checkpointMemory cwd memory curPage w).2.files (memoryPath cwd) =
        some ((sparseImage memory curPage).take ((sparseImage memory curPage).length - image +
          survivors (w.fault (memoryLast w memory curPage)) image)) ∧
      (checkpointMemory cwd memory curPage w).2.files (pageCountPath cwd) =
        some ((sparseMetadata curPage).take (8 - info +
          survivors (w.fault (memoryLast w memory curPage + 1)) info)) := by
  have hne := memoryPath_ne cwd
  have hfailed : ¬ (-1 : Int) = 0 := by decide
  obtain ⟨hcalls, hfault⟩ := fopen_calls w (memoryPath cwd)
  have hmemPath : openImageWb w cwd "memory.img" = fopen w (memoryPath cwd) := rfl
  have hsizePath : openImageWb (fopen w (memoryPath cwd)).world cwd "mem_page_count.img" =
      fopen (fopen w (memoryPath cwd)).world (pageCountPath cwd) := rfl
  generalize hrun : checkpointMemory cwd memory curPage w = r
  obtain ⟨code, after⟩ := r
  unfold checkpointMemory at hrun
  simp only [hmemPath, hsizePath] at hrun
  dsimp only
  cases hmem : (fopen w (memoryPath cwd)).fp with
  | none =>
    have hopens : ∀ image info, ¬ MemoryHeld w memory curPage image info :=
      fun image info h => (h.opened cwd).1 hmem
    simp only [hmem] at hrun
    obtain ⟨rfl, rfl⟩ := Prod.mk.inj hrun
    exact ⟨iff_of_false hfailed fun ⟨image, info, h⟩ => hopens image info h,
      fun image info h => absurd h (hopens image info)⟩
  | some memFp =>
  cases hsize : (fopen (fopen w (memoryPath cwd)).world (pageCountPath cwd)).fp with
  | none =>
    have hopens : ∀ image info, ¬ MemoryHeld w memory curPage image info :=
      fun image info h => (h.opened cwd).2 hsize
    simp only [hmem, hsize] at hrun
    obtain ⟨rfl, rfl⟩ := Prod.mk.inj hrun
    exact ⟨iff_of_false hfailed fun ⟨image, info, h⟩ => hopens image info h,
      fun image info h => absurd h (hopens image info)⟩
  | some memSizeFp =>
    simp only [hmem, hsize] at hrun
    obtain ⟨hmemOpens, hpending, -⟩ := fopen_underway hmem []
    obtain ⟨hsizeOpens, -⟩ := fopen_underway hsize []
    obtain ⟨-, -, hopened⟩ := fopen_frame w (memoryPath cwd)
    obtain ⟨hframe', -, hopened'⟩ := fopen_frame (fopen w (memoryPath cwd)).world (pageCountPath cwd)
    obtain ⟨hcalls', hfault'⟩ := fopen_calls (fopen w (memoryPath cwd)).world (pageCountPath cwd)
    obtain ⟨hpath, -, hlays⟩ := hopened memFp hmem
    obtain ⟨hpath', hpending', hlays'⟩ := hopened' memSizeFp hsize
    have hcalls₂ : (fopen (fopen w (memoryPath cwd)).world (pageCountPath cwd)).world.calls = w.calls + 2 := by
      rw [hcalls', hcalls]
    rw [hfault] at hfault'
    rw [hcalls, hfault] at hsizeOpens
    have hunderway : Underway (fopen (fopen w (memoryPath cwd)).world (pageCountPath cwd)).world (memoryPath cwd) []
        (heldBack w.fault (w.calls + 2) 0 (memoryBlocks memory 0 (curPage.toNat * 16)))
        (w.calls + 2 + (memoryBlocks memory 0 (curPage.toNat * 16)).length)
        (memoryBlocks memory 0 (curPage.toNat * 16)) []
        (fopen (fopen w (memoryPath cwd)).world (pageCountPath cwd)).world memFp :=
      ⟨Frame.refl .., Persists.refl _, hpath, hlays.frame hframe' (hpath ▸ hne),
        by rw [hcalls₂, hfault', hpending, List.length_nil], by rw [hcalls₂]⟩
    obtain ⟨hcode, hfiles⟩ := writeMemoryImages_underway memory curPage hunderway hlays' hpending' (hpath' ▸ hne)
    have hlast : w.calls + 2 + (memoryBlocks memory 0 (curPage.toNat * 16)).length + 2 =
        memoryLast w memory curPage := by
      rw [memoryLast]
      omega
    have hlast' : w.calls + 2 + (memoryBlocks memory 0 (curPage.toNat * 16)).length + 3 =
        memoryLast w memory curPage + 1 := by
      rw [← hlast]
    rw [hfault', hrun] at hcode hfiles
    dsimp only at hcode hfiles
    constructor
    · rw [hcode]
      constructor
      · intro h
        obtain ⟨himage, hinfo⟩ := h
        obtain ⟨image, himage⟩ := Option.isSome_iff_exists.mp himage
        obtain ⟨info, hinfo⟩ := Option.isSome_iff_exists.mp hinfo
        exact ⟨image, info, hmemOpens, hsizeOpens, himage, hinfo⟩
      · intro h
        obtain ⟨image, info, h⟩ := h
        rw [h.image, h.info]
        exact ⟨rfl, rfl⟩
    · intro image info h
      have hboth := hfiles image info h.image h.info
      rw [hpath', hlast, hlast'] at hboth
      exact hboth

end Wasmig
