import Wasmig.Memory.RestoreInto

/-! The two sparse formats. A V2 image with one extent for each run of consecutive
records restores as the V1 image of the records does: an extent writes at once what its
records write one after the other (`writeAll_run`). -/
namespace Wasmig
open Base Base.Stdio

/-- The indices of the records go up by one. -/
def Consecutive (run : List (UInt32 × Bytes)) : Prop :=
  run.IsChain fun r s => s.1.toNat = r.1.toNat + 1

/-- The extent of a run of records: its first index, how many there are, their chunks. -/
def extentOf (run : List (UInt32 × Bytes)) : (UInt32 × UInt32) × Bytes :=
  (((run.headD (0, [])).1, UInt32.ofNat run.length), run.flatMap Prod.snd)

/-- The runs cut the records. -/
structure Cuts (runs : List (List (UInt32 × Bytes))) (records : List (UInt32 × Bytes)) : Prop where
  flatten : runs.flatten = records
  nonempty : ∀ run ∈ runs, run ≠ []
  consecutive : ∀ run ∈ runs, Consecutive run

/-- What a record writes to a buffer at `dst`. -/
def recordWrite (dst : Nat) (r : UInt32 × Bytes) : Nat × Bytes := (dst + r.1.toNat * 4096, r.2)

section Run
variable {pageCount : UInt32} (hpages : pageCount.toNat < 65536) {run : List (UInt32 × Bytes)}
  (hvalid : ∀ r ∈ run, r.1.toNat < pageCount.toNat * 16 ∧ r.2.length = 4096)

theorem chunk_offset {i : UInt32} (h : i.toNat < 65536 * 16) :
    (i * kMemoryChunkSize).toNat = i.toNat * 4096 := by
  rw [UInt32.toNat_mul, kMemoryChunkSize_toNat]
  exact Nat.mod_eq_of_lt (by omega)

include hvalid

theorem chunks_length : (run.flatMap Prod.snd).length = run.length * 4096 := by
  induction run with
  | nil => rfl
  | cons r run ih =>
    rw [List.flatMap_cons, List.length_append, ih fun s hs => hvalid s (List.mem_cons_of_mem _ hs),
      (hvalid r (List.mem_cons_self ..)).2, List.length_cons]
    omega

/-- A run ends below the capacity. -/
theorem run_inside (hrun : run ≠ []) (hchain : Consecutive run) :
    (run.headD (0, [])).1.toNat + run.length ≤ pageCount.toNat * 16 := by
  induction run with
  | nil => exact absurd rfl hrun
  | cons r run ih =>
    cases run with
    | nil =>
      have hr := (hvalid r (List.mem_cons_self ..)).1
      simp only [List.headD_cons, List.length_singleton]
      omega
    | cons s run =>
      obtain ⟨hstep, hchain⟩ := List.isChain_cons_cons.mp hchain
      have hrest := ih (fun t ht => hvalid t (List.mem_cons_of_mem _ ht)) (List.cons_ne_nil s run) hchain
      simp only [List.headD_cons, List.length_cons] at hrest ⊢
      omega

/-- Consecutive records write what their chunks, put together, write at the first. -/
theorem writeAll_run (dst : Nat) (base : Memory) (hchain : Consecutive run) :
    base.writeAll (run.map (recordWrite dst)) =
      base.write (dst + (run.headD (0, [])).1.toNat * 4096) (run.flatMap Prod.snd) := by
  induction run generalizing base with
  | nil => exact (Memory.write_nil base _).symm
  | cons r run ih =>
    have hr := (hvalid r (List.mem_cons_self ..)).2
    rw [List.map_cons, List.flatMap_cons, Memory.write_append, hr, List.headD_cons]
    show (base.write (dst + r.1.toNat * 4096) r.2).writeAll (run.map (recordWrite dst)) = _
    cases run with
    | nil => exact (Memory.write_nil _ _).symm
    | cons s run =>
      obtain ⟨hstep, hchain⟩ := List.isChain_cons_cons.mp hchain
      have hnext : dst + s.1.toNat * 4096 = dst + r.1.toNat * 4096 + 4096 := by omega
      rw [ih (fun t ht => hvalid t (List.mem_cons_of_mem _ ht)) _ hchain, List.headD_cons, hnext]

include hpages

theorem recordVisit_write {r : UInt32 × Bytes} (hr : r ∈ run) (dst : Nat) :
    (recordVisit r).write dst = recordWrite dst r := by
  obtain ⟨hindex, hlen⟩ := hvalid r hr
  have hoffset := chunk_offset (i := r.1) (by omega)
  have hdata : r.2.take 4096 = r.2 := List.take_of_length_le (Nat.le_of_eq hlen)
  simp only [Visit.write, recordVisit, recordWrite, hoffset, kMemoryChunkSize_toNat, hdata]

theorem extentOf_count (hrun : run ≠ []) (hchain : Consecutive run) :
    (extentOf run).1.2.toNat = run.length := by
  have hinside := run_inside hvalid hrun hchain
  show (UInt32.ofNat run.length).toNat = run.length
  rw [UInt32.toNat_ofNat']
  exact Nat.mod_eq_of_lt (by omega)

theorem extentOf_valid (hrun : run ≠ []) (hchain : Consecutive run) :
    (extentOf run).1.2 ≠ 0 ∧
      (extentOf run).1.1.toNat + (extentOf run).1.2.toNat ≤ pageCount.toNat * 16 ∧
      (extentOf run).2.length = (extentOf run).1.2.toNat * 4096 := by
  have hcount := extentOf_count hpages hvalid hrun hchain
  rw [hcount]
  refine ⟨fun h0 => ?_, run_inside hvalid hrun hchain, chunks_length hvalid⟩
  rw [h0] at hcount
  exact hrun (List.length_eq_zero_iff.mp hcount.symm)

/-- The extent of a run writes what its records write. -/
theorem extentVisit_write (hrun : run ≠ []) (hchain : Consecutive run) (dst : Nat) (base : Memory) :
    base.writeAll ((run.map recordVisit).map (Visit.write dst)) =
      base.write ((extentVisit (extentOf run)).write dst).1 ((extentVisit (extentOf run)).write dst).2 := by
  have hinside := run_inside hvalid hrun hchain
  have hcount := extentOf_count hpages hvalid hrun hchain
  have hoffset : ((run.headD (0, [])).1 * kMemoryChunkSize).toNat = (run.headD (0, [])).1.toNat * 4096 :=
    chunk_offset (by omega)
  have hlen : (UInt32.ofNat (run.length * 4096)).toNat = run.length * 4096 := by
    rw [UInt32.toNat_ofNat']
    exact Nat.mod_eq_of_lt (by omega)
  have hdata : (run.flatMap Prod.snd).take (run.length * 4096) = run.flatMap Prod.snd :=
    List.take_of_length_le (Nat.le_of_eq (chunks_length hvalid))
  have hrecords : (run.map recordVisit).map (Visit.write dst) = run.map (recordWrite dst) := by
    rw [List.map_map]
    exact List.map_congr_left fun r hr => recordVisit_write hpages hvalid hr dst
  rw [hrecords, writeAll_run hvalid dst base hchain]
  simp only [Visit.write, extentVisit, hcount, kMemoryChunkSize_toNat, hlen]
  rw [← hdata, ← hoffset]
  simp only [extentOf, hdata]

end Run

/-- Writing run by run. -/
theorem writeAll_runs {pageCount : UInt32} (hpages : pageCount.toNat < 65536)
    (runs : List (List (UInt32 × Bytes))) (dst : Nat) (base : Memory)
    (hvalid : ∀ run ∈ runs, ∀ r ∈ run, r.1.toNat < pageCount.toNat * 16 ∧ r.2.length = 4096)
    (hrun : ∀ run ∈ runs, run ≠ []) (hchain : ∀ run ∈ runs, Consecutive run) :
    base.writeAll ((runs.flatten.map recordVisit).map (Visit.write dst)) =
      base.writeAll (((runs.map extentOf).map extentVisit).map (Visit.write dst)) := by
  induction runs generalizing base with
  | nil => rfl
  | cons run runs ih =>
    rw [List.flatten_cons, List.map_append, List.map_append, Memory.writeAll_append,
      extentVisit_write hpages (hvalid run (List.mem_cons_self ..)) (hrun run (List.mem_cons_self ..))
        (hchain run (List.mem_cons_self ..)),
      ih _ (fun r hr => hvalid r (List.mem_cons_of_mem _ hr)) (fun r hr => hrun r (List.mem_cons_of_mem _ hr))
        (fun r hr => hchain r (List.mem_cons_of_mem _ hr))]
    rfl

/-- For memories below 4 GiB, the V1 image of any records and the V2 image of any way to
cut them into runs both restore, and to the same memory: the one before with the records
written over it in their order. -/
theorem restore_records_extents {pageCount : UInt32} (hpages : pageCount.toNat * 65536 < 2 ^ 32)
    {records : List (UInt32 × Bytes)} {runs : List (List (UInt32 × Bytes))}
    (hvalid : ∀ r ∈ records, r.1.toNat < pageCount.toNat * 16 ∧ r.2.length = 4096)
    (hcuts : Cuts runs records) {dirV1 dirV2 : Directory}
    (hinfoV1 : dirV1 "mem_page_count.img" = some (le32 kSparseMemoryFormatV1 ++ le32 pageCount))
    (himageV1 : dirV1 "memory.img" = some (records.flatMap recordBytes))
    (hinfoV2 : dirV2 "mem_page_count.img" = some (le32 kSparseMemoryFormatV2 ++ le32 pageCount))
    (himageV2 : dirV2 "memory.img" = some ((runs.map extentOf).flatMap extentBytes))
    {dst dstSize : Nat} (hdst : dst = 0 → dstSize = 0) (hlarge : pageCount.toNat * 65536 ≤ dstSize) (ram : Ram) :
    ∃ afterV1 afterV2, restoreMemoryInto dirV1 dst dstSize ram = (0, afterV1) ∧
      restoreMemoryInto dirV2 dst dstSize ram = (0, afterV2) ∧ afterV1.bytes = afterV2.bytes ∧
      afterV1.bytes = ram.bytes.writeAll (records.map (recordWrite dst)) := by
  have hp : pageCount.toNat < 65536 := by omega
  have hmember : ∀ run ∈ runs, ∀ r ∈ run, r.1.toNat < pageCount.toNat * 16 ∧ r.2.length = 4096 := by
    intro run hrun r hr
    apply hvalid r
    rw [← hcuts.flatten]
    exact List.mem_flatten_of_mem hrun hr
  have hV1 : memoryImageInfo dirV1 = some (sparseInfo kSparseMemoryFormatV1 pageCount) :=
    (memoryImageInfo_iff dirV1 _).mpr ⟨Or.inl rfl, hinfoV1⟩
  have hV2 : memoryImageInfo dirV2 = some (sparseInfo kSparseMemoryFormatV2 pageCount) :=
    (memoryImageInfo_iff dirV2 _).mpr ⟨Or.inr rfl, hinfoV2⟩
  have hextents : ∀ e ∈ runs.map extentOf, e.1.2 ≠ 0 ∧
      e.1.1.toNat + e.1.2.toNat ≤ pageCount.toNat * 16 ∧ e.2.length = e.1.2.toNat * 4096 := by
    intro e he
    obtain ⟨run, hrun, rfl⟩ := List.mem_map.mp he
    exact extentOf_valid hp (hmember run hrun) (hcuts.nonempty run hrun) (hcuts.consecutive run hrun)
  rw [restoreMemoryInto_ready ⟨hV1, hdst, hlarge⟩, restoreMemoryInto_ready ⟨hV2, hdst, hlarge⟩,
    directoryTranscript_records himageV1 hV1 hvalid, directoryTranscript_extents himageV2 hV2 hextents]
  refine ⟨_, _, rfl, rfl, ?_, ?_⟩
  · show ram.bytes.writeAll _ = ram.bytes.writeAll _
    rw [← hcuts.flatten]
    exact writeAll_runs hp runs dst ram.bytes hmember hcuts.nonempty hcuts.consecutive
  · show ram.bytes.writeAll _ = _
    rw [List.map_map]
    congr 1
    exact List.map_congr_left fun r hr => recordVisit_write hp hvalid hr dst

/-- Two neighbouring chunks, and then the first of them again. -/
def threeRecords : List (UInt32 × Bytes) :=
  [(0, Memory.read (fun _ => 1) 0 4096), (1, Memory.read (fun _ => 2) 0 4096),
    (0, Memory.read (fun _ => 3) 0 4096)]

/-- The neighbours in one run. -/
def twoRuns : List (List (UInt32 × Bytes)) := [threeRecords.take 2, threeRecords.drop 2]

theorem restore_records_extents_three :
    ∃ afterV1 afterV2,
      restoreMemoryInto (images (le32 kSparseMemoryFormatV1 ++ le32 1) (threeRecords.flatMap recordBytes))
        1 65536 ⟨fun _ => 9, []⟩ = (0, afterV1) ∧
      restoreMemoryInto
        (images (le32 kSparseMemoryFormatV2 ++ le32 1) ((twoRuns.map extentOf).flatMap extentBytes))
        1 65536 ⟨fun _ => 9, []⟩ = (0, afterV2) ∧
      afterV1.bytes = afterV2.bytes ∧ afterV1.bytes 4096 = 3 ∧ afterV1.bytes 8192 = 2 ∧ afterV1.bytes 8193 = 9 := by
  have hvalid : ∀ r ∈ threeRecords, r.1.toNat < (1 : UInt32).toNat * 16 ∧ r.2.length = 4096 := by
    simp [threeRecords]
  have hcuts : Cuts twoRuns threeRecords := by
    refine ⟨rfl, ?_, ?_⟩
    · simp [twoRuns, threeRecords]
    · simp [twoRuns, threeRecords, Consecutive]
  obtain ⟨afterV1, afterV2, hV1, hV2, hsame, hbytes⟩ := restore_records_extents (by decide) hvalid hcuts
    (images_info ..) (images_image ..) (images_info ..) (images_image ..) (show 1 = 0 → 65536 = 0 by decide)
    (by decide) ⟨fun _ => 9, []⟩
  refine ⟨afterV1, afterV2, hV1, hV2, hsame, ?_⟩
  have hrecords : threeRecords.map (recordWrite 1) = [(1, Memory.read (fun _ => 1) 0 4096),
      (4097, Memory.read (fun _ => 2) 0 4096), (1, Memory.read (fun _ => 3) 0 4096)] := by
    simp only [threeRecords, recordWrite, List.map_cons, List.map_nil]
    rfl
  rw [hrecords, Memory.writeAll, List.foldl_cons, List.foldl_cons, List.foldl_cons, List.foldl_nil] at hbytes
  dsimp only at hbytes
  have hinside : ∀ (base : Memory) (a i : Nat) (v : UInt8), i < 4096 →
      base.write a (Memory.read (fun _ => v) 0 4096) (a + i) = v := fun base a i v hi =>
    (Memory.write_inside base a _ i (by rwa [Memory.read_length])).trans (Memory.read_getD _ 0 4096 i hi)
  rw [hbytes]
  refine ⟨hinside _ 1 4095 3 (by decide), ?_, ?_⟩
  · rw [Memory.write_outside _ 1 _ 8192 (Or.inr (by simp [Memory.read_length]))]
    exact hinside _ 4097 4095 2 (by decide)
  · rw [Memory.write_outside _ 1 _ 8193 (Or.inr (by simp [Memory.read_length])),
      Memory.write_outside _ 4097 _ 8193 (Or.inr (by simp [Memory.read_length])),
      Memory.write_outside _ 1 _ 8193 (Or.inr (by simp [Memory.read_length]))]

end Wasmig
