import Wasmig.Memory.Readers

/-! `wasmig_restore_memory_into` as the copies it makes.

Every visit of an image lies in the memory its metadata declares and copies no more
than its buffer holds (`directoryTranscript_within`), although offsets and lengths wrap
at 32 bits: wrapping only makes them smaller. So the visitor of a restore never
refuses, and a restore whose destination is large enough copies all visits
(`restoreMemoryInto_ready`), or the first of them if a call on the files fails
(`restoreMemoryIntoOrFail_ready`); any other one does nothing (`restoreMemoryInto_refused`). -/
namespace Wasmig
open Base Base.Stdio Base.Stopping

/-- The bytes an image of these pages declares. -/
def WasmigMemoryImageInfo.totalSize (info : WasmigMemoryImageInfo) : Nat :=
  info.pageCount.toNat * wasmPageSize

/-- The visit lies in the first `bound` bytes, and its buffer holds what it copies. -/
structure Visit.Within (bound : Nat) (v : Visit) : Prop where
  inside : v.offset.toNat + v.len.toNat ≤ bound
  available : v.len.toNat ≤ v.data.length

theorem mul_chunkSize_le (i : UInt32) : (i * kMemoryChunkSize).toNat ≤ i.toNat * 4096 := by
  rw [UInt32.toNat_mul, kMemoryChunkSize_toNat]
  exact Nat.mod_le ..

theorem recordVisit_within {info : WasmigMemoryImageInfo} {r : UInt32 × Bytes}
    (h : (recordCodec info.chunkCapacity).Valid r) : (recordVisit r).Within info.totalSize := by
  obtain ⟨hi, hbody⟩ := (recordCodec_valid info r).mp h
  have hmul := mul_chunkSize_le r.1
  refine ⟨?_, ?_⟩
  · show (r.1 * kMemoryChunkSize).toNat + kMemoryChunkSize.toNat ≤ info.pageCount.toNat * wasmPageSize
    rw [kMemoryChunkSize_toNat, wasmPageSize]
    omega
  · show kMemoryChunkSize.toNat ≤ r.2.length
    rw [kMemoryChunkSize_toNat]
    omega

theorem extentVisit_within {info : WasmigMemoryImageInfo} {e : (UInt32 × UInt32) × Bytes}
    (h : (extentCodec info.chunkCapacity).Valid e) : (extentVisit e).Within info.totalSize := by
  obtain ⟨-, hle, hbody⟩ := (extentCodec_valid info e).mp h
  have hmul := mul_chunkSize_le e.1.1
  have hwrap : (UInt32.ofNat (e.1.2.toNat * kMemoryChunkSize.toNat)).toNat ≤ e.1.2.toNat * 4096 := by
    rw [UInt32.toNat_ofNat', kMemoryChunkSize_toNat]
    exact Nat.mod_le ..
  refine ⟨?_, ?_⟩
  · show (e.1.1 * kMemoryChunkSize).toNat + (UInt32.ofNat (e.1.2.toNat * kMemoryChunkSize.toNat)).toNat ≤
      info.pageCount.toNat * wasmPageSize
    rw [wasmPageSize]
    omega
  · show (UInt32.ofNat (e.1.2.toNat * kMemoryChunkSize.toNat)).toNat ≤ e.2.length
    omega

theorem denseVisit_within {info : WasmigMemoryImageInfo} {image : Bytes} {k : Nat}
    (hlen : image.length = info.totalSize) (hk : k < info.pageCount.toNat * 16) :
    (denseVisit image k).Within info.totalSize := by
  have hoffset : (UInt32.ofNat (k * kMemoryChunkSize.toNat)).toNat ≤ k * 4096 := by
    rw [UInt32.toNat_ofNat', kMemoryChunkSize_toNat]
    exact Nat.mod_le ..
  rw [WasmigMemoryImageInfo.totalSize, wasmPageSize] at hlen ⊢
  refine ⟨?_, ?_⟩
  · show (UInt32.ofNat (k * kMemoryChunkSize.toNat)).toNat + 4096 ≤ _
    omega
  · show kMemoryChunkSize.toNat ≤
      ((image.drop (k * kMemoryChunkSize.toNat)).take kMemoryChunkSize.toNat).length
    rw [List.length_take, List.length_drop, kMemoryChunkSize_toNat]
    omega

/-- What is visited of an image lies in the memory its metadata declares. -/
theorem imageTranscript_within (info : WasmigMemoryImageInfo) (image : Bytes) :
    ∀ v ∈ (imageTranscript info image).visits, v.Within info.totalSize := by
  intro v hv
  unfold imageTranscript at hv
  by_cases hs : info.sparseFormat = false
  · rw [if_pos hs, denseTranscript] at hv
    by_cases hlen : image.length = info.pageCount.toNat * wasmPageSize
    · rw [if_pos hlen] at hv
      obtain ⟨k, hk, rfl⟩ := List.mem_map.mp hv
      exact denseVisit_within hlen (List.mem_range.mp hk)
    · rw [if_neg hlen] at hv
      cases hv
  rw [if_neg hs] at hv
  by_cases hformat : info.format = kSparseMemoryFormatV1
  · rw [if_pos hformat] at hv
    obtain ⟨r, hr, rfl⟩ := List.mem_map.mp hv
    exact recordVisit_within
      (((recordCodec info.chunkCapacity).scan_exact (recordCodec_consumes _) image).2 r hr)
  · rw [if_neg hformat] at hv
    obtain ⟨e, he, rfl⟩ := List.mem_map.mp hv
    exact extentVisit_within
      (((extentCodec info.chunkCapacity).scan_exact (extentCodec_consumes _) image).2 e he)

theorem directoryTranscript_within {dir : Directory} {info : WasmigMemoryImageInfo}
    (h : memoryImageInfo dir = some info) :
    ∀ v ∈ (directoryTranscript dir).visits, v.Within info.totalSize := by
  unfold directoryTranscript
  rw [h]
  cases dir "memory.img" with
  | none =>
    intro v hv
    cases hv
  | some image => exact imageTranscript_within info image

/-! ### Copying the visits -/

/-- What a visit writes into a buffer at `dst`. -/
def Visit.write (dst : Nat) (v : Visit) : Nat × Bytes := (dst + v.offset.toNat, v.data.take v.len.toNat)

/-- The copy a visit is for a buffer at `dst`. -/
def Visit.copy (dst : Nat) (v : Visit) : Copy := ⟨dst + v.offset.toNat, v.data.length, v.len.toNat⟩

/-- The memory after all visits have been copied to `dst`. -/
def copyVisits (dst : Nat) (visits : List Visit) (ram : Ram) : Ram :=
  { bytes := ram.bytes.writeAll (visits.map (Visit.write dst))
    copies := (visits.map (Visit.copy dst)).reverse ++ ram.copies }

theorem copyVisits_cons (dst : Nat) (v : Visit) (visits : List Visit) (ram : Ram) :
    copyVisits dst visits (ram.memcpy (dst + v.offset.toNat) v.data v.len.toNat) =
      copyVisits dst (v :: visits) ram := by
  simp only [copyVisits, Ram.memcpy, List.map_cons, List.reverse_cons, List.append_assoc, List.singleton_append]
  rfl

/-- A visit that fits is copied. -/
theorem restoreVisitor_within {dst dstSize : Nat} {v : Visit} (h : v.Within dstSize) (ram : Ram) :
    restoreVisitor dst dstSize v.offset v.data v.len ram =
      (0, ram.memcpy (dst + v.offset.toNat) v.data v.len.toNat) := if_neg (Nat.not_lt.mpr h.inside)

theorem visitAll_restore (dst dstSize : Nat) (visits : List Visit) (ram : Ram)
    (h : ∀ v ∈ visits, v.Within dstSize) :
    visitAll (restoreVisitor dst dstSize) visits ram = (0, copyVisits dst visits ram) := by
  induction visits generalizing ram with
  | nil => rfl
  | cons v visits ih =>
    obtain ⟨hv, hvisits⟩ := List.forall_mem_cons.mp h
    unfold visitAll
    rw [restoreVisitor_within hv]
    show visitAll (restoreVisitor dst dstSize) visits _ = _
    rw [ih _ hvisits, copyVisits_cons]

/-- The destination is there and large enough for the memory the images declare. -/
structure Ready (dir : Directory) (dst dstSize : Nat) (info : WasmigMemoryImageInfo) : Prop where
  valid : memoryImageInfo dir = some info
  destination : dst = 0 → dstSize = 0
  large : info.totalSize ≤ dstSize

/-- A visitor that has copied all visits so far has copied what they write. -/
theorem after_restore {dst dstSize : Nat} {visits : List Visit} {ram : Ram}
    (h : ∀ v ∈ visits, v.Within dstSize) :
    after (restoreVisitor dst dstSize).told visits ram = copyVisits dst visits ram := by
  induction visits generalizing ram with
  | nil => rfl
  | cons v visits ih =>
    obtain ⟨hv, hvisits⟩ := List.forall_mem_cons.mp h
    show after _ visits (restoreVisitor dst dstSize v.offset v.data v.len ram).2 = _
    rw [restoreVisitor_within hv, ih hvisits, copyVisits_cons]

/-- Nothing has been copied, or the first of what there is to copy. -/
def CopiedSome (dir : Directory) (dst dstSize : Nat) (ram after : Ram) : Prop :=
  after = ram ∨ ∃ info visits, Ready dir dst dstSize info ∧ visits <+: (directoryTranscript dir).visits ∧
    after = copyVisits dst visits ram

section
variable {dir : Directory} {dst dstSize : Nat}

/-- A restore that is ready copies what there is to visit. If a call fails it returns -1. -/
theorem restoreMemoryIntoOrFail_ready {info : WasmigMemoryImageInfo} (h : Ready dir dst dstSize info) (ram : Ram)
    (f : Faults) :
    Tried f (restoreMemoryIntoOrFail dir dst dstSize ram f)
      (if (directoryTranscript dir).accepted then 0 else -1, copyVisits dst (directoryTranscript dir).visits ram)
      fun r => r.1 = -1 ∧ CopiedSome dir dst dstSize ram r.2 := by
  have hlarge : ¬ dstSize < info.pageCount.toNat * wasmPageSize := Nat.not_lt.mpr h.large
  have hdst : ¬ (dst = 0 ∧ dstSize ≠ 0) := fun ⟨h0, hne⟩ => hne (h.destination h0)
  have hwithin : ∀ v ∈ (directoryTranscript dir).visits, v.Within dstSize := fun v hv =>
    ⟨Nat.le_trans (directoryTranscript_within h.valid v hv).inside h.large,
      (directoryTranscript_within h.valid v hv).available⟩
  have hrun : (directoryTranscript dir).run (restoreVisitor dst dstSize) ram =
      (if (directoryTranscript dir).accepted then 0 else -1, copyVisits dst (directoryTranscript dir).visits ram) := by
    rw [Transcript.run, visitAll_restore dst dstSize _ ram hwithin]
    rfl
  unfold restoreMemoryIntoOrFail
  rw [if_neg hdst]
  refine (memoryImageInfoOrFail_tried dir f).andThen ?_ ?_
  · obtain ⟨found, f⟩ := memoryImageInfoOrFail dir f
    rintro (rfl : found = _)
    rw [h.valid]
    simp only [mulOverflow_pages]
    rw [if_neg hlarge]
    refine (visitMemoryChunksOrFail_tried (restoreVisitor dst dstSize) dir ram f).congr hrun ?_
    rintro r ⟨visits, hinitial, -, rfl⟩
    exact ⟨rfl, .inr ⟨info, visits, h, hinitial, after_restore fun v hv => hwithin v (hinitial.subset hv)⟩⟩
  · obtain ⟨found, f⟩ := memoryImageInfoOrFail dir f
    rintro (rfl : found = none)
    exact ⟨Faults.Ahead.refl _, rfl, .inl rfl⟩

/-- A restore that is not ready returns -1 and touches nothing. -/
theorem restoreMemoryIntoOrFail_refused (h : ∀ info, ¬ Ready dir dst dstSize info) (ram : Ram) (f : Faults) :
    Tried f (restoreMemoryIntoOrFail dir dst dstSize ram f) (-1, ram) (· = (-1, ram)) := by
  unfold restoreMemoryIntoOrFail
  by_cases hdst : dst = 0 ∧ dstSize ≠ 0
  · rw [if_pos hdst]
    exact Tried.done _ _
  rw [if_neg hdst]
  refine (memoryImageInfoOrFail_tried dir f).andThen ?_ ?_
  · obtain ⟨found, f⟩ := memoryImageInfoOrFail dir f
    rintro (rfl : found = _)
    cases hinfo : memoryImageInfo dir with
    | none => exact Tried.done _ _
    | some info =>
      have hsmall : dstSize < info.pageCount.toNat * wasmPageSize := by
        by_contra hlarge
        refine h info ⟨hinfo, fun h0 => ?_, Nat.not_lt.mp hlarge⟩
        by_contra hne
        exact hdst ⟨h0, hne⟩
      simp only [mulOverflow_pages]
      rw [if_pos hsmall]
      exact Tried.done _ _
  · obtain ⟨found, f⟩ := memoryImageInfoOrFail dir f
    rintro (rfl : found = none)
    exact ⟨Faults.Ahead.refl _, rfl⟩

/-- Without failures, it copies all. -/
theorem restoreMemoryInto_ready {info : WasmigMemoryImageInfo} (h : Ready dir dst dstSize info) (ram : Ram) :
    restoreMemoryInto dir dst dstSize ram =
      (if (directoryTranscript dir).accepted then 0 else -1,
        copyVisits dst (directoryTranscript dir).visits ram) :=
  (restoreMemoryIntoOrFail_ready h ram .never).never

theorem restoreMemoryInto_refused (h : ∀ info, ¬ Ready dir dst dstSize info) (ram : Ram) :
    restoreMemoryInto dir dst dstSize ram = (-1, ram) :=
  (restoreMemoryIntoOrFail_refused h ram .never).never

/-- A restore does what it does without failures, or copies the first of it and returns -1. -/
theorem restoreMemoryIntoOrFail_tried (dir : Directory) (dst dstSize : Nat) (ram : Ram) (f : Faults) :
    Tried f (restoreMemoryIntoOrFail dir dst dstSize ram f) (restoreMemoryInto dir dst dstSize ram)
      fun r => r.1 = -1 ∧ CopiedSome dir dst dstSize ram r.2 := by
  by_cases hready : ∃ info, Ready dir dst dstSize info
  · obtain ⟨info, h⟩ := hready
    rw [restoreMemoryInto_ready h]
    exact restoreMemoryIntoOrFail_ready h ram f
  · have hrefused : ∀ info, ¬ Ready dir dst dstSize info := fun info h => hready ⟨info, h⟩
    rw [restoreMemoryInto_refused hrefused]
    refine (restoreMemoryIntoOrFail_refused hrefused ram f).congr rfl ?_
    rintro r rfl
    exact ⟨rfl, .inl rfl⟩

end

/-! ### Where a restore writes -/

/-- The copy stays in the first `bound` bytes at `dst` and reads only what its source
buffer holds. -/
structure Stays (dst bound : Nat) (c : Copy) : Prop where
  start : dst ≤ c.dst
  stop : c.dst + c.len ≤ dst + bound
  available : c.len ≤ c.available

/-- On any image, a restore copies only within its destination and the memory declared
by the metadata, never more than a buffer holds, and changes no other byte; without
valid metadata or with a destination too small for it, it copies nothing. -/
theorem restoreMemoryInto_bounds (dir : Directory) (dst dstSize : Nat) (ram : Ram) :
    (∃ made, (restoreMemoryInto dir dst dstSize ram).2.copies = made ++ ram.copies ∧
      ∀ c ∈ made, ∃ info, memoryImageInfo dir = some info ∧
        Stays dst (min dstSize (info.pageCount.toNat * wasmPageSize)) c) ∧
    (∀ x, (∀ info, memoryImageInfo dir = some info →
        x < dst ∨ dst + min dstSize (info.pageCount.toNat * wasmPageSize) ≤ x) →
      (restoreMemoryInto dir dst dstSize ram).2.bytes x = ram.bytes x) ∧
    ((∀ info, memoryImageInfo dir = some info → dstSize < info.pageCount.toNat * wasmPageSize) →
      restoreMemoryInto dir dst dstSize ram = (-1, ram)) := by
  by_cases hready : ∃ info, Ready dir dst dstSize info
  · obtain ⟨info, h⟩ := hready
    have hmin : min dstSize (info.pageCount.toNat * wasmPageSize) = info.totalSize :=
      Nat.min_eq_right h.large
    rw [restoreMemoryInto_ready h]
    refine ⟨⟨_, rfl, ?_⟩, ?_, ?_⟩
    · intro c hc
      obtain ⟨v, hv, rfl⟩ := List.mem_map.mp (List.mem_reverse.mp hc)
      have hwithin := directoryTranscript_within h.valid v hv
      have hinside := hwithin.inside
      refine ⟨info, h.valid, Nat.le_add_right .., ?_, hwithin.available⟩
      rw [hmin]
      show dst + v.offset.toNat + v.len.toNat ≤ _
      omega
    · intro x hx
      specialize hx info h.valid
      rw [hmin] at hx
      apply Memory.writeAll_outside
      intro w hw
      obtain ⟨v, hv, rfl⟩ := List.mem_map.mp hw
      have hinside := (directoryTranscript_within h.valid v hv).inside
      intro h
      obtain ⟨hlo, hhi⟩ := h
      have hlen : ((v.data.take v.len.toNat)).length ≤ v.len.toNat := List.length_take_le ..
      have hlo' : dst + v.offset.toNat ≤ x := hlo
      have hhi' : x < dst + v.offset.toNat + (v.data.take v.len.toNat).length := hhi
      omega
    · intro hsmall
      have := hsmall info h.valid
      have hlarge := h.large
      unfold WasmigMemoryImageInfo.totalSize at hlarge
      omega
  · rw [restoreMemoryInto_refused (fun info h => hready ⟨info, h⟩)]
    exact ⟨⟨[], rfl, fun c hc => by cases hc⟩, fun _ _ => rfl, fun _ => rfl⟩

end Wasmig
