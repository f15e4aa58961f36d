import Wasmig.Memory.Acceptance
import Mathlib.Data.List.Forall2

/-! Where the visits of an accepted image are.

An image is made of pieces: the chunks of a legacy image, the records or the extents of
a sparse one. `directoryPieces` is what an image holds, with unbounded numbers, and
`visitorCalls` is what a visitor is told about it, in 32 bits. Offsets and lengths are
narrowed without a check: a piece from chunk `2 ^ 20` on, the first at 4 GiB, is
reported too low, and one of `2 ^ 20` chunks too short (`visitorCalls_exact_iff`). -/
namespace Wasmig
open Base Base.Stdio

/-! ### What an image holds -/

/-- A piece of a memory: the chunk it starts at, the chunks it covers, their bytes. -/
structure Piece where
  start : Nat
  count : Nat
  payload : Bytes
deriving DecidableEq

def recordPiece (r : UInt32 × Bytes) : Piece := ⟨r.1.toNat, 1, r.2⟩

def extentPiece (e : (UInt32 × UInt32) × Bytes) : Piece := ⟨e.1.1.toNat, e.1.2.toNat, e.2⟩

/-- The chunk `k` of a legacy image. -/
def densePiece (image : Bytes) (k : Nat) : Piece :=
  ⟨k, 1, (image.drop (k * kMemoryChunkSize.toNat)).take kMemoryChunkSize.toNat⟩

/-- The pieces of the complete records of an image. -/
def recordPieces (cap : Nat) (image : Bytes) : List Piece :=
  ((recordCodec cap).scan (recordCodec_consumes cap) image).1.map recordPiece

/-- The pieces of its complete extents. -/
def extentPieces (cap : Nat) (image : Bytes) : List Piece :=
  ((extentCodec cap).scan (extentCodec_consumes cap) image).1.map extentPiece

/-- The pieces of an image of the format its metadata gives. -/
def imagePieces (info : WasmigMemoryImageInfo) (image : Bytes) : List Piece :=
  if info.sparseFormat = false then (List.range (info.pageCount.toNat * 16)).map (densePiece image)
  else if info.format = kSparseMemoryFormatV1 then recordPieces info.chunkCapacity image
  else extentPieces info.chunkCapacity image

/-- The pieces of the images in a directory. -/
def directoryPieces (dir : Directory) : List Piece :=
  match dir "memory.img", memoryImageInfo dir with
  | some image, some info => imagePieces info image
  | _, _ => []

/-! ### What a visitor is told -/

section Calls
variable {σ : Type}

/-- The visitor, with every call written down after those before. -/
def recording (visitor : Visitor σ) : Visitor (σ × List Visit) := fun offset data len s =>
  ((visitor offset data len s.1).1, (visitor offset data len s.1).2, s.2 ++ [⟨offset, data, len⟩])

/-- The calls `wasmig_visit_memory_chunks` makes to a visitor. -/
def visitorCalls (dir : Directory) (visitor : Visitor σ) (s : σ) : List Visit :=
  (visitMemoryChunks dir (recording visitor) (s, [])).2.2

theorem visitAll_recording (visitor : Visitor σ) (visits : List Visit) (s : σ) (calls : List Visit) :
    (visitAll (recording visitor) visits (s, calls)).1 = (visitAll visitor visits s).1 ∧
      (visitAll (recording visitor) visits (s, calls)).2.1 = (visitAll visitor visits s).2 := by
  induction visits generalizing s calls with
  | nil => exact ⟨rfl, rfl⟩
  | cons v visits ih =>
    by_cases hcode : (visitor v.offset v.data v.len s).1 ≠ 0
    · have hcall : (recording visitor v.offset v.data v.len (s, calls)).1 ≠ 0 := hcode
      simp only [visitAll, if_pos hcode, if_pos hcall]
      exact ⟨trivial, rfl⟩
    · have hcall : ¬ (recording visitor v.offset v.data v.len (s, calls)).1 ≠ 0 := hcode
      simp only [visitAll, if_neg hcode, if_neg hcall]
      exact ih _ _

/-- Writing the calls down changes neither the code nor what the visitor does. -/
theorem visitMemoryChunks_recording (dir : Directory) (visitor : Visitor σ) (s : σ) (calls : List Visit) :
    (visitMemoryChunks dir (recording visitor) (s, calls)).1 = (visitMemoryChunks dir visitor s).1 ∧
      (visitMemoryChunks dir (recording visitor) (s, calls)).2.1 = (visitMemoryChunks dir visitor s).2 := by
  obtain ⟨hcode, hstate⟩ := visitAll_recording visitor (directoryTranscript dir).visits s calls
  rw [visitMemoryChunks_eq, visitMemoryChunks_eq]
  unfold Transcript.run
  by_cases h : (visitAll visitor (directoryTranscript dir).visits s).1 ≠ 0
  · simp only [if_pos h, if_pos (hcode ▸ h)]
    exact ⟨trivial, hstate⟩
  · simp only [if_neg h, if_neg (hcode ▸ h)]
    exact ⟨trivial, hstate⟩

/-- A visitor that never fails is called for every visit. -/
theorem visitAll_calls {visitor : Visitor σ} (hv : ∀ offset data len s, (visitor offset data len s).1 = 0)
    (visits : List Visit) (s : σ) (calls : List Visit) :
    (visitAll (recording visitor) visits (s, calls)).1 = 0 ∧
      (visitAll (recording visitor) visits (s, calls)).2.2 = calls ++ visits := by
  induction visits generalizing s calls with
  | nil => exact ⟨rfl, (List.append_nil _).symm⟩
  | cons v visits ih =>
    obtain ⟨hcode, hcalls⟩ := ih (visitor v.offset v.data v.len s).2 (calls ++ [v])
    have hcall : (recording visitor v.offset v.data v.len (s, calls)).1 = 0 := hv ..
    simp only [visitAll, if_neg (not_not_intro hcall)]
    refine ⟨hcode, hcalls.trans ?_⟩
    simp

theorem visitorCalls_eq {visitor : Visitor σ} (hv : ∀ offset data len s, (visitor offset data len s).1 = 0)
    (dir : Directory) (s : σ) :
    visitorCalls dir visitor s = (directoryTranscript dir).visits := by
  obtain ⟨hcode, hcalls⟩ := visitAll_calls hv (directoryTranscript dir).visits s []
  simp only [visitorCalls, visitMemoryChunks_eq, Transcript.run, if_neg (not_not_intro hcode), hcalls,
    List.nil_append]

end Calls

/-! ### Exact positions -/

/-- The call of a visitor for a piece, with no bit of its place lost. -/
structure Exact (v : Visit) (p : Piece) : Prop where
  offset : v.offset.toNat = 4096 * p.start
  len : v.len.toNat = 4096 * p.count
  data : v.data = p.payload
  whole : p.payload.length = 4096 * p.count

/-- The piece's offset and its length fit in 32 bits. -/
structure Piece.Fits (p : Piece) : Prop where
  start : p.start < 2 ^ 20
  count : p.count < 2 ^ 20

/-- The visit made for a piece. -/
def Piece.visit (p : Piece) : Visit :=
  ⟨UInt32.ofNat (4096 * p.start), p.payload, UInt32.ofNat (4096 * p.count)⟩

/-- A multiple of 4096 survives the narrowing when it is below 4 GiB. -/
theorem narrowed_iff (n : Nat) : (UInt32.ofNat (4096 * n)).toNat = 4096 * n ↔ n < 2 ^ 20 := by
  rw [UInt32.toNat_ofNat']
  omega

theorem Piece.exact_iff {p : Piece} (hwhole : p.payload.length = 4096 * p.count) :
    Exact p.visit p ↔ p.Fits := by
  constructor
  · intro h
    exact ⟨(narrowed_iff _).mp h.offset, (narrowed_iff _).mp h.len⟩
  · intro h
    exact ⟨(narrowed_iff _).mpr h.start, (narrowed_iff _).mpr h.count, rfl, hwhole⟩

theorem recordVisit_piece (r : UInt32 × Bytes) : recordVisit r = (recordPiece r).visit := by
  have hoffset : r.1 * kMemoryChunkSize = UInt32.ofNat (4096 * r.1.toNat) := by
    rw [UInt32.ofNat_mul, UInt32.ofNat_toNat, UInt32.mul_comm]
    rfl
  rw [recordVisit, hoffset]
  rfl

theorem extentVisit_piece (e : (UInt32 × UInt32) × Bytes) : extentVisit e = (extentPiece e).visit := by
  have hoffset : e.1.1 * kMemoryChunkSize = UInt32.ofNat (4096 * e.1.1.toNat) := by
    rw [UInt32.ofNat_mul, UInt32.ofNat_toNat, UInt32.mul_comm]
    rfl
  rw [extentVisit, hoffset, kMemoryChunkSize_toNat, Nat.mul_comm e.1.2.toNat]
  rfl

theorem denseVisit_piece (image : Bytes) (k : Nat) : denseVisit image k = (densePiece image k).visit := by
  simp only [denseVisit, densePiece, Piece.visit, kMemoryChunkSize_toNat, Nat.mul_comm k]
  rfl

/-- An accepted image is visited piece by piece, and every piece is as long as it says. -/
theorem imageTranscript_pieces {info : WasmigMemoryImageInfo} {image : Bytes}
    (h : (imageTranscript info image).accepted = true) :
    (imageTranscript info image).visits = (imagePieces info image).map Piece.visit ∧
      ∀ p ∈ imagePieces info image, p.payload.length = 4096 * p.count := by
  have haccepted := (imageTranscript_accepted info image).mp h
  unfold imageTranscript imagePieces recordPieces extentPieces
  by_cases hs : info.sparseFormat = false
  · rw [if_pos hs] at haccepted
    simp only [if_pos hs, denseTranscript, if_pos haccepted, List.map_map]
    constructor
    · apply List.map_congr_left
      intro k _
      exact denseVisit_piece image k
    · intro p hp
      obtain ⟨k, hk, rfl⟩ := List.mem_map.mp hp
      have hlt := List.mem_range.mp hk
      rw [wasmPageSize] at haccepted
      simp only [densePiece, List.length_take, List.length_drop, kMemoryChunkSize_toNat]
      omega
  by_cases hformat : info.format = kSparseMemoryFormatV1
  · simp only [if_neg hs, if_pos hformat, sparseTranscript, List.map_map]
    constructor
    · apply List.map_congr_left
      intro r _
      exact recordVisit_piece r
    · intro p hp
      obtain ⟨r, hr, rfl⟩ := List.mem_map.mp hp
      have hvalid := ((recordCodec info.chunkCapacity).scan_exact (recordCodec_consumes _) image).2 r hr
      simpa [recordPiece] using ((recordCodec_valid info r).mp hvalid).2
  · simp only [if_neg hs, if_neg hformat, sparseTranscript, List.map_map]
    constructor
    · apply List.map_congr_left
      intro e _
      exact extentVisit_piece e
    · intro p hp
      obtain ⟨e, he, rfl⟩ := List.mem_map.mp hp
      have hvalid := ((extentCodec info.chunkCapacity).scan_exact (extentCodec_consumes _) image).2 e he
      simpa [extentPiece, Nat.mul_comm] using ((extentCodec_valid info e).mp hvalid).2.2

/-- Below 65536 pages everything fits. -/
theorem directoryPieces_fits {dir : Directory} {info : WasmigMemoryImageInfo}
    (hinfo : memoryImageInfo dir = some info) (hpages : info.pageCount.toNat < 65536) :
    ∀ p ∈ directoryPieces dir, p.Fits := by
  intro p hp
  unfold directoryPieces at hp
  rw [hinfo] at hp
  cases himage : dir "memory.img" with
  | none =>
    rw [himage] at hp
    cases hp
  | some image =>
    rw [himage] at hp
    simp only [imagePieces, recordPieces, extentPieces] at hp
    split at hp
    · obtain ⟨k, hk, rfl⟩ := List.mem_map.mp hp
      have hlt := List.mem_range.mp hk
      exact ⟨by simp only [densePiece]; omega, by simp [densePiece]⟩
    split at hp
    · obtain ⟨r, hr, rfl⟩ := List.mem_map.mp hp
      have hvalid := ((recordCodec info.chunkCapacity).scan_exact (recordCodec_consumes _) image).2 r hr
      have hlt := ((recordCodec_valid info r).mp hvalid).1
      exact ⟨by simp only [recordPiece]; omega, by simp [recordPiece]⟩
    · obtain ⟨e, he, rfl⟩ := List.mem_map.mp hp
      have hvalid := ((extentCodec info.chunkCapacity).scan_exact (extentCodec_consumes _) image).2 e he
      obtain ⟨hne, hle, -⟩ := (extentCodec_valid info e).mp hvalid
      have hpos : 0 < e.1.2.toNat := Nat.pos_of_ne_zero fun h0 => hne (UInt32.toNat_inj.mp h0)
      exact ⟨by simp only [extentPiece]; omega, by simp only [extentPiece]; omega⟩

/-- A visitor that never fails is told of every piece of an image that is accepted, in
order; it is told where each is and how long exactly when all of them fit, as they do below
65536 pages. -/
theorem visitorCalls_exact_iff {σ : Type} (visitor : Visitor σ)
    (hv : ∀ offset data len s, (visitor offset data len s).1 = 0) (dir : Directory) (s : σ)
    (h : (visitMemoryChunks dir visitor s).1 = 0) :
    (List.Forall₂ Exact (visitorCalls dir visitor s) (directoryPieces dir) ↔
        ∀ p ∈ directoryPieces dir, p.Fits) ∧
      ∀ info, memoryImageInfo dir = some info → info.pageCount.toNat < 65536 → ∀ p ∈ directoryPieces dir, p.Fits := by
  rw [visitMemoryChunks_eq, run_willing hv, directoryTranscript_accepted] at h
  obtain ⟨info, image, hknown, hmeta, himage, haccepted⟩ := h
  have hinfo := (memoryImageInfo_iff dir info).mpr ⟨hknown, hmeta⟩
  have hpieces : directoryPieces dir = imagePieces info image := by
    unfold directoryPieces
    rw [himage, hinfo]
  obtain ⟨hvisits, hwhole⟩ := imageTranscript_pieces haccepted
  refine ⟨?_, fun _ => directoryPieces_fits⟩
  rw [visitorCalls_eq hv, directoryTranscript_of himage hinfo, hvisits, hpieces, List.forall₂_map_left_iff,
    List.forall₂_same]
  exact forall₂_congr fun p hp => Piece.exact_iff (hwhole p hp)

/-! ### A record at 4 GiB -/

/-- The record of the chunk `2 ^ 20`. -/
def farRecord : UInt32 × Bytes := (1048576, List.replicate 4096 7)

/-- The sparse images of 65537 pages with that record. -/
def farImages : Directory := images (metadata (sparseInfo kSparseMemoryFormatV1 65537)) (recordBytes farRecord)

private theorem farImages_info : memoryImageInfo farImages = some (sparseInfo kSparseMemoryFormatV1 65537) :=
  (memoryImageInfo_iff farImages _).mpr ⟨Or.inl rfl, rfl⟩

private theorem farRecord_valid :
    (recordCodec (sparseInfo kSparseMemoryFormatV1 65537).chunkCapacity).Valid farRecord := by
  rw [recordCodec_valid]
  exact ⟨by decide, List.length_replicate⟩

private theorem farImages_image : farImages "memory.img" = some ([farRecord].flatMap recordBytes) := by
  rw [List.flatMap_singleton]
  rfl

private theorem farImages_transcript : directoryTranscript farImages = ⟨[recordVisit farRecord], true⟩ := by
  apply directoryTranscript_records farImages_image farImages_info
  intro r hr
  rw [List.mem_singleton.mp hr]
  exact (recordCodec_valid (sparseInfo kSparseMemoryFormatV1 65537) farRecord).mp farRecord_valid

private theorem farImages_pieces : directoryPieces farImages = [recordPiece farRecord] := by
  have hscan := Codec.scan_encode
    (recordCodec_consumes (sparseInfo kSparseMemoryFormatV1 65537).chunkCapacity) [farRecord] []
    (fun r hr => List.mem_singleton.mp hr ▸ farRecord_valid) (by rw [recordCodec_decode]; rfl)
  rw [List.append_nil, recordCodec_encode] at hscan
  have hsparse : ¬ (sparseInfo kSparseMemoryFormatV1 65537).sparseFormat = false := Bool.noConfusion
  have hformat : (sparseInfo kSparseMemoryFormatV1 65537).format = kSparseMemoryFormatV1 := rfl
  unfold directoryPieces
  rw [farImages_image, farImages_info]
  simp only [imagePieces, recordPieces, if_neg hsparse, if_pos hformat, hscan, List.map_singleton]

private theorem farImages_accepted : (visitMemoryChunks farImages (fun _ _ _ n => (0, n + 1)) 0).1 = 0 := by
  rw [visitMemoryChunks_eq, run_willing fun _ _ _ _ => rfl, farImages_transcript]

theorem visitorCalls_exact_iff_far :
    List.Forall₂ Exact (visitorCalls farImages (fun _ _ _ n => (0, n + 1)) 0) (directoryPieces farImages) ↔
      ∀ p ∈ directoryPieces farImages, p.Fits :=
  (visitorCalls_exact_iff (fun _ _ _ n => (0, n + 1)) (fun _ _ _ _ => rfl) farImages 0 farImages_accepted).1

/-- The images are accepted, and their one record, 4 GiB into the memory, is reported to be
at its start. -/
theorem visitorCalls_far_wraps :
    (visitMemoryChunks farImages (fun _ _ _ n => (0, n + 1)) 0).1 = 0 ∧
      visitorCalls farImages (fun _ _ _ n => (0, n + 1)) 0 = [⟨0, farRecord.2, 4096⟩] ∧
      ¬ List.Forall₂ Exact (visitorCalls farImages (fun _ _ _ n => (0, n + 1)) 0) (directoryPieces farImages) := by
  have hcalls : visitorCalls farImages (fun _ _ _ n => (0, n + 1)) 0 = [⟨0, farRecord.2, 4096⟩] := by
    rw [visitorCalls_eq fun _ _ _ _ => rfl, farImages_transcript]
    rfl
  refine ⟨farImages_accepted, hcalls, ?_⟩
  rw [hcalls, farImages_pieces]
  intro h
  cases h with
  | cons hexact _ => exact absurd hexact.offset (by decide)

end Wasmig
