import Wasmig.Base.Stopping
import Wasmig.Memory.Image

/-! The readers as what they do with images.

A walk over a directory's images runs its transcript. If a call on the files fails, it is
broken off: it returns -1, and has called its visitor for an initial part of the visits
(`visitMemoryChunksOrFail_tried`). Without failures it does exactly what the transcript says
(`visitMemoryChunks_eq`); everything else about the readers is about transcripts. -/
namespace Wasmig
open Base Base.Stdio Base.Stopping

section Reading
variable {σ : Type} (visitor : Visitor σ)

/-- The visitor called as a visit says. -/
def Visitor.told (v : Visit) (s : σ) : Int × σ := visitor v.offset v.data v.len s

/-- The visits made in order, up to the first that does not return 0. -/
def visitAll : List Visit → σ → Int × σ
  | [], s => (0, s)
  | v :: vs, s =>
    let visited := visitor v.offset v.data v.len s
    if visited.1 ≠ 0 then (-1, visited.2) else visitAll vs visited.2

def Transcript.run (t : Transcript) (s : σ) : Int × σ :=
  let visited := visitAll visitor t.visits s
  if visited.1 ≠ 0 then (-1, visited.2) else (if t.accepted then 0 else -1, visited.2)

theorem run_nil (accepted : Bool) (s : σ) :
    Transcript.run visitor ⟨[], accepted⟩ s = (if accepted then 0 else -1, s) := rfl

theorem run_cons (v : Visit) (vs : List Visit) (accepted : Bool) (s : σ) :
    Transcript.run visitor ⟨v :: vs, accepted⟩ s =
      if (visitor v.offset v.data v.len s).1 ≠ 0 then (-1, (visitor v.offset v.data v.len s).2)
      else Transcript.run visitor ⟨vs, accepted⟩ (visitor v.offset v.data v.len s).2 := by
  simp only [Transcript.run, visitAll]
  split
  · rfl
  · rfl

/-! ### Walks that are broken off -/

/-- A walk over visits that was broken off: the visitor was called for the first of them, it
answered with 0, and the result is -1. -/
def BrokenOff (visits : List Visit) (s : σ) (r : Int × σ) : Prop :=
  ∃ calls, calls <+: visits ∧ (∀ code ∈ codes visitor.told calls s, code = 0) ∧
    r = (-1, after visitor.told calls s)

theorem brokenOff_nil (visits : List Visit) (s : σ) : BrokenOff visitor visits s (-1, s) :=
  ⟨[], List.nil_prefix, nofun, rfl⟩

theorem brokenOff_cons {v : Visit} {visits : List Visit} {s : σ} {r : Int × σ} (hcode : (visitor.told v s).1 = 0)
    (h : BrokenOff visitor visits (visitor.told v s).2 r) : BrokenOff visitor (v :: visits) s r := by
  obtain ⟨calls, hprefix, hcodes, rfl⟩ := h
  exact ⟨v :: calls, (List.prefix_cons_inj v).mpr hprefix, List.forall_mem_cons.mpr ⟨hcode, hcodes⟩, rfl⟩

/-- One visit, after which the walk goes on if it was answered with 0. -/
theorem tried_visit (v : Visit) {visits : List Visit} {accepted : Bool} {s : σ} {f : Faults}
    {rest : (Int × σ) × Faults}
    (h : Tried f rest (Transcript.run visitor ⟨visits, accepted⟩ (visitor.told v s).2)
      (BrokenOff visitor visits (visitor.told v s).2)) :
    Tried f (if (visitor.told v s).1 ≠ 0 then ((-1, (visitor.told v s).2), f) else rest)
      (Transcript.run visitor ⟨v :: visits, accepted⟩ s) (BrokenOff visitor (v :: visits) s) := by
  rw [run_cons]
  by_cases hcode : (visitor.told v s).1 = 0
  · have hcode' : (visitor v.offset v.data v.len s).1 = 0 := hcode
    rw [if_neg (not_not_intro hcode), if_neg (not_not_intro hcode')]
    exact h.congr rfl fun r => brokenOff_cons visitor hcode
  · have hcode' : (visitor v.offset v.data v.len s).1 ≠ 0 := hcode
    rw [if_pos hcode, if_pos hcode']
    exact Tried.done _ _

variable {info : WasmigMemoryImageInfo}

/-- The index that a round of the loop over a sparse image starts with: where there is none the
walk is over, and where it cannot be read it is broken off. -/
theorem tried_index {α : Type} {c : Codec α} (hc : c.Consumes) (visit : α → Visit) {f : Faults} {fp : Reader} {s : σ}
    (heof : fp.eof = false) (hshort : fp.unread.length < 4 → c.decode fp.unread = none) {rest : (Int × σ) × Faults}
    (hrest : freadOrFail f fp 4 1 = ⟨fread fp 4 1, f.tick⟩ → ¬ fp.unread.length < 4 → (fread fp 4 1).fp.eof = false →
      Tried f.tick rest ((sparseTranscript hc visit fp.unread).run visitor s)
        (BrokenOff visitor (sparseTranscript hc visit fp.unread).visits s)) :
    Tried f
      (if (freadOrFail f fp 4 1).count = 0 then
        ((if (freadOrFail f fp 4 1).fp.eof then 0 else -1, s), (freadOrFail f fp 4 1).faults)
      else if (freadOrFail f fp 4 1).count ≠ 1 then ((-1, s), (freadOrFail f fp 4 1).faults)
      else rest)
      ((sparseTranscript hc visit fp.unread).run visitor s)
      (BrokenOff visitor (sparseTranscript hc visit fp.unread).visits s) := by
  obtain ⟨hcount, hend⟩ := fread_item fp 4 (by decide)
  refine Tried.read fp 4 1 (by decide) (by decide) (fun hindex => ?_) fun hindex hsame => ?_
  · by_cases h4 : fp.unread.length < 4
    · rw [if_pos h4] at hcount
      rw [hindex, if_pos hcount, if_pos (hend h4), sparseTranscript, Codec.scan_none _ (hshort h4), decide_eq_true h4]
      exact Tried.done _ _
    · rw [if_neg h4] at hcount
      have hone : (freadOrFail f fp 4 1).count = 1 := by rw [hindex]; exact hcount
      rw [if_neg (by rw [hone]; decide), if_neg (not_not_intro hone)]
      exact hrest hindex h4 ((fread_eof hcount).trans heof)
  · rw [if_pos (Nat.lt_one_iff.mp hindex), hsame, heof]
    exact ⟨rfl, brokenOff_nil visitor _ s⟩

/-- The loop over records. -/
theorem visitRecordsOrFail_tried (hformat : info.format = kSparseMemoryFormatV1) (cap : Nat) (f : Faults)
    (fp : Reader) (heof : fp.eof = false) (s : σ) :
    let t := sparseTranscript (recordCodec_consumes cap) recordVisit fp.unread
    Tried f (visitSparseChunksOrFail visitor info cap f fp s) (t.run visitor s) (BrokenOff visitor t.visits s) := by
  induction hn : fp.unread.length using Nat.strongRecOn generalizing f fp s with
  | ind n ih =>
    have hdecode := recordCodec_decode cap fp.unread
    rw [visitSparseChunksOrFail]
    simp only [dite_eq_ite]
    refine tried_index visitor (recordCodec_consumes cap) recordVisit heof (fun h4 => hdecode.trans (if_pos h4))
      fun hindex h4 hsame => ?_
    rw [if_neg h4] at hdecode
    have hunread : (fread fp 4 1).fp.unread = fp.unread.drop 4 := fread_unread ..
    simp only [hindex]
    rw [if_pos hformat, info.chunkSize_eq, fread_data, Nat.mul_one]
    by_cases hcap : (word32 (fp.unread.take 4)).toNat ≥ cap
    · rw [if_pos hcap] at hdecode
      rw [if_pos hcap, sparseTranscript, Codec.scan_none _ hdecode, decide_eq_false h4]
      exact Tried.done _ _
    rw [if_neg hcap] at hdecode ⊢
    have hblock := fread_block (fread fp 4 1).fp kMemoryChunkSize.toNat
    rw [hunread] at hblock
    by_cases hlen : (fp.unread.drop 4).length < kMemoryChunkSize.toNat
    · rw [if_pos hlen] at hdecode
      rw [sparseTranscript, Codec.scan_none _ hdecode, decide_eq_false h4]
      exact Tried.short (by decide) (by decide) (by omega) (brokenOff_nil visitor _ s)
    rw [if_neg hlen] at hdecode
    have hwhole : (fread (fread fp 4 1).fp 1 kMemoryChunkSize.toNat).count = kMemoryChunkSize.toNat := by omega
    have hrest : (fread (fread fp 4 1).fp 1 kMemoryChunkSize.toNat).fp.unread =
        (fp.unread.drop 4).drop kMemoryChunkSize.toNat := by
      rw [fread_unread, hunread, Nat.one_mul]
    have hless : ((fp.unread.drop 4).drop kMemoryChunkSize.toNat).length < n := by
      rw [← hn, List.length_drop, List.length_drop]
      omega
    refine Tried.full (by decide) (by decide) hwhole (brokenOff_nil visitor _ s) fun hchunk => ?_
    simp only [hchunk]
    rw [fread_data, hunread, Nat.one_mul, sparseTranscript, Codec.scan_some _ hdecode]
    have htail := ih _ hless f.tick.tick _ ((fread_eof hwhole).trans hsame)
      (visitor.told (recordVisit (word32 (fp.unread.take 4), (fp.unread.drop 4).take kMemoryChunkSize.toNat)) s).2
      (congrArg List.length hrest)
    rw [hrest] at htail
    exact tried_visit visitor _ htail

/-- The loop over extents. -/
theorem visitExtentsOrFail_tried (hformat : info.format ≠ kSparseMemoryFormatV1) (cap : Nat) (f : Faults)
    (fp : Reader) (heof : fp.eof = false) (s : σ) :
    let t := sparseTranscript (extentCodec_consumes cap) extentVisit fp.unread
    Tried f (visitSparseChunksOrFail visitor info cap f fp s) (t.run visitor s) (BrokenOff visitor t.visits s) := by
  induction hn : fp.unread.length using Nat.strongRecOn generalizing f fp s with
  | ind n ih =>
    have hdecode := extentCodec_decode cap fp.unread
    dsimp only at hdecode
    rw [visitSparseChunksOrFail]
    simp only [dite_eq_ite]
    refine tried_index visitor (extentCodec_consumes cap) extentVisit heof (fun h4 => hdecode.trans (if_pos h4))
      fun hindex h4 hsame => ?_
    rw [if_neg h4] at hdecode
    have hunread : (fread fp 4 1).fp.unread = fp.unread.drop 4 := fread_unread ..
    have hitem := (fread_item (fread fp 4 1).fp 4 (by decide)).1
    rw [hunread] at hitem
    simp only [hindex]
    rw [if_neg hformat, info.chunkSize_eq, fread_data, Nat.mul_one]
    by_cases h8 : (fp.unread.drop 4).length < 4
    · rw [if_pos h8] at hdecode hitem
      rw [sparseTranscript, Codec.scan_none _ hdecode, decide_eq_false h4]
      exact Tried.short (by decide) (by decide) (by rw [hitem]; decide) (brokenOff_nil visitor _ s)
    rw [if_neg h8] at hdecode hitem
    refine Tried.full (by decide) (by decide) hitem (brokenOff_nil visitor _ s) fun hlength => ?_
    have hunread' : (fread (fread fp 4 1).fp 4 1).fp.unread = (fp.unread.drop 4).drop 4 := by
      rw [fread_unread, hunread]
    simp only [hlength]
    rw [fread_data, hunread, Nat.mul_one]
    generalize word32 (fp.unread.take 4) = start at hdecode ⊢
    generalize word32 ((fp.unread.drop 4).take 4) = count at hdecode ⊢
    by_cases hbad : count = 0 ∨ start.toNat + count.toNat > cap
    · rw [if_pos hbad] at hdecode
      rw [if_pos hbad, sparseTranscript, Codec.scan_none _ hdecode, decide_eq_false h4]
      exact Tried.done _ _
    rw [if_neg hbad] at hdecode ⊢
    have hsize : 0 < count.toNat * kMemoryChunkSize.toNat := by
      have hne : count.toNat ≠ 0 := fun h0 => hbad (.inl (UInt32.toNat.inj h0))
      rw [kMemoryChunkSize_toNat]
      omega
    have hmul : mulOverflow count.toNat kMemoryChunkSize.toNat = some (count.toNat * kMemoryChunkSize.toNat) := by
      have hc := count.toNat_lt
      rw [mulOverflow, if_pos (by rw [kMemoryChunkSize_toNat]; omega)]
    have hblock := fread_block (fread (fread fp 4 1).fp 4 1).fp (count.toNat * kMemoryChunkSize.toNat)
    rw [hunread'] at hblock
    rw [hmul]
    dsimp only
    by_cases hlen : ((fp.unread.drop 4).drop 4).length < count.toNat * kMemoryChunkSize.toNat
    · rw [if_pos hlen] at hdecode
      rw [sparseTranscript, Codec.scan_none _ hdecode, decide_eq_false h4]
      exact Tried.short (by decide) hsize (by omega) (brokenOff_nil visitor _ s)
    rw [if_neg hlen] at hdecode
    have hwhole : (fread (fread (fread fp 4 1).fp 4 1).fp 1 (count.toNat * kMemoryChunkSize.toNat)).count =
        count.toNat * kMemoryChunkSize.toNat := by omega
    have hrest : (fread (fread (fread fp 4 1).fp 4 1).fp 1 (count.toNat * kMemoryChunkSize.toNat)).fp.unread =
        ((fp.unread.drop 4).drop 4).drop (count.toNat * kMemoryChunkSize.toNat) := by
      rw [fread_unread, hunread', Nat.one_mul]
    have hless : (((fp.unread.drop 4).drop 4).drop (count.toNat * kMemoryChunkSize.toNat)).length < n := by
      rw [← hn, List.length_drop, List.length_drop, List.length_drop]
      omega
    refine Tried.full (by decide) hsize hwhole (brokenOff_nil visitor _ s) fun hextent => ?_
    simp only [hextent]
    rw [fread_data, hunread', Nat.one_mul, sparseTranscript, Codec.scan_some _ hdecode]
    have htail := ih _ hless f.tick.tick.tick _ ((fread_eof hwhole).trans ((fread_eof hitem).trans hsame))
      (visitor.told (extentVisit ((start, count),
        ((fp.unread.drop 4).drop 4).take (count.toNat * kMemoryChunkSize.toNat))) s).2
      (congrArg List.length hrest)
    rw [hrest] at htail
    exact tried_visit visitor _ htail

/-- The loop over a legacy image of the right size: `k` chunks are behind it, `n` ahead. -/
theorem visitDenseChunksOrFail_tried (info : WasmigMemoryImageInfo) (image : Bytes) (n k : Nat) (f : Faults)
    (fp : Reader) (s : σ) (hlen : image.length = (k + n) * kMemoryChunkSize.toNat)
    (hfp : fp.unread = image.drop (k * kMemoryChunkSize.toNat)) :
    let t : Transcript := ⟨(List.range' k n).map (denseVisit image), true⟩
    Tried f (visitDenseChunksOrFail visitor info ((k + n) * kMemoryChunkSize.toNat) (k * kMemoryChunkSize.toNat) f fp s)
      (t.run visitor s) (BrokenOff visitor t.visits s) := by
  dsimp only
  rw [kMemoryChunkSize_toNat] at hlen
  induction n generalizing k f fp s with
  | zero =>
    rw [visitDenseChunksOrFail, Nat.add_zero, if_neg (Nat.lt_irrefl _)]
    exact Tried.done _ _
  | succ n ih =>
    have hmin : min info.chunkSize.toNat ((k + (n + 1)) * kMemoryChunkSize.toNat - k * kMemoryChunkSize.toNat) =
        kMemoryChunkSize.toNat := by
      rw [info.chunkSize_eq, kMemoryChunkSize_toNat]
      omega
    have hblock := fread_block fp kMemoryChunkSize.toNat
    rw [hfp, List.length_drop, hlen, kMemoryChunkSize_toNat, Nat.min_eq_left (by omega)] at hblock
    have hrest : (fread fp 1 kMemoryChunkSize.toNat).fp.unread =
        image.drop ((k + 1) * kMemoryChunkSize.toNat) := by
      rw [fread_unread, hfp, List.drop_drop, Nat.one_mul, Nat.add_mul, Nat.one_mul]
    have hnext : k * kMemoryChunkSize.toNat + info.chunkSize.toNat = (k + 1) * kMemoryChunkSize.toNat := by
      rw [info.chunkSize_eq, Nat.add_mul, Nat.one_mul]
    rw [visitDenseChunksOrFail, if_pos (by rw [kMemoryChunkSize_toNat]; omega), hmin, hnext, List.range'_succ,
      List.map_cons]
    have hwhole : (fread fp 1 kMemoryChunkSize.toNat).count = kMemoryChunkSize.toNat := hblock
    refine Tried.full (by decide) (by decide) hwhole (brokenOff_nil visitor _ s) fun hchunk => ?_
    simp only [hchunk]
    rw [fread_data, hfp, Nat.one_mul]
    have hsplit : k + (n + 1) = k + 1 + n := by omega
    rw [hsplit] at hlen ⊢
    exact tried_visit visitor (denseVisit image k) (ih (k + 1) f.tick _ _ hlen hrest)

/-- The walk over an image once its size is known. -/
theorem visitImageOrFail_tried (info : WasmigMemoryImageInfo) (image : Bytes) (f : Faults) (s : σ) :
    Tried f
      (if info.sparseFormat = false then
        if (getFileSize (Reader.ofFile image)).1 ≠ info.pageCount.toNat * wasmPageSize then ((-1, s), f) else
        visitDenseChunksOrFail visitor info (info.pageCount.toNat * wasmPageSize) 0 f
          (getFileSize (Reader.ofFile image)).2 s
      else
        visitSparseChunksOrFail visitor info (info.pageCount.toNat * wasmPageSize / info.chunkSize.toNat) f
          (getFileSize (Reader.ofFile image)).2 s)
      ((imageTranscript info image).run visitor s) (BrokenOff visitor (imageTranscript info image).visits s) := by
  have hsize : (getFileSize (Reader.ofFile image)).1 = image.length := rfl
  unfold imageTranscript
  by_cases hs : info.sparseFormat = false
  · simp only [if_pos hs, denseTranscript]
    by_cases hlen : image.length = info.pageCount.toNat * wasmPageSize
    · have htotal : info.pageCount.toNat * wasmPageSize =
          (0 + info.pageCount.toNat * 16) * kMemoryChunkSize.toNat := by
        rw [wasmPageSize, kMemoryChunkSize_toNat]
        omega
      have hdense := visitDenseChunksOrFail_tried visitor info image (info.pageCount.toNat * 16) 0 f
        (Reader.ofFile image) s (hlen.trans htotal) (by simp)
      rw [Nat.zero_mul, ← List.range_eq_range'] at hdense
      rw [if_neg (not_not_intro (hsize.trans hlen)), if_pos hlen, htotal]
      exact hdense
    · rw [if_pos (hsize.symm ▸ hlen), if_neg hlen]
      exact Tried.done _ _
  · simp only [if_neg hs]
    by_cases hformat : info.format = kSparseMemoryFormatV1
    · rw [if_pos hformat]
      exact visitRecordsOrFail_tried visitor hformat _ f (Reader.ofFile image) rfl s
    · rw [if_neg hformat]
      exact visitExtentsOrFail_tried visitor hformat _ f (Reader.ofFile image) rfl s

/-- `wasmig_visit_memory_chunks` runs the transcript of the directory, or breaks off. -/
theorem visitMemoryChunksOrFail_tried (dir : Directory) (s : σ) (f : Faults) :
    Tried f (visitMemoryChunksOrFail dir visitor s f) ((directoryTranscript dir).run visitor s)
      (BrokenOff visitor (directoryTranscript dir).visits s) := by
  unfold visitMemoryChunksOrFail
  refine (openImageRbOrFail_tried dir f "memory.img").andThen ?_ ?_
  · obtain ⟨memoryFp, f⟩ := openImageRbOrFail dir f "memory.img"
    rintro (rfl : memoryFp = _)
    unfold openImageRb
    cases himage : dir "memory.img" with
    | none =>
      rw [directoryTranscript, himage]
      exact Tried.done _ _
    | some image =>
      rw [Option.map_some]
      dsimp only
      refine (memoryImageInfoOrFail_tried dir f).andThen ?_ ?_
      · obtain ⟨info, f⟩ := memoryImageInfoOrFail dir f
        rintro (rfl : info = _)
        cases hinfo : memoryImageInfo dir with
        | none =>
          rw [directoryTranscript, himage, hinfo]
          exact Tried.done _ _
        | some info =>
          rw [directoryTranscript_of himage hinfo]
          simp only [mulOverflow_pages]
          refine (getFileSizeOrFail_tried f (Reader.ofFile image)).andThen ?_ ?_
          · obtain ⟨size, f⟩ := getFileSizeOrFail f (Reader.ofFile image)
            rintro (rfl : size = some (getFileSize (Reader.ofFile image)))
            exact visitImageOrFail_tried visitor info image f s
          · obtain ⟨size, f⟩ := getFileSizeOrFail f (Reader.ofFile image)
            rintro (rfl : size = none)
            exact ⟨Faults.Ahead.refl _, brokenOff_nil visitor _ s⟩
      · obtain ⟨info, f⟩ := memoryImageInfoOrFail dir f
        rintro (rfl : info = none)
        exact ⟨Faults.Ahead.refl _, brokenOff_nil visitor _ s⟩
  · obtain ⟨memoryFp, f⟩ := openImageRbOrFail dir f "memory.img"
    rintro (rfl : memoryFp = none)
    exact ⟨Faults.Ahead.refl _, brokenOff_nil visitor _ s⟩

/-- Without failures it runs the transcript. -/
theorem visitMemoryChunks_eq (dir : Directory) (s : σ) :
    visitMemoryChunks dir visitor s = (directoryTranscript dir).run visitor s :=
  (visitMemoryChunksOrFail_tried visitor dir s .never).never

end Reading

end Wasmig
