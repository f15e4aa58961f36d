import Mathlib.Algebra.GroupWithZero.Nat
import Wasmig.Base.Stopping
import Wasmig.Memory.Positions

/-! Visitors that stop.

A visitor of `wasmig_visit_memory_chunks` ends the walk with any code but 0. What it has
been told by then is an initial part of what a visitor that never stops is told
(`visitMemoryChunks_stopped`), and that part alone decides the outcome: the bytes of
`memory.img` after the record it stopped at are not read (`visitMemoryChunks_streams`). -/
namespace Wasmig
open Base Base.Stopping

section
variable {σ : Type} (visitor : Visitor σ)

/-- A visitor that sees everything and does nothing. -/
def watcher : Visitor Unit := fun _ _ _ _ => (0, ())

/-- A walk over visits is one that the visitor may stop, and what is written down of it are the
visits it takes. -/
theorem visitAll_recording_stopping (visits : List Visit) (s : σ) (calls : List Visit) :
    ((visitAll (recording visitor) visits (s, calls)).1 = 0 ↔
        ∀ code ∈ codes visitor.told (taken visitor.told visits s) s, code = 0) ∧
      (visitAll (recording visitor) visits (s, calls)).2 =
        (after visitor.told (taken visitor.told visits s) s, calls ++ taken visitor.told visits s) := by
  induction visits generalizing s calls with
  | nil => simp [visitAll, taken, codes, after]
  | cons v visits ih =>
    by_cases h : (visitor.told v s).1 = 0
    · have hcall : (recording visitor v.offset v.data v.len (s, calls)).1 = 0 := h
      obtain ⟨ihcode, ihstate⟩ := ih (visitor.told v s).2 (calls ++ [v])
      rw [taken_go _ _ h, visitAll, if_neg (not_not_intro hcall)]
      refine ⟨ihcode.trans ?_, ihstate.trans ?_⟩
      · simp only [codes, List.forall_mem_cons, h, true_and]
      · rw [List.append_assoc, List.singleton_append]
        rfl
    · have hcall : (recording visitor v.offset v.data v.len (s, calls)).1 ≠ 0 := h
      rw [taken_stop _ _ h, visitAll, if_pos hcall]
      refine ⟨iff_of_false (show ¬ (-1 : Int) = 0 by decide) ?_, rfl⟩
      simpa only [codes, List.forall_mem_singleton] using h

theorem Transcript.run_eq (t : Transcript) (s : σ) :
    t.run visitor s =
      (if (visitAll visitor t.visits s).1 = 0 ∧ t.accepted = true then 0 else -1, (visitAll visitor t.visits s).2) := by
  unfold Transcript.run
  by_cases h : (visitAll visitor t.visits s).1 = 0 <;> simp [h]

/-- The calls made to a visitor are the visits it takes. -/
theorem visitorCalls_taken (dir : Directory) (s : σ) :
    visitorCalls dir visitor s = taken visitor.told (directoryTranscript dir).visits s := by
  rw [visitorCalls, visitMemoryChunks_eq, Transcript.run_eq]
  exact congrArg Prod.snd (visitAll_recording_stopping visitor _ s []).2

theorem visitorCalls_watcher (dir : Directory) : visitorCalls dir watcher () = (directoryTranscript dir).visits :=
  visitorCalls_eq (fun _ _ _ _ => rfl) dir ()

/-- The outcome of a walk, in terms of the calls made in it. -/
theorem visitMemoryChunks_calls (dir : Directory) (s : σ) :
    visitMemoryChunks dir visitor s =
      (if (∀ code ∈ codes visitor.told (visitorCalls dir visitor s) s, code = 0) ∧
          (directoryTranscript dir).accepted = true then 0 else -1,
        after visitor.told (visitorCalls dir visitor s) s) := by
  obtain ⟨hcode, hstate⟩ := visitMemoryChunks_recording dir visitor s []
  obtain ⟨hcodes, hafter⟩ := visitAll_recording_stopping visitor (directoryTranscript dir).visits s []
  rw [visitMemoryChunks_eq, Transcript.run_eq] at hcode hstate
  rw [hafter] at hstate
  refine Prod.ext (hcode.symm.trans ?_) (hstate.symm.trans ?_)
  · rw [visitorCalls_taken]
    exact if_congr (and_congr_left' hcodes) rfl rfl
  · rw [visitorCalls_taken]

theorem visitMemoryChunks_watcher (dir : Directory) :
    (visitMemoryChunks dir watcher ()).1 = 0 ↔ (directoryTranscript dir).accepted = true := by
  rw [visitMemoryChunks_eq, run_willing fun _ _ _ _ => rfl]

/-- Whatever a visitor does, it is told an initial part of what a visitor that never stops
is told. It answers all calls but the last with 0; the calls are all there are unless it
answers the last with another code. Its state is what the calls made of it, and the result
is 0 exactly when it answered every call with 0 and the images are accepted. -/
theorem visitMemoryChunks_stopped (dir : Directory) (s : σ) :
    let all := visitorCalls dir watcher ()
    let calls := visitorCalls dir visitor s
    let answers := codes visitor.told calls s
    calls <+: all ∧ (∀ code ∈ answers.dropLast, code = 0) ∧
      (calls = all ∨ ∃ code, answers.getLast? = some code ∧ code ≠ 0) ∧
      (visitMemoryChunks dir visitor s).2 = after visitor.told calls s ∧
      (visitMemoryChunks dir visitor s).1 =
        if (∀ code ∈ answers, code = 0) ∧ (visitMemoryChunks dir watcher ()).1 = 0 then 0 else -1 := by
  intro all calls answers
  have hall : all = (directoryTranscript dir).visits := visitorCalls_watcher dir
  have hcalls : calls = taken visitor.told all s := by
    rw [hall]
    exact visitorCalls_taken visitor dir s
  have houtcome := visitMemoryChunks_calls visitor dir s
  refine ⟨?_, ?_, ?_, congrArg Prod.snd houtcome, ?_⟩
  · rw [hcalls]
    exact taken_prefix _ _ _
  · show ∀ code ∈ (codes visitor.told calls s).dropLast, code = 0
    rw [hcalls]
    exact codes_taken_dropLast _ _ _
  · show calls = all ∨ ∃ code, (codes visitor.told calls s).getLast? = some code ∧ code ≠ 0
    rw [hcalls]
    exact taken_complete _ _ _
  · simp only [visitMemoryChunks_watcher]
    exact congrArg Prod.fst houtcome

/-! ### What is not read -/

/-- The bytes before the payload of a record. -/
def WasmigMemoryImageInfo.headerLength (info : WasmigMemoryImageInfo) : Nat :=
  if info.sparseFormat = false then 0 else if info.format = kSparseMemoryFormatV1 then 4 else 8

/-- The bytes of the image that these visits are about. -/
def WasmigMemoryImageInfo.extentOf (info : WasmigMemoryImageInfo) (visits : List Visit) : Nat :=
  (visits.map fun v => info.headerLength + v.data.length).sum

/-- An image that starts like another starts with the same records. -/
theorem scan_shared {α : Type} (c : ExactCodec α) (hc : c.Consumes) {image image' : Bytes} {records more : List α}
    (hscan : (c.scan hc image).1 = records ++ more)
    (hshared : image'.take (records.flatMap c.encode).length = image.take (records.flatMap c.encode).length) :
    ∃ more', (c.scan hc image').1 = records ++ more' := by
  obtain ⟨himage, hvalid⟩ := c.scan_exact hc image
  rw [hscan, List.flatMap_append, List.append_assoc] at himage
  rw [himage, List.take_left] at hshared
  obtain ⟨rest, rfl⟩ : ∃ rest, image' = records.flatMap c.encode ++ rest :=
    ⟨_, (hshared ▸ List.take_append_drop _ image').symm⟩
  have hrecords : ∀ a ∈ records, c.Valid a := fun a ha => hvalid a (hscan ▸ List.mem_append_left _ ha)
  clear himage hscan hvalid hshared
  induction records with
  | nil => exact ⟨_, rfl⟩
  | cons a records ih =>
    obtain ⟨more', hmore⟩ := ih fun b hb => hrecords b (List.mem_cons_of_mem _ hb)
    refine ⟨more', ?_⟩
    rw [List.flatMap_cons, List.append_assoc,
      Codec.scan_some hc (c.forward a _ (hrecords a (List.mem_cons_self ..))), hmore]
    rfl

/-- The same of the visits made for records. -/
theorem sparseTranscript_shared {α : Type} (c : ExactCodec α) (hc : c.Consumes) (visit : α → Visit)
    {info : WasmigMemoryImageInfo}
    (hlength : ∀ a, info.headerLength + (visit a).data.length = (c.encode a).length) {image image' : Bytes}
    {visits more : List Visit} (hvisits : (sparseTranscript hc visit image).visits = visits ++ more)
    (hshared : image'.take (info.extentOf visits) = image.take (info.extentOf visits)) :
    ∃ more', (sparseTranscript hc visit image').visits = visits ++ more' := by
  obtain ⟨records, left, hscan, rfl, rfl⟩ := List.map_eq_append_iff.mp hvisits
  have hextent : info.extentOf (records.map visit) = (records.flatMap c.encode).length := by
    simp [WasmigMemoryImageInfo.extentOf, List.length_flatMap, Function.comp_def, hlength]
  rw [hextent] at hshared
  obtain ⟨more', hmore⟩ := scan_shared c hc hscan hshared
  exact ⟨more'.map visit, (congrArg (List.map visit) hmore).trans List.map_append⟩

/-- Chunks of a legacy image in a part that another of its size shares. -/
theorem denseTranscript_shared {info : WasmigMemoryImageInfo} (hdense : info.sparseFormat = false)
    {pageCount : Nat} {image image' : Bytes} (hlength : image'.length = image.length) {visits more : List Visit}
    (hvisits : (denseTranscript pageCount image).visits = visits ++ more)
    (hshared : image'.take (info.extentOf visits) = image.take (info.extentOf visits)) :
    ∃ more', (denseTranscript pageCount image').visits = visits ++ more' := by
  unfold denseTranscript at hvisits ⊢
  rw [hlength]
  by_cases hsize : image.length = pageCount * wasmPageSize
  · rw [if_pos hsize] at hvisits ⊢
    obtain ⟨chunks, left, hrange, rfl, rfl⟩ := List.map_eq_append_iff.mp hvisits
    rw [List.range_eq_range'] at hrange
    obtain ⟨m, hm, rfl, -⟩ := List.range'_eq_append_iff.mp hrange
    have hextent : info.extentOf ((List.range' 0 m).map (denseVisit image)) = m * 4096 := by
      rw [WasmigMemoryImageInfo.extentOf, List.map_map, List.map_congr_left (g := fun _ => 4096), List.map_const',
        List.sum_replicate_nat, List.length_range']
      intro k hk
      have hk' := List.mem_range'.mp hk
      rw [wasmPageSize] at hsize
      simp only [Function.comp_apply, WasmigMemoryImageInfo.headerLength, if_pos hdense, denseVisit,
        kMemoryChunkSize_toNat, List.length_take, List.length_drop]
      omega
    rw [hextent] at hshared
    have hsame : (List.range' 0 m).map (denseVisit image') = (List.range' 0 m).map (denseVisit image) := by
      apply List.map_congr_left
      intro k hk
      have hk' := List.mem_range'.mp hk
      have hwhole : ∀ b : Bytes, (b.drop (k * 4096)).take 4096 = ((b.take (m * 4096)).drop (k * 4096)).take 4096 := by
        intro b
        rw [List.drop_take, List.take_take, Nat.min_eq_left (by omega)]
      rw [denseVisit, denseVisit, kMemoryChunkSize_toNat, hwhole image', hshared, ← hwhole image]
    refine ⟨(List.range' (0 + m) (pageCount * 16 - m)).map (denseVisit image'), ?_⟩
    rw [← hsame, ← List.map_append, List.range'_append_1, Nat.add_sub_cancel' hm, ← List.range_eq_range']
  · rw [if_neg hsize] at hvisits ⊢
    obtain ⟨rfl, rfl⟩ := List.append_eq_nil_iff.mp hvisits.symm
    exact ⟨[], rfl⟩

/-- The visits made for the part of an image that another shares. -/
theorem imageTranscript_shared {info : WasmigMemoryImageInfo} {image image' : Bytes}
    (hlegacy : info.sparseFormat = false → image'.length = image.length) {visits more : List Visit}
    (hvisits : (imageTranscript info image).visits = visits ++ more)
    (hshared : image'.take (info.extentOf visits) = image.take (info.extentOf visits)) :
    ∃ more', (imageTranscript info image').visits = visits ++ more' := by
  unfold imageTranscript at hvisits ⊢
  by_cases hs : info.sparseFormat = false
  · rw [if_pos hs] at hvisits ⊢
    exact denseTranscript_shared hs (hlegacy hs) hvisits hshared
  rw [if_neg hs] at hvisits ⊢
  by_cases hformat : info.format = kSparseMemoryFormatV1
  · rw [if_pos hformat] at hvisits ⊢
    refine sparseTranscript_shared (recordCodec _) (recordCodec_consumes _) recordVisit ?_ hvisits hshared
    intro r
    rw [WasmigMemoryImageInfo.headerLength, if_neg hs, if_pos hformat, recordCodec_encode]
    simp [recordVisit, recordBytes]
  · rw [if_neg hformat] at hvisits ⊢
    refine sparseTranscript_shared (extentCodec _) (extentCodec_consumes _) extentVisit ?_ hvisits hshared
    intro e
    rw [WasmigMemoryImageInfo.headerLength, if_neg hs, if_neg hformat, extentCodec_encode]
    simp [extentVisit, extentBytes]
    omega

end

/-- A visitor that stops is not affected by the rest of the image: any other image with the
same bytes up to the end of the record it stopped at leads to the same calls, the same
state and the same result. A legacy image must moreover be of the same size. -/
theorem visitMemoryChunks_streams {σ : Type} {dir dir' : Directory} {info : WasmigMemoryImageInfo}
    {image image' : Bytes} (hinfo : memoryImageInfo dir = some info)
    (hmeta : dir' "mem_page_count.img" = dir "mem_page_count.img") (himage : dir "memory.img" = some image)
    (himage' : dir' "memory.img" = some image')
    (hlegacy : info.sparseFormat = false → image'.length = image.length) {visitor : Visitor σ} {s : σ}
    (hstop : ∃ code ∈ codes visitor.told (visitorCalls dir visitor s) s, code ≠ 0)
    (hshared : image'.take (info.extentOf (visitorCalls dir visitor s)) =
      image.take (info.extentOf (visitorCalls dir visitor s))) :
    visitorCalls dir' visitor s = visitorCalls dir visitor s ∧
      visitMemoryChunks dir' visitor s = visitMemoryChunks dir visitor s := by
  have hinfo' : memoryImageInfo dir' = some info := by
    rw [← hinfo, memoryImageInfo_eq, memoryImageInfo_eq, hmeta]
  have hvisits : (imageTranscript info image).visits = (directoryTranscript dir).visits := by
    rw [directoryTranscript_of himage hinfo]
  obtain ⟨more, hmore⟩ := taken_prefix visitor.told (directoryTranscript dir).visits s
  rw [← visitorCalls_taken] at hmore
  obtain ⟨more', hmore'⟩ := imageTranscript_shared hlegacy (hvisits.trans hmore.symm) hshared
  have hcalls : visitorCalls dir' visitor s = visitorCalls dir visitor s := by
    rw [visitorCalls_taken visitor dir', directoryTranscript_of himage' hinfo', hmore',
      taken_append_stopped _ _ hstop, visitorCalls_taken, taken_taken]
  refine ⟨hcalls, ?_⟩
  obtain ⟨code, hcode, hne⟩ := hstop
  rw [visitMemoryChunks_calls, visitMemoryChunks_calls, hcalls, if_neg fun hboth => hne (hboth.1 code hcode),
    if_neg fun hboth => hne (hboth.1 code hcode)]

/-- The record of a chunk of ones. -/
def onesRecord : UInt32 × Bytes := (0, List.replicate 4096 1)

/-- The sparse images of a page with that record, and more bytes after it. -/
def onesImages (tail : Bytes) : Directory :=
  images (metadata (sparseInfo kSparseMemoryFormatV1 1)) (recordBytes onesRecord ++ tail)

private theorem onesImages_image (tail : Bytes) :
    onesImages tail "memory.img" = some (recordBytes onesRecord ++ tail) := rfl

/-- A visitor that counts its calls and stops at the first. -/
def quitter : Visitor Nat := fun _ _ _ n => (1, n + 1)

private theorem onesImages_info : memoryImageInfo (onesImages []) = some (sparseInfo kSparseMemoryFormatV1 1) :=
  (memoryImageInfo_iff (onesImages []) _).mpr ⟨Or.inl rfl, rfl⟩

private theorem onesImages_calls : visitorCalls (onesImages []) quitter 0 = [recordVisit onesRecord] := by
  have himage : onesImages [] "memory.img" = some ([onesRecord].flatMap recordBytes) := by
    rw [List.flatMap_singleton, ← List.append_nil (recordBytes onesRecord)]
    rfl
  have htranscript := directoryTranscript_records himage onesImages_info fun r hr => by
    rw [List.mem_singleton.mp hr]
    exact ⟨by decide, List.length_replicate⟩
  rw [visitorCalls_taken, htranscript]
  exact taken_stop _ [] (show (1 : Int) ≠ 0 by decide)

/-- A visitor that stops at once does not see that there is an index without its chunk. -/
theorem visitMemoryChunks_streams_cut :
    visitMemoryChunks (onesImages [3, 0, 0, 0]) quitter 0 = visitMemoryChunks (onesImages []) quitter 0 := by
  have hcodes : codes quitter.told (visitorCalls (onesImages []) quitter 0) 0 = [1] := by
    rw [onesImages_calls]
    rfl
  have hdata : onesRecord.2.length = 4096 := List.length_replicate
  have hlength : (recordBytes onesRecord).length = 4100 := by
    rw [recordBytes, List.length_append, le32_length, hdata]
  have hextent : (sparseInfo kSparseMemoryFormatV1 1).extentOf (visitorCalls (onesImages []) quitter 0) = 4100 := by
    rw [onesImages_calls]
    simp only [WasmigMemoryImageInfo.extentOf, List.map_cons, List.map_nil, recordVisit, hdata]
    rfl
  have hmeta : onesImages [3, 0, 0, 0] "mem_page_count.img" = onesImages [] "mem_page_count.img" := by
    simp only [onesImages, images_info]
  refine (visitMemoryChunks_streams onesImages_info hmeta (onesImages_image []) (onesImages_image [3, 0, 0, 0])
    (fun h => Bool.noConfusion h) ?_ ?_).2
  · exact ⟨1, hcodes ▸ List.mem_singleton_self 1, by decide⟩
  · rw [hextent, ← hlength, List.take_left, List.take_left]

end Wasmig
