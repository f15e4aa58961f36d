import Wasmig.Checkpoint.Successive
import Wasmig.Checkpoint.UntypedGlobals

/-! What is restored of a checkpoint.

A checkpoint function belongs to a kind of image, and no two kinds share a file. What the restore
functions give depends on the images of their kind alone, so a call that has left its images in a
directory (`LeftIn`) is restored from it for as long as those files stay as they are. -/
namespace Wasmig
open Base Base.Stdio

/-! ### Kinds of images -/

/-- What is checkpointed. -/
inductive ImageKind where
  | memory
  | globals
  | programCounter
  | callStack
deriving DecidableEq, Repr

/-- The files of a kind. -/
def ImageKind.files : ImageKind → List String
  | .memory => ["memory.img", "mem_page_count.img"]
  | .globals => ["global.img"]
  | .programCounter => ["program_counter.img"]
  | .callStack => ["call_stack.img"]

def CheckpointCall.kind : CheckpointCall → ImageKind
  | .memory _ _ => .memory
  | .global _ _ => .globals
  | .globalV2 _ => .globals
  | .pc _ _ => .programCounter
  | .stackV3 _ => .callStack
  | .stackV4 _ => .callStack

/-- Two directories have the same images of a kind. -/
def SameImages (kind : ImageKind) (dir dir' : Directory) : Prop := ∀ name ∈ kind.files, dir' name = dir name

/-- A file belongs to one kind only. -/
theorem ImageKind.files_disjoint {kind kind' : ImageKind} {name : String} (h : name ∈ kind.files)
    (h' : name ∈ kind'.files) : kind = kind' := by
  cases kind <;> cases kind' <;> simp_all [ImageKind.files]

/-- A call writes all files of its kind. -/
theorem CheckpointCall.encodings_names (pb : ProtobufC) (tables : StackTables) (call : CheckpointCall) :
    (call.encodings pb tables).map Prod.fst = call.kind.files := by
  cases call <;> rfl

theorem CheckpointCall.encodings_kind {pb : ProtobufC} {tables : StackTables} {call : CheckpointCall}
    {image : String × Option Bytes} (h : image ∈ call.encodings pb tables) : image.1 ∈ call.kind.files :=
  call.encodings_names pb tables ▸ List.mem_map_of_mem h

/-! ### What is restored -/

/-- A directory gives back a memory: its page count, and into any destination that can hold its
pages, of which there are as many as WebAssembly has at most, the chunks that are not all zero.
That is all of it when the destination was zero there. -/
structure MemoryRestored (mem : Memory) (curPage : UInt32) (dir : Directory) : Prop where
  pageCount : ∃ info, memoryImageInfo dir = some info ∧ info.sparseFormat = true ∧ info.pageCount = curPage
  chunks : curPage.toNat ≤ 65536 → ∀ dst dstSize ram, (dst = 0 → dstSize = 0) → curPage.toNat * 65536 ≤ dstSize →
    (restoreMemoryInto dir dst dstSize ram).1 = 0 ∧
      (restoreMemoryInto dir dst dstSize ram).2.bytes =
        chunksOver mem (nonzeroChunks mem 0 (curPage.toNat * 16)) dst ram.bytes ∧
      ((∀ i, i < curPage.toNat * 65536 → ram.bytes (dst + i) = 0) →
        ∀ i, i < curPage.toNat * 65536 → (restoreMemoryInto dir dst dstSize ram).2.bytes (dst + i) = mem i)

theorem Checkpointed.memoryRestored {mem : Memory} {curPage : UInt32} {dir : Directory}
    (h : Checkpointed dir mem curPage) : MemoryRestored mem curPage dir := by
  refine ⟨⟨_, h.memoryImageInfo, rfl, rfl⟩, fun hpages dst dstSize ram hdst hlarge => ?_⟩
  obtain ⟨hcode, hbytes⟩ := h.restored hpages hdst hlarge ram
  refine ⟨hcode, hbytes, fun hzero i hi => ?_⟩
  rw [hbytes]
  exact chunksOver_zeroed mem hi (hzero i hi)

/-- Restoring from a directory gives back what the call was given, and what the code leaves of its
destinations: above globals without types what the block held, which are of eight bytes at most
and as many as an `int` counts, and in the high half of an offset what the local held. -/
def CheckpointCall.RestoredIn (pb : ProtobufC) (tables : StackTables) (dir : Directory) : CheckpointCall → Prop
  | .memory mem curPage => MemoryRestored mem curPage dir
  | .global values types =>
    ∀ types' : Array8, wideTypes types' = types → (∀ ty ∈ types'.contents, ty.toNat ≤ 8) →
      types'.size.toNat < 2 ^ 31 → ∀ block : Memory,
        ∃ globals, restoreGlobal dir types' block = some (some globals) ∧ globals.size = types'.size ∧
          RestoredOver values block types' globals
  | .globalV2 globals => restoreGlobalV2 pb dir = some (some globals)
  | .pc funcIdx offset =>
    ∀ pc, restorePc dir pc = ⟨funcIdx, UInt64.ofNat (offset.toNat + 2 ^ 32 * (pc.offset.toNat / 2 ^ 32))⟩
  | .stackV3 callStack =>
    ∃ entries cs, typedFrames tables callStack = some entries ∧ restoreStack pb dir = some (some cs) ∧
      cs.entries = entries
  | .stackV4 callStack => ∃ cs, restoreStack pb dir = some (some cs) ∧ cs.entries = callStack

theorem openImageRb_congr {dir dir' : Directory} {name : String} (h : dir' name = dir name) :
    openImageRb dir' name = openImageRb dir name := by
  unfold openImageRb
  rw [h]

theorem memoryImageInfo_congr {dir dir' : Directory} (h : SameImages .memory dir dir') :
    memoryImageInfo dir' = memoryImageInfo dir := by
  unfold memoryImageInfo memoryImageInfoOrFail openImageRbOrFail
  rw [openImageRb_congr (h "mem_page_count.img" (by decide))]

theorem restoreMemoryInto_congr {dir dir' : Directory} (h : SameImages .memory dir dir') (dst dstSize : Nat)
    (ram : Ram) : restoreMemoryInto dir' dst dstSize ram = restoreMemoryInto dir dst dstSize ram := by
  unfold restoreMemoryInto restoreMemoryIntoOrFail visitMemoryChunksOrFail memoryImageInfoOrFail openImageRbOrFail
  rw [openImageRb_congr (h "memory.img" (by decide)), openImageRb_congr (h "mem_page_count.img" (by decide))]

theorem restoreStack_congr (pb : ProtobufC) {dir dir' : Directory} (h : SameImages .callStack dir dir') :
    restoreStack pb dir' = restoreStack pb dir := by
  unfold restoreStack
  rw [openImageRb_congr (h "call_stack.img" (by decide))]

/-- Only the images of its own kind matter to what is restored. -/
theorem CheckpointCall.RestoredIn.congr {pb : ProtobufC} {tables : StackTables} {dir dir' : Directory}
    {call : CheckpointCall} (hsame : SameImages call.kind dir dir') (h : call.RestoredIn pb tables dir) :
    call.RestoredIn pb tables dir' := by
  cases call with
  | memory mem curPage =>
    have hrestored : MemoryRestored mem curPage dir := h
    constructor
    · rw [memoryImageInfo_congr hsame]
      exact hrestored.pageCount
    · intro hpages dst dstSize ram hdst hlarge
      rw [restoreMemoryInto_congr hsame]
      exact hrestored.chunks hpages dst dstSize ram hdst hlarge
  | global values types =>
    intro types' hwide hwidths hlen block
    rw [restoreGlobal, openImageRb_congr (hsame "global.img" (List.mem_cons_self ..))]
    exact h types' hwide hwidths hlen block
  | globalV2 globals =>
    rw [RestoredIn, restoreGlobalV2, openImageRb_congr (hsame "global.img" (List.mem_cons_self ..))]
    exact h
  | pc funcIdx offset =>
    intro pc
    rw [restorePc, openImageRb_congr (hsame "program_counter.img" (List.mem_cons_self ..))]
    exact h pc
  | stackV3 callStack =>
    rw [RestoredIn, restoreStack_congr pb hsame]
    exact h
  | stackV4 callStack =>
    rw [RestoredIn, restoreStack_congr pb hsame]
    exact h

/-! ### One call -/

/-- The call returns 0 in this process, and the environment lets through what it writes. -/
def CheckpointCall.Succeeds (pb : ProtobufC) (tables : StackTables) (call : CheckpointCall) (p : Checkpointer) :
    Prop := (∃ p', call.run pb tables p = some (0, p')) ∧ call.Delivers pb tables p

/-- A call has left its images in a directory: the files are the encodings of what it was given,
and restoring from there gives it back. -/
structure CheckpointCall.LeftIn (pb : ProtobufC) (tables : StackTables) (call : CheckpointCall) (w : World Path)
    (dir : String) : Prop where
  complete : CompleteIn w dir (call.encodings pb tables)
  restored : call.RestoredIn pb tables (directory w dir)

section
variable {pb : ProtobufC} {tables : StackTables} {p p' : Checkpointer}

theorem CheckpointCall.LeftIn.congr {call : CheckpointCall} {w w' : World Path} {dir : String}
    (hsame : SameImages call.kind (directory w dir) (directory w' dir)) (h : call.LeftIn pb tables w dir) :
    call.LeftIn pb tables w' dir := by
  refine ⟨fun image himage => ?_, h.restored.congr hsame⟩
  obtain ⟨hsome, hfile⟩ := h.complete image himage
  exact ⟨hsome, (hsame image.1 (CheckpointCall.encodings_kind himage)).trans hfile⟩

/-- Images of a memory that are complete are images of it. -/
theorem CompleteIn.checkpointed {mem : Memory} {curPage : UInt32} {w : World Path} {dir : String}
    (h : CompleteIn w dir (CheckpointCall.encodings pb tables (.memory mem curPage))) :
    Checkpointed (directory w dir) mem curPage := by
  obtain ⟨hsome, hmem⟩ := h _ (List.mem_cons_self ..)
  obtain ⟨-, hsize⟩ := h _ (List.mem_cons_of_mem _ (List.mem_cons_self ..))
  have hencoding : memoryEncoding mem curPage = some (sparseImage mem curPage) := by
    unfold memoryEncoding at hsome ⊢
    split at hsome
    · rename_i hindexable
      exact if_pos hindexable
    · cases hsome
  exact ⟨hmem.trans hencoding, hsize⟩

/-- Globals that are written have been serialized. -/
theorem checkpointGlobalV2_serialized {globals : TypedArray}
    (hrun : checkpointGlobalV2 pb globals p = some (0, p')) : ∃ buf, serializeTypedArray pb globals = some buf := by
  unfold checkpointGlobalV2 at hrun
  dsimp only at hrun
  split at hrun
  · cases hrun
  · obtain ⟨buf, hbuf, -⟩ := Option.map_eq_some_iff.mp hrun
    exact ⟨buf, hbuf⟩

/-- The serialization of globals is restored as the globals. -/
theorem restoreGlobalV2_serialized (hpb : pb.Proto3) {dir : Directory} {globals : TypedArray} {buf : Array8}
    (hbuf : serializeTypedArray pb globals = some buf) (himage : dir "global.img" = some buf.contents) :
    restoreGlobalV2 pb dir = some (some globals) := by
  have hcontents : buf.contents = pb.pack State.typedArray (fromTypedArray globals) := serialize_contents hbuf
  have hlt : buf.contents.length < 2 ^ 32 := by
    rw [buf.length_contents]
    exact buf.size.toNat_lt
  have hback := serialize_bind hpb State.typedArray (by rw [← hpb.packs, ← hcontents]; exact hlt)
    (toTypedArray_fromTypedArray globals)
  have hserialize : pb.serialize State.typedArray (fromTypedArray globals) = some buf := hbuf
  rw [hserialize, Option.bind_some] at hback
  rw [restoreGlobalV2_image pb himage, deserializeTypedArray, imageBuffer_contents hlt, hback, Option.map_some]

/-- What a call that succeeds was given is left where it writes. -/
theorem CheckpointCall.Succeeds.leftIn (hpb : pb.Proto3) {call : CheckpointCall} (hsettled : p.Settled)
    (hrun : call.run pb tables p = some (0, p')) (hdelivers : call.Delivers pb tables p) :
    call.LeftIn pb tables p'.world (call.target p) := by
  have hcomplete := (CheckpointCall.complete_iff hpb hsettled hrun).mpr hdelivers rfl
  refine ⟨hcomplete, ?_⟩
  cases call with
  | memory mem curPage => exact hcomplete.checkpointed.memoryRestored
  | global values types =>
    rintro types' rfl hwidths hlen block
    exact restoreGlobal_image (completeIn_one.mp hcomplete) hwidths hlen block
  | globalV2 globals =>
    obtain ⟨buf, hbuf⟩ := checkpointGlobalV2_serialized hrun
    have himage := completeIn_one.mp hcomplete
    have hcontents : buf.contents = pb.pack State.typedArray (fromTypedArray globals) := serialize_contents hbuf
    rw [← hcontents] at himage
    exact restoreGlobalV2_serialized hpb hbuf himage
  | pc funcIdx offset =>
    have himage := completeIn_one.mp hcomplete
    rw [← List.append_nil (le32 offset)] at himage
    exact restorePc_image himage
  | stackV3 callStack =>
    obtain ⟨-, entries, -, -, hentries, -⟩ := checkpointStackV3_spec hrun
    have hframes : CheckpointCall.frames tables (.stackV3 callStack) = some entries := hentries
    obtain ⟨cs, hcs⟩ := stack_restored hpb hframes hsettled hrun hcomplete
    exact ⟨entries, cs, hentries, hcs⟩
  | stackV4 callStack => exact stack_restored hpb rfl hsettled hrun hcomplete

end

end Wasmig
