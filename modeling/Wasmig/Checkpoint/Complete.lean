import Wasmig.Checkpoint.Writers
import Wasmig.Memory.Delivered
import Wasmig.Memory.RoundTrip
import Wasmig.State.RoundTrip

/-! When a checkpoint that returns 0 is complete.

None of the functions looks at the result of the last flush or close of its stream, and
those that write globals and `wasmig_checkpoint_stack_v3` look at that of no write
either. `CheckpointCall.Delivers` is that the environment makes nothing of it: what the
call leaves to its last flush or close gets through. -/
namespace Wasmig
open Base Base.Stdio

/-! ### Processes between two calls -/

/-- Both static streams hold nothing back, and their files are there, that of the program
counter with no more than its eight bytes. -/
structure Checkpointer.Settled (p : Checkpointer) : Prop where
  programCounter : SettledHandle p.world "program_counter.img" p.programCounterFp
  short : ShortHandle 8 p.world p.programCounterFp
  callStack : SettledHandle p.world "call_stack.img" p.callStackFp

theorem Checkpointer.Fresh.settled {p : Checkpointer} (h : p.Fresh) : p.Settled := by
  constructor
  · intro fp hfp
    rw [h.programCounterFp] at hfp
    cases hfp
  · intro fp hfp
    rw [h.programCounterFp] at hfp
    cases hfp
  · intro fp hfp
    rw [h.callStackFp] at hfp
    cases hfp

/-- Files of another name do not matter to a static stream. -/
theorem ShortHandle.frame {n : Nat} {w w' : World Path} {name : String} {handle : Option (Writer Path)} {path : Path}
    (h : ShortHandle n w handle) (hsettled : SettledHandle w name handle) (hframe : Frame path w w')
    (hne : name ≠ path.name) : ShortHandle n w' handle := by
  intro fp hfp content hcontent
  rw [hframe.files] at hcontent
  · exact h fp hfp content hcontent
  · rintro rfl
    exact hne (hsettled fp hfp).1.symm

/-- A call that opens an image by name leaves the static streams alone. -/
theorem Checkpointer.Settled.frame {p : Checkpointer} {w : World Path} {path : Path} (h : p.Settled)
    (hw : Persists p.world w) (hframe : Frame path p.world w) (hne : path.name ≠ "program_counter.img") :
    Checkpointer.Settled {p with world := w} :=
  ⟨h.programCounter.persists hw, h.short.frame h.programCounter hframe hne.symm, h.callStack.persists hw⟩

/-- Memory images are not among the files of the static streams. -/
theorem SettledHandle.memory {cwd name : String} {w : World Path} {handle : Option (Writer Path)} (mem : Memory)
    (curPage : UInt32) (h : SettledHandle w name handle) (hmem : name ≠ "memory.img")
    (hsize : name ≠ "mem_page_count.img") :
    SettledHandle (checkpointMemory cwd mem curPage w).2 name handle := by
  intro fp hfp
  obtain ⟨hname, hpending, hfile⟩ := h fp hfp
  obtain ⟨-, hothers⟩ := checkpointMemory_outcome cwd mem curPage w
  refine ⟨hname, hpending, ?_⟩
  rw [hothers fp.path]
  · exact hfile
  · intro hpath
    exact hmem (hname.symm.trans (congrArg Path.name hpath))
  · intro hpath
    exact hsize (hname.symm.trans (congrArg Path.name hpath))

theorem ShortHandle.memory {n : Nat} {cwd name : String} {w : World Path} {handle : Option (Writer Path)} (mem : Memory)
    (curPage : UInt32) (h : ShortHandle n w handle) (hsettled : SettledHandle w name handle)
    (hmem : name ≠ "memory.img") (hsize : name ≠ "mem_page_count.img") :
    ShortHandle n (checkpointMemory cwd mem curPage w).2 handle := by
  intro fp hfp content hcontent
  obtain ⟨hname, -⟩ := hsettled fp hfp
  obtain ⟨-, hothers⟩ := checkpointMemory_outcome cwd mem curPage w
  rw [hothers fp.path] at hcontent
  · exact h fp hfp content hcontent
  · intro hpath
    exact hmem (hname.symm.trans (congrArg Path.name hpath))
  · intro hpath
    exact hsize (hname.symm.trans (congrArg Path.name hpath))

section
variable {pb : ProtobufC} {tables : StackTables} {p p' : Checkpointer} {code : Int}

theorem CheckpointCall.run_settled {call : CheckpointCall} (hrun : call.run pb tables p = some (code, p'))
    (h : p.Settled) : p'.Settled := by
  cases call with
  | memory mem curPage =>
    cases hrun
    exact ⟨h.programCounter.memory mem curPage (by decide) (by decide),
      h.short.memory mem curPage h.programCounter (by decide) (by decide),
      h.callStack.memory mem curPage (by decide) (by decide)⟩
  | global values types =>
    obtain ⟨rfl, rfl⟩ := Prod.ext_iff.mp (Option.some.inj hrun)
    obtain ⟨hp, hfile⟩ := checkpointGlobal_spec values types p
    rw [hp]
    exact h.frame hfile.stream.persists hfile.stream.frame (show "global.img" ≠ "program_counter.img" by decide)
  | globalV2 globals =>
    obtain ⟨hp, hfile⟩ := checkpointGlobalV2_spec hrun
    rw [hp]
    exact h.frame hfile.stream.persists hfile.stream.frame (show "global.img" ≠ "program_counter.img" by decide)
  | pc funcIdx offset =>
    obtain ⟨rfl, rfl⟩ := Prod.ext_iff.mp (Option.some.inj hrun)
    obtain ⟨hstream, -, hstatic, -, hother⟩ := checkpointPc_spec h.programCounter funcIdx offset
    refine ⟨hstatic.settled, checkpointPc_short h.programCounter h.short funcIdx offset, ?_⟩
    rw [hother]
    exact h.callStack.persists hstream.persists
  | stackV3 callStack =>
    obtain ⟨hp, entries, buf, -, -, -, hfile⟩ := checkpointStackV3_spec hrun
    rw [hp]
    exact h.frame hfile.stream.persists hfile.stream.frame (show "call_stack.img" ≠ "program_counter.img" by decide)
  | stackV4 callStack =>
    obtain ⟨buf, hbuf, -⟩ := Option.map_eq_some_iff.mp hrun
    obtain ⟨code', p'', hrun', hstream, -, hstatic, -, hother⟩ := checkpointStackV4_spec h.callStack hbuf
    cases hrun.symm.trans hrun'
    have hname := streamPath_name p.cwd h.callStack
    refine ⟨?_, ?_, hstatic.settled⟩
    · rw [hother]
      exact h.programCounter.persists hstream.persists
    · rw [hother]
      exact h.short.frame h.programCounter hstream.frame (hname.symm ▸ by decide)

theorem Checkpointer.Step.settled {a : ProcessAction} (hstep : Checkpointer.Step pb tables p a p') (h : p.Settled) :
    p'.Settled := by
  cases hstep with
  | call code hrun => exact CheckpointCall.run_settled hrun h
  | chdir cwd => exact ⟨h.programCounter, h.short, h.callStack⟩

/-- Every process is settled between two calls. -/
theorem Checkpointer.reached_settled {first : Checkpointer} {steps : List (Checkpointer × ProcessAction)}
    (hfirst : first.Fresh)
    (hrun : Run (Checkpointer.Step pb tables) first steps p) : p.Settled :=
  hrun.keeps Checkpointer.Settled (fun _ _ _ hstep => hstep.settled) hfirst.settled

end

/-! ### Images -/

/-- The message of a call stack of any number of entries. -/
def callStackMessage (entries : List CallStackEntry) : State.callStack.Value := (entries.map fromCallStackEntry, ())

/-- 32 bits hold the index of every chunk that is not all zero. -/
def Indexable (memory : Memory) (curPage : UInt32) : Prop :=
  ∀ k ∈ nonzeroChunks memory 0 (curPage.toNat * 16), k < 2 ^ 32

instance (memory : Memory) (curPage : UInt32) : Decidable (Indexable memory curPage) :=
  inferInstanceAs (Decidable (∀ k ∈ nonzeroChunks memory 0 (curPage.toNat * 16), k < 2 ^ 32))

/-- They do for as many pages as WebAssembly has at most. -/
theorem Indexable.ofPages {memory : Memory} {curPage : UInt32} (hpages : curPage.toNat ≤ 65536) :
    Indexable memory curPage := by
  intro k hk
  have hlt := (mem_nonzeroChunks.mp hk).1
  omega

/-- The sparse encoding of a memory. There is none of one whose indices take more than 32 bits. -/
def memoryEncoding (memory : Memory) (curPage : UInt32) : Option Bytes :=
  if Indexable memory curPage then some (sparseImage memory curPage) else none

section
variable (pb : ProtobufC) (tables : StackTables)

/-- The image files a call is to write, by name, and the complete encoding of its argument
in each, if it has one. -/
def CheckpointCall.encodings (call : CheckpointCall) : List (String × Option Bytes) :=
  match call with
  | .memory mem curPage =>
    [("memory.img", memoryEncoding mem curPage), ("mem_page_count.img", some (sparseMetadata curPage))]
  | .global values types => [("global.img", some (globalsImage values 0 types))]
  | .globalV2 globals => [("global.img", some (pb.pack State.typedArray (fromTypedArray globals)))]
  | .pc funcIdx offset => [("program_counter.img", some (le32 funcIdx ++ le32 offset))]
  | .stackV3 callStack =>
    [("call_stack.img",
      (typedFrames tables callStack).map fun entries => pb.pack State.callStack (callStackMessage entries))]
  | .stackV4 callStack => [("call_stack.img", some (pb.pack State.callStack (callStackMessage callStack)))]

end

/-- The directory a static stream's file is in, or will be in once it is opened. -/
def streamDir (cwd : String) : Option (Writer Path) → String
  | some fp => fp.path.dir
  | none => cwd

/-- The directory a call writes its images in. -/
def CheckpointCall.target (call : CheckpointCall) (p : Checkpointer) : String :=
  match call with
  | .pc _ _ => streamDir p.cwd p.programCounterFp
  | .stackV4 _ => streamDir p.cwd p.callStackFp
  | _ => p.cwd

theorem SettledHandle.path {w : World Path} {name : String} {handle : Option (Writer Path)} (cwd : String)
    (h : SettledHandle w name handle) : streamPath cwd name handle = ⟨streamDir cwd handle, name⟩ := by
  cases handle with
  | none => rfl
  | some fp =>
    obtain ⟨hname, -⟩ := h fp rfl
    rw [← hname]
    rfl

/-- The images of a call are complete in a directory: its arguments have encodings, and those are
what the files hold. -/
def CompleteIn (w : World Path) (dir : String) (images : List (String × Option Bytes)) : Prop :=
  ∀ image ∈ images, image.2.isSome = true ∧ w.files ⟨dir, image.1⟩ = image.2

theorem completeIn_one {w : World Path} {dir name : String} {image : Bytes} :
    CompleteIn w dir [(name, some image)] ↔ w.files ⟨dir, name⟩ = some image := by
  simp [CompleteIn]

/-- A file of which this is known is the whole image when all that was held back got through. -/
theorem whole_iff {w : World Path} {path : Path} {image : Bytes} {answer : Option Nat} {h : Nat}
    (hle : h ≤ image.length)
    (hfile : w.files path = some (image.take (image.length - h + survivors answer h))) :
    w.files path = some image ↔ Passes answer h := by
  rw [hfile, Option.some.injEq]
  exact take_survivors_iff hle

/-- A part of an image over a file that was no longer than it is the image when what is missing is
in the file. -/
theorem patched_iff {image old : Bytes} (hshort : old.length ≤ image.length) (n : Nat) :
    image.take n ++ old.drop n = image ↔ image.drop n <+: old.drop n := by
  constructor
  · intro h
    have hprefix : image <+: image.take n ++ old.drop n := ⟨[], by rw [List.append_nil, h]⟩
    exact (prefix_over_iff image (old.drop n) n).mp hprefix
  · intro h
    have hle : (old.drop n).length ≤ (image.drop n).length := by
      rw [List.length_drop, List.length_drop]
      omega
    rw [← h.eq_of_length_le hle, List.take_append_drop]

/-! ### What gets through -/

/-- A file of blocks that are written without a look at the results: no write is short, and
the close gets through what they leave to it. -/
def FileDelivered (w : World Path) (blocks : List Nat) : Prop :=
  w.fault w.calls = none →
    ∃ h, heldBack w.fault (w.calls + 1) 0 blocks = some h ∧ Passes (w.fault (w.calls + 1 + blocks.length)) h

/-- The program counter's last flush gets through what the writes leave to it, or what it
loses is in the file already. -/
def PcDelivered (p : Checkpointer) (funcIdx offset : UInt32) : Prop :=
  Opens p.world p.programCounterFp →
    ∀ h, heldBack p.world.fault (firstCall p.world p.programCounterFp) 0 [4, 4] = some h →
      (le32 funcIdx ++ le32 offset).drop
          (8 - h + survivors (p.world.fault (firstCall p.world p.programCounterFp + 2)) h) <+:
        (overwritten p.world p.programCounterFp).drop
          (8 - h + survivors (p.world.fault (firstCall p.world p.programCounterFp + 2)) h)

/-- The last flush of a call stack of so many entries and bytes gets through what the write
leaves to it, and the entries can be counted in 32 bits. -/
def StackDelivered (p : Checkpointer) (entries bytes : Nat) : Prop :=
  Opens p.world p.callStackFp → p.world.fault (firstCall p.world p.callStackFp) = none →
    ∀ h, heldBack p.world.fault (firstCall p.world p.callStackFp + 1) 0 [bytes] = some h →
      entries < 2 ^ 32 ∧ Passes (p.world.fault (firstCall p.world p.callStackFp + 2)) h

section
variable (pb : ProtobufC) (tables : StackTables)

/-- The environment lets through what the call writes, and what it counts in 32 bits fits there. -/
def CheckpointCall.Delivers (call : CheckpointCall) (p : Checkpointer) : Prop :=
  match call with
  | .memory mem curPage =>
    MemoryDelivered p.world mem curPage ∧
      ∀ image info, MemoryHeld p.world mem curPage image info → Indexable mem curPage
  | .global _ types => FileDelivered p.world (globalsBlocks types)
  | .globalV2 globals => FileDelivered p.world [(pb.pack State.typedArray (fromTypedArray globals)).length]
  | .pc funcIdx offset => PcDelivered p funcIdx offset
  | .stackV3 callStack =>
    ∀ entries, typedFrames tables callStack = some entries →
      FileDelivered p.world [(pb.pack State.callStack (callStackMessage entries)).length]
  | .stackV4 callStack =>
    StackDelivered p callStack.length (pb.pack State.callStack (fromCallStack (callStackOf callStack))).length

end

section
variable {pb : ProtobufC} {tables : StackTables} {p p' : Checkpointer} {code : Int}

theorem FileOutcome.complete_iff {w w' : World Path} {path : Path} {block : Bytes} {blocks : List Nat}
    (h : FileOutcome w path block blocks code w') : (code = 0 → w'.files path = some block) ↔ FileDelivered w blocks := by
  rw [h.code]
  apply forall_congr'
  intro hopens
  cases hreach : heldBack w.fault (w.calls + 1) 0 blocks with
  | none =>
    obtain ⟨content, hcontent, hlt⟩ := h.short hopens hreach
    refine iff_of_false ?_ ?_
    · intro h
      cases hcontent.symm.trans h
      exact Nat.lt_irrefl _ hlt
    · rintro ⟨n, hn, -⟩
      cases hn
  | some n =>
    obtain ⟨hle, hfile⟩ := h.stream.file n hopens hreach
    rw [List.drop_nil, List.append_nil] at hfile
    rw [whole_iff hle hfile]
    constructor
    · intro hpass
      exact ⟨n, rfl, hpass⟩
    · intro h
      obtain ⟨n', hn', hpass⟩ := h
      cases hn'
      exact hpass

/-- A file whose writes all got through is the whole image. -/
theorem FileOutcome.delivered {w w' : World Path} {path : Path} {block : Bytes} {blocks : List Nat}
    (h : FileOutcome w path block blocks 0 w') (hdelivered : FileDelivered w blocks) :
    w'.files path = some block := by
  have hopens := h.code.mp rfl
  obtain ⟨n, hreach, hpass⟩ := hdelivered hopens
  obtain ⟨hle, hfile⟩ := h.stream.file n hopens hreach
  rw [hfile, (take_survivors_iff hle).mpr hpass, List.drop_nil, List.append_nil]

theorem memory_complete_iff (mem : Memory) (curPage : UInt32) (cwd : String) (w : World Path) :
    ((checkpointMemory cwd mem curPage w).1 = 0 →
      CompleteIn (checkpointMemory cwd mem curPage w).2 cwd
        [("memory.img", memoryEncoding mem curPage), ("mem_page_count.img", some (sparseMetadata curPage))]) ↔
      MemoryDelivered w mem curPage ∧ ∀ image info, MemoryHeld w mem curPage image info → Indexable mem curPage := by
  obtain ⟨hcode, hfiles⟩ := checkpointMemory_spec cwd mem curPage w
  have hall : ∀ image info, MemoryHeld w mem curPage image info →
      (CompleteIn (checkpointMemory cwd mem curPage w).2 cwd
          [("memory.img", memoryEncoding mem curPage), ("mem_page_count.img", some (sparseMetadata curPage))] ↔
        (Passes (w.fault (memoryLast w mem curPage)) image ∧
          Passes (w.fault (memoryLast w mem curPage + 1)) info) ∧ Indexable mem curPage) := by
    intro image info h
    obtain ⟨himage, hinfo, hmem, hsize⟩ := hfiles image info h
    have hsize : _ = some (sparseMetadata curPage) ↔ _ := whole_iff hinfo hsize
    have hmem := whole_iff himage hmem
    rw [CompleteIn, List.forall_mem_cons, List.forall_mem_singleton, memoryEncoding]
    by_cases hindexable : Indexable mem curPage
    · rw [if_pos hindexable]
      simp only [Option.isSome_some, true_and, hindexable, and_true]
      exact and_congr hmem hsize
    · rw [if_neg hindexable]
      simp [hindexable]
  rw [hcode]
  constructor
  · intro hcomplete
    have hboth := fun image info h => (hall image info h).mp (hcomplete ⟨image, info, h⟩)
    exact ⟨fun image info h => (hboth image info h).1, fun image info h => (hboth image info h).2⟩
  · rintro ⟨hdelivered, hindexable⟩ ⟨image, info, h⟩
    exact (hall image info h).mpr ⟨hdelivered image info h, hindexable image info h⟩

theorem pc_complete_iff (h : SettledHandle p.world "program_counter.img" p.programCounterFp)
    (hshort : ShortHandle 8 p.world p.programCounterFp) (funcIdx offset : UInt32) :
    ((checkpointPc funcIdx offset p).1 = 0 →
      (checkpointPc funcIdx offset p).2.world.files ⟨streamDir p.cwd p.programCounterFp, "program_counter.img"⟩ =
        some (le32 funcIdx ++ le32 offset)) ↔
      PcDelivered p funcIdx offset := by
  obtain ⟨hstream, hcode, -⟩ := checkpointPc_spec h funcIdx offset
  rw [h.path] at hstream
  have hlength : (le32 funcIdx ++ le32 offset).length = 8 := by rw [List.length_append, le32_length, le32_length]
  rw [hcode, PcDelivered, and_imp]
  apply forall_congr'
  intro hopens
  cases hreach : heldBack p.world.fault (firstCall p.world p.programCounterFp) 0 [4, 4] with
  | none =>
    refine iff_of_true ?_ ?_
    · intro hsome
      cases hsome
    · intro n hn
      cases hn
  | some n =>
    obtain ⟨-, hfile⟩ := hstream.file n hopens hreach
    rw [hlength] at hfile
    rw [hfile, Option.some.injEq, patched_iff (hlength.symm ▸ hshort.overwritten_le)]
    constructor
    · intro hrest n' hn'
      cases hn'
      exact hrest rfl
    · intro hrest _
      exact hrest n rfl

/-- A call stack of entries that can be counted in 32 bits is kept whole. -/
theorem callStackOf_message {entries : List CallStackEntry} (h : entries.length < 2 ^ 32) :
    fromCallStack (callStackOf entries) = callStackMessage entries := by
  show ((entries.take (lengthOf entries).toNat).map fromCallStackEntry, ()) = _
  rw [take_lengthOf h]
  rfl

/-- Every entry takes a byte. -/
theorem length_le_callStackMessage (entries : List CallStackEntry) :
    entries.length ≤ (State.callStack.encode (callStackMessage entries)).length := by
  have hrecords := Wire.Fields.length_le_encodeRecords (State.callStack.fields.records (callStackMessage entries))
  refine Nat.le_trans (Nat.le_of_eq ?_) hrecords
  simp [State.callStack, Wire.Fields.records, callStackMessage]

/-- An encoding that is no longer than a buffer is one of entries that can be counted. -/
theorem pack_countable (hpb : pb.Proto3) {entries : List CallStackEntry}
    (hlength : (pb.pack State.callStack (callStackMessage entries)).length < 2 ^ 32) : entries.length < 2 ^ 32 := by
  rw [hpb.packs] at hlength
  exact Nat.lt_of_le_of_lt (length_le_callStackMessage entries) hlength

theorem stackV4_complete_iff (hpb : pb.Proto3) (h : SettledHandle p.world "call_stack.img" p.callStackFp)
    {callStack : List CallStackEntry} (hrun : checkpointStackV4 pb callStack p = some (code, p')) :
    (code = 0 →
      p'.world.files ⟨streamDir p.cwd p.callStackFp, "call_stack.img"⟩ =
        some (pb.pack State.callStack (callStackMessage callStack))) ↔
      StackDelivered p callStack.length (pb.pack State.callStack (fromCallStack (callStackOf callStack))).length := by
  obtain ⟨buf, hbuf, -⟩ := Option.map_eq_some_iff.mp hrun
  obtain ⟨code', p'', hrun', hstream, hcode, -⟩ := checkpointStackV4_spec h hbuf
  cases hrun.symm.trans hrun'
  have hcontents : buf.contents = pb.pack State.callStack (fromCallStack (callStackOf callStack)) :=
    serialize_contents hbuf
  have hsize : buf.contents.length < 2 ^ 32 := by
    rw [buf.length_contents]
    exact buf.size.toNat_lt
  rw [h.path] at hstream
  rw [← hcontents, hcode, StackDelivered, and_imp, and_imp]
  refine forall_congr' fun hopens => forall_congr' fun htruncated => ?_
  cases hreach : heldBack p.world.fault (firstCall p.world p.callStackFp + 1) 0 [buf.contents.length] with
  | none =>
    refine iff_of_true ?_ ?_
    · intro hsome
      cases hsome
    · intro n hn
      cases hn
  | some n =>
    obtain ⟨hle, hfile⟩ := hstream.file n ⟨hopens, htruncated⟩ hreach
    rw [List.drop_nil, List.append_nil] at hfile
    have hwhole : ∀ hlt : callStack.length < 2 ^ 32,
        (p'.world.files ⟨streamDir p.cwd p.callStackFp, "call_stack.img"⟩ =
            some (pb.pack State.callStack (callStackMessage callStack)) ↔
          Passes (p.world.fault (firstCall p.world p.callStackFp + 2)) n) := by
      intro hlt
      rw [← callStackOf_message hlt, ← hcontents]
      exact whole_iff hle hfile
    constructor
    · intro hcomplete n' hn'
      cases hn'
      have htake := Option.some.inj (hfile.symm.trans (hcomplete rfl))
      have hlt : callStack.length < 2 ^ 32 :=
        pack_countable hpb (htake ▸ Nat.lt_of_le_of_lt (List.length_take_le' ..) hsize)
      exact ⟨hlt, (hwhole hlt).mp (hcomplete rfl)⟩
    · intro hdelivered _
      obtain ⟨hlt, hpass⟩ := hdelivered n rfl
      exact (hwhole hlt).mpr hpass

theorem typedFrames_length {tables : StackTables} {frames : List BaseCallStackEntry}
    {entries : List CallStackEntry} (h : typedFrames tables frames = some entries) :
    entries.length = frames.length := by
  induction frames generalizing entries with
  | nil =>
    cases h
    rfl
  | cons frame rest ih =>
    rw [typedFrames_cons] at h
    obtain ⟨localsTypes, -, h⟩ := Option.bind_eq_some_iff.mp h
    obtain ⟨stackTable, -, h⟩ := Option.bind_eq_some_iff.mp h
    obtain ⟨locals, -, h⟩ := Option.bind_eq_some_iff.mp h
    obtain ⟨valueStack, -, h⟩ := Option.bind_eq_some_iff.mp h
    obtain ⟨entries', hentries, h⟩ := Option.map_eq_some_iff.mp h
    cases h
    rw [List.length_cons, List.length_cons, ih hentries]

theorem stackV3_complete_iff {callStack : List BaseCallStackEntry}
    (hrun : checkpointStackV3 pb tables callStack p = some (code, p')) :
    (code = 0 → CompleteIn p'.world p.cwd (CheckpointCall.encodings pb tables (.stackV3 callStack))) ↔
      CheckpointCall.Delivers pb tables (.stackV3 callStack) p := by
  obtain ⟨-, entries, buf, hlength, hentries, hbuf, hfile⟩ := checkpointStackV3_spec hrun
  have hlt : entries.length < 2 ^ 32 := by
    rw [typedFrames_length hentries]
    omega
  have hcontents : buf.contents = pb.pack State.callStack (callStackMessage entries) := by
    rw [← callStackOf_message hlt]
    exact serialize_contents hbuf
  have hone : CheckpointCall.encodings pb tables (.stackV3 callStack) = [("call_stack.img", some buf.contents)] := by
    rw [CheckpointCall.encodings, hentries, hcontents]
    rfl
  have hdelivers : CheckpointCall.Delivers pb tables (.stackV3 callStack) p ↔
      FileDelivered p.world [buf.contents.length] := by
    rw [hcontents]
    constructor
    · intro h
      exact h entries hentries
    · intro h entries' hentries'
      cases hentries.symm.trans hentries'
      exact h
  rw [hone, completeIn_one, hdelivers]
  exact hfile.complete_iff

theorem CheckpointCall.complete_iff (hpb : pb.Proto3) (hp : p.Settled) {call : CheckpointCall}
    (hrun : call.run pb tables p = some (code, p')) :
    (code = 0 → CompleteIn p'.world (call.target p) (call.encodings pb tables)) ↔ call.Delivers pb tables p := by
  cases call with
  | memory mem curPage =>
    cases hrun
    exact memory_complete_iff mem curPage p.cwd p.world
  | global values types =>
    obtain ⟨rfl, rfl⟩ := Prod.ext_iff.mp (Option.some.inj hrun)
    rw [CheckpointCall.encodings, completeIn_one]
    exact (checkpointGlobal_spec values types p).2.complete_iff
  | globalV2 globals =>
    rw [CheckpointCall.encodings, completeIn_one]
    exact (checkpointGlobalV2_spec hrun).2.complete_iff
  | pc funcIdx offset =>
    obtain ⟨rfl, rfl⟩ := Prod.ext_iff.mp (Option.some.inj hrun)
    rw [CheckpointCall.encodings, completeIn_one]
    exact pc_complete_iff hp.programCounter hp.short funcIdx offset
  | stackV3 callStack => exact stackV3_complete_iff hrun
  | stackV4 callStack =>
    rw [CheckpointCall.encodings, completeIn_one]
    exact stackV4_complete_iff hpb hp.callStack hrun

/-- Whatever has been called before: a call that returns 0 has complete images exactly
when the environment lets through what it writes and 32 bits hold what it counts. -/
theorem checkpoint_complete_iff (hpb : pb.Proto3) {first : Checkpointer} {steps : List (Checkpointer × ProcessAction)}
    (hfirst : first.Fresh) (hsteps : Run (Checkpointer.Step pb tables) first steps p) (call : CheckpointCall)
    (hrun : call.run pb tables p = some (code, p')) :
    (code = 0 → CompleteIn p'.world (call.target p) (call.encodings pb tables)) ↔ call.Delivers pb tables p :=
  CheckpointCall.complete_iff hpb (Checkpointer.reached_settled hfirst hsteps) hrun

end

/-- A new process in `/`, none of whose files is there, and whose `n`-th call on a file
gets nothing through. -/
def failingAt (n : Nat) : Checkpointer :=
  ⟨"/", ⟨fun _ => none, fun k => if k = n then some 0 else none, 0⟩, none, none⟩

theorem failingAt_fresh (n : Nat) : (failingAt n).Fresh := ⟨rfl, rfl⟩

/-- Tables that know no function. -/
def noTables : StackTables := ⟨fun _ => none, fun _ _ => none⟩

theorem checkpoint_complete_iff_flush_fails :
    ((0 : Int) = 0 →
      CompleteIn (checkpointPc 1 2 (failingAt 3)).2.world "/" (CheckpointCall.encodings .wire noTables (.pc 1 2))) ↔
      CheckpointCall.Delivers .wire noTables (.pc 1 2) (failingAt 3) :=
  checkpoint_complete_iff ProtobufC.wire_proto3 (failingAt_fresh 3) (.nil _) (.pc 1 2) rfl

/-- The last flush fails, which is reported to nobody, and the image is empty. -/
theorem checkpoint_not_complete :
    (checkpointPc 1 2 (failingAt 3)).1 = 0 ∧
      directory (checkpointPc 1 2 (failingAt 3)).2.world "/" "program_counter.img" = some [] ∧
      ¬ CompleteIn (checkpointPc 1 2 (failingAt 3)).2.world "/"
        (CheckpointCall.encodings .wire noTables (.pc 1 2)) := by
  have hfile : (checkpointPc 1 2 (failingAt 3)).2.world.files ⟨"/", "program_counter.img"⟩ = some [] := rfl
  refine ⟨rfl, hfile, fun h => ?_⟩
  exact absurd (hfile.symm.trans (completeIn_one.mp h)) (by decide)

end Wasmig
