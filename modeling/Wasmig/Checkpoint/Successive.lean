import Wasmig.Checkpoint.Complete
import Wasmig.State.Restore

/-! Checkpoint after checkpoint in one directory.

As long as the working directory does not change, the static streams and the files opened
by name are in it (`Checkpointer.Within`), and what the restore functions read there is what the
last checkpoint left. -/
namespace Wasmig
open Base Base.Stdio

/-! ### Staying in a directory -/

/-- The process is in `dir`, and so are the files of its static streams. -/
structure Checkpointer.Within (dir : String) (p : Checkpointer) : Prop where
  cwd : p.cwd = dir
  programCounter : streamDir p.cwd p.programCounterFp = dir
  callStack : streamDir p.cwd p.callStackFp = dir

theorem Checkpointer.Fresh.within {p : Checkpointer} (h : p.Fresh) : p.Within p.cwd := by
  refine ⟨rfl, ?_, ?_⟩
  · rw [h.programCounterFp]
    rfl
  · rw [h.callStackFp]
    rfl

/-- A call that does not touch the static streams. -/
theorem Checkpointer.Within.world {dir : String} {p : Checkpointer} (h : p.Within dir) (w : World Path) :
    Checkpointer.Within dir {p with world := w} := ⟨h.cwd, h.programCounter, h.callStack⟩

/-- A static stream stays where it is. -/
theorem StaticOutcome.streamDir {name dir cwd : String} {w' : World Path} {handle' : Option (Writer Path)}
    (h : StaticOutcome name ⟨dir, name⟩ w' handle') (hcwd : cwd = dir) : streamDir cwd handle' = dir := by
  cases handle' with
  | none => exact hcwd
  | some fp => exact congrArg Path.dir (h.path fp rfl)

section
variable {pb : ProtobufC} {tables : StackTables} {p p' : Checkpointer} {code : Int}

theorem CheckpointCall.run_within {dir : String} {call : CheckpointCall}
    (hrun : call.run pb tables p = some (code, p')) (hsettled : p.Settled) (h : p.Within dir) : p'.Within dir := by
  cases call with
  | memory mem curPage =>
    cases hrun
    exact h.world _
  | global values types =>
    obtain ⟨rfl, rfl⟩ := Prod.ext_iff.mp (Option.some.inj hrun)
    rw [(checkpointGlobal_spec values types p).1]
    exact h.world _
  | globalV2 globals =>
    rw [(checkpointGlobalV2_spec hrun).1]
    exact h.world _
  | pc funcIdx offset =>
    obtain ⟨rfl, rfl⟩ := Prod.ext_iff.mp (Option.some.inj hrun)
    obtain ⟨-, -, hstatic, hcwd, hother⟩ := checkpointPc_spec hsettled.programCounter funcIdx offset
    rw [hsettled.programCounter.path, h.programCounter] at hstatic
    refine ⟨hcwd.trans h.cwd, hstatic.streamDir (hcwd.trans h.cwd), ?_⟩
    rw [hcwd, hother]
    exact h.callStack
  | stackV3 callStack =>
    rw [(checkpointStackV3_spec hrun).1]
    exact h.world _
  | stackV4 callStack =>
    obtain ⟨buf, hbuf, -⟩ := Option.map_eq_some_iff.mp hrun
    obtain ⟨code', p'', hrun', -, -, hstatic, hcwd, hother⟩ := checkpointStackV4_spec hsettled.callStack hbuf
    cases hrun.symm.trans hrun'
    rw [hsettled.callStack.path, h.callStack] at hstatic
    refine ⟨hcwd.trans h.cwd, ?_, hstatic.streamDir (hcwd.trans h.cwd)⟩
    rw [hcwd, hother]
    exact h.programCounter

/-- The working directory never changes. -/
def OneDirectory (steps : List (Checkpointer × ProcessAction)) : Prop := ∀ step ∈ steps, ∀ cwd, step.2 ≠ .chdir cwd

/-- A run in one directory: the process is settled, and in it. -/
theorem reached_within {first : Checkpointer} {steps : List (Checkpointer × ProcessAction)} (hfirst : first.Fresh)
    (hrun : Run (Checkpointer.Step pb tables) first steps p) (hstays : OneDirectory steps) :
    p.Settled ∧ p.Within first.cwd := by
  have hstep : ∀ (s : Checkpointer) (a : ProcessAction) (s' : Checkpointer), Checkpointer.Step pb tables s a s' →
      s.Settled ∧ s.Within first.cwd → (∀ cwd, a ≠ .chdir cwd) → s'.Settled ∧ s'.Within first.cwd := by
    intro s a s' hstep h hcall
    obtain ⟨hsettled, hwithin⟩ := h
    refine ⟨hstep.settled hsettled, ?_⟩
    cases hstep with
    | call code hrun => exact CheckpointCall.run_within hrun hsettled hwithin
    | chdir cwd => exact absurd rfl (hcall cwd)
  exact (Run.invariant hstep hrun ⟨hfirst.settled, hfirst.within⟩ hstays).2

theorem CheckpointCall.target_within {dir : String} (call : CheckpointCall) (h : p.Within dir) :
    call.target p = dir := by
  cases call with
  | pc funcIdx offset => exact h.programCounter
  | stackV4 callStack => exact h.callStack
  | memory mem curPage => exact h.cwd
  | global values types => exact h.cwd
  | globalV2 globals => exact h.cwd
  | stackV3 callStack => exact h.cwd

/-! ### The program counter -/

/-- After calls in one directory of which the last checkpointed a program counter that got
through, that program counter is restored exactly when the high half of the local it is
read into was zero. -/
theorem pc_roundTrip_iff {first : Checkpointer} {steps : List (Checkpointer × ProcessAction)} (hfirst : first.Fresh)
    (hsteps : Run (Checkpointer.Step pb tables) first steps p) (hstays : OneDirectory steps) (funcIdx offset : UInt32)
    (hcode : (checkpointPc funcIdx offset p).1 = 0) (hdelivered : PcDelivered p funcIdx offset) (pc : CodePos) :
    restorePc (directory (checkpointPc funcIdx offset p).2.world first.cwd) pc = ⟨funcIdx, offset.toUInt64⟩ ↔
      pc.offset.toNat < 2 ^ 32 := by
  obtain ⟨hsettled, hwithin⟩ := reached_within hfirst hsteps hstays
  have himage := (pc_complete_iff hsettled.programCounter hsettled.short funcIdx offset).mpr hdelivered hcode
  rw [hwithin.programCounter, ← List.append_nil (le32 offset)] at himage
  exact restorePc_eq_iff himage pc

/-- A new process in `/` that nothing fails for. -/
def newProcess : Checkpointer := ⟨"/", freshWorld, none, none⟩

theorem newProcess_fresh : newProcess.Fresh := ⟨rfl, rfl⟩

/-- Nothing is lost when nothing fails. -/
theorem PcDelivered.ofFaultless {p : Checkpointer} (h : p.world.Faultless) (funcIdx offset : UInt32) :
    PcDelivered p funcIdx offset := by
  intro _ n hn
  have hle := heldBack_le hn
  rw [h, List.drop_of_length_le]
  · exact List.nil_prefix
  · rw [List.length_append, le32_length, le32_length, survivors]
    have hsum : [4, 4].sum = 8 := rfl
    omega

theorem pc_roundTrip_iff_once :
    restorePc (directory (checkpointPc 1 2 newProcess).2.world "/") ⟨5, 6⟩ = ⟨1, (2 : UInt32).toUInt64⟩ ↔
      (⟨5, 6⟩ : CodePos).offset.toNat < 2 ^ 32 :=
  pc_roundTrip_iff newProcess_fresh (show Run (Checkpointer.Step .wire noTables) newProcess [] newProcess from .nil _)
    (fun _ h => by cases h) 1 2 rfl (.ofFaultless freshWorld_faultless 1 2) ⟨5, 6⟩

/-- The local's high half is restored with the offset. -/
theorem pc_high_half_kept :
    (checkpointPc 1 2 newProcess).1 = 0 ∧
      restorePc (directory (checkpointPc 1 2 newProcess).2.world "/") ⟨0, 0x100000000⟩ = ⟨1, 0x100000000 + 2⟩ ∧
      restorePc (directory (checkpointPc 1 2 newProcess).2.world "/") ⟨0, 0x100000000⟩ ≠ ⟨1, 2⟩ := by
  have hfile : directory (checkpointPc 1 2 newProcess).2.world "/" "program_counter.img" =
      some (le32 1 ++ (le32 2 ++ [])) := rfl
  have hrestored := restorePc_image hfile ⟨0, 0x100000000⟩
  rw [hrestored]
  exact ⟨rfl, rfl, by decide⟩

/-! ### Call stacks -/

variable (tables) in
/-- The frames of a call that checkpoints a call stack. -/
def CheckpointCall.frames (call : CheckpointCall) : Option (List CallStackEntry) :=
  match call with
  | .stackV3 callStack => typedFrames tables callStack
  | .stackV4 callStack => some callStack
  | _ => none

/-- A call that checkpoints a call stack returns 0 only when it has opened the file, and
puts in it the call stack's serialization, or a part of that. -/
theorem stack_image {call : CheckpointCall} {entries : List CallStackEntry}
    (hcall : call.frames tables = some entries)
    (hsettled : p.Settled) (hrun : call.run pb tables p = some (0, p')) :
    ∃ buf content, serializeCallStack pb (callStackOf entries) = some buf ∧
      p'.world.files ⟨call.target p, "call_stack.img"⟩ = some content ∧ content.length ≤ buf.contents.length := by
  cases call with
  | stackV3 callStack =>
    obtain ⟨-, entries', buf, -, hentries, hbuf, hfile⟩ := checkpointStackV3_spec hrun
    cases hcall.symm.trans hentries
    have hopens := hfile.code.mp rfl
    cases hreach : heldBack p.world.fault (p.world.calls + 1) 0 [buf.contents.length] with
    | none =>
      obtain ⟨content, hcontent, hlt⟩ := hfile.short hopens hreach
      exact ⟨buf, content, hbuf, hcontent, Nat.le_of_lt hlt⟩
    | some n =>
      obtain ⟨-, hcontent⟩ := hfile.stream.file n hopens hreach
      rw [List.drop_nil, List.append_nil] at hcontent
      exact ⟨buf, _, hbuf, hcontent, List.length_take_le' ..⟩
  | stackV4 callStack =>
    cases hcall
    obtain ⟨buf, hbuf, -⟩ := Option.map_eq_some_iff.mp hrun
    obtain ⟨code', p'', hrun', hstream, hcode, -⟩ := checkpointStackV4_spec hsettled.callStack hbuf
    cases hrun.symm.trans hrun'
    obtain ⟨hopens, hheld⟩ := hcode.mp rfl
    obtain ⟨n, hreach⟩ := Option.isSome_iff_exists.mp hheld
    obtain ⟨-, hcontent⟩ := hstream.file n hopens hreach
    rw [List.drop_nil, List.append_nil, hsettled.callStack.path] at hcontent
    exact ⟨buf, _, hbuf, hcontent, List.length_take_le' ..⟩
  | memory mem curPage => cases hcall
  | global values types => cases hcall
  | globalV2 globals => cases hcall
  | pc funcIdx offset => cases hcall

theorem frames_encodings {call : CheckpointCall} {entries : List CallStackEntry}
    (hcall : call.frames tables = some entries) :
    call.encodings pb tables = [("call_stack.img", some (pb.pack State.callStack (callStackMessage entries)))] := by
  cases call with
  | stackV3 callStack =>
    have hentries : typedFrames tables callStack = some entries := hcall
    rw [CheckpointCall.encodings, hentries]
    rfl
  | stackV4 callStack =>
    cases hcall
    rfl
  | memory mem curPage => cases hcall
  | global values types => cases hcall
  | globalV2 globals => cases hcall
  | pc funcIdx offset => cases hcall

/-- A call stack's serialization is restored as the call stack. -/
theorem restoreStack_serialized (hpb : pb.Proto3) {dir : Directory} {cs : CallStack} {buf : Array8}
    (hbuf : serializeCallStack pb cs = some buf) (himage : dir "call_stack.img" = some buf.contents) :
    restoreStack pb dir = some (some cs) := by
  have hcontents : buf.contents = pb.pack State.callStack (fromCallStack cs) := serialize_contents hbuf
  have hlt : buf.contents.length < 2 ^ 32 := by
    rw [buf.length_contents]
    exact buf.size.toNat_lt
  have hback := serialize_bind hpb State.callStack (by rw [← hpb.packs, ← hcontents]; exact hlt)
    (toCallStack_fromCallStack cs)
  have hserialize : pb.serialize State.callStack (fromCallStack cs) = some buf := hbuf
  rw [hserialize, Option.bind_some] at hback
  rw [restoreStack_image pb himage, deserializeCallStack, imageBuffer_contents hlt, hback, Option.map_some]

/-- A call stack whose image is complete is restored. -/
theorem stack_restored (hpb : pb.Proto3) {call : CheckpointCall} {entries : List CallStackEntry}
    (hcall : call.frames tables = some entries) (hsettled : p.Settled) (hrun : call.run pb tables p = some (0, p'))
    (hcomplete : CompleteIn p'.world (call.target p) (call.encodings pb tables)) :
    ∃ cs, restoreStack pb (directory p'.world (call.target p)) = some (some cs) ∧ cs.entries = entries := by
  rw [frames_encodings hcall, completeIn_one] at hcomplete
  obtain ⟨buf, content, hbuf, hcontent, hle⟩ := stack_image hcall hsettled hrun
  cases hcontent.symm.trans hcomplete
  have hlt : buf.contents.length < 2 ^ 32 := by
    rw [buf.length_contents]
    exact buf.size.toNat_lt
  have hcountable := pack_countable hpb (Nat.lt_of_le_of_lt hle hlt)
  have hcontents : buf.contents = pb.pack State.callStack (callStackMessage entries) := by
    rw [← callStackOf_message hcountable]
    exact serialize_contents hbuf
  rw [← hcontents] at hcomplete
  exact ⟨callStackOf entries, restoreStack_serialized hpb hbuf hcomplete, take_lengthOf hcountable⟩

/-- The image of a call stack is exactly its serialization, and is restored as it. -/
structure NoResidue (pb : ProtobufC) (dir : Directory) (entries : List CallStackEntry) : Prop where
  image : dir "call_stack.img" = some (pb.pack State.callStack (callStackMessage entries))
  restored : ∃ cs, restoreStack pb dir = some (some cs) ∧ cs.entries = entries

/-- After any calls in one directory: a call stack leaves no residue of another exactly when
the environment lets it through. -/
theorem stack_noResidue_iff (hpb : pb.Proto3) {first : Checkpointer} {steps : List (Checkpointer × ProcessAction)}
    (hfirst : first.Fresh) (hsteps : Run (Checkpointer.Step pb tables) first steps p) (hstays : OneDirectory steps)
    {call : CheckpointCall} {entries : List CallStackEntry} (hcall : call.frames tables = some entries)
    (hrun : call.run pb tables p = some (0, p')) :
    NoResidue pb (directory p'.world first.cwd) entries ↔ call.Delivers pb tables p := by
  obtain ⟨hsettled, hwithin⟩ := reached_within hfirst hsteps hstays
  have hcomplete := CheckpointCall.complete_iff hpb hsettled hrun
  rw [← hcomplete, ← call.target_within hwithin]
  constructor
  · intro h _
    rw [frames_encodings hcall, completeIn_one]
    exact h.image
  · intro hwhole
    refine ⟨?_, stack_restored hpb hcall hsettled hrun (hwhole rfl)⟩
    have himage := hwhole rfl
    rw [frames_encodings hcall, completeIn_one] at himage
    exact himage

end

/-- A frame at the start of function 0 with nothing in it. -/
def bareFrame : CallStackEntry :=
  ⟨⟨0, 0⟩, ⟨⟨0, [], List.length_nil⟩, ⟨0, [], List.length_nil⟩⟩,
    ⟨⟨0, [], List.length_nil⟩, ⟨0, [], List.length_nil⟩⟩,
    ⟨0, [], [], [], [], List.length_nil, List.length_nil, List.length_nil, List.length_nil⟩⟩

/-- The process after a checkpoint of two frames. -/
def twoFramesLeft : Checkpointer := ((checkpointStackV4 .wire twoFrames.entries newProcess).getD (0, newProcess)).2

/-- The process after another one of no frames. -/
def noFramesLeft : Checkpointer := ((checkpointStackV4 .wire [] twoFramesLeft).getD (0, twoFramesLeft)).2

theorem stack_noResidue_iff_shrunk :
    NoResidue .wire (directory noFramesLeft.world "/") [] ↔
      CheckpointCall.Delivers .wire noTables (.stackV4 []) twoFramesLeft :=
  stack_noResidue_iff ProtobufC.wire_proto3 newProcess_fresh
    (.cons (a := .call (.stackV4 twoFrames.entries)) (.call 0 rfl) (.nil _))
    (fun _ h => by cases h with | head => nofun | tail _ h => cases h) rfl rfl

/-- As many bare frames as cannot be counted in 32 bits. -/
def manyFrames : List CallStackEntry := List.replicate (2 ^ 32) bareFrame

theorem callStackOf_none {entries : List CallStackEntry} (h : lengthOf entries = 0) :
    callStackOf entries = ⟨0, [], rfl⟩ := by
  apply CallStack.ext h
  show entries.take (lengthOf entries).toNat = []
  rw [h]
  rfl

theorem manyFrames_length : manyFrames.length = 2 ^ 32 := List.length_replicate

theorem manyFrames_counted : callStackOf manyFrames = ⟨0, [], rfl⟩ := by
  apply callStackOf_none
  rw [lengthOf, manyFrames_length]
  rfl

/-- Nothing fails for the first call, and it checkpoints none of its frames; the last flush
of the second call fails, which is reported to nobody. -/
theorem stack_lost :
    (∃ p, checkpointStackV4 .wire manyFrames newProcess = some (0, p) ∧
      restoreStack .wire (directory p.world "/") = some (some ⟨0, [], rfl⟩) ∧
      ¬ NoResidue .wire (directory p.world "/") manyFrames) ∧
    ∃ p, checkpointStackV4 .wire [bareFrame] (failingAt 3) = some (0, p) ∧
      directory p.world "/" "call_stack.img" = some [] ∧
      ¬ NoResidue .wire (directory p.world "/") [bareFrame] := by
  constructor
  · have hrun : checkpointStackV4 .wire manyFrames newProcess = checkpointStackV4 .wire [] newProcess := by
      rw [checkpointStackV4, checkpointStackV4, manyFrames_counted]
      rfl
    have himage : directory ((checkpointStackV4 .wire [] newProcess).getD (0, newProcess)).2.world "/"
        "call_stack.img" = some [] := rfl
    have hrestored := restoreStack_serialized ProtobufC.wire_proto3
      (show serializeCallStack .wire ⟨0, [], rfl⟩ = some ⟨0, [], rfl⟩ from rfl) himage
    refine ⟨((checkpointStackV4 .wire [] newProcess).getD (0, newProcess)).2, hrun.trans rfl, hrestored, ?_⟩
    rintro ⟨-, cs, hcs, hentries⟩
    cases hrestored.symm.trans hcs
    have hlength := manyFrames_length
    rw [← hentries] at hlength
    exact absurd hlength (by decide)
  · refine ⟨((checkpointStackV4 .wire [bareFrame] (failingAt 3)).getD (0, newProcess)).2, rfl, rfl, fun h => ?_⟩
    have himage := h.image
    exact absurd himage (by decide)

end Wasmig
