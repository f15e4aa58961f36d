import Wasmig.Checkpoint.Successive
import Wasmig.State.Printed

/-! Frames that are given types at a checkpoint.

`wasmig_checkpoint_stack_v3` is given frames without types. It looks these up, at the program
counter of the innermost frame and at the one before it of the others, and takes from a frame's
blocks as many slots as the types add up to. `typedFrames_roundTrip` follows the frames through
the image to what is restored from it. -/
namespace Wasmig
open Base Base.Stdio

/-- Where the types of frame `i` of a call stack are looked up. -/
def tableOffset (callStack : List BaseCallStackEntry) (i : Nat) (frame : BaseCallStackEntry) : UInt64 :=
  if i + 1 = callStack.length then frame.pc.offset else frame.pc.offset - 1

/-- An array of these types, with the first values of a block. -/
structure TypedAs (widths : Bytes) (block : Array32) (array : TypedArray) : Prop where
  types : array.types.contents = widths
  size : array.values.size.toNat = slotSum widths
  values : array.values.contents = block.contents.take (slotSum widths)

/-- Frame `i` of a call stack with its types. -/
structure FrameKept (tables : StackTables) (callStack : List BaseCallStackEntry) (i : Nat)
    (frame : BaseCallStackEntry) (entry : CallStackEntry) : Prop where
  pc : entry.pc = frame.pc
  labelStack : entry.labelStack = frame.labelStack
  locals : ∃ types, tables.getLocalTypes frame.pc.fidx = some types ∧
    TypedAs types.contents frame.locals entry.locals
  valueStack : ∃ table, tables.getStackTable frame.pc.fidx (tableOffset callStack i frame) = some table ∧
    TypedAs table frame.valueStack entry.valueStack

/-- What is expected of the tables and of the frames: every type takes a slot, offsets are those
of a module, each frame but the innermost is behind an instruction, and blocks have the
values that their types ask for. -/
structure Typable (tables : StackTables) (callStack : List BaseCallStackEntry) : Prop where
  widths : ∀ fidx offset table, tables.getStackTable fidx offset = some table → ∀ ty ∈ table, ty ≠ 0
  offsets : ∀ frame ∈ callStack, frame.pc.offset.toNat < 2 ^ 32
  outer : ∀ i frame, callStack[i]? = some frame → i + 1 < callStack.length → 1 ≤ frame.pc.offset.toNat
  locals : ∀ frame ∈ callStack, ∀ types, tables.getLocalTypes frame.pc.fidx = some types →
    slotSum types.contents ≤ frame.locals.contents.length
  values : ∀ i frame table, callStack[i]? = some frame →
    tables.getStackTable frame.pc.fidx (tableOffset callStack i frame) = some table →
    slotSum table ≤ frame.valueStack.contents.length

/-! ### Slots -/

theorem slotCount_foldl (types : Bytes) (bytes : UInt32) :
    types.foldl (fun bytes ty => bytes + ty.toUInt32) bytes = bytes + UInt32.ofNat (slotSum types) := by
  induction types generalizing bytes with
  | nil => simp [slotSum]
  | cons ty types ih =>
    rw [List.foldl_cons, ih, ← UInt32.ofNat_uInt8ToNat, UInt32.add_assoc, ← UInt32.ofNat_add]
    rfl

/-- Slots that a block has are counted without overflow. -/
theorem slotCount_toNat {types : Array8} {block : Array32} {slots : UInt32}
    (hfits : slotSum types.contents ≤ block.contents.length) (h : slotCount types = some slots) :
    slots.toNat = slotSum types.contents := by
  have hlt := block.size.toNat_lt
  rw [← block.length_contents] at hlt
  unfold slotCount at h
  split at h
  · cases h
  · cases h
    rw [slotCount_foldl, UInt32.zero_add, UInt32.toNat_ofNat']
    exact Nat.mod_eq_of_lt (Nat.lt_of_le_of_lt hfits hlt)

theorem typedValues_typedAs {types : Array8} {block : Array32} {array : TypedArray}
    (hfits : slotSum types.contents ≤ block.contents.length) (h : typedValues types block = some array) :
    TypedAs types.contents block array := by
  obtain ⟨slots, hslots, h⟩ := Option.bind_eq_some_iff.mp h
  obtain ⟨values, hvalues, rfl⟩ := Option.map_eq_some_iff.mp h
  have hcount := slotCount_toNat hfits hslots
  rw [memcpy, dif_pos (hcount.symm ▸ hfits)] at hvalues
  cases hvalues
  refine ⟨rfl, hcount, ?_⟩
  show block.contents.take slots.toNat = _
  rw [hcount]

/-- A table that can be counted in 32 bits is converted whole. -/
theorem convertTypeStack_contents {table : Bytes} (h : table.length < 2 ^ 32) :
    (convertTypeStackFromStackTable table).contents = table :=
  take_lengthOf h

/-! ### Frames -/

/-- What the loop makes of frame `i`. -/
theorem typedFrames_getElem {tables : StackTables} {frames : List BaseCallStackEntry}
    {entries : List CallStackEntry} (h : typedFrames tables frames = some entries) {i : Nat}
    {frame : BaseCallStackEntry} (hi : frames[i]? = some frame) :
    ∃ entry, entries[i]? = some entry ∧ entry.pc = frame.pc ∧ entry.labelStack = frame.labelStack ∧
      (∃ types, tables.getLocalTypes frame.pc.fidx = some types ∧
        typedValues types frame.locals = some entry.locals) ∧
      ∃ table, tables.getStackTable frame.pc.fidx (tableOffset frames i frame).toUInt32.toUInt64 = some table ∧
        typedValues (convertTypeStackFromStackTable table) frame.valueStack = some entry.valueStack := by
  induction frames generalizing i entries with
  | nil => cases hi
  | cons first rest ih =>
    rw [typedFrames_cons] at h
    obtain ⟨localsTypes, hlocalsTypes, h⟩ := Option.bind_eq_some_iff.mp h
    obtain ⟨stackTable, hstackTable, h⟩ := Option.bind_eq_some_iff.mp h
    obtain ⟨locals, hlocals, h⟩ := Option.bind_eq_some_iff.mp h
    obtain ⟨valueStack, hvalueStack, h⟩ := Option.bind_eq_some_iff.mp h
    obtain ⟨entries', hentries, h⟩ := Option.map_eq_some_iff.mp h
    cases h
    cases i with
    | zero =>
      obtain rfl : first = frame := Option.some.inj hi
      have hoffset : (tableOffset (first :: rest) 0 first).toUInt32 =
          if rest = [] then first.pc.offset.toUInt32 else (first.pc.offset - 1).toUInt32 := by
        unfold tableOffset
        cases rest with
        | nil => rfl
        | cons frame rest => rfl
      rw [hoffset]
      exact ⟨_, rfl, rfl, rfl, ⟨localsTypes, hlocalsTypes, hlocals⟩, stackTable, hstackTable, hvalueStack⟩
    | succ i =>
      have hoffset : tableOffset (first :: rest) (i + 1) frame = tableOffset rest i frame := by
        unfold tableOffset
        simp only [List.length_cons, Nat.add_right_cancel_iff]
      rw [hoffset, List.getElem?_cons_succ]
      exact ih hentries hi

section
variable {tables : StackTables} {callStack : List BaseCallStackEntry}

/-- The offset of a table is one of a module too. -/
theorem Typable.tableOffset_lt (h : Typable tables callStack) {i : Nat} {frame : BaseCallStackEntry}
    (hi : callStack[i]? = some frame) : (tableOffset callStack i frame).toNat < 2 ^ 32 := by
  have hoffset := h.offsets frame (List.mem_of_getElem? hi)
  unfold tableOffset
  split
  · exact hoffset
  · rename_i hlast
    obtain ⟨hlt, -⟩ := List.getElem?_eq_some_iff.mp hi
    have hone := h.outer i frame hi (by omega)
    have hle : (1 : UInt64) ≤ frame.pc.offset := UInt64.le_iff_toNat_le.mpr hone
    rw [UInt64.toNat_sub_of_le _ _ hle]
    omega

theorem toUInt64_toUInt32 {offset : UInt64} (h : offset.toNat < 2 ^ 32) : offset.toUInt32.toUInt64 = offset := by
  rw [← UInt64.toNat_inj, UInt32.toNat_toUInt64, UInt64.toNat_toUInt32]
  exact Nat.mod_eq_of_lt h

/-- Every frame is kept and typed. -/
theorem Typable.frameKept (h : Typable tables callStack) {entries : List CallStackEntry}
    (hentries : typedFrames tables callStack = some entries) {i : Nat} {frame : BaseCallStackEntry}
    (hi : callStack[i]? = some frame) :
    ∃ entry, entries[i]? = some entry ∧ FrameKept tables callStack i frame entry := by
  obtain ⟨entry, hentry, hpc, hlabels, hlocals, hvalues⟩ := typedFrames_getElem hentries hi
  obtain ⟨types, htypes, hlocals⟩ := hlocals
  obtain ⟨table, htable, hvalues⟩ := hvalues
  rw [toUInt64_toUInt32 (h.tableOffset_lt hi)] at htable
  have hfits := h.values i frame table hi htable
  have hcount : table.length < 2 ^ 32 := by
    have hpos := length_le_slotSum (h.widths _ _ table htable)
    have hlt := frame.valueStack.size.toNat_lt
    rw [← frame.valueStack.length_contents] at hlt
    omega
  have hcontents := convertTypeStack_contents hcount
  refine ⟨entry, hentry, hpc, hlabels, ⟨types, htypes, ?_⟩, table, htable, ?_⟩
  · exact typedValues_typedAs (h.locals frame (List.mem_of_getElem? hi) types htypes) hlocals
  · have htyped := typedValues_typedAs (hcontents.symm ▸ hfits) hvalues
    rwa [hcontents] at htyped

end

/-! ### Through the image -/

/-- What is restored after a checkpoint that returns 0 and gets through is the call stack, every
frame with its types and the values they ask for. -/
theorem typedFrames_roundTrip {pb : ProtobufC} (hpb : pb.Proto3) {tables : StackTables}
    {callStack : List BaseCallStackEntry} (htypable : Typable tables callStack) {p p' : Checkpointer}
    (hrun : checkpointStackV3 pb tables callStack p = some (0, p'))
    (hdelivers : CheckpointCall.Delivers pb tables (.stackV3 callStack) p) :
    ∃ cs, restoreStack pb (directory p'.world p.cwd) = some (some cs) ∧ cs.entries.length = callStack.length ∧
      ∀ i frame, callStack[i]? = some frame →
        ∃ entry, cs.entries[i]? = some entry ∧ FrameKept tables callStack i frame entry := by
  obtain ⟨-, entries, buf, hlength, hentries, hbuf, hfile⟩ := checkpointStackV3_spec hrun
  have hcount : entries.length < 2 ^ 32 := by
    rw [typedFrames_length hentries]
    omega
  have hkept : (callStackOf entries).entries = entries := take_lengthOf hcount
  have hcontents : buf.contents = pb.pack State.callStack (callStackMessage entries) := by
    rw [← callStackOf_message hcount]
    exact serialize_contents hbuf
  have himage := hfile.delivered (hcontents ▸ hdelivers entries hentries)
  refine ⟨callStackOf entries, restoreStack_serialized hpb hbuf himage, ?_, ?_⟩
  · rw [hkept]
    exact typedFrames_length hentries
  · intro i frame hi
    rw [hkept]
    exact htypable.frameKept hentries hi

/-- Every function has a local of one slot and one of two, and a stack that grows with the
offset. -/
def sampleTables : StackTables where
  getLocalTypes _ := some ⟨2, [2, 1], rfl⟩
  getStackTable _ offset := some (List.replicate (offset.toNat % 4) 2)

/-- Two frames with room to spare for their values. -/
def sampleFrames : List BaseCallStackEntry :=
  [⟨⟨0, 3⟩, ⟨3, [1, 2, 3], rfl⟩, ⟨5, [4, 5, 6, 7, 8], rfl⟩, ⟨1, [7], [3], [4], [6], rfl, rfl, rfl, rfl⟩⟩,
    ⟨⟨0, 1⟩, ⟨3, [9, 9, 9], rfl⟩, ⟨3, [8, 8, 8], rfl⟩, ⟨2, [5, 8], [0, 1], [2, 3], [1, 4], rfl, rfl, rfl, rfl⟩⟩]

theorem sampleFrames_typable : Typable sampleTables sampleFrames where
  widths := by
    intro fidx offset table htable ty hty
    cases htable
    rw [List.eq_of_mem_replicate hty]
    decide
  offsets := by decide
  outer := by
    intro i frame hi hlast
    rcases i with _ | i
    · cases hi
      decide
    · exact absurd hlast (by simp [sampleFrames])
  locals := by
    intro frame hframe types htypes
    cases htypes
    revert frame
    decide
  values := by
    intro i frame table hi htable
    cases htable
    rcases i with _ | _ | i
    · cases hi
      decide
    · cases hi
      decide
    · cases hi

theorem typedFrames_roundTrip_sample :
    ∃ p' cs, checkpointStackV3 .wire sampleTables sampleFrames newProcess = some (0, p') ∧
      restoreStack .wire (directory p'.world "/") = some (some cs) ∧ cs.entries.length = 2 ∧
      ∀ i frame, sampleFrames[i]? = some frame →
        ∃ entry, cs.entries[i]? = some entry ∧ FrameKept sampleTables sampleFrames i frame entry := by
  have hdelivers : CheckpointCall.Delivers .wire sampleTables (.stackV3 sampleFrames) newProcess :=
    fun _ _ _ => ⟨_, rfl, passes_none _⟩
  obtain ⟨cs, hcs⟩ := typedFrames_roundTrip ProtobufC.wire_proto3 sampleFrames_typable rfl hdelivers
  exact ⟨_, cs, rfl, hcs⟩

end Wasmig
