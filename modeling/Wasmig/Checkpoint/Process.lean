import Wasmig.Base.Runs
import Wasmig.Base.Stream
import Wasmig.Memory.Checkpoint
import Wasmig.State.Serialize

/-! The checkpoint functions (`checkpoint.cpp`) and the process they run in.

Some of them open their file by name on every call. `wasmig_checkpoint_pc` and
`wasmig_checkpoint_stack_v4` open theirs once, keep the stream in a static variable and
write it over from its start on every call. A `Checkpointer` has those two streams, the files
and the working directory that names are resolved in; it is driven by calls and by
changes of that directory (`Checkpointer.Step`).

The stack tables that `wcrn` loads are a parameter, as `protobuf-c` is. Where the code
goes past the end of a block or is stopped by `wcrn`, what a call does is `none`. -/
namespace Wasmig
open Base Base.Stdio

/-- A process that takes checkpoints. -/
structure Checkpointer where
  /-- The working directory. -/
  cwd : String
  world : World Path
  /-- `g_program_counter_fp`. -/
  programCounterFp : Option (Writer Path)
  /-- `g_call_stack_fp`. -/
  callStackFp : Option (Writer Path)

/-- `open_image(file, "w+b")`. -/
def openImageUpdate (w : World Path) (cwd file : String) : Opened Path := fopen w ⟨cwd, file⟩

/-- A static stream, opened if it was not. -/
def openOnce (w : World Path) (cwd file : String) : Option (Writer Path) → Opened Path
  | some fp => ⟨some fp, w⟩
  | none => openImageUpdate w cwd file

/-! ### Globals -/

/-- The loop of `wasmig_checkpoint_global`, from item `i` on: `types[i]` bytes from
`&values[i]`, whatever becomes of them. -/
def writeGlobals (values : Memory) : Nat → List UInt32 → Writer Path → World Path → Writer Path × World Path
  | _, [], fp, w => (fp, w)
  | i, ty :: types, fp, w =>
    let item := fwriteItem w fp (values.read (8 * i) ty.toNat)
    writeGlobals values (i + 1) types item.fp item.world

/-- `wasmig_checkpoint_global(values, types, len)`, `types` having `len` elements. -/
def checkpointGlobal (values : Memory) (types : List UInt32) (p : Checkpointer) : Int × Checkpointer :=
  let opened := openImageWb p.world p.cwd "global.img"
  match opened.fp with
  | none => (-1, {p with world := opened.world})
  | some fp =>
    let written := writeGlobals values 0 types fp opened.world
    (0, {p with world := (fclose written.2 written.1).world})

/-- `wasmig_checkpoint_global_v2(globals)`. -/
def checkpointGlobalV2 (pb : ProtobufC) (globals : TypedArray) (p : Checkpointer) : Option (Int × Checkpointer) :=
  let opened := openImageWb p.world p.cwd "global.img"
  match opened.fp with
  | none => some (-1, {p with world := opened.world})
  | some fp =>
    (serializeTypedArray pb globals).map fun serialized =>
      let written := fwrite opened.world fp 1 serialized.contents
      (0, {p with world := (fclose written.world written.fp).world})

/-! ### The program counter -/

/-- `wasmig_checkpoint_pc(func_idx, offset)`. -/
def checkpointPc (funcIdx offset : UInt32) (p : Checkpointer) : Int × Checkpointer :=
  let opened := openOnce p.world p.cwd "program_counter.img" p.programCounterFp
  match opened.fp with
  | none => (-1, {p with world := opened.world})
  | some fp =>
    let start := rewind opened.world fp
    let idx := fwrite start.2 start.1 4 (le32 funcIdx)
    if idx.count ≠ 1 then (-1, {p with world := idx.world, programCounterFp := some idx.fp}) else
    let off := fwrite idx.world idx.fp 4 (le32 offset)
    if off.count ≠ 1 then (-1, {p with world := off.world, programCounterFp := some off.fp}) else
    let flushed := fflush off.world off.fp
    (0, {p with world := flushed.world, programCounterFp := some flushed.fp})

/-! ### Call stacks -/

/-- A frame as `wasmig_checkpoint_stack_v3` is given it: its values without their types.
The sizes of the two arrays are not read. -/
structure BaseCallStackEntry where
  pc : CodePos
  locals : Array32
  valueStack : Array32
  labelStack : LabelStack
deriving DecidableEq

/-- The calls of `stack_tables.h` that a checkpoint makes, as computations of `m`: the types of
a function's locals, and the types of the entries of its stack at an offset. -/
structure TableCalls (m : Type → Type) where
  getLocalTypes (fidx : UInt32) : m Array8
  getStackTable (fidx : UInt32) (offset : UInt64) : m (List UInt8)

/-- Tables that are there; `none` where `wcrn` stops the process. -/
abbrev StackTables := TableCalls Option

/-- `convert_type_stack_from_stack_table(table)`. -/
def convertTypeStackFromStackTable (table : List UInt8) : Array8 where
  size := lengthOf table
  contents := table.take (lengthOf table).toNat
  length_contents := List.length_take_of_le (by
    rw [lengthOf, UInt32.toNat_ofNat']
    exact Nat.mod_le ..)

/-- The slots that values of these types take. An `int` counts the types. -/
def slotCount (types : Array8) : Option UInt32 :=
  if types.contents.length ≥ 2 ^ 31 then none else
  some (types.contents.foldl (fun bytes ty => bytes + ty.toUInt32) 0)

/-- A `TypedArray` of the first values of a block, as many as the types take. -/
def typedValues (types : Array8) (block : Array32) : Option TypedArray :=
  (slotCount types).bind fun slots =>
    (memcpy block.contents slots).map fun values => ⟨types, ⟨slots, values.1, values.2⟩⟩

section
variable {m : Type → Type} [Monad m] [MonadLiftT Option m]

/-- The loop of `wasmig_checkpoint_stack_v3`: the types at the program counter of the last
frame, and at the one before it of all others. -/
def typedFramesM (tables : TableCalls m) : List BaseCallStackEntry → m (List CallStackEntry)
  | [] => pure []
  | frame :: rest => do
    let offset := if rest = [] then frame.pc.offset.toUInt32 else (frame.pc.offset - 1).toUInt32
    let localsTypes ← tables.getLocalTypes frame.pc.fidx
    let stackTable ← tables.getStackTable frame.pc.fidx offset.toUInt64
    let locals ← typedValues localsTypes frame.locals
    let valueStack ← typedValues (convertTypeStackFromStackTable stackTable) frame.valueStack
    let entries ← typedFramesM tables rest
    pure (⟨frame.pc, locals, valueStack, frame.labelStack⟩ :: entries)

end

/-- The loop with tables that are there. -/
def typedFrames (tables : StackTables) : List BaseCallStackEntry → Option (List CallStackEntry) :=
  typedFramesM tables

theorem typedFrames_cons (tables : StackTables) (frame : BaseCallStackEntry) (rest : List BaseCallStackEntry) :
    typedFrames tables (frame :: rest) =
      (tables.getLocalTypes frame.pc.fidx).bind fun localsTypes =>
        (tables.getStackTable frame.pc.fidx
          (if rest = [] then frame.pc.offset.toUInt32 else (frame.pc.offset - 1).toUInt32).toUInt64).bind fun stackTable =>
          (typedValues localsTypes frame.locals).bind fun locals =>
            (typedValues (convertTypeStackFromStackTable stackTable) frame.valueStack).bind fun valueStack =>
              (typedFrames tables rest).map fun entries => ⟨frame.pc, locals, valueStack, frame.labelStack⟩ :: entries := by
  simp only [Option.map_eq_bind]
  rfl

/-- `{ .size = size, .entries = entries }`: the size is kept in 32 bits. -/
def callStackOf (entries : List CallStackEntry) : CallStack where
  size := lengthOf entries
  entries := entries.take (lengthOf entries).toNat
  length_entries := List.length_take_of_le (by
    rw [lengthOf, UInt32.toNat_ofNat']
    exact Nat.mod_le ..)

section
variable {m : Type → Type} [Monad m] [MonadLiftT Option m]

/-- `wasmig_checkpoint_stack_v3(size, call_stack)`, `call_stack` having `size` elements,
which an `int` counts. -/
def checkpointStackV3M (pb : ProtobufC) (tables : TableCalls m) (callStack : List BaseCallStackEntry)
    (p : Checkpointer) : m (Int × Checkpointer) :=
  if callStack.length ≥ 2 ^ 31 then monadLift (none : Option (Int × Checkpointer)) else do
  let entries ← typedFramesM tables callStack
  let serialized ← serializeCallStack pb (callStackOf entries)
  let opened := openImageWb p.world p.cwd "call_stack.img"
  match opened.fp with
  | none => pure (-1, {p with world := opened.world})
  | some fp =>
    let written := fwrite opened.world fp 1 serialized.contents
    pure (0, {p with world := (fclose written.world written.fp).world})

end

/-- The same with tables that are there. -/
def checkpointStackV3 (pb : ProtobufC) (tables : StackTables) (callStack : List BaseCallStackEntry)
    (p : Checkpointer) : Option (Int × Checkpointer) :=
  checkpointStackV3M pb tables callStack p

/-- `wasmig_checkpoint_stack_v4(size, call_stack)`, `call_stack` having `size` elements. -/
def checkpointStackV4 (pb : ProtobufC) (callStack : List CallStackEntry) (p : Checkpointer) :
    Option (Int × Checkpointer) :=
  (serializeCallStack pb (callStackOf callStack)).map fun serialized =>
    let opened := openOnce p.world p.cwd "call_stack.img" p.callStackFp
    match opened.fp with
    | none => (-1, {p with world := opened.world})
    | some fp =>
      let start := rewind opened.world fp
      let truncated := ftruncate start.2 start.1
      if truncated.1 ≠ 0 then (-1, {p with world := truncated.2, callStackFp := some start.1}) else
      let written := fwrite truncated.2 start.1 1 serialized.contents
      if written.count ≠ serialized.size.toNat then
        (-1, {p with world := written.world, callStackFp := some written.fp})
      else
        let flushed := fflush written.world written.fp
        (0, {p with world := flushed.world, callStackFp := some flushed.fp})

/-! ### Runs of a process -/

/-- A call of a checkpoint function. -/
inductive CheckpointCall where
  | memory (memory : Memory) (curPage : UInt32)
  | global (values : Memory) (types : List UInt32)
  | globalV2 (globals : TypedArray)
  | pc (funcIdx offset : UInt32)
  | stackV3 (callStack : List BaseCallStackEntry)
  | stackV4 (callStack : List CallStackEntry)

section
variable (pb : ProtobufC) (tables : StackTables)

/-- What a call returns, and the process after it. -/
def CheckpointCall.run (call : CheckpointCall) (p : Checkpointer) : Option (Int × Checkpointer) :=
  match call with
  | .memory mem curPage =>
    some ((checkpointMemory p.cwd mem curPage p.world).1,
      {p with world := (checkpointMemory p.cwd mem curPage p.world).2})
  | .global values types => some (checkpointGlobal values types p)
  | .globalV2 globals => checkpointGlobalV2 pb globals p
  | .pc funcIdx offset => some (checkpointPc funcIdx offset p)
  | .stackV3 callStack => checkpointStackV3 pb tables callStack p
  | .stackV4 callStack => checkpointStackV4 pb callStack p

/-- A call, or a change of the working directory. -/
inductive ProcessAction where
  | call (call : CheckpointCall)
  | chdir (cwd : String)

inductive Checkpointer.Step : Checkpointer → ProcessAction → Checkpointer → Prop where
  | call {p p' : Checkpointer} {call : CheckpointCall} (code : Int) (run : call.run pb tables p = some (code, p')) :
    Step p (.call call) p'
  | chdir (p : Checkpointer) (cwd : String) : Step p (.chdir cwd) {p with cwd := cwd}

/-- A process that has taken no checkpoint yet. -/
structure Checkpointer.Fresh (p : Checkpointer) : Prop where
  programCounterFp : p.programCounterFp = none
  callStackFp : p.callStackFp = none

end

end Wasmig
