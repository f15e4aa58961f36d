import Wasmig.Base.Once
import Wasmig.Checkpoint.Process
import Wasmig.Table.CodePos

/-! The stack tables (`wcrn`, `stack_tables.cpp`).

`wcrn` reads `stack-table.msgpack` from the working directory when a table is first asked
for, and keeps what it has read for the rest of the process. What the file means is decided
by the crate `wacret`, which is a parameter here. An error ends the process, which is `none`. -/
namespace Wasmig
open Base Base.Stdio

/-! ### `wcrn` -/

/-- An operation that leaves an entry of a stack. -/
inductive CompiledOp where
  | localGet (idx : UInt32)
  | i32Const (val : UInt32)
  | i64Const (val : UInt64)
  | f32Const (val : UInt32)
  | f64Const (val : UInt64)
  | call (resultSize : UInt32)
  | other
deriving DecidableEq, Repr

/-- What `wcrn` uses of the crate `wacret`. -/
structure Wacret where
  /-- `StackTables`. -/
  Tables : Type
  /-- `StackTables::deserialize(data)`. -/
  deserialize : Bytes → Option Tables
  /-- `tables.0.len()`. -/
  functions : Tables → Nat
  /-- `get_stack(fidx, offset)`: the entries, each with the size of its type in bytes. -/
  getStack : Tables → Nat → UInt32 → Option (List (CompiledOp × UInt8))
  /-- `get_locals(fidx)`: the sizes of their types in bytes. -/
  getLocals : Tables → Nat → Option (List UInt8)
  /-- The keys of `tables.0.get(fidx).inner()`. -/
  offsets : Tables → Nat → Option (List UInt32)

inductive Opcode where
  | localGet
  | i32Const
  | i64Const
  | f32Const
  | f64Const
  | call
  | other
deriving DecidableEq, Repr

/-- The union `Operand`, by the member that is set. -/
inductive Operand where
  | localIdx (idx : UInt32)
  | i32Const (val : UInt32)
  | i64Const (val : UInt64)
  | f32Const (val : UInt32)
  | f64Const (val : UInt64)
  | callResultSize (size : UInt32)
deriving DecidableEq, Repr

structure StackTableEntry where
  opcode : Opcode
  ty : UInt8
  operand : Operand
deriving DecidableEq, Repr

/-- The opcode and the operand that an operation is given. -/
def CompiledOp.entry : CompiledOp → Opcode × Operand
  | .localGet idx => (.localGet, .localIdx idx)
  | .i32Const val => (.i32Const, .i32Const val)
  | .i64Const val => (.i64Const, .i64Const val)
  | .f32Const val => (.f32Const, .f32Const val)
  | .f64Const val => (.f64Const, .f64Const val)
  | .call size => (.call, .callResultSize size)
  | .other => (.other, .localIdx 0)

/-- The slots of a type of this size: `ty.size()/mem::size_of::<u32>() as u8`. -/
def slotsOf (size : UInt8) : UInt8 := size / 4

namespace Wacret
variable (wacret : Wacret)

/-- `load_from_path("./")`, in a directory whose `stack-table.msgpack` holds this. -/
def loadFromPath (file : Option Bytes) : Option wacret.Tables := file.bind wacret.deserialize

variable {wacret} (tables : wacret.Tables)

/-- The vector that `wcrn_get_local_types(fidx)` makes. -/
def localTypes (fidx : UInt32) : Option (List UInt8) := (wacret.getLocals tables fidx.toNat).map (List.map slotsOf)

/-- The entries that `wcrn_get_stack_table(fidx, offset)` makes. -/
def stackEntries (fidx offset : UInt32) : Option (List StackTableEntry) :=
  (wacret.getStack tables fidx.toNat offset).map
    (List.map fun entry => ⟨entry.1.entry.1, slotsOf entry.2, entry.1.entry.2⟩)

/-- The vector that `wcrn_offset_list(fidx)` makes. -/
def offsetList (fidx : UInt32) : Option (List UInt32) := wacret.offsets tables fidx.toNat

end Wacret

/-! ### `stack_tables.cpp` -/

/-- The elements that are counted are there. -/
theorem length_take_lengthOf {α : Type} (xs : List α) : (xs.take (lengthOf xs).toNat).length = (lengthOf xs).toNat := by
  apply List.length_take_of_le
  rw [lengthOf, UInt32.toNat_ofNat']
  exact Nat.mod_le ..

/-- A vector as the caller sees it, who takes the size for one of 32 bits. -/
def array8Of (xs : List UInt8) : Array8 where
  size := lengthOf xs
  contents := xs.take (lengthOf xs).toNat
  length_contents := length_take_lengthOf xs

/-- The same of a vector of words. -/
def array32Of (xs : List UInt32) : Array32 where
  size := lengthOf xs
  contents := xs.take (lengthOf xs).toNat
  length_contents := length_take_lengthOf xs

section
variable {wacret : Wacret} (tables : wacret.Tables)

/-- `load_stack_tables()`. -/
def loadStackTables : Nat := wacret.functions tables

/-- `get_local_types(fidx)`. -/
def getLocalTypes (fidx : UInt32) : Option Array8 := (Wacret.localTypes tables fidx).map array8Of

/-- `get_stack_table(fidx, offset)`, which passes the low half of the offset on. -/
def getStackTable (fidx : UInt32) (offset : UInt64) : Option (List StackTableEntry) :=
  Wacret.stackEntries tables fidx offset.toUInt32

/-- `wcrn_offset_list(fidx)`. -/
def wcrnOffsetList (fidx : UInt32) : Option Array32 := (Wacret.offsetList tables fidx).map array32Of

/-- `wcrn_get_stack_size(fidx, offset)`. -/
def wcrnGetStackSize (fidx offset : UInt32) : Option Nat :=
  (wacret.getStack tables fidx.toNat offset).map List.length

end

/-- The tables as `wasmig_checkpoint_stack_v3` uses them. -/
def stackTablesOf {wacret : Wacret} (tables : wacret.Tables) : StackTables where
  getLocalTypes := getLocalTypes tables
  getStackTable fidx offset := (getStackTable tables fidx offset).map (List.map StackTableEntry.ty)

end Wasmig
