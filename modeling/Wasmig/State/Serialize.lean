import Wasmig.Base.Proto3

/-! The state of a module instance and its serialization (`state.h`, `state.cpp`).

A structure of `state.h` that points to blocks is modelled with the `size` elements it
points to. A message of `state.proto` is a value of its descriptor
(`state.pb-c.c`), its sub-messages `none` where the pointer is `NULL`. Turning a message
into a structure is partial: `none` where the code follows a `NULL` pointer or copies
past the end of a block.

`protobuf-c`, which packs and unpacks messages, is a parameter; `ProtobufC.Proto3` is
what is relied on, that it speaks the proto3 wire format. -/
namespace Wasmig
open Base

/-! ### Structures -/

structure CodePos where
  fidx : UInt32
  offset : UInt64
deriving DecidableEq, Repr

@[ext] structure Array8 where
  size : UInt32
  contents : Bytes
  length_contents : contents.length = size.toNat
deriving DecidableEq

@[ext] structure Array32 where
  size : UInt32
  contents : List UInt32
  length_contents : contents.length = size.toNat
deriving DecidableEq

/-- `Array64`. -/
@[ext] structure Array64 where
  size : UInt32
  contents : List UInt64
  length_contents : contents.length = size.toNat
deriving DecidableEq

structure TypedArray where
  types : Array8
  values : Array32
deriving DecidableEq

@[ext] structure LabelStack where
  size : UInt32
  begins : List UInt32
  targets : List UInt32
  stackPointers : List UInt32
  cellNums : List UInt32
  length_begins : begins.length = size.toNat
  length_targets : targets.length = size.toNat
  length_stackPointers : stackPointers.length = size.toNat
  length_cellNums : cellNums.length = size.toNat
deriving DecidableEq

structure CallStackEntry where
  pc : CodePos
  locals : TypedArray
  valueStack : TypedArray
  labelStack : LabelStack
deriving DecidableEq

@[ext] structure CallStack where
  size : UInt32
  entries : List CallStackEntry
  length_entries : entries.length = size.toNat
deriving DecidableEq

/-! ### Messages -/

namespace State

/-- `state__code_pos__descriptor`: `fidx` and `offset`. -/
def codePos : Wire.Descriptor where
  fields := .leaf 1 .uint32 (.leaf 2 .uint64 .nil)

/-- `state__array8__descriptor`: `contents`. -/
def array8 : Wire.Descriptor where
  fields := .leaf 1 .bytes .nil

/-- `state__array32__descriptor`: `contents`. -/
def array32 : Wire.Descriptor where
  fields := .leaf 1 .uint32s .nil

/-- `state__typed_array__descriptor`: `types` and `values`. -/
def typedArray : Wire.Descriptor where
  fields := .message 1 array8.fields (.message 2 array32.fields .nil)

/-- `state__label_stack__descriptor`: `begins`, `targets`, `stack_pointers` and
`cell_nums`. -/
def labelStack : Wire.Descriptor where
  fields := .leaf 1 .uint32s (.leaf 2 .uint32s (.leaf 3 .uint32s (.leaf 4 .uint32s .nil)))

/-- `state__call_stack_entry__descriptor`: `pc`, `locals`, `value_stack` and
`label_stack`. -/
def callStackEntry : Wire.Descriptor where
  fields :=
    .message 1 codePos.fields
      (.message 2 typedArray.fields (.message 3 typedArray.fields (.message 4 labelStack.fields .nil)))

/-- `state__call_stack__descriptor`: `entries`. -/
def callStack : Wire.Descriptor where
  fields := .messages 1 callStackEntry.fields .nil

end State

/-! ### From structures to messages and back -/

/-- `memcpy` of `size` elements out of a block; `none` when the block is shorter. -/
def memcpy {α : Type} (block : List α) (size : UInt32) : Option {xs : List α // xs.length = size.toNat} :=
  if h : size.toNat ≤ block.length then some ⟨block.take size.toNat, List.length_take_of_le h⟩ else none

/-- A length kept in 32 bits. -/
def lengthOf {α : Type} (xs : List α) : UInt32 := UInt32.ofNat xs.length

/-- That is all of a list that can be counted in them. -/
theorem take_lengthOf {α : Type} {xs : List α} (h : xs.length < 2 ^ 32) : xs.take (lengthOf xs).toNat = xs := by
  rw [lengthOf, UInt32.toNat_ofNat', Nat.mod_eq_of_lt h, List.take_length]

/-- `from_array8(array)`. -/
def fromArray8 (array : Array8) : State.array8.Value := (array.contents, ())

/-- `to_array8(array_proto)`. -/
def toArray8 : State.array8.Value → Option Array8
  | (contents, ()) =>
    let size := lengthOf contents
    (memcpy contents size).map fun copy => ⟨size, copy.1, copy.2⟩

/-- `from_array32(array)`. -/
def fromArray32 (array : Array32) : State.array32.Value := (array.contents, ())

/-- `to_array32(array_proto)`. -/
def toArray32 : State.array32.Value → Option Array32
  | (contents, ()) =>
    let size := lengthOf contents
    (memcpy contents size).map fun copy => ⟨size, copy.1, copy.2⟩

/-- `from_typed_array(typed_array)`. -/
def fromTypedArray (typedArray : TypedArray) : State.typedArray.Value :=
  (some (fromArray8 typedArray.types), some (fromArray32 typedArray.values), ())

/-- `to_typed_array(typed_array_proto)`. -/
def toTypedArray : State.typedArray.Value → Option TypedArray
  | (types, values, ()) =>
    (types.bind toArray8).bind fun types =>
      (values.bind toArray32).map fun values => ⟨types, values⟩

/-- `from_code_pos(code_pos)`. -/
def fromCodePos (codePos : CodePos) : State.codePos.Value := (codePos.fidx, codePos.offset, ())

/-- `to_code_pos(code_pos_proto)`. -/
def toCodePos : State.codePos.Value → CodePos
  | (fidx, offset, ()) => ⟨fidx, offset⟩

/-- `from_label_stack(label_stack)`. -/
def fromLabelStack (labelStack : LabelStack) : State.labelStack.Value :=
  (labelStack.begins, labelStack.targets, labelStack.stackPointers, labelStack.cellNums, ())

/-- `to_label_stack(label_stack_proto)`. The number of `begins` is the size of all four. -/
def toLabelStack : State.labelStack.Value → Option LabelStack
  | (begins, targets, stackPointers, cellNums, ()) =>
    let size := lengthOf begins
    (memcpy begins size).bind fun begins =>
      (memcpy targets size).bind fun targets =>
        (memcpy stackPointers size).bind fun stackPointers =>
          (memcpy cellNums size).map fun cellNums =>
            ⟨size, begins.1, targets.1, stackPointers.1, cellNums.1, begins.2, targets.2, stackPointers.2,
              cellNums.2⟩

/-- `from_call_stack_entry(entry)`. -/
def fromCallStackEntry (entry : CallStackEntry) : State.callStackEntry.Value :=
  (some (fromCodePos entry.pc), some (fromTypedArray entry.locals), some (fromTypedArray entry.valueStack),
    some (fromLabelStack entry.labelStack), ())

/-- `to_call_stack_entry(entry_proto)`. -/
def toCallStackEntry : State.callStackEntry.Value → Option CallStackEntry
  | (pc, locals, valueStack, labelStack, ()) =>
    (pc.map toCodePos).bind fun pc =>
      (locals.bind toTypedArray).bind fun locals =>
        (valueStack.bind toTypedArray).bind fun valueStack =>
          (labelStack.bind toLabelStack).map fun labelStack => ⟨pc, locals, valueStack, labelStack⟩

/-- `from_call_stack(call_stack)`. -/
def fromCallStack (callStack : CallStack) : State.callStack.Value :=
  (callStack.entries.map fromCallStackEntry, ())

theorem length_of_mapM {α β : Type} {f : α → Option β} {as : List α} {bs : List β}
    (h : as.mapM f = some bs) : bs.length = as.length := by
  induction as generalizing bs with
  | nil =>
    cases h
    rfl
  | cons a as ih =>
    rw [List.mapM_cons] at h
    obtain ⟨b, -, h⟩ := Option.bind_eq_some_iff.mp h
    obtain ⟨bs', hbs, h⟩ := Option.bind_eq_some_iff.mp h
    cases h
    rw [List.length_cons, List.length_cons, ih hbs]

/-- `to_call_stack(call_stack_proto)`. -/
def toCallStack : State.callStack.Value → Option CallStack
  | (entries, ()) =>
    let size := lengthOf entries
    (memcpy entries size).bind fun protos =>
      (protos.1.mapM toCallStackEntry).pbind fun entries h =>
        some ⟨size, entries, (length_of_mapM h).trans protos.2⟩

/-! ### Serialization -/

/-- `protobuf-c`: the functions generated for a message type, `unpack` returning `none`
for `NULL`. -/
structure ProtobufC where
  getPackedSize (d : Wire.Descriptor) (message : d.Value) : Nat
  /-- The bytes that are written. -/
  pack (d : Wire.Descriptor) (message : d.Value) : Bytes
  unpack (d : Wire.Descriptor) (data : Bytes) : Option d.Value

namespace ProtobufC

/-- The library packs messages as the wire format has it, and unpacks what is so
packed. -/
structure Proto3 (pb : ProtobufC) : Prop where
  packedSize : ∀ d m, pb.getPackedSize d m = (d.encode m).length
  packs : ∀ d m, pb.pack d m = d.encode m
  unpacks : ∀ d data m, d.decode data = some m → pb.unpack d data = some m

/-- What the serializers share: a buffer of the packed size is packed into. `none` when
the buffer, whose size is kept in 32 bits, is not what is packed. -/
def serialize (pb : ProtobufC) (d : Wire.Descriptor) (message : d.Value) : Option Array8 :=
  let size := UInt32.ofNat (pb.getPackedSize d message)
  if h : (pb.pack d message).length = size.toNat then some ⟨size, pb.pack d message, h⟩ else none

end ProtobufC

section
variable (pb : ProtobufC)

/-- `serialize_array32(array)`. -/
def serializeArray32 (array : Array32) : Option Array8 := pb.serialize State.array32 (fromArray32 array)

/-- `deserialize_array32(buf)`. -/
def deserializeArray32 (buf : Array8) : Option Array32 :=
  (pb.unpack State.array32 buf.contents).bind toArray32

/-- `serialize_call_stack(cs)`. -/
def serializeCallStack (cs : CallStack) : Option Array8 := pb.serialize State.callStack (fromCallStack cs)

/-- `deserialize_call_stack(buf)`. -/
def deserializeCallStack (buf : Array8) : Option CallStack :=
  (pb.unpack State.callStack buf.contents).bind toCallStack

/-- `serialize_typed_array(typed_array)`. -/
def serializeTypedArray (typedArray : TypedArray) : Option Array8 :=
  pb.serialize State.typedArray (fromTypedArray typedArray)

/-- `deserialize_typed_array(buf)`. -/
def deserializeTypedArray (buf : Array8) : Option TypedArray :=
  (pb.unpack State.typedArray buf.contents).bind toTypedArray

end

end Wasmig
