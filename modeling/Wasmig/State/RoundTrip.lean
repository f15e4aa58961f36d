import Wasmig.State.Serialize

/-! What is serialized is deserialized.

Every structure survives its message (`toCallStack_fromCallStack` and the lemmas before
it): a message made of a structure has all its sub-messages, and blocks as long as
their sizes say. Every message survives its encoding as long as the encoding's size fits
in 32 bits (`serialize_unpack`). `serialize_roundTrip` puts the two together. -/
namespace Wasmig
open Base

/-! ### Structures and messages -/

theorem memcpy_whole {α : Type} {block : List α} {size : UInt32} (h : block.length = size.toNat) :
    memcpy block size = some ⟨block, h⟩ := by
  rw [memcpy, dif_pos (Nat.le_of_eq h.symm)]
  congr 2
  exact List.take_of_length_le (Nat.le_of_eq h)

theorem lengthOf_eq {α : Type} {block : List α} {size : UInt32} (h : block.length = size.toNat) :
    lengthOf block = size := by
  rw [lengthOf, h, UInt32.ofNat_toNat]

theorem toArray8_fromArray8 (array : Array8) : toArray8 (fromArray8 array) = some array := by
  obtain ⟨size, contents, hcontents⟩ := array
  have hsize := lengthOf_eq hcontents
  rw [fromArray8, toArray8, memcpy_whole (by rw [hsize, hcontents]), Option.map_some]
  exact congrArg some (Array8.ext hsize rfl)

theorem toArray32_fromArray32 (array : Array32) : toArray32 (fromArray32 array) = some array := by
  obtain ⟨size, contents, hcontents⟩ := array
  have hsize := lengthOf_eq hcontents
  rw [fromArray32, toArray32, memcpy_whole (by rw [hsize, hcontents]), Option.map_some]
  exact congrArg some (Array32.ext hsize rfl)

theorem toTypedArray_fromTypedArray (typedArray : TypedArray) :
    toTypedArray (fromTypedArray typedArray) = some typedArray := by
  rw [fromTypedArray, toTypedArray, Option.bind_some, toArray8_fromArray8, Option.bind_some,
    Option.bind_some, toArray32_fromArray32, Option.map_some]

theorem toLabelStack_fromLabelStack (labelStack : LabelStack) :
    toLabelStack (fromLabelStack labelStack) = some labelStack := by
  obtain ⟨size, begins, targets, stackPointers, cellNums, hbegins, htargets, hstackPointers, hcellNums⟩ :=
    labelStack
  have hsize := lengthOf_eq hbegins
  rw [fromLabelStack, toLabelStack, memcpy_whole (by rw [hsize, hbegins]), Option.bind_some,
    memcpy_whole (by rw [hsize, htargets]), Option.bind_some, memcpy_whole (by rw [hsize, hstackPointers]),
    Option.bind_some, memcpy_whole (by rw [hsize, hcellNums]), Option.map_some]
  exact congrArg some (LabelStack.ext hsize rfl rfl rfl rfl)

theorem toCallStackEntry_fromCallStackEntry (entry : CallStackEntry) :
    toCallStackEntry (fromCallStackEntry entry) = some entry := by
  rw [fromCallStackEntry, toCallStackEntry, Option.map_some, Option.bind_some, Option.bind_some,
    toTypedArray_fromTypedArray, Option.bind_some, Option.bind_some, toTypedArray_fromTypedArray,
    Option.bind_some, Option.bind_some, toLabelStack_fromLabelStack, Option.map_some]
  rfl

theorem toCallStack_fromCallStack (cs : CallStack) : toCallStack (fromCallStack cs) = some cs := by
  obtain ⟨size, entries, hentries⟩ := cs
  have hprotos : (entries.map fromCallStackEntry).length = size.toNat := by rw [List.length_map, hentries]
  have hmap : (entries.map fromCallStackEntry).mapM toCallStackEntry = some entries :=
    mapM_map_eq_some entries fun entry _ => toCallStackEntry_fromCallStackEntry entry
  have hsize := lengthOf_eq hprotos
  rw [fromCallStack, toCallStack, memcpy_whole (by rw [hsize, hprotos]), Option.bind_some]
  exact Option.pbind_eq_some_iff.mpr ⟨entries, hmap, congrArg some (CallStack.ext hsize rfl)⟩

/-! ### Messages and buffers -/

section
variable {pb : ProtobufC}

/-- A message is packed into a buffer it can be unpacked from. -/
theorem serialize_unpack (hpb : pb.Proto3) (d : Wire.Descriptor) (m : d.Value)
    (hlen : (d.encode m).length < 2 ^ 32) :
    ∃ buf, pb.serialize d m = some buf ∧ pb.unpack d buf.contents = some m := by
  have hsize : (UInt32.ofNat (pb.getPackedSize d m)).toNat = (d.encode m).length := by
    rw [hpb.packedSize, UInt32.toNat_ofNat']
    exact Nat.mod_eq_of_lt hlen
  have hfits : (pb.pack d m).length = (UInt32.ofNat (pb.getPackedSize d m)).toNat := by
    rw [hsize, hpb.packs]
  refine ⟨⟨_, pb.pack d m, hfits⟩, dif_pos hfits, ?_⟩
  have hdecode : d.decode (pb.pack d m) = some m := by
    rw [hpb.packs]
    exact d.decode_encode m (Nat.lt_trans hlen (by decide))
  exact hpb.unpacks d _ m hdecode

/-- A structure that survives its message survives its buffer. -/
theorem serialize_bind (hpb : pb.Proto3) {α : Type} (d : Wire.Descriptor) {ofMessage : d.Value → Option α}
    {m : d.Value} {a : α} (hlen : (d.encode m).length < 2 ^ 32) (hm : ofMessage m = some a) :
    ((pb.serialize d m).bind fun buf => (pb.unpack d buf.contents).bind ofMessage) = some a := by
  obtain ⟨buf, hbuf, hunpack⟩ := serialize_unpack hpb d m hlen
  rw [hbuf, Option.bind_some, hunpack, Option.bind_some, hm]

end

/-- Call stacks, typed arrays and arrays are deserialized as they were serialized. -/
theorem serialize_roundTrip (pb : ProtobufC) (hpb : pb.Proto3) :
    (∀ cs : CallStack, (State.callStack.encode (fromCallStack cs)).length < 2 ^ 32 →
      (serializeCallStack pb cs).bind (deserializeCallStack pb) = some cs) ∧
    (∀ typedArray : TypedArray, (State.typedArray.encode (fromTypedArray typedArray)).length < 2 ^ 32 →
      (serializeTypedArray pb typedArray).bind (deserializeTypedArray pb) = some typedArray) ∧
    ∀ array : Array32, (State.array32.encode (fromArray32 array)).length < 2 ^ 32 →
      (serializeArray32 pb array).bind (deserializeArray32 pb) = some array :=
  ⟨fun cs hlen => serialize_bind hpb State.callStack hlen (toCallStack_fromCallStack cs),
    fun typedArray hlen => serialize_bind hpb State.typedArray hlen (toTypedArray_fromTypedArray typedArray),
    fun array hlen => serialize_bind hpb State.array32 hlen (toArray32_fromArray32 array)⟩

/-- Three numbers are one record of packed varints. -/
example : State.array32.encode (fromArray32 ⟨3, [1, 2, 300], rfl⟩) = [0x0a, 4, 1, 2, 0xac, 0x02] := by decide

/-- The wire format as a library. -/
def ProtobufC.wire : ProtobufC where
  getPackedSize := fun d m => (d.encode m).length
  pack := fun d m => d.encode m
  unpack := fun d data => d.decode data

theorem ProtobufC.wire_proto3 : ProtobufC.wire.Proto3 := ⟨fun _ _ => rfl, fun _ _ => rfl, fun _ _ _ h => h⟩

/-- Two frames: one with a zero among its values and a label, one at the start of
function 0 with nothing in it. -/
def twoFrames : CallStack where
  size := 2
  entries :=
    [⟨⟨7, 300⟩, ⟨⟨2, [1, 2], rfl⟩, ⟨3, [0, 4294967295, 128], rfl⟩⟩, ⟨⟨0, [], rfl⟩, ⟨0, [], rfl⟩⟩,
        ⟨1, [5], [0], [2], [1], rfl, rfl, rfl, rfl⟩⟩,
      ⟨⟨0, 0⟩, ⟨⟨0, [], rfl⟩, ⟨0, [], rfl⟩⟩, ⟨⟨0, [], rfl⟩, ⟨0, [], rfl⟩⟩,
        ⟨0, [], [], [], [], rfl, rfl, rfl, rfl⟩⟩]
  length_entries := rfl

theorem serialize_roundTrip_twoFrames :
    (serializeCallStack .wire twoFrames).bind (deserializeCallStack .wire) = some twoFrames :=
  (serialize_roundTrip .wire ProtobufC.wire_proto3).1 twoFrames (by decide)

end Wasmig
