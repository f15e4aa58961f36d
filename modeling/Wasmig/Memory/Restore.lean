import Wasmig.Base.Faults
import Wasmig.Base.Memory
import Wasmig.Utils

/-! The memory side of `restore.cpp`: the metadata in `mem_page_count.img`, the stream
parser of `memory.img` with its three formats, which hands every piece of memory it
finds to a visitor, and the visitor that copies the pieces to a destination.

Any call that opens, places or reads a file may fail, as the environment says; allocation
succeeds. Each reader without `OrFail` in its name is the one with it when nothing fails. -/
namespace Wasmig
open Base Base.Stdio

/-- `WasmigMemoryImageInfo`. Every one that is handed out speaks of chunks of
`kMemoryChunkSize` bytes. -/
structure WasmigMemoryImageInfo where
  format : UInt32
  pageCount : UInt32
  chunkSize : UInt32
  sparseFormat : Bool
  chunkSize_eq : chunkSize = kMemoryChunkSize
deriving DecidableEq

/-- What `get_file_size(fp, &size)` finds: the size, and the stream back at its start. -/
def getFileSize (fp : Reader) : Nat × Reader := (fp.seekEnd.tell, fp.seekEnd.seekStart)

/-- `open_image(file, "rb")`. -/
def openImageRbOrFail (dir : Directory) (f : Faults) (file : String) : Option Reader × Faults :=
  if f.fails then (none, f.tick) else (openImageRb dir file, f.tick)

/-- `get_file_size(fp, &size)`; `none` is `false`. -/
def getFileSizeOrFail (f : Faults) (fp : Reader) : Option (Nat × Reader) × Faults :=
  -- `fseek`, `ftell` and `fseek` again.
  if f.fails then (none, f.tick) else
  if f.tick.fails then (none, f.tick.tick) else
  if f.tick.tick.fails then (none, f.tick.tick.tick) else (some (getFileSize fp), f.tick.tick.tick)

/-- `inspect_memory_image(mem_size_fp, &info)`; `none` is `false`. -/
def inspectMemoryImageOrFail (f : Faults) (memSizeFp : Reader) : Option WasmigMemoryImageInfo × Faults :=
  match getFileSizeOrFail f memSizeFp with
  | (none, f) => (none, f)
  | (some (fileSize, fp), f) =>
    if fileSize = 4 then
      let count := freadOrFail f fp 4 1
      if count.count ≠ 1 then (none, count.faults) else
      (some ⟨0, word32 count.data, kMemoryChunkSize, false, rfl⟩, count.faults)
    else if fileSize = 4 * 2 then
      let format := freadOrFail f fp 4 1
      if format.count ≠ 1 then (none, format.faults) else
      let count := freadOrFail format.faults format.fp 4 1
      if count.count ≠ 1 then (none, count.faults) else
      if word32 format.data ≠ kSparseMemoryFormatV1 ∧ word32 format.data ≠ kSparseMemoryFormatV2 then
        (none, count.faults)
      else (some ⟨word32 format.data, word32 count.data, kMemoryChunkSize, true, rfl⟩, count.faults)
    else (none, f)

/-- `wasmig_memory_image_info(&info)`: the info it fills in when it returns 0, `none`
when it returns -1. -/
def memoryImageInfoOrFail (dir : Directory) (f : Faults) : Option WasmigMemoryImageInfo × Faults :=
  match openImageRbOrFail dir f "mem_page_count.img" with
  | (none, f) => (none, f)
  | (some memSizeFp, f) => inspectMemoryImageOrFail f memSizeFp

/-- `wasmig_memory_chunk_visitor_t`, its `user_data` being the state `σ`: the offset,
the buffer with the bytes read into it, the length, the state before; its code and the
state after. -/
abbrev Visitor (σ : Type) := UInt32 → Bytes → UInt32 → σ → Int × σ

section Visiting
variable {σ : Type} (visitor : Visitor σ) (info : WasmigMemoryImageInfo)

/-- The loop over a legacy dense image, from `offset` on. -/
def visitDenseChunksOrFail (totalSize offset : Nat) (f : Faults) (memoryFp : Reader) (s : σ) : (Int × σ) × Faults :=
  if offset < totalSize then
    let len := min info.chunkSize.toNat (totalSize - offset)
    let chunk := freadOrFail f memoryFp 1 len
    if chunk.count ≠ len then ((-1, s), chunk.faults) else
    let visited := visitor (UInt32.ofNat offset) chunk.data (UInt32.ofNat len) s
    if visited.1 ≠ 0 then ((-1, visited.2), chunk.faults) else
    visitDenseChunksOrFail totalSize (offset + info.chunkSize.toNat) chunk.faults chunk.fp visited.2
  else ((0, s), f)
termination_by totalSize - offset
decreasing_by rw [info.chunkSize_eq, kMemoryChunkSize_toNat]; omega

/-- The loop over a sparse image: records of format V1, extents of format V2. -/
def visitSparseChunksOrFail (chunkCapacity : Nat) (f : Faults) (memoryFp : Reader) (s : σ) : (Int × σ) × Faults :=
  let index := freadOrFail f memoryFp 4 1
  if hread : index.count = 0 then
    ((if index.fp.eof then 0 else -1, s), index.faults)
  else if index.count ≠ 1 then ((-1, s), index.faults) else
  let chunkIndex := word32 index.data
  if info.format = kSparseMemoryFormatV1 then
    if chunkIndex.toNat ≥ chunkCapacity then ((-1, s), index.faults) else
    let chunk := freadOrFail index.faults index.fp 1 info.chunkSize.toNat
    if chunk.count ≠ info.chunkSize.toNat then ((-1, s), chunk.faults) else
    let visited := visitor (chunkIndex * info.chunkSize) chunk.data info.chunkSize s
    if visited.1 ≠ 0 then ((-1, visited.2), chunk.faults) else
    visitSparseChunksOrFail chunkCapacity chunk.faults chunk.fp visited.2
  else
    let count := freadOrFail index.faults index.fp 4 1
    if count.count ≠ 1 then ((-1, s), count.faults) else
    let extentChunkCount := word32 count.data
    if extentChunkCount = 0 ∨ chunkIndex.toNat + extentChunkCount.toNat > chunkCapacity then
      ((-1, s), count.faults)
    else
      match mulOverflow extentChunkCount.toNat info.chunkSize.toNat with
      | none => ((-1, s), count.faults)
      | some extentSize =>
        let extent := freadOrFail count.faults count.fp 1 extentSize
        if extent.count ≠ extentSize then ((-1, s), extent.faults) else
        let visited := visitor (chunkIndex * info.chunkSize) extent.data (UInt32.ofNat extentSize) s
        if visited.1 ≠ 0 then ((-1, visited.2), extent.faults) else
        visitSparseChunksOrFail chunkCapacity extent.faults extent.fp visited.2
termination_by memoryFp.unread.length
decreasing_by
  all_goals
    have hindex := freadOrFail_unread_lt f memoryFp 4 1 hread
  · exact Nat.lt_of_le_of_lt (freadOrFail_unread_le ..) hindex
  · exact Nat.lt_of_le_of_lt (Nat.le_trans (freadOrFail_unread_le ..) (freadOrFail_unread_le ..)) hindex

end Visiting

/-- `wasmig_visit_memory_chunks(visitor, user_data)` for a visitor that is not null:
its code, and the visitor's state after the calls made. -/
def visitMemoryChunksOrFail {σ : Type} (dir : Directory) (visitor : Visitor σ) (s : σ) (f : Faults) :
    (Int × σ) × Faults :=
  match openImageRbOrFail dir f "memory.img" with
  | (none, f) => ((-1, s), f)
  | (some memoryFp, f) =>
    match memoryImageInfoOrFail dir f with
    | (none, f) => ((-1, s), f)
    | (some info, f) =>
      match mulOverflow wasmPageSize info.pageCount.toNat with
      | none => ((-1, s), f)
      | some totalSize =>
        match getFileSizeOrFail f memoryFp with
        | (none, f) => ((-1, s), f)
        | (some (fileSize, memoryFp), f) =>
          if info.sparseFormat = false then
            if fileSize ≠ totalSize then ((-1, s), f) else
            visitDenseChunksOrFail visitor info totalSize 0 f memoryFp s
          else
            let chunkCapacity := info.pageCount.toNat * wasmPageSize / info.chunkSize.toNat
            visitSparseChunksOrFail visitor info chunkCapacity f memoryFp s

/-- The visitor of `wasmig_restore_memory_into`. -/
def restoreVisitor (dst dstSize : Nat) : Visitor Ram := fun offset data len ram =>
  let endOffset := offset.toNat + len.toNat
  if endOffset > dstSize then (-1, ram) else
  (0, ram.memcpy (dst + offset.toNat) data len.toNat)

/-- `wasmig_restore_memory_into(dst, dst_size)`, `dst` an address and 0 the null
pointer: its code and the memory after it. -/
def restoreMemoryIntoOrFail (dir : Directory) (dst dstSize : Nat) (ram : Ram) (f : Faults) : (Int × Ram) × Faults :=
  if dst = 0 ∧ dstSize ≠ 0 then ((-1, ram), f) else
  match memoryImageInfoOrFail dir f with
  | (none, f) => ((-1, ram), f)
  | (some info, f) =>
    match mulOverflow wasmPageSize info.pageCount.toNat with
    | none => ((-1, ram), f)
    | some totalSize =>
      if dstSize < totalSize then ((-1, ram), f) else
      visitMemoryChunksOrFail dir (restoreVisitor dst dstSize) ram f

/-! ### When nothing fails -/

/-- `wasmig_memory_image_info(&info)`. -/
def memoryImageInfo (dir : Directory) : Option WasmigMemoryImageInfo := (memoryImageInfoOrFail dir .never).1

/-- `wasmig_visit_memory_chunks(visitor, user_data)`. -/
def visitMemoryChunks {σ : Type} (dir : Directory) (visitor : Visitor σ) (s : σ) : Int × σ :=
  (visitMemoryChunksOrFail dir visitor s .never).1

/-- `wasmig_restore_memory_into(dst, dst_size)`. -/
def restoreMemoryInto (dir : Directory) (dst dstSize : Nat) (ram : Ram) : Int × Ram :=
  (restoreMemoryIntoOrFail dir dst dstSize ram .never).1

end Wasmig
