import Wasmig.Base.Memory
import Wasmig.Utils

/-! `wasmig_checkpoint_memory` (`checkpoint.cpp`): the chunks of 4096 bytes that are
not all zero go to `memory.img`, each behind its index, and then the format marker and
the page count to `mem_page_count.img`. -/
namespace Wasmig
open Base Base.Stdio

/-- `is_zero_memory_chunk(page)`. -/
def isZeroMemoryChunk (page : Memory) : Bool :=
  (List.range kMemoryChunkSize.toNat).all fun i => page i == 0

/-- What the chunk loop leaves: whether it reached the end, the stream, the files. -/
structure ChunksWritten where
  ok : Bool
  fp : Writer Path
  world : World Path

/-- The chunk loop of `wasmig_checkpoint_memory`, from `offset` on. -/
def writeMemoryChunks (memory : Memory) (totalSize offset : Nat) (memFp : Writer Path)
    (w : World Path) : ChunksWritten :=
  if offset < totalSize then
    let chunk : Memory := fun i => memory (offset + i)
    if isZeroMemoryChunk chunk then
      writeMemoryChunks memory totalSize (offset + kMemoryChunkSize.toNat) memFp w
    else
      let chunkIndex := UInt32.ofNat (offset / kMemoryChunkSize.toNat)
      let index := fwrite w memFp 4 (le32 chunkIndex)
      if index.count ≠ 1 then ⟨false, index.fp, index.world⟩ else
      let body := fwrite index.world index.fp 1 (chunk.read 0 kMemoryChunkSize.toNat)
      if body.count ≠ kMemoryChunkSize.toNat then ⟨false, body.fp, body.world⟩ else
      writeMemoryChunks memory totalSize (offset + kMemoryChunkSize.toNat) body.fp body.world
  else ⟨true, memFp, w⟩
termination_by totalSize - offset
decreasing_by all_goals simp only [kMemoryChunkSize_toNat]; omega

/-- `if (fp) fclose(fp);` -/
def closeOpened (w : World Path) : Option (Writer Path) → World Path
  | some fp => (fclose w fp).world
  | none => w

/-- `wasmig_checkpoint_memory` once both files are open. -/
def writeMemoryImages (memory : Memory) (curPage : UInt32) (memFp memSizeFp : Writer Path)
    (w : World Path) : Int × World Path :=
  let totalSize := curPage.toNat * wasmPageSize
  let chunks := writeMemoryChunks memory totalSize 0 memFp w
  if chunks.ok = false then
    (-1, (fclose (fclose chunks.world chunks.fp).world memSizeFp).world)
  else
    let format := fwrite chunks.world memSizeFp 4 (le32 kSparseMemoryFormatV1)
    if format.count ≠ 1 then
      (-1, (fclose (fclose format.world chunks.fp).world format.fp).world)
    else
      let count := fwrite format.world format.fp 4 (le32 curPage)
      if count.count ≠ 1 then
        (-1, (fclose (fclose count.world chunks.fp).world count.fp).world)
      else
        (0, (fclose (fclose count.world chunks.fp).world count.fp).world)

/-- `wasmig_checkpoint_memory(memory, cur_page)` with `cwd` the working directory: its
code and the files after it. -/
def checkpointMemory (cwd : String) (memory : Memory) (curPage : UInt32) (w : World Path) :
    Int × World Path :=
  let mem := openImageWb w cwd "memory.img"
  let size := openImageWb mem.world cwd "mem_page_count.img"
  match mem.fp, size.fp with
  | some memFp, some memSizeFp => writeMemoryImages memory curPage memFp memSizeFp size.world
  | memFp, memSizeFp => (-1, closeOpened (closeOpened size.world memFp) memSizeFp)

end Wasmig
