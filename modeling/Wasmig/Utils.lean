import Wasmig.Base.Stdio

/-! `utils.h` and `utils.cpp`: the page size of WebAssembly and the image files,
which are opened by name in the process's working directory. The constants of the
memory image format, which `checkpoint.cpp` and `restore.cpp` each define alike, are
here as well. -/
namespace Wasmig
open Base

/-- `WASM_PAGE_SIZE`. -/
def wasmPageSize : Nat := 0x10000

/-- An image file: a name in a working directory. -/
structure Path where
  dir : String
  name : String
deriving DecidableEq, Repr

/-- The files a working directory shows, by name. -/
abbrev Directory := String → Option Bytes

/-- The directory `cwd` as the files stand. -/
def directory (w : Stdio.World Path) (cwd : String) : Directory := fun name => w.files ⟨cwd, name⟩

/-- `open_image(file, "rb")`. -/
def openImageRb (dir : Directory) (file : String) : Option Stdio.Reader :=
  (dir file).map Stdio.Reader.ofFile

/-- `open_image(file, "wb")` with `cwd` the working directory. -/
def openImageWb (w : Stdio.World Path) (cwd file : String) : Stdio.Opened Path :=
  Stdio.fopen w ⟨cwd, file⟩

/-- `kMemoryChunkSize`. -/
def kMemoryChunkSize : UInt32 := 4096

@[simp] theorem kMemoryChunkSize_toNat : kMemoryChunkSize.toNat = 4096 := rfl

/-- `kSparseMemoryFormatV1`. -/
def kSparseMemoryFormatV1 : UInt32 := 0x4d534731

/-- `kSparseMemoryFormatV2`, which only `restore.cpp` knows. -/
def kSparseMemoryFormatV2 : UInt32 := 0x4d534732

/-- `__builtin_mul_overflow` on `size_t`: the product, unless it does not fit. -/
def mulOverflow (a b : Nat) : Option Nat := if a * b < 2 ^ 64 then some (a * b) else none

/-- `i + 1` on an `int`; `none` when it overflows. -/
def intSucc (i : Nat) : Option Nat := if i + 1 < 2 ^ 31 then some (i + 1) else none

theorem intSucc_eq_some {i k : Nat} : intSucc i = some k ↔ i + 1 < 2 ^ 31 ∧ k = i + 1 := by
  simp [intSucc, eq_comm]

end Wasmig
