import Wasmig.Base.Faults
import Wasmig.Checkpoint.Successive

/-! Dumping dirty pages only (`write_dirty_memory` and `restore_dirty_memory`).

The writer puts every page that the kernel reports dirty behind its offset in the memory. The
reader reads the offsets and does not use them: each page goes to the start of the memory, over
the one before it. And where all of the 4 GiB are in use the writer computes an end of 0.
`dirtyMemory_restored_iff` says what has to be the case for the memory to come back all the
same, and `restoreDirtyMemory_streams` what becomes of a memory whatever is read. -/
namespace Wasmig
open Base Base.Stdio

/-! ### The writer -/

/-- `OS_PAGE_SIZE` of the writer and `PAGE_SIZE` of the reader. -/
def osPageSize : Nat := 4096

/-- `is_page_soft_dirty(pagemap_entry)`. -/
def isPageSoftDirty (pagemapEntry : UInt64) : Bool := pagemapEntry >>> 55 &&& 1 != 0

/-- `/proc/self/pagemap`, as the environment has it. -/
structure Pagemap where
  /-- It can be opened. -/
  opens : Bool
  /-- The `k`-th seek succeeds. -/
  seeks : Nat → Bool
  /-- The entry of a page frame number, if it can be read. -/
  entry : Nat → Option UInt64

/-- Page `i` of the memory at `address` is reported dirty. -/
def Pagemap.dirty (pagemap : Pagemap) (address i : Nat) : Bool :=
  ((pagemap.entry ((address + osPageSize * i) / osPageSize)).map isPageSoftDirty).getD false

/-- The loop of `write_dirty_memory` over `left` pages of the memory at `address`, from page `i`
on. -/
def writeDirtyPages (memory : Memory) (address : Nat) (pagemap : Pagemap) :
    Nat → Nat → Writer Path → World Path → ChunksWritten
  | 0, _, memoryFp, w => ⟨true, memoryFp, w⟩
  | left + 1, i, memoryFp, w =>
    if pagemap.seeks (i + 1) = false then ⟨false, memoryFp, w⟩ else
    match pagemap.entry ((address + osPageSize * i) / osPageSize) with
    | none => ⟨false, memoryFp, w⟩
    | some pagemapEntry =>
      if isPageSoftDirty pagemapEntry then
        let offset := fwrite w memoryFp 4 (le32 (UInt32.ofNat (osPageSize * i)))
        let page := fwrite offset.world offset.fp osPageSize (memory.read (osPageSize * i) osPageSize)
        writeDirtyPages memory address pagemap left (i + 1) page.fp page.world
      else writeDirtyPages memory address pagemap left (i + 1) memoryFp w

/-- `cur_page * WASM_PAGE_SIZE`, in 32 bits. -/
def dumpedBytes (curPage : UInt32) : UInt32 := curPage * UInt32.ofNat wasmPageSize

/-- How often the loop of `write_dirty_memory` goes round. -/
def dumpedPages (curPage : UInt32) : Nat := ((dumpedBytes curPage).toNat + (osPageSize - 1)) / osPageSize

/-- `write_dirty_memory(memory, cur_page)`, `memory` at `address`. When it fails, the image stays
open. -/
def writeDirtyMemory (cwd : String) (memory : Memory) (address : Nat) (curPage : UInt32) (pagemap : Pagemap)
    (w : World Path) : Int × World Path :=
  let opened := openImageWb w cwd "memory.img"
  match opened.fp with
  | none => (-1, opened.world)
  | some memoryFp =>
    if pagemap.opens = false then (-1, opened.world) else
    if pagemap.seeks 0 = false then (-1, opened.world) else
    let pages := writeDirtyPages memory address pagemap (dumpedPages curPage) 0 memoryFp opened.world
    if pages.ok = false then (-1, pages.world) else (0, (fclose pages.world pages.fp).world)

/-! ### The reader -/

/-- `restore_dirty_memory(memory, memory_fp)` between two rounds of its loop. -/
structure DirtyRestore where
  memory : Memory
  memoryFp : Reader
  faults : Faults

/-- A round of the loop: a page is read to the start of the memory, wherever it belongs. There is
no round once the end of the file has been seen. -/
def DirtyRestore.next (s : DirtyRestore) : DirtyRestore :=
  if s.memoryFp.eof = true then s else
  let offset := freadOrFail s.faults s.memoryFp 4 1
  if offset.count = 0 then ⟨s.memory, offset.fp, offset.faults⟩ else
  let page := freadOrFail offset.faults offset.fp osPageSize 1
  ⟨s.memory.write 0 page.data, page.fp, page.faults⟩

/-- A round in which no read fails. -/
theorem DirtyRestore.next_never (memory : Memory) {fp : Reader} (heof : ¬ fp.eof = true) :
    DirtyRestore.next ⟨memory, fp, .never⟩ =
      let offset := fread fp 4 1
      if offset.count = 0 then ⟨memory, offset.fp, Faults.never.tick⟩ else
      let page := fread offset.fp osPageSize 1
      ⟨memory.write 0 page.data, page.fp, Faults.never.tick.tick⟩ := by
  rw [DirtyRestore.next, if_neg heof]
  rfl

/-- What is left to do on a stream: nothing at its end, otherwise also to see that it is there. -/
def leftToRead (fp : Reader) : Nat := if fp.eof = true then 0 else fp.unread.length + 1

/-- A round gets something to read, or sees that there is nothing. -/
theorem leftToRead_next (memory : Memory) {fp : Reader} (heof : ¬ fp.eof = true) :
    leftToRead (DirtyRestore.next ⟨memory, fp, .never⟩).memoryFp < leftToRead fp := by
  obtain ⟨hcount, hend⟩ := fread_item fp 4 (by decide)
  rw [DirtyRestore.next_never memory heof, leftToRead, leftToRead, if_neg heof]
  dsimp only
  by_cases hread : (fread fp 4 1).count = 0
  · have hshort : fp.unread.length < 4 := by
      by_contra hlong
      rw [if_neg hlong] at hcount
      exact absurd (hcount.symm.trans hread) (by decide)
    rw [if_pos hread, if_pos (hend hshort)]
    exact Nat.succ_pos _
  · have hoffset := fread_unread_lt fp 4 1 hread
    have hpage := fread_unread_le (fread fp 4 1).fp osPageSize 1
    rw [if_neg hread]
    split
    · exact Nat.succ_pos _
    · dsimp only
      omega

/-- `restore_dirty_memory(memory, memory_fp)` when no read fails. -/
def restoreDirtyMemory (memory : Memory) (memoryFp : Reader) : Memory :=
  if memoryFp.eof = true then memory else
  let round := DirtyRestore.next ⟨memory, memoryFp, .never⟩
  restoreDirtyMemory round.memory round.memoryFp
termination_by leftToRead memoryFp
decreasing_by
  rename_i heof
  exact leftToRead_next memory heof

/-- Its first round. -/
theorem restoreDirtyMemory_round (memory : Memory) {fp : Reader} (heof : ¬ fp.eof = true) :
    restoreDirtyMemory memory fp =
      let offset := fread fp 4 1
      if offset.count = 0 then restoreDirtyMemory memory offset.fp else
      let page := fread offset.fp osPageSize 1
      restoreDirtyMemory (memory.write 0 page.data) page.fp := by
  rw [restoreDirtyMemory, if_neg heof, DirtyRestore.next_never memory heof]
  dsimp only
  split
  · rfl
  · rfl

/-! ### Images -/

/-- The dirty ones among `left` pages from page `i` on. -/
def dirtyFrom (pagemap : Pagemap) (address left i : Nat) : List Nat :=
  (List.range' i left).filter (pagemap.dirty address)

/-- A dump of pages. -/
def dirtyImage (memory : Memory) (pages : List Nat) : Bytes :=
  pages.flatMap fun i => le32 (UInt32.ofNat (osPageSize * i)) ++ memory.read (osPageSize * i) osPageSize

/-- The lengths of its blocks. -/
def dirtyBlocks (pages : List Nat) : List Nat := pages.flatMap fun _ => [4, osPageSize]

section
variable {memory : Memory} {address : Nat} {pagemap : Pagemap} {w₀ w : World Path} {path : Path}
  {fp : Writer Path}

theorem dirtyFrom_succ (pagemap : Pagemap) (address left i : Nat) :
    dirtyFrom pagemap address (left + 1) i =
      if pagemap.dirty address i = true then i :: dirtyFrom pagemap address left (i + 1)
      else dirtyFrom pagemap address left (i + 1) := by
  rw [dirtyFrom, List.range'_succ, List.filter_cons]
  rfl

/-- What one round of the loop does, unless it gives up. -/
theorem writeDirtyPages_succ {left i : Nat}
    (hok : (writeDirtyPages memory address pagemap (left + 1) i fp w).ok = true) :
    writeDirtyPages memory address pagemap (left + 1) i fp w =
      if pagemap.dirty address i = true then
        let offset := fwrite w fp 4 (le32 (UInt32.ofNat (osPageSize * i)))
        let page := fwrite offset.world offset.fp osPageSize (memory.read (osPageSize * i) osPageSize)
        writeDirtyPages memory address pagemap left (i + 1) page.fp page.world
      else writeDirtyPages memory address pagemap left (i + 1) fp w := by
  rw [writeDirtyPages] at hok ⊢
  unfold Pagemap.dirty
  split at hok
  · cases hok
  · rename_i hseeks
    rw [if_neg hseeks]
    cases hentry : pagemap.entry ((address + osPageSize * i) / osPageSize) with
    | none =>
      rw [hentry] at hok
      cases hok
    | some entry => rfl

theorem writeDirtyPages_broken (left i n : Nat) (h : Broken w₀ path n w fp)
    (hok : (writeDirtyPages memory address pagemap left i fp w).ok = true) :
    Broken w₀ path (n + (dirtyImage memory (dirtyFrom pagemap address left i)).length)
      (writeDirtyPages memory address pagemap left i fp w).world
      (writeDirtyPages memory address pagemap left i fp w).fp := by
  induction left generalizing i n w fp with
  | zero => exact h
  | succ left ih =>
    have hround := writeDirtyPages_succ hok
    rw [hround] at hok ⊢
    rw [dirtyFrom_succ]
    split at hok
    · rename_i hdirty
      rw [if_pos hdirty, if_pos hdirty, dirtyImage, List.flatMap_cons, List.length_append, ← Nat.add_assoc,
        List.length_append, ← Nat.add_assoc]
      exact ih (i + 1) _ ((h.write _ _).write _ _) hok
    · rename_i hclean
      rw [if_neg hclean, if_neg hclean]
      exact ih (i + 1) n h hok

variable (memory) in
/-- The loop writes all dirty pages, or has lost something when it ends. -/
theorem writeDirtyPages_spec {reach : Option Nat} {last : Nat} (left i : Nat) {written : Bytes}
    (h : Underway w₀ path [] reach last (dirtyBlocks (dirtyFrom pagemap address left i)) written w fp)
    (hok : (writeDirtyPages memory address pagemap left i fp w).ok = true) :
    Underway w₀ path [] reach last [] (written ++ dirtyImage memory (dirtyFrom pagemap address left i))
        (writeDirtyPages memory address pagemap left i fp w).world
        (writeDirtyPages memory address pagemap left i fp w).fp ∨
      (reach = none ∧ Broken w₀ path (written ++ dirtyImage memory (dirtyFrom pagemap address left i)).length
        (writeDirtyPages memory address pagemap left i fp w).world
        (writeDirtyPages memory address pagemap left i fp w).fp) := by
  induction left generalizing i written w fp with
  | zero =>
    refine Or.inl ?_
    show Underway w₀ path [] reach last [] (written ++ []) w fp
    rw [List.append_nil]
    exact h
  | succ left ih =>
    have hround := writeDirtyPages_succ hok
    rw [hround] at hok ⊢
    rw [dirtyFrom_succ] at h ⊢
    split at hok
    · rename_i hdirty
      rw [if_pos hdirty] at h ⊢
      rw [if_pos hdirty, dirtyImage, List.flatMap_cons, ← List.append_assoc, ← List.append_assoc]
      obtain hoffset | ⟨hreach, hbroken⟩ := h.write_unchecked 4 1 _ (le32_length _) (by decide) rfl (Or.inl Nat.one_pos)
      · obtain hpage | ⟨hreach, hbroken⟩ := hoffset.write_unchecked osPageSize 1 _ (Memory.read_length ..)
          (by decide) rfl (Or.inl Nat.one_pos)
        · exact ih (i + 1) hpage hok
        · refine Or.inr ⟨hreach, ?_⟩
          rw [← List.length_append] at hbroken
          rw [List.length_append]
          exact writeDirtyPages_broken left (i + 1) _ hbroken hok
      · refine Or.inr ⟨hreach, ?_⟩
        have hlost := hbroken.write osPageSize (memory.read (osPageSize * i) osPageSize)
        rw [← List.length_append, ← List.length_append] at hlost
        rw [List.length_append]
        exact writeDirtyPages_broken left (i + 1) _ hlost hok
    · rename_i hclean
      rw [if_neg hclean] at h ⊢
      rw [if_neg hclean]
      exact ih (i + 1) h hok

end

/-! ### What the reader makes of a dump -/

theorem restoreDirtyMemory_eof {fp : Reader} (memory : Memory) (heof : fp.eof = true) :
    restoreDirtyMemory memory fp = memory := by
  rw [restoreDirtyMemory, if_pos heof]

/-- At the end of the file the reader has to look for another offset to notice. -/
theorem restoreDirtyMemory_nil {fp : Reader} (memory : Memory) (hunread : fp.unread = []) :
    restoreDirtyMemory memory fp = memory := by
  by_cases heof : fp.eof = true
  · exact restoreDirtyMemory_eof memory heof
  · obtain ⟨hcount, hend⟩ := fread_item fp 4 (by decide)
    have hshort : fp.unread.length < 4 := by
      rw [hunread]
      decide
    rw [if_pos hshort] at hcount
    rw [restoreDirtyMemory_round memory heof]
    dsimp only
    rw [if_pos hcount]
    exact restoreDirtyMemory_eof memory (hend hshort)

/-- A read of as much as there is sets no end of file. -/
theorem fread_eof_of_le {fp : Reader} {size : Nat} (h : size ≤ fp.unread.length) :
    (fread fp size 1).fp.eof = fp.eof := by
  have hlength : (fp.unread.take size).length = size := List.length_take_of_le h
  simp [fread, hlength]

/-- Of all pages the last one stays. -/
theorem restoreDirtyMemory_image {source : Memory} (pages : List Nat) (memory : Memory) {fp : Reader}
    (heof : fp.eof = false) (hunread : fp.unread = dirtyImage source pages) :
    restoreDirtyMemory memory fp =
      (pages.getLast?).elim memory fun i => memory.write 0 (source.read (osPageSize * i) osPageSize) := by
  induction pages generalizing memory fp with
  | nil => exact restoreDirtyMemory_nil memory hunread
  | cons i pages ih =>
    rw [dirtyImage, List.flatMap_cons, List.append_assoc] at hunread
    have hlong : ¬ fp.unread.length < 4 := by
      rw [hunread, List.length_append, le32_length]
      omega
    have hcount : (fread fp 4 1).count = 1 := by rw [(fread_item fp 4 (by decide)).1, if_neg hlong]
    have hafter : (fread fp 4 1).fp.unread = source.read (osPageSize * i) osPageSize ++ dirtyImage source pages := by
      rw [fread_unread, hunread, List.drop_left' (le32_length _)]
      rfl
    have hdata : (fread (fread fp 4 1).fp osPageSize 1).data = source.read (osPageSize * i) osPageSize := by
      rw [fread_data, hafter, Nat.mul_one, List.take_left' (Memory.read_length ..)]
    have hrest : (fread (fread fp 4 1).fp osPageSize 1).fp.unread = dirtyImage source pages := by
      rw [fread_unread, hafter, Nat.mul_one, List.drop_left' (Memory.read_length ..)]
    have heof' : (fread (fread fp 4 1).fp osPageSize 1).fp.eof = false := by
      rw [fread_eof_of_le, fread_eof_of_le (Nat.le_of_not_lt hlong)]
      · exact heof
      · rw [hafter, List.length_append, Memory.read_length]
        exact Nat.le_add_right ..
    rw [restoreDirtyMemory_round memory (by rw [heof]; exact Bool.false_ne_true)]
    dsimp only
    rw [if_neg (by rw [hcount]; decide), hdata, ih _ heof' hrest]
    cases pages with
    | nil => rw [List.getLast?_nil, Option.elim_none, List.getLast?_singleton, Option.elim_some]
    | cons j pages =>
      rw [List.getLast?_cons_cons]
      cases hk : (j :: pages).getLast? with
      | none => cases List.getLast?_eq_none_iff.mp hk
      | some k =>
        have hsame : (source.read (osPageSize * i) osPageSize).length ≤
            (source.read (osPageSize * k) osPageSize).length :=
          Nat.le_of_eq ((Memory.read_length ..).trans (Memory.read_length ..).symm)
        rw [Option.elim_some, Option.elim_some, Memory.write_write _ _ hsame]

/-! ### From one memory to the other -/

/-- The pages that are dumped. -/
def dirtyPages (pagemap : Pagemap) (address : Nat) (curPage : UInt32) : List Nat :=
  dirtyFrom pagemap address (dumpedPages curPage) 0

/-- The copy of `base` has become `memory`, and has changed on dirty pages only. -/
structure Patched (base memory restored : Memory) (size : Nat) (dirty : Nat → Bool) : Prop where
  inside : ∀ x, x < size → restored x = memory x
  outside : ∀ x, ¬ (x < size ∧ dirty (x / osPageSize) = true) → restored x = base x

/-- The memories differ on the first page at most, which is what the page with this number has
in it. -/
def OnFirstPage (base memory : Memory) (size last : Nat) : Prop :=
  (∀ x, osPageSize ≤ x → x < size → base x = memory x) ∧
    ∀ x, x < osPageSize → memory (osPageSize * last + x) = memory x

/-- With 4 GiB nothing is dumped, so there may be nothing to change; with less the last dirty page is
what goes to the start of the memory. -/
def DumpSuffices (base memory : Memory) (address : Nat) (curPage : UInt32) (pagemap : Pagemap) : Prop :=
  (curPage.toNat = 65536 → ∀ x, x < curPage.toNat * wasmPageSize → base x = memory x) ∧
    (curPage.toNat < 65536 → ∀ last, (dirtyFrom pagemap address (16 * curPage.toNat) 0).getLast? = some last →
      OnFirstPage base memory (curPage.toNat * wasmPageSize) last)

/-- The end of `write_dirty_memory`: if it succeeds and the writes get through, the image is there. -/
theorem finished_image {w : World Path} {path : Path} {pages : ChunksWritten} {image : Bytes} {blocks : List Nat}
    (hopened : w.fault w.calls = none)
    (hwritten : pages.ok = true →
      Underway w path [] (heldBack w.fault (w.calls + 1) 0 blocks) (w.calls + 1 + blocks.length) []
          ([] ++ image) pages.world pages.fp ∨
        (heldBack w.fault (w.calls + 1) 0 blocks = none ∧
          Broken w path ([] ++ image).length pages.world pages.fp))
    (hcode : (if pages.ok = false then ((-1 : Int), pages.world)
      else (0, (fclose pages.world pages.fp).world)).1 = 0)
    (hdelivered : FileDelivered w blocks) :
    (if pages.ok = false then ((-1 : Int), pages.world)
      else (0, (fclose pages.world pages.fp).world)).2.files path = some image := by
  have hfailed : ¬ (-1 : Int) = 0 := by decide
  split at hcode
  · exact absurd hcode hfailed
  · rename_i hok
    rw [if_neg hok]
    exact (FileOutcome.closed hopened (hwritten (eq_true_of_ne_false hok))).delivered hdelivered

/-- The image of a dump that gets through, and what is made of it. -/
theorem restored_dump {memory : Memory} {address : Nat} {curPage : UInt32} {pagemap : Pagemap} {cwd : String}
    {w : World Path} (base : Memory) (hcode : (writeDirtyMemory cwd memory address curPage pagemap w).1 = 0)
    (hdelivered : FileDelivered w (dirtyBlocks (dirtyPages pagemap address curPage))) :
    ∃ image, (writeDirtyMemory cwd memory address curPage pagemap w).2.files ⟨cwd, "memory.img"⟩ = some image ∧
      restoreDirtyMemory base (Reader.ofFile image) =
        ((dirtyPages pagemap address curPage).getLast?).elim base fun i =>
          base.write 0 (memory.read (osPageSize * i) osPageSize) := by
  have himage : openImageWb w cwd "memory.img" = fopen w (⟨cwd, "memory.img"⟩ : Path) := rfl
  have hfailed : ¬ (-1 : Int) = 0 := by decide
  unfold writeDirtyMemory at hcode ⊢
  dsimp only at hcode ⊢
  rw [himage] at hcode ⊢
  cases hfp : (fopen w (⟨cwd, "memory.img"⟩ : Path)).fp with
  | none =>
    rw [hfp] at hcode
    exact absurd hcode hfailed
  | some fp =>
    rw [hfp] at hcode
    dsimp only at hcode ⊢
    split at hcode
    · exact absurd hcode hfailed
    rename_i hopens
    split at hcode
    · exact absurd hcode hfailed
    rename_i hseeks
    rw [if_neg hopens, if_neg hseeks]
    obtain ⟨hopened, -, hunderway⟩ := fopen_underway hfp (dirtyBlocks (dirtyPages pagemap address curPage))
    have hwritten := writeDirtyPages_spec memory (dumpedPages curPage) 0 hunderway
    have hfile := finished_image hopened hwritten hcode hdelivered
    exact ⟨_, hfile, restoreDirtyMemory_image _ base rfl (unread_ofFile _)⟩

theorem patched_self_iff {base memory : Memory} {size : Nat} {dirty : Nat → Bool} :
    Patched base memory base size dirty ↔ ∀ x, x < size → base x = memory x := by
  constructor
  · intro h
    exact h.inside
  · intro h
    exact ⟨h, fun _ _ => rfl⟩

theorem patched_page_iff {base memory : Memory} {size last : Nat} {dirty : Nat → Bool} (hsize : osPageSize ≤ size)
    (hdirty : ∀ x, x < size → base x ≠ memory x → dirty (x / osPageSize) = true) :
    Patched base memory (base.write 0 (memory.read (osPageSize * last) osPageSize)) size dirty ↔
      OnFirstPage base memory size last := by
  have hlow : ∀ x, x < osPageSize →
      base.write 0 (memory.read (osPageSize * last) osPageSize) x = memory (osPageSize * last + x) := by
    intro x hx
    have hinside := Memory.write_inside base 0 (memory.read (osPageSize * last) osPageSize) x
      (by rwa [Memory.read_length])
    rwa [Nat.zero_add, Memory.read_getD _ _ _ _ hx] at hinside
  have hhigh : ∀ x, osPageSize ≤ x → base.write 0 (memory.read (osPageSize * last) osPageSize) x = base x := by
    intro x hx
    refine Memory.write_outside _ _ _ _ (Or.inr ?_)
    rwa [Memory.read_length, Nat.zero_add]
  constructor
  · intro h
    constructor
    · intro x hx hlt
      rw [← hhigh x hx]
      exact h.inside x hlt
    · intro x hx
      rw [← hlow x hx]
      exact h.inside x (Nat.lt_of_lt_of_le hx hsize)
  · intro h
    obtain ⟨hrest, hfirst⟩ := h
    have hinside : ∀ x, x < size →
        base.write 0 (memory.read (osPageSize * last) osPageSize) x = memory x := by
      intro x hlt
      by_cases hx : x < osPageSize
      · rw [hlow x hx]
        exact hfirst x hx
      · rw [hhigh x (Nat.le_of_not_lt hx)]
        exact hrest x (Nat.le_of_not_lt hx) hlt
    refine ⟨hinside, fun x hclean => ?_⟩
    by_cases hx : x < osPageSize
    · have hlt := Nat.lt_of_lt_of_le hx hsize
      rw [hinside x hlt]
      by_contra hne
      exact hclean ⟨hlt, hdirty x hlt fun heq => hne heq.symm⟩
    · exact hhigh x (Nat.le_of_not_lt hx)

/-- How many pages the loop goes over, up to 4 GiB. -/
theorem dumpedPages_eq (curPage : UInt32) :
    (curPage.toNat < 65536 → dumpedPages curPage = 16 * curPage.toNat) ∧
      (curPage.toNat = 65536 → dumpedPages curPage = 0) := by
  have hbytes : (dumpedBytes curPage).toNat = curPage.toNat * 65536 % 2 ^ 32 := UInt32.toNat_mul ..
  rw [dumpedPages, hbytes, osPageSize]
  constructor
  · intro hlt
    omega
  · intro heq
    rw [heq]
    decide

/-- The dirty ones of the first `n` pages. -/
theorem mem_dirtyFrom {pagemap : Pagemap} {address n i : Nat} :
    i ∈ dirtyFrom pagemap address n 0 ↔ i < n ∧ pagemap.dirty address i = true := by
  rw [dirtyFrom, List.mem_filter, List.mem_range'_1, Nat.zero_add]
  exact and_congr_left fun _ => and_iff_right (Nat.zero_le i)

/-- If no page is dirty, none differs. -/
theorem equal_of_clean {base memory : Memory} {address : Nat} {curPage : UInt32} {pagemap : Pagemap}
    (hdirty : ∀ x, x < curPage.toNat * wasmPageSize → base x ≠ memory x →
      pagemap.dirty address (x / osPageSize) = true)
    (hclean : dirtyFrom pagemap address (16 * curPage.toNat) 0 = []) :
    ∀ x, x < curPage.toNat * wasmPageSize → base x = memory x := by
  intro x hx
  by_contra hne
  have hpage : x / osPageSize < 16 * curPage.toNat := by
    rw [osPageSize]
    rw [wasmPageSize] at hx
    omega
  have hmem := mem_dirtyFrom.mpr ⟨hpage, hdirty x hx hne⟩
  rw [hclean] at hmem
  exact List.not_mem_nil hmem

/-- What a dump that succeeds restores is the second memory exactly if none of it has to go
anywhere but to the start. -/
theorem dirtyMemory_restored_iff {base memory : Memory} {address : Nat} {curPage : UInt32} {pagemap : Pagemap}
    {cwd : String} {w : World Path} (hpages : curPage.toNat ≤ 65536)
    (hdirty : ∀ x, x < curPage.toNat * wasmPageSize → base x ≠ memory x →
      pagemap.dirty address (x / osPageSize) = true)
    (hcode : (writeDirtyMemory cwd memory address curPage pagemap w).1 = 0)
    (hdelivered : FileDelivered w (dirtyBlocks (dirtyPages pagemap address curPage))) :
    ∃ image, (writeDirtyMemory cwd memory address curPage pagemap w).2.files ⟨cwd, "memory.img"⟩ = some image ∧
      (Patched base memory (restoreDirtyMemory base (Reader.ofFile image)) (curPage.toNat * wasmPageSize)
          (pagemap.dirty address) ↔
        DumpSuffices base memory address curPage pagemap) := by
  obtain ⟨image, himage, hrestored⟩ := restored_dump base hcode hdelivered
  refine ⟨image, himage, ?_⟩
  obtain ⟨hsome, hnone⟩ := dumpedPages_eq curPage
  rw [hrestored, dirtyPages, DumpSuffices]
  rcases Nat.lt_or_eq_of_le hpages with hlt | heq
  · rw [hsome hlt]
    cases hlast : (dirtyFrom pagemap address (16 * curPage.toNat) 0).getLast? with
    | none =>
      have hequal := equal_of_clean hdirty (List.getLast?_eq_none_iff.mp hlast)
      rw [Option.elim_none, patched_self_iff]
      refine iff_of_true hequal ⟨fun _ => hequal, fun _ last hsome => ?_⟩
      cases hsome
    | some last =>
      have hsize : osPageSize ≤ curPage.toNat * wasmPageSize := by
        have hused := (mem_dirtyFrom.mp (List.mem_of_getLast? hlast)).1
        rw [osPageSize, wasmPageSize]
        omega
      rw [Option.elim_some, patched_page_iff hsize hdirty]
      constructor
      · intro h
        refine ⟨fun heq => absurd heq (Nat.ne_of_lt hlt), fun _ last' hlast' => ?_⟩
        cases hlast'
        exact h
      · intro h
        exact h.2 hlt last rfl
  · rw [hnone heq]
    show Patched base memory base _ _ ↔ _
    rw [patched_self_iff]
    constructor
    · intro h
      exact ⟨fun _ => h, fun hlt => absurd heq (Nat.ne_of_lt hlt)⟩
    · intro h
      exact h.1 heq

/-- A pagemap on which one page of a memory at address 0 is dirty. -/
def onlyDirty (page : Nat) : Pagemap where
  opens := true
  seeks := fun _ => true
  entry := fun pfn => some (if pfn = page then 0x80000000000000 else 0)

/-- A memory of zeros. -/
def zeroMemory : Memory := fun _ => 0

/-- Zeros, but for one byte. -/
def changedAt (place : Nat) : Memory := fun x => if x = place then 1 else 0

theorem onlyDirty_dirty {page place x : Nat} (hplace : place / osPageSize = page)
    (hx : zeroMemory x ≠ changedAt place x) : (onlyDirty page).dirty 0 (x / osPageSize) = true := by
  have heq : x = place := by
    by_contra hne
    exact hx (if_neg hne).symm
  have hentry : (onlyDirty page).entry page = some 0x80000000000000 := congrArg some (if_pos rfl)
  rw [heq, hplace, Pagemap.dirty, Nat.zero_add, Nat.mul_div_cancel_left _ (by decide), hentry]
  rfl

/-- A change on the first page comes back. -/
theorem dirtyMemory_restored_iff_first :
    ∃ image, (writeDirtyMemory "/" (changedAt 5) 0 1 (onlyDirty 0) freshWorld).2.files ⟨"/", "memory.img"⟩ =
        some image ∧
      Patched zeroMemory (changedAt 5) (restoreDirtyMemory zeroMemory (Reader.ofFile image)) 65536
        ((onlyDirty 0).dirty 0) := by
  have hpages : (dirtyFrom (onlyDirty 0) 0 16 0).getLast? = some 0 := by decide
  have hdelivered : FileDelivered freshWorld (dirtyBlocks (dirtyPages (onlyDirty 0) 0 1)) :=
    fun _ => ⟨_, rfl, passes_none _⟩
  have hdirty : ∀ x, x < (1 : UInt32).toNat * wasmPageSize → zeroMemory x ≠ changedAt 5 x →
      (onlyDirty 0).dirty 0 (x / osPageSize) = true := fun _ _ hx => onlyDirty_dirty rfl hx
  have hcode : (writeDirtyMemory "/" (changedAt 5) 0 1 (onlyDirty 0) freshWorld).1 = 0 := rfl
  obtain ⟨image, himage, hiff⟩ := dirtyMemory_restored_iff (by decide) hdirty hcode hdelivered
  refine ⟨image, himage, hiff.mpr ⟨fun h => absurd h (by decide), fun _ last hlast => ?_⟩⟩
  cases hpages.symm.trans hlast
  refine ⟨fun x hx _ => (if_neg ?_).symm, fun x _ => ?_⟩
  · rw [osPageSize] at hx
    omega
  · rw [Nat.mul_zero, Nat.zero_add]

/-- The second page goes to the start of the memory. -/
theorem dirtyMemory_not_restored :
    ¬ ∀ (base memory : Memory) (address : Nat) (curPage : UInt32) (pagemap : Pagemap) (cwd : String)
      (w : World Path), curPage.toNat ≤ 65536 →
      (∀ x, x < curPage.toNat * wasmPageSize → base x ≠ memory x → pagemap.dirty address (x / osPageSize) = true) →
      (writeDirtyMemory cwd memory address curPage pagemap w).1 = 0 →
      FileDelivered w (dirtyBlocks (dirtyPages pagemap address curPage)) →
      ∀ image, (writeDirtyMemory cwd memory address curPage pagemap w).2.files ⟨cwd, "memory.img"⟩ = some image →
        Patched base memory (restoreDirtyMemory base (Reader.ofFile image)) (curPage.toNat * wasmPageSize)
          (pagemap.dirty address) := by
  intro h
  have hpages : (dirtyPages (onlyDirty 1) 0 1).getLast? = some 1 := by decide
  have hdirty : ∀ x, x < (1 : UInt32).toNat * wasmPageSize → zeroMemory x ≠ changedAt 4096 x →
      (onlyDirty 1).dirty 0 (x / osPageSize) = true := fun _ _ hx => onlyDirty_dirty rfl hx
  have hcode : (writeDirtyMemory "/" (changedAt 4096) 0 1 (onlyDirty 1) freshWorld).1 = 0 := rfl
  have hdelivered : FileDelivered freshWorld (dirtyBlocks (dirtyPages (onlyDirty 1) 0 1)) :=
    fun _ => ⟨_, rfl, passes_none _⟩
  obtain ⟨image, himage, hrestored⟩ := restored_dump zeroMemory hcode hdelivered
  have hpatched := h _ _ _ _ _ _ _ (by decide) hdirty hcode hdelivered image himage
  rw [hrestored, hpages, Option.elim_some, patched_page_iff (by decide) hdirty] at hpatched
  exact absurd (hpatched.1 4096 (by decide) (by decide)) (by decide)

/-! ### Any stream -/

/-- The last byte that a stream of offsets and pages has for a place on a page. -/
def lastByte (x : Nat) (stream : Bytes) : UInt8 :=
  stream.getD (4 + x + (4 + osPageSize) * ((stream.length - (5 + x)) / (4 + osPageSize))) 0

/-- On the last page that reaches the place it is there. -/
theorem lastByte_page {x : Nat} {stream : Bytes} (h : stream.length ≤ 4 + osPageSize + (4 + x)) :
    lastByte x stream = stream.getD (4 + x) 0 := by
  have hlast : (stream.length - (5 + x)) / (4 + osPageSize) = 0 := Nat.div_eq_of_lt (by omega)
  rw [lastByte, hlast, Nat.mul_zero, Nat.add_zero]

theorem lastByte_drop {x : Nat} {stream : Bytes} (h : 4 + osPageSize + (4 + x) < stream.length) :
    lastByte x (stream.drop (4 + osPageSize)) = lastByte x stream := by
  have hpages : (stream.length - (5 + x)) / (4 + osPageSize) =
      (stream.length - (4 + osPageSize) - (5 + x)) / (4 + osPageSize) + 1 := by
    rw [← Nat.add_div_right _ (show 0 < 4 + osPageSize by decide)]
    congr 1
    omega
  rw [lastByte, lastByte, hpages, List.length_drop, List.getD_eq_getElem?_getD, List.getD_eq_getElem?_getD,
    List.getElem?_drop]
  congr 2
  rw [Nat.mul_succ]
  omega

/-- What the rest of a stream does to a place. -/
theorem restoreDirtyMemory_unread (memory : Memory) (fp : Reader) (x : Nat) :
    restoreDirtyMemory memory fp x =
      if fp.eof = false ∧ x < osPageSize ∧ 4 + x < fp.unread.length then lastByte x fp.unread else memory x := by
  induction memory, fp using restoreDirtyMemory.induct with
  | case1 memory fp heof =>
    rw [restoreDirtyMemory_eof memory heof, if_neg (by simp [heof])]
  | case2 memory fp heof round ih =>
    have hround : round = _ := DirtyRestore.next_never memory heof
    rw [restoreDirtyMemory, if_neg heof]
    refine ih.trans ?_
    rw [hround]
    dsimp only
    obtain ⟨hcount, hend⟩ := fread_item fp 4 (by decide)
    by_cases hshort : fp.unread.length < 4
    · rw [if_pos hshort] at hcount
      rw [if_pos hcount, if_neg (by simp [hend hshort]), if_neg (by omega)]
    rw [if_neg hshort] at hcount
    have hoffset : ¬ (fread fp 4 1).count = 0 := by rw [hcount]; decide
    have hafter : (fread fp 4 1).fp.unread = fp.unread.drop 4 := fread_unread fp 4 1
    rw [if_neg hoffset]
    dsimp only
    have hdata : (fread (fread fp 4 1).fp osPageSize 1).data = (fp.unread.drop 4).take osPageSize :=
      congrArg (List.take _) hafter
    have hrest : (fread (fread fp 4 1).fp osPageSize 1).fp.unread = fp.unread.drop (4 + osPageSize) := by
      rw [fread_unread, hafter, List.drop_drop, Nat.mul_one]
    have hdataLength : (fread (fread fp 4 1).fp osPageSize 1).data.length = min osPageSize (fp.unread.length - 4) := by
      rw [hdata, List.length_take, List.length_drop]
    rw [hrest, List.length_drop]
    by_cases hx : x < osPageSize ∧ 4 + x < fp.unread.length
    · refine Eq.trans ?_ (if_pos ⟨eq_false_of_ne_true heof, hx⟩).symm
      by_cases hmore : 4 + osPageSize + (4 + x) < fp.unread.length
      · have hoffset' : (fread fp 4 1).fp.eof = fp.eof := fread_eof_of_le (Nat.le_of_not_lt hshort)
        have hpage' : (fread (fread fp 4 1).fp osPageSize 1).fp.eof = (fread fp 4 1).fp.eof := by
          apply fread_eof_of_le
          rw [hafter, List.length_drop]
          omega
        have heof' := (hpage'.trans hoffset').trans (eq_false_of_ne_true heof)
        rw [if_pos ⟨heof', hx.1, by omega⟩, lastByte_drop hmore]
      · have hinside := Memory.write_inside memory 0 (fread (fread fp 4 1).fp osPageSize 1).data x (by omega)
        rw [Nat.zero_add] at hinside
        rw [if_neg (by omega), hinside, lastByte_page (Nat.le_of_not_lt hmore), hdata,
          List.getD_eq_getElem?_getD, List.getElem?_take_of_lt hx.1, List.getElem?_drop, ← List.getD_eq_getElem?_getD]
    · rw [if_neg (by omega), if_neg (by omega)]
      exact Memory.write_outside _ _ _ _ (Or.inr (by omega))

/-- However many streams are read, whatever is in them, only the first page changes, and there
every place has the last byte of the last stream that reaches it. -/
theorem restoreDirtyMemory_streams (memory : Memory) (streams : List Bytes) (x : Nat) :
    streams.foldl (fun held stream => restoreDirtyMemory held (Reader.ofFile stream)) memory x =
      if x < osPageSize then
        ((streams.filter fun stream => 4 + x < stream.length).getLast?).elim (memory x) (lastByte x)
      else memory x := by
  induction streams generalizing memory with
  | nil => simp
  | cons stream streams ih =>
    have hfirst := restoreDirtyMemory_unread memory (Reader.ofFile stream) x
    rw [unread_ofFile] at hfirst
    rw [List.foldl_cons, ih, hfirst, List.filter_cons]
    by_cases hx : x < osPageSize
    · rw [if_pos hx, if_pos hx]
      by_cases hlong : 4 + x < stream.length
      · rw [if_pos ⟨rfl, hx, hlong⟩, if_pos (decide_eq_true hlong), List.getLast?_cons]
        cases (streams.filter fun stream => 4 + x < stream.length).getLast? with
        | none => rfl
        | some last => rfl
      · rw [if_neg fun h => hlong h.2.2, if_neg fun h => hlong (of_decide_eq_true h)]
    · rw [if_neg hx, if_neg hx, if_neg fun h => hx h.2.1]

end Wasmig
