import Wasmig.Base.Bytes
import Mathlib.Data.List.GetD

/-! Byte-addressed memory and the copies made into it.

A `Memory` is the bytes at and after some address. `write` lays a byte string over
it, `writeAll` a list of them in order; when all of them copy the same source, what
is left is the source on the bytes covered and the old memory elsewhere, whatever the
order and the overlaps (`writeAll_source`). A `Ram` also remembers each copy it was
asked to make: where it went, how long it was and how long its source was. A `Block` is
what an allocation gives: so many bytes, and what memory holds from their address on. -/
namespace Base

abbrev Memory := Nat → UInt8

namespace Memory

/-- The `n` bytes from `a` on. -/
def read (m : Memory) (a n : Nat) : Bytes := (List.range n).map fun i => m (a + i)

/-- `data` laid over the memory from `a` on. -/
def write (m : Memory) (a : Nat) (data : Bytes) : Memory := fun x =>
  if a ≤ x ∧ x < a + data.length then data.getD (x - a) 0 else m x

def writeAll (m : Memory) (ws : List (Nat × Bytes)) : Memory :=
  ws.foldl (fun m w => m.write w.1 w.2) m

@[simp] theorem read_length (m : Memory) (a n : Nat) : (m.read a n).length = n := by simp [read]

theorem read_getD (m : Memory) (a n i : Nat) (h : i < n) : (m.read a n).getD i 0 = m (a + i) := by
  simp [read, List.getD_eq_getElem?_getD, h]

theorem read_append (m : Memory) (a n k : Nat) :
    m.read a (n + k) = m.read a n ++ m.read (a + n) k := by
  simp [read, List.range_add, Nat.add_assoc]

theorem read_drop (m : Memory) (a n k : Nat) (h : k ≤ n) :
    (m.read a n).drop k = m.read (a + k) (n - k) := by
  obtain ⟨d, rfl⟩ := Nat.exists_eq_add_of_le h
  rw [read_append, List.drop_left' (read_length m a k), Nat.add_sub_cancel_left]

theorem read_take (m : Memory) (a n k : Nat) (h : k ≤ n) : (m.read a n).take k = m.read a k := by
  obtain ⟨d, rfl⟩ := Nat.exists_eq_add_of_le h
  rw [read_append, List.take_left' (read_length m a k)]

theorem read_congr {m m' : Memory} {a n : Nat} (h : ∀ i, i < n → m (a + i) = m' (a + i)) :
    m.read a n = m'.read a n := by
  unfold read
  apply List.map_congr_left
  intro i hi
  exact h i (List.mem_range.mp hi)

theorem write_outside (m : Memory) (a : Nat) (data : Bytes) (x : Nat)
    (h : x < a ∨ a + data.length ≤ x) : m.write a data x = m x := if_neg (by omega)

theorem write_inside (m : Memory) (a : Nat) (data : Bytes) (i : Nat) (h : i < data.length) :
    m.write a data (a + i) = data.getD i 0 := by
  rw [write, if_pos (by omega), Nat.add_sub_cancel_left]

/-- The data, and what follows it in the memory as it was. -/
theorem read_write (m : Memory) (a n : Nat) (data : Bytes) (h : data.length ≤ n) :
    (m.write a data).read a n = data ++ m.read (a + data.length) (n - data.length) := by
  obtain ⟨d, rfl⟩ := Nat.exists_eq_add_of_le h
  rw [read_append, Nat.add_sub_cancel_left]
  congr 1
  · apply List.ext_getElem?
    intro i
    by_cases hi : i < data.length
    · simp [read, hi, write_inside m a data i hi]
    · rw [List.getElem?_eq_none (by simp; omega), List.getElem?_eq_none (by omega)]
  · apply read_congr
    intro i hi
    exact write_outside m a data _ (Or.inr (by omega))

@[simp] theorem write_nil (m : Memory) (a : Nat) : m.write a [] = m :=
  funext fun x => write_outside m a [] x (by simp; omega)

/-- A write over a shorter one. -/
theorem write_write (m : Memory) (a : Nat) {p q : Bytes} (h : p.length ≤ q.length) :
    (m.write a p).write a q = m.write a q := by
  funext x
  by_cases hx : a ≤ x ∧ x < a + q.length
  · rw [write, if_pos hx, write, if_pos hx]
  · rw [write_outside _ _ _ _ (by omega), write_outside _ _ _ _ (by omega), write_outside _ _ _ _ (by omega)]

/-- A concatenation is written piece after piece. -/
theorem write_append (m : Memory) (a : Nat) (p q : Bytes) :
    m.write a (p ++ q) = (m.write a p).write (a + p.length) q := by
  funext x
  simp only [write, List.length_append]
  by_cases hq : a + p.length ≤ x
  · by_cases hx : x < a + p.length + q.length
    · rw [if_pos (by omega), if_pos (by omega), List.getD_append_right _ _ _ _ (by omega), Nat.sub_sub]
    · rw [if_neg (by omega), if_neg (by omega), if_neg (by omega)]
  · rw [if_neg (c := a + p.length ≤ x ∧ _) (by omega)]
    by_cases hx : a ≤ x
    · rw [if_pos (by omega), if_pos (by omega), List.getD_append _ _ _ _ (by omega)]
    · rw [if_neg (by omega), if_neg (by omega)]

theorem writeAll_append (m : Memory) (ws vs : List (Nat × Bytes)) :
    m.writeAll (ws ++ vs) = (m.writeAll ws).writeAll vs := List.foldl_append ..

/-- The write lays something over `x`. -/
def Covers (w : Nat × Bytes) (x : Nat) : Prop := w.1 ≤ x ∧ x < w.1 + w.2.length

theorem writeAll_outside (ws : List (Nat × Bytes)) (m : Memory) (x : Nat)
    (h : ∀ w ∈ ws, ¬ Covers w x) : m.writeAll ws x = m x := by
  induction ws generalizing m with
  | nil => rfl
  | cons w ws ih =>
    have hw := h w (List.mem_cons_self ..)
    unfold Covers at hw
    show (m.write w.1 w.2).writeAll ws x = m x
    rw [ih _ (fun v hv => h v (List.mem_cons_of_mem _ hv))]
    exact write_outside m w.1 w.2 x (by omega)

/-- The write copies `src` to where it came from, shifted by `a`. -/
def Copies (src : Memory) (a : Nat) (w : Nat × Bytes) : Prop :=
  a ≤ w.1 ∧ ∀ i, i < w.2.length → w.2.getD i 0 = src (w.1 - a + i)

/-- Copies of one source leave it on the bytes they cover, in whatever order and
however they overlap. -/
theorem writeAll_source (src : Memory) (a : Nat) (ws : List (Nat × Bytes)) (m : Memory) (x : Nat)
    (hs : ∀ w ∈ ws, Copies src a w) (hx : ∃ w ∈ ws, Covers w x) :
    m.writeAll ws x = src (x - a) := by
  induction ws generalizing m with
  | nil => simp at hx
  | cons w ws ih =>
    show (m.write w.1 w.2).writeAll ws x = src (x - a)
    by_cases hrest : ∃ v ∈ ws, Covers v x
    · exact ih _ (fun v hv => hs v (List.mem_cons_of_mem _ hv)) hrest
    · rw [writeAll_outside ws _ x (fun v hv hc => hrest ⟨v, hv, hc⟩)]
      have hw : Covers w x := by
        obtain ⟨v, hv, hc⟩ := hx
        rcases List.mem_cons.mp hv with rfl | hv
        · exact hc
        · exact absurd ⟨v, hv, hc⟩ hrest
      obtain ⟨hle, hcopy⟩ := hs w (List.mem_cons_self ..)
      obtain ⟨i, rfl⟩ := Nat.exists_eq_add_of_le hw.1
      have hi : i < w.2.length := by
        have := hw.2
        omega
      rw [write_inside m w.1 w.2 i hi, hcopy i hi]
      congr 1
      omega

/-- What covers a byte decides what it is, whatever was there. -/
theorem writeAll_covered (ws : List (Nat × Bytes)) (m m' : Memory) (x : Nat) (hx : ∃ w ∈ ws, Covers w x) :
    m.writeAll ws x = m'.writeAll ws x := by
  induction ws generalizing m m' with
  | nil => simp at hx
  | cons w ws ih =>
    show (m.write w.1 w.2).writeAll ws x = (m'.write w.1 w.2).writeAll ws x
    by_cases hrest : ∃ v ∈ ws, Covers v x
    · exact ih _ _ hrest
    · have houtside : ∀ v ∈ ws, ¬ Covers v x := fun v hv hc => hrest ⟨v, hv, hc⟩
      rw [writeAll_outside ws _ x houtside, writeAll_outside ws _ x houtside]
      obtain ⟨v, hv, hc⟩ := hx
      rcases List.mem_cons.mp hv with rfl | hv
      · exact (if_pos hc).trans (if_pos hc).symm
      · exact absurd hc (houtside v hv)

/-- Writes lead to one memory from all that differ only where something is written. -/
theorem writeAll_again {ws : List (Nat × Bytes)} {m m' : Memory}
    (h : ∀ x, (∀ w ∈ ws, ¬ Covers w x) → m' x = m x) (x : Nat) : m'.writeAll ws x = m.writeAll ws x := by
  by_cases hx : ∃ w ∈ ws, Covers w x
  · exact writeAll_covered ws m' m x hx
  · have houtside : ∀ w ∈ ws, ¬ Covers w x := fun w hw hc => hx ⟨w, hw, hc⟩
    rw [writeAll_outside ws _ x houtside, writeAll_outside ws _ x houtside, h x houtside]

end Memory

/-- A copy as it was asked for. -/
structure Copy where
  dst : Nat
  /-- How many bytes the source buffer holds. -/
  available : Nat
  len : Nat
deriving DecidableEq, Repr

structure Ram where
  bytes : Memory
  /-- The copies made so far, the latest first. -/
  copies : List Copy

namespace Ram

/-- `memcpy(dst, data, len)`. A `len` beyond the source buffer reads bytes that are
not there; the log of copies shows it. -/
def memcpy (r : Ram) (dst : Nat) (data : Bytes) (len : Nat) : Ram :=
  { bytes := r.bytes.write dst (data.take len)
    copies := ⟨dst, data.length, len⟩ :: r.copies }

end Ram

structure Block where
  /-- How many bytes were asked for. -/
  allocated : Nat
  /-- The bytes at its address and behind it. -/
  bytes : Memory

namespace Block

/-- A new block of `n` bytes where memory held `held`, with as many copied into it. -/
def copied (held data : Memory) (n : Nat) : Block := ⟨n, held.write 0 (data.read 0 n)⟩

theorem copied_bytes (held data : Memory) (n x : Nat) :
    (copied held data n).bytes x = if x < n then data x else held x := by
  show held.write 0 (data.read 0 n) x = _
  by_cases hx : x < n
  · have hinside := Memory.write_inside held 0 (data.read 0 n) x (by rwa [Memory.read_length])
    rw [Nat.zero_add, Memory.read_getD _ _ _ _ hx, Nat.zero_add] at hinside
    rw [if_pos hx, hinside]
  · rw [if_neg hx, Memory.write_outside _ _ _ _ (.inr (by rw [Memory.read_length]; omega))]

/-- A copy of a copy holds what the first one was made from. -/
theorem copied_copied (held held' data : Memory) (n : Nat) :
    copied held' (copied held data n).bytes n = copied held' data n := by
  have hread : (copied held data n).bytes.read 0 n = data.read 0 n := by
    apply Memory.read_congr
    intro i hi
    rw [Nat.zero_add, copied_bytes, if_pos hi]
  rw [copied, hread, copied]

end Block

end Base
