import Wasmig.Base.Bytes

/-! Prefix codecs: writers and readers of one value at the front of a byte string.

A `Codec` reads back what it wrote, whatever follows (`forward`). An `ExactCodec`
moreover accepts nothing but its own encodings (`exact`). A codec whose every read
consumes something (`Consumes`) can be run over a whole byte string: `scan` splits it
into a run of values and a rest that starts with none, and for an exact codec that
split is the only one (`scan_encode`, `scan_exact`). Codecs are built from the
little-endian word and the fixed-size block by sequencing and restriction. -/
namespace Base

/-- A part of a run of pieces, from its start: all of it, or some whole pieces and less than
the whole of the next. -/
theorem prefix_flatMap {α : Type} (f : α → Bytes) {as : List α} {b : Bytes} (h : b <+: as.flatMap f) :
    b = as.flatMap f ∨
      ∃ before a after tail, as = before ++ a :: after ∧ b = before.flatMap f ++ tail ∧
        tail.length < (f a).length := by
  induction as generalizing b with
  | nil => exact Or.inl (List.prefix_nil.mp h)
  | cons a as ih =>
    rw [List.flatMap_cons] at h
    by_cases hlt : b.length < (f a).length
    · exact Or.inr ⟨[], a, as, b, rfl, rfl, hlt⟩
    obtain ⟨b', rfl⟩ := List.prefix_of_prefix_length_le (List.prefix_append ..) h (Nat.le_of_not_lt hlt)
    rcases ih ((List.prefix_append_right_inj _).mp h) with rfl | ⟨before, a', after, tail, rfl, rfl, htail⟩
    · exact Or.inl rfl
    · refine Or.inr ⟨a :: before, a', after, tail, rfl, ?_, htail⟩
      rw [List.flatMap_cons, List.append_assoc]

/-- One value at the front of a byte string. -/
structure Codec (α : Type) where
  /-- The values the codec is for. -/
  Valid : α → Prop
  encode : α → Bytes
  decode : Bytes → Option (α × Bytes)
  forward : ∀ a rest, Valid a → decode (encode a ++ rest) = some (a, rest)
  shrinks : ∀ {b a rest}, decode b = some (a, rest) → rest.length ≤ b.length

/-- A codec whose reader accepts encodings of valid values only. -/
structure ExactCodec (α : Type) extends Codec α where
  exact : ∀ {b a rest}, decode b = some (a, rest) → b = encode a ++ rest ∧ Valid a

namespace Codec
variable {α β : Type}

/-- Every value read takes at least one byte. -/
def Consumes (c : Codec α) : Prop :=
  ∀ b a rest, c.decode b = some (a, rest) → rest.length < b.length

/-- Values read one after the other until none can be read, and what is left. -/
def scan (c : Codec α) (hc : c.Consumes) (b : Bytes) : List α × Bytes :=
  match h : c.decode b with
  | none => ([], b)
  | some (a, rest) =>
    have := hc b a rest h
    let (as, tail) := c.scan hc rest
    (a :: as, tail)
termination_by b.length

variable {c : Codec α} (hc : c.Consumes)

theorem scan_none {b : Bytes} (h : c.decode b = none) : c.scan hc b = ([], b) := by
  rw [scan]
  split
  · rfl
  · rename_i heq
    rw [h] at heq
    cases heq

theorem scan_some {b rest : Bytes} {a : α} (h : c.decode b = some (a, rest)) :
    c.scan hc b = (a :: (c.scan hc rest).1, (c.scan hc rest).2) := by
  rw [scan]
  split
  · rename_i heq
    rw [h] at heq
    cases heq
  · rename_i heq
    rw [h] at heq
    cases heq
    rfl

/-- A run of encodings is read back whole, up to a rest that starts with none. -/
theorem scan_encode (as : List α) (tail : Bytes) (hv : ∀ a ∈ as, c.Valid a)
    (ht : c.decode tail = none) : c.scan hc (as.flatMap c.encode ++ tail) = (as, tail) := by
  induction as with
  | nil => exact scan_none hc ht
  | cons a as ih =>
    have ha := c.forward a (as.flatMap c.encode ++ tail) (hv a (List.mem_cons_self ..))
    rw [List.flatMap_cons, List.append_assoc, scan_some hc ha,
      ih (fun x hx => hv x (List.mem_cons_of_mem _ hx))]

end Codec

namespace ExactCodec
variable {α β : Type}

theorem scan_exact (c : ExactCodec α) (hc : c.Consumes) (b : Bytes) :
    b = (c.scan hc b).1.flatMap c.encode ++ (c.scan hc b).2 ∧ ∀ a ∈ (c.scan hc b).1, c.Valid a := by
  induction hn : b.length using Nat.strongRecOn generalizing b with
  | ind n ih =>
    cases h : c.decode b with
    | none => simp [Codec.scan_none hc h]
    | some p =>
      obtain ⟨a, rest⟩ := p
      obtain ⟨hb, ha⟩ := c.exact h
      obtain ⟨hrest, hvalid⟩ := ih rest.length (hn ▸ hc b a rest h) rest rfl
      rw [Codec.scan_some hc h]
      refine ⟨?_, ?_⟩
      · rw [List.flatMap_cons, List.append_assoc, ← hrest]
        exact hb
      · intro x hx
        rcases List.mem_cons.mp hx with rfl | hx
        · exact ha
        · exact hvalid x hx

/-- A little-endian 32-bit word. -/
def word : ExactCodec UInt32 where
  Valid := fun _ => True
  encode := le32
  decode := fun b => if b.length < 4 then none else some (word32 (b.take 4), b.drop 4)
  forward := fun x rest _ => by
    have hlen : ¬ (le32 x ++ rest).length < 4 := by simp
    rw [if_neg hlen, List.take_left' (le32_length x), List.drop_left' (le32_length x), word32_le32]
  shrinks := fun {b _ _} h => by
    split at h
    · cases h
    · cases h
      rw [List.length_drop]
      omega
  exact := fun {b _ _} h => by
    split at h
    · cases h
    · cases h
      rw [le32_word32 _ (by rw [List.length_take]; omega), List.take_append_drop]
      exact ⟨rfl, trivial⟩

/-- A block of `n` bytes. -/
def block (n : Nat) : ExactCodec Bytes where
  Valid := fun data => data.length = n
  encode := id
  decode := fun b => if b.length < n then none else some (b.take n, b.drop n)
  forward := fun data rest hd => by
    have hlen : ¬ (id data ++ rest).length < n := by simp [← hd]
    rw [if_neg hlen, id, List.take_left' hd, List.drop_left' hd]
  shrinks := fun {b _ _} h => by
    split at h
    · cases h
    · cases h
      rw [List.length_drop]
      omega
  exact := fun {b _ _} h => by
    split at h
    · cases h
    · cases h
      exact ⟨by rw [id, List.take_append_drop], by rw [List.length_take]; omega⟩

/-- Only the values that satisfy `p`. -/
def restrict (c : ExactCodec α) (p : α → Bool) : ExactCodec α where
  Valid := fun a => c.Valid a ∧ p a = true
  encode := c.encode
  decode := fun b => (c.decode b).filter fun r => p r.1
  forward := fun a rest h => by rw [c.forward a rest h.1, Option.filter_some, if_pos h.2]
  shrinks := fun h => c.shrinks (Option.filter_eq_some_iff.mp h).1
  exact := fun h => by
    obtain ⟨hd, hp⟩ := Option.filter_eq_some_iff.mp h
    exact ⟨(c.exact hd).1, (c.exact hd).2, hp⟩

/-- One value after another, the second's codec chosen by the first. -/
def seq (c : ExactCodec α) (d : α → ExactCodec β) : ExactCodec (α × β) where
  Valid := fun p => c.Valid p.1 ∧ (d p.1).Valid p.2
  encode := fun p => c.encode p.1 ++ (d p.1).encode p.2
  decode := fun b => match c.decode b with
    | none => none
    | some (a, rest) => ((d a).decode rest).map fun r => ((a, r.1), r.2)
  forward := fun p rest h => by
    rw [List.append_assoc, c.forward p.1 _ h.1]
    simp only [(d p.1).forward p.2 rest h.2, Option.map_some]
  shrinks := fun {b _ _} h => by
    split at h
    · cases h
    · rename_i heq
      obtain ⟨r, hr, he⟩ := Option.map_eq_some_iff.mp h
      cases he
      have h1 := c.shrinks heq
      have h2 := (d _).shrinks hr
      omega
  exact := fun {b _ _} h => by
    split at h
    · cases h
    · rename_i heq
      obtain ⟨r, hr, he⟩ := Option.map_eq_some_iff.mp h
      cases he
      obtain ⟨hb, ha⟩ := c.exact heq
      obtain ⟨hrest, hv⟩ := (d _).exact hr
      exact ⟨by rw [hb, hrest, List.append_assoc], ha, hv⟩

theorem word_consumes : word.Consumes := fun b _ _ h => by
  simp only [word] at h
  split at h
  · cases h
  · cases h
    rw [List.length_drop]
    omega

theorem restrict_consumes {c : ExactCodec α} (hc : c.Consumes) (p : α → Bool) :
    (c.restrict p).Consumes := fun b a rest h =>
  hc b a rest (Option.filter_eq_some_iff.mp h).1

/-- A sequence consumes something when its first part does. -/
theorem seq_consumes {c : ExactCodec α} (hc : c.Consumes) (d : α → ExactCodec β) :
    (c.seq d).Consumes := fun b _ _ h => by
  simp only [seq] at h
  split at h
  · cases h
  · rename_i heq
    obtain ⟨r, hr, he⟩ := Option.map_eq_some_iff.mp h
    cases he
    have h1 := hc b _ _ heq
    have h2 := (d _).shrinks hr
    omega

end ExactCodec

end Base
