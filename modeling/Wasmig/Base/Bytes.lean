import Mathlib.Algebra.Group.Nat.Defs

/-! Byte strings, and the little-endian words laid out in them. A word of `n`
bytes is written least significant byte first; reading back what was written
gives the word modulo `256 ^ n`, and writing back what was read gives the bytes. -/
namespace Base

abbrev Bytes := List UInt8

/-- The `n` low bytes of `x`, least significant first. -/
def leBytes : Nat → Nat → Bytes
  | 0, _ => []
  | n + 1, x => UInt8.ofNat (x % 256) :: leBytes n (x / 256)

/-- The number a little-endian byte string stands for. -/
def ofLE : Bytes → Nat
  | [] => 0
  | b :: rest => b.toNat + 256 * ofLE rest

@[simp] theorem leBytes_length (n x : Nat) : (leBytes n x).length = n := by
  induction n generalizing x with
  | zero => rfl
  | succ n ih => simp [leBytes, ih]

theorem ofLE_leBytes (n x : Nat) : ofLE (leBytes n x) = x % 256 ^ n := by
  induction n generalizing x with
  | zero => simp [leBytes, ofLE, Nat.mod_one]
  | succ n ih =>
    have hb : (UInt8.ofNat (x % 256)).toNat = x % 256 := by
      rw [UInt8.toNat_ofNat']
      exact Nat.mod_eq_of_lt (Nat.mod_lt _ (by decide))
    rw [leBytes, ofLE, ih, hb, Nat.pow_succ, Nat.mul_comm (256 ^ n) 256, Nat.mod_mul]

theorem ofLE_lt (b : Bytes) : ofLE b < 256 ^ b.length := by
  induction b with
  | nil => decide
  | cons x rest ih =>
    have hx := x.toNat_lt
    rw [ofLE, List.length_cons, Nat.pow_succ]
    omega

theorem leBytes_ofLE (b : Bytes) : leBytes b.length (ofLE b) = b := by
  induction b with
  | nil => rfl
  | cons x rest ih =>
    have hx := x.toNat_lt
    have hmod : (x.toNat + 256 * ofLE rest) % 256 = x.toNat := by omega
    have hdiv : (x.toNat + 256 * ofLE rest) / 256 = ofLE rest := by omega
    rw [List.length_cons, leBytes, ofLE, hmod, hdiv, ih, UInt8.ofNat_toNat]

theorem ofLE_append (a b : Bytes) : ofLE (a ++ b) = ofLE a + 256 ^ a.length * ofLE b := by
  induction a with
  | nil => simp [ofLE]
  | cons x rest ih =>
    have hshift : 256 ^ (rest.length + 1) * ofLE b = 256 * (256 ^ rest.length * ofLE b) := by
      rw [Nat.pow_succ, Nat.mul_comm (256 ^ rest.length), Nat.mul_assoc]
    rw [List.cons_append, ofLE, ofLE, ih, List.length_cons, hshift]
    omega

/-- The bytes of a word after its first `m`. -/
theorem leBytes_drop (m n x : Nat) : (leBytes (m + n) x).drop m = leBytes n (x / 256 ^ m) := by
  induction m generalizing x with
  | zero => simp
  | succ m ih =>
    rw [Nat.add_right_comm, leBytes, List.drop_succ_cons, ih, Nat.div_div_eq_div_mul, Nat.pow_succ,
      Nat.mul_comm 256]

/-- The four bytes of a 32-bit word. -/
def le32 (x : UInt32) : Bytes := leBytes 4 x.toNat

/-- The 32-bit word in four bytes. -/
def word32 (b : Bytes) : UInt32 := UInt32.ofNat (ofLE b)

@[simp] theorem le32_length (x : UInt32) : (le32 x).length = 4 := leBytes_length 4 _

@[simp] theorem word32_le32 (x : UInt32) : word32 (le32 x) = x := by
  have hx := x.toNat_lt
  rw [word32, le32, ofLE_leBytes, Nat.mod_eq_of_lt (by omega), UInt32.ofNat_toNat]

theorem le32_word32 (b : Bytes) (h : b.length = 4) : le32 (word32 b) = b := by
  have hb := ofLE_lt b
  rw [h] at hb
  have hn : (word32 b).toNat = ofLE b := by
    rw [word32, UInt32.toNat_ofNat']
    exact Nat.mod_eq_of_lt (by omega)
  rw [le32, hn, ← h, leBytes_ofLE]

theorem le32_injective {x y : UInt32} (h : le32 x = le32 y) : x = y := by
  rw [← word32_le32 x, h, word32_le32]

end Base
