import Wasmig.Base.Codec

/-! The protocol buffer wire format: what a message is made of, whatever its type.

A message is a run of records, each a field number with a payload: a varint or a
length-delimited byte string. `record` reads one at the front of a byte string, and
`Codec.all` a byte string that is a run of them. Varints are the shortest ones. -/
namespace Base

namespace Codec
variable {α : Type} {c : Codec α} (hc : c.Consumes)

/-- The values of a byte string that is a run of them. -/
def all (c : Codec α) (hc : c.Consumes) (b : Bytes) : Option (List α) :=
  let (as, tail) := c.scan hc b
  if tail = [] then some as else none

theorem all_encode (as : List α) (hv : ∀ a ∈ as, c.Valid a) : c.all hc (as.flatMap c.encode) = some as := by
  have hnil : c.decode [] = none := by
    cases h : c.decode [] with
    | none => rfl
    | some r => exact absurd (hc [] r.1 r.2 h) (Nat.not_lt_zero _)
  have hscan := scan_encode hc as [] hv hnil
  rw [List.append_nil] at hscan
  rw [all, hscan]
  rfl

end Codec

namespace Wire

/-! ### Varints -/

/-- The base-128 digits of a number, at most `digits` of them and the least significant
first; the high bit of a byte says that more follow. -/
def varintBytes : Nat → Nat → Bytes
  | 0, _ => []
  | digits + 1, n =>
    if n < 128 then [UInt8.ofNat n] else UInt8.ofNat (n % 128 + 128) :: varintBytes digits (n / 128)

/-- The number whose base-128 digits come first. The most significant one is not zero
unless it is the only one. -/
def readVarint : Nat → Bytes → Option (Nat × Bytes)
  | 0, _ => none
  | _ + 1, [] => none
  | digits + 1, x :: rest =>
    if x.toNat < 128 then some (x.toNat, rest)
    else
      (readVarint digits rest).bind fun high =>
        if high.1 = 0 then none else some (x.toNat - 128 + 128 * high.1, high.2)

theorem readVarint_varintBytes (digits n : Nat) (rest : Bytes) (hn : n < 128 ^ digits) (hpos : digits ≠ 0) :
    readVarint digits (varintBytes digits n ++ rest) = some (n, rest) := by
  induction digits generalizing n with
  | zero => exact absurd rfl hpos
  | succ digits ih =>
    rw [varintBytes]
    split
    · rename_i hsmall
      have hbyte : (UInt8.ofNat n).toNat = n := UInt8.toNat_ofNat_of_lt (show n < 256 by omega)
      rw [List.singleton_append, readVarint, hbyte, if_pos hsmall]
    · rename_i hbig
      have hbyte : (UInt8.ofNat (n % 128 + 128)).toNat = n % 128 + 128 :=
        UInt8.toNat_ofNat_of_lt (show n % 128 + 128 < 256 by omega)
      have hhigh : n / 128 < 128 ^ digits := by
        rw [Nat.pow_succ] at hn
        exact Nat.div_lt_of_lt_mul (by rwa [Nat.mul_comm] at hn)
      have hdigits : digits ≠ 0 := by
        rintro rfl
        exact hbig (by simpa using hn)
      have hne : n / 128 ≠ 0 := by omega
      rw [List.cons_append, readVarint, hbyte, if_neg (by omega), ih _ hhigh hdigits, Option.bind_some,
        if_neg hne]
      congr 2
      omega

theorem readVarint_length {digits n : Nat} {b rest : Bytes} (h : readVarint digits b = some (n, rest)) :
    rest.length < b.length := by
  induction digits generalizing n b with
  | zero => cases h
  | succ digits ih =>
    cases b with
    | nil => cases h
    | cons x tail =>
      rw [readVarint] at h
      split at h
      · cases h
        exact Nat.lt_succ_self _
      · obtain ⟨high, hhigh, h⟩ := Option.bind_eq_some_iff.mp h
        split at h
        · cases h
        · cases h
          exact Nat.lt_succ_of_lt (ih hhigh)

/-- A number of 64 bits. -/
def varint : Codec Nat where
  Valid := fun n => n < 2 ^ 64
  encode := varintBytes 10
  decode := fun b => (readVarint 10 b).filter fun r => r.1 < 2 ^ 64
  forward := fun n rest hn => by
    rw [readVarint_varintBytes 10 n rest (by omega) (by decide), Option.filter_some,
      if_pos (decide_eq_true hn)]
  shrinks := fun h => Nat.le_of_lt (readVarint_length (Option.filter_eq_some_iff.mp h).1)

theorem varint_encode_pos (n : Nat) : 0 < (varint.encode n).length := by
  show 0 < (varintBytes 10 n).length
  unfold varintBytes
  split
  · exact Nat.one_pos
  · exact Nat.succ_pos _

theorem varint_consumes : varint.Consumes := fun _ _ _ h =>
  readVarint_length (Option.filter_eq_some_iff.mp h).1

/-! ### Records -/

inductive Payload where
  | varint (n : Nat)
  | delimited (data : Bytes)
deriving DecidableEq, Repr

structure Record where
  number : Nat
  payload : Payload
deriving DecidableEq, Repr

/-- The payload of a wire type at the front of a byte string. Only the wire types of
integers and of length-delimited fields are read. -/
def readPayload : Nat → Bytes → Option (Payload × Bytes)
  | 0, b => (varint.decode b).map fun r => (.varint r.1, r.2)
  | 2, b =>
    (varint.decode b).bind fun length =>
      if length.2.length < length.1 then none
      else some (.delimited (length.2.take length.1), length.2.drop length.1)
  | _, _ => none

namespace Payload

def wireType : Payload → Nat
  | .varint _ => 0
  | .delimited _ => 2

def encode : Payload → Bytes
  | .varint n => Wire.varint.encode n
  | .delimited data => Wire.varint.encode data.length ++ data

def Valid : Payload → Prop
  | .varint n => n < 2 ^ 64
  | .delimited data => data.length < 2 ^ 64

theorem readPayload_encode (p : Payload) (rest : Bytes) (h : p.Valid) :
    readPayload p.wireType (p.encode ++ rest) = some (p, rest) := by
  cases p with
  | varint n => rw [wireType, readPayload, encode, Wire.varint.forward n rest h, Option.map_some]
  | delimited data =>
    rw [wireType, readPayload, encode, List.append_assoc, Wire.varint.forward _ _ h, Option.bind_some,
      if_neg (by simp), List.take_left' rfl, List.drop_left' rfl]

theorem wireType_lt (p : Payload) : p.wireType < 8 := by
  cases p with
  | varint n => exact Nat.zero_lt_succ _
  | delimited data => exact (by decide : 2 < 8)

end Payload

theorem readPayload_length {wireType : Nat} {p : Payload} {b rest : Bytes}
    (h : readPayload wireType b = some (p, rest)) : rest.length ≤ b.length := by
  unfold readPayload at h
  split at h
  · obtain ⟨r, hr, he⟩ := Option.map_eq_some_iff.mp h
    cases he
    exact varint.shrinks hr
  · obtain ⟨length, hr, h⟩ := Option.bind_eq_some_iff.mp h
    split at h
    · cases h
    · cases h
      have hle := varint.shrinks hr
      rw [List.length_drop]
      omega
  · cases h

/-- A record: its tag, which holds the field number and the wire type, and its payload. -/
def record : Codec Record where
  Valid := fun r => r.number < 2 ^ 29 ∧ r.payload.Valid
  encode := fun r => varint.encode (8 * r.number + r.payload.wireType) ++ r.payload.encode
  decode := fun b =>
    (varint.decode b).bind fun tag =>
      (readPayload (tag.1 % 8) tag.2).map fun r => (⟨tag.1 / 8, r.1⟩, r.2)
  forward := fun ⟨number, payload⟩ rest ⟨hnumber, hpayload⟩ => by
    dsimp only at hnumber hpayload ⊢
    have hwire := payload.wireType_lt
    have htag : 8 * number + payload.wireType < 2 ^ 64 := by omega
    rw [List.append_assoc, varint.forward _ _ htag, Option.bind_some]
    have hmod : (8 * number + payload.wireType) % 8 = payload.wireType := by omega
    have hdiv : (8 * number + payload.wireType) / 8 = number := by omega
    simp only [hmod, hdiv, Payload.readPayload_encode payload rest hpayload, Option.map_some]
  shrinks := fun h => by
    obtain ⟨tag, htag, h⟩ := Option.bind_eq_some_iff.mp h
    obtain ⟨r, hpayload, h⟩ := Option.map_eq_some_iff.mp h
    cases h
    exact Nat.le_trans (readPayload_length hpayload) (varint.shrinks htag)

theorem record_consumes : record.Consumes := fun b r rest h => by
  obtain ⟨tag, htag, h⟩ := Option.bind_eq_some_iff.mp h
  obtain ⟨r, hpayload, h⟩ := Option.map_eq_some_iff.mp h
  cases h
  exact Nat.lt_of_le_of_lt (readPayload_length hpayload) (varint_consumes b _ _ htag)

end Wire

end Base
