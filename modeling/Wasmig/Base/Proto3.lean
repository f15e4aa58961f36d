import Wasmig.Base.Wire

/-! Proto3 messages, by their descriptors.

A `Descriptor` lists the fields of a message type in order, those of its sub-messages
included, and fixes the values of the type. A field that holds its default leaves no
record; the numbers of a repeated field are packed into one; the messages of a repeated
field are a record each, and an empty sub-message is a record with an empty payload.
`decode_encode` says that a message is read back from its encoding.

`decode` is a strict reader: it knows every field it meets, and meets a field that is
not repeated at most once. -/
namespace Base

/-- Reading back, one by one, what was written one by one. -/
theorem mapM_map_eq_some {α β : Type} {f : α → β} {g : β → Option α} (as : List α)
    (h : ∀ a ∈ as, g (f a) = some a) : (as.map f).mapM g = some as := by
  induction as with
  | nil => rfl
  | cons a as ih =>
    rw [List.map_cons, List.mapM_cons, h a (List.mem_cons_self ..),
      ih fun x hx => h x (List.mem_cons_of_mem _ hx)]
    rfl

namespace Wire

/-! ### Fields without sub-messages -/

/-- The payloads that hold a number, zero by default. -/
def writeNumber (n : Nat) : List Payload := if n = 0 then [] else [.varint n]

/-- The payloads that hold a byte string, empty by default. -/
def writeBytes (data : Bytes) : List Payload := if data = [] then [] else [.delimited data]

/-- The payloads that hold the numbers of a repeated field, packed. -/
def writeNumbers (ns : List Nat) : List Payload := writeBytes (ns.flatMap varint.encode)

def readNumber : List Payload → Option Nat
  | [] => some 0
  | [.varint n] => some n
  | _ => none

def readBytes : List Payload → Option Bytes
  | [] => some []
  | [.delimited data] => some data
  | _ => none

/-- The numbers in one payload, packed or alone. -/
def numbersIn : Payload → Option (List Nat)
  | .varint n => some [n]
  | .delimited data => varint.all varint_consumes data

def readNumbers (ps : List Payload) : Option (List Nat) := (ps.mapM numbersIn).map List.flatten

theorem readNumber_write (n : Nat) : readNumber (writeNumber n) = some n := by
  unfold writeNumber
  split
  · rename_i hn
    rw [hn]
    rfl
  · rfl

theorem readBytes_write (data : Bytes) : readBytes (writeBytes data) = some data := by
  unfold writeBytes
  split
  · rename_i hdata
    rw [hdata]
    rfl
  · rfl

theorem readNumbers_write (ns : List Nat) (h : ∀ n ∈ ns, n < 2 ^ 64) :
    readNumbers (writeNumbers ns) = some ns := by
  have hall := Codec.all_encode varint_consumes ns h
  unfold writeNumbers writeBytes
  split
  · rename_i hempty
    rw [hempty] at hall
    have hns : ns = [] := by
      rw [Codec.all, Codec.scan_none varint_consumes (by rfl)] at hall
      exact (Option.some.inj hall).symm
    rw [hns]
    rfl
  · rw [readNumbers, List.mapM_cons, numbersIn, hall]
    simp

theorem varint_mem_writeNumber {n m : Nat} (h : .varint m ∈ writeNumber n) : m = n := by
  unfold writeNumber at h
  split at h
  · cases h
  · cases List.mem_singleton.mp h
    rfl

theorem varint_mem_writeBytes {data : Bytes} {m : Nat} : .varint m ∉ writeBytes data := by
  intro h
  unfold writeBytes at h
  split at h
  · cases h
  · cases List.mem_singleton.mp h

/-- A type of fields without sub-messages: how a value is held in payloads. -/
structure Leaf where
  Value : Type
  write : Value → List Payload
  read : List Payload → Option Value
  read_write : ∀ v, read (write v) = some v
  varint_lt : ∀ v n, .varint n ∈ write v → n < 2 ^ 64

namespace Leaf

/-- `uint32`. -/
abbrev uint32 : Leaf where
  Value := UInt32
  write := fun x => writeNumber x.toNat
  read := fun ps => (readNumber ps).map UInt32.ofNat
  read_write := fun x => by rw [readNumber_write, Option.map_some, UInt32.ofNat_toNat]
  varint_lt := fun x n h => by
    rw [varint_mem_writeNumber h]
    exact Nat.lt_trans x.toNat_lt (by decide)

/-- `uint64`. -/
abbrev uint64 : Leaf where
  Value := UInt64
  write := fun x => writeNumber x.toNat
  read := fun ps => (readNumber ps).map UInt64.ofNat
  read_write := fun x => by rw [readNumber_write, Option.map_some, UInt64.ofNat_toNat]
  varint_lt := fun x n h => by
    rw [varint_mem_writeNumber h]
    exact x.toNat_lt

/-- `bytes`. -/
abbrev bytes : Leaf where
  Value := Bytes
  write := writeBytes
  read := readBytes
  read_write := readBytes_write
  varint_lt := fun _ _ h => absurd h varint_mem_writeBytes

/-- `repeated uint32`, packed. -/
abbrev uint32s : Leaf where
  Value := List UInt32
  write := fun xs => writeNumbers (xs.map UInt32.toNat)
  read := fun ps => (readNumbers ps).map (List.map UInt32.ofNat)
  read_write := fun xs => by
    have hsmall : ∀ n ∈ xs.map UInt32.toNat, n < 2 ^ 64 := by
      intro n hn
      obtain ⟨x, -, rfl⟩ := List.mem_map.mp hn
      exact Nat.lt_trans x.toNat_lt (by decide)
    have hid : UInt32.ofNat ∘ UInt32.toNat = id := funext fun x => UInt32.ofNat_toNat
    rw [readNumbers_write _ hsmall, Option.map_some, List.map_map, hid, List.map_id]
  varint_lt := fun _ _ h => absurd h varint_mem_writeBytes

end Leaf

/-! ### Message types -/

/-- The fields of a message type in order, each with its number. -/
inductive Fields where
  | nil
  | leaf (number : Nat) (kind : Leaf) (rest : Fields)
  /-- A sub-message, which may be missing. -/
  | message (number : Nat) (sub rest : Fields)
  /-- A repeated sub-message. -/
  | messages (number : Nat) (sub rest : Fields)

namespace Fields

/-- The values of the fields, in order. -/
def Value : Fields → Type
  | nil => Unit
  | leaf _ kind rest => kind.Value × rest.Value
  | message _ sub rest => Option sub.Value × rest.Value
  | messages _ sub rest => List sub.Value × rest.Value

def numbers : Fields → List Nat
  | nil => []
  | leaf number _ rest | message number _ rest | messages number _ rest => number :: rest.numbers

/-- No two fields of a message type share a number. -/
def WellFormed : Fields → Prop
  | nil => True
  | leaf number _ rest => number < 2 ^ 29 ∧ number ∉ rest.numbers ∧ rest.WellFormed
  | message number sub rest | messages number sub rest =>
    number < 2 ^ 29 ∧ number ∉ rest.numbers ∧ sub.WellFormed ∧ rest.WellFormed

instance decidableWellFormed : (d : Fields) → Decidable d.WellFormed
  | nil => isTrue trivial
  | leaf _ _ rest =>
    have := decidableWellFormed rest
    inferInstanceAs (Decidable (_ ∧ _ ∧ _))
  | message _ sub rest | messages _ sub rest =>
    have := decidableWellFormed sub
    have := decidableWellFormed rest
    inferInstanceAs (Decidable (_ ∧ _ ∧ _ ∧ _))

/-! ### Writing -/

/-- The bytes that records take. -/
def encodeRecords (rs : List Record) : Bytes := rs.flatMap record.encode

/-- The payload that holds a message of these records. -/
def embedded (rs : List Record) : Payload := .delimited (encodeRecords rs)

/-- The records of a message. -/
def records : (d : Fields) → d.Value → List Record
  | nil, _ => []
  | leaf number kind rest, v => (kind.write v.1).map (Record.mk number) ++ records rest v.2
  | message number sub rest, v =>
    (v.1.toList.map fun m => embedded (records sub m)).map (Record.mk number) ++ records rest v.2
  | messages number sub rest, v =>
    (v.1.map fun m => embedded (records sub m)).map (Record.mk number) ++ records rest v.2

/-! ### Reading -/

/-- A field read from the records with its number, and the others from the rest. -/
def readField {α β : Type} (number : Nat) (first : List Payload → Option α) (others : List Record → Option β)
    (rs : List Record) : Option (α × β) :=
  (first ((rs.filter fun r => r.number = number).map Record.payload)).bind fun v =>
    (others (rs.filter fun r => r.number ≠ number)).map fun vs => (v, vs)

/-- A message in a payload. -/
def readEmbedded {α : Type} (read : List Record → Option α) : Payload → Option α
  | .varint _ => none
  | .delimited data => (record.all record_consumes data).bind read

/-- At most one payload. -/
def readOptional {α : Type} (read : Payload → Option α) : List Payload → Option (Option α)
  | [] => some none
  | [p] => (read p).map some
  | _ => none

/-- The message of a run of records. -/
def ofRecords : (d : Fields) → List Record → Option d.Value
  | nil, rs => if rs = [] then some () else none
  | leaf number kind rest, rs => readField number kind.read (ofRecords rest) rs
  | message number sub rest, rs =>
    readField number (readOptional (readEmbedded (ofRecords sub))) (ofRecords rest) rs
  | messages number sub rest, rs =>
    readField number (List.mapM (readEmbedded (ofRecords sub))) (ofRecords rest) rs

/-! ### What is written is read back -/

theorem number_mem {d : Fields} {v : d.Value} {r : Record} (h : r ∈ d.records v) : r.number ∈ d.numbers := by
  have hown : ∀ {number : Nat} {ps : List Payload}, r ∈ ps.map (Record.mk number) → r.number = number := by
    intro number ps hr
    obtain ⟨p, -, rfl⟩ := List.mem_map.mp hr
    rfl
  induction d with
  | nil => cases h
  | leaf number kind rest ih | message number sub rest ihsub ih | messages number sub rest ihsub ih =>
    rw [numbers, List.mem_cons]
    rcases List.mem_append.mp h with h | h
    · exact Or.inl (hown h)
    · exact Or.inr (ih h)

theorem number_lt {d : Fields} (hd : d.WellFormed) : ∀ number ∈ d.numbers, number < 2 ^ 29 := by
  induction d with
  | nil => exact fun _ h => absurd h List.not_mem_nil
  | leaf number kind rest ih =>
    exact List.forall_mem_cons.mpr ⟨hd.1, ih hd.2.2⟩
  | message number sub rest ihsub ih | messages number sub rest ihsub ih =>
    exact List.forall_mem_cons.mpr ⟨hd.1, ih hd.2.2.2⟩

theorem varint_lt {d : Fields} {v : d.Value} {r : Record} {n : Nat} (h : r ∈ d.records v)
    (hn : r.payload = .varint n) : n < 2 ^ 64 := by
  induction d with
  | nil => cases h
  | leaf number kind rest ih =>
    rcases List.mem_append.mp h with h | h
    · obtain ⟨p, hp, rfl⟩ := List.mem_map.mp h
      exact kind.varint_lt v.1 n (hn ▸ hp)
    · exact ih h
  | message number sub rest ihsub ih | messages number sub rest ihsub ih =>
    rcases List.mem_append.mp h with h | h
    · obtain ⟨p, hp, rfl⟩ := List.mem_map.mp h
      obtain ⟨m, -, rfl⟩ := List.mem_map.mp hp
      cases hn
    · exact ih h

/-- A payload is no longer than what it is part of. -/
theorem delimited_length_le {rs : List Record} (number : Nat) {data : Bytes}
    (h : ⟨number, .delimited data⟩ ∈ rs) : data.length ≤ (encodeRecords rs).length := by
  have hself : data.length ≤ (record.encode ⟨number, .delimited data⟩).length := by
    simp only [record, Payload.encode, List.length_append]
    omega
  have hpart := List.sublist_flatten_of_mem (List.mem_map_of_mem h : _ ∈ rs.map record.encode)
  rw [encodeRecords, List.flatMap_def]
  exact Nat.le_trans hself hpart.length_le

theorem encodeRecords_append_le (rs rs' : List Record) :
    (encodeRecords rs').length ≤ (encodeRecords (rs ++ rs')).length := by
  rw [encodeRecords, encodeRecords, List.flatMap_append, List.length_append]
  omega

/-- Every record takes a byte. -/
theorem length_le_encodeRecords (rs : List Record) : rs.length ≤ (encodeRecords rs).length := by
  induction rs with
  | nil => exact Nat.zero_le _
  | cons r rs ih =>
    have htag : 0 < (record.encode r).length := by
      simp only [record, List.length_append]
      exact Nat.add_pos_left (varint_encode_pos _) _
    rw [encodeRecords, List.flatMap_cons, List.length_append, List.length_cons]
    rw [encodeRecords] at ih
    omega

/-- The records of a message that is not too long. -/
theorem records_valid {d : Fields} (hd : d.WellFormed) {v : d.Value}
    (hlen : (encodeRecords (d.records v)).length < 2 ^ 64) : ∀ r ∈ d.records v, record.Valid r := by
  intro h hr
  obtain ⟨number, payload⟩ := h
  refine ⟨number_lt hd number (number_mem hr), ?_⟩
  cases payload with
  | varint n => exact varint_lt hr rfl
  | delimited data => exact Nat.lt_of_le_of_lt (delimited_length_le number hr) hlen

/-- A field is read from its own records. -/
theorem readField_own {α β : Type} {number : Nat} {first : List Payload → Option α}
    {others : List Record → Option β} {ps : List Payload} {rs : List Record} {v : α} {vs : β}
    (hrs : ∀ r ∈ rs, r.number ≠ number) (hfirst : first ps = some v) (hothers : others rs = some vs) :
    readField number first others (ps.map (Record.mk number) ++ rs) = some (v, vs) := by
  have hmine : ((ps.map (Record.mk number) ++ rs).filter fun r => r.number = number) =
      ps.map (Record.mk number) := by
    rw [List.filter_append, List.filter_eq_self.mpr (by simp),
      List.filter_eq_nil_iff.mpr (by simpa using hrs), List.append_nil]
  have htheirs : ((ps.map (Record.mk number) ++ rs).filter fun r => r.number ≠ number) = rs := by
    rw [List.filter_append, List.filter_eq_nil_iff.mpr (by simp),
      List.filter_eq_self.mpr (by simpa using hrs), List.nil_append]
  have hpayloads : (ps.map (Record.mk number)).map Record.payload = ps := by
    rw [List.map_map]
    exact List.map_id ps
  rw [readField, hmine, htheirs, hpayloads, hfirst, hothers]
  rfl

/-- A sub-message is read from its record, as long as sub-messages of its type are read
back and the whole is not too long. -/
theorem readEmbedded_of_mem {sub : Fields} (hsub : sub.WellFormed)
    (hback : ∀ m, (encodeRecords (sub.records m)).length < 2 ^ 64 → sub.ofRecords (sub.records m) = some m)
    {rs : List Record} (hlen : (encodeRecords rs).length < 2 ^ 64) {number : Nat} {m : sub.Value}
    (hm : ⟨number, embedded (sub.records m)⟩ ∈ rs) :
    readEmbedded sub.ofRecords (embedded (sub.records m)) = some m := by
  have hsublen := Nat.lt_of_le_of_lt (delimited_length_le number hm) hlen
  rw [embedded, readEmbedded, encodeRecords, Codec.all_encode record_consumes _ (records_valid hsub hsublen),
    Option.bind_some, hback m hsublen]

theorem ofRecords_records (d : Fields) (hd : d.WellFormed) (v : d.Value)
    (hlen : (encodeRecords (d.records v)).length < 2 ^ 64) : d.ofRecords (d.records v) = some v := by
  induction d with
  | nil => rfl
  | leaf number kind rest ih =>
    obtain ⟨-, hnot, hrest⟩ := hd
    exact readField_own (fun r hr hn => hnot (hn ▸ number_mem hr)) (kind.read_write v.1)
      (ih hrest v.2 (Nat.lt_of_le_of_lt (encodeRecords_append_le _ _) hlen))
  | message number sub rest ihsub ih =>
    obtain ⟨-, hnot, hsub, hrest⟩ := hd
    have hfirst : readOptional (readEmbedded sub.ofRecords)
        (v.1.toList.map fun m => embedded (sub.records m)) = some v.1 := by
      cases hv : v.1 with
      | none => rfl
      | some m =>
        have hm : ⟨number, embedded (sub.records m)⟩ ∈ (message number sub rest).records v := by
          rw [records, hv]
          exact List.mem_append_left _ (List.mem_cons_self ..)
        show (readEmbedded sub.ofRecords (embedded (sub.records m))).map some = some (some m)
        rw [readEmbedded_of_mem hsub (ihsub hsub) hlen hm, Option.map_some]
    exact readField_own (fun r hr hn => hnot (hn ▸ number_mem hr)) hfirst
      (ih hrest v.2 (Nat.lt_of_le_of_lt (encodeRecords_append_le _ _) hlen))
  | messages number sub rest ihsub ih =>
    obtain ⟨-, hnot, hsub, hrest⟩ := hd
    have hfirst : (v.1.map fun m => embedded (sub.records m)).mapM (readEmbedded sub.ofRecords) =
        some v.1 := by
      refine mapM_map_eq_some v.1 fun m hm => ?_
      exact readEmbedded_of_mem hsub (ihsub hsub) hlen
        (List.mem_append_left _ (List.mem_map_of_mem (List.mem_map_of_mem hm)))
    exact readField_own (fun r hr hn => hnot (hn ▸ number_mem hr)) hfirst
      (ih hrest v.2 (Nat.lt_of_le_of_lt (encodeRecords_append_le _ _) hlen))

end Fields

/-! ### Descriptors -/

structure Descriptor where
  fields : Fields
  wellFormed : fields.WellFormed := by decide

namespace Descriptor

/-- The messages of a type. -/
abbrev Value (d : Descriptor) : Type := d.fields.Value

/-- The encoding of a message. -/
def encode (d : Descriptor) (m : d.Value) : Bytes := Fields.encodeRecords (d.fields.records m)

/-- The message that a byte string is an encoding of. -/
def decode (d : Descriptor) (b : Bytes) : Option d.Value :=
  (record.all record_consumes b).bind d.fields.ofRecords

/-- A message is read back from its encoding. -/
theorem decode_encode (d : Descriptor) (m : d.Value) (hlen : (d.encode m).length < 2 ^ 64) :
    d.decode (d.encode m) = some m := by
  have hall := Codec.all_encode record_consumes _ (Fields.records_valid d.wellFormed hlen)
  rw [decode, encode, Fields.encodeRecords, hall, Option.bind_some,
    Fields.ofRecords_records d.fields d.wellFormed m hlen]

end Descriptor

end Wire

end Base
