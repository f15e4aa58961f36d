import Wasmig.Checkpoint.Successive

/-! Globals that are written and read back without their types.

The items are packed one behind the other, and each is read into a cell of eight bytes. The cells
come from `malloc`, so what an item does not fill keeps what was there before:
`globals_restored_iff`. -/
namespace Wasmig
open Base Base.Stdio

/-- The types of a checkpoint, which are wider than those of a restore. -/
def wideTypes (types : Array8) : List UInt32 := types.contents.map UInt8.toUInt32

/-- Every element is the value's low bytes, as many as its type says. -/
def RestoredModulo (values : Memory) (types : Array8) (globals : Array64) : Prop :=
  ∀ i ty, types.contents[i]? = some ty →
    (globals.contents[i]?).map UInt64.toNat = some ((cell values i).toNat % 2 ^ (8 * ty.toNat))

/-- What is restored into a block: a value's low bytes, and above them what the cell held. -/
def RestoredOver (values block : Memory) (types : Array8) (globals : Array64) : Prop :=
  ∀ i ty, types.contents[i]? = some ty →
    (globals.contents[i]?).map UInt64.toNat =
      some ((cell values i).toNat % 2 ^ (8 * ty.toNat) +
        2 ^ (8 * ty.toNat) * ((cell block i).toNat / 2 ^ (8 * ty.toNat)))

/-- The values alone are there exactly when the cells held nothing above them. -/
theorem RestoredOver.modulo_iff {values block : Memory} {types : Array8} {globals : Array64}
    (h : RestoredOver values block types globals) :
    RestoredModulo values types globals ↔
      ∀ i ty, types.contents[i]? = some ty → (cell block i).toNat < 2 ^ (8 * ty.toNat) := by
  refine forall_congr' fun i => forall_congr' fun ty => forall_congr' fun hi => ?_
  have hpos : 0 < 2 ^ (8 * ty.toNat) := Nat.two_pow_pos _
  rw [h i ty hi, Option.some.injEq, Nat.add_eq_left, Nat.mul_eq_zero, Nat.div_eq_zero_iff]
  constructor
  · rintro (hzero | hzero | hlt)
    · omega
    · omega
    · exact hlt
  · intro hlt
    exact Or.inr (Or.inr hlt)

/-! ### The loop -/

/-- Items that the image has are read into the low bytes of their cells. -/
theorem readGlobals_spec {values : Memory} {size : UInt32} (types : Bytes) (i : Nat) {fp : Reader} (block : Memory)
    (hunread : fp.unread = globalsImage values i (types.map UInt8.toUInt32)) (hwidths : ∀ ty ∈ types, ty.toNat ≤ 8)
    (hsize : i + types.length ≤ size.toNat) :
    ∃ block', readGlobals size i types fp block = some block' ∧ (∀ x, x < 8 * i → block' x = block x) ∧
      ∀ k ty, types[k]? = some ty → block'.read (8 * (i + k)) 8 =
        values.read (8 * (i + k)) ty.toNat ++ block.read (8 * (i + k) + ty.toNat) (8 - ty.toNat) := by
  induction types generalizing i fp block with
  | nil =>
    refine ⟨block, rfl, fun _ _ => rfl, ?_⟩
    intro k ty hk
    cases hk
  | cons ty types ih =>
    obtain ⟨hty, htypes⟩ := List.forall_mem_cons.mp hwidths
    rw [List.length_cons] at hsize
    rw [List.map_cons, globalsImage, UInt8.toNat_toUInt32] at hunread
    have hdata : (fread fp ty.toNat 1).data = values.read (8 * i) ty.toNat := by
      rw [fread_data, Nat.mul_one, hunread, List.take_left' (Memory.read_length ..)]
    have hrest : (fread fp ty.toNat 1).fp.unread = globalsImage values (i + 1) (types.map UInt8.toUInt32) := by
      rw [fread_unread, Nat.mul_one, hunread, List.drop_left' (Memory.read_length ..)]
    have hfits : 8 * i + (values.read (8 * i) ty.toNat).length ≤ 8 * size.toNat := by
      rw [Memory.read_length]
      omega
    obtain ⟨block', hread, hbefore, hcells⟩ :=
      ih (i + 1) (block.write (8 * i) (values.read (8 * i) ty.toNat)) hrest htypes (by omega)
    refine ⟨block', ?_, ?_, ?_⟩
    · rw [readGlobals, hdata, if_pos hfits, hread]
    · intro x hx
      rw [hbefore x (by omega)]
      exact Memory.write_outside _ _ _ x (Or.inl hx)
    · intro k ty' hk
      cases k with
      | zero =>
        cases hk
        have hcell : block'.read (8 * i) 8 = (block.write (8 * i) (values.read (8 * i) ty.toNat)).read (8 * i) 8 :=
          Memory.read_congr fun j hj => hbefore _ (by omega)
        rw [Nat.add_zero, hcell, Memory.read_write _ _ _ _ (by rw [Memory.read_length]; exact hty),
          Memory.read_length]
      | succ k =>
        have hindex : i + (k + 1) = i + 1 + k := by omega
        rw [hindex, hcells k ty' hk]
        congr 1
        -- Cells further on have not been touched yet.
        apply Memory.read_congr
        intro j hj
        refine Memory.write_outside _ _ _ _ (Or.inr ?_)
        rw [Memory.read_length]
        omega

/-! ### Cells -/

theorem ofLE_read_take (m : Memory) (a : Nat) {n k : Nat} (h : k ≤ n) :
    ofLE (m.read a k) = ofLE (m.read a n) % 256 ^ k := by
  obtain ⟨d, rfl⟩ := Nat.exists_eq_add_of_le h
  have hlt := ofLE_lt (m.read a k)
  rw [Memory.read_length] at hlt
  rw [Memory.read_append, ofLE_append, Memory.read_length, Nat.add_mul_mod_self_left, Nat.mod_eq_of_lt hlt]

theorem ofLE_read_drop (m : Memory) (a : Nat) {n k : Nat} (h : k ≤ n) :
    ofLE (m.read (a + k) (n - k)) = ofLE (m.read a n) / 256 ^ k := by
  obtain ⟨d, rfl⟩ := Nat.exists_eq_add_of_le h
  have hlt := ofLE_lt (m.read a k)
  rw [Memory.read_length] at hlt
  rw [Memory.read_append, ofLE_append, Memory.read_length, Nat.add_sub_cancel_left,
    Nat.add_mul_div_left _ _ (Nat.lt_of_le_of_lt (Nat.zero_le _) hlt), Nat.div_eq_of_lt hlt, Nat.zero_add]

/-- An item and what a cell held behind it. -/
theorem cell_mixed {block block' values : Memory} {i : Nat} {ty : UInt8} (hty : ty.toNat ≤ 8)
    (h : block'.read (8 * i) 8 = values.read (8 * i) ty.toNat ++ block.read (8 * i + ty.toNat) (8 - ty.toNat)) :
    (cell block' i).toNat = (cell values i).toNat % 2 ^ (8 * ty.toNat) +
      2 ^ (8 * ty.toNat) * ((cell block i).toNat / 2 ^ (8 * ty.toNat)) := by
  have hpow : 2 ^ (8 * ty.toNat) = 256 ^ ty.toNat := Nat.pow_mul 2 8 ty.toNat
  rw [cell_toNat, cell_toNat, cell_toNat, h, ofLE_append, Memory.read_length, ofLE_read_take values _ hty,
    ofLE_read_drop block _ hty, hpow]

/-- A block of one byte over and over. -/
def filledWith (byte : UInt8) : Memory := fun _ => byte

theorem cell_filledWith (byte : UInt8) (i : Nat) :
    (cell (filledWith byte) i).toNat = ofLE (List.replicate 8 byte) := by
  have hread : (filledWith byte).read (8 * i) 8 = List.replicate 8 byte := rfl
  rw [cell_toNat, hread]

/-- Whatever the block held fits into the items only if they fill their cells: a block of ones does not
fit into any less. -/
theorem cells_fit_iff {types : Bytes} (hwidths : ∀ ty ∈ types, ty.toNat ≤ 8) :
    (∀ block i ty, types[i]? = some ty → (cell block i).toNat < 2 ^ (8 * ty.toNat)) ↔ ∀ ty ∈ types, ty = 8 := by
  constructor
  · intro hall ty hty
    obtain ⟨i, hi⟩ := List.getElem?_of_mem hty
    have hlt := hall (filledWith 255) i ty hi
    have hle := hwidths ty hty
    have hones : ofLE (List.replicate 8 255) = 2 ^ 64 - 1 := by decide
    rw [cell_filledWith, hones] at hlt
    have height : ¬ ty.toNat < 8 := by
      intro hnarrow
      have hpow : 2 ^ (8 * ty.toNat) ≤ 2 ^ 56 := Nat.pow_le_pow_right (by decide) (by omega)
      omega
    exact UInt8.toNat.inj (by show ty.toNat = 8; omega)
  · intro hwhole block i ty hi
    rw [hwhole ty (List.mem_of_getElem? hi)]
    exact (cell block i).toNat_lt

/-! ### Through the image -/

/-- The reader gets through an image of all the items. -/
theorem restoreGlobal_image {dir : Directory} {values : Memory} {types : Array8}
    (himage : dir "global.img" = some (globalsImage values 0 (wideTypes types)))
    (hwidths : ∀ ty ∈ types.contents, ty.toNat ≤ 8) (hlen : types.size.toNat < 2 ^ 31) (block : Memory) :
    ∃ globals, restoreGlobal dir types block = some (some globals) ∧ globals.size = types.size ∧
      RestoredOver values block types globals := by
  have hsize : 0 + types.contents.length ≤ types.size.toNat :=
    Nat.le_of_eq ((Nat.zero_add _).trans types.length_contents)
  have hunread : (Reader.ofFile (globalsImage values 0 (wideTypes types))).unread =
      globalsImage values 0 (types.contents.map UInt8.toUInt32) := unread_ofFile _
  obtain ⟨after, hread, -, hcells⟩ := readGlobals_spec types.contents 0 block hunread hwidths hsize
  refine ⟨array64Of after types.size, ?_, rfl, fun i ty hi => ?_⟩
  · have hread : readGlobals types.size 0 types.contents (Reader.ofFile (globalsImage values 0 (wideTypes types))) block =
        some after := hread
    rw [restoreGlobal, openImageRb, himage, Option.map_some]
    dsimp only
    rw [if_pos hlen, hread, Option.map_some]
  · obtain ⟨hlt, -⟩ := List.getElem?_eq_some_iff.mp hi
    rw [types.length_contents] at hlt
    have hget : (array64Of after types.size).contents[i]? = some (cell after i) := by simp [array64Of, hlt]
    have hcell := hcells i ty hi
    rw [Nat.zero_add] at hcell
    rw [hget, Option.map_some, cell_mixed (hwidths ty (List.mem_of_getElem? hi)) hcell]

/-- What is restored after a checkpoint that returns 0 and gets through. The values come back for
whatever the allocated block held only if none of them is narrower than its cell. -/
theorem globals_restored_iff (values : Memory) (types : Array8) (hwidths : ∀ ty ∈ types.contents, ty.toNat ≤ 8)
    (hlen : types.size.toNat < 2 ^ 31) (p : Checkpointer)
    (hcode : (checkpointGlobal values (wideTypes types) p).1 = 0)
    (hdelivered : FileDelivered p.world (globalsBlocks (wideTypes types))) :
    ∃ restored : Memory → Array64,
      (∀ block,
        restoreGlobal (directory (checkpointGlobal values (wideTypes types) p).2.world p.cwd) types block =
          some (some (restored block)) ∧
        (restored block).size = types.size ∧
        (RestoredModulo values types (restored block) ↔
          ∀ i ty, types.contents[i]? = some ty → (cell block i).toNat < 2 ^ (8 * ty.toNat))) ∧
      ((∀ block, RestoredModulo values types (restored block)) ↔ ∀ ty ∈ types.contents, ty = 8) := by
  obtain ⟨-, hfile⟩ := checkpointGlobal_spec values (wideTypes types) p
  rw [hcode] at hfile
  have himage : directory (checkpointGlobal values (wideTypes types) p).2.world p.cwd "global.img" =
      some (globalsImage values 0 (wideTypes types)) := hfile.delivered hdelivered
  choose restored hrestored hsize hover using restoreGlobal_image himage hwidths hlen
  refine ⟨restored, fun block => ⟨hrestored block, hsize block, (hover block).modulo_iff⟩, ?_⟩
  exact (forall_congr' fun block => (hover block).modulo_iff).trans (cells_fit_iff hwidths)

/-- A 32-bit and a 64-bit global. -/
def sampleTypes : Array8 := ⟨2, [4, 8], rfl⟩

/-- The values 1 and 2 in memory. -/
def sampleValues : Memory := fun x => if x = 0 then 1 else if x = 8 then 2 else 0

theorem sampleTypes_widths : ∀ ty ∈ sampleTypes.contents, 1 ≤ ty.toNat ∧ ty.toNat ≤ 8 := by
  intro ty hty
  obtain rfl | rfl : ty = 4 ∨ ty = 8 := by simpa [sampleTypes] using hty
  · decide
  · decide

/-- Into a block of zeros they are restored. -/
theorem globals_restored_iff_zeros :
    ∃ globals, restoreGlobal (directory (checkpointGlobal sampleValues (wideTypes sampleTypes) newProcess).2.world "/")
        sampleTypes (filledWith 0) = some (some globals) ∧ RestoredModulo sampleValues sampleTypes globals := by
  have hdelivered : FileDelivered newProcess.world (globalsBlocks (wideTypes sampleTypes)) :=
    fun _ => ⟨_, rfl, passes_none _⟩
  obtain ⟨restored, hrestored, -⟩ :=
    globals_restored_iff sampleValues sampleTypes (fun ty hty => (sampleTypes_widths ty hty).2) (by decide) newProcess
      rfl hdelivered
  obtain ⟨hglobals, -, hmodulo⟩ := hrestored (filledWith 0)
  refine ⟨_, hglobals, hmodulo.mpr fun i ty hi => ?_⟩
  have hzero : ofLE (List.replicate 8 0) = 0 := by decide
  rw [cell_filledWith, hzero]
  exact Nat.two_pow_pos _

/-- Into a block of ones the 32-bit global is not. -/
theorem globals_not_restored :
    ¬ ∀ (values : Memory) (types : Array8) (p : Checkpointer), (∀ ty ∈ types.contents, 1 ≤ ty.toNat ∧ ty.toNat ≤ 8) →
      (checkpointGlobal values (wideTypes types) p).1 = 0 →
      FileDelivered p.world (globalsBlocks (wideTypes types)) → ∀ block globals,
        restoreGlobal (directory (checkpointGlobal values (wideTypes types) p).2.world p.cwd) types block =
          some (some globals) → RestoredModulo values types globals := by
  intro h
  have hdelivered : FileDelivered newProcess.world (globalsBlocks (wideTypes sampleTypes)) :=
    fun _ => ⟨_, rfl, passes_none _⟩
  have hrestored : restoreGlobal (directory (checkpointGlobal sampleValues (wideTypes sampleTypes) newProcess).2.world
      "/") sampleTypes (filledWith 255) = some (some ⟨2, [0xffffffff00000001, 2], rfl⟩) := rfl
  have hmodulo := h sampleValues sampleTypes newProcess sampleTypes_widths rfl hdelivered _ _ hrestored 0 4 rfl
  revert hmodulo
  decide

end Wasmig
