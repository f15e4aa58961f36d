import Mathlib.Data.List.Basic
import Wasmig.State.Serialize
import Wasmig.Utils

/-! Steps from one code position to its neighbours (`codepos.cpp`).

`prev_pc` and `next_pc` look a position up among the offsets of its function, which `wcrn`
lists, and read the offset beside it. The two loops are one, `seekPc`, up to which
neighbour that is. `next_pc` asks for `i > 0` where it has to see whether there is an offset
behind the one found, so it stays at the first offset and reads past the last:
`codePos_walk_iff` and `codePos_bounds_iff` say for which positions it is right all the
same. -/
namespace Wasmig

/-- What `prev_pc` and `next_pc` return when they have found `pc` at index `i`; `none` when
they read an element that is not there. -/
def besidePc (offs : Array32) (neighbour : Nat → Option Nat) (pc : CodePos) (i : Nat) : Option CodePos :=
  (if i > 0 then neighbour i else some i).bind fun j =>
    (offs.contents[j]?).map fun off => ⟨pc.fidx, off.toUInt64⟩

/-- The loop of `prev_pc` and `next_pc`, the elements from index `i` on still to be looked
at; `none` when its `int` overflows. -/
def seekPc (offs : Array32) (neighbour : Nat → Option Nat) (pc : CodePos) : Nat → List UInt32 → Option CodePos
  | _, [] => some pc
  | i, off :: rest =>
    if pc.offset = off.toUInt64 then besidePc offs neighbour pc i
    else (intSucc i).bind fun i => seekPc offs neighbour pc i rest

section
variable (wcrnOffsetList : UInt32 → Array32)

/-- `prev_pc(pc)`. -/
def prevPc (pc : CodePos) : Option CodePos :=
  seekPc (wcrnOffsetList pc.fidx) (fun i => some (i - 1)) pc 0 (wcrnOffsetList pc.fidx).contents

/-- `next_pc(pc)`. -/
def nextPc (pc : CodePos) : Option CodePos :=
  seekPc (wcrnOffsetList pc.fidx) intSucc pc 0 (wcrnOffsetList pc.fidx).contents

end

/-! ### The search -/

/-- Where a position is in a list of offsets; behind the end when it is not there. -/
def indexOfPc (offsets : List UInt32) (pc : CodePos) : Nat := offsets.findIdx fun off => pc.offset == off.toUInt64

/-- The loop stops at the position, or behind the end, if an `int` counts as far. -/
theorem seekPc_eq (offs : Array32) (neighbour : Nat → Option Nat) (pc : CodePos) (i : Nat) (rest : List UInt32)
    (hi : i < 2 ^ 31) :
    seekPc offs neighbour pc i rest =
      if i + indexOfPc rest pc < 2 ^ 31 then
        if indexOfPc rest pc < rest.length then besidePc offs neighbour pc (i + indexOfPc rest pc) else some pc
      else none := by
  induction rest generalizing i with
  | nil =>
    have hindex : indexOfPc [] pc = 0 := rfl
    rw [hindex, Nat.add_zero, if_pos hi]
    rfl
  | cons off rest ih =>
    unfold seekPc
    by_cases h : pc.offset = off.toUInt64
    · have hindex : indexOfPc (off :: rest) pc = 0 := by
        rw [indexOfPc, List.findIdx_cons, beq_iff_eq.mpr h]
        rfl
      have hlength : 0 < (off :: rest).length := Nat.succ_pos _
      rw [if_pos h, hindex, Nat.add_zero, if_pos hi, if_pos hlength]
    · have hindex : indexOfPc (off :: rest) pc = indexOfPc rest pc + 1 := by
        rw [indexOfPc, List.findIdx_cons, beq_eq_false_iff_ne.mpr h]
        rfl
      have hsum : i + 1 + indexOfPc rest pc = i + (indexOfPc rest pc + 1) := by omega
      rw [if_neg h, hindex, List.length_cons, intSucc]
      by_cases hnext : i + 1 < 2 ^ 31
      · rw [if_pos hnext, Option.bind_some, ih (i + 1) hnext, hsum]
        simp only [Nat.add_lt_add_iff_right]
      · rw [if_neg hnext, if_neg (by omega)]
        rfl

/-- A position is where its offset is. -/
theorem getElem?_indexOfPc {offsets : List UInt32} {pc : CodePos} (h : indexOfPc offsets pc < offsets.length) :
    ∃ off, offsets[indexOfPc offsets pc]? = some off ∧ pc.offset = off.toUInt64 := by
  refine ⟨offsets[indexOfPc offsets pc], List.getElem?_eq_getElem h, ?_⟩
  have hfound := List.findIdx_getElem (p := fun off : UInt32 => pc.offset == off.toUInt64) (w := h)
  exact eq_of_beq hfound

/-- A position that is not found is not in the list. -/
theorem indexOfPc_lt_iff {offsets : List UInt32} {pc : CodePos} :
    indexOfPc offsets pc < offsets.length ↔ ∃ off ∈ offsets, pc.offset = off.toUInt64 := by
  unfold indexOfPc
  rw [List.findIdx_lt_length]
  simp only [beq_iff_eq]

theorem toUInt64_inj {off off' : UInt32} (h : off.toUInt64 = off'.toUInt64) : off = off' := by
  have htoNat := congrArg UInt64.toNat h
  rw [UInt32.toNat_toUInt64, UInt32.toNat_toUInt64] at htoNat
  exact UInt32.toNat.inj htoNat

/-- The offsets of an increasing list are distinct. -/
theorem nodup_of_increasing {offsets : List UInt32} (h : offsets.Pairwise (· < ·)) : offsets.Nodup := by
  apply h.imp
  intro off off' hlt heq
  rw [heq] at hlt
  exact absurd hlt (UInt32.lt_irrefl _)

/-- In a list of distinct offsets a position is where any equal offset is. -/
theorem indexOfPc_eq {offsets : List UInt32} (hnodup : offsets.Nodup) {pc : CodePos} {i : Nat} {off : UInt32}
    (hi : offsets[i]? = some off) (hoff : pc.offset = off.toUInt64) : indexOfPc offsets pc = i := by
  have hfound : indexOfPc offsets pc < offsets.length :=
    indexOfPc_lt_iff.mpr ⟨off, List.mem_of_getElem? hi, hoff⟩
  obtain ⟨off', hindex, hoff'⟩ := getElem?_indexOfPc hfound
  rw [toUInt64_inj (hoff'.symm.trans hoff)] at hindex
  exact (List.getElem?_inj hfound hnodup).mp (hindex.trans hi.symm)

/-! ### The neighbours -/

section
variable {wcrnOffsetList : UInt32 → Array32} {pc : CodePos}

/-- A search that an `int` cannot follow. -/
theorem seekPc_overflow (h : ¬ indexOfPc (wcrnOffsetList pc.fidx).contents pc < 2 ^ 31) :
    prevPc wcrnOffsetList pc = none ∧ nextPc wcrnOffsetList pc = none := by
  rw [← Nat.zero_add (indexOfPc _ _)] at h
  constructor
  · rw [prevPc, seekPc_eq _ _ _ _ _ (by decide), if_neg h]
  · rw [nextPc, seekPc_eq _ _ _ _ _ (by decide), if_neg h]

theorem seekPc_absent (h : ¬ indexOfPc (wcrnOffsetList pc.fidx).contents pc < (wcrnOffsetList pc.fidx).contents.length)
    (hint : indexOfPc (wcrnOffsetList pc.fidx).contents pc < 2 ^ 31) :
    prevPc wcrnOffsetList pc = some pc ∧ nextPc wcrnOffsetList pc = some pc := by
  rw [← Nat.zero_add (indexOfPc _ _)] at hint
  constructor
  · rw [prevPc, seekPc_eq _ _ _ _ _ (by decide), if_pos hint, if_neg h]
  · rw [nextPc, seekPc_eq _ _ _ _ _ (by decide), if_pos hint, if_neg h]

/-- The offset before the one found, if there is one. -/
theorem prevPc_found {i : Nat} (hindex : indexOfPc (wcrnOffsetList pc.fidx).contents pc = i)
    (h : i < (wcrnOffsetList pc.fidx).contents.length) (hint : i < 2 ^ 31) :
    prevPc wcrnOffsetList pc =
      ((wcrnOffsetList pc.fidx).contents[i - 1]?).map fun off => ⟨pc.fidx, off.toUInt64⟩ := by
  rw [prevPc, seekPc_eq _ _ _ _ _ (by decide), Nat.zero_add, hindex, if_pos hint, if_pos h, besidePc]
  by_cases hpos : i > 0
  · rw [if_pos hpos, Option.bind_some]
  · obtain rfl : i = 0 := by omega
    rfl

/-- The offset behind the one found, but for the first. -/
theorem nextPc_found {i : Nat} (hindex : indexOfPc (wcrnOffsetList pc.fidx).contents pc = i)
    (h : i < (wcrnOffsetList pc.fidx).contents.length) (hint : i < 2 ^ 31) :
    nextPc wcrnOffsetList pc = besidePc (wcrnOffsetList pc.fidx) intSucc pc i := by
  rw [nextPc, seekPc_eq _ _ _ _ _ (by decide), Nat.zero_add, hindex, if_pos hint, if_pos h]

theorem nextPc_behind {i : Nat} (hindex : indexOfPc (wcrnOffsetList pc.fidx).contents pc = i) (hpos : 0 < i)
    (h : i < (wcrnOffsetList pc.fidx).contents.length) (hint : i + 1 < 2 ^ 31) :
    nextPc wcrnOffsetList pc =
      ((wcrnOffsetList pc.fidx).contents[i + 1]?).map fun off => ⟨pc.fidx, off.toUInt64⟩ := by
  rw [nextPc_found hindex h (Nat.lt_of_succ_lt hint), besidePc, if_pos hpos, intSucc, if_pos hint, Option.bind_some]

/-- At the first offset it stays. -/
theorem nextPc_first (hindex : indexOfPc (wcrnOffsetList pc.fidx).contents pc = 0)
    (h : 0 < (wcrnOffsetList pc.fidx).contents.length) : nextPc wcrnOffsetList pc = some pc := by
  obtain ⟨off, hoff, hpc⟩ := getElem?_indexOfPc (hindex.symm ▸ h)
  rw [hindex] at hoff
  rw [nextPc_found hindex h (by decide), besidePc, if_neg (Nat.lt_irrefl 0), Option.bind_some, hoff, Option.map_some,
    ← hpc]

/-- Behind the last offset, or the last an `int` counts, there is nothing to read. -/
theorem nextPc_last {i : Nat} (hindex : indexOfPc (wcrnOffsetList pc.fidx).contents pc = i) (hpos : 0 < i)
    (h : i < (wcrnOffsetList pc.fidx).contents.length) (hint : i < 2 ^ 31)
    (hlast : ¬ (i + 1 < (wcrnOffsetList pc.fidx).contents.length ∧ i + 1 < 2 ^ 31)) :
    nextPc wcrnOffsetList pc = none := by
  by_cases hsucc : i + 1 < 2 ^ 31
  · have hend : (wcrnOffsetList pc.fidx).contents.length ≤ i + 1 := by omega
    rw [nextPc_behind hindex hpos h hsucc, List.getElem?_eq_none hend, Option.map_none]
  · rw [nextPc_found hindex h hint, besidePc, if_pos hpos, intSucc, if_neg hsucc, Option.bind_none]

end

/-! ### Bounds -/

/-- A step that reads only offsets of the list and returns one of them, or the one it was
given. -/
def InBounds (wcrnOffsetList : UInt32 → Array32) (pc : CodePos) (stepped : Option CodePos) : Prop :=
  ∃ pc', stepped = some pc' ∧ pc'.fidx = pc.fidx ∧
    (pc'.offset = pc.offset ∨ ∃ off ∈ (wcrnOffsetList pc.fidx).contents, pc'.offset = off.toUInt64)

section
variable {wcrnOffsetList : UInt32 → Array32} {pc : CodePos}

theorem not_inBounds_none : ¬ InBounds wcrnOffsetList pc none := by
  intro h
  obtain ⟨pc', hstepped, -⟩ := h
  cases hstepped

theorem inBounds_self : InBounds wcrnOffsetList pc (some pc) := ⟨pc, rfl, rfl, Or.inl rfl⟩

theorem inBounds_getElem {j : Nat} (hj : j < (wcrnOffsetList pc.fidx).contents.length) :
    InBounds wcrnOffsetList pc
      (((wcrnOffsetList pc.fidx).contents[j]?).map fun off => ⟨pc.fidx, off.toUInt64⟩) := by
  refine ⟨⟨pc.fidx, (wcrnOffsetList pc.fidx).contents[j].toUInt64⟩, ?_, rfl, Or.inr ⟨_, List.getElem_mem hj, rfl⟩⟩
  rw [List.getElem?_eq_getElem hj, Option.map_some]

end

/-- `prev_pc` stays in bounds as far as an `int` counts. `next_pc` moreover needs an offset
behind the one it finds, if that is not the first. -/
theorem codePos_bounds_iff (wcrnOffsetList : UInt32 → Array32) (pc : CodePos) :
    (InBounds wcrnOffsetList pc (prevPc wcrnOffsetList pc) ↔
      indexOfPc (wcrnOffsetList pc.fidx).contents pc < 2 ^ 31) ∧
    (InBounds wcrnOffsetList pc (nextPc wcrnOffsetList pc) ↔
      indexOfPc (wcrnOffsetList pc.fidx).contents pc < 2 ^ 31 ∧
      (0 < indexOfPc (wcrnOffsetList pc.fidx).contents pc →
        indexOfPc (wcrnOffsetList pc.fidx).contents pc < (wcrnOffsetList pc.fidx).contents.length →
        indexOfPc (wcrnOffsetList pc.fidx).contents pc + 1 < (wcrnOffsetList pc.fidx).contents.length ∧
          indexOfPc (wcrnOffsetList pc.fidx).contents pc + 1 < 2 ^ 31)) := by
  by_cases hint : indexOfPc (wcrnOffsetList pc.fidx).contents pc < 2 ^ 31
  · rw [and_iff_right hint]
    by_cases hfound : indexOfPc (wcrnOffsetList pc.fidx).contents pc < (wcrnOffsetList pc.fidx).contents.length
    · constructor
      · rw [prevPc_found rfl hfound hint]
        exact iff_of_true (inBounds_getElem (by omega)) hint
      by_cases hpos : 0 < indexOfPc (wcrnOffsetList pc.fidx).contents pc
      · constructor
        · intro h _ _
          by_contra hlast
          rw [nextPc_last rfl hpos hfound hint hlast] at h
          exact not_inBounds_none h
        · intro h
          obtain ⟨hbehind, hsucc⟩ := h hpos hfound
          rw [nextPc_behind rfl hpos hfound hsucc]
          exact inBounds_getElem hbehind
      · have hzero : indexOfPc (wcrnOffsetList pc.fidx).contents pc = 0 := by omega
        rw [nextPc_first hzero (by omega)]
        exact iff_of_true inBounds_self fun h => absurd h hpos
    · obtain ⟨hprev, hnext⟩ := seekPc_absent hfound hint
      rw [hprev, hnext]
      exact ⟨iff_of_true inBounds_self hint, iff_of_true inBounds_self fun _ h => absurd h hfound⟩
  · obtain ⟨hprev, hnext⟩ := seekPc_overflow hint
    rw [hprev, hnext]
    exact ⟨iff_of_false not_inBounds_none hint, iff_of_false not_inBounds_none fun h => hint h.1⟩

/-- Every function has two offsets, 0 and 4. -/
def twoOffsets : UInt32 → Array32 := fun _ => ⟨2, [0, 4], rfl⟩

/-- `next_pc` reads behind the list at its last offset. -/
theorem codePos_not_inBounds :
    ¬ ∀ wcrnOffsetList pc, InBounds wcrnOffsetList pc (prevPc wcrnOffsetList pc) ∧
      InBounds wcrnOffsetList pc (nextPc wcrnOffsetList pc) := by
  intro h
  have hnext : nextPc twoOffsets ⟨0, 4⟩ = none := by decide
  obtain ⟨pc', hpc', -⟩ := (h twoOffsets ⟨0, 4⟩).2
  rw [hnext] at hpc'
  cases hpc'

/-! ### The walk -/

/-- The steps from a position are to its neighbours in the list, if it is there, and undo each
other. -/
structure Walks (wcrnOffsetList : UInt32 → Array32) (pc : CodePos) : Prop where
  next : ∀ i off, (wcrnOffsetList pc.fidx).contents[i]? = some off → pc.offset = off.toUInt64 →
    nextPc wcrnOffsetList pc =
      some ⟨pc.fidx, (((wcrnOffsetList pc.fidx).contents[i + 1]?).getD off).toUInt64⟩
  prev : ∀ i off, (wcrnOffsetList pc.fidx).contents[i]? = some off → pc.offset = off.toUInt64 →
    prevPc wcrnOffsetList pc =
      some ⟨pc.fidx, (((wcrnOffsetList pc.fidx).contents[i - 1]?).getD off).toUInt64⟩
  prev_next : ∀ i off, (wcrnOffsetList pc.fidx).contents[i]? = some off → pc.offset = off.toUInt64 →
    i + 1 < (wcrnOffsetList pc.fidx).contents.length →
    (nextPc wcrnOffsetList pc).bind (prevPc wcrnOffsetList) = some pc
  next_prev : ∀ i off, (wcrnOffsetList pc.fidx).contents[i]? = some off → pc.offset = off.toUInt64 → 0 < i →
    (prevPc wcrnOffsetList pc).bind (nextPc wcrnOffsetList) = some pc
  absent : (∀ off ∈ (wcrnOffsetList pc.fidx).contents, pc.offset ≠ off.toUInt64) →
    nextPc wcrnOffsetList pc = some pc ∧ prevPc wcrnOffsetList pc = some pc

/-- A position that is not in the list, that is all there is in it, or that is neither one
of the first two offsets nor the last; an `int` counts as far. -/
def WellInside (offsets : List UInt32) (pc : CodePos) : Prop :=
  indexOfPc offsets pc < 2 ^ 31 ∧
    (indexOfPc offsets pc < offsets.length → offsets.length = 1 ∨
      2 ≤ indexOfPc offsets pc ∧ indexOfPc offsets pc + 1 < offsets.length ∧ indexOfPc offsets pc + 1 < 2 ^ 31)

section
variable {wcrnOffsetList : UInt32 → Array32} {pc : CodePos}

/-- The offset at an index, as a position. -/
theorem indexOfPc_getElem (hnodup : (wcrnOffsetList pc.fidx).contents.Nodup) {j : Nat} {off : UInt32}
    (hj : (wcrnOffsetList pc.fidx).contents[j]? = some off) :
    indexOfPc (wcrnOffsetList (⟨pc.fidx, off.toUInt64⟩ : CodePos).fidx).contents ⟨pc.fidx, off.toUInt64⟩ = j :=
  indexOfPc_eq hnodup hj rfl

/-- Well inside the list the steps are to the neighbours, and lead back. -/
theorem walks_inside (hnodup : (wcrnOffsetList pc.fidx).contents.Nodup) {k : Nat}
    (hindex : indexOfPc (wcrnOffsetList pc.fidx).contents pc = k) (hfirst : 2 ≤ k)
    (hlast : k + 1 < (wcrnOffsetList pc.fidx).contents.length) (hint : k + 1 < 2 ^ 31) :
    Walks wcrnOffsetList pc := by
  have hk : k < (wcrnOffsetList pc.fidx).contents.length := by omega
  obtain ⟨off, hoff, hpc⟩ := getElem?_indexOfPc (hindex.symm ▸ hk)
  rw [hindex] at hoff
  have hafter := List.getElem?_eq_getElem hlast
  have hbefore := List.getElem?_eq_getElem (show k - 1 < (wcrnOffsetList pc.fidx).contents.length by omega)
  generalize (wcrnOffsetList pc.fidx).contents[k + 1] = after at hafter
  generalize (wcrnOffsetList pc.fidx).contents[k - 1] = before at hbefore
  have hnext : nextPc wcrnOffsetList pc = some ⟨pc.fidx, after.toUInt64⟩ := by
    rw [nextPc_behind hindex (by omega) hk hint, hafter, Option.map_some]
  have hprev : prevPc wcrnOffsetList pc = some ⟨pc.fidx, before.toUInt64⟩ := by
    rw [prevPc_found hindex hk (by omega), hbefore, Option.map_some]
  have hself : (⟨pc.fidx, off.toUInt64⟩ : CodePos) = pc := by rw [← hpc]
  have hwhere : ∀ {i off'}, (wcrnOffsetList pc.fidx).contents[i]? = some off' → pc.offset = off'.toUInt64 → i = k :=
    fun hi hpc' => (indexOfPc_eq hnodup hi hpc').symm.trans hindex
  constructor
  · intro i off' hi hpc'
    rw [hwhere hi hpc', hafter, hnext, Option.getD_some]
  · intro i off' hi hpc'
    rw [hwhere hi hpc', hbefore, hprev, Option.getD_some]
  · intro i off' _ _ _
    have hback := prevPc_found (indexOfPc_getElem hnodup hafter) hlast hint
    rw [Nat.add_sub_cancel, hoff, Option.map_some, hself] at hback
    rw [hnext, Option.bind_some, hback]
  · intro i off' _ _ _
    have hback := nextPc_behind (indexOfPc_getElem hnodup hbefore) (by omega)
      (show k - 1 < (wcrnOffsetList pc.fidx).contents.length by omega) (by omega)
    rw [Nat.sub_add_cancel (by omega), hoff, Option.map_some, hself] at hback
    rw [hprev, Option.bind_some, hback]
  · intro habsent
    exact absurd hpc (habsent off (List.mem_of_getElem? hoff))

/-- In a list of one offset both steps stay. -/
theorem walks_alone (hone : (wcrnOffsetList pc.fidx).contents.length = 1)
    (hfound : indexOfPc (wcrnOffsetList pc.fidx).contents pc < (wcrnOffsetList pc.fidx).contents.length) :
    Walks wcrnOffsetList pc := by
  have hindex : indexOfPc (wcrnOffsetList pc.fidx).contents pc = 0 := by omega
  obtain ⟨off, hoff, hpc⟩ := getElem?_indexOfPc hfound
  rw [hindex] at hoff
  have hnext : nextPc wcrnOffsetList pc = some pc := nextPc_first hindex (by omega)
  have hprev : prevPc wcrnOffsetList pc = some pc := by
    rw [prevPc_found hindex (by omega) (by decide), hoff, Option.map_some, ← hpc]
  have hzero : ∀ {i off'}, (wcrnOffsetList pc.fidx).contents[i]? = some off' → i = 0 := by
    intro i off' hi
    have hlt := (List.getElem?_eq_some_iff.mp hi).1
    omega
  constructor
  · intro i off' hi hpc'
    rw [hnext, hzero hi, List.getElem?_eq_none (by omega), Option.getD_none, ← hpc']
  · intro i off' hi hpc'
    obtain rfl := hzero hi
    rw [hprev, hi, Option.getD_some, ← hpc']
  · intro i off' _ _ hlt
    omega
  · intro i off' hi _ hpos
    have hi' := hzero hi
    omega
  · intro _
    exact ⟨hnext, hprev⟩

/-- A position whose steps are right is well inside, or they do not move. -/
theorem Walks.wellInside (hnodup : (wcrnOffsetList pc.fidx).contents.Nodup) (h : Walks wcrnOffsetList pc) :
    WellInside (wcrnOffsetList pc.fidx).contents pc := by
  by_cases hfound : indexOfPc (wcrnOffsetList pc.fidx).contents pc < (wcrnOffsetList pc.fidx).contents.length
  · obtain ⟨off, hoff, hpc⟩ := getElem?_indexOfPc hfound
    have hint : indexOfPc (wcrnOffsetList pc.fidx).contents pc < 2 ^ 31 := by
      by_contra hover
      have hprev := h.prev _ off hoff hpc
      rw [(seekPc_overflow hover).1] at hprev
      cases hprev
    refine ⟨hint, fun _ => or_iff_not_imp_left.mpr fun hmore => ?_⟩
    have hnext := h.next _ off hoff hpc
    have hback := h.next_prev _ off hoff hpc
    generalize hindex : indexOfPc (wcrnOffsetList pc.fidx).contents pc = k at hfound hoff hint hnext hback ⊢
    obtain rfl | hpos := Nat.eq_zero_or_pos k
    · -- The first of several offsets: `next_pc` stays there.
      have hsecond := List.getElem?_eq_getElem (show 0 + 1 < (wcrnOffsetList pc.fidx).contents.length by omega)
      rw [hsecond, Option.getD_some, nextPc_first hindex hfound] at hnext
      have hsame := (congrArg CodePos.offset (Option.some.inj hnext)).symm.trans hpc
      rw [toUInt64_inj hsame] at hsecond
      have hzero := (List.getElem?_inj hfound hnodup).mp (hoff.trans hsecond.symm)
      omega
    have hmiddle : k + 1 < (wcrnOffsetList pc.fidx).contents.length ∧ k + 1 < 2 ^ 31 := by
      by_contra hlast
      rw [nextPc_last hindex hpos hfound hint hlast] at hnext
      cases hnext
    refine ⟨?_, hmiddle⟩
    by_contra hone
    obtain rfl : k = 1 := by omega
    -- The second offset: from the one before it `next_pc` does not come back.
    have hzero : 0 < (wcrnOffsetList pc.fidx).contents.length := by omega
    have hfirst := List.getElem?_eq_getElem hzero
    specialize hback Nat.one_pos
    rw [prevPc_found hindex hfound hint, Nat.sub_self, hfirst, Option.map_some, Option.bind_some,
      nextPc_first (indexOfPc_getElem hnodup hfirst) hzero] at hback
    have hsame := (congrArg CodePos.offset (Option.some.inj hback)).trans hpc
    rw [toUInt64_inj hsame] at hfirst
    have himpossible := (List.getElem?_inj hzero hnodup).mp (hfirst.trans hoff.symm)
    omega
  · refine ⟨?_, fun hlt => absurd hlt hfound⟩
    by_contra hover
    obtain ⟨hnext, -⟩ := h.absent fun off hmem hpc => hfound (indexOfPc_lt_iff.mpr ⟨off, hmem, hpc⟩)
    rw [(seekPc_overflow hover).2] at hnext
    cases hnext

end

/-- Over an increasing list of offsets the two steps walk the list and undo each other
exactly at the positions well inside it. -/
theorem codePos_walk_iff (wcrnOffsetList : UInt32 → Array32) (pc : CodePos)
    (hincreasing : (wcrnOffsetList pc.fidx).contents.Pairwise (· < ·)) :
    Walks wcrnOffsetList pc ↔ WellInside (wcrnOffsetList pc.fidx).contents pc := by
  have hnodup := nodup_of_increasing hincreasing
  constructor
  · exact Walks.wellInside hnodup
  · intro h
    obtain ⟨hint, hinside⟩ := h
    by_cases hfound : indexOfPc (wcrnOffsetList pc.fidx).contents pc < (wcrnOffsetList pc.fidx).contents.length
    · obtain hone | ⟨hfirst, hlast, hint'⟩ := hinside hfound
      · exact walks_alone hone hfound
      · exact walks_inside hnodup rfl hfirst hlast hint'
    · obtain ⟨hprev, hnext⟩ := seekPc_absent hfound hint
      have hnowhere : ∀ {i : Nat} {off : UInt32}, (wcrnOffsetList pc.fidx).contents[i]? = some off →
          pc.offset ≠ off.toUInt64 :=
        fun hi hpc => hfound (indexOfPc_lt_iff.mpr ⟨_, List.mem_of_getElem? hi, hpc⟩)
      exact ⟨fun i off hi hpc => absurd hpc (hnowhere hi), fun i off hi hpc => absurd hpc (hnowhere hi),
        fun i off hi hpc => absurd hpc (hnowhere hi), fun i off hi hpc => absurd hpc (hnowhere hi),
        fun _ => ⟨hnext, hprev⟩⟩

theorem twoOffsets_increasing (fidx : UInt32) : (twoOffsets fidx).contents.Pairwise (· < ·) :=
  show [(0 : UInt32), 4].Pairwise (· < ·) by decide

/-- Every function has four instructions. -/
def fourOffsets : UInt32 → Array32 := fun _ => ⟨4, [0, 4, 6, 9], rfl⟩

/-- From the third of four offsets the steps are to the second and to the last. -/
theorem codePos_walk_iff_third :
    Walks fourOffsets ⟨0, 6⟩ ∧ nextPc fourOffsets ⟨0, 6⟩ = some ⟨0, 9⟩ ∧ prevPc fourOffsets ⟨0, 6⟩ = some ⟨0, 4⟩ := by
  have hincreasing : (fourOffsets 0).contents.Pairwise (· < ·) :=
    show [(0 : UInt32), 4, 6, 9].Pairwise (· < ·) by decide
  have hinside : WellInside (fourOffsets 0).contents ⟨0, 6⟩ :=
    ⟨by decide, fun _ => .inr ⟨by decide, by decide, by decide⟩⟩
  have hwalks := (codePos_walk_iff fourOffsets ⟨0, 6⟩ hincreasing).mpr hinside
  exact ⟨hwalks, hwalks.next 2 6 rfl rfl, hwalks.prev 2 6 rfl rfl⟩

/-- From the first of two offsets `next_pc` does not step to the second. -/
theorem codePos_not_walks :
    ¬ ∀ wcrnOffsetList, (∀ fidx, (wcrnOffsetList fidx).contents.Pairwise (· < ·)) →
      ∀ pc, Walks wcrnOffsetList pc := by
  intro h
  have hstays : nextPc twoOffsets ⟨0, 0⟩ = some ⟨0, 0⟩ := by decide
  have hnext := (h twoOffsets twoOffsets_increasing ⟨0, 0⟩).next 0 0 rfl rfl
  rw [hstays] at hnext
  exact absurd hnext (by decide)

end Wasmig
