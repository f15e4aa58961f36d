import Mathlib.Algebra.GroupWithZero.Nat
import Mathlib.Data.List.Basic
import Wasmig.State.Serialize
import Wasmig.Utils

/-! Typed values in print (`state.cpp`, `debug.cpp`).

The values of a typed array lie in slots one behind the other, a value of type 1 in one
slot and one of type 2 in two. Two functions print them: `array32_to_string` keeps a
pointer to the next slot beside the index of the type, and decodes every value
(`showValues_decodes`); `print_typed_array` has one index for both, so a value in two
slots makes it pass over the next type. The two agree as long as no type is behind
a wide one (`walkers_agree_iff`). -/
namespace Wasmig
open Base

/-- How many slots values of these types take. -/
def slotSum (types : Bytes) : Nat := (types.map UInt8.toNat).sum

/-- A value in two slots, the high word first. -/
def wideValue (high low : UInt32) : UInt64 := high.toUInt64 <<< 32 ||| low.toUInt64

/-! ### `print_typed_array` -/

/-- The values loop of `print_typed_array`, the types from index `j` on still to be looked
at: the numbers it prints. It is `none` when it reads a slot that is not there, or its
`int` overflows. -/
def printValues (values : List UInt32) (j : Nat) : Bytes → Option (List UInt64)
  | [] => some []
  | ty :: types =>
    if ty = 1 then
      values[j]?.bind fun val32 => (intSucc j).bind fun j =>
        (printValues values j types).map (val32.toUInt64 :: ·)
    else if ty = 2 then
      values[j]?.bind fun high => (intSucc j).bind fun j => values[j]?.bind fun low =>
        -- `j` is the index of the types too: the next one is passed over.
        (intSucc j).bind fun j => (printValues values j types.tail).map (wideValue high low :: ·)
    else (intSucc j).bind fun j => printValues values j types
termination_by types => types.length
decreasing_by all_goals simp only [List.length_cons, List.length_tail]; omega

/-- The numbers `print_typed_array(typed_array)` prints as values. The types are counted by an
`int` first. -/
def printedNumbers (typedArray : TypedArray) : Option (List UInt64) :=
  if typedArray.types.size.toNat < 2 ^ 31 then
    printValues typedArray.values.contents 0 typedArray.types.contents
  else none

/-- Numbers with a blank behind each. -/
def spaced (numbers : List Nat) : String := String.join (numbers.map fun number => toString number ++ " ")

/-- What `print_typed_array(typed_array)` prints. -/
def printTypedArray (typedArray : TypedArray) : Option String :=
  (printedNumbers typedArray).map fun numbers =>
    "  types: " ++ spaced (typedArray.types.contents.map UInt8.toNat) ++ "\n" ++
      ("  values: " ++ spaced (numbers.map UInt64.toNat) ++ "\n")

/-! ### `array32_to_string` -/

/-- What `array32_to_string` puts out in one round. -/
inductive Shown where
  | number (value : UInt64)
  | s128
  | unknown (ty : UInt8)
deriving DecidableEq, Repr

def Shown.text : Shown → String
  | .number value => toString value.toNat
  | .s128 => "(S128)"
  | .unknown ty => "(Unknown: " ++ toString ty.toNat ++ ")"

/-- The error set in the round, if any. -/
def Shown.error : Shown → Option String
  | .number _ => none
  | .s128 => some "Not support S128"
  | .unknown ty => some ("Unknown type " ++ toString ty.toNat)

/-- The loop of `array32_to_string`: so many rounds from index `i` on, with the types from
there on and the slots from `sp` on. It is `none` when it reads a type or a slot that is
not there, or its `int` overflows. -/
def showValues : Nat → Nat → Bytes → List UInt32 → Option (List Shown)
  | 0, _, _, _ => some []
  | _ + 1, _, [], _ => none
  | n + 1, i, ty :: types, sp =>
    if ty = 1 then
      sp[0]?.bind fun value => (intSucc i).bind fun i =>
        (showValues n i types (sp.drop 1)).map (.number value.toUInt64 :: ·)
    else if ty = 2 then
      sp[0]?.bind fun high => sp[1]?.bind fun low => (intSucc i).bind fun i =>
        (showValues n i types (sp.drop 2)).map (.number (wideValue high low) :: ·)
    else (intSucc i).bind fun i =>
      (showValues n i types sp).map ((if ty = 4 then .s128 else .unknown ty) :: ·)

structure ArrayStringResult where
  output : String
  error : String
deriving DecidableEq, Repr

/-- `array32_to_string(oss, type_stack, array, name)` for an array of so many values, which
lie in these slots. -/
def array32ToString (oss : String) (typeStack : Array8) (size : UInt32) (slots : List UInt32)
    (name : String) : Option ArrayStringResult :=
  (showValues size.toNat 0 typeStack.contents slots).map fun shown =>
    ⟨oss ++ name ++ ": [" ++ ", ".intercalate (shown.map Shown.text) ++ "]",
      shown.foldl (fun error item => item.error.getD error) ""⟩

/-- `locals_to_string(type_stack, locals)`. -/
def localsToString (typeStack : Array8) (size : UInt32) (slots : List UInt32) : Option ArrayStringResult :=
  array32ToString "" typeStack size slots "locals"

/-- `value_stack_to_string(type_stack, value_stack)`. -/
def valueStackToString (typeStack : Array8) (size : UInt32) (slots : List UInt32) : Option ArrayStringResult :=
  array32ToString "" typeStack size slots "value stack"

/-! ### Decoding -/

/-- The value of type `ty` in the slots from `s` on; `none` when they do not hold it. -/
def slotValue (slots : List UInt32) (s : Nat) (ty : UInt8) : Option UInt64 :=
  if ty = 1 then slots[s]?.map UInt32.toUInt64
  else if ty = 2 then slots[s]?.bind fun high => slots[s + 1]?.map (wideValue high)
  else none

/-- One number for each type, the `k`-th from the slots behind those of the first `k` types. -/
structure Decodes (types : Bytes) (slots : List UInt32) (numbers : List UInt64) : Prop where
  count : numbers.length = types.length
  value : ∀ k ty, types[k]? = some ty →
    ∃ number, numbers[k]? = some number ∧ slotValue slots (slotSum (types.take k)) ty = some number

theorem slotSum_cons (ty : UInt8) (types : Bytes) : slotSum (ty :: types) = ty.toNat + slotSum types := by
  simp [slotSum]

/-- Types that all take a slot are no more than their slots. -/
theorem length_le_slotSum {types : Bytes} (hpos : ∀ ty ∈ types, ty ≠ 0) : types.length ≤ slotSum types := by
  induction types with
  | nil => exact Nat.le_refl _
  | cons ty types ih =>
    obtain ⟨hty, hrest⟩ := List.forall_mem_cons.mp hpos
    have hone : ty.toNat ≠ 0 := fun hzero => hty (UInt8.toNat.inj hzero)
    have hle := ih hrest
    rw [slotSum_cons, List.length_cons]
    omega

theorem slotValue_drop (slots : List UInt32) (n s : Nat) (ty : UInt8) :
    slotValue (slots.drop n) s ty = slotValue slots (n + s) ty := by
  simp only [slotValue, List.getElem?_drop, Nat.add_assoc]

theorem Decodes.nil (slots : List UInt32) : Decodes [] slots [] := ⟨rfl, by simp⟩

theorem Decodes.cons {ty : UInt8} {types : Bytes} {slots : List UInt32} {number : UInt64} {numbers : List UInt64}
    (hhead : slotValue slots 0 ty = some number) (htail : Decodes types (slots.drop ty.toNat) numbers) :
    Decodes (ty :: types) slots (number :: numbers) where
  count := congrArg (· + 1) htail.count
  value k ty' hk := by
    cases k with
    | zero =>
      obtain rfl : ty = ty' := Option.some.inj hk
      exact ⟨number, rfl, hhead⟩
    | succ k =>
      obtain ⟨number', hnumber, hvalue⟩ := htail.value k ty' hk
      refine ⟨number', hnumber, ?_⟩
      rw [List.take_succ_cons, slotSum_cons, ← slotValue_drop]
      exact hvalue

/-- The numbers are determined. -/
theorem Decodes.unique {types : Bytes} {slots : List UInt32} {numbers numbers' : List UInt64}
    (h : Decodes types slots numbers) (h' : Decodes types slots numbers') : numbers = numbers' := by
  apply List.ext_getElem?
  intro k
  cases hty : types[k]? with
  | none =>
    have hk : types.length ≤ k := List.getElem?_eq_none_iff.mp hty
    rw [List.getElem?_eq_none (h.count ▸ hk), List.getElem?_eq_none (h'.count ▸ hk)]
  | some ty =>
    obtain ⟨number, hnumber, hvalue⟩ := h.value k ty hty
    obtain ⟨number', hnumber', hvalue'⟩ := h'.value k ty hty
    rw [hnumber, hnumber', ← hvalue, hvalue']

/-- Slots that are there hold a value. -/
theorem slotValue_exists {ty : UInt8} (hty : ty = 1 ∨ ty = 2) (slots : List UInt32) {s : Nat}
    (hslots : s + ty.toNat ≤ slots.length) : ∃ number, slotValue slots s ty = some number := by
  obtain rfl | rfl := hty
  · have hvalue := List.getElem?_eq_getElem (Nat.lt_of_succ_le hslots)
    exact ⟨_, by rw [slotValue, if_pos rfl, hvalue, Option.map_some]⟩
  · have hlow := List.getElem?_eq_getElem (Nat.lt_of_succ_le hslots)
    have hhigh := List.getElem?_eq_getElem (Nat.lt_of_succ_lt (Nat.lt_of_succ_le hslots))
    exact ⟨_, by rw [slotValue, if_neg (by decide), if_pos rfl, hhigh, Option.bind_some, hlow, Option.map_some]⟩

/-- A round of `array32_to_string`: the pointer goes on by the slots of the value. -/
theorem showValues_cons {ty : UInt8} (hty : ty = 1 ∨ ty = 2) (n i : Nat) (types : Bytes) (sp : List UInt32) :
    showValues (n + 1) i (ty :: types) sp = (slotValue sp 0 ty).bind fun number => (intSucc i).bind fun i =>
      (showValues n i types (sp.drop ty.toNat)).map (.number number :: ·) := by
  obtain rfl | rfl := hty
  · cases hvalue : sp[0]? <;> simp [showValues, slotValue, hvalue]
  · cases hhigh : sp[0]? <;> cases hlow : sp[1]? <;> simp [showValues, slotValue, hhigh, hlow]

/-- `array32_to_string` decodes the values of any types 1 and 2 that have their slots. -/
theorem showValues_decodes {types : Bytes} (htypes : ∀ ty ∈ types, ty = 1 ∨ ty = 2) (i : Nat) (sp : List UInt32)
    (hslots : slotSum types ≤ sp.length) (hint : i + types.length < 2 ^ 31) :
    ∃ numbers, showValues types.length i types sp = some (numbers.map .number) ∧ Decodes types sp numbers := by
  induction types generalizing i sp with
  | nil => exact ⟨[], rfl, .nil sp⟩
  | cons ty types ih =>
    obtain ⟨hty, hrest⟩ := List.forall_mem_cons.mp htypes
    rw [slotSum_cons] at hslots
    rw [List.length_cons] at hint
    have hi : intSucc i = some (i + 1) := if_pos (by omega)
    obtain ⟨number, hnumber⟩ := slotValue_exists (s := 0) hty sp (by omega)
    obtain ⟨numbers, hshow, hdecodes⟩ :=
      ih hrest (i + 1) (sp.drop ty.toNat) (by rw [List.length_drop]; omega) (by omega)
    refine ⟨number :: numbers, ?_, .cons hnumber hdecodes⟩
    rw [List.length_cons, showValues_cons hty, hnumber, Option.bind_some, hi, Option.bind_some, hshow]
    rfl

/-- Numbers with a comma between them. -/
def listed (numbers : List Nat) : String := ", ".intercalate (numbers.map toString)

/-- Where all that it puts out are numbers it lists them, with no error. -/
theorem array32ToString_numbers {typeStack : Array8} {size : UInt32} {slots : List UInt32} {numbers : List UInt64}
    (hshow : showValues size.toNat 0 typeStack.contents slots = some (numbers.map .number)) (oss name : String) :
    array32ToString oss typeStack size slots name =
      some ⟨oss ++ name ++ ": [" ++ listed (numbers.map UInt64.toNat) ++ "]", ""⟩ := by
  have herror : (numbers.map Shown.number).foldl (fun error item => item.error.getD error) "" = "" := by
    rw [List.foldl_map]
    exact List.foldl_fixed _
  have htext : (numbers.map Shown.number).map Shown.text = (numbers.map UInt64.toNat).map toString := by
    rw [List.map_map, List.map_map]
    rfl
  rw [array32ToString, hshow, Option.map_some, herror, htext, listed]

example : localsToString ⟨3, [1, 2, 1], rfl⟩ 3 [100, 0, 200, 300] =
    some ⟨"locals: [100, 200, 300]", ""⟩ := by decide +kernel

/-! ### The two walkers -/

/-- No type stands behind a wide one. -/
def NarrowFirst (types : Bytes) : Prop := ∀ ty ∈ types.dropLast, ty = 1

theorem NarrowFirst.tail {ty : UInt8} {types : Bytes} (h : NarrowFirst (ty :: types)) : NarrowFirst types := by
  cases types with
  | nil => simp [NarrowFirst]
  | cons next types => exact fun ty hty => h ty (List.mem_cons_of_mem _ hty)

/-- A wide type is the last. -/
theorem NarrowFirst.wide {types : Bytes} (h : NarrowFirst (2 :: types)) : types = [] := by
  cases types with
  | nil => rfl
  | cons next types => exact absurd (h 2 (List.mem_cons_self ..)) (by decide)

/-- With no type behind a wide one `print_typed_array` decodes the values. -/
theorem printValues_decodes {types : Bytes} (htypes : ∀ ty ∈ types, ty = 1 ∨ ty = 2)
    (hnarrow : NarrowFirst types) (values : List UInt32) (j : Nat)
    (hslots : j + slotSum types ≤ values.length) (hint : j + slotSum types < 2 ^ 31) :
    ∃ numbers, printValues values j types = some numbers ∧ Decodes types (values.drop j) numbers := by
  induction types generalizing j with
  | nil => exact ⟨[], by rw [printValues], .nil _⟩
  | cons ty types ih =>
    obtain ⟨hty, hrest⟩ := List.forall_mem_cons.mp htypes
    rw [slotSum_cons] at hslots hint
    obtain rfl | rfl := hty
    · change j + (1 + slotSum types) ≤ _ at hslots
      change j + (1 + slotSum types) < _ at hint
      obtain ⟨numbers, hprint, hdecodes⟩ := ih hrest hnarrow.tail (j + 1) (by omega) (by omega)
      have hvalue : values[j]? = some values[j] := List.getElem?_eq_getElem (by omega)
      have hj : intSucc j = some (j + 1) := if_pos (by omega)
      refine ⟨values[j].toUInt64 :: numbers, ?_, .cons ?_ ?_⟩
      · simp [printValues, hvalue, hj, hprint]
      · simp [slotValue, hvalue]
      · rw [List.drop_drop]
        exact hdecodes
    · obtain rfl := hnarrow.wide
      change j + 2 ≤ _ at hslots
      change j + 2 < _ at hint
      have hhigh : values[j]? = some values[j] := List.getElem?_eq_getElem (by omega)
      have hlow : values[j + 1]? = some values[j + 1] := List.getElem?_eq_getElem (by omega)
      have hj : intSucc j = some (j + 1) := if_pos (by omega)
      have hj' : intSucc (j + 1) = some (j + 2) := if_pos (by omega)
      refine ⟨[wideValue values[j] values[j + 1]], ?_, .cons ?_ (.nil _)⟩
      · simp [printValues, hhigh, hlow, hj, hj']
      · simp [slotValue, hhigh, hlow]

/-- It prints at most one number for each type. -/
theorem printValues_length_le {values : List UInt32} {types : Bytes} {j : Nat} {numbers : List UInt64}
    (hprint : printValues values j types = some numbers) : numbers.length ≤ types.length := by
  fun_induction printValues values j types generalizing numbers with
  | case1 j =>
    obtain rfl : [] = numbers := Option.some.inj hprint
    exact Nat.le_refl _
  | case2 j types ih =>
    simp only [Option.bind_eq_some_iff, Option.map_eq_some_iff] at hprint
    obtain ⟨val32, -, j', -, numbers, hprint, rfl⟩ := hprint
    exact Nat.succ_le_succ (ih j' hprint)
  | case3 j types _ ih =>
    simp only [Option.bind_eq_some_iff, Option.map_eq_some_iff] at hprint
    obtain ⟨high, -, j', -, low, -, j'', -, numbers, hprint, rfl⟩ := hprint
    have hle := ih j'' hprint
    rw [List.length_tail] at hle
    simp only [List.length_cons]
    omega
  | case4 j ty types _ _ ih =>
    obtain ⟨j', -, hprint⟩ := Option.bind_eq_some_iff.mp hprint
    exact Nat.le_succ_of_le (ih j' hprint)

/-- When it prints as many it has passed over none, and its index has gone over all slots. -/
theorem printValues_full {values : List UInt32} {types : Bytes} {j : Nat} {numbers : List UInt64}
    (hprint : printValues values j types = some numbers) (hcount : numbers.length = types.length)
    (hj : j < 2 ^ 31) : NarrowFirst types ∧ j + slotSum types < 2 ^ 31 := by
  fun_induction printValues values j types generalizing numbers with
  | case1 j => exact ⟨by simp [NarrowFirst], hj⟩
  | case2 j types ih =>
    simp only [Option.bind_eq_some_iff, Option.map_eq_some_iff, intSucc_eq_some] at hprint
    obtain ⟨val32, -, j', ⟨hj', rfl⟩, numbers, hprint, rfl⟩ := hprint
    obtain ⟨hnarrow, hint⟩ := ih (j + 1) hprint (Nat.succ.inj hcount) hj'
    refine ⟨?_, ?_⟩
    · cases types with
      | nil => simp [NarrowFirst]
      | cons next types => exact List.forall_mem_cons.mpr ⟨rfl, hnarrow⟩
    · rw [slotSum_cons]
      change j + (1 + slotSum types) < _
      omega
  | case3 j types _ ih =>
    simp only [Option.bind_eq_some_iff, Option.map_eq_some_iff, intSucc_eq_some] at hprint
    obtain ⟨high, -, j', ⟨-, rfl⟩, low, -, j'', ⟨hj'', rfl⟩, numbers, hprint, rfl⟩ := hprint
    have hle := printValues_length_le hprint
    rw [List.length_tail] at hle
    simp only [List.length_cons] at hcount
    obtain rfl : types = [] := List.eq_nil_of_length_eq_zero (by omega)
    exact ⟨by simp [NarrowFirst], hj''⟩
  | case4 j ty types _ _ ih =>
    obtain ⟨j', -, hprint⟩ := Option.bind_eq_some_iff.mp hprint
    have hle := printValues_length_le hprint
    rw [List.length_cons] at hcount
    omega

/-- The two walkers agree with the values and with each other, and so does what they print. -/
structure WalkersAgree (typedArray : TypedArray) (numbers : List UInt64) : Prop where
  decodes : Decodes typedArray.types.contents typedArray.values.contents numbers
  printed : printedNumbers typedArray = some numbers
  shown : showValues typedArray.types.size.toNat 0 typedArray.types.contents typedArray.values.contents =
    some (numbers.map .number)
  printedText : printTypedArray typedArray =
    some ("  types: " ++ spaced (typedArray.types.contents.map UInt8.toNat) ++ "\n" ++
      ("  values: " ++ spaced (numbers.map UInt64.toNat) ++ "\n"))
  shownText (oss name : String) :
    array32ToString oss typedArray.types typedArray.types.size typedArray.values.contents name =
      some ⟨oss ++ name ++ ": [" ++ listed (numbers.map UInt64.toNat) ++ "]", ""⟩

/-- Walkers that agree on the numbers print the same. -/
theorem WalkersAgree.ofNumbers {typedArray : TypedArray} {numbers : List UInt64}
    (hdecodes : Decodes typedArray.types.contents typedArray.values.contents numbers)
    (hprinted : printedNumbers typedArray = some numbers)
    (hshow : showValues typedArray.types.size.toNat 0 typedArray.types.contents typedArray.values.contents =
      some (numbers.map .number)) : WalkersAgree typedArray numbers := by
  refine ⟨hdecodes, hprinted, hshow, ?_, array32ToString_numbers hshow⟩
  rw [printTypedArray, hprinted, Option.map_some]

/-- On an array of types 1 and 2 that has their slots, both functions decode and print one number
for each type, the `k`-th from the slots behind those of the first `k`, without leaving the
slots, exactly when no type is behind a wide one and an `int` counts the slots. -/
theorem walkers_agree_iff (typedArray : TypedArray)
    (htypes : ∀ ty ∈ typedArray.types.contents, ty = 1 ∨ ty = 2)
    (hsize : typedArray.values.size.toNat = slotSum typedArray.types.contents) :
    (∃ numbers, WalkersAgree typedArray numbers) ↔
      NarrowFirst typedArray.types.contents ∧ typedArray.values.size.toNat < 2 ^ 31 := by
  have hlength := typedArray.types.length_contents
  have hslots : typedArray.values.contents.length = slotSum typedArray.types.contents :=
    typedArray.values.length_contents.trans hsize
  rw [hsize]
  constructor
  · intro h
    obtain ⟨numbers, h⟩ := h
    have hprinted := h.printed
    have hprint : printValues typedArray.values.contents 0 typedArray.types.contents = some numbers := by
      unfold printedNumbers at hprinted
      split at hprinted
      · exact hprinted
      · cases hprinted
    simpa using printValues_full hprint h.decodes.count (by decide)
  · intro h
    obtain ⟨hnarrow, hint⟩ := h
    have hpos : ∀ ty ∈ typedArray.types.contents, ty ≠ 0 := by
      rintro ty hty rfl
      exact absurd (htypes 0 hty) (by decide)
    have hle := length_le_slotSum hpos
    obtain ⟨numbers, hprint, hdecodes⟩ := printValues_decodes htypes hnarrow typedArray.values.contents 0
      (by omega) (by omega)
    obtain ⟨numbers', hshow, hdecodes'⟩ := showValues_decodes htypes 0 typedArray.values.contents
      (by omega) (by omega)
    obtain rfl := hdecodes.unique hdecodes'
    refine ⟨numbers, .ofNumbers hdecodes ?_ (hlength ▸ hshow)⟩
    rw [printedNumbers, if_pos (by omega)]
    exact hprint

/-- Two values in one slot each and one in two behind them. -/
def wideLast : TypedArray := ⟨⟨3, [1, 1, 2], rfl⟩, ⟨4, [7, 8, 1, 5], rfl⟩⟩

theorem walkers_agree_iff_wide_last : ∃ numbers, WalkersAgree wideLast numbers :=
  (walkers_agree_iff wideLast (by simp [wideLast]) rfl).mpr ⟨by simp [NarrowFirst, wideLast], by decide⟩

/-- Two values in two slots each, 200 and 300. -/
def wideFirst : TypedArray := ⟨⟨2, [2, 2], rfl⟩, ⟨4, [0, 200, 0, 300], rfl⟩⟩

/-- The type behind the first is passed over, so 300 is not printed. -/
theorem wideFirst_printed : printedNumbers wideFirst = some [200] := by
  have hwide : wideValue 0 200 = 200 := by decide
  simp [printedNumbers, wideFirst, printValues, intSucc, hwide]

theorem walkers_disagree :
    ¬ ∀ typedArray : TypedArray, (∀ ty ∈ typedArray.types.contents, ty = 1 ∨ ty = 2) →
      typedArray.values.size.toNat = slotSum typedArray.types.contents →
        ∃ numbers, WalkersAgree typedArray numbers := by
  intro h
  obtain ⟨numbers, h⟩ := h wideFirst (by simp [wideFirst]) rfl
  obtain rfl : [200] = numbers := Option.some.inj (wideFirst_printed.symm.trans h.printed)
  exact absurd h.decodes.count (by decide)

end Wasmig
