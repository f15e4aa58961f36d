import Mathlib.Algebra.GroupWithZero.Nat
import Wasmig.Base.Stdio

/-! Streams that stay open, and what of their output survives.

A stream opened for update can be flushed, rewound and its file truncated, and used
again for the next image (`fflush`, `rewind`, `ftruncate`). `Lays` is what is known of
one that goes over the bytes its file held before. What it holds back depends on the
environment's answers and on the lengths of the writes alone (`heldBack`), and so does what
a last flush or close puts in the file (`fflush_lays`, `fclose_lays`): no writer of this
library need be looked at again to see when a block of output is complete. -/
namespace Base.Stdio

section
variable {π : Type} [DecidableEq π]

/-! ### Calls -/

/-- What an `fflush` leaves: its code, the stream and the files. -/
structure Flushed (π : Type) where
  code : Int
  fp : Writer π
  world : World π

/-- `fflush(fp)`: what was held back reaches the file, or a prefix of it does and the rest
is lost. Nothing is written when nothing was held back. -/
def fflush (w : World π) (fp : Writer π) : Flushed π :=
  if fp.pending = [] then ⟨0, fp, w⟩ else
  match w.fault w.calls with
  | none =>
    ⟨0, {fp with pos := fp.pos + fp.pending.length, pending := []}, w.tick.land fp fp.pending fp.pending.length⟩
  | some n =>
    ⟨if n < fp.pending.length then -1 else 0, {fp with pos := fp.pos + (fp.pending.take n).length, pending := []},
      w.tick.land fp fp.pending n⟩

/-- `rewind(fp)`: flushed, and back at the start. -/
def rewind (w : World π) (fp : Writer π) : Writer π × World π :=
  ({(fflush w fp).fp with pos := 0}, (fflush w fp).world)

/-- `ftruncate(fileno(fp), 0)`: its code and the files. -/
def ftruncate (w : World π) (fp : Writer π) : Int × World π :=
  match w.fault w.calls with
  | none => (0, {w.tick with files := Function.update w.files fp.path ((w.files fp.path).map fun _ => [])})
  | some _ => (-1, w.tick)

/-- `fwrite(data, size, 1, fp)` for data of `size` bytes; an item of no bytes leaves the
stream as it is. -/
def fwriteItem (w : World π) (fp : Writer π) (data : Bytes) : Written π :=
  if data = [] then ⟨0, fp, w⟩ else fwrite w fp data.length data

/-! ### What survives -/

/-- The answer lets `n` bytes through. -/
def Passes (answer : Option Nat) (n : Nat) : Prop := ∀ k, answer = some k → n ≤ k

/-- How many of `h` bytes the answer lets through. -/
def survivors (answer : Option Nat) (h : Nat) : Nat :=
  match answer with
  | none => h
  | some k => min k h

/-- How many bytes are held back once blocks of these lengths have been written from the
call `call` on, `h` being held back before; none when one of the writes is short. -/
def heldBack (fault : Nat → Option Nat) : Nat → Nat → List Nat → Option Nat
  | _, h, [] => some h
  | call, h, n :: ns =>
    match fault call with
    | none => heldBack fault (call + 1) (h + n) ns
    | some k => if h + n ≤ k then heldBack fault (call + 1) 0 ns else none

theorem survivors_le (answer : Option Nat) (h : Nat) : survivors answer h ≤ h := by
  cases answer with
  | none => exact Nat.le_refl h
  | some k => exact Nat.min_le_right k h

theorem survivors_eq_iff (answer : Option Nat) (h : Nat) : survivors answer h = h ↔ Passes answer h := by
  cases answer with
  | none => exact iff_of_true rfl fun k hk => by cases hk
  | some k =>
    show min k h = h ↔ _
    constructor
    · intro hmin k' hk'
      cases hk'
      omega
    · intro hpass
      exact Nat.min_eq_right (hpass k rfl)

theorem passes_none (n : Nat) : Passes none n := fun k hk => by cases hk

theorem heldBack_le {fault : Nat → Option Nat} {call h h' : Nat} {ns : List Nat}
    (hheld : heldBack fault call h ns = some h') : h' ≤ h + ns.sum := by
  induction ns generalizing call h with
  | nil =>
    cases hheld
    simp
  | cons n ns ih =>
    rw [heldBack] at hheld
    rw [List.sum_cons]
    split at hheld
    · have := ih hheld
      omega
    · split at hheld
      · have := ih hheld
        omega
      · cases hheld

/-! ### Going over a file -/

/-- `written` has gone through the stream, over a file that held `old`: a part of it is in
the file, the rest is held back. -/
structure Lays (old : Bytes) (w : World π) (fp : Writer π) (written : Bytes) : Prop where
  file : w.files fp.path = some (written.take fp.pos ++ old.drop fp.pos)
  pos : fp.pos ≤ written.length
  pending : fp.pending = written.drop fp.pos

/-- No file has gone, and the environment is the same. -/
structure Persists (w w' : World π) : Prop where
  files : ∀ q, (w.files q).isSome = true → (w'.files q).isSome = true
  fault : w'.fault = w.fault

omit [DecidableEq π] in
theorem Persists.refl (w : World π) : Persists w w := ⟨fun _ h => h, rfl⟩

omit [DecidableEq π] in
theorem Persists.trans {w w' w'' : World π} (h : Persists w w') (h' : Persists w' w'') : Persists w w'' :=
  ⟨fun q hq => h'.files q (h.files q hq), h'.fault.trans h.fault⟩

theorem land_persists (w : World π) (fp : Writer π) (data : Bytes) (n : Nat) :
    Persists w (w.tick.land fp data n) := by
  refine ⟨fun q hq => ?_, rfl⟩
  show (Function.update w.files fp.path _ q).isSome = true
  by_cases h : q = fp.path
  · rw [h, Function.update_self, Option.isSome_map]
    rw [h] at hq
    exact hq
  · rw [Function.update_of_ne h]
    exact hq

/-- A patch behind the part already gone over. -/
theorem patch_over (done old data : Bytes) :
    patch (done ++ old.drop done.length) done.length data = done ++ data ++ old.drop (done ++ data).length := by
  have hzeros : done.length - (done ++ old.drop done.length).length = 0 := by
    rw [List.length_append]
    omega
  rw [patch, List.take_left' rfl, hzeros, List.replicate_zero, List.append_nil, List.drop_append,
    List.drop_of_length_le (by omega), List.nil_append, List.drop_drop, List.length_append,
    Nat.add_sub_cancel_left]

section
variable {old written : Bytes} {w : World π} {fp : Writer π}

omit [DecidableEq π] in
theorem Lays.length (h : Lays old w fp written) : fp.pos + fp.pending.length = written.length := by
  rw [h.pending, List.length_drop]
  have := h.pos
  omega

/-- What lands of the bytes held back and of more is a prefix of all that was written. -/
theorem Lays.land (h : Lays old w fp written) (data : Bytes) (n : Nat) :
    Lays old (w.tick.land fp (fp.pending ++ data) n)
      {fp with pos := fp.pos + ((fp.pending ++ data).take n).length, pending := []}
      ((written ++ data).take (fp.pos + n)) := by
  have hall : written ++ data = written.take fp.pos ++ (fp.pending ++ data) := by
    rw [h.pending, ← List.append_assoc, List.take_append_drop]
  have hdone : (written.take fp.pos).length = fp.pos := List.length_take_of_le h.pos
  have hwritten : (written ++ data).take (fp.pos + n) = written.take fp.pos ++ (fp.pending ++ data).take n := by
    rw [hall, List.take_append, List.take_of_length_le (by omega), hdone, Nat.add_sub_cancel_left]
  have hlength : ((written ++ data).take (fp.pos + n)).length =
      fp.pos + ((fp.pending ++ data).take n).length := by
    rw [hwritten, List.length_append, hdone]
  have hpatch := patch_over (written.take fp.pos) old ((fp.pending ++ data).take n)
  rw [hdone, ← hwritten, hlength] at hpatch
  refine ⟨?_, ?_, ?_⟩
  · show (Function.update w.files fp.path ((w.files fp.path).map _)) fp.path = _
    rw [Function.update_self, h.file, Option.map_some, hpatch, List.take_of_length_le (Nat.le_of_eq hlength)]
  · exact Nat.le_of_eq hlength.symm
  · exact (List.drop_of_length_le (Nat.le_of_eq hlength)).symm

/-! ### Writing over it -/

theorem fwrite_frame (w : World π) (fp : Writer π) (size : Nat) (data : Bytes) :
    Frame fp.path w (fwrite w fp size data).world ∧ Persists w (fwrite w fp size data).world ∧
      (fwrite w fp size data).fp.path = fp.path := by
  unfold fwrite
  cases w.fault w.calls with
  | none => exact ⟨⟨fun _ _ => rfl, rfl⟩, ⟨fun _ h => h, rfl⟩, rfl⟩
  | some n => exact ⟨land_frame w fp _ _, land_persists w fp _ _, rfl⟩

theorem fwrite_calls (w : World π) (fp : Writer π) (size : Nat) (data : Bytes) :
    (fwrite w fp size data).world.calls = w.calls + 1 ∧ (fwrite w fp size data).world.fault = w.fault := by
  unfold fwrite
  cases w.fault w.calls with
  | none => exact ⟨rfl, rfl⟩
  | some n => exact ⟨rfl, rfl⟩

theorem fwrite_lays (h : Lays old w fp written) (size : Nat) (data : Bytes) :
    Lays old (fwrite w fp size data).world (fwrite w fp size data).fp
      (match w.fault w.calls with
        | none => written ++ data
        | some k => (written ++ data).take (fp.pos + k)) := by
  unfold fwrite
  cases w.fault w.calls with
  | none =>
    refine ⟨?_, ?_, ?_⟩
    · show w.files fp.path = _
      rw [h.file, List.take_append_of_le_length h.pos]
    · rw [List.length_append]
      exact Nat.le_trans h.pos (Nat.le_add_right ..)
    · show fp.pending ++ data = _
      rw [List.drop_append_of_le_length h.pos, h.pending]
  | some k => exact h.land data k

/-- Nothing is held back after a write that failed. -/
theorem fwrite_failed (w : World π) (fp : Writer π) (size : Nat) (data : Bytes) {n : Nat}
    (hfail : ¬ Passes (w.fault w.calls) n) : (fwrite w fp size data).fp.pending = [] := by
  unfold fwrite
  cases hfault : w.fault w.calls with
  | none => exact absurd (hfault ▸ passes_none n) hfail
  | some k => rfl

/-- A write is complete when its answer lets through what was held back and the data. -/
theorem fwrite_count (w : World π) (fp : Writer π) {size n : Nat} {data : Bytes} (hs : 0 < size)
    (hlen : data.length = size * n) (hn : 0 < n ∨ fp.pending = []) :
    (fwrite w fp size data).count = n ↔ Passes (w.fault w.calls) (fp.pending.length + data.length) := by
  unfold fwrite
  cases w.fault w.calls with
  | none =>
    refine iff_of_true ?_ (passes_none _)
    show data.length / size = n
    rw [hlen, Nat.mul_div_cancel_left n hs]
  | some k =>
    show min (k - fp.pending.length) data.length / size = n ↔ _
    constructor
    · intro hcount k' hk'
      cases hk'
      by_contra hlt
      have hless : min (k - fp.pending.length) data.length < size * n ∨ n = 0 := by
        rcases hn with hn | hn
        · have hpos : 0 < size * n := Nat.mul_pos hs hn
          omega
        · rw [hn] at hlt ⊢
          have hnil : ([] : Bytes).length = 0 := rfl
          omega
      rcases hless with hless | hzero
      · have := Nat.div_lt_of_lt_mul hless
        omega
      · rcases hn with hn | hn
        · omega
        · rw [hn, hlen, hzero] at hlt
          exact hlt (Nat.zero_le _)
    · intro hpass
      have hk := hpass k rfl
      rw [Nat.min_eq_right (by omega), hlen, Nat.mul_div_cancel_left n hs]

/-- A complete write, and what is held back after it. -/
theorem fwrite_complete (h : Lays old w fp written) (size : Nat) {data : Bytes} (ns : List Nat)
    (hpass : Passes (w.fault w.calls) (fp.pending.length + data.length)) :
    Lays old (fwrite w fp size data).world (fwrite w fp size data).fp (written ++ data) ∧
      heldBack w.fault w.calls fp.pending.length (data.length :: ns) =
        heldBack (fwrite w fp size data).world.fault (fwrite w fp size data).world.calls
          (fwrite w fp size data).fp.pending.length ns := by
  have hlays := fwrite_lays h size data
  have hlength := h.length
  rw [heldBack]
  unfold fwrite at hlays ⊢
  cases hfault : w.fault w.calls with
  | none =>
    rw [hfault] at hlays
    refine ⟨hlays, ?_⟩
    show heldBack w.fault (w.calls + 1) (fp.pending.length + data.length) ns =
      heldBack w.fault (w.calls + 1) (fp.pending ++ data).length ns
    rw [List.length_append]
  | some k =>
    rw [hfault] at hlays
    have hk := hpass k hfault
    have hall : (written ++ data).take (fp.pos + k) = written ++ data :=
      List.take_of_length_le (by rw [List.length_append]; omega)
    refine ⟨hall ▸ hlays, ?_⟩
    dsimp only
    rw [if_pos hk]
    rfl

theorem heldBack_short {call h n : Nat} {fault : Nat → Option Nat} (ns : List Nat)
    (hpass : ¬ Passes (fault call) (h + n)) : heldBack fault call h (n :: ns) = none := by
  rw [heldBack]
  cases hfault : fault call with
  | none => exact absurd (hfault ▸ passes_none _) hpass
  | some k =>
    refine if_neg fun hk => hpass fun k' hk' => ?_
    rw [hfault] at hk'
    cases hk'
    exact hk

/-! ### The last flush or close -/

theorem fflush_frame (w : World π) (fp : Writer π) :
    Frame fp.path w (fflush w fp).world ∧ Persists w (fflush w fp).world ∧ (fflush w fp).fp.path = fp.path ∧
      (fflush w fp).fp.pending = [] := by
  unfold fflush
  by_cases hpending : fp.pending = []
  · rw [if_pos hpending]
    exact ⟨Frame.refl .., Persists.refl _, rfl, hpending⟩
  rw [if_neg hpending]
  cases w.fault w.calls with
  | none => exact ⟨land_frame w fp _ _, land_persists w fp _ _, rfl, rfl⟩
  | some n => exact ⟨land_frame w fp _ _, land_persists w fp _ _, rfl, rfl⟩

/-- What is in the file after a prefix of what was held back. -/
theorem Lays.landed (h : Lays old w fp written) (n : Nat) :
    (w.tick.land fp fp.pending n).files fp.path =
      some (written.take (fp.pos + min n fp.pending.length) ++ old.drop (fp.pos + min n fp.pending.length)) := by
  have hland := (h.land [] n).file
  simp only [List.append_nil, List.length_take, List.take_take] at hland
  rw [Nat.min_eq_left (by omega)] at hland
  exact hland

/-- What a flush leaves in the file: what survives of what was written, over what was
there. -/
theorem fflush_lays (h : Lays old w fp written) :
    (fflush w fp).world.files fp.path =
      some (written.take (fp.pos + survivors (w.fault w.calls) fp.pending.length) ++
        old.drop (fp.pos + survivors (w.fault w.calls) fp.pending.length)) := by
  unfold fflush
  by_cases hpending : fp.pending = []
  · have hnone : survivors (w.fault w.calls) fp.pending.length = 0 :=
      Nat.eq_zero_of_le_zero (hpending ▸ survivors_le _ _)
    rw [if_pos hpending, hnone, Nat.add_zero, h.file]
  rw [if_neg hpending]
  cases w.fault w.calls with
  | none => simpa [survivors] using h.landed fp.pending.length
  | some n => exact h.landed n

theorem fclose_lays (h : Lays old w fp written) :
    (fclose w fp).world.files fp.path =
      some (written.take (fp.pos + survivors (w.fault w.calls) fp.pending.length) ++
        old.drop (fp.pos + survivors (w.fault w.calls) fp.pending.length)) := by
  unfold fclose
  cases w.fault w.calls with
  | none => simpa [survivors] using h.landed fp.pending.length
  | some n => exact h.landed n

/-- Closing a stream on a file that was empty. -/
theorem fclose_start (h : Lays [] w fp written) :
    (fclose w fp).world.files fp.path =
      some (written.take (written.length - fp.pending.length + survivors (w.fault w.calls) fp.pending.length)) := by
  have hpos : fp.pos = written.length - fp.pending.length := by
    have := h.length
    omega
  rw [fclose_lays h, List.drop_nil, List.append_nil, hpos]

theorem fclose_frame (w : World π) (fp : Writer π) :
    Frame fp.path w (fclose w fp).world ∧ Persists w (fclose w fp).world := by
  unfold fclose
  cases w.fault w.calls with
  | none => exact ⟨land_frame w fp _ _, land_persists w fp _ _⟩
  | some n => exact ⟨land_frame w fp _ _, land_persists w fp _ _⟩

theorem fclose_calls (w : World π) (fp : Writer π) : (fclose w fp).world.calls = w.calls + 1 := by
  unfold fclose
  cases w.fault w.calls with
  | none => rfl
  | some n => rfl

omit [DecidableEq π] in
/-- A stream is none the worse for what happens to other files. -/
theorem Lays.frame {w' : World π} {path : π} (h : Lays old w fp written) (hframe : Frame path w w')
    (hne : fp.path ≠ path) : Lays old w' fp written :=
  ⟨by rw [hframe.files _ hne]; exact h.file, h.pos, h.pending⟩

end

/-! ### From the start -/

theorem fopen_frame (w : World π) (path : π) :
    Frame path w (fopen w path).world ∧ Persists w (fopen w path).world ∧
      ∀ fp, (fopen w path).fp = some fp → fp.path = path ∧ fp.pending = [] ∧ Lays [] (fopen w path).world fp [] := by
  unfold fopen
  cases w.fault w.calls with
  | none =>
    refine ⟨⟨fun _ hq => Function.update_of_ne hq .., rfl⟩, ⟨fun q hq => ?_, rfl⟩, ?_⟩
    · show (Function.update w.files path (some []) q).isSome = true
      by_cases h : q = path
      · rw [h, Function.update_self]
        rfl
      · rw [Function.update_of_ne h]
        exact hq
    · intro fp hfp
      cases hfp
      exact ⟨rfl, rfl, Function.update_self .., Nat.le_refl 0, rfl⟩
  | some n => exact ⟨⟨fun _ _ => rfl, rfl⟩, ⟨fun _ h => h, rfl⟩, fun fp hfp => by cases hfp⟩

/-- A stream that holds nothing back starts over. -/
theorem rewind_lays {w : World π} {fp : Writer π} {content : Bytes} (hpending : fp.pending = [])
    (hfile : w.files fp.path = some content) :
    rewind w fp = ({fp with pos := 0}, w) ∧ Lays content w {fp with pos := 0} [] := by
  have hflush : fflush w fp = ⟨0, fp, w⟩ := if_pos hpending
  constructor
  · rw [rewind, hflush]
  · exact ⟨hfile, Nat.le_refl 0, hpending⟩

theorem ftruncate_frame (w : World π) (fp : Writer π) :
    Frame fp.path w (ftruncate w fp).2 ∧ Persists w (ftruncate w fp).2 := by
  unfold ftruncate
  cases w.fault w.calls with
  | none =>
    refine ⟨⟨fun _ hq => Function.update_of_ne hq .., rfl⟩, ⟨fun q hq => ?_, rfl⟩⟩
    show (Function.update w.files fp.path _ q).isSome = true
    by_cases h : q = fp.path
    · rw [h, Function.update_self, Option.isSome_map]
      rw [h] at hq
      exact hq
    · rw [Function.update_of_ne h]
      exact hq
  | some n => exact ⟨⟨fun _ _ => rfl, rfl⟩, ⟨fun _ h => h, rfl⟩⟩

/-- A truncated file is written from its start; one that could not be truncated is as it
was. -/
theorem ftruncate_lays {w : World π} {fp : Writer π} {content : Bytes} (h : Lays content w fp [])  :
    (ftruncate w fp).2.calls = w.calls + 1 ∧
      (((ftruncate w fp).1 = 0 ∧ w.fault w.calls = none ∧ Lays [] (ftruncate w fp).2 fp []) ∨
        ((ftruncate w fp).1 ≠ 0 ∧ w.fault w.calls ≠ none ∧ Lays content (ftruncate w fp).2 fp [])) := by
  have hfile := h.file
  have hstart : fp.pos = 0 := Nat.eq_zero_of_le_zero h.pos
  unfold ftruncate
  cases hfault : w.fault w.calls with
  | some n => exact ⟨rfl, Or.inr ⟨show ¬ (-1 : Int) = 0 by decide, Option.some_ne_none n, hfile, h.pos, h.pending⟩⟩
  | none =>
    refine ⟨rfl, Or.inl ⟨rfl, rfl, ?_, h.pos, h.pending⟩⟩
    show Function.update w.files fp.path _ fp.path = _
    rw [Function.update_self, hfile, hstart]
    rfl

/-! ### Block after block -/

/-- A stream on its way through a run of blocks, opened in `w₀`: blocks of the lengths
`rest` are to come, then `reach` bytes will be held back, and the call after them has the
number `last`. -/
structure Underway (w₀ : World π) (path : π) (old : Bytes) (reach : Option Nat) (last : Nat) (rest : List Nat)
    (written : Bytes) (w : World π) (fp : Writer π) : Prop where
  frame : Frame path w₀ w
  persists : Persists w₀ w
  path : fp.path = path
  lays : Lays old w fp written
  reach : heldBack w.fault w.calls fp.pending.length rest = reach
  last : w.calls + rest.length = last

/-- A file that was opened is about to get its blocks. -/
theorem fopen_underway {w : World π} {path : π} {fp : Writer π} (h : (fopen w path).fp = some fp)
    (blocks : List Nat) :
    w.fault w.calls = none ∧ fp.pending = [] ∧
      Underway w path [] (heldBack w.fault (w.calls + 1) 0 blocks) (w.calls + 1 + blocks.length) blocks []
        (fopen w path).world fp := by
  obtain ⟨hframe, hpersists, hopened⟩ := fopen_frame w path
  obtain ⟨hpath, hpending, hlays⟩ := hopened fp h
  obtain ⟨hcalls, hfault⟩ := fopen_calls w path
  refine ⟨?_, hpending, hframe, hpersists, hpath, hlays, ?_, by rw [hcalls]⟩
  · by_contra hnone
    rw [fopen_failed w path hnone] at h
    cases h
  · rw [hcalls, hfault, hpending]
    rfl

/-- A stream nothing is held back in, and whose file is the only one to have changed. -/
structure Idle (w₀ : World π) (path : π) (w : World π) (fp : Writer π) : Prop where
  frame : Frame path w₀ w
  persists : Persists w₀ w
  path : fp.path = path
  pending : fp.pending = []
  there : (w.files fp.path).isSome = true

section
variable {w₀ w : World π} {path : π} {old written : Bytes} {reach : Option Nat} {last : Nat} {rest : List Nat}
  {fp : Writer π}

/-- One block: it is written whole, or the stream is given up. -/
theorem Underway.write {len : Nat} (h : Underway w₀ path old reach last (len :: rest) written w fp)
    (size n : Nat) (data : Bytes) (hdata : data.length = len) (hs : 0 < size) (hlen : len = size * n)
    (hn : 0 < n ∨ fp.pending = []) :
    ((fwrite w fp size data).count = n ∧
      Underway w₀ path old reach last rest (written ++ data) (fwrite w fp size data).world
        (fwrite w fp size data).fp) ∨
    ((fwrite w fp size data).count ≠ n ∧ reach = none ∧
      Idle w₀ path (fwrite w fp size data).world (fwrite w fp size data).fp) := by
  subst hdata
  obtain ⟨hframe, hpersists, hpath⟩ := fwrite_frame w fp size data
  obtain ⟨hcalls, -⟩ := fwrite_calls w fp size data
  have hcount := fwrite_count w fp hs hlen hn
  rw [h.path] at hframe hpath
  by_cases hpass : Passes (w.fault w.calls) (fp.pending.length + data.length)
  · obtain ⟨hlays, hheld⟩ := fwrite_complete h.lays size rest hpass
    refine Or.inl ⟨hcount.mpr hpass, h.frame.trans hframe, h.persists.trans hpersists, hpath, hlays,
      hheld.symm.trans h.reach, ?_⟩
    have hlast := h.last
    rw [List.length_cons] at hlast
    omega
  · have hfile := (fwrite_lays h.lays size data).file
    rw [hpath] at hfile
    refine Or.inr ⟨fun hc => hpass (hcount.mp hc), ?_, h.frame.trans hframe, h.persists.trans hpersists, hpath,
      fwrite_failed w fp size data hpass, by rw [hpath, hfile]; rfl⟩
    rw [← h.reach, heldBack_short rest hpass]

omit [DecidableEq π] in
/-- The call after all blocks. -/
theorem Underway.calls (h : Underway w₀ path old reach last [] written w fp) : w.calls = last := by
  have hlast := h.last
  rw [List.length_nil, Nat.add_zero] at hlast
  exact hlast

omit [DecidableEq π] in
/-- What is held back when all blocks are written. -/
theorem Underway.finished (h : Underway w₀ path old reach last [] written w fp) :
    reach = some fp.pending.length ∧ fp.pending.length ≤ written.length ∧
      fp.pos = written.length - fp.pending.length ∧ w.fault w.calls = w₀.fault last := by
  have hlength := h.lays.length
  have hlast := h.last
  refine ⟨h.reach.symm, by omega, by omega, ?_⟩
  rw [h.frame.fault, ← hlast]
  rfl

theorem Underway.flush (h : Underway w₀ path old reach last [] written w fp) :
    Idle w₀ path (fflush w fp).world (fflush w fp).fp ∧
      ∀ n, reach = some n → n ≤ written.length ∧ (fflush w fp).world.files path =
        some (written.take (written.length - n + survivors (w₀.fault last) n) ++
          old.drop (written.length - n + survivors (w₀.fault last) n)) := by
  obtain ⟨hframe, hpersists, hpath, hpending⟩ := fflush_frame w fp
  obtain ⟨hreach, hle, hpos, hfault⟩ := h.finished
  have hfile := fflush_lays h.lays
  rw [h.path] at hframe hpath hfile
  refine ⟨⟨h.frame.trans hframe, h.persists.trans hpersists, hpath, hpending, by rw [hpath, hfile]; rfl⟩,
    fun n hn => ?_⟩
  rw [hreach] at hn
  cases hn
  rw [hpos, hfault] at hfile
  exact ⟨hle, hfile⟩

theorem Underway.close (h : Underway w₀ path old reach last [] written w fp) :
    Frame path w₀ (fclose w fp).world ∧ Persists w₀ (fclose w fp).world ∧
      ∀ n, reach = some n → n ≤ written.length ∧ (fclose w fp).world.files path =
        some (written.take (written.length - n + survivors (w₀.fault last) n) ++
          old.drop (written.length - n + survivors (w₀.fault last) n)) := by
  obtain ⟨hframe, hpersists⟩ := fclose_frame w fp
  obtain ⟨hreach, hle, hpos, hfault⟩ := h.finished
  have hfile := fclose_lays h.lays
  rw [h.path] at hframe hfile
  refine ⟨h.frame.trans hframe, h.persists.trans hpersists, fun n hn => ?_⟩
  rw [hreach] at hn
  cases hn
  rw [hpos, hfault] at hfile
  exact ⟨hle, hfile⟩

/-- Two streams that are done, closed one after the other. -/
theorem Underway.close_both {path' : π} {reach' : Option Nat} {last' : Nat} {written' : Bytes} {w' : World π}
    {fp' : Writer π} (h : Underway w₀ path [] reach last [] written w fp)
    (h' : Underway w path' [] reach' last' [] written' w' fp') (hne : path ≠ path') :
    ∀ n n', reach = some n → reach' = some n' →
      n ≤ written.length ∧ n' ≤ written'.length ∧
      (fclose (fclose w' fp).world fp').world.files path =
        some (written.take (written.length - n + survivors (w₀.fault last') n)) ∧
      (fclose (fclose w' fp).world fp').world.files path' =
        some (written'.take (written'.length - n' + survivors (w₀.fault (last' + 1)) n')) := by
  intro n n' hn hn'
  obtain ⟨hreach, hle, -, -⟩ := h.finished
  obtain ⟨hreach', hle', -, -⟩ := h'.finished
  cases hreach.symm.trans hn
  cases hreach'.symm.trans hn'
  have hcalls := h'.calls
  have hfault : w'.fault = w₀.fault := h'.frame.fault.trans h.frame.fault
  obtain ⟨hframe, -⟩ := fclose_frame w' fp
  obtain ⟨hframe', -⟩ := fclose_frame (fclose w' fp).world fp'
  rw [h.path] at hframe
  rw [h'.path] at hframe'
  have hfile := fclose_start (h.lays.frame h'.frame (h.path ▸ hne))
  have hfile' := fclose_start (h'.lays.frame hframe (h'.path ▸ hne.symm))
  rw [hcalls, hfault, h.path] at hfile
  rw [fclose_calls, hframe.fault, hcalls, hfault, h'.path] at hfile'
  exact ⟨hle, hle', (hframe'.files _ hne).trans hfile, hfile'⟩

end

/-! ### Writing on after a failure -/

/-- A stream that has lost some of the `n` bytes written to it. -/
structure Broken (w₀ : World π) (path : π) (n : Nat) (w : World π) (fp : Writer π) : Prop where
  frame : Frame path w₀ w
  persists : Persists w₀ w
  path : fp.path = path
  lays : ∃ written, Lays [] w fp written ∧ written.length < n

section
variable {w₀ w : World π} {path : π} {written : Bytes} {reach : Option Nat} {last : Nat} {rest : List Nat}
  {fp : Writer π}

/-- A block of which the result is not looked at: it is written whole, or something is
lost. -/
theorem Underway.write_unchecked {len : Nat} (h : Underway w₀ path [] reach last (len :: rest) written w fp)
    (size n : Nat) (data : Bytes) (hdata : data.length = len) (hs : 0 < size) (hlen : len = size * n)
    (hn : 0 < n ∨ fp.pending = []) :
    Underway w₀ path [] reach last rest (written ++ data) (fwrite w fp size data).world (fwrite w fp size data).fp ∨
    (reach = none ∧ Broken w₀ path (written.length + data.length) (fwrite w fp size data).world
      (fwrite w fp size data).fp) := by
  obtain ⟨-, hnext⟩ | ⟨hcount, hreach, hidle⟩ := h.write size n data hdata hs hlen hn
  · exact Or.inl hnext
  refine Or.inr ⟨hreach, hidle.frame, hidle.persists, hidle.path, ?_⟩
  have hlays := fwrite_lays h.lays size data
  have hlength := h.lays.length
  rw [Ne, fwrite_count w fp hs (hdata.trans hlen) hn] at hcount
  cases hfault : w.fault w.calls with
  | none =>
    rw [hfault] at hcount
    exact absurd (passes_none _) hcount
  | some k =>
    rw [hfault] at hlays hcount
    refine ⟨_, hlays, ?_⟩
    have hk : k < fp.pending.length + data.length := by
      by_contra hle
      refine hcount fun k' hk' => ?_
      cases hk'
      omega
    rw [List.length_take, List.length_append]
    omega

/-- What is lost stays lost. -/
theorem Broken.write {n : Nat} (h : Broken w₀ path n w fp) (size : Nat) (data : Bytes) :
    Broken w₀ path (n + data.length) (fwrite w fp size data).world (fwrite w fp size data).fp := by
  obtain ⟨hframe, hpersists, hpath⟩ := fwrite_frame w fp size data
  obtain ⟨written, hlays, hlt⟩ := h.lays
  rw [h.path] at hframe hpath
  refine ⟨h.frame.trans hframe, h.persists.trans hpersists, hpath, _, fwrite_lays hlays size data, ?_⟩
  cases w.fault w.calls with
  | none =>
    rw [List.length_append]
    omega
  | some k =>
    rw [List.length_take, List.length_append]
    omega

theorem Broken.close {n : Nat} (h : Broken w₀ path n w fp) :
    Frame path w₀ (fclose w fp).world ∧ Persists w₀ (fclose w fp).world ∧
      ∃ content, (fclose w fp).world.files path = some content ∧ content.length < n := by
  obtain ⟨hframe, hpersists⟩ := fclose_frame w fp
  obtain ⟨written, hlays, hlt⟩ := h.lays
  have hfile := fclose_lays hlays
  rw [h.path] at hframe hfile
  refine ⟨h.frame.trans hframe, h.persists.trans hpersists, _, hfile, ?_⟩
  rw [List.length_append, List.length_take, List.drop_nil, List.length_nil]
  omega

end

/-! ### The length of a file -/

/-- A stream that has got to `k` at most, on a file of `n` bytes at most. -/
structure Room (n k : Nat) (w : World π) (fp : Writer π) : Prop where
  reached : fp.pos + fp.pending.length ≤ k
  fits : k ≤ n
  file : ∀ content, w.files fp.path = some content → content.length ≤ n

theorem patch_length (content data : Bytes) (pos : Nat) :
    (patch content pos data).length = max content.length (pos + data.length) := by
  simp only [patch, List.length_append, List.length_take, List.length_replicate, List.length_drop]
  omega

section
variable {n k : Nat} {w : World π} {fp : Writer π}

/-- What lands of bytes for which there is room. -/
theorem Room.land (h : Room n k w fp) (data : Bytes) (m : Nat) (hdata : fp.pos + data.length ≤ k) :
    Room n k (w.tick.land fp data m) {fp with pos := fp.pos + (data.take m).length, pending := []} := by
  have htake : (data.take m).length ≤ data.length := List.length_take_le' ..
  have hfits := h.fits
  refine ⟨?_, hfits, ?_⟩
  · show fp.pos + (data.take m).length + 0 ≤ k
    omega
  · intro content hcontent
    obtain ⟨content', hcontent', rfl⟩ : ∃ content', w.files fp.path = some content' ∧
        patch content' fp.pos (data.take m) = content := by
      have hupdated : Function.update w.files fp.path _ fp.path = some content := hcontent
      rw [Function.update_self] at hupdated
      exact Option.map_eq_some_iff.mp hupdated
    have hle := h.file content' hcontent'
    rw [patch_length]
    omega

theorem Room.write (h : Room n k w fp) (size : Nat) (data : Bytes) (hdata : k + data.length ≤ n) :
    Room n (k + data.length) (fwrite w fp size data).world (fwrite w fp size data).fp := by
  have hreached := h.reached
  have hlength : (fp.pending ++ data).length = fp.pending.length + data.length := List.length_append
  have hall : Room n (k + data.length) w fp := ⟨by omega, hdata, h.file⟩
  unfold fwrite
  cases w.fault w.calls with
  | none =>
    refine ⟨?_, hdata, h.file⟩
    show fp.pos + (fp.pending ++ data).length ≤ k + data.length
    omega
  | some m => exact hall.land (fp.pending ++ data) m (by omega)

theorem Room.flush (h : Room n k w fp) : Room n k (fflush w fp).world (fflush w fp).fp := by
  unfold fflush
  split
  · exact h
  · cases w.fault w.calls with
    | none =>
      have hlanded := h.land fp.pending fp.pending.length h.reached
      rw [List.take_length] at hlanded
      exact hlanded
    | some m => exact h.land fp.pending m h.reached

end

/-! ### Complete blocks -/

/-- A block is the first of a file when its end is: as much of it as got through was laid
over the rest. -/
theorem prefix_over_iff (block rest : Bytes) (n : Nat) :
    block <+: block.take n ++ rest ↔ block.drop n <+: rest := by
  constructor
  · intro h
    obtain ⟨more, hmore⟩ := h
    rw [← List.take_append_drop n block, List.append_assoc, List.take_append_drop] at hmore
    exact ⟨more, List.append_cancel_left hmore⟩
  · intro h
    obtain ⟨more, hmore⟩ := h
    refine ⟨more, ?_⟩
    rw [← hmore, ← List.append_assoc, List.take_append_drop]

/-- All of a block is there when all that was held back got through. -/
theorem take_survivors_iff {block : Bytes} {answer : Option Nat} {h : Nat} (hle : h ≤ block.length) :
    block.take (block.length - h + survivors answer h) = block ↔ Passes answer h := by
  rw [List.take_eq_self_iff, ← survivors_eq_iff]
  have := survivors_le answer h
  omega

end

end Base.Stdio
