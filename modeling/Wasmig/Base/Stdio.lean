import Wasmig.Base.Bytes
import Mathlib.Data.List.TakeDrop
import Mathlib.Logic.Function.Basic
import Mathlib.Tactic.ByContra

/-! Buffered files as C sees them.

A `Reader` is a stream over the bytes a file held when it was opened. A `Writer`
holds back the bytes it has accepted until it is closed; every call that touches a
file may be made to fail by the environment (`World.fault`), and a failing call lets
a prefix of what it should have written reach the file and reports it. `Holds` is
what is known of a stream between two calls: the bytes in the file followed by the
bytes held back. -/
namespace Base.Stdio

/-! ### Reading -/

/-- A stream open for reading. -/
structure Reader where
  content : Bytes
  pos : Nat
  eof : Bool

namespace Reader

def ofFile (content : Bytes) : Reader := ⟨content, 0, false⟩

/-- What is left to read. -/
def unread (fp : Reader) : Bytes := fp.content.drop fp.pos

/-- `fseek(fp, 0, SEEK_END)`. -/
def seekEnd (fp : Reader) : Reader := {fp with pos := fp.content.length, eof := false}

/-- `fseek(fp, 0, SEEK_SET)`. -/
def seekStart (fp : Reader) : Reader := {fp with pos := 0, eof := false}

def tell (fp : Reader) : Nat := fp.pos

end Reader

/-- What `fread` leaves: the bytes put in the buffer, the number of complete items
among them, and the stream. -/
structure Read where
  data : Bytes
  count : Nat
  fp : Reader

/-- `fread(buf, size, nmemb, fp)`: a short read sets the end-of-file indicator. -/
def fread (fp : Reader) (size nmemb : Nat) : Read :=
  let data := fp.unread.take (size * nmemb)
  { data := data
    count := data.length / size
    fp := {fp with pos := fp.pos + data.length, eof := fp.eof || decide (data.length < size * nmemb)} }

@[simp] theorem unread_ofFile (content : Bytes) : (Reader.ofFile content).unread = content := rfl

@[simp] theorem fread_data (fp : Reader) (size nmemb : Nat) :
    (fread fp size nmemb).data = fp.unread.take (size * nmemb) := rfl

theorem fread_unread (fp : Reader) (size nmemb : Nat) :
    (fread fp size nmemb).fp.unread = fp.unread.drop (size * nmemb) := by
  simp only [fread, Reader.unread, List.length_take, List.length_drop, ← List.drop_drop]
  by_cases h : size * nmemb ≤ fp.content.length - fp.pos
  · rw [Nat.min_eq_left h]
  · rw [Nat.min_eq_right (by omega), List.drop_eq_nil_of_le (by simp),
      List.drop_eq_nil_of_le (by simp; omega)]

theorem fread_unread_le (fp : Reader) (size nmemb : Nat) :
    (fread fp size nmemb).fp.unread.length ≤ fp.unread.length := by
  rw [fread_unread, List.length_drop]
  exact Nat.sub_le ..

/-- A read that gets an item leaves less to read. -/
theorem fread_unread_lt (fp : Reader) (size nmemb : Nat) (h : (fread fp size nmemb).count ≠ 0) :
    (fread fp size nmemb).fp.unread.length < fp.unread.length := by
  have hd : (fp.unread.take (size * nmemb)).length / size ≠ 0 := h
  have hpos : size ≤ (fp.unread.take (size * nmemb)).length := by
    by_contra hlt
    exact hd (Nat.div_eq_of_lt (by omega))
  have hsize : size ≠ 0 := fun h0 => hd (by rw [h0, Nat.div_zero])
  rw [List.length_take] at hpos
  rw [fread_unread, List.length_drop]
  omega

/-- One item of `size` bytes is read unless fewer are left, and then the end of the
file has been seen. -/
theorem fread_item (fp : Reader) (size : Nat) (hs : 0 < size) :
    (fread fp size 1).count = (if fp.unread.length < size then 0 else 1) ∧
      (fp.unread.length < size → (fread fp size 1).fp.eof = true) := by
  simp only [fread, Nat.mul_one, List.length_take]
  constructor
  · split
    · exact Nat.div_eq_of_lt (by omega)
    · rw [Nat.min_eq_left (by omega), Nat.div_self hs]
  · intro h
    simp
    omega

/-- A block read byte by byte is complete unless fewer bytes are left. -/
theorem fread_block (fp : Reader) (n : Nat) :
    (fread fp 1 n).count = min n fp.unread.length := by
  simp [fread]

/-! ### Writing -/

/-- A stream open for writing: where its next byte goes, and what it holds back. -/
structure Writer (π : Type) where
  path : π
  pos : Nat
  pending : Bytes

/-- The files, and what the environment does to the calls made on them: the `k`-th
call is left alone (`none`), or fails after `n` of the bytes it should have put in
the file are there (`some n`). -/
structure World (π : Type) where
  files : π → Option Bytes
  fault : Nat → Option Nat
  calls : Nat

/-- What an `fopen` leaves; no stream when it failed. -/
structure Opened (π : Type) where
  fp : Option (Writer π)
  world : World π

/-- What an `fwrite` leaves: the number of complete items accepted, the stream and
the files. -/
structure Written (π : Type) where
  count : Nat
  fp : Writer π
  world : World π

/-- What an `fclose` leaves: its code and the files. -/
structure Closed (π : Type) where
  code : Int
  world : World π

/-- A file's bytes with `data` laid over them from `pos` on, after zeros if the file
is shorter. -/
def patch (content : Bytes) (pos : Nat) (data : Bytes) : Bytes :=
  content.take pos ++ List.replicate (pos - content.length) 0 ++ data ++ content.drop (pos + data.length)

theorem patch_end (content data : Bytes) : patch content content.length data = content ++ data := by
  simp [patch]

section Writing
variable {π : Type} [DecidableEq π]

/-- The first `n` bytes of `data` reach the file under the stream. -/
def World.land (w : World π) (fp : Writer π) (data : Bytes) (n : Nat) : World π :=
  let file := (w.files fp.path).map fun content => patch content fp.pos (data.take n)
  {w with files := Function.update w.files fp.path file}

/-- The environment's next answer is used up. -/
def World.tick (w : World π) : World π := {w with calls := w.calls + 1}

/-- `fopen(path, "wb")`: the file is there and empty, or nothing has changed. -/
def fopen (w : World π) (path : π) : Opened π :=
  match w.fault w.calls with
  | none => ⟨some ⟨path, 0, []⟩, {w.tick with files := Function.update w.files path (some [])}⟩
  | some _ => ⟨none, w.tick⟩

/-- `fwrite(data, size, nmemb, fp)` for `data` of `size * nmemb` bytes. What was held
back goes first, so a failing call may lose that as well. -/
def fwrite (w : World π) (fp : Writer π) (size : Nat) (data : Bytes) : Written π :=
  let all := fp.pending ++ data
  match w.fault w.calls with
  | none => ⟨data.length / size, {fp with pending := all}, w.tick⟩
  | some n =>
    ⟨min (n - fp.pending.length) data.length / size,
      {fp with pos := fp.pos + (all.take n).length, pending := []}, w.tick.land fp all n⟩

/-- `fclose(fp)`: what was held back reaches the file, or a prefix of it does and the
call says so. -/
def fclose (w : World π) (fp : Writer π) : Closed π :=
  match w.fault w.calls with
  | none => ⟨0, w.tick.land fp fp.pending fp.pending.length⟩
  | some n => ⟨if n < fp.pending.length then -1 else 0, w.tick.land fp fp.pending n⟩

/-- The bytes written through the stream so far and not lost: those in the file, up
to the stream's position, then those held back. -/
def Holds (w : World π) (fp : Writer π) (written : Bytes) : Prop :=
  ∃ content, w.files fp.path = some content ∧ fp.pos = content.length ∧ content ++ fp.pending = written

/-- Of the files, only the one at `path` may have changed. -/
structure Frame (path : π) (w w' : World π) : Prop where
  files : ∀ q, q ≠ path → w'.files q = w.files q
  fault : w'.fault = w.fault

omit [DecidableEq π] in
theorem Frame.refl (path : π) (w : World π) : Frame path w w := ⟨fun _ _ => rfl, rfl⟩

omit [DecidableEq π] in
theorem Frame.trans {path : π} {w w' w'' : World π} (h : Frame path w w') (h' : Frame path w' w'') :
    Frame path w w'' :=
  ⟨fun q hq => (h'.files q hq).trans (h.files q hq), h'.fault.trans h.fault⟩

omit [DecidableEq π] in
theorem Holds.frame {w w' : World π} {fp : Writer π} {written : Bytes} {path : π}
    (h : Holds w fp written) (hf : Frame path w w') (hne : fp.path ≠ path) : Holds w' fp written := by
  obtain ⟨content, hc, hrest⟩ := h
  exact ⟨content, by rw [hf.files _ hne]; exact hc, hrest⟩

theorem land_frame (w : World π) (fp : Writer π) (data : Bytes) (n : Nat) :
    Frame fp.path w (w.tick.land fp data n) :=
  ⟨fun _ hq => Function.update_of_ne hq .., rfl⟩

/-- Landing a prefix at the end of the file extends it by that prefix. -/
theorem land_file {w : World π} {fp : Writer π} {content : Bytes} (data : Bytes) (n : Nat)
    (hc : w.files fp.path = some content) (hp : fp.pos = content.length) :
    (w.tick.land fp data n).files fp.path = some (content ++ data.take n) := by
  simp [World.land, World.tick, hc, hp, patch_end]

/-- A file that could be opened is empty, and nothing has been written to it. -/
theorem fopen_ok (w : World π) (path : π) (h : w.fault w.calls = none) :
    (fopen w path).fp = some ⟨path, 0, []⟩ ∧
      Holds (fopen w path).world ⟨path, 0, []⟩ [] ∧ Frame path w (fopen w path).world := by
  simp only [fopen, h]
  refine ⟨trivial, ⟨[], ?_, rfl, rfl⟩, ?_⟩
  · exact Function.update_self ..
  · exact ⟨fun _ hq => Function.update_of_ne hq .., rfl⟩

theorem fopen_failed (w : World π) (path : π) (h : w.fault w.calls ≠ none) :
    fopen w path = ⟨none, w.tick⟩ := by
  unfold fopen
  split
  · rename_i hf
    exact absurd hf h
  · rfl

theorem fopen_calls (w : World π) (path : π) :
    (fopen w path).world.calls = w.calls + 1 ∧ (fopen w path).world.fault = w.fault := by
  unfold fopen
  split
  · exact ⟨rfl, rfl⟩
  · exact ⟨rfl, rfl⟩

/-- Nothing will fail. -/
def World.Faultless (w : World π) : Prop := ∀ k, w.fault k = none

/-- From `w` and `fp`, which had `written` bytes, a writer of `data` has come to `w'` and
`fp'`: a prefix of the data is in, all of it exactly when the writer is `done`, and
nothing but a fault keeps it from being done. -/
structure Wrote (w : World π) (fp : Writer π) (written data : Bytes) (done : Prop)
    (w' : World π) (fp' : Writer π) : Prop where
  path : fp'.path = fp.path
  frame : Frame fp.path w w'
  holds : ∃ left, Holds w' fp' left ∧ left <+: written ++ data ∧ (done ↔ left = written ++ data)
  free : w.Faultless → done

omit [DecidableEq π] in
/-- Having nothing to write. -/
theorem Wrote.nil {w : World π} {fp : Writer π} {written : Bytes} (h : Holds w fp written) :
    Wrote w fp written [] True w fp :=
  ⟨rfl, Frame.refl fp.path w, ⟨written, h, by simp, by simp⟩, fun _ => trivial⟩

omit [DecidableEq π] in
theorem Wrote.finished {w w' : World π} {fp fp' : Writer π} {written data : Bytes} {done : Prop}
    (h : Wrote w fp written data done w' fp') (hd : done) : Holds w' fp' (written ++ data) := by
  obtain ⟨left, hholds, -, hdone⟩ := h.holds
  rw [← hdone.mp hd]
  exact hholds

omit [DecidableEq π] in
/-- Going on after what is done. -/
theorem Wrote.andThen {w w' w'' : World π} {fp fp' fp'' : Writer π} {written data more : Bytes}
    {done done' : Prop} (h : Wrote w fp written data done w' fp') (hd : done)
    (h' : Holds w' fp' (written ++ data) → Wrote w' fp' (written ++ data) more done' w'' fp'') :
    Wrote w fp written (data ++ more) done' w'' fp'' := by
  specialize h' (h.finished hd)
  refine ⟨h'.path.trans h.path, h.frame.trans (h.path ▸ h'.frame), ?_, fun hw => h'.free fun k => ?_⟩
  · rw [← List.append_assoc]
    exact h'.holds
  · rw [h.frame.fault]
    exact hw k

omit [DecidableEq π] in
/-- Giving up after what could not be done. -/
theorem Wrote.stop {w w' : World π} {fp fp' : Writer π} {written data : Bytes} {done : Prop}
    (h : Wrote w fp written data done w' fp') (hd : ¬ done) (more : Bytes) :
    Wrote w fp written (data ++ more) False w' fp' := by
  obtain ⟨left, hholds, hprefix, hdone⟩ := h.holds
  refine ⟨h.path, h.frame, ⟨left, hholds, ?_, iff_of_false id ?_⟩, fun hw => hd (h.free hw)⟩
  · rw [← List.append_assoc]
    exact hprefix.trans (List.prefix_append ..)
  · rintro rfl
    have hle := hprefix.length_le
    simp only [List.length_append] at hle
    have hmore : more = [] := List.eq_nil_of_length_eq_zero (by omega)
    exact hd (hdone.mpr (by rw [hmore, List.append_nil]))

omit [DecidableEq π] in
theorem Wrote.congr {w w' : World π} {fp fp' : Writer π} {written data : Bytes} {done done' : Prop}
    (h : Wrote w fp written data done w' fp') (hd : done ↔ done') :
    Wrote w fp written data done' w' fp' := by
  rw [← propext hd]
  exact h

/-- `fwrite` of some items is done when it returns their number. A call that fails loses what does
not reach the file, also of what had been held back. -/
theorem fwrite_spec {w : World π} {fp : Writer π} {written : Bytes} (h : Holds w fp written)
    (size n : Nat) (data : Bytes) (hs : 0 < size) (hn0 : 0 < n) (hn : data.length = size * n) :
    Wrote w fp written data ((fwrite w fp size data).count = n) (fwrite w fp size data).world
      (fwrite w fp size data).fp := by
  obtain ⟨content, hc, hp, hw⟩ := h
  have hwlen : written.length = content.length + fp.pending.length := by rw [← hw, List.length_append]
  cases hf : w.fault w.calls with
  | none =>
    simp only [fwrite, hf, hn, Nat.mul_div_cancel_left n hs]
    refine ⟨rfl, ⟨fun _ _ => rfl, rfl⟩, ⟨written ++ data, ⟨content, hc, hp, ?_⟩, by simp, by simp⟩,
      fun _ => trivial⟩
    rw [← hw, List.append_assoc]
  | some m =>
    simp only [fwrite, hf]
    refine ⟨rfl, land_frame w fp _ _, ?_, fun hfree => by rw [hfree] at hf; cases hf⟩
    refine ⟨(written ++ data).take (content.length + m),
      ⟨content ++ (fp.pending ++ data).take m, land_file _ m hc hp, ?_, ?_⟩, List.take_prefix .., ?_⟩
    · simp only [hp, List.length_append]
    · simp only [← hw, List.append_nil, List.append_assoc, List.take_append,
        List.take_of_length_le (Nat.le_add_right ..), Nat.add_sub_cancel_left]
    · rw [List.take_eq_self_iff, List.length_append]
      constructor
      · intro hcount
        by_contra hlt
        have hpos : 0 < size * n := Nat.mul_pos hs hn0
        have hless : min (m - fp.pending.length) data.length < size * n := by omega
        have := Nat.div_lt_of_lt_mul hless
        omega
      · intro hall
        rw [Nat.min_eq_right (by omega), hn, Nat.mul_div_cancel_left n hs]

/-- Closing leaves a prefix of what was written, all of it exactly when it returns 0. -/
theorem fclose_spec {w : World π} {fp : Writer π} {written : Bytes} (h : Holds w fp written) :
    Frame fp.path w (fclose w fp).world ∧
      ∃ left, (fclose w fp).world.files fp.path = some left ∧ left <+: written ∧
        ((fclose w fp).code = 0 ↔ left = written) ∧ (w.Faultless → (fclose w fp).code = 0) := by
  obtain ⟨content, hc, hp, rfl⟩ := h
  unfold fclose
  cases hf : w.fault w.calls with
  | none =>
    refine ⟨land_frame w fp _ _, content ++ fp.pending, ?_, List.prefix_rfl, by simp, fun _ => rfl⟩
    simp only [land_file _ _ hc hp, List.take_length]
  | some n =>
    refine ⟨land_frame w fp _ _, content ++ fp.pending.take n, land_file _ _ hc hp,
      List.prefix_append_right_inj content |>.mpr (List.take_prefix ..), ?_,
      fun hfree => by rw [hfree] at hf; cases hf⟩
    rw [List.append_cancel_left_eq, List.take_eq_self_iff]
    show (if n < fp.pending.length then (-1 : Int) else 0) = 0 ↔ _
    split
    · exact iff_of_false (by decide) (by omega)
    · exact iff_of_true rfl (by omega)

/-- Closing two streams one after the other. -/
theorem fclose_both {w : World π} {fp fp' : Writer π} {written written' : Bytes}
    (h : Holds w fp written) (h' : Holds w fp' written') (hne : fp.path ≠ fp'.path) :
    ∃ left left', (fclose (fclose w fp).world fp').world.files fp.path = some left ∧
      (fclose (fclose w fp).world fp').world.files fp'.path = some left' ∧
      left <+: written ∧ left' <+: written' ∧ (w.Faultless → left = written ∧ left' = written') ∧
      ∀ q, q ≠ fp.path → q ≠ fp'.path → (fclose (fclose w fp).world fp').world.files q = w.files q := by
  obtain ⟨hframe, left, hfile, hprefix, hcode, hfree⟩ := fclose_spec h
  obtain ⟨hframe', left', hfile', hprefix', hcode', hfree'⟩ :=
    fclose_spec (h'.frame hframe (Ne.symm hne))
  refine ⟨left, left', ?_, hfile', hprefix, hprefix', fun hw => ⟨hcode.mp (hfree hw), ?_⟩, ?_⟩
  · rw [hframe'.files _ hne, hfile]
  · refine hcode'.mp (hfree' fun k => ?_)
    rw [hframe.fault]
    exact hw k
  · intro q hq hq'
    rw [hframe'.files q hq', hframe.files q hq]

end Writing

end Base.Stdio
