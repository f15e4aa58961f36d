import Wasmig.Base.Stdio

/-! Files whose calls may fail.

The environment says of each call that opens, places or reads a file whether it fails. A read
that fails gets less than it was asked for and does not see the end of the file. `Tried` is
what is known of a function that makes such calls: what it comes to when none of them fails,
and what is true of the result when one does. Functions that check every call are composed by
`Tried.andThen`. -/
namespace Base.Stdio

/-- What the environment does to the calls: the `k`-th is left alone (`none`) or fails, a read
after at most `n` bytes (`some n`). -/
structure Faults where
  fault : Nat → Option Nat
  calls : Nat

namespace Faults

/-- No call fails. -/
def never : Faults := ⟨fun _ => none, 0⟩

/-- The environment's next answer is used up. -/
def tick (f : Faults) : Faults := {f with calls := f.calls + 1}

/-- The next call fails. -/
def fails (f : Faults) : Bool := (f.fault f.calls).isSome

/-- The same environment, some calls later. -/
structure Ahead (f f' : Faults) : Prop where
  fault : f'.fault = f.fault
  calls : f.calls ≤ f'.calls

/-- No call from here to there fails. -/
def Calm (f f' : Faults) : Prop := ∀ k, f.calls ≤ k → k < f'.calls → f.fault k = none

theorem Ahead.refl (f : Faults) : Ahead f f := ⟨rfl, Nat.le_refl _⟩

theorem Ahead.trans {f f' f'' : Faults} (h : Ahead f f') (h' : Ahead f' f'') : Ahead f f'' :=
  ⟨h'.fault.trans h.fault, Nat.le_trans h.calls h'.calls⟩

theorem ahead_tick (f : Faults) : Ahead f f.tick := ⟨rfl, Nat.le_succ _⟩

theorem calm_never (f' : Faults) : Calm never f' := fun _ _ _ => rfl

theorem calm_refl (f : Faults) : Calm f f := fun _ hle hlt => absurd hlt (Nat.not_lt.mpr hle)

theorem calm_tick (f : Faults) : Calm f f.tick ↔ f.fails = false := by
  unfold fails
  rw [Option.isSome_eq_false_iff, Option.isNone_iff_eq_none]
  constructor
  · exact fun h => h f.calls (Nat.le_refl _) (Nat.lt_succ_self _)
  · intro h k hle hlt
    rw [Nat.le_antisymm (Nat.le_of_lt_succ hlt) hle]
    exact h

/-- A stretch of calls is calm if both of its parts are. -/
theorem calm_trans {f f' f'' : Faults} (h : Ahead f f') (h' : Ahead f' f'') :
    Calm f f'' ↔ Calm f f' ∧ Calm f' f'' := by
  constructor
  · intro hcalm
    refine ⟨fun k hle hlt => hcalm k hle (Nat.lt_of_lt_of_le hlt h'.calls), fun k hle hlt => ?_⟩
    rw [h.fault]
    exact hcalm k (Nat.le_trans h.calls hle) hlt
  · intro hboth k hle hlt
    by_cases hk : k < f'.calls
    · exact hboth.1 k hle hk
    · rw [← h.fault]
      exact hboth.2 k (Nat.not_lt.mp hk) hlt

end Faults

open Faults

/-- What a function comes to that makes calls from `f` on: `a` when none of them fails, and
something with `failed` when one does. -/
structure Tried {α : Type} (f : Faults) (r : α × Faults) (a : α) (failed : α → Prop) : Prop where
  ahead : Ahead f r.2
  calm : Calm f r.2 → r.1 = a
  broken : ¬ Calm f r.2 → failed r.1

namespace Tried
variable {α β : Type} {f : Faults} {a : α} {b : β} {failed : α → Prop} {failed' : β → Prop}

/-- Coming to a result without a call. -/
theorem done (a : α) (failed : α → Prop) : Tried f (a, f) a failed :=
  ⟨Ahead.refl f, fun _ => rfl, fun h => absurd (calm_refl f) h⟩

/-- Without failures it comes to the right result. -/
theorem never {r : α × Faults} (h : Tried Faults.never r a failed) : r.1 = a := h.calm (calm_never r.2)

/-- One call, and what follows it. -/
theorem step {r : α × Faults} (hgood : f.fails = false → Tried f.tick r a failed)
    (hbad : f.fails = true → r.2 = f.tick ∧ failed r.1) : Tried f r a failed := by
  cases hfails : f.fails with
  | true =>
    obtain ⟨hfaults, hfailed⟩ := hbad hfails
    refine ⟨hfaults ▸ ahead_tick f, fun hcalm => ?_, fun _ => hfailed⟩
    rw [hfaults, calm_tick, hfails] at hcalm
    exact Bool.noConfusion hcalm
  | false =>
    have h := hgood hfails
    have htrans := calm_trans (ahead_tick f) h.ahead
    refine ⟨(ahead_tick f).trans h.ahead, fun hall => h.calm (htrans.mp hall).2, fun hnot => h.broken fun hrest => ?_⟩
    exact hnot (htrans.mpr ⟨(calm_tick f).mpr hfails, hrest⟩)

/-- A call that is seen to fail ends it. -/
theorem check {a' : α} (hfailed : failed a') {r : α × Faults} (h : Tried f.tick r a failed) :
    Tried f (if f.fails then (a', f.tick) else r) a failed := by
  refine step (fun hgood => ?_) fun hbad => ?_
  · rw [hgood]
    exact h
  · rw [hbad]
    exact ⟨rfl, hfailed⟩

/-- Going on after a result: from the right one it is known what comes, and from a failure
another follows. -/
theorem andThen {r : α × Faults} {r' : β × Faults} (h : Tried f r a failed)
    (hgood : r.1 = a → Tried r.2 r' b failed') (hbad : failed r.1 → Ahead r.2 r'.2 ∧ failed' r'.1) :
    Tried f r' b failed' := by
  by_cases hcalm : Calm f r.2
  · have h' := hgood (h.calm hcalm)
    have htrans := calm_trans h.ahead h'.ahead
    refine ⟨h.ahead.trans h'.ahead, fun hall => h'.calm (htrans.mp hall).2, fun hnot => h'.broken fun hrest => ?_⟩
    exact hnot (htrans.mpr ⟨hcalm, hrest⟩)
  · obtain ⟨hahead, hfailed⟩ := hbad (h.broken hcalm)
    refine ⟨h.ahead.trans hahead, fun hall => ?_, fun _ => hfailed⟩
    exact absurd ((calm_trans h.ahead hahead).mp hall).1 hcalm

theorem congr {r : α × Faults} {a' : α} {failed'' : α → Prop} (h : Tried f r a failed) (ha : a = a')
    (hfailed : ∀ x, failed x → failed'' x) : Tried f r a' failed'' :=
  ⟨h.ahead, fun hcalm => (h.calm hcalm).trans ha, fun hnot => hfailed _ (h.broken hnot)⟩

end Tried

/-! ### Reads -/

/-- What an `fread` leaves when it may fail. -/
structure ReadOrFail extends Read where
  faults : Faults

/-- `fread(buf, size, nmemb, fp)`. -/
def freadOrFail (f : Faults) (fp : Reader) (size nmemb : Nat) : ReadOrFail :=
  match f.fault f.calls with
  | none => ⟨fread fp size nmemb, f.tick⟩
  | some n =>
    let data := fp.unread.take (min n (size * nmemb - 1))
    ⟨⟨data, data.length / size, {fp with pos := fp.pos + data.length}⟩, f.tick⟩

theorem freadOrFail_ok {f : Faults} (h : f.fails = false) (fp : Reader) (size nmemb : Nat) :
    freadOrFail f fp size nmemb = ⟨fread fp size nmemb, f.tick⟩ := by
  unfold freadOrFail
  rw [Option.isNone_iff_eq_none.mp (Option.isSome_eq_false_iff.mp h)]

theorem freadOrFail_faults (f : Faults) (fp : Reader) (size nmemb : Nat) :
    (freadOrFail f fp size nmemb).faults = f.tick := by
  unfold freadOrFail
  split
  · rfl
  · rfl

/-- A read that fails gets too few items, and does not see the end of the file. -/
theorem freadOrFail_failed {f : Faults} (h : f.fails = true) (fp : Reader) {size nmemb : Nat}
    (hsize : 0 < size) (hnmemb : 0 < nmemb) :
    (freadOrFail f fp size nmemb).count < nmemb ∧ (freadOrFail f fp size nmemb).fp.eof = fp.eof := by
  obtain ⟨n, hn⟩ := Option.isSome_iff_exists.mp h
  unfold freadOrFail
  rw [hn]
  refine ⟨?_, rfl⟩
  have hpos : 0 < size * nmemb := Nat.mul_pos hsize hnmemb
  have hle : (fp.unread.take (min n (size * nmemb - 1))).length ≤ min n (size * nmemb - 1) := List.length_take_le ..
  exact Nat.div_lt_of_lt_mul (by omega)

/-- Going on after a read: a failure of it is found out by the number of items. -/
theorem Tried.read {α : Type} {f : Faults} {r : α × Faults} {a : α} {failed : α → Prop} (fp : Reader) (size nmemb : Nat)
    (hsize : 0 < size) (hnmemb : 0 < nmemb)
    (hgood : freadOrFail f fp size nmemb = ⟨fread fp size nmemb, f.tick⟩ → Tried f.tick r a failed)
    (hbad : (freadOrFail f fp size nmemb).count < nmemb → (freadOrFail f fp size nmemb).fp.eof = fp.eof →
      r.2 = (freadOrFail f fp size nmemb).faults ∧ failed r.1) :
    Tried f r a failed := by
  refine Tried.step (fun h => hgood (freadOrFail_ok h fp size nmemb)) fun h => ?_
  obtain ⟨hcount, heof⟩ := freadOrFail_failed h fp hsize hnmemb
  rw [← freadOrFail_faults f fp size nmemb]
  exact hbad hcount heof

/-- A read that is checked, and gets all it asks for unless it fails. -/
theorem Tried.full {α : Type} {f : Faults} {r : α × Faults} {a a' : α} {failed : α → Prop} {fp : Reader}
    {size nmemb : Nat} (hsize : 0 < size) (hnmemb : 0 < nmemb) (hfull : (fread fp size nmemb).count = nmemb)
    (hfailed : failed a')
    (hrest : freadOrFail f fp size nmemb = ⟨fread fp size nmemb, f.tick⟩ → Tried f.tick r a failed) :
    Tried f (if (freadOrFail f fp size nmemb).count ≠ nmemb then (a', (freadOrFail f fp size nmemb).faults) else r)
      a failed := by
  refine Tried.read fp size nmemb hsize hnmemb (fun hread => ?_) fun hcount _ => ?_
  · have hgood : (freadOrFail f fp size nmemb).count = nmemb := by rw [hread]; exact hfull
    rw [if_neg (not_not_intro hgood)]
    exact hrest hread
  · rw [if_pos (Nat.ne_of_lt hcount)]
    exact ⟨rfl, hfailed⟩

/-- A read that is checked, where there is too little to read. -/
theorem Tried.short {α : Type} {f : Faults} {r : α × Faults} {a : α} {failed : α → Prop} {fp : Reader}
    {size nmemb : Nat} (hsize : 0 < size) (hnmemb : 0 < nmemb) (hshort : (fread fp size nmemb).count ≠ nmemb)
    (hfailed : failed a) :
    Tried f (if (freadOrFail f fp size nmemb).count ≠ nmemb then (a, (freadOrFail f fp size nmemb).faults) else r)
      a failed := by
  refine Tried.read fp size nmemb hsize hnmemb (fun hread => ?_) fun hcount _ => ?_
  · have hbad : (freadOrFail f fp size nmemb).count ≠ nmemb := by rw [hread]; exact hshort
    rw [if_pos hbad, freadOrFail_faults]
    exact Tried.done _ _
  · rw [if_pos (Nat.ne_of_lt hcount)]
    exact ⟨rfl, hfailed⟩

/-- A read hands out bytes from where the stream is, and goes on behind them. -/
theorem freadOrFail_advances (f : Faults) (fp : Reader) (size nmemb : Nat) :
    ∃ m, m ≤ size * nmemb ∧ (freadOrFail f fp size nmemb).data = fp.unread.take m ∧
      (freadOrFail f fp size nmemb).count = (fp.unread.take m).length / size ∧
      (freadOrFail f fp size nmemb).fp.unread = fp.unread.drop m := by
  unfold freadOrFail
  split
  · exact ⟨size * nmemb, Nat.le_refl _, rfl, rfl, fread_unread fp size nmemb⟩
  · rename_i n hn
    refine ⟨min n (size * nmemb - 1), by omega, rfl, rfl, ?_⟩
    have h := fread_unread fp 1 (min n (size * nmemb - 1))
    rw [Nat.one_mul] at h
    rw [← h, fread, Reader.unread, Reader.unread, Nat.one_mul]
    rfl

theorem freadOrFail_unread_le (f : Faults) (fp : Reader) (size nmemb : Nat) :
    (freadOrFail f fp size nmemb).fp.unread.length ≤ fp.unread.length := by
  obtain ⟨m, -, -, -, hunread⟩ := freadOrFail_advances f fp size nmemb
  rw [hunread, List.length_drop]
  exact Nat.sub_le ..

/-- A read that gets an item leaves less to read. -/
theorem freadOrFail_unread_lt (f : Faults) (fp : Reader) (size nmemb : Nat)
    (h : (freadOrFail f fp size nmemb).count ≠ 0) :
    (freadOrFail f fp size nmemb).fp.unread.length < fp.unread.length := by
  obtain ⟨m, -, -, hcount, hunread⟩ := freadOrFail_advances f fp size nmemb
  rw [hcount, List.length_take] at h
  have hsize : size ≠ 0 := fun h0 => h (by rw [h0, Nat.div_zero])
  have hle : size ≤ min m fp.unread.length := by
    by_contra hlt
    exact h (Nat.div_eq_of_lt (Nat.not_le.mp hlt))
  rw [hunread, List.length_drop]
  omega

/-- Nothing but a read that gets too few items changes whether the end has been seen. -/
theorem fread_eof {fp : Reader} {size nmemb : Nat} (h : (fread fp size nmemb).count = nmemb) :
    (fread fp size nmemb).fp.eof = fp.eof := by
  have hcount : (fp.unread.take (size * nmemb)).length / size = nmemb := h
  have hle := Nat.div_mul_le_self (fp.unread.take (size * nmemb)).length size
  rw [hcount, Nat.mul_comm] at hle
  show (fp.eof || decide ((fp.unread.take (size * nmemb)).length < size * nmemb)) = fp.eof
  rw [decide_eq_false (Nat.not_lt.mpr hle), Bool.or_false]

end Base.Stdio
