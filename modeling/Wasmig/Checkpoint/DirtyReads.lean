import Mathlib.Logic.Function.Iterate
import Wasmig.Checkpoint.DirtyMemory

/-! Reading dirty pages from a file that fails.

`restore_dirty_memory` reads until it has seen the end of the file, and a read that fails does
not see it. A failure now and then only makes it take other bytes for offsets and pages; but
where all reads fail from some point on, the loop has no end (`restoreDirtyMemory_returns_iff`). -/
namespace Wasmig
open Base Base.Stdio

namespace DirtyRestore

/-- The loop has come to its end within so many rounds. -/
def EndsWithin (s : DirtyRestore) (n : Nat) : Prop := (next^[n] s).memoryFp.eof = true

/-! ### One round -/

theorem next_ended {s : DirtyRestore} (h : s.memoryFp.eof = true) : s.next = s := if_pos h

/-- A round that starts with a failure gets nothing, and is no nearer to the end. -/
theorem next_failed {s : DirtyRestore} (heof : s.memoryFp.eof = false) (h : s.faults.fails = true) :
    s.next.memory = s.memory ∧ s.next.memoryFp.eof = false ∧
      s.next.memoryFp.unread.length ≤ s.memoryFp.unread.length ∧ s.next.faults = s.faults.tick := by
  obtain ⟨hcount, hsame⟩ := freadOrFail_failed h s.memoryFp (show 0 < 4 by decide) (show 0 < 1 by decide)
  have hround : s.next = ⟨s.memory, (freadOrFail s.faults s.memoryFp 4 1).fp, s.faults.tick⟩ := by
    rw [next, if_neg (by rw [heof]; decide)]
    dsimp only
    rw [if_pos (Nat.lt_one_iff.mp hcount), freadOrFail_faults]
  rw [hround]
  exact ⟨rfl, hsame.trans heof, freadOrFail_unread_le .., rfl⟩

/-- Any other round gets an offset, or sees that there is none. -/
theorem next_advances {s : DirtyRestore} (heof : s.memoryFp.eof = false) (h : s.faults.fails = false) :
    s.next.memoryFp.eof = true ∨ s.next.memoryFp.unread.length < s.memoryFp.unread.length := by
  obtain ⟨hcount, hend⟩ := fread_item s.memoryFp 4 (by decide)
  rw [next, if_neg (by rw [heof]; decide), freadOrFail_ok h]
  dsimp only
  by_cases h4 : s.memoryFp.unread.length < 4
  · rw [if_pos h4] at hcount
    rw [if_pos hcount]
    exact .inl (hend h4)
  · rw [if_neg h4] at hcount
    have hne : (fread s.memoryFp 4 1).count ≠ 0 := by rw [hcount]; decide
    rw [if_neg hne]
    exact .inr (Nat.lt_of_le_of_lt (freadOrFail_unread_le ..) (fread_unread_lt _ _ _ hne))

/-- Every round makes a call, unless there is none. -/
theorem next_faults (s : DirtyRestore) :
    Faults.Ahead s.faults s.next.faults ∧ (s.memoryFp.eof = false → s.faults.calls < s.next.faults.calls) := by
  unfold next
  split
  · rename_i heof
    exact ⟨Faults.Ahead.refl _, fun h => absurd (heof.symm.trans h) (by decide)⟩
  dsimp only
  split
  · rw [freadOrFail_faults]
    exact ⟨Faults.ahead_tick _, fun _ => Nat.lt_succ_self _⟩
  · dsimp only
    rw [freadOrFail_faults, freadOrFail_faults]
    refine ⟨(Faults.ahead_tick _).trans (Faults.ahead_tick _), fun _ => ?_⟩
    exact Nat.lt_trans (Nat.lt_succ_self _) (Nat.lt_succ_self _)

/-- Only the first page is written. -/
theorem next_outside (s : DirtyRestore) {x : Nat} (hx : osPageSize ≤ x) : s.next.memory x = s.memory x := by
  unfold next
  split
  · rfl
  dsimp only
  split
  · rfl
  · obtain ⟨m, hm, hdata, -, -⟩ := freadOrFail_advances (freadOrFail s.faults s.memoryFp 4 1).faults
      (freadOrFail s.faults s.memoryFp 4 1).fp osPageSize 1
    refine Memory.write_outside _ _ _ _ (.inr ?_)
    rw [hdata, List.length_take]
    omega

/-! ### All rounds -/

theorem iterate_ended {s : DirtyRestore} (h : s.memoryFp.eof = true) (n : Nat) : next^[n] s = s :=
  Function.iterate_fixed (next_ended h) n

theorem EndsWithin.mono {s : DirtyRestore} {n m : Nat} (h : s.EndsWithin n) (hle : n ≤ m) : s.EndsWithin m := by
  obtain ⟨k, rfl⟩ := Nat.exists_eq_add_of_le' hle
  rw [EndsWithin, Function.iterate_add_apply, iterate_ended h]
  exact h

theorem iterate_ahead (s : DirtyRestore) (n : Nat) : Faults.Ahead s.faults (next^[n] s).faults := by
  induction n generalizing s with
  | zero => exact Faults.Ahead.refl _
  | succ n ih => exact (next_faults s).1.trans (ih s.next)

/-- As long as the loop goes on it makes calls. -/
theorem iterate_calls {s : DirtyRestore} {n : Nat} (h : ¬ s.EndsWithin n) :
    s.faults.calls + n ≤ (next^[n] s).faults.calls := by
  induction n generalizing s with
  | zero => exact Nat.le_refl _
  | succ n ih =>
    have heof : s.memoryFp.eof = false := by
      by_contra hended
      exact h (EndsWithin.mono (n := 0) (eq_true_of_ne_false hended) (Nat.zero_le _))
    have hcalls := (next_faults s).2 heof
    have hrest : s.next.faults.calls + n ≤ (next^[n + 1] s).faults.calls := ih h
    omega

/-- With failures only, the loop goes on. -/
theorem not_ends_of_failing {s : DirtyRestore} (heof : s.memoryFp.eof = false)
    (h : ∀ k, s.faults.calls ≤ k → s.faults.fault k ≠ none) (n : Nat) : ¬ s.EndsWithin n := by
  induction n generalizing s with
  | zero => exact fun hended => absurd (heof.symm.trans hended) (by decide)
  | succ n ih =>
    have hfails : s.faults.fails = true := Option.isSome_iff_ne_none.mpr (h _ (Nat.le_refl _))
    obtain ⟨-, hround, -, hfaults⟩ := next_failed heof hfails
    refine ih hround fun k hk => ?_
    rw [hfaults] at hk ⊢
    exact h k (Nat.le_of_succ_le hk)

/-- Calls succeed again and again. -/
def Recovers (f : Faults) : Prop := ∀ k, ∃ j, k ≤ j ∧ f.fault j = none

theorem next_recovers {s : DirtyRestore} (h : Recovers s.faults) : Recovers s.next.faults := by
  unfold Recovers
  rw [(next_faults s).1.fault]
  exact h

theorem ends_of_next {s : DirtyRestore} (h : ∃ m, s.next.EndsWithin m) : ∃ m, s.EndsWithin m := by
  obtain ⟨m, hm⟩ := h
  exact ⟨m + 1, hm⟩

/-- A round whose first call succeeds leaves less to read. -/
theorem ends_of_good {n : Nat} (ih : ∀ s : DirtyRestore, s.memoryFp.unread.length < n → Recovers s.faults →
      ∃ m, s.EndsWithin m)
    {s : DirtyRestore} (hn : s.memoryFp.unread.length < n + 1) (h : Recovers s.faults)
    (hgood : s.faults.fault s.faults.calls = none) : ∃ m, s.EndsWithin m := by
  cases heof : s.memoryFp.eof with
  | true => exact ⟨0, heof⟩
  | false =>
    have hfails : s.faults.fails = false := Option.isSome_eq_false_iff.mpr (Option.isNone_iff_eq_none.mpr hgood)
    rcases next_advances heof hfails with hended | hless
    · exact ⟨1, hended⟩
    · exact ends_of_next (ih s.next (by omega) (next_recovers h))

/-- The loop ends if calls succeed again and again: an outer induction on what is left to read, an
inner one on the failures before the next success. -/
theorem ends_of_recovers (n : Nat) (s : DirtyRestore) (hn : s.memoryFp.unread.length < n) (h : Recovers s.faults) :
    ∃ m, s.EndsWithin m := by
  induction n generalizing s with
  | zero => exact absurd hn (Nat.not_lt_zero _)
  | succ n ihn =>
    obtain ⟨j, hj, hgood⟩ := h s.faults.calls
    obtain ⟨d, rfl⟩ := Nat.exists_eq_add_of_le hj
    induction d generalizing s with
    | zero => exact ends_of_good ihn hn h hgood
    | succ d ihd =>
      cases heof : s.memoryFp.eof with
      | true => exact ⟨0, heof⟩
      | false =>
        cases hfails : s.faults.fails with
        | false => exact ends_of_good ihn hn h (Option.isNone_iff_eq_none.mp (Option.isSome_eq_false_iff.mp hfails))
        | true =>
          obtain ⟨-, -, hle, hfaults⟩ := next_failed heof hfails
          refine ends_of_next (ihd s.next (Nat.lt_of_le_of_lt hle hn) (next_recovers h) ?_ ?_)
          · exact Nat.le_add_right ..
          · rw [hfaults]
            show s.faults.fault (s.faults.calls + 1 + d) = none
            rw [Nat.add_assoc, Nat.add_comm 1 d]
            exact hgood

/-! ### What comes of it -/

/-- A round without failures is one of the loop without failures. -/
theorem next_calm {s : DirtyRestore} (h : Faults.Calm s.faults s.next.faults) :
    restoreDirtyMemory s.next.memory s.next.memoryFp = restoreDirtyMemory s.memory s.memoryFp := by
  cases heof : s.memoryFp.eof with
  | true => rw [next_ended heof]
  | false =>
    have hmore : ¬ s.memoryFp.eof = true := by rw [heof]; decide
    have hahead : s.faults.tick.calls ≤ s.next.faults.calls := (next_faults s).2 heof
    have hoffset : freadOrFail s.faults s.memoryFp 4 1 = ⟨fread s.memoryFp 4 1, s.faults.tick⟩ := by
      refine freadOrFail_ok ((Faults.calm_tick _).mp fun k hle hlt => ?_) _ _ _
      exact h k hle (Nat.lt_of_lt_of_le hlt hahead)
    rw [restoreDirtyMemory_round s.memory hmore]
    unfold next at h ⊢
    rw [if_neg hmore] at h ⊢
    dsimp only at h ⊢
    rw [hoffset] at h ⊢
    dsimp only at h ⊢
    by_cases hcount : (fread s.memoryFp 4 1).count = 0
    · rw [if_pos hcount, if_pos hcount]
    · rw [if_neg hcount] at h ⊢
      rw [if_neg hcount]
      dsimp only at h ⊢
      rw [freadOrFail_faults] at h
      have hpage : freadOrFail s.faults.tick (fread s.memoryFp 4 1).fp osPageSize 1 =
          ⟨fread (fread s.memoryFp 4 1).fp osPageSize 1, s.faults.tick.tick⟩ := by
        refine freadOrFail_ok ((Faults.calm_tick _).mp fun k hle hlt => ?_) _ _ _
        exact h k (Nat.le_of_succ_le hle) hlt
      rw [hpage]

theorem iterate_calm {s : DirtyRestore} {n : Nat} (h : Faults.Calm s.faults (next^[n] s).faults) :
    restoreDirtyMemory (next^[n] s).memory (next^[n] s).memoryFp = restoreDirtyMemory s.memory s.memoryFp := by
  induction n generalizing s with
  | zero => rfl
  | succ n ih =>
    obtain ⟨hround, hrest⟩ := (Faults.calm_trans (next_faults s).1 (iterate_ahead s.next n)).mp h
    exact (ih hrest).trans (next_calm hround)

theorem iterate_outside (s : DirtyRestore) (n : Nat) {x : Nat} (hx : osPageSize ≤ x) :
    (next^[n] s).memory x = s.memory x := by
  induction n generalizing s with
  | zero => rfl
  | succ n ih => exact (ih s.next).trans (next_outside s hx)

end DirtyRestore

open DirtyRestore in
/-- Whatever reads fail: if reads succeed again and again the loop ends; if all of them fail from
the `k`-th on, it ends only if it has seen the end of the file within `k` rounds, and goes on for
ever otherwise. If it ends without a failure, the memory is what it is without failures; and in no
round anything behind the first page changes. -/
theorem restoreDirtyMemory_returns_iff (s : DirtyRestore) :
    (Recovers s.faults → ∃ n, s.EndsWithin n) ∧
    (∀ k, (∀ j, k ≤ j → s.faults.fault j ≠ none) → ((∃ n, s.EndsWithin n) ↔ s.EndsWithin k)) ∧
    (∀ n, s.EndsWithin n → Faults.Calm s.faults (next^[n] s).faults →
      (next^[n] s).memory = restoreDirtyMemory s.memory s.memoryFp) ∧
    ∀ n x, osPageSize ≤ x → (next^[n] s).memory x = s.memory x := by
  refine ⟨ends_of_recovers _ s (Nat.lt_succ_self _), fun k hfailing => ⟨?_, fun hk => ⟨k, hk⟩⟩, ?_,
    fun n x => iterate_outside s n⟩
  · rintro ⟨n, hn⟩
    by_contra hgoes
    -- After `k` rounds `k` calls have been made, and all that follow fail.
    have hcalls := iterate_calls hgoes
    have hahead := iterate_ahead s k
    have hnever := not_ends_of_failing (eq_false_of_ne_true hgoes) (fun j hj => by
      rw [hahead.fault]
      exact hfailing j (by omega)) n
    refine hnever ?_
    rw [EndsWithin, ← Function.iterate_add_apply]
    exact EndsWithin.mono hn (Nat.le_add_right n k)
  · intro n hended hcalm
    rw [← iterate_calm hcalm, restoreDirtyMemory_eof _ hended]

end Wasmig
