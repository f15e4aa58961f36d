import Wasmig.Memory.RestoreMemory
import Wasmig.Memory.Stopped

/-! Memory images that cannot be read.

Opening an image, finding its size and reading it may fail at any call. `restore.cpp` checks
them all, and takes an index that it cannot read for the end of the file only when it has seen
that end: a walk over the chunks that meets a failure returns -1, and has called its visitor
for an initial part of the visits (`visitMemoryChunks_readErrors`). So a restore leaves part of
the memory in its destination, but trying again makes good for it: what the first attempt that
returns 0 leaves is what a first attempt without failures leaves (`restoreMemoryInto_retried`).
`wasmig_restore_memory` hands out nothing but whole memories (`restoreMemory_readErrors`). -/
namespace Wasmig
open Base Base.Stdio Base.Stopping

/-! ### Walks -/

section
variable {σ : Type} (visitor : Visitor σ)

/-- Whatever calls on the files fail: a walk in which none does is what it is without failures,
and any other returns -1, having called the visitor for an initial part of what it is told
otherwise, all of which it answered with 0. So the walk returns 0 exactly if no call failed and
it would do so without failures. -/
theorem visitMemoryChunks_readErrors (dir : Directory) (s : σ) (f : Faults) :
    let r := visitMemoryChunksOrFail dir visitor s f
    (Faults.Calm f r.2 → r.1 = visitMemoryChunks dir visitor s) ∧
    (¬ Faults.Calm f r.2 → r.1.1 = -1 ∧ ∃ calls, calls <+: visitorCalls dir visitor s ∧
      (∀ code ∈ codes visitor.told calls s, code = 0) ∧ r.1.2 = after visitor.told calls s) ∧
    (r.1.1 = 0 ↔ Faults.Calm f r.2 ∧ (visitMemoryChunks dir visitor s).1 = 0) := by
  intro r
  have h : Tried f r (visitMemoryChunks dir visitor s) (BrokenOff visitor (directoryTranscript dir).visits s) := by
    rw [visitMemoryChunks_eq]
    exact visitMemoryChunksOrFail_tried visitor dir s f
  have hbroken : ¬ Faults.Calm f r.2 → r.1.1 = -1 ∧ ∃ calls, calls <+: visitorCalls dir visitor s ∧
      (∀ code ∈ codes visitor.told calls s, code = 0) ∧ r.1.2 = after visitor.told calls s := by
    intro hnot
    obtain ⟨calls, hprefix, hcodes, hr⟩ := h.broken hnot
    rw [visitorCalls_taken, hr]
    exact ⟨rfl, calls, prefix_taken visitor.told hprefix hcodes, hcodes, rfl⟩
  refine ⟨h.calm, hbroken, ?_⟩
  by_cases hcalm : Faults.Calm f r.2
  · rw [h.calm hcalm]
    exact (and_iff_right hcalm).symm
  · refine iff_of_false ?_ fun hboth => hcalm hboth.1
    rw [(hbroken hcalm).1]
    decide

end

/-! ### What a failure leaves -/

theorem restoreMemoryInto_copies (dir : Directory) (dst dstSize : Nat) (ram : Ram) :
    CopiedSome dir dst dstSize ram (restoreMemoryInto dir dst dstSize ram).2 := by
  by_cases hready : ∃ info, Ready dir dst dstSize info
  · obtain ⟨info, hready⟩ := hready
    rw [restoreMemoryInto_ready hready]
    exact .inr ⟨info, _, hready, List.prefix_refl _, rfl⟩
  · rw [restoreMemoryInto_refused fun info h => hready ⟨info, h⟩]
    exact .inl rfl

theorem restoreMemoryIntoOrFail_copies (dir : Directory) (dst dstSize : Nat) (ram : Ram) (f : Faults) :
    CopiedSome dir dst dstSize ram (restoreMemoryIntoOrFail dir dst dstSize ram f).1.2 := by
  have h := restoreMemoryIntoOrFail_tried dir dst dstSize ram f
  by_cases hcalm : Faults.Calm f (restoreMemoryIntoOrFail dir dst dstSize ram f).2
  · rw [h.calm hcalm]
    exact restoreMemoryInto_copies dir dst dstSize ram
  · exact (h.broken hcalm).2

section
variable {dir : Directory} {dst dstSize : Nat}

/-- Where a whole restore writes nothing, nothing has changed. -/
theorem CopiedSome.outside {ram after : Ram} (h : CopiedSome dir dst dstSize ram after) {x : Nat}
    (hx : ∀ write ∈ (directoryTranscript dir).visits.map (Visit.write dst), ¬ Memory.Covers write x) :
    after.bytes x = ram.bytes x := by
  rcases h with rfl | ⟨info, visits, -, hinitial, rfl⟩
  · rfl
  · exact Memory.writeAll_outside _ _ x fun write hwrite => hx write ((hinitial.map _).subset hwrite)

theorem Visit.Within.not_covers {v : Visit} (h : v.Within dstSize) {x : Nat} (hx : x < dst ∨ dst + dstSize ≤ x) :
    ¬ Memory.Covers (v.write dst) x := by
  intro hcovers
  have hstart : dst + v.offset.toNat ≤ x := hcovers.1
  have hstop : x < dst + v.offset.toNat + (v.data.take v.len.toNat).length := hcovers.2
  have hlen : (v.data.take v.len.toNat).length ≤ v.len.toNat := List.length_take_le ..
  have hinside := h.inside
  omega

/-- Nothing is written but to the destination. -/
theorem CopiedSome.beside {ram after : Ram} (h : CopiedSome dir dst dstSize ram after) {x : Nat}
    (hx : x < dst ∨ dst + dstSize ≤ x) : after.bytes x = ram.bytes x := by
  rcases h with rfl | ⟨info, visits, hready, hinitial, rfl⟩
  · rfl
  · refine Memory.writeAll_outside _ _ x fun write hwrite => ?_
    obtain ⟨v, hv, rfl⟩ := List.mem_map.mp hwrite
    have hwithin := directoryTranscript_within hready.valid v (hinitial.subset hv)
    exact Visit.Within.not_covers ⟨Nat.le_trans hwithin.inside hready.large, hwithin.available⟩ hx

/-! ### Trying again -/

/-- The memory after some attempts at a restore to one destination. -/
def restoreAttempts (dir : Directory) (dst dstSize : Nat) (ram : Ram) (attempts : List Faults) : Ram :=
  attempts.foldl (fun ram f => (restoreMemoryIntoOrFail dir dst dstSize ram f).1.2) ram

/-- What is true of one attempt wherever it starts is true of any number of them. -/
theorem restoreAttempts_bytes (attempts : List Faults) {x : Nat}
    (hattempt : ∀ ram after, CopiedSome dir dst dstSize ram after → after.bytes x = ram.bytes x) (ram : Ram) :
    (restoreAttempts dir dst dstSize ram attempts).bytes x = ram.bytes x := by
  induction attempts generalizing ram with
  | nil => rfl
  | cons f attempts ih =>
    exact (ih _).trans (hattempt _ _ (restoreMemoryIntoOrFail_copies dir dst dstSize ram f))

/-- The code does not depend on what memory held, and what a restore leaves depends on it only
where nothing is copied. -/
theorem restoreMemoryInto_again {ram ram' : Ram}
    (h : ∀ x, (∀ write ∈ (directoryTranscript dir).visits.map (Visit.write dst), ¬ Memory.Covers write x) →
      ram'.bytes x = ram.bytes x) :
    (restoreMemoryInto dir dst dstSize ram').1 = (restoreMemoryInto dir dst dstSize ram).1 ∧
      ((restoreMemoryInto dir dst dstSize ram).1 = 0 → ∀ x,
        (restoreMemoryInto dir dst dstSize ram').2.bytes x = (restoreMemoryInto dir dst dstSize ram).2.bytes x) := by
  by_cases hready : ∃ info, Ready dir dst dstSize info
  · obtain ⟨info, hready⟩ := hready
    rw [restoreMemoryInto_ready hready, restoreMemoryInto_ready hready]
    exact ⟨rfl, fun _ => Memory.writeAll_again h⟩
  · have hrefused := restoreMemoryInto_refused fun info h => hready ⟨info, h⟩
    rw [hrefused, hrefused]
    exact ⟨rfl, fun hcode => absurd (show (-1 : Int) = 0 from hcode) (by decide)⟩

/-- After any attempts to restore to a destination, whatever failed in them, one more returns 0
exactly if none of its calls fails and a first attempt without failures would return 0; it then
leaves, byte for byte, what that would have left. Nothing but the destination is ever written. -/
theorem restoreMemoryInto_retried (ram : Ram) (attempts : List Faults) (f : Faults) :
    let r := restoreMemoryIntoOrFail dir dst dstSize (restoreAttempts dir dst dstSize ram attempts) f
    (r.1.1 = 0 ↔ Faults.Calm f r.2 ∧ (restoreMemoryInto dir dst dstSize ram).1 = 0) ∧
    (r.1.1 = 0 → ∀ x, r.1.2.bytes x = (restoreMemoryInto dir dst dstSize ram).2.bytes x) ∧
    ∀ x, (x < dst ∨ dst + dstSize ≤ x) → r.1.2.bytes x = ram.bytes x := by
  intro r
  have h : Tried f r _ _ := restoreMemoryIntoOrFail_tried dir dst dstSize _ f
  have houtside : ∀ x, (∀ write ∈ (directoryTranscript dir).visits.map (Visit.write dst), ¬ Memory.Covers write x) →
      (restoreAttempts dir dst dstSize ram attempts).bytes x = ram.bytes x :=
    fun x hx => restoreAttempts_bytes attempts (fun _ _ hcopied => hcopied.outside hx) ram
  have hsame := @restoreMemoryInto_again dir dst dstSize ram _ houtside
  have hcode : r.1.1 = 0 ↔ Faults.Calm f r.2 ∧ (restoreMemoryInto dir dst dstSize ram).1 = 0 := by
    by_cases hcalm : Faults.Calm f r.2
    · rw [h.calm hcalm, hsame.1]
      exact (and_iff_right hcalm).symm
    · refine iff_of_false ?_ fun hboth => hcalm hboth.1
      rw [(h.broken hcalm).1]
      decide
  refine ⟨hcode, fun hzero x => ?_, fun x hx => ?_⟩
  · obtain ⟨hcalm, hfirst⟩ := hcode.mp hzero
    rw [h.calm hcalm]
    exact hsame.2 hfirst x
  · rw [(restoreMemoryIntoOrFail_copies dir dst dstSize _ f).beside hx]
    exact restoreAttempts_bytes attempts (fun _ _ hcopied => hcopied.beside hx) ram

end

/-- Whatever calls on the files fail: `wasmig_restore_memory` returns what it does without
failures if none does, and `{0, NULL}` otherwise, never a block with part of the memory. -/
theorem restoreMemory_readErrors (dir : Directory) (block : Nat) (ram : Ram) (f : Faults) :
    let r := restoreMemoryOrFail dir block ram f
    (Faults.Calm f r.2 → r.1 = restoreMemory dir block ram) ∧ (¬ Faults.Calm f r.2 → r.1.Failed) :=
  ⟨(restoreMemoryOrFail_tried dir block ram f).calm, (restoreMemoryOrFail_tried dir block ram f).broken⟩

end Wasmig
