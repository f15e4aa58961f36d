import Wasmig.Checkpoint.Directories
import Wasmig.Memory.Canonical

/-! Migration: what a destination restores of all that a source has checkpointed.

A directory of images is four registers, one for each kind (`run_sameImages`). Whatever calls a
process makes in one directory, in whatever order and with whatever failures among the others,
the restore functions give for every kind what its last call was given, if that call succeeded
(`migration_restored`). -/
namespace Wasmig
open Base Base.Stdio

/-! ### Last calls -/

/-- The call of a step, if it is one of the kind, with the process it was made in. -/
def callOf (kind : ImageKind) : Checkpointer × ProcessAction → Option (Checkpointer × CheckpointCall)
  | (p, .call call) => if call.kind = kind then some (p, call) else none
  | (_, .chdir _) => none

/-- The last call of the kind. -/
def lastCall (kind : ImageKind) : List (Checkpointer × ProcessAction) → Option (Checkpointer × CheckpointCall)
  | [] => none
  | step :: steps => (lastCall kind steps).or (callOf kind step)

section
variable {pb : ProtobufC} {tables : StackTables} {p p' : Checkpointer}

/-! ### Runs -/

/-- The step is not a call of the kind. -/
def NotOfKind (kind : ImageKind) (a : ProcessAction) : Prop := ∀ call, a = .call call → call.kind ≠ kind

/-- Steps that are not calls of a kind keep its images, whatever they return. -/
theorem run_sameImages {kind : ImageKind} {first last : Checkpointer} {steps : List (Checkpointer × ProcessAction)}
    (hrun : Run (Checkpointer.Step pb tables) first steps last) (hsettled : first.Settled)
    (hother : ∀ step ∈ steps, NotOfKind kind step.2) (dir : String) :
    SameImages kind (directory first.world dir) (directory last.world dir) := by
  have hstep : ∀ (s : Checkpointer) (a : ProcessAction) (s' : Checkpointer), Checkpointer.Step pb tables s a s' →
      (s.Settled ∧ SameImages kind (directory first.world dir) (directory s.world dir)) → NotOfKind kind a →
      s'.Settled ∧ SameImages kind (directory first.world dir) (directory s'.world dir) := by
    intro s a s' hstep h ha
    obtain ⟨hsettled, hsame⟩ := h
    refine ⟨hstep.settled hsettled, ?_⟩
    cases hstep with
    | chdir cwd => exact hsame
    | call code hcall =>
      intro name hname
      rw [CheckpointCall.run_sameImages hcall hsettled (.inl (ha _ rfl)) name hname]
      exact hsame name hname
  exact (Run.invariant hstep hrun ⟨hsettled, fun _ _ => rfl⟩ hother).2.2

theorem callOf_none {kind : ImageKind} {step : Checkpointer × ProcessAction} (h : callOf kind step = none) :
    NotOfKind kind step.2 := by
  obtain ⟨p, a⟩ := step
  rintro call rfl
  rw [callOf] at h
  exact (ite_eq_right_iff.mp h).mt (Option.some_ne_none _)

theorem callOf_some {kind : ImageKind} {step : Checkpointer × ProcessAction} {p : Checkpointer}
    {call : CheckpointCall} (h : callOf kind step = some (p, call)) : step = (p, .call call) ∧ call.kind = kind := by
  obtain ⟨q, a⟩ := step
  cases a with
  | chdir cwd => cases h
  | call call' =>
    rw [callOf] at h
    split at h
    · rename_i hkind
      cases h
      exact ⟨rfl, hkind⟩
    · cases h

theorem lastCall_none {kind : ImageKind} {steps : List (Checkpointer × ProcessAction)}
    (h : lastCall kind steps = none) : ∀ step ∈ steps, NotOfKind kind step.2 := by
  induction steps with
  | nil =>
    intro step hstep
    cases hstep
  | cons step steps ih =>
    obtain ⟨hlast, hstep⟩ := Option.or_eq_none_iff.mp h
    exact List.forall_mem_cons.mpr ⟨callOf_none hstep, ih hlast⟩

theorem lastCall_some {kind : ImageKind} {steps : List (Checkpointer × ProcessAction)} {p : Checkpointer}
    {call : CheckpointCall} (h : lastCall kind steps = some (p, call)) :
    call.kind = kind ∧ ∃ before after, steps = before ++ (p, .call call) :: after ∧
      ∀ step ∈ after, NotOfKind kind step.2 := by
  induction steps with
  | nil => cases h
  | cons step steps ih =>
    rcases Option.or_eq_some_iff.mp h with hlast | ⟨hlast, hstep⟩
    · obtain ⟨hkind, before, after, rfl, hafter⟩ := ih hlast
      exact ⟨hkind, step :: before, after, rfl, hafter⟩
    · obtain ⟨rfl, hkind⟩ := callOf_some hstep
      exact ⟨hkind, [], steps, rfl, lastCall_none hlast⟩

/-- The last call of a kind is made in a settled process, and the images that it leaves are
those at the end of the run. -/
theorem run_lastCall {first last : Checkpointer} {steps : List (Checkpointer × ProcessAction)}
    (hfirst : first.Fresh) (hrun : Run (Checkpointer.Step pb tables) first steps last) {kind : ImageKind}
    {call : CheckpointCall} (hlast : lastCall kind steps = some (p, call)) :
    call.kind = kind ∧ p.Settled ∧ (OneDirectory steps → call.target p = first.cwd) ∧
      ∀ code p', call.run pb tables p = some (code, p') →
        ∀ dir, SameImages kind (directory p'.world dir) (directory last.world dir) := by
  obtain ⟨hkind, before, after, rfl, hafter⟩ := lastCall_some hlast
  obtain ⟨q, hbefore, hstep, hrest⟩ := hrun.split
  have hsettled := Checkpointer.reached_settled hfirst hbefore
  refine ⟨hkind, hsettled, ?_, ?_⟩
  · intro hstays
    apply CheckpointCall.target_within
    exact (reached_within hfirst hbefore fun step hmem => hstays step (List.mem_append_left _ hmem)).2
  · intro code p' hcall dir
    cases hstep with
    | call code' hcall' =>
      cases hcall.symm.trans hcall'
      exact run_sameImages hrest (CheckpointCall.run_settled hcall hsettled) hafter dir

/-- After any run, what the last call of a kind was given is left and restored, if that call
succeeded, however the others fared: in the directory the call wrote in, which is that of the
process if this never changed. A kind that no call was made of is as it was everywhere. -/
theorem migration_restored (hpb : pb.Proto3) {first last : Checkpointer}
    {steps : List (Checkpointer × ProcessAction)} (hfirst : first.Fresh)
    (hrun : Run (Checkpointer.Step pb tables) first steps last) (kind : ImageKind) :
    (∀ p call, lastCall kind steps = some (p, call) → call.Succeeds pb tables p →
      call.LeftIn pb tables last.world (call.target p) ∧ (OneDirectory steps → call.target p = first.cwd)) ∧
    (lastCall kind steps = none → ∀ dir, SameImages kind (directory first.world dir) (directory last.world dir)) := by
  constructor
  · intro p call hlast hsucceeds
    obtain ⟨rfl, hsettled, hplace, hsame⟩ := run_lastCall hfirst hrun hlast
    obtain ⟨⟨p', hcall⟩, hdelivers⟩ := hsucceeds
    have hleft := CheckpointCall.Succeeds.leftIn hpb hsettled hcall hdelivers
    exact ⟨hleft.congr (hsame 0 p' hcall _), hplace⟩
  · intro hnone dir
    exact run_sameImages hrun hfirst.settled (lastCall_none hnone) dir

end

/-- A process that checkpoints a program counter and then a memory; the local's high half is 7. -/
theorem migration_restored_pc :
    ∃ last, Run (Checkpointer.Step .wire noTables) newProcess
        [(newProcess, .call (.pc 1 2)), (pcLeft, .call (.memory markedPage 1))] last ∧
      restorePc (directory last.world "/") ⟨5, 0x700000006⟩ = ⟨1, 0x700000002⟩ := by
  have hrun : Run (Checkpointer.Step .wire noTables) newProcess _
      {pcLeft with world := (checkpointMemory pcLeft.cwd markedPage 1 pcLeft.world).2} :=
    .cons (a := .call (.pc 1 2)) (.call 0 rfl) (.cons (a := .call (.memory markedPage 1)) (.call _ rfl) (.nil _))
  have hsucceeds : CheckpointCall.Succeeds .wire noTables (.pc 1 2) newProcess :=
    ⟨⟨pcLeft, rfl⟩, .ofFaultless freshWorld_faultless 1 2⟩
  obtain ⟨hleft, -⟩ := (migration_restored ProtobufC.wire_proto3 newProcess_fresh hrun .programCounter).1
    newProcess (.pc 1 2) rfl hsucceeds
  exact ⟨_, hrun, hleft.restored ⟨5, 0x700000006⟩⟩

end Wasmig
