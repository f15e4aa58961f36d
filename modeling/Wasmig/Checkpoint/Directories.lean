import Wasmig.Checkpoint.Restored

/-! Checkpoints in several directories.

A function that opens its file by name writes in the directory the process is in; one that
keeps its stream writes where it was when it opened it. `checkpoint_set` is what holds of
a run in which the two are the same for every call (`InPlace`). -/
namespace Wasmig
open Base Base.Stdio

section
variable {pb : ProtobufC} {tables : StackTables} {p p' : Checkpointer} {code : Int}

/-- A call changes no file but its images. -/
theorem CheckpointCall.run_frame {call : CheckpointCall} (hrun : call.run pb tables p = some (code, p'))
    (h : p.Settled) {path : Path} (hpath : ∀ image ∈ call.encodings pb tables, path ≠ ⟨call.target p, image.1⟩) :
    p'.world.files path = p.world.files path := by
  cases call with
  | memory mem curPage =>
    cases hrun
    exact (checkpointMemory_outcome p.cwd mem curPage p.world).2 path
      (hpath _ (List.mem_cons_self ..)) (hpath _ (List.mem_cons_of_mem _ (List.mem_cons_self ..)))
  | global values types =>
    obtain ⟨rfl, rfl⟩ := Prod.ext_iff.mp (Option.some.inj hrun)
    exact (checkpointGlobal_spec values types p).2.stream.frame.files path (hpath _ (List.mem_cons_self ..))
  | globalV2 globals =>
    exact (checkpointGlobalV2_spec hrun).2.stream.frame.files path (hpath _ (List.mem_cons_self ..))
  | pc funcIdx offset =>
    obtain ⟨rfl, rfl⟩ := Prod.ext_iff.mp (Option.some.inj hrun)
    obtain ⟨hstream, -⟩ := checkpointPc_spec h.programCounter funcIdx offset
    rw [h.programCounter.path] at hstream
    exact hstream.frame.files path (hpath _ (List.mem_cons_self ..))
  | stackV3 callStack =>
    obtain ⟨-, entries, buf, -, -, -, hfile⟩ := checkpointStackV3_spec hrun
    exact hfile.stream.frame.files path (hpath _ (List.mem_cons_self ..))
  | stackV4 callStack =>
    obtain ⟨buf, hbuf, -⟩ := Option.map_eq_some_iff.mp hrun
    obtain ⟨code', p'', hrun', hstream, -⟩ := checkpointStackV4_spec h.callStack hbuf
    cases hrun.symm.trans hrun'
    rw [h.callStack.path] at hstream
    exact hstream.frame.files path (hpath _ (List.mem_cons_self ..))

/-- A call leaves the images of other kinds and in other directories alone. -/
theorem CheckpointCall.run_sameImages {kind : ImageKind} {call : CheckpointCall} (hrun : call.run pb tables p = some (code, p'))
    (hsettled : p.Settled) {dir : String} (hother : call.kind ≠ kind ∨ call.target p ≠ dir) :
    SameImages kind (directory p.world dir) (directory p'.world dir) := by
  intro name hname
  apply CheckpointCall.run_frame hrun hsettled
  rintro image himage hpath
  rw [Path.mk.injEq] at hpath
  rcases hother with hkind | hdir
  · have hsame := CheckpointCall.encodings_kind himage
    rw [← hpath.2] at hsame
    exact hkind (ImageKind.files_disjoint hsame hname)
  · exact hdir hpath.1.symm

/-! ### Calls in place -/

/-- A call of the step writes where the process is. -/
def InPlace (step : Checkpointer × ProcessAction) : Prop :=
  ∀ call, step.2 = .call call → call.target step.1 = step.1.cwd

/-- A call of the step is of another kind if the process is in `dir`. -/
def Spares (dir : String) (kind : ImageKind) (step : Checkpointer × ProcessAction) : Prop :=
  ∀ call, step.2 = .call call → step.1.cwd = dir → call.kind ≠ kind

/-- A step that is in place and spares them leaves the images of a call. -/
theorem Checkpointer.Step.leftIn {dir : String} {call : CheckpointCall} {a : ProcessAction}
    (hstep : Checkpointer.Step pb tables p a p') (hsettled : p.Settled) (hplace : InPlace (p, a))
    (hspares : Spares dir call.kind (p, a)) (h : call.LeftIn pb tables p.world dir) :
    call.LeftIn pb tables p'.world dir := by
  cases hstep with
  | chdir cwd => exact h
  | call code hrun =>
    rename_i other
    refine h.congr (CheckpointCall.run_sameImages hrun hsettled ?_)
    rw [hplace other rfl, or_iff_not_imp_right, not_ne_iff]
    exact hspares other rfl

/-- A call that is in place changes files only in the directory the process is in. When it
returns 0 and gets through, its images are there and are restored from there, right after it and
for as long as later calls are in place and those made there are of other kinds. -/
theorem checkpoint_set (hpb : pb.Proto3) {first last : Checkpointer}
    {before after : List (Checkpointer × ProcessAction)}
    {call : CheckpointCall} (hfirst : first.Fresh)
    (hrun : Run (Checkpointer.Step pb tables) first (before ++ (p, .call call) :: after) last)
    (hplace : ∀ step ∈ (p, .call call) :: after, InPlace step) :
    ∃ code p', call.run pb tables p = some (code, p') ∧
      (∀ path : Path, path.dir ≠ p.cwd → p'.world.files path = p.world.files path) ∧
      (code = 0 → call.Delivers pb tables p → call.LeftIn pb tables p'.world p.cwd ∧
        ((∀ step ∈ after, Spares p.cwd call.kind step) → call.LeftIn pb tables last.world p.cwd)) := by
  obtain ⟨p', hbefore, hstep, hafter⟩ := hrun.split
  obtain ⟨hhere, hlater⟩ := List.forall_mem_cons.mp hplace
  have hsettled := Checkpointer.reached_settled hfirst hbefore
  have hsettled' := hstep.settled hsettled
  cases hstep with
  | call code hcall =>
  refine ⟨code, p', hcall, ?_, ?_⟩
  · intro path hdir
    apply CheckpointCall.run_frame hcall hsettled
    intro image _ hpath
    rw [hpath, hhere call rfl] at hdir
    exact hdir rfl
  · rintro rfl hdelivers
    have hleft := CheckpointCall.Succeeds.leftIn hpb hsettled hcall hdelivers
    rw [hhere call rfl] at hleft
    refine ⟨hleft, fun hspares => ?_⟩
    have hkeep : ∀ (s : Checkpointer) (a : ProcessAction) (s' : Checkpointer), Checkpointer.Step pb tables s a s' →
        s.Settled ∧ call.LeftIn pb tables s.world p.cwd → InPlace (s, a) ∧ Spares p.cwd call.kind (s, a) →
        s'.Settled ∧ call.LeftIn pb tables s'.world p.cwd := by
      rintro s a s' hstep ⟨hs, himages⟩ ⟨hplace, hspares⟩
      exact ⟨hstep.settled hs, hstep.leftIn hs hplace hspares himages⟩
    exact (Run.invariant hkeep hafter ⟨hsettled', hleft⟩ fun step hmem => ⟨hlater step hmem, hspares step hmem⟩).2.2

end

/-- The process after it has checkpointed a program counter in `/`. -/
def pcLeft : Checkpointer := (checkpointPc 1 2 newProcess).2

/-- The same process in `/b`. -/
def pcMoved : Checkpointer := {pcLeft with cwd := "/b"}

/-- A memory is checkpointed in `/b` then. -/
theorem checkpoint_set_moved :
    ∃ last : Checkpointer, Run (Checkpointer.Step .wire noTables) newProcess
        [(newProcess, .call (.pc 1 2)), (pcLeft, .chdir "/b"), (pcMoved, .call (.memory markedPage 1))] last ∧
      CheckpointCall.LeftIn .wire noTables (.pc 1 2) last.world "/" := by
  have hrun : Run (Checkpointer.Step .wire noTables) newProcess
      ([] ++ (newProcess, .call (.pc 1 2)) :: [(pcLeft, .chdir "/b"), (pcMoved, .call (.memory markedPage 1))])
      {pcMoved with world := (checkpointMemory pcMoved.cwd markedPage 1 pcMoved.world).2} :=
    .cons (.call 0 rfl) (.cons (.chdir _ _) (.cons (.call _ rfl) (.nil _)))
  have hplace : ∀ step ∈ [(newProcess, ProcessAction.call (.pc 1 2)), (pcLeft, .chdir "/b"),
      (pcMoved, .call (.memory markedPage 1))], InPlace step := by
    simp only [List.forall_mem_cons, List.not_mem_nil, InPlace]
    refine ⟨?_, ?_, ?_, nofun⟩
    · rintro call ⟨⟩
      rfl
    · rintro call ⟨⟩
    · rintro call ⟨⟩
      rfl
  have hspares : ∀ step ∈ [(pcLeft, ProcessAction.chdir "/b"), (pcMoved, .call (.memory markedPage 1))],
      Spares newProcess.cwd .programCounter step := by
    simp only [List.forall_mem_cons, List.not_mem_nil, Spares]
    refine ⟨?_, ?_, nofun⟩
    · rintro call ⟨⟩
    · rintro call ⟨⟩ hcwd
      exact absurd hcwd (show ¬ "/b" = "/" by decide)
  obtain ⟨code, p', hcall, -, hleft⟩ := checkpoint_set ProtobufC.wire_proto3 newProcess_fresh hrun hplace
  cases hcall
  exact ⟨_, hrun, (hleft rfl (.ofFaultless freshWorld_faultless 1 2)).2 hspares⟩

/-- A program counter is checkpointed in `/`, and one in `/b`, where there is no image of it
afterwards: the one in `/` has changed. -/
theorem pc_elsewhere :
    Run (Checkpointer.Step .wire noTables) newProcess [(newProcess, .call (.pc 1 2)), (pcLeft, .chdir "/b")]
        pcMoved ∧
      (checkpointPc 3 4 pcMoved).1 = 0 ∧
      directory (checkpointPc 3 4 pcMoved).2.world "/b" "program_counter.img" = none ∧
      directory pcLeft.world "/" "program_counter.img" = some (le32 1 ++ le32 2) ∧
      directory (checkpointPc 3 4 pcMoved).2.world "/" "program_counter.img" =
        some (le32 3 ++ le32 4) :=
  ⟨.cons (.call 0 rfl) (.cons (.chdir _ _) (.nil _)), rfl, rfl, rfl, rfl⟩

end Wasmig
