import Wasmig.Checkpoint.Successive
import Wasmig.Table.StackTables

/-! Checkpoints of a process that loads its stack tables.

`wasmig_checkpoint_stack_v3`, `prev_pc`, `next_pc` and the calls of `stack_tables.h` ask `wcrn`
for tables, and the first to do so loads them from the directory the process is in by then.
The file may be changed or missing later, and the process may have moved on: all calls are
those of a process with one fixed set of tables (`tables_loaded_once`). -/
namespace Wasmig
open Base Base.Stdio

/-! ### The checkpoint that asks for tables -/

section
variable (pb : ProtobufC) {wacret : Wacret} (source : Option wacret.Tables)

/-- The calls of `stack_tables.h`, with what they do to the cell that keeps the tables. -/
def tablesOnce : TableCalls (CellM wacret.Tables) where
  getLocalTypes fidx := useCell source (getLocalTypes · fidx)
  getStackTable fidx offset :=
    useCell source fun tables => (getStackTable tables fidx offset).map (List.map StackTableEntry.ty)

/-- A call of a checkpoint function. One of them uses tables. -/
def CheckpointCall.runOnce (call : CheckpointCall) (p : Checkpointer) : CellM wacret.Tables (Int × Checkpointer) :=
  match call with
  | .stackV3 callStack => checkpointStackV3M pb (tablesOnce source) callStack p
  | call => StateT.lift (call.run pb noTables p)

end

/-! ### The process -/

/-- A call that asks for something in the tables. -/
inductive TableQuery where
  | loadStackTables
  | getLocalTypes (fidx : UInt32)
  | getStackTable (fidx : UInt32) (offset : UInt64)
  | wcrnGetStackSize (fidx offset : UInt32)
  | prevPc (pc : CodePos)
  | nextPc (pc : CodePos)

inductive TableAnswer where
  | size (n : Nat)
  | types (types : Array8)
  | table (table : List StackTableEntry)
  | pc (pc : CodePos)

/-- What a call returns, the tables being there. -/
def TableQuery.ask {wacret : Wacret} (tables : wacret.Tables) : TableQuery → Option TableAnswer
  | .loadStackTables => some (.size (Wasmig.loadStackTables tables))
  | .getLocalTypes fidx => (Wasmig.getLocalTypes tables fidx).map .types
  | .getStackTable fidx offset => (Wasmig.getStackTable tables fidx offset).map .table
  | .wcrnGetStackSize fidx offset => (Wasmig.wcrnGetStackSize tables fidx offset).map .size
  | .prevPc pc => (wcrnOffsetList tables pc.fidx).bind fun offs => (Wasmig.prevPc (fun _ => offs) pc).map .pc
  | .nextPc pc => (wcrnOffsetList tables pc.fidx).bind fun offs => (Wasmig.nextPc (fun _ => offs) pc).map .pc

/-- A process that takes checkpoints, the `stack-table.msgpack` of every directory, and
`STACK_TABLES`. -/
structure LoadingProcess (wacret : Wacret) where
  checkpointer : Checkpointer
  tableFile : String → Option Bytes
  stackTables : Option wacret.Tables

/-- What tables would be loaded now. -/
def LoadingProcess.source {wacret : Wacret} (s : LoadingProcess wacret) : Option wacret.Tables :=
  wacret.loadFromPath (s.tableFile s.checkpointer.cwd)

inductive LoadingAction where
  | checkpoint (call : CheckpointCall)
  | chdir (cwd : String)
  | query (query : TableQuery) (answer : TableAnswer)
  | tableFile (dir : String) (content : Option Bytes)

section
variable (pb : ProtobufC) {wacret : Wacret}

/-- A step of the process, or a change of a table file by somebody else. -/
inductive LoadingProcess.Step (s : LoadingProcess wacret) : LoadingAction → LoadingProcess wacret → Prop where
  | checkpoint {call : CheckpointCall} {code : Int} {p' : Checkpointer} {cell' : Option wacret.Tables}
    (run : call.runOnce pb s.source s.checkpointer s.stackTables = some ((code, p'), cell')) :
    Step s (.checkpoint call) {s with checkpointer := p', stackTables := cell'}
  | chdir (cwd : String) : Step s (.chdir cwd) {s with checkpointer := {s.checkpointer with cwd := cwd}}
  | query {query : TableQuery} {answer : TableAnswer} {cell' : Option wacret.Tables}
    (run : useCell s.source (query.ask ·) s.stackTables = some (answer, cell')) :
    Step s (.query query answer) {s with stackTables := cell'}
  | tableFile (dir : String) (content : Option Bytes) :
    Step s (.tableFile dir content) {s with tableFile := Function.update s.tableFile dir content}

end

/-- What is done in terms of a process that has its tables. -/
def LoadingAction.processAction : LoadingAction → Option ProcessAction
  | .checkpoint call => some (.call call)
  | .chdir cwd => some (.chdir cwd)
  | _ => none

/-- The steps of such a process that a run amounts to. -/
def checkpointSteps {wacret : Wacret} (steps : List (LoadingProcess wacret × LoadingAction)) :
    List (Checkpointer × ProcessAction) :=
  steps.filterMap fun step => step.2.processAction.map fun action => (step.1.checkpointer, action)

/-! ### Asking once -/

section
variable {pb : ProtobufC} {wacret : Wacret} {source : Option wacret.Tables}

theorem typedFrames_agrees (frames : List BaseCallStackEntry) :
    Agrees source (typedFramesM (tablesOnce source) frames) fun tables => typedFrames (stackTablesOf tables) frames := by
  induction frames with
  | nil => exact Agrees.pure []
  | cons frame rest ih =>
    refine Agrees.bind (Agrees.use _) fun localsTypes => ?_
    refine Agrees.bind (Agrees.use _) fun stackTable => ?_
    refine Agrees.bind (Agrees.lift _) fun locals => ?_
    refine Agrees.bind (Agrees.lift _) fun valueStack => ?_
    exact Agrees.bind ih fun entries => Agrees.pure _

theorem checkpointStackV3_agrees (callStack : List BaseCallStackEntry) (p : Checkpointer) :
    Agrees source (checkpointStackV3M pb (tablesOnce source) callStack p) fun tables =>
      checkpointStackV3 pb (stackTablesOf tables) callStack p := by
  unfold checkpointStackV3 checkpointStackV3M
  by_cases hlength : callStack.length ≥ 2 ^ 31
  · simp only [if_pos hlength]
    exact Agrees.lift none
  · simp only [if_neg hlength]
    refine Agrees.bind (typedFrames_agrees callStack) fun entries => ?_
    refine Agrees.bind (Agrees.lift _) fun serialized => ?_
    cases (openImageWb p.world p.cwd "call_stack.img").fp with
    | none => exact Agrees.pure _
    | some fp => exact Agrees.pure _

theorem CheckpointCall.runOnce_agrees (call : CheckpointCall) (p : Checkpointer) :
    Agrees source (call.runOnce pb source p) fun tables => call.run pb (stackTablesOf tables) p := by
  cases call with
  | stackV3 callStack => exact checkpointStackV3_agrees callStack p
  | memory mem curPage => exact Agrees.lift (CheckpointCall.run pb noTables (.memory mem curPage) p)
  | global values types => exact Agrees.lift (CheckpointCall.run pb noTables (.global values types) p)
  | globalV2 globals => exact Agrees.lift (CheckpointCall.run pb noTables (.globalV2 globals) p)
  | pc funcIdx offset => exact Agrees.lift (CheckpointCall.run pb noTables (.pc funcIdx offset) p)
  | stackV4 callStack => exact Agrees.lift (CheckpointCall.run pb noTables (.stackV4 callStack) p)

/-- What a step does to the cell, and what it is on any value the cell may hold then. -/
theorem LoadingProcess.Step.agrees {s s' : LoadingProcess wacret} {action : LoadingAction} (hstep : s.Step pb action s') :
    Filled s.source s.stackTables s'.stackTables ∧
      ∀ tables, MayHold s'.stackTables tables →
        (∀ query answer, action = .query query answer → query.ask tables = some answer) ∧
        match action.processAction with
        | some action => Checkpointer.Step pb (stackTablesOf tables) s.checkpointer action s'.checkpointer
        | none => s'.checkpointer = s.checkpointer := by
  cases hstep with
  | @checkpoint call code p' cell' run =>
    have hagrees : Agrees s.source (call.runOnce pb s.source s.checkpointer) _ :=
      CheckpointCall.runOnce_agrees call s.checkpointer
    refine ⟨hagrees.filled run, fun tables hmay => ⟨nofun, ?_⟩⟩
    exact .call code (hagrees.ends run hmay)
  | chdir cwd => exact ⟨.inl rfl, fun tables hmay => ⟨nofun, .chdir _ cwd⟩⟩
  | @query query answer cell' run =>
    have hagrees : Agrees s.source (useCell s.source (query.ask ·)) _ := Agrees.use _
    refine ⟨hagrees.filled run, fun tables hmay => ⟨?_, rfl⟩⟩
    intro query' answer' heq
    cases heq
    exact hagrees.ends run hmay
  | tableFile dir content => exact ⟨.inl rfl, fun tables hmay => ⟨nofun, rfl⟩⟩

variable {first last : LoadingProcess wacret} {steps : List (LoadingProcess wacret × LoadingAction)}

/-- What has been loaded stays. -/
theorem run_keepsTables (hrun : Run (LoadingProcess.Step pb) first steps last) {tables : wacret.Tables}
    (h : first.stackTables = some tables) : last.stackTables = some tables :=
  hrun.keeps (fun s => s.stackTables = some tables) (fun _ _ _ hstep hs => hstep.agrees.1.keeps hs) h

/-- A run from an empty cell to a filled one goes through the step that filled it. -/
theorem run_loads (hrun : Run (LoadingProcess.Step pb) first steps last) (hfirst : first.stackTables = none)
    {tables : wacret.Tables} (hlast : last.stackTables = some tables) :
    ∃ before s action after, steps = before ++ (s, action) :: after ∧ s.source = some tables ∧
      (∀ step ∈ before ++ [(s, action)], step.1.stackTables = none) ∧
      ∀ step ∈ after, step.1.stackTables = some tables := by
  induction hrun with
  | nil s => exact nomatch hfirst.symm.trans hlast
  | @cons s s' s'' action steps step rest ih =>
    rcases step.agrees.1 with hkept | ⟨-, hfilled⟩
    · obtain ⟨before, t, action', after, rfl, hsource, hempty, hfull⟩ := ih (hkept.trans hfirst) hlast
      refine ⟨(s, action) :: before, t, action', after, rfl, hsource, ?_, hfull⟩
      exact List.forall_mem_cons.mpr ⟨hfirst, hempty⟩
    · cases hs' : s'.stackTables with
      | none =>
        obtain ⟨before, t, action', after, rfl, hsource, hempty, hfull⟩ := ih hs' hlast
        refine ⟨(s, action) :: before, t, action', after, rfl, hsource, ?_, hfull⟩
        exact List.forall_mem_cons.mpr ⟨hfirst, hempty⟩
      | some loaded =>
        cases (run_keepsTables rest hs').symm.trans hlast
        have hfull : Run.Throughout (fun s => s.stackTables = some tables) steps s'' :=
          rest.invariant (fun _ _ _ hstep hs (_ : True) => hstep.agrees.1.keeps hs) hs' fun _ _ => trivial
        exact ⟨[], s, action, steps, rfl, hfilled.symm.trans hs', by simpa using hfirst, hfull.1⟩

/-- In any run, tables are loaded once: from the file in the directory of the process when
they are first asked for. From what was loaded then all queries are answered, before and
after the file is changed; and the checkpoints are those of a process that has these tables
from its start. -/
theorem tables_loaded_once (hrun : Run (LoadingProcess.Step pb) first steps last) (hfirst : first.stackTables = none)
    {tables : wacret.Tables} (hlast : last.stackTables = some tables) :
    (∃ before s action after, steps = before ++ (s, action) :: after ∧ s.source = some tables ∧
      (∀ step ∈ before ++ [(s, action)], step.1.stackTables = none) ∧
      ∀ step ∈ after, step.1.stackTables = some tables) ∧
    (∀ step ∈ steps, ∀ query answer, step.2 = .query query answer → query.ask tables = some answer) ∧
    Run (Checkpointer.Step pb (stackTablesOf tables)) first.checkpointer (checkpointSteps steps) last.checkpointer := by
  refine ⟨run_loads hrun hfirst hlast, ?_⟩
  clear hfirst
  induction hrun with
  | nil s => exact ⟨List.forall_mem_nil _, .nil _⟩
  | @cons s s' s'' action steps step rest ih =>
    obtain ⟨hqueries, hcheckpoints⟩ := ih hlast
    have hmay : MayHold s'.stackTables tables := by
      intro u hu
      exact Option.some.inj ((run_keepsTables rest hu).symm.trans hlast)
    obtain ⟨hquery, hstep⟩ := step.agrees.2 tables hmay
    refine ⟨List.forall_mem_cons.mpr ⟨hquery, hqueries⟩, ?_⟩
    unfold checkpointSteps
    cases hproject : action.processAction with
    | none =>
      rw [hproject] at hstep
      rw [List.filterMap_cons_none (by simp [hproject]), ← hstep]
      exact hcheckpoints
    | some processAction =>
      rw [hproject] at hstep
      rw [List.filterMap_cons_some (b := (s.checkpointer, processAction)) (by simp [hproject])]
      exact .cons hstep hcheckpoints

end

/-- Tables of one function without instructions: the file lists the sizes of its locals. -/
def localsOnly : Wacret where
  Tables := Bytes
  deserialize := some
  functions _ := 1
  getStack _ _ _ := none
  getLocals sizes fidx := if fidx = 0 then some sizes else none
  offsets _ _ := some []

/-- A new process with such a file in its directory. -/
def localsProcess : LoadingProcess localsOnly := ⟨newProcess, fun _ => some [8, 4], none⟩

/-- The file is removed between two queries. -/
theorem tables_loaded_once_removed :
    ∃ types last, Run (LoadingProcess.Step .wire) localsProcess
        [(localsProcess, .query (.getLocalTypes 0) types),
          ({localsProcess with stackTables := some [8, 4]}, .tableFile "/" none),
          ({localsProcess with tableFile := Function.update localsProcess.tableFile "/" none, stackTables := some [8, 4]},
            .query (.getLocalTypes 0) types)] last ∧
      (TableQuery.getLocalTypes 0).ask (show localsOnly.Tables from [8, 4]) = some types := by
  have hrun : Run (LoadingProcess.Step .wire) localsProcess _ _ :=
    .cons (a := .query (.getLocalTypes 0) (.types (array8Of [2, 1]))) (.query rfl)
      (.cons (a := .tableFile "/" none) (.tableFile "/" none)
        (.cons (a := .query (.getLocalTypes 0) (.types (array8Of [2, 1]))) (.query rfl) (.nil _)))
  exact ⟨_, _, hrun, (tables_loaded_once hrun rfl (show _ = some [8, 4] from rfl)).2.1 _ (List.mem_cons_self ..) _ _ rfl⟩

end Wasmig
