import Wasmig.Checkpoint.Migration

/-! Execution that moves from host to host.

What execution is taken up from is a `Snapshot`. A host restores one from the images it is
handed, executes, and has a process checkpoint what it has come to; the images are handed on
(`Hop`). Chains of hosts and an execution that nothing interrupts simulate each other, so
that hosts come to exactly what the execution comes to (`migrations_transparent`). -/
namespace Wasmig
open Base Base.Stdio

/-! ### Snapshots -/

/-- A memory of at most 65536 pages, zero beyond them, with globals, a program counter and a
call stack. -/
@[ext] structure Snapshot where
  pageCount : UInt32
  memory : Memory
  globals : TypedArray
  funcIdx : UInt32
  offset : UInt32
  callStack : List CallStackEntry
  pages_le : pageCount.toNat ≤ 65536
  memory_beyond : ∀ i, pageCount.toNat * 65536 ≤ i → memory i = 0

namespace Snapshot

/-- What is checkpointed of it for a kind of image. -/
def call (s : Snapshot) : ImageKind → CheckpointCall
  | .memory => .memory s.memory s.pageCount
  | .globals => .globalV2 s.globals
  | .programCounter => .pc s.funcIdx s.offset
  | .callStack => .stackV4 s.callStack

/-- It can be packed: its messages fit in buffers, and its frames can be counted. -/
structure Encodable (pb : ProtobufC) (s : Snapshot) : Prop where
  globals : (serializeTypedArray pb s.globals).isSome = true
  callStack : (serializeCallStack pb (callStackOf s.callStack)).isSome = true
  countable : s.callStack.length < 2 ^ 32

/-- A host gets it out of a directory: with the memory in whatever was zero, and the program counter
in whatever local had a high half of zero. -/
structure RestoredFrom (pb : ProtobufC) (s : Snapshot) (dir : Directory) : Prop where
  memory : MemoryRestored s.memory s.pageCount dir
  globals : restoreGlobalV2 pb dir = some (some s.globals)
  programCounter : ∀ pc : CodePos, pc.offset.toNat < 2 ^ 32 → restorePc dir pc = ⟨s.funcIdx, s.offset.toUInt64⟩
  callStack : ∃ cs, restoreStack pb dir = some (some cs) ∧ cs.entries = s.callStack

/-- Some process has left it in a directory: whatever else it did, its last call for each kind
was given what is checkpointed of it, wrote there and succeeded. -/
def CheckpointedIn (pb : ProtobufC) (tables : StackTables) (s : Snapshot) (dir : Directory) : Prop :=
  ∃ first steps last cwd, first.Fresh ∧ Run (Checkpointer.Step pb tables) first steps last ∧
    dir = directory last.world cwd ∧ ∀ kind, ∃ p, lastCall kind steps = some (p, s.call kind) ∧
      (s.call kind).Succeeds pb tables p ∧ (s.call kind).target p = cwd

variable {pb : ProtobufC} {tables : StackTables} {s t : Snapshot} {dir : Directory}

/-! ### What a process has left -/

theorem call_kind (s : Snapshot) (kind : ImageKind) : (s.call kind).kind = kind := by
  cases kind <;> rfl

/-- The images of a kind are those that its last call left. -/
theorem CheckpointedIn.lastCall (h : s.CheckpointedIn pb tables dir) (kind : ImageKind) :
    ∃ p p' : Checkpointer, p.Settled ∧ (s.call kind).run pb tables p = some (0, p') ∧
      (s.call kind).Delivers pb tables p ∧
      SameImages kind (directory p'.world ((s.call kind).target p)) dir := by
  obtain ⟨first, steps, last, cwd, hfirst, hrun, rfl, hcalls⟩ := h
  obtain ⟨p, hlast, ⟨⟨p', hcall⟩, hdelivers⟩, htarget⟩ := hcalls kind
  obtain ⟨-, hsettled, -, hsame⟩ := run_lastCall hfirst hrun hlast
  refine ⟨p, p', hsettled, hcall, hdelivers, ?_⟩
  rw [htarget]
  exact hsame 0 p' hcall cwd

/-- What a process has left is restored. -/
theorem CheckpointedIn.restoredFrom (hpb : pb.Proto3) (h : s.CheckpointedIn pb tables dir) : s.RestoredFrom pb dir := by
  have hrestored : ∀ kind, (s.call kind).RestoredIn pb tables dir := by
    intro kind
    obtain ⟨p, p', hsettled, hcall, hdelivers, hsame⟩ := h.lastCall kind
    apply (CheckpointCall.Succeeds.leftIn hpb hsettled hcall hdelivers).restored.congr
    rw [s.call_kind]
    exact hsame
  refine ⟨hrestored .memory, hrestored .globals, fun pc hpc => ?_, hrestored .callStack⟩
  have hexact := hrestored .programCounter pc
  rw [hexact, Nat.div_eq_of_lt hpc, Nat.mul_zero, Nat.add_zero, UInt64.ofNat_uInt32ToNat]

/-- What got through has been packed. -/
theorem CheckpointedIn.encodable (h : s.CheckpointedIn pb tables dir) : s.Encodable pb := by
  obtain ⟨p, p', -, hglobals, -⟩ := h.lastCall .globals
  obtain ⟨q, q', hsettled, hstack, hdelivers, -⟩ := h.lastCall .callStack
  obtain ⟨buf, hbuf, -⟩ := Option.map_eq_some_iff.mp hstack
  constructor
  · exact Option.isSome_iff_exists.mpr (checkpointGlobalV2_serialized hglobals)
  · exact Option.isSome_iff_exists.mpr ⟨buf, hbuf⟩
  · obtain ⟨code, q'', hrun, -, hcode, -⟩ := checkpointStackV4_spec hsettled.callStack hbuf
    cases hrun.symm.trans hstack
    obtain ⟨hopens, hheld⟩ := hcode.mp rfl
    obtain ⟨n, hn⟩ := Option.isSome_iff_exists.mp hheld
    rw [serialize_contents hbuf] at hn
    exact (hdelivers hopens.1 hopens.2 n hn).1

/-! ### What a host gets -/

/-- A directory gives back one snapshot at most. -/
theorem RestoredFrom.unique (h : t.RestoredFrom pb dir) (h' : s.RestoredFrom pb dir) : t = s := by
  have hpages : t.pageCount = s.pageCount := by
    obtain ⟨info, hinfo, -, hpages⟩ := h.memory.pageCount
    obtain ⟨info', hinfo', -, hpages'⟩ := h'.memory.pageCount
    cases hinfo.symm.trans hinfo'
    exact hpages.symm.trans hpages'
  have hmemory : ∀ i, t.memory i = s.memory i := by
    intro i
    by_cases hi : i < s.pageCount.toNat * 65536
    · obtain ⟨-, -, hbytes⟩ := h.memory.chunks t.pages_le 1 (s.pageCount.toNat * 65536) ⟨fun _ => 0, []⟩ nofun
        (by rw [hpages])
      obtain ⟨-, -, hbytes'⟩ := h'.memory.chunks s.pages_le 1 (s.pageCount.toNat * 65536) ⟨fun _ => 0, []⟩ nofun
        (Nat.le_refl _)
      exact (hbytes (fun _ _ => rfl) i (hpages ▸ hi)).symm.trans (hbytes' (fun _ _ => rfl) i hi)
    · rw [s.memory_beyond i (by omega)]
      apply t.memory_beyond
      rw [hpages]
      omega
  have hglobals : t.globals = s.globals := Option.some.inj (Option.some.inj (h.globals.symm.trans h'.globals))
  have hpc := (h.programCounter ⟨0, 0⟩ (by decide)).symm.trans (h'.programCounter ⟨0, 0⟩ (by decide))
  rw [CodePos.mk.injEq] at hpc
  obtain ⟨cs, hcs, hentries⟩ := h.callStack
  obtain ⟨cs', hcs', hentries'⟩ := h'.callStack
  cases hcs.symm.trans hcs'
  exact Snapshot.ext hpages (funext hmemory) hglobals hpc.1 (UInt32.toUInt64_inj.mp hpc.2)
    (hentries.symm.trans hentries')

end Snapshot

/-! ### What a process can leave -/

section
variable {pb : ProtobufC} {p : Checkpointer}

theorem heldBack_faultless {w : World Path} (hw : w.Faultless) (call h : Nat) (ns : List Nat) :
    heldBack w.fault call h ns = some (h + ns.sum) := by
  induction ns generalizing call h with
  | nil => simp [heldBack]
  | cons n ns ih => rw [heldBack, hw, List.sum_cons, ← Nat.add_assoc, ih]

theorem checkpointGlobalV2_faultless {globals : TypedArray}
    (hglobals : (serializeTypedArray pb globals).isSome = true) (hw : p.world.Faultless) :
    ∃ p', checkpointGlobalV2 pb globals p = some (0, p') := by
  obtain ⟨buf, hbuf⟩ := Option.isSome_iff_exists.mp hglobals
  have hopened : (openImageWb p.world p.cwd "global.img").fp = some ⟨⟨p.cwd, "global.img"⟩, 0, []⟩ :=
    (fopen_ok p.world (⟨p.cwd, "global.img"⟩ : Path) (hw _)).1
  rw [checkpointGlobalV2, hopened, hbuf]
  exact ⟨_, rfl⟩

/-- A process that nothing fails for makes the calls of a snapshot that can be packed. -/
theorem Snapshot.Encodable.succeeds {s : Snapshot} (h : s.Encodable pb) (tables : StackTables)
    (hsettled : p.Settled) (hw : p.world.Faultless) (kind : ImageKind) :
    ∃ p', (s.call kind).run pb tables p = some (0, p') ∧ (s.call kind).Delivers pb tables p ∧
      (kind ≠ .memory → p'.world.Faultless) := by
  have hpass : ∀ call n, Passes (p.world.fault call) n := fun call n => by
    rw [hw call]
    exact passes_none n
  cases kind with
  | memory =>
    have hsaved := MemorySaved.of_faultless p.cwd s.memory s.pageCount hw
    refine ⟨_, congrArg some (Prod.ext hsaved.returned rfl), ⟨hsaved.delivered, fun _ _ _ => ?_⟩,
      fun hne => absurd rfl hne⟩
    exact Indexable.ofPages s.pages_le
  | globals =>
    obtain ⟨p', hrun⟩ := checkpointGlobalV2_faultless h.globals hw
    obtain ⟨-, hfile⟩ := checkpointGlobalV2_spec hrun
    refine ⟨p', hrun, fun _ => ⟨_, heldBack_faultless hw .., hpass _ _⟩, fun _ k => ?_⟩
    rw [hfile.stream.frame.fault]
    exact hw k
  | programCounter =>
    obtain ⟨hstream, hcode, -⟩ := checkpointPc_spec hsettled.programCounter s.funcIdx s.offset
    have hreturned := hcode.mpr ⟨fun _ => hw _, by rw [heldBack_faultless hw, Option.isSome_some]⟩
    refine ⟨_, congrArg some (Prod.ext hreturned rfl), PcDelivered.ofFaultless hw _ _, fun _ k => ?_⟩
    rw [hstream.frame.fault]
    exact hw k
  | callStack =>
    obtain ⟨buf, hbuf⟩ := Option.isSome_iff_exists.mp h.callStack
    obtain ⟨code, p', hrun, hstream, hcode, -⟩ := checkpointStackV4_spec hsettled.callStack hbuf
    obtain rfl := hcode.mpr ⟨⟨fun _ => hw _, hw _⟩, by rw [heldBack_faultless hw, Option.isSome_some]⟩
    refine ⟨p', hrun, fun _ _ n _ => ⟨h.countable, hpass _ n⟩, fun _ k => ?_⟩
    rw [hstream.frame.fault]
    exact hw k

/-- A new process that nothing fails for can leave a snapshot that can be packed where it is. -/
theorem Snapshot.Encodable.checkpointedIn {s : Snapshot} (h : s.Encodable pb) (tables : StackTables)
    {first : Checkpointer} (hfirst : first.Fresh) (hw : first.world.Faultless) :
    ∃ last : Checkpointer, s.CheckpointedIn pb tables (directory last.world first.cwd) := by
  obtain ⟨p₁, hpc, hpcDelivers, hw₁⟩ := h.succeeds tables hfirst.settled hw .programCounter
  have hsettled₁ := CheckpointCall.run_settled hpc hfirst.settled
  obtain ⟨p₂, hglobals, hglobalsDelivers, hw₂⟩ := h.succeeds tables hsettled₁ (hw₁ nofun) .globals
  have hsettled₂ := CheckpointCall.run_settled hglobals hsettled₁
  obtain ⟨p₃, hstack, hstackDelivers, hw₃⟩ := h.succeeds tables hsettled₂ (hw₂ nofun) .callStack
  have hsettled₃ := CheckpointCall.run_settled hstack hsettled₂
  obtain ⟨last, hmemory, hmemoryDelivers, -⟩ := h.succeeds tables hsettled₃ (hw₃ nofun) .memory
  obtain ⟨steps, hrun, hlasts, hstays⟩ : ∃ steps, Run (Checkpointer.Step pb tables) first steps last ∧
      (∀ kind, ∃ p, lastCall kind steps = some (p, s.call kind) ∧ (s.call kind).Succeeds pb tables p) ∧
      OneDirectory steps := by
    refine ⟨_, .cons (.call 0 hpc) (.cons (.call 0 hglobals) (.cons (.call 0 hstack) (.cons (.call 0 hmemory)
      (.nil _)))), fun kind => ?_, by simp [OneDirectory]⟩
    cases kind with
    | memory => exact ⟨p₃, rfl, ⟨_, hmemory⟩, hmemoryDelivers⟩
    | globals => exact ⟨p₁, rfl, ⟨_, hglobals⟩, hglobalsDelivers⟩
    | programCounter => exact ⟨first, rfl, ⟨_, hpc⟩, hpcDelivers⟩
    | callStack => exact ⟨p₂, rfl, ⟨_, hstack⟩, hstackDelivers⟩
  refine ⟨last, first, steps, last, first.cwd, hfirst, hrun, rfl, fun kind => ?_⟩
  obtain ⟨p, hlast, hsucceeds⟩ := hlasts kind
  obtain ⟨-, -, hplace, -⟩ := run_lastCall hfirst hrun hlast
  exact ⟨p, hlast, hsucceeds, hplace hstays⟩

end

/-! ### Hosts -/

section
variable {α : Type} (pb : ProtobufC) (tables : StackTables) (execute : Snapshot → α → Snapshot → Prop)

/-- A host restores a snapshot, executes from it, and has what it comes to checkpointed. -/
def Hop (dir : Directory) (a : α) (dir' : Directory) : Prop :=
  ∃ s t : Snapshot, s.RestoredFrom pb dir ∧ execute s a t ∧ t.CheckpointedIn pb tables dir'

/-- Execution that comes to a snapshot that can be packed. -/
def Executes (s : Snapshot) (a : α) (t : Snapshot) : Prop := execute s a t ∧ t.Encodable pb

variable {pb tables execute}

theorem hop_simulated (hpb : pb.Proto3) :
    Simulates (Hop pb tables execute) (Executes pb execute) fun dir s => s.RestoredFrom pb dir := by
  intro dir a dir' s hheld hhop
  obtain ⟨s', t, hrestored, hexecute, hleft⟩ := hhop
  obtain rfl := hrestored.unique hheld
  exact ⟨t, ⟨hexecute, hleft.encodable⟩, hleft.restoredFrom hpb⟩

theorem execution_simulated (hpb : pb.Proto3) :
    Simulates (Executes pb execute) (Hop pb tables execute) fun s dir => s.RestoredFrom pb dir := by
  intro s a t dir hheld hexecutes
  obtain ⟨hexecute, hencodable⟩ := hexecutes
  obtain ⟨last, hleft⟩ := hencodable.checkpointedIn tables newProcess_fresh freshWorld_faultless
  exact ⟨_, ⟨s, t, hheld, hexecute, hleft⟩, hleft.restoredFrom hpb⟩

/-- From the images of a snapshot, chains of hosts bring to exactly those snapshots that
execution from it comes to, doing the same in the same order, if what they hand on can be
packed. -/
theorem migrations_transparent (hpb : pb.Proto3) {s : Snapshot} {dir : Directory}
    (hstart : s.CheckpointedIn pb tables dir) (actions : List α) (t : Snapshot) :
    (∃ hops dir', Run (Hop pb tables execute) dir hops dir' ∧ hops.map Prod.snd = actions ∧ t.RestoredFrom pb dir') ↔
      ∃ steps, Run (Executes pb execute) s steps t ∧ steps.map Prod.snd = actions := by
  have hheld := hstart.restoredFrom hpb
  constructor
  · rintro ⟨hops, dir', hhops, rfl, hrestored⟩
    obtain ⟨steps, t', hsteps, hsame, hheld'⟩ := (hop_simulated hpb).run hhops hheld
    obtain rfl := hrestored.unique hheld'
    exact ⟨steps, hsteps, hsame⟩
  · rintro ⟨steps, hsteps, rfl⟩
    obtain ⟨hops, dir', hhops, hsame, hheld'⟩ := (execution_simulated hpb).run hsteps hheld
    exact ⟨hops, dir', hhops, hsame, hheld'⟩

end

theorem markedPage_count : (1 : UInt32).toNat ≤ 65536 := by decide

theorem markedPage_beyond (i : Nat) (hi : (1 : UInt32).toNat * 65536 ≤ i) : markedPage i = 0 :=
  if_neg (Nat.ne_of_gt (Nat.lt_of_lt_of_le (by decide) hi))

theorem noTypes_length : ([] : Bytes).length = (0 : UInt32).toNat := rfl

theorem noValues_length : ([] : List UInt32).length = (0 : UInt32).toNat := rfl

/-- A page with one byte set, no globals, and no frames. -/
def markedSnapshot (offset : UInt32) : Snapshot where
  pageCount := 1
  memory := markedPage
  globals := ⟨⟨0, [], noTypes_length⟩, ⟨0, [], noValues_length⟩⟩
  funcIdx := 1
  offset := offset
  callStack := []
  pages_le := markedPage_count
  memory_beyond := markedPage_beyond

theorem markedSnapshot_encodable (offset : UInt32) : (markedSnapshot offset).Encodable .wire :=
  ⟨rfl, rfl, Nat.two_pow_pos 32⟩

/-- An offset that is moved on by 7 on the second host. -/
theorem migrations_transparent_moved :
    ∃ dir hops dir', (markedSnapshot 2).CheckpointedIn .wire noTables dir ∧
      Run (Hop .wire noTables fun s n t => t = markedSnapshot (s.offset + n)) dir hops dir' ∧
      hops.map Prod.snd = [7] ∧ (markedSnapshot 9).RestoredFrom .wire dir' := by
  obtain ⟨last, hstart⟩ := (markedSnapshot_encodable 2).checkpointedIn noTables newProcess_fresh
    freshWorld_faultless
  have hrun : Run (Executes .wire fun s (n : UInt32) t => t = markedSnapshot (s.offset + n)) (markedSnapshot 2)
      [(markedSnapshot 2, 7)] (markedSnapshot 9) := .cons ⟨rfl, markedSnapshot_encodable 9⟩ (.nil _)
  obtain ⟨hops, dir', hhops⟩ := (migrations_transparent ProtobufC.wire_proto3 hstart [7] (markedSnapshot 9)).mpr
    ⟨_, hrun, rfl⟩
  exact ⟨_, hops, dir', hstart, hhops⟩

end Wasmig
