import Wasmig.Checkpoint.Process
import Wasmig.Memory.Written

/-! What each checkpoint function leaves, whatever the environment does.

A static stream holds nothing back between two calls and its file is there
(`SettledHandle`), so every call starts its image from the beginning of a file. For each
function there is one lemma: which file it may change, when it returns 0, and what the
file then holds, up to what its last flush or close does not get through. -/
namespace Wasmig
open Base Base.Stdio

/-! ### Static streams -/

/-- A static stream between two calls. -/
def SettledHandle (w : World Path) (name : String) (handle : Option (Writer Path)) : Prop :=
  ∀ fp, handle = some fp → fp.path.name = name ∧ fp.pending = [] ∧ (w.files fp.path).isSome = true

theorem SettledHandle.persists {w w' : World Path} {name : String} {handle : Option (Writer Path)}
    (h : SettledHandle w name handle) (hw : Persists w w') : SettledHandle w' name handle := by
  intro fp hfp
  obtain ⟨hname, hpending, hfile⟩ := h fp hfp
  exact ⟨hname, hpending, hw.files _ hfile⟩

/-- The file a static stream writes, or will write once it is opened. -/
def streamPath (cwd name : String) : Option (Writer Path) → Path
  | some fp => fp.path
  | none => ⟨cwd, name⟩

/-- The number of the first call after the stream is open. -/
def firstCall (w : World Path) : Option (Writer Path) → Nat
  | some _ => w.calls
  | none => w.calls + 1

/-- What is in the stream's file when it is written over. -/
def overwritten (w : World Path) : Option (Writer Path) → Bytes
  | some fp => (w.files fp.path).getD []
  | none => []

/-- The stream is open already, or can be opened. -/
def Opens (w : World Path) (handle : Option (Writer Path)) : Prop :=
  handle = none → w.fault w.calls = none

/-- A static stream when a call has opened and rewound it. -/
structure Rewound (w : World Path) (cwd name : String) (handle : Option (Writer Path)) (opened : Opened Path)
    (fp : Writer Path) : Prop where
  opens : Opens w handle
  stream : opened.fp = some fp
  path : fp.path = streamPath cwd name handle
  start : rewind opened.world fp = ({fp with pos := 0}, opened.world)
  lays : Lays (overwritten w handle) opened.world {fp with pos := 0} []
  calls : opened.world.calls = firstCall w handle

theorem openOnce_spec {w : World Path} {name : String} {handle : Option (Writer Path)} (cwd : String)
    (h : SettledHandle w name handle) :
    Frame (streamPath cwd name handle) w (openOnce w cwd name handle).world ∧
      Persists w (openOnce w cwd name handle).world ∧
      (¬ Opens w handle ∧ handle = none ∧ (openOnce w cwd name handle).fp = none ∨
        ∃ fp, Rewound w cwd name handle (openOnce w cwd name handle) fp) := by
  cases handle with
  | some fp =>
    obtain ⟨-, hpending, hfile⟩ := h fp rfl
    obtain ⟨content, hcontent⟩ := Option.isSome_iff_exists.mp hfile
    have hold : overwritten w (some fp) = content := by
      rw [overwritten, hcontent]
      rfl
    obtain ⟨hstart, hlays⟩ := rewind_lays hpending hcontent
    refine ⟨Frame.refl .., Persists.refl _, Or.inr ⟨fp, ?_, rfl, rfl, hstart, hold ▸ hlays, rfl⟩⟩
    intro hnone
    cases hnone
  | none =>
    obtain ⟨hframe, hpersists, hopened⟩ := fopen_frame w (⟨cwd, name⟩ : Path)
    refine ⟨hframe, hpersists, ?_⟩
    by_cases hfault : w.fault w.calls = none
    · obtain ⟨hfp, -⟩ := fopen_ok w (⟨cwd, name⟩ : Path) hfault
      obtain ⟨hpath, hpending, hlays⟩ := hopened _ hfp
      obtain ⟨hstart, hlays'⟩ := rewind_lays hpending hlays.file
      exact Or.inr ⟨_, fun _ => hfault, hfp, rfl, hstart, hlays', (fopen_calls w _).1⟩
    · refine Or.inl ⟨fun hopens => hfault (hopens rfl), rfl, ?_⟩
      show (fopen w _).fp = none
      rw [fopen_failed w _ hfault]

/-! ### The program counter -/

/-- What a call that writes one stream leaves. `opens` says that it gets as far as
writing, `reach` what is held back when it is done, and `answer` how much of that gets
through at the end. -/
structure StreamOutcome (w : World Path) (path : Path) (old block : Bytes) (opens : Prop)
    (reach answer : Option Nat) (w' : World Path) : Prop where
  frame : Frame path w w'
  persists : Persists w w'
  file : ∀ h, opens → reach = some h → h ≤ block.length ∧ w'.files path =
    some (block.take (block.length - h + survivors answer h) ++ old.drop (block.length - h + survivors answer h))

/-- What a call that writes a static stream leaves of it: it goes on writing the same file,
and holds nothing back. -/
structure StaticOutcome (name : String) (path : Path) (w' : World Path) (handle' : Option (Writer Path)) : Prop where
  settled : SettledHandle w' name handle'
  path : ∀ fp, handle' = some fp → fp.path = path

theorem StaticOutcome.ofIdle {w w' : World Path} {cwd name : String} {handle : Option (Writer Path)}
    {fp : Writer Path} (hname : (streamPath cwd name handle).name = name)
    (h : Idle w (streamPath cwd name handle) w' fp) :
    StaticOutcome name (streamPath cwd name handle) w' (some fp) := by
  constructor
  · intro fp' hfp
    cases hfp
    exact ⟨h.path.symm ▸ hname, h.pending, h.there⟩
  · intro fp' hfp
    cases hfp
    exact h.path

/-- Nothing is known of the file of a stream that could not be opened. -/
theorem StaticOutcome.unopened {w w' : World Path} {name : String} {path : Path} {handle : Option (Writer Path)}
    (h : SettledHandle w name handle) (hpersists : Persists w w') (hnone : handle = none) :
    StaticOutcome name path w' handle := by
  refine ⟨h.persists hpersists, fun fp hfp => ?_⟩
  rw [hnone] at hfp
  cases hfp

/-- A call that gives its stream up has not reached the end. -/
theorem StreamOutcome.ofIdle {w w' : World Path} {path : Path} {old block : Bytes} {opens : Prop}
    {answer : Option Nat} {fp : Writer Path} (h : Idle w path w' fp) :
    StreamOutcome w path old block opens none answer w' :=
  ⟨h.frame, h.persists, fun _ _ hn => by cases hn⟩

theorem streamPath_name {w : World Path} {name : String} {handle : Option (Writer Path)} (cwd : String)
    (h : SettledHandle w name handle) : (streamPath cwd name handle).name = name := by
  cases handle with
  | none => rfl
  | some fp => exact (h fp rfl).1

/-- A stream that has been rewound is about to write its blocks. -/
theorem Rewound.underway {w : World Path} {cwd name : String} {handle : Option (Writer Path)}
    {opened : Opened Path} {fp : Writer Path} (h : Rewound w cwd name handle opened fp)
    (hframe : Frame (streamPath cwd name handle) w opened.world) (hpersists : Persists w opened.world)
    (blocks : List Nat) :
    Underway w (streamPath cwd name handle) (overwritten w handle) (heldBack w.fault (firstCall w handle) 0 blocks)
      (firstCall w handle + blocks.length) blocks [] opened.world {fp with pos := 0} := by
  have hpending : fp.pending = [] := h.lays.pending
  refine ⟨hframe, hpersists, h.path, h.lays, ?_, by rw [h.calls]⟩
  show heldBack opened.world.fault opened.world.calls fp.pending.length blocks = _
  rw [hpending, h.calls, hframe.fault]
  rfl

theorem checkpointPc_spec {p : Checkpointer} (hp : SettledHandle p.world "program_counter.img" p.programCounterFp)
    (funcIdx offset : UInt32) :
    StreamOutcome p.world (streamPath p.cwd "program_counter.img" p.programCounterFp)
        (overwritten p.world p.programCounterFp) (le32 funcIdx ++ le32 offset) (Opens p.world p.programCounterFp)
        (heldBack p.world.fault (firstCall p.world p.programCounterFp) 0 [4, 4])
        (p.world.fault (firstCall p.world p.programCounterFp + 2)) (checkpointPc funcIdx offset p).2.world ∧
      ((checkpointPc funcIdx offset p).1 = 0 ↔ Opens p.world p.programCounterFp ∧
        (heldBack p.world.fault (firstCall p.world p.programCounterFp) 0 [4, 4]).isSome = true) ∧
      StaticOutcome "program_counter.img" (streamPath p.cwd "program_counter.img" p.programCounterFp)
        (checkpointPc funcIdx offset p).2.world (checkpointPc funcIdx offset p).2.programCounterFp ∧
      (checkpointPc funcIdx offset p).2.cwd = p.cwd ∧
      (checkpointPc funcIdx offset p).2.callStackFp = p.callStackFp := by
  have hname := streamPath_name p.cwd hp
  have hfailed : ¬ (-1 : Int) = 0 := by decide
  obtain ⟨hframe, hpersists, hnone | ⟨fp, h⟩⟩ := openOnce_spec p.cwd hp
  · obtain ⟨hopens, hhandle, hfp⟩ := hnone
    have hrun : checkpointPc funcIdx offset p =
        (-1, {p with world := (openOnce p.world p.cwd "program_counter.img" p.programCounterFp).world}) := by
      unfold checkpointPc
      dsimp only
      rw [hfp]
    rw [hrun]
    exact ⟨⟨hframe, hpersists, fun _ ho => absurd ho hopens⟩, iff_of_false hfailed fun h => hopens h.1,
      .unopened hp hpersists hhandle, rfl, rfl⟩
  have hunderway := h.underway hframe hpersists [4, 4]
  unfold checkpointPc
  dsimp only
  rw [h.stream]
  dsimp only
  rw [h.start]
  dsimp only
  have hidx := hunderway.write 4 1 (le32 funcIdx) (le32_length funcIdx) (by decide) rfl (Or.inl Nat.one_pos)
  generalize heldBack p.world.fault (firstCall p.world p.programCounterFp) 0 [4, 4] = reach at hidx ⊢
  generalize (openOnce p.world p.cwd "program_counter.img" p.programCounterFp).world = w at hidx ⊢
  generalize fwrite w {fp with pos := 0} 4 (le32 funcIdx) = idx at hidx ⊢
  obtain ⟨hcount, hnext⟩ | ⟨hcount, rfl, hidle⟩ := hidx
  · rw [if_neg (not_not_intro hcount)]
    have hoff := hnext.write 4 1 (le32 offset) (le32_length offset) (by decide) rfl (Or.inl Nat.one_pos)
    generalize fwrite idx.world idx.fp 4 (le32 offset) = off at hoff ⊢
    obtain ⟨hcount', hlast⟩ | ⟨hcount', rfl, hidle⟩ := hoff
    · rw [if_neg (not_not_intro hcount')]
      obtain ⟨hidle, hfile⟩ := hlast.flush
      obtain ⟨hreach, -⟩ := hlast.finished
      refine ⟨⟨hidle.frame, hidle.persists, fun n _ hn => hfile n hn⟩, ?_, .ofIdle hname hidle, rfl, rfl⟩
      rw [hreach]
      exact iff_of_true rfl ⟨h.opens, rfl⟩
    · rw [if_pos hcount']
      exact ⟨.ofIdle hidle, iff_of_false hfailed fun h => Bool.noConfusion h.2, .ofIdle hname hidle, rfl, rfl⟩
  · rw [if_pos hcount]
    exact ⟨.ofIdle hidle, iff_of_false hfailed fun h => Bool.noConfusion h.2, .ofIdle hname hidle, rfl, rfl⟩

/-- The file of a static stream has no more than `n` bytes. -/
def ShortHandle (n : Nat) (w : World Path) (handle : Option (Writer Path)) : Prop :=
  ∀ fp, handle = some fp → ∀ content, w.files fp.path = some content → content.length ≤ n

theorem ShortHandle.overwritten_le {n : Nat} {w : World Path} {handle : Option (Writer Path)}
    (h : ShortHandle n w handle) : (overwritten w handle).length ≤ n := by
  cases handle with
  | none => exact Nat.zero_le n
  | some fp =>
    show ((w.files fp.path).getD []).length ≤ n
    cases hfile : w.files fp.path with
    | none => exact Nat.zero_le n
    | some content => exact h fp rfl content hfile

theorem ShortHandle.ofRoom {n k : Nat} {w : World Path} {fp : Writer Path} (h : Room n k w fp) :
    ShortHandle n w (some fp) := by
  intro fp' hfp
  cases hfp
  exact h.file

/-- A stream that has been rewound has room for as much as its file may hold. -/
theorem Rewound.room {n : Nat} {w : World Path} {cwd name : String} {handle : Option (Writer Path)}
    {opened : Opened Path} {fp : Writer Path} (h : Rewound w cwd name handle opened fp)
    (hshort : ShortHandle n w handle) : Room n 0 opened.world {fp with pos := 0} := by
  refine ⟨Nat.le_of_eq ?_, Nat.zero_le n, fun content hcontent => ?_⟩
  · have hlength := h.lays.length
    exact hlength
  · rw [h.lays.file] at hcontent
    cases hcontent
    exact hshort.overwritten_le

/-- A program counter's file never has more than its eight bytes, whatever fails. -/
theorem checkpointPc_short {p : Checkpointer} (hp : SettledHandle p.world "program_counter.img" p.programCounterFp)
    (hshort : ShortHandle 8 p.world p.programCounterFp) (funcIdx offset : UInt32) :
    ShortHandle 8 (checkpointPc funcIdx offset p).2.world (checkpointPc funcIdx offset p).2.programCounterFp := by
  unfold checkpointPc
  obtain ⟨-, -, ⟨-, hhandle, hfp⟩ | ⟨fp, h⟩⟩ := openOnce_spec p.cwd hp
  · dsimp only
    rw [hfp]
    show ShortHandle 8 _ p.programCounterFp
    rw [hhandle]
    exact nofun
  have hidx := (h.room hshort).write 4 (le32 funcIdx) (by rw [le32_length]; decide)
  have hoff := hidx.write 4 (le32 offset) (by simp)
  dsimp only
  rw [h.stream]
  dsimp only
  rw [h.start]
  dsimp only
  split
  · exact .ofRoom hidx
  · split
    · exact .ofRoom hoff
    · exact .ofRoom hoff.flush

/-! ### Call stacks, on the static stream -/

theorem checkpointStackV4_spec {pb : ProtobufC} {p : Checkpointer}
    (hp : SettledHandle p.world "call_stack.img" p.callStackFp) {callStack : List CallStackEntry} {buf : Array8}
    (hbuf : serializeCallStack pb (callStackOf callStack) = some buf) :
    ∃ code p', checkpointStackV4 pb callStack p = some (code, p') ∧
      StreamOutcome p.world (streamPath p.cwd "call_stack.img" p.callStackFp) [] buf.contents
        (Opens p.world p.callStackFp ∧ p.world.fault (firstCall p.world p.callStackFp) = none)
        (heldBack p.world.fault (firstCall p.world p.callStackFp + 1) 0 [buf.contents.length])
        (p.world.fault (firstCall p.world p.callStackFp + 2)) p'.world ∧
      (code = 0 ↔ (Opens p.world p.callStackFp ∧ p.world.fault (firstCall p.world p.callStackFp) = none) ∧
        (heldBack p.world.fault (firstCall p.world p.callStackFp + 1) 0 [buf.contents.length]).isSome = true) ∧
      StaticOutcome "call_stack.img" (streamPath p.cwd "call_stack.img" p.callStackFp) p'.world p'.callStackFp ∧
      p'.cwd = p.cwd ∧ p'.programCounterFp = p.programCounterFp := by
  have hname := streamPath_name p.cwd hp
  have hfailed : ¬ (-1 : Int) = 0 := by decide
  unfold checkpointStackV4
  rw [hbuf, Option.map_some]
  refine ⟨_, _, rfl, ?_⟩
  dsimp only
  obtain ⟨hframe, hpersists, hnone | ⟨fp, h⟩⟩ := openOnce_spec p.cwd hp
  · obtain ⟨hopens, hhandle, hfp⟩ := hnone
    rw [hfp]
    exact ⟨⟨hframe, hpersists, fun _ ho => absurd ho.1 hopens⟩, iff_of_false hfailed fun h => hopens h.1.1,
      .unopened hp hpersists hhandle, rfl, rfl⟩
  rw [h.stream]
  dsimp only
  rw [h.start]
  dsimp only
  have hpath : ({fp with pos := 0} : Writer Path).path = streamPath p.cwd "call_stack.img" p.callStackFp := h.path
  have hpending : ({fp with pos := 0} : Writer Path).pending = [] := h.lays.pending
  have hlays := h.lays
  have hcalls := h.calls
  generalize ({fp with pos := 0} : Writer Path) = start at hpath hpending hlays ⊢
  generalize (openOnce p.world p.cwd "call_stack.img" p.callStackFp).world = w at hframe hpersists hlays hcalls ⊢
  obtain ⟨hframe', hpersists'⟩ := ftruncate_frame w start
  obtain ⟨hcalls', htruncated⟩ := ftruncate_lays hlays
  rw [hcalls] at hcalls' htruncated
  rw [hframe.fault] at htruncated
  rw [hpath] at hframe'
  generalize ftruncate w start = truncated at hframe' hpersists' hcalls' htruncated ⊢
  obtain ⟨hcode, hfault, hlays'⟩ | ⟨hcode, hfault, hlays'⟩ := htruncated
  · rw [if_neg (not_not_intro hcode)]
    have hunderway : Underway p.world (streamPath p.cwd "call_stack.img" p.callStackFp) []
        (heldBack p.world.fault (firstCall p.world p.callStackFp + 1) 0 [buf.contents.length])
        (firstCall p.world p.callStackFp + 2) [buf.contents.length] [] truncated.2 start := by
      refine ⟨hframe.trans hframe', hpersists.trans hpersists', hpath, hlays', ?_, by rw [hcalls']; rfl⟩
      rw [hcalls', (hframe.trans hframe').fault, hpending]
      rfl
    have hwritten := hunderway.write 1 buf.size.toNat buf.contents rfl Nat.one_pos
      (by rw [buf.length_contents, Nat.one_mul]) (Or.inr hpending)
    generalize heldBack p.world.fault (firstCall p.world p.callStackFp + 1) 0 [buf.contents.length] = reach
      at hwritten ⊢
    generalize fwrite truncated.2 start 1 buf.contents = written at hwritten ⊢
    obtain ⟨hcount, hlast⟩ | ⟨hcount, rfl, hidle⟩ := hwritten
    · rw [if_neg (not_not_intro hcount)]
      obtain ⟨hidle, hfile⟩ := hlast.flush
      obtain ⟨hreach, -⟩ := hlast.finished
      refine ⟨⟨hidle.frame, hidle.persists, fun n _ hn => hfile n hn⟩, ?_, .ofIdle hname hidle, rfl, rfl⟩
      rw [hreach]
      exact iff_of_true rfl ⟨⟨h.opens, hfault⟩, rfl⟩
    · rw [if_pos hcount]
      exact ⟨.ofIdle hidle, iff_of_false hfailed fun h => Bool.noConfusion h.2, .ofIdle hname hidle, rfl, rfl⟩
  · rw [if_pos hcode]
    have hidle : Idle p.world (streamPath p.cwd "call_stack.img" p.callStackFp) truncated.2 start :=
      ⟨hframe.trans hframe', hpersists.trans hpersists', hpath, hpending, by rw [hlays'.file]; rfl⟩
    exact ⟨⟨hidle.frame, hidle.persists, fun _ ho => absurd ho.2 hfault⟩,
      iff_of_false hfailed fun h => hfault h.1.2, .ofIdle hname hidle, rfl, rfl⟩

/-! ### Images whose writes are not checked -/

/-- What a call leaves that writes an image to a file it opens and closes: a file of its
own, which is short when a write was. -/
structure FileOutcome (w : World Path) (path : Path) (block : Bytes) (blocks : List Nat) (code : Int)
    (w' : World Path) : Prop where
  stream : StreamOutcome w path [] block (w.fault w.calls = none) (heldBack w.fault (w.calls + 1) 0 blocks)
    (w.fault (w.calls + 1 + blocks.length)) w'
  code : code = 0 ↔ w.fault w.calls = none
  short : w.fault w.calls = none → heldBack w.fault (w.calls + 1) 0 blocks = none →
    ∃ content, w'.files path = some content ∧ content.length < block.length

/-- The file could not be opened. -/
theorem FileOutcome.unopened {w : World Path} {path : Path} (h : (fopen w path).fp = none) (block : Bytes)
    (blocks : List Nat) : FileOutcome w path block blocks (-1) (fopen w path).world := by
  obtain ⟨hframe, hpersists, -⟩ := fopen_frame w path
  have hfault : ¬ w.fault w.calls = none := fun hnone => by
    rw [(fopen_ok w path hnone).1] at h
    cases h
  exact ⟨⟨hframe, hpersists, fun _ ho => absurd ho hfault⟩, iff_of_false (by decide) hfault,
    fun ho => absurd ho hfault⟩

/-- The file is closed after all blocks, or after some of them were lost. -/
theorem FileOutcome.closed {w w' : World Path} {path : Path} {fp : Writer Path} {block : Bytes} {blocks : List Nat}
    (hopens : w.fault w.calls = none)
    (h : Underway w path [] (heldBack w.fault (w.calls + 1) 0 blocks) (w.calls + 1 + blocks.length) [] block w' fp ∨
      (heldBack w.fault (w.calls + 1) 0 blocks = none ∧ Broken w path block.length w' fp)) :
    FileOutcome w path block blocks 0 (fclose w' fp).world := by
  obtain hlast | ⟨hreach, hbroken⟩ := h
  · obtain ⟨hframe, hpersists, hfile⟩ := hlast.close
    obtain ⟨hreach, -⟩ := hlast.finished
    refine ⟨⟨hframe, hpersists, fun n _ hn => hfile n hn⟩, iff_of_true rfl hopens, fun _ hnone => ?_⟩
    rw [hreach] at hnone
    cases hnone
  · obtain ⟨hframe, hpersists, hshort⟩ := hbroken.close
    refine ⟨⟨hframe, hpersists, fun n _ hn => ?_⟩, iff_of_true rfl hopens, fun _ _ => hshort⟩
    rw [hreach] at hn
    cases hn

/-- A whole image in one write. -/
theorem fileOutcome_image {w : World Path} {path : Path} {fp : Writer Path} (h : (fopen w path).fp = some fp)
    (block : Bytes) :
    FileOutcome w path block [block.length] 0
      (fclose (fwrite (fopen w path).world fp 1 block).world (fwrite (fopen w path).world fp 1 block).fp).world := by
  obtain ⟨hopens, hpending, hunderway⟩ := fopen_underway h [block.length]
  refine .closed hopens ?_
  have hwritten := hunderway.write_unchecked 1 block.length block rfl Nat.one_pos (Nat.one_mul _).symm
    (Or.inr hpending)
  rw [List.nil_append, List.length_nil, Nat.zero_add] at hwritten
  exact hwritten

theorem serialize_contents {pb : ProtobufC} {d : Wire.Descriptor} {m : d.Value} {buf : Array8}
    (h : pb.serialize d m = some buf) : buf.contents = pb.pack d m := by
  unfold ProtobufC.serialize at h
  dsimp only at h
  split at h
  · cases h
    rfl
  · cases h

theorem checkpointGlobalV2_spec {pb : ProtobufC} {globals : TypedArray} {p p' : Checkpointer} {code : Int}
    (hrun : checkpointGlobalV2 pb globals p = some (code, p')) :
    p' = {p with world := p'.world} ∧
      FileOutcome p.world ⟨p.cwd, "global.img"⟩ (pb.pack State.typedArray (fromTypedArray globals))
        [(pb.pack State.typedArray (fromTypedArray globals)).length] code p'.world := by
  have himage : openImageWb p.world p.cwd "global.img" = fopen p.world (⟨p.cwd, "global.img"⟩ : Path) := rfl
  unfold checkpointGlobalV2 at hrun
  dsimp only at hrun
  rw [himage] at hrun
  cases hfp : (fopen p.world (⟨p.cwd, "global.img"⟩ : Path)).fp with
  | none =>
    rw [hfp] at hrun
    cases hrun
    exact ⟨rfl, .unopened hfp _ _⟩
  | some fp =>
    rw [hfp] at hrun
    obtain ⟨buf, hbuf, hrun⟩ := Option.map_eq_some_iff.mp hrun
    cases hrun
    have hcontents : buf.contents = pb.pack State.typedArray (fromTypedArray globals) := serialize_contents hbuf
    rw [← hcontents]
    exact ⟨rfl, fileOutcome_image hfp buf.contents⟩

theorem checkpointStackV3_spec {pb : ProtobufC} {tables : StackTables} {callStack : List BaseCallStackEntry}
    {p p' : Checkpointer} {code : Int} (hrun : checkpointStackV3 pb tables callStack p = some (code, p')) :
    p' = {p with world := p'.world} ∧
      ∃ entries buf, callStack.length < 2 ^ 31 ∧ typedFrames tables callStack = some entries ∧
        serializeCallStack pb (callStackOf entries) = some buf ∧
        FileOutcome p.world ⟨p.cwd, "call_stack.img"⟩ buf.contents [buf.contents.length] code p'.world := by
  have himage : openImageWb p.world p.cwd "call_stack.img" = fopen p.world (⟨p.cwd, "call_stack.img"⟩ : Path) :=
    rfl
  unfold checkpointStackV3 checkpointStackV3M at hrun
  split at hrun
  · cases hrun
  rename_i hlength
  obtain ⟨entries, hentries, hrun⟩ := Option.bind_eq_some_iff.mp hrun
  obtain ⟨buf, hbuf, hrun⟩ := Option.bind_eq_some_iff.mp hrun
  dsimp only at hrun
  rw [himage] at hrun
  cases hfp : (fopen p.world (⟨p.cwd, "call_stack.img"⟩ : Path)).fp with
  | none =>
    rw [hfp] at hrun
    cases hrun
    exact ⟨rfl, entries, buf, by omega, hentries, hbuf, .unopened hfp _ _⟩
  | some fp =>
    rw [hfp] at hrun
    cases hrun
    exact ⟨rfl, entries, buf, by omega, hentries, hbuf, fileOutcome_image hfp buf.contents⟩

/-! ### Globals, item by item -/

/-- The image of these globals, from item `i` on. -/
def globalsImage (values : Memory) : Nat → List UInt32 → Bytes
  | _, [] => []
  | i, ty :: types => values.read (8 * i) ty.toNat ++ globalsImage values (i + 1) types

/-- The lengths of the items that are not empty. -/
def globalsBlocks (types : List UInt32) : List Nat := (types.map UInt32.toNat).filter fun n => n ≠ 0

theorem writeGlobals_broken (values : Memory) {w₀ : World Path} {path : Path} (types : List UInt32) (i n : Nat)
    {w : World Path} {fp : Writer Path} (h : Broken w₀ path n w fp) :
    Broken w₀ path (n + (globalsImage values i types).length) (writeGlobals values i types fp w).2
      (writeGlobals values i types fp w).1 := by
  induction types generalizing i n w fp with
  | nil => exact h
  | cons ty types ih =>
    rw [writeGlobals, globalsImage, List.length_append, ← Nat.add_assoc]
    by_cases hempty : values.read (8 * i) ty.toNat = []
    · have hitem : fwriteItem w fp (values.read (8 * i) ty.toNat) = ⟨0, fp, w⟩ := if_pos hempty
      rw [hitem, hempty]
      exact ih (i + 1) n h
    · have hitem : fwriteItem w fp (values.read (8 * i) ty.toNat) = fwrite w fp _ (values.read (8 * i) ty.toNat) :=
        if_neg hempty
      rw [hitem]
      exact ih (i + 1) _ (h.write _ _)

/-- The loop writes all items, or has lost something when it ends. -/
theorem writeGlobals_spec (values : Memory) {w₀ : World Path} {path : Path} {reach : Option Nat} {last : Nat}
    (types : List UInt32) (i : Nat) {written : Bytes} {w : World Path} {fp : Writer Path}
    (h : Underway w₀ path [] reach last (globalsBlocks types) written w fp) :
    Underway w₀ path [] reach last [] (written ++ globalsImage values i types)
        (writeGlobals values i types fp w).2 (writeGlobals values i types fp w).1 ∨
      (reach = none ∧ Broken w₀ path (written ++ globalsImage values i types).length
        (writeGlobals values i types fp w).2 (writeGlobals values i types fp w).1) := by
  induction types generalizing i written w fp with
  | nil =>
    refine Or.inl ?_
    rw [globalsImage, List.append_nil]
    exact h
  | cons ty types ih =>
    rw [writeGlobals, globalsImage, ← List.append_assoc]
    by_cases hempty : ty.toNat = 0
    · have hread : values.read (8 * i) ty.toNat = [] :=
        List.eq_nil_of_length_eq_zero (by rw [Memory.read_length, hempty])
      have hitem : fwriteItem w fp (values.read (8 * i) ty.toNat) = ⟨0, fp, w⟩ := if_pos hread
      have hblocks : globalsBlocks (ty :: types) = globalsBlocks types := by simp [globalsBlocks, hempty]
      rw [hitem, hread, List.append_nil]
      exact ih (i + 1) (hblocks ▸ h)
    · have hread : values.read (8 * i) ty.toNat ≠ [] := fun hnil => by
        have hlength := Memory.read_length values (8 * i) ty.toNat
        rw [hnil] at hlength
        exact hempty hlength.symm
      have hitem : fwriteItem w fp (values.read (8 * i) ty.toNat) = fwrite w fp _ (values.read (8 * i) ty.toNat) :=
        if_neg hread
      have hblocks : globalsBlocks (ty :: types) = ty.toNat :: globalsBlocks types := by
        simp [globalsBlocks, hempty]
      rw [hblocks] at h
      rw [hitem]
      obtain hnext | ⟨hreach, hbroken⟩ := h.write_unchecked (values.read (8 * i) ty.toNat).length 1 _
        (Memory.read_length ..) (List.length_pos_iff.mpr hread) (by rw [Memory.read_length, Nat.mul_one])
        (Or.inl Nat.one_pos)
      · exact ih (i + 1) hnext
      · refine Or.inr ⟨hreach, ?_⟩
        rw [List.length_append, List.length_append]
        exact writeGlobals_broken values types (i + 1) _ hbroken

theorem checkpointGlobal_spec (values : Memory) (types : List UInt32) (p : Checkpointer) :
    (checkpointGlobal values types p).2 = {p with world := (checkpointGlobal values types p).2.world} ∧
      FileOutcome p.world ⟨p.cwd, "global.img"⟩ (globalsImage values 0 types) (globalsBlocks types)
        (checkpointGlobal values types p).1 (checkpointGlobal values types p).2.world := by
  have himage : openImageWb p.world p.cwd "global.img" = fopen p.world (⟨p.cwd, "global.img"⟩ : Path) := rfl
  unfold checkpointGlobal
  dsimp only
  rw [himage]
  cases hfp : (fopen p.world (⟨p.cwd, "global.img"⟩ : Path)).fp with
  | none => exact ⟨rfl, .unopened hfp _ _⟩
  | some fp =>
    obtain ⟨hopens, -, hunderway⟩ := fopen_underway hfp (globalsBlocks types)
    exact ⟨rfl, .closed hopens (writeGlobals_spec values types 0 hunderway)⟩

end Wasmig
