import Wasmig.Base.History
import Wasmig.Stack.Persistent
import Wasmig.Stack.Registration

/-! The maps of stacks and their registry are a two-level map.

What a call does to a key of a map, and to an id of the registry, can be said without
looking at nodes (`pairEffect`, `registryEffect`): a key holds the pair saved last, an id
the map that was registered first. The pair's stacks stay alive in their slot, and so
denote what they did when they were saved (`savedLast_denotes`); `metadata_refines`
says what is loaded after a run. -/
namespace Wasmig
open Base Base.RefCount

/-- The pair under a key of the map at `m`. -/
def Process.entry (p : Process) (m : Addr) (key : UInt32) : Option StackPair :=
  (p.maps.lookup m).bind fun pairs => pairs.lookup key

/-! ### What calls do to a key and to an id -/

/-- What a call does to a key of the map at `m`. A map that is created or destroyed
there leaves no pairs behind. -/
def pairEffect (m : Addr) (key : UInt32) (step : Client × Call) : Effect StackPair :=
  match step.2 with
  | .savePair (some m') key' addressStack typeStack =>
    if m' = m ∧ key' = key then .set ⟨addressStack, typeStack⟩ else .keep
  | .remove (some m') key' => if m' = m ∧ key' = key then .clear else .keep
  | .mapCreate m' => if m' = m then .clear else .keep
  | .mapDestroy (some m') _ => if m' = m then .clear else .keep
  | _ => .keep

/-- What a call does to an id of the registry. -/
def registryEffect (id : UInt32) (step : Client × Call) : Effect Addr :=
  match step.2 with
  | .registrySave id' (some m) => if id' = id then .set m else .keep
  | .registryClear => .clear
  | _ => .keep

theorem entry_of_maps {p p' : Process} (h : p'.maps = p.maps) (m : Addr) (key : UInt32) :
    p'.entry m key = p.entry m key := by
  rw [Process.entry, h]
  rfl

theorem entry_created (p : Process) (m' m : Addr) (key : UInt32) :
    (p.stackStateMapCreate m').entry m key = if m' = m then none else p.entry m key := by
  unfold Process.entry Process.stackStateMapCreate
  by_cases hm : m' = m
  · rw [if_pos hm, hm, Finmap.lookup_insert, Option.bind_some, Finmap.lookup_empty]
  · rw [if_neg hm, Finmap.lookup_insert_of_ne _ (Ne.symm hm)]

/-- A map with one key changed. -/
theorem entry_insert {p p' : Process} {m' : Addr} {pairs pairs' : StackPairs} {key' : UInt32} {v : Option StackPair}
    (hpairs : p.maps.lookup m' = some pairs) (hmaps : p'.maps = p.maps.insert m' pairs')
    (hkey : pairs'.lookup key' = v) (hothers : ∀ key, key ≠ key' → pairs'.lookup key = pairs.lookup key)
    (m : Addr) (key : UInt32) : p'.entry m key = if m' = m ∧ key' = key then v else p.entry m key := by
  unfold Process.entry
  rw [hmaps]
  by_cases hm : m' = m
  · rw [← hm, Finmap.lookup_insert, hpairs, Option.bind_some, Option.bind_some]
    by_cases hsame : key' = key
    · rw [if_pos ⟨rfl, hsame⟩, ← hsame, hkey]
    · rw [if_neg fun h => hsame h.2, hothers key (Ne.symm hsame)]
  · rw [if_neg fun h => hm h.1, Finmap.lookup_insert_of_ne _ (Ne.symm hm)]

theorem pairEffect_keeps (m : Addr) (key : UInt32) (c : Client) {call : Call} (hcall : call.KeepsTables) :
    pairEffect m key (c, call) = .keep := by
  cases call with
  | mapCreate => cases hcall
  | mapDestroy => cases hcall
  | savePair map =>
    cases map with
    | none => rfl
    | some => cases hcall
  | remove map =>
    cases map with
    | none => rfl
    | some => cases hcall
  | _ => rfl

/-- One call, as a key of a map sees it. -/
theorem pairEffect_next (m : Addr) (key : UInt32) {c c' : Client} {call : Call} (hstep : Client.Step c call c') :
    c'.process.entry m key = (pairEffect m key (c, call)).apply (c.process.entry m key) := by
  have hafter := afterCall_next hstep.1 hstep.2
  generalize c'.process = p' at hafter ⊢
  cases hafter with
  | nodes hcall _ hmaps =>
    rw [pairEffect_keeps m key c hcall]
    exact entry_of_maps hmaps m key
  | created m' =>
    rw [entry_created]
    show _ = (if m' = m then Effect.clear else Effect.keep).apply _
    split
    · rfl
    · rfl
  | saved m' key' addressStack typeStack hpairs honly =>
    rw [entry_insert hpairs honly.maps (Finmap.lookup_insert _)
      fun _ hne => Finmap.lookup_insert_of_ne _ hne]
    show _ = (if m' = m ∧ key' = key then Effect.set (StackPair.mk addressStack typeStack) else Effect.keep).apply _
    split
    · rfl
    · rfl
  | removed m' key' hpairs honly =>
    rw [entry_insert hpairs honly.maps (Finmap.lookup_erase ..) fun _ hne => Finmap.lookup_erase_ne hne]
    show _ = (if m' = m ∧ key' = key then Effect.clear else Effect.keep).apply _
    split
    · rfl
    · rfl
  | notDestroyed => rfl
  | destroyed m' order honly =>
    show p'.entry m key = (if m' = m then Effect.clear else Effect.keep).apply _
    rw [Process.entry, honly.maps]
    by_cases hm : m' = m
    · rw [if_pos hm, hm, Finmap.lookup_erase]
      rfl
    · rw [if_neg hm, Finmap.lookup_erase_ne (Ne.symm hm)]
      rfl
  | registered id map =>
    have heffect : pairEffect m key (c, .registrySave id map) = .keep := by cases map <;> rfl
    rw [heffect]
    exact entry_of_maps (stackStateMapRegistrySave_rest c.process id map).2.1 m key
  | cleared => rfl

/-- Saving under an id, as the ids of the registry see it: the first map stays. -/
theorem stackStateMapRegistrySave_emplace (p : Process) (id id' : UInt32) (m : Addr) :
    (p.stackStateMapRegistrySave id' (some m)).1.gStackStateMapRegistry id =
      (if id' = id then Effect.set m else Effect.keep).emplace (p.gStackStateMapRegistry id) := by
  unfold Process.stackStateMapRegistrySave
  cases hload : p.gStackStateMapRegistry id' with
  | some w =>
    by_cases hid : id' = id
    · rw [if_pos hid, ← hid, hload]
      rfl
    · rw [if_neg hid]
      rfl
  | none =>
    dsimp only
    by_cases hid : id' = id
    · rw [if_pos hid, ← hid, Function.update_self, hload]
      rfl
    · rw [if_neg hid, Function.update_of_ne (Ne.symm hid)]
      rfl

theorem registryEffect_keeps (id : UInt32) (c : Client) {call : Call} (hcall : call.KeepsTables) :
    registryEffect id (c, call) = .keep := by
  cases call with
  | registrySave => cases hcall
  | registryClear => cases hcall
  | _ => rfl

/-- One call, as an id of the registry sees it. -/
theorem registryEffect_next (id : UInt32) {c c' : Client} {call : Call} (hstep : Client.Step c call c') :
    c'.process.stackStateMapRegistryLoad id =
      (registryEffect id (c, call)).emplace (c.process.stackStateMapRegistryLoad id) := by
  have hafter := afterCall_next hstep.1 hstep.2
  generalize c'.process = p' at hafter ⊢
  cases hafter with
  | nodes hcall _ _ hloaded =>
    rw [registryEffect_keeps id c hcall]
    exact congrFun hloaded id
  | created => rfl
  | saved _ _ _ _ _ honly => exact congrFun honly.loaded id
  | removed _ _ _ honly => exact congrFun honly.loaded id
  | notDestroyed => rfl
  | destroyed _ _ honly => exact congrFun honly.loaded id
  | registered id' map =>
    cases map with
    | none => rfl
    | some m => exact stackStateMapRegistrySave_emplace c.process id id' m
  | cleared => rfl

/-! ### What is under a key -/

/-- The stacks in a slot are live. -/
theorem Accounted.live_entry {p : Process} {owned : Multiset Stack} (h : Accounted p owned) {m : Addr}
    {key : UInt32} {pair : StackPair} (hentry : p.entry m key = some pair) :
    Live p.nodes pair.addressStack ∧ Live p.nodes pair.typeStack := by
  obtain ⟨pairs, hpairs, hkey⟩ := Option.bind_eq_some_iff.mp hentry
  have hslots := mem_slots hpairs hkey
  constructor
  · exact Sound.live h (Multiset.mem_add.mpr (Or.inr (Multiset.mem_add.mpr (Or.inr hslots.1))))
  · exact Sound.live h (Multiset.mem_add.mpr (Or.inr (Multiset.mem_add.mpr (Or.inr hslots.2))))

/-- The last call that concerned a key of the map at `m` saved there a stack that denoted
`addresses` and one that denoted `types`. -/
def SavedLast (steps : List (Client × Call)) (m : Addr) (key : UInt32) (addresses types : List UInt64) : Prop :=
  ∃ before c addressStack typeStack after,
    steps = before ++ (c, .savePair (some m) key addressStack typeStack) :: after ∧
    (∀ step ∈ after, pairEffect m key step = .keep) ∧
    Denotes c.process.nodes addressStack addresses ∧ Denotes c.process.nodes typeStack types

theorem pairEffect_set {m : Addr} {key : UInt32} {c : Client} {call : Call} {pair : StackPair}
    (h : pairEffect m key (c, call) = .set pair) :
    call = .savePair (some m) key pair.addressStack pair.typeStack := by
  unfold pairEffect at h
  dsimp only at h
  split at h
  · split at h
    · rename_i hsame
      obtain ⟨rfl, rfl⟩ := hsame
      cases h
      rfl
    · cases h
  · split at h <;> cases h
  · split at h <;> cases h
  · split at h <;> cases h
  · cases h

theorem pairEffect_savePair (m : Addr) (key : UInt32) (c : Client) (addressStack typeStack : Stack) :
    pairEffect m key (c, .savePair (some m) key addressStack typeStack) = .set ⟨addressStack, typeStack⟩ :=
  if_pos ⟨rfl, rfl⟩

section
variable {steps : List (Client × Call)} {last : Client}

theorem entry_iff (hrun : Run Client.Step Client.start steps last) (m : Addr) (key : UInt32) (pair : StackPair) :
    last.process.entry m key = some pair ↔ LastSet (pairEffect m key) steps pair := by
  rw [Run.lookup_iff (fun c call c' hstep => pairEffect_next m key hstep) hrun pair]
  apply or_iff_left
  rintro ⟨hstart, -⟩
  cases hstart

/-- A key holds what was saved last, which denotes what it did when it was saved: in its
slot it has stayed alive all along. -/
theorem savedLast_denotes (hrun : Run Client.Step Client.start steps last) {m : Addr} {key : UInt32}
    {addresses types : List UInt64} (hsaved : SavedLast steps m key addresses types) :
    ∃ pair, last.process.entry m key = some pair ∧ Denotes last.process.nodes pair.addressStack addresses ∧
      Denotes last.process.nodes pair.typeStack types := by
  obtain ⟨before, c, addressStack, typeStack, after, rfl, hafter, haddress, htype⟩ := hsaved
  obtain ⟨c', hbefore, hstep, hrest⟩ := hrun.split
  have haccounted := accounted_run hbefore
  have haccounted' := accounted_step c _ c' hstep haccounted
  have hentry : c'.process.entry m key = some ⟨addressStack, typeStack⟩ := by
    rw [pairEffect_next m key hstep, pairEffect_savePair]
    rfl
  have hheld : Run.Throughout (fun s => s.process.entry m key = some ⟨addressStack, typeStack⟩) after last := by
    have hkeeps : ∀ s call s', Client.Step s call s' →
        s.process.entry m key = some ⟨addressStack, typeStack⟩ → pairEffect m key (s, call) = .keep →
        s'.process.entry m key = some ⟨addressStack, typeStack⟩ := by
      intro s call s' hstep hs hkeep
      rw [pairEffect_next m key hstep, hkeep]
      exact hs
    exact Run.invariant hkeeps hrest hentry hafter
  have hlive' := haccounted'.live_entry hentry
  have hdenotes : Run.Throughout (fun s => Accounted s.process s.owned ∧
      Denotes s.process.nodes addressStack addresses ∧ Denotes s.process.nodes typeStack types) after last := by
    refine Run.keeps_while ?_ hrest ⟨haccounted', denotes_step haccounted hstep haddress hlive'.1,
      denotes_step haccounted hstep htype hlive'.2⟩ hheld
    intro s call s' hstep hentry h
    obtain ⟨haccounted, haddress, htype⟩ := h
    have haccounted' := accounted_step s call s' hstep haccounted
    have hlive' := haccounted'.live_entry hentry
    exact ⟨haccounted', denotes_step haccounted hstep haddress hlive'.1,
      denotes_step haccounted hstep htype hlive'.2⟩
  exact ⟨_, hheld.2, hdenotes.2.2⟩

/-- A key that holds something was saved, by a client that held what it saved. -/
theorem exists_savedLast (hrun : Run Client.Step Client.start steps last) {m : Addr} {key : UInt32}
    {pair : StackPair} (hentry : last.process.entry m key = some pair) :
    ∃ addresses types, SavedLast steps m key addresses types := by
  obtain ⟨before, ⟨c, call⟩, after, rfl, hset, hafter⟩ := (entry_iff hrun m key pair).mp hentry
  cases pairEffect_set hset
  obtain ⟨c', hbefore, ⟨hallowed, -⟩, -⟩ := hrun.split
  have haccounted := accounted_run hbefore
  obtain ⟨addresses, haddress⟩ := Denotes.exists_of_live haccounted (haccounted.live hallowed.2.1)
  obtain ⟨types, htype⟩ := Denotes.exists_of_live haccounted (haccounted.live hallowed.2.2)
  exact ⟨addresses, types, before, c, _, _, after, rfl, hafter, haddress, htype⟩

theorem entry_isSome_iff (hrun : Run Client.Step Client.start steps last) (m : Addr) (key : UInt32) :
    (last.process.entry m key).isSome = true ↔ ∃ addresses types, SavedLast steps m key addresses types := by
  constructor
  · intro hsome
    obtain ⟨pair, hentry⟩ := Option.isSome_iff_exists.mp hsome
    exact exists_savedLast hrun hentry
  · intro h
    obtain ⟨addresses, types, hsaved⟩ := h
    obtain ⟨pair, hentry, -⟩ := savedLast_denotes hrun hsaved
    rw [hentry]
    rfl

theorem stackStateLoadPair_loaded {p p' : Process} {m : Addr} {key : UInt32} {loaded : Option (Stack × Stack)}
    (h : p.stackStateLoadPair (some m) key = some (p', loaded)) :
    loaded = (p.entry m key).map fun pair => (pair.addressStack.orEmpty, pair.typeStack.orEmpty) := by
  obtain ⟨pairs, hpairs, h⟩ := Option.bind_eq_some_iff.mp h
  rw [Process.entry, hpairs, Option.bind_some]
  split at h
  · rename_i hkey
    cases h
    rw [hkey]
    rfl
  · rename_i pair hkey
    obtain ⟨nodes, -, h⟩ := Option.bind_eq_some_iff.mp h
    obtain ⟨nodes', -, h⟩ := Option.map_eq_some_iff.mp h
    cases h
    rw [hkey]
    rfl

/-- A load from a map that is there. -/
theorem loadPair_refines (hrun : Run Client.Step Client.start steps last) {m : Addr}
    (hm : m ∈ last.process.maps) (key : UInt32) :
    ∃ p loaded, last.process.stackStateLoadPair (some m) key = some (p, loaded) ∧
      (loaded.isSome = true ↔ ∃ addresses types, SavedLast steps m key addresses types) ∧
      ∀ addresses types, SavedLast steps m key addresses types →
        ∃ addressStack typeStack, loaded = some (addressStack, typeStack) ∧
          Denotes p.nodes addressStack addresses ∧ Denotes p.nodes typeStack types := by
  have hthere : Client.There last.process.maps (some m) := by
    intro m' hm'
    cases hm'
    exact hm
  obtain ⟨p, loaded, hload, haccounted⟩ := (accounted_run hrun).loadPair hthere key
  have hloaded := stackStateLoadPair_loaded hload
  refine ⟨p, loaded, hload, ?_, fun addresses types hsaved => ?_⟩
  · rw [hloaded, Option.isSome_map, entry_isSome_iff hrun]
  · obtain ⟨pair, hentry, haddress, htype⟩ := savedLast_denotes hrun hsaved
    rw [hentry] at hloaded
    -- The map has not changed, and what is in its slots is alive after the load, too.
    have honly := (stackStateLoadPair_spec hload).1
    obtain ⟨hliveAddress, hliveType⟩ := haccounted.live_entry ((entry_of_maps honly.maps m key).trans hentry)
    refine ⟨_, _, hloaded, ?_, ?_⟩
    · exact (haddress.agrees honly.kept.agrees haccounted hliveAddress).orEmpty
    · exact (htype.agrees honly.kept.agrees haccounted hliveType).orEmpty

theorem registered_iff (hrun : Run Client.Step Client.start steps last) (id : UInt32) :
    (last.process.stackStateMapRegistryLoad id = none ↔ Vacant (registryEffect id) steps) ∧
      ∀ m, last.process.stackStateMapRegistryLoad id = some m ↔ FirstSet (registryEffect id) steps m :=
  Run.lookup_first_iff (fun _ _ _ hstep => registryEffect_next id hstep) hrun rfl

theorem noDangling_run (hrun : Run Client.Step Client.start steps last)
    (hkeeps : ∀ p ∈ steps, KeepsRegistered p.1 p.2) : NoDangling last :=
  ((Run.invariant_iff noDangling_step hrun fun id m hload => by cases hload).mpr hkeeps).2

/-- After any run in which no registered map is destroyed: a map can be saved under an id
that has none; a key of a map exists when its last save was not followed by a remove;
and metadata is loaded for an id and an offset exactly when a map is registered under the
id, the first that was saved there, with that offset saved last and not removed. What is
loaded then denotes the lists that were saved. -/
theorem metadata_refines (hrun : Run Client.Step Client.start steps last)
    (hkeeps : ∀ p ∈ steps, KeepsRegistered p.1 p.2) :
    (∀ id map, (last.process.stackStateMapRegistrySave id map).2 = true ↔
      map ≠ none ∧ Vacant (registryEffect id) steps) ∧
    (∀ m ∈ last.process.maps, ∀ key, ∃ found, last.process.stackStateExists (some m) key = some found ∧
      (found = true ↔ ∃ addresses types, SavedLast steps m key addresses types)) ∧
    ∀ fidx offset, ∃ p loaded, last.process.loadMetadataStacks fidx offset = some (p, loaded) ∧
      (loaded.isSome = true ↔ ∃ m, FirstSet (registryEffect fidx) steps m ∧
        ∃ addresses types, SavedLast steps m offset addresses types) ∧
      ∀ m addresses types, FirstSet (registryEffect fidx) steps m → SavedLast steps m offset addresses types →
        ∃ addressStack typeStack, loaded = some (addressStack, typeStack) ∧
          Denotes p.nodes addressStack addresses ∧ Denotes p.nodes typeStack types := by
  refine ⟨fun id map => ?_, fun m hm key => ?_, fun fidx offset => ?_⟩
  · rw [← (registered_iff hrun id).1]
    unfold Process.stackStateMapRegistrySave Process.stackStateMapRegistryLoad
    cases map with
    | none => simp
    | some m => cases last.process.gStackStateMapRegistry id <;> simp
  · obtain ⟨pairs, hpairs⟩ := Finmap.mem_iff.mp hm
    refine ⟨(last.process.entry m key).isSome, ?_, entry_isSome_iff hrun m key⟩
    rw [Process.stackStateExists, Process.entry, hpairs]
    rfl
  · have hregistered := (registered_iff hrun fidx).2
    unfold Process.loadMetadataStacks
    cases hload : last.process.stackStateMapRegistryLoad fidx with
    | none =>
      have hnone : ∀ m, ¬ FirstSet (registryEffect fidx) steps m := by
        intro m hfirst
        rw [(hregistered m).mpr hfirst] at hload
        cases hload
      refine ⟨last.process, none, rfl, ?_, fun m _ _ hfirst => absurd hfirst (hnone m)⟩
      refine iff_of_false Bool.false_ne_true ?_
      rintro ⟨m, hfirst, -⟩
      exact hnone m hfirst
    | some m =>
      have honly : ∀ m', FirstSet (registryEffect fidx) steps m' → m' = m := by
        intro m' hfirst
        rw [(hregistered m').mpr hfirst] at hload
        exact Option.some.inj hload
      obtain ⟨p, loaded, hpair, hsome, hdenotes⟩ :=
        loadPair_refines hrun (noDangling_run hrun hkeeps fidx m hload) offset
      refine ⟨p, loaded, hpair, ?_, fun m' addresses types hfirst hsaved => ?_⟩
      · rw [hsome]
        constructor
        · intro hsaved
          exact ⟨m, (hregistered m).mp hload, hsaved⟩
        · intro h
          obtain ⟨m', hfirst, hsaved⟩ := h
          rw [← honly m' hfirst]
          exact hsaved
      · rw [honly m' hfirst] at hsaved
        exact hdenotes addresses types hsaved

end

/-- The registered client after it has pushed 7 on `NULL`. -/
def savingClient : Client :=
  ⟨{registeredClient.process with nodes := Finmap.insert 1 ⟨7, .null, 1, false⟩ ∅}, {.node 1}⟩

theorem savingClient_step : Client.Step registeredClient (.push .null 7 1) savingClient :=
  ⟨⟨Or.inr (Or.inl rfl), Finmap.notMem_empty⟩, rfl⟩

/-- A stack and `NULL`, saved under an offset of a registered map. -/
theorem metadata_refines_saved :
    ∃ steps last, Run Client.Step Client.start steps last ∧
      ∃ p addressStack typeStack,
        last.process.loadMetadataStacks 200 5 = some (p, some (addressStack, typeStack)) ∧
          Denotes p.nodes addressStack [7] ∧ Denotes p.nodes typeStack [] := by
  have hbefore := Run.cons createdClient_step (.cons registeredClient_step (.cons savingClient_step (.nil _)))
  have hallowed : savingClient.Allowed (.savePair (some 1) 5 (.node 1) .null) := by
    refine ⟨fun m hm => ?_, Or.inl (Multiset.mem_singleton_self _), Or.inr (Or.inl rfl)⟩
    cases hm
    exact Finmap.mem_insert.mpr (Or.inl rfl)
  obtain ⟨last, hnext, -⟩ := (accounted_run hbefore).next hallowed
  have hrun := Run.cons createdClient_step
    (.cons registeredClient_step (.cons savingClient_step (.cons ⟨hallowed, hnext⟩ (.nil last))))
  refine ⟨_, last, hrun, ?_⟩
  obtain ⟨-, -, hload⟩ := metadata_refines hrun (by simp [KeepsRegistered])
  obtain ⟨p, loaded, hpair, -, hdenotes⟩ := hload 200 5
  have hfirst : FirstSet (registryEffect 200)
      [(Client.start, .mapCreate 1), (⟨{Process.start with maps := Finmap.insert 1 ∅ ∅}, 0⟩,
        .registrySave 200 (some 1)), (registeredClient, .push .null 7 1),
        (savingClient, .savePair (some 1) 5 (.node 1) .null)] 1 := by
    refine ⟨[_], _, [_, _], rfl, vacant_of_keep ?_, rfl, ?_⟩
    · simp [registryEffect]
    · simp [registryEffect]
  have hseven : Denotes savingClient.process.nodes (.node 1) [7] :=
    .value (n := ⟨7, .null, 1, false⟩) (Finmap.lookup_insert _) rfl .null
  obtain ⟨addressStack, typeStack, hloaded, haddress, htype⟩ := hdenotes 1 [7] [] hfirst
    ⟨[_, _, _], savingClient, .node 1, .null, [], rfl, by simp, hseven, .null⟩
  rw [hloaded] at hpair
  exact ⟨p, addressStack, typeStack, hpair, haddress, htype⟩

end Wasmig
