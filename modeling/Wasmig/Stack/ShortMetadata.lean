import Wasmig.Stack.Metadata
import Wasmig.Stack.Shortage

/-! What stacks and maps hold when memory runs out.

An attempt either gets what it needs and comes to a call (`Attempt.granted`), or changes
counts only. So stacks stay lists while anybody holds them (`shortage_persistent`), and
metadata is what was last saved by a call that returned `true` (`shortage_metadata`). -/
namespace Wasmig
open Base Base.RefCount

/-! ### What attempts come to -/

/-- The call that an attempt comes to, if it gets what it needs: a pair under a key that is
there needs no memory. -/
def Attempt.granted (c : Client) : Attempt → Option Call
  | .served call => some call
  | .short (.savePair map key addressStack typeStack) =>
    if c.process.stackStateExists map key = some true then some (.savePair map key addressStack typeStack) else none
  | .short _ => none

section
variable {c c' : Client} {attempt : Attempt}

theorem attempt_granted {call : Call} (h : attempt.granted c = some call) (hstep : Client.Tries c attempt c') :
    Client.Step c call c' := by
  obtain ⟨hmay, hattempt⟩ := hstep
  cases attempt with
  | served call' =>
    cases h
    exact ⟨hmay, hattempt⟩
  | short shortage =>
    cases shortage with
    | savePair map key addressStack typeStack =>
      obtain ⟨hexists, hcall⟩ := Option.ite_none_right_eq_some.mp h
      cases hcall
      cases map with
      | none => cases hexists
      | some m =>
        obtain ⟨pairs, hpairs, hkey⟩ := Option.map_eq_some_iff.mp hexists
        rw [Client.attempt, savePairOrFail_of_mem hpairs (Finmap.lookup_isSome.mp hkey)] at hattempt
        exact ⟨hmay, hattempt⟩
    | _ => cases h

/-- An attempt that does not get what it needs changes counts only. -/
theorem attempt_denied (h : attempt.granted c = none) (hstep : Client.Tries c attempt c') :
    OnlyRefs c.process c'.process := by
  obtain ⟨-, hattempt⟩ := hstep
  cases attempt with
  | served call => cases h
  | short shortage =>
    cases shortage with
    | savePair map key addressStack typeStack =>
      obtain ⟨r, hr, rfl⟩ := Option.map_eq_some_iff.mp hattempt
      cases map with
      | none =>
        cases hr
        exact OnlyRefs.refl _
      | some m =>
        obtain ⟨pairs, hpairs, -⟩ := Option.bind_eq_some_iff.mp hr
        have hkey : key ∉ pairs := by
          intro hmem
          have hexists : c.process.stackStateExists (some m) key = some true := by
            rw [Process.stackStateExists, hpairs, Option.map_some, Finmap.lookup_isSome.mpr hmem]
          rw [Attempt.granted, if_pos hexists] at h
          cases h
        rw [savePairOrFail_of_notMem hpairs hkey] at hr
        obtain ⟨nodes₁, hretain₁, hr⟩ := Option.bind_eq_some_iff.mp hr
        obtain ⟨nodes₂, hretain₂, rfl⟩ := Option.map_eq_some_iff.mp hr
        exact ⟨(stackRetain_kept hretain₁).trans (stackRetain_kept hretain₂), rfl, rfl, rfl⟩
    | _ =>
      cases hattempt
      exact OnlyRefs.refl _

theorem attempt_agrees (hstep : Client.Tries c attempt c') :
    Agrees nodeCounting c.process.nodes c'.process.nodes := by
  cases hgranted : attempt.granted c with
  | none => exact (attempt_denied hgranted hstep).kept.agrees
  | some call =>
    obtain ⟨hallowed, hnext⟩ := attempt_granted hgranted hstep
    exact (afterCall_next hallowed hnext).agrees

end

/-! ### What stacks denote -/

/-- Somebody holds the stack: the client, an iterator or a slot of a map. -/
def Client.Keeps (c : Client) (stack : Stack) : Prop := stack ∈ c.roots ∨ stack = .null ∨ stack = .empty

section
variable {steps before after : List (Client × Attempt)} {c last : Client} {stack : Stack} {refs : Multiset Addr}

theorem Owing.live (h : Owing c refs) (hkeeps : c.Keeps stack) : Live c.process.nodes stack := by
  rcases hkeeps with hroot | rfl | rfl
  · have hsound : Sound c.process.nodes _ := h
    apply hsound.live
    rcases Multiset.mem_add.mp hroot with howned | hrest
    · exact Multiset.mem_add.mpr (Or.inl (Multiset.mem_add.mpr (Or.inl howned)))
    · exact Multiset.mem_add.mpr (Or.inr hrest)
  · nofun
  · nofun

/-- While somebody holds a stack, it denotes what it did. -/
theorem denotes_while {vs : List UInt64} (hafter : Run Client.Tries c after last) (h : Owing c refs)
    (hvs : Denotes c.process.nodes stack vs) (hkeeps : Run.Throughout (fun s => s.Keeps stack) after last) :
    Run.Throughout (fun s => ∃ refs, Owing s refs ∧ s.Keeps stack ∧ Denotes s.process.nodes stack vs) after last := by
  have hfirst := hkeeps.head hafter
  refine Run.keeps_while ?_ hafter ⟨refs, h, hfirst, hvs⟩ hkeeps
  rintro s attempt s' hstep hkeeps ⟨refs, h, -, hvs⟩
  obtain ⟨s'', hattempt, h'⟩ := h.attempt hstep.1
  cases hstep.2.symm.trans hattempt
  exact ⟨_, h', hkeeps, hvs.agrees (attempt_agrees hstep) h' (h'.live hkeeps)⟩

/-- While somebody holds a stack it denotes one and the same list, and the operations on the
stack are those on the list, whatever calls are made meanwhile and whichever of them find no
memory. -/
theorem shortage_persistent (hbefore : Run Client.Tries Client.start before c)
    (hafter : Run Client.Tries c after last) (hkeeps : Run.Throughout (fun s => s.Keeps stack) after last) :
    ∃ vs, Run.Throughout
      (fun s => (∀ ws, Denotes s.process.nodes stack ws ↔ ws = vs) ∧ Behaves s.process.nodes stack vs)
      after last := by
  have howing := owing_of_run hbefore
  have hfirst := hkeeps.head hafter
  obtain ⟨vs, hvs⟩ := Denotes.exists_of_live howing (howing.live hfirst)
  refine ⟨vs, (denotes_while hafter howing hvs hkeeps).imp ?_⟩
  rintro s ⟨refs, h, hkeeps, hvs⟩
  constructor
  · intro ws
    constructor
    · intro hws
      exact hws.unique hvs
    · rintro rfl
      exact hvs
  · exact hvs.behaves h (h.live hkeeps)

end

/-- A pushed stack, while saving it finds no room. -/
theorem shortage_persistent_saving :
    ∃ last, Client.Tries savingClient (.short (.savePair (some 1) 5 (.node 1) .null)) last ∧
      ∃ vs, Behaves last.process.nodes (.node 1) vs := by
  obtain ⟨last, hlast, -⟩ := (owing_of_run savingSteps_run).attempt (savingClient_mayTry 5)
  have hafter : Run Client.Tries savingClient [_] last := .cons ⟨savingClient_mayTry 5, hlast⟩ (.nil _)
  have howned : last.owned = {.node 1} := short_savePair_owned hlast
  have hkeeps : ∀ c : Client, c.owned = {.node 1} → c.Keeps (.node 1) := fun c hc =>
    Or.inl (Multiset.mem_add.mpr (Or.inl (hc ▸ Multiset.mem_singleton_self _)))
  obtain ⟨vs, hvs⟩ := shortage_persistent savingSteps_run hafter
    ⟨List.forall_mem_singleton.mpr (hkeeps _ rfl), hkeeps _ howned⟩
  exact ⟨last, ⟨savingClient_mayTry 5, hlast⟩, vs, hvs.2.2⟩

/-! ### What maps hold -/

/-- What an attempt does to a place: what the call does that it comes to. -/
def tried {ν : Type} (effect : Client × Call → Effect ν) (step : Client × Attempt) : Effect ν :=
  (step.2.granted step.1).elim .keep fun call => effect (step.1, call)

/-- The last attempt that concerned a key of the map at `m` got what it needed to save there a
stack that denoted `addresses` and one that denoted `types`. -/
def SavedLastOf (steps : List (Client × Attempt)) (m : Addr) (key : UInt32) (addresses types : List UInt64) : Prop :=
  ∃ before c attempt addressStack typeStack after, steps = before ++ (c, attempt) :: after ∧
    attempt.granted c = some (.savePair (some m) key addressStack typeStack) ∧
    (∀ step ∈ after, tried (pairEffect m key) step = .keep) ∧
    Denotes c.process.nodes addressStack addresses ∧ Denotes c.process.nodes typeStack types

section
variable {steps : List (Client × Attempt)} {c c' last : Client} {attempt : Attempt} {m : Addr} {key : UInt32}

theorem triedPair_next (hstep : Client.Tries c attempt c') :
    c'.process.entry m key = (tried (pairEffect m key) (c, attempt)).apply (c.process.entry m key) := by
  unfold tried
  dsimp only
  cases hgranted : attempt.granted c with
  | none => exact entry_of_maps (attempt_denied hgranted hstep).maps m key
  | some call => exact pairEffect_next m key (attempt_granted hgranted hstep)

theorem triedRegistry_next (id : UInt32) (hstep : Client.Tries c attempt c') :
    c'.process.stackStateMapRegistryLoad id =
      (tried (registryEffect id) (c, attempt)).emplace (c.process.stackStateMapRegistryLoad id) := by
  unfold tried
  dsimp only
  cases hgranted : attempt.granted c with
  | none => exact congrFun (attempt_denied hgranted hstep).loaded id
  | some call => exact registryEffect_next id (attempt_granted hgranted hstep)

/-- The stacks in a slot are kept. -/
theorem keeps_entry {pair : StackPair} (h : c.process.entry m key = some pair) :
    c.Keeps pair.addressStack ∧ c.Keeps pair.typeStack := by
  obtain ⟨pairs, hpairs, hkey⟩ := Option.bind_eq_some_iff.mp h
  obtain ⟨haddress, htype⟩ := mem_slots hpairs hkey
  constructor
  · exact Or.inl (Multiset.mem_add.mpr (Or.inr (Multiset.mem_add.mpr (Or.inr haddress))))
  · exact Or.inl (Multiset.mem_add.mpr (Or.inr (Multiset.mem_add.mpr (Or.inr htype))))

theorem savedLastOf_denotes (hrun : Run Client.Tries Client.start steps last) {addresses types : List UInt64}
    (hsaved : SavedLastOf steps m key addresses types) :
    ∃ pair, last.process.entry m key = some pair ∧ Denotes last.process.nodes pair.addressStack addresses ∧
      Denotes last.process.nodes pair.typeStack types := by
  obtain ⟨before, c, attempt, addressStack, typeStack, after, rfl, hgranted, hafter, haddress, htype⟩ := hsaved
  obtain ⟨c', hbefore, hstep, hrest⟩ := hrun.split
  have hentry : c'.process.entry m key = some ⟨addressStack, typeStack⟩ := by
    rw [pairEffect_next m key (attempt_granted hgranted hstep), pairEffect_savePair]
    rfl
  have hheld : Run.Throughout (fun s => s.process.entry m key = some ⟨addressStack, typeStack⟩) after last := by
    have hkeeps : ∀ s attempt s', Client.Tries s attempt s' →
        s.process.entry m key = some ⟨addressStack, typeStack⟩ → tried (pairEffect m key) (s, attempt) = .keep →
        s'.process.entry m key = some ⟨addressStack, typeStack⟩ := by
      intro s attempt s' hstep hs hkeep
      rw [triedPair_next hstep, hkeep]
      exact hs
    exact Run.invariant hkeeps hrest hentry hafter
  have howing := owing_of_run (hbefore.append (.cons hstep (.nil _)))
  have hagrees := attempt_agrees hstep
  obtain ⟨hkeepsAddress, hkeepsType⟩ := keeps_entry hentry
  obtain ⟨-, -, -, -, haddress'⟩ := denotes_while hrest howing
    (haddress.agrees hagrees howing (howing.live hkeepsAddress)) (hheld.imp fun s hs => (keeps_entry hs).1)
  obtain ⟨-, -, -, -, htype'⟩ := denotes_while hrest howing
    (htype.agrees hagrees howing (howing.live hkeepsType)) (hheld.imp fun s hs => (keeps_entry hs).2)
  exact ⟨_, hheld.2, haddress', htype'⟩

theorem exists_savedLastOf (hrun : Run Client.Tries Client.start steps last) {pair : StackPair}
    (hentry : last.process.entry m key = some pair) :
    ∃ addresses types, SavedLastOf steps m key addresses types := by
  have hlast := (Run.lookup_iff (fun _ _ _ hstep => triedPair_next hstep) hrun pair).mp hentry
  obtain ⟨before, ⟨c, attempt⟩, after, rfl, hset, hafter⟩ | ⟨hstart, -⟩ := hlast
  · obtain ⟨call, hgranted, hset⟩ :
        ∃ call, attempt.granted c = some call ∧ pairEffect m key (c, call) = .set pair := by
      unfold tried at hset
      dsimp only at hset
      cases hgranted : attempt.granted c with
      | none =>
        rw [hgranted] at hset
        cases hset
      | some call =>
        rw [hgranted] at hset
        exact ⟨call, rfl, hset⟩
    cases pairEffect_set hset
    obtain ⟨c', hbefore, hstep, -⟩ := hrun.split
    obtain ⟨⟨-, haddress, htype⟩, -⟩ := attempt_granted hgranted hstep
    have howing := owing_of_run hbefore
    obtain ⟨addresses, haddress⟩ :=
      Denotes.exists_of_live howing (Accounted.live howing (withLost_holds haddress _))
    obtain ⟨types, htype⟩ := Denotes.exists_of_live howing (Accounted.live howing (withLost_holds htype _))
    exact ⟨addresses, types, before, c, attempt, _, _, after, rfl, hgranted, hafter, haddress, htype⟩
  · cases hstart

/-- After any run in which any call may find no memory, metadata is what the last save that
returned `true` put there, and still denotes what it did then; saves that returned `false`
have left it as it was. -/
theorem shortage_metadata (hrun : Run Client.Tries Client.start steps last) {fidx : UInt32}
    (hfirst : FirstSet (tried (registryEffect fidx)) steps m) (hm : m ∈ last.process.maps) (offset : UInt32) :
    ∃ p loaded, last.process.loadMetadataStacks fidx offset = some (p, loaded) ∧
      (loaded.isSome = true ↔ ∃ addresses types, SavedLastOf steps m offset addresses types) ∧
      ∀ addresses types, SavedLastOf steps m offset addresses types →
        ∃ addressStack typeStack, loaded = some (addressStack, typeStack) ∧
          Denotes p.nodes addressStack addresses ∧ Denotes p.nodes typeStack types := by
  have hload := ((Run.lookup_first_iff (fun _ _ _ hstep => triedRegistry_next fidx hstep) hrun rfl).2 m).mpr hfirst
  have hthere : Client.There last.process.maps (some m) := by
    intro m' hm'
    cases hm'
    exact hm
  have howing : Accounted last.process _ := owing_of_run hrun
  obtain ⟨p, loaded, hpair, haccounted⟩ := howing.loadPair hthere offset
  have hloaded := stackStateLoadPair_loaded hpair
  have honly := (stackStateLoadPair_spec hpair).1
  refine ⟨p, loaded, ?_, ?_, fun addresses types hsaved => ?_⟩
  · rw [Process.loadMetadataStacks, hload, hpair]
  · rw [hloaded, Option.isSome_map, Option.isSome_iff_exists]
    constructor
    · intro h
      obtain ⟨pair, hentry⟩ := h
      exact exists_savedLastOf hrun hentry
    · intro h
      obtain ⟨addresses, types, hsaved⟩ := h
      obtain ⟨pair, hentry, -⟩ := savedLastOf_denotes hrun hsaved
      exact ⟨pair, hentry⟩
  · obtain ⟨pair, hentry, haddress, htype⟩ := savedLastOf_denotes hrun hsaved
    rw [hentry] at hloaded
    obtain ⟨hliveAddress, hliveType⟩ := haccounted.live_entry ((entry_of_maps honly.maps m offset).trans hentry)
    refine ⟨_, _, hloaded, ?_, ?_⟩
    · exact (haddress.agrees honly.kept.agrees haccounted hliveAddress).orEmpty
    · exact (htype.agrees honly.kept.agrees haccounted hliveType).orEmpty

end

/-- A pair that is saved, and then one under another key that finds no room. -/
theorem shortage_metadata_saved :
    ∃ steps last, Run Client.Tries Client.start steps last ∧
      ∃ p addressStack typeStack, last.process.loadMetadataStacks 200 5 = some (p, some (addressStack, typeStack)) ∧
        Denotes p.nodes addressStack [7] ∧ Denotes p.nodes typeStack [] := by
  have hsave : savingClient.MayTry (.served (.savePair (some 1) 5 (.node 1) .null)) := savingClient_mayTry 5
  obtain ⟨c, hc, -⟩ := (owing_of_run savingSteps_run).attempt hsave
  have hrun := savingSteps_run.append (.cons ⟨hsave, hc⟩ (.nil _))
  have hpairs : c.process.maps.lookup 1 = some (Finmap.insert 5 ⟨.node 1, .null⟩ ∅) := by
    rw [Client.attempt, Client.next] at hc
    obtain ⟨r, hr, rfl⟩ := Option.map_eq_some_iff.mp hc
    obtain ⟨pairs, hpairs, -, honly, -⟩ := stackStateSavePair_spec hr
    cases (show savingClient.process.maps.lookup 1 = some ∅ from Finmap.lookup_insert _).symm.trans hpairs
    rw [honly.maps]
    exact Finmap.lookup_insert _
  have hthere : Client.There c.process.maps (some 1) := by
    intro m hm
    cases hm
    exact Finmap.mem_of_lookup_eq_some hpairs
  have hshort : c.MayTry (.short (.savePair (some 1) 6 .null .null)) :=
    ⟨hthere, Or.inr (Or.inl rfl), Or.inr (Or.inl rfl)⟩
  obtain ⟨last, hlast, -⟩ := (owing_of_run hrun).attempt hshort
  have hrun' := hrun.append (.cons ⟨hshort, hlast⟩ (.nil _))
  have hexists : c.process.stackStateExists (some 1) 6 = some false := by
    rw [Process.stackStateExists, hpairs, Option.map_some, Finmap.lookup_insert_of_ne _ (by decide)]
    rfl
  have hgranted : (Attempt.short (.savePair (some 1) 6 .null .null)).granted c = none := by
    rw [Attempt.granted, hexists]
    rfl
  have hm : 1 ∈ last.process.maps := by
    rw [(attempt_denied hgranted ⟨hshort, hlast⟩).maps]
    exact hthere 1 rfl
  have hseven : Denotes savingClient.process.nodes (.node 1) [7] :=
    .value (n := ⟨7, .null, 1, false⟩) (Finmap.lookup_insert _) rfl .null
  obtain ⟨p, loaded, hload, -, hdenotes⟩ := shortage_metadata hrun'
    (show FirstSet (tried (registryEffect 200)) _ 1 from
      ⟨[_], _, [_, _, _], rfl, vacant_of_keep (by simp [tried, Attempt.granted, registryEffect]), rfl,
        by simp [tried, Attempt.granted, hexists, registryEffect]⟩) hm 5
  obtain ⟨addressStack, typeStack, rfl, haddress, htype⟩ := hdenotes [7] []
    ⟨savingSteps, savingClient, _, .node 1, .null, [_], rfl, rfl, by simp [tried, hgranted], hseven, .null⟩
  exact ⟨_, last, hrun', p, addressStack, typeStack, hload, haddress, htype⟩

end Wasmig
