import Wasmig.Base.Reachable
import Wasmig.Stack.Accounting
import Wasmig.Stack.Calls

/-! What the nodes of the stacks are there for.

The roots are the references that the client, iterators and the slots of maps hold. In
every state a client reaches, the nodes there are those that links lead to from a root
(`nodes_reached`), and a call frees those that no root left leads to, at once and no
other (`call_frees_unreached`). -/
namespace Wasmig
open Base Base.RefCount Relation

/-- The references to nodes from elsewhere. -/
def Client.roots (c : Client) : Multiset Stack := c.owned + (held c.process.iterators + slots c.process.maps)

/-- Going down from `stack` comes to the node at `a`. -/
inductive Reaches (nodes : Nodes) (a : Addr) : Stack → Prop where
  | here : Reaches nodes a (.node a)
  | down {b : Addr} {n : StackNode} (hn : nodes.lookup b = some n) (h : Reaches nodes a n.next) :
    Reaches nodes a (.node b)

/-- A root of the client leads to the node at `a`. -/
def Client.Reached (c : Client) (nodes : Nodes) (a : Addr) : Prop := ∃ stack ∈ c.roots, Reaches nodes a stack

theorem linksTo_iff {nodes : Nodes} {b t : Addr} :
    LinksTo nodeCounting nodes b t ↔ ∃ n, nodes.lookup b = some n ∧ n.next = .node t := by
  refine exists_congr fun n => and_congr_right fun _ => ?_
  show n.next.target = some t ↔ _
  cases n.next <;> simp [Stack.target]

theorem reaches_iff {nodes : Nodes} {a b : Addr} :
    Reaches nodes a (.node b) ↔ ReflTransGen (LinksTo nodeCounting nodes) b a := by
  constructor
  · intro h
    generalize hs : Stack.node b = s at h
    induction h generalizing b with
    | here =>
      cases hs
      exact .refl
    | @down b' n hn h ih =>
      cases hs
      cases hnext : n.next with
      | null =>
        rw [hnext] at h
        cases h
      | empty =>
        rw [hnext] at h
        cases h
      | node t => exact .head (linksTo_iff.mpr ⟨n, hn, hnext⟩) (ih hnext.symm)
  · intro h
    induction h using ReflTransGen.head_induction_on with
    | refl => exact .here
    | head hlink _ ih =>
      obtain ⟨n, hn, hnext⟩ := linksTo_iff.mp hlink
      exact .down hn (hnext ▸ ih)

theorem mem_targets {refs : Multiset Stack} {a : Addr} : a ∈ targets refs ↔ .node a ∈ refs := by
  rw [← Multiset.count_pos, count_targets, Multiset.count_pos]

/-- Roots lead to the nodes that the library says their targets reach. -/
theorem Client.reached_iff {c : Client} {nodes : Nodes} {a : Addr} :
    c.Reached nodes a ↔ RefCount.Reached nodeCounting nodes (targets c.roots) a := by
  constructor
  · intro h
    obtain ⟨stack, hroot, hreaches⟩ := h
    cases stack with
    | null => cases hreaches
    | empty => cases hreaches
    | node b => exact ⟨b, mem_targets.mpr hroot, reaches_iff.mp hreaches⟩
  · intro h
    obtain ⟨b, hb, hpath⟩ := h
    exact ⟨.node b, mem_targets.mp hb, reaches_iff.mpr hpath⟩

theorem Client.Reached.mono {c c' : Client} {nodes : Nodes} {a : Addr} (h : c.Reached nodes a)
    (hroots : ∀ stack ∈ c.roots, stack ∈ c'.roots) : c'.Reached nodes a := by
  obtain ⟨stack, hroot, hreaches⟩ := h
  exact ⟨stack, hroots stack hroot, hreaches⟩

theorem Accounted.mem_iff_reached {c : Client} (h : Accounted c.process c.owned) {a : Addr} :
    a ∈ c.process.nodes ↔ c.Reached c.process.nodes a := by
  rw [Client.reached_iff]
  exact (Sound.accounted h).mem_iff_reached (Sound.acyclic h)

/-- In every state a client reaches, the nodes there are those that a root leads to. -/
theorem nodes_reached {steps : List (Client × Call)} {last : Client}
    (hrun : Run Client.Step Client.start steps last) (a : Addr) :
    a ∈ last.process.nodes ↔ last.Reached last.process.nodes a := (accounted_run hrun).mem_iff_reached

/-- Two stacks that share a node. -/
theorem nodes_reached_sharing :
    sharingClient.Reached sharingClient.process.nodes 1 ∧ ¬ sharingClient.Reached sharingClient.process.nodes 3 := by
  refine ⟨(nodes_reached sharingClient_run 1).mp (Finmap.mem_insert.mpr (Or.inl rfl)), ?_⟩
  rw [← nodes_reached sharingClient_run 3]
  simp [sharingClient, Finmap.mem_insert, Finmap.notMem_empty]

/-! ### Calls -/

theorem stackRetain_mem {nodes nodes' : Nodes} {stack : Stack} (h : stackRetain nodes stack = some nodes')
    {a : Addr} (ha : a ∈ nodes) : a ∈ nodes' := by
  cases stack with
  | null =>
    cases h
    exact ha
  | empty =>
    cases h
    exact ha
  | node b =>
    obtain ⟨n, -, rfl⟩ := Option.map_eq_some_iff.mp h
    exact Finmap.mem_insert.mpr (Or.inr ha)

/-- A call that makes a node. -/
def Call.Allocates : Call → Prop
  | .create _ => True
  | .push _ _ _ => True
  | _ => False

/-- A call that makes no node keeps of those there are what it does not free. -/
theorem Client.next_kept {c c' : Client} {call : Call} (h : c.next call = some c') (hcall : ¬ call.Allocates) :
    Kept nodeCounting c.process.nodes c'.process.nodes := by
  cases call with
  | create a => exact absurd trivial hcall
  | push stack value a => exact absurd trivial hcall
  | empty =>
    cases h
    exact Kept.refl _
  | pop stack =>
    obtain ⟨isEmpty, -, h⟩ := Option.bind_eq_some_iff.mp h
    obtain ⟨r, hpop, rfl⟩ := Option.map_eq_some_iff.mp h
    exact stackPop_kept hpop
  | destroy stack =>
    obtain ⟨nodes, hrelease, rfl⟩ := Option.map_eq_some_iff.mp h
    exact stackRelease_kept hrelease
  | iteratorCreate stack it =>
    obtain ⟨p, hp, rfl⟩ := Option.map_eq_some_iff.mp h
    exact (stackIteratorCreate_only hp).kept
  | iteratorNext it =>
    obtain ⟨r, hr, rfl⟩ := Option.map_eq_some_iff.mp h
    exact (stackIteratorNext_spec hr).1.kept
  | iteratorDestroy it =>
    obtain ⟨p, hp, rfl⟩ := Option.map_eq_some_iff.mp h
    exact (stackIteratorDestroy_spec hp).1.kept
  | loadPair map key =>
    obtain ⟨r, hr, hc⟩ := Option.map_eq_some_iff.mp h
    have hkept := (stackStateLoadPair_spec hr).1.kept
    rw [← hc]
    split
    · exact hkept
    · exact hkept
  | mapCreate m =>
    cases h
    exact Kept.refl _
  | savePair map key addressStack typeStack =>
    obtain ⟨r, hr, rfl⟩ := Option.map_eq_some_iff.mp h
    cases map with
    | none =>
      cases hr
      exact Kept.refl _
    | some m =>
      obtain ⟨pairs, -, -, honly, -⟩ := stackStateSavePair_spec hr
      exact honly.kept
  | remove map key =>
    obtain ⟨r, hr, rfl⟩ := Option.map_eq_some_iff.mp h
    cases map with
    | none =>
      cases hr
      exact Kept.refl _
    | some m =>
      obtain ⟨pairs, -, -, honly, -⟩ := stackStateRemove_spec hr
      exact honly.kept
  | mapDestroy map order =>
    obtain ⟨p, hp, rfl⟩ := Option.map_eq_some_iff.mp h
    cases map with
    | none =>
      cases hp
      exact Kept.refl _
    | some m => exact (stackStateMapDestroy_spec hp).1.kept
  | registrySave id map =>
    cases h
    rw [(stackStateMapRegistrySave_rest c.process id map).1]
    exact Kept.refl _
  | registryClear =>
    cases h
    exact Kept.refl _

/-- A call gives out a new node on top of the others and takes no root away, or it makes
none. -/
theorem Client.next_nodes {c c' : Client} {call : Call} (h : c.next call = some c') :
    Kept nodeCounting c.process.nodes c'.process.nodes ∨
      ((∀ a ∈ c.process.nodes, a ∈ c'.process.nodes) ∧ ∀ stack ∈ c.roots, stack ∈ c'.roots) := by
  by_cases hcall : call.Allocates
  · refine Or.inr ?_
    cases call with
    | create a =>
      cases h
      refine ⟨fun b hb => Finmap.mem_insert.mpr (Or.inr hb), fun stack hroot => ?_⟩
      show stack ∈ .node a ::ₘ c.owned + _
      rw [Multiset.cons_add]
      exact Multiset.mem_cons_of_mem hroot
    | push stack value a =>
      obtain ⟨r, hpush, rfl⟩ := Option.map_eq_some_iff.mp h
      obtain ⟨nodes, hretain, rfl⟩ := Option.map_eq_some_iff.mp hpush
      refine ⟨fun b hb => stackRetain_mem hretain (Finmap.mem_insert.mpr (Or.inr hb)), fun s hroot => ?_⟩
      show s ∈ .node a ::ₘ c.owned + _
      rw [Multiset.cons_add]
      exact Multiset.mem_cons_of_mem hroot
    | _ => cases hcall
  · exact Or.inl (Client.next_kept h hcall)

/-- A call frees the nodes that no root left after it leads to, and no other: not one
that something else still needs, and none is left for later. -/
theorem call_frees_unreached {steps : List (Client × Call)} {c c' : Client} {call : Call}
    (hrun : Run Client.Step Client.start steps c) (hstep : Client.Step c call c') {a : Addr}
    (ha : a ∈ c.process.nodes) : a ∉ c'.process.nodes ↔ ¬ c'.Reached c.process.nodes a := by
  have hbefore := accounted_run hrun
  have hafter := accounted_step c call c' hstep hbefore
  apply not_congr
  rcases Client.next_nodes hstep.2 with hkept | hnew
  · rw [Client.reached_iff]
    exact hkept.mem_iff_reached (Sound.accounted hafter) (Sound.acyclic hbefore)
  · obtain ⟨hnodes, hroots⟩ := hnew
    exact iff_of_true (hnodes a ha) ((hbefore.mem_iff_reached.mp ha).mono hroots)

/-- Of two stacks that share a node the upper one is destroyed: its own node is freed, the
shared one is not. -/
theorem call_frees_unreached_shared :
    ∃ c', Client.Step sharingClient (.destroy (.node 2)) c' ∧ 2 ∉ c'.process.nodes ∧ 1 ∈ c'.process.nodes := by
  have howned : sharingClient.Allowed (.destroy (.node 2)) :=
    Or.inl (Multiset.mem_cons_self (.node 2) ({.node 1} : Multiset Stack))
  obtain ⟨c', hnext, -⟩ := (accounted_run sharingClient_run).next howned
  have hstep : Client.Step sharingClient (.destroy (.node 2)) c' := ⟨howned, hnext⟩
  have hroots : c'.roots = {.node 1} := by
    obtain ⟨nodes, rfl⟩ := Client.next_destroy hnext
    rfl
  have hfrees : ∀ a ∈ sharingClient.process.nodes,
      a ∉ c'.process.nodes ↔ ¬ Reaches sharingClient.process.nodes a (.node 1) := by
    intro a ha
    rw [call_frees_unreached sharingClient_run hstep ha, Client.Reached, hroots]
    simp
  have htwo : 2 ∈ sharingClient.process.nodes := Finmap.mem_insert.mpr (Or.inr (Finmap.mem_insert.mpr (Or.inl rfl)))
  have hone : 1 ∈ sharingClient.process.nodes := Finmap.mem_insert.mpr (Or.inl rfl)
  refine ⟨c', hstep, (hfrees 2 htwo).mpr ?_, not_not.mp ((not_congr (hfrees 1 hone)).mpr (not_not.mpr .here))⟩
  intro hreaches
  cases hreaches with
  | @down b n hn hnext =>
    have hnode : n = ⟨7, .null, 2, false⟩ := Option.some.inj (hn.symm.trans (Finmap.lookup_insert _))
    rw [hnode] at hnext
    cases hnext

end Wasmig
