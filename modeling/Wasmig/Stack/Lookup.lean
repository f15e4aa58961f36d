import Wasmig.Stack.Iteration
import Wasmig.Stack.Metadata
import Wasmig.Stack.Reachable

/-! Looking metadata up.

Who is about to take a checkpoint loads the stacks of a position, counts the entries of the
type stack and destroys both handles again. What is counted is what was saved, and nothing is
left of the calls, not in a count either (`metadata_lookup`). For nodes this is so whenever
calls have cancelled out (`nodes_restored`). -/
namespace Wasmig
open Base Base.RefCount

/-! ### Calls that cancel out -/

/-- Calls that make no node leave every node with its count as it was, if they leave the
references there were, whoever holds them now. -/
theorem nodes_restored {before steps : List (Client × Call)} {c last : Client}
    (hbefore : Run Client.Step Client.start before c) (hrun : Run Client.Step c steps last)
    (hcalls : ∀ s ∈ steps, ¬ s.2.Allocates) (hroots : last.roots = c.roots) :
    last.process.nodes = c.process.nodes := by
  have hstep : ∀ s call s', Client.Step s call s' → Kept nodeCounting c.process.nodes s.process.nodes →
      ¬ call.Allocates → Kept nodeCounting c.process.nodes s'.process.nodes := by
    intro s call s' hstep hkept hcall
    exact hkept.trans (Client.next_kept hstep.2 hcall)
  have hkept := (Run.invariant hstep hrun (Kept.refl _) hcalls).2
  have hfirst := accounted_run hbefore
  have hlast : Sound last.process.nodes c.roots := hroots ▸ accounted_run (hbefore.append hrun)
  exact hkept.eq_of_accounted (Sound.accounted hfirst) (Sound.accounted hlast) (Sound.acyclic hfirst)

/-- The client that has pushed 7, with an iterator over its stack. -/
def scanningClient : Client :=
  ⟨{ pushedClient.process with
      nodes := Finmap.insert 1 ⟨7, .null, 2, false⟩ pushedClient.process.nodes
      iterators := Finmap.insert 5 (.node 1) ∅ }, {.node 1}⟩

theorem scanningClient_step : Client.Step pushedClient (.iteratorCreate (.node 1) 5) scanningClient :=
  ⟨⟨Or.inl (Multiset.mem_singleton_self _), Finmap.notMem_empty⟩, rfl⟩

/-- An iterator that is made and destroyed. -/
theorem nodes_restored_iterator :
    ∃ steps last, Run Client.Step pushedClient steps last ∧
      steps.map Prod.snd = [.iteratorCreate (.node 1) 5, .iteratorDestroy (some 5)] ∧
      last.process.nodes = pushedClient.process.nodes := by
  have hbefore : Run Client.Step Client.start _ pushedClient := .cons pushedClient_step (.nil _)
  have hthere : scanningClient.Allowed (.iteratorDestroy (some 5)) := by
    intro a ha
    cases ha
    exact Finmap.mem_insert.mpr (Or.inl rfl)
  have hdestroy : Client.Step scanningClient (.iteratorDestroy (some 5)) _ := ⟨hthere, rfl⟩
  have hrun := Run.cons scanningClient_step (.cons hdestroy (.nil _))
  exact ⟨_, _, hrun, rfl, nodes_restored hbefore hrun (by simp [Call.Allocates]) rfl⟩

/-! ### Counting -/

theorem OnlyRefs.trans {p p' p'' : Process} (h : OnlyRefs p p') (h' : OnlyRefs p' p'') : OnlyRefs p p'' :=
  ⟨h.kept.trans h'.kept, h'.maps.trans h.maps, h'.loaded.trans h.loaded, h'.cleaned.trans h.cleaned⟩

/-- A loop whose body leaves the process alone moves its own iterator only. -/
theorem iterateLoop_only {σ : Type} {f : σ → UInt64 → σ} {it : Addr} {fuel : Nat} {p p' : Process}
    {user user' : σ}
    (h : Process.iterateLoop (fun value p user => some (p, f user value)) (some it) fuel p user =
      some (p', user')) :
    OnlyRefs p p' ∧ ∀ other, other ≠ it → p'.iterators.lookup other = p.iterators.lookup other := by
  induction fuel generalizing p user with
  | zero => cases h
  | succ fuel ih =>
    obtain ⟨hasNext, -, h⟩ := Option.bind_eq_some_iff.mp h
    split at h
    · obtain ⟨r, hnext, hrest⟩ := Option.bind_eq_some_iff.mp h
      obtain ⟨honly, hothers⟩ := stackIteratorNext_spec hnext
      obtain ⟨honly', hothers'⟩ := ih hrest
      refine ⟨honly.trans honly', fun other hne => ?_⟩
      rw [hothers' other hne]
      exact hothers other fun heq => hne (Option.some.inj heq).symm
    · cases h
      exact ⟨.refl _, fun _ _ => rfl⟩

/-- Counting takes its iterator away again, and leaves the others alone. -/
theorem countStackEntries_only {p p' : Process} {stack : Stack} {it : Addr} {counts : Option (UInt32 × UInt32)}
    (hit : it ∉ p.iterators) (h : p.countStackEntries stack (some it) = some (p', counts)) :
    OnlyRefs p p' ∧ p'.iterators = p.iterators := by
  obtain ⟨created, hcreate, h⟩ := Option.bind_eq_some_iff.mp h
  obtain ⟨⟨looped, user⟩, hloop, h⟩ := Option.bind_eq_some_iff.mp h
  obtain ⟨p₁, hdestroy, h⟩ := Option.map_eq_some_iff.mp h
  cases h
  obtain ⟨honly, hothers⟩ := iterateLoop_only hloop
  refine ⟨((stackIteratorCreate_only hcreate).trans honly).trans (stackIteratorDestroy_spec hdestroy).1, ?_⟩
  obtain ⟨nodes, -, rfl⟩ := Option.map_eq_some_iff.mp hcreate
  obtain ⟨current, -, hdestroy⟩ := Option.bind_eq_some_iff.mp hdestroy
  obtain ⟨nodes', -, rfl⟩ := Option.map_eq_some_iff.mp hdestroy
  apply Finmap.ext_lookup
  intro other
  by_cases hother : other = it
  · rw [hother, Finmap.lookup_eq_none.mpr hit]
    exact Finmap.lookup_erase _ _
  · refine (Finmap.lookup_erase_ne hother).trans ((hothers other hother).trans ?_)
    exact Finmap.lookup_insert_of_ne _ hother

/-- A stack that may be passed is counted to its end. -/
theorem countStackEntries_spec {before : List (Client × Call)} {c : Client}
    (hbefore : Run Client.Step Client.start before c) {stack : Stack} (hheld : c.Holds stack) {vs : List UInt64}
    (hvs : Denotes c.process.nodes stack vs) {it : Addr} (hit : it ∉ c.process.iterators) :
    ∃ p', c.process.countStackEntries stack (some it) =
        some (p', some (UInt32.ofNat vs.length, UInt32.ofNat (vs.map UInt64.toNat).sum)) ∧
      Accounted p' c.owned := by
  have haccounted := accounted_run hbefore
  have hallowed : c.Allowed (.iteratorCreate stack it) := ⟨hheld, hit⟩
  obtain ⟨created, hnext, -⟩ := haccounted.next hallowed
  have hcreate : Client.Step c (.iteratorCreate stack it) created := ⟨hallowed, hnext⟩
  have hcreated := Iterating.create haccounted hcreate hvs
  have hrun := hbefore.append (.cons hcreate (.nil _))
  obtain ⟨p, hp, rfl⟩ := Option.map_eq_some_iff.mp hcreate.2
  have hfuel := Nat.lt_succ_of_le (hvs.length_le haccounted)
  have hcounts : CallsBack it (fun _ => c.owned)
      fun t p (counts : UInt32 × UInt32) => some (p, (counts.1 + 1, counts.2 + t.toUInt32)) :=
    fun _ p _ _ _ => ⟨p, _, [], rfl, .nil _, fun _ hs => absurd hs List.not_mem_nil⟩
  obtain ⟨p', counts, hloop, hcalls, hlast⟩ := hcreated.loop hcounts (0, 0) hrun hfuel
  obtain ⟨p'', hdestroy, haccounted'⟩ := hlast.accounted.iteratorDestroy hlast.mayUse
  have hfold : counts = _ := hcalls.folded
  rw [countEntries_foldl, UInt32.zero_add, UInt32.zero_add] at hfold
  refine ⟨p'', ?_, haccounted'⟩
  rw [Process.countStackEntries, hp, Option.bind_some, hloop, Option.bind_some, hdestroy, hfold]
  rfl

/-! ### Metadata -/

/-- After any run in which no registered map is destroyed, looking up what was saved last at
an offset of a function gives stacks of the lengths that were saved, counts the entries of
the type stack and their sizes as they were then, whatever has become of the stacks since;
and destroying the two handles leaves the process as it was before. -/
theorem metadata_lookup {steps : List (Client × Call)} {last : Client}
    (hrun : Run Client.Step Client.start steps last) (hkeeps : ∀ p ∈ steps, KeepsRegistered p.1 p.2)
    {fidx offset : UInt32} {m : Addr} {addresses types : List UInt64}
    (hfirst : FirstSet (registryEffect fidx) steps m) (hsaved : SavedLast steps m offset addresses types)
    {it : Addr} (hit : it ∉ last.process.iterators) :
    ∃ loaded addressStack typeStack counted nodes nodes',
      last.process.loadMetadataStacks fidx offset = some (loaded, some (addressStack, typeStack)) ∧
      stackSize loaded.nodes addressStack = some addresses.length ∧
      stackSize loaded.nodes typeStack = some types.length ∧
      loaded.countStackEntries typeStack (some it) =
        some (counted, some (UInt32.ofNat types.length, UInt32.ofNat (types.map UInt64.toNat).sum)) ∧
      stackDestroy counted.nodes addressStack = some nodes ∧ stackDestroy nodes typeStack = some nodes' ∧
      {counted with nodes := nodes'} = last.process := by
  have hload := ((registered_iff hrun fidx).2 m).mpr hfirst
  have hm := noDangling_run hrun hkeeps fidx m hload
  obtain ⟨loaded, pair, hpair, -, hdenotes⟩ := loadPair_refines hrun hm offset
  obtain ⟨addressStack, typeStack, rfl, haddress, htype⟩ := hdenotes addresses types hsaved
  -- The two handles are the client's from here on.
  have hallowed : last.Allowed (.loadPair (some m) offset) := by
    intro a ha
    cases ha
    exact hm
  have hnext : last.next (.loadPair (some m) offset) =
      some ⟨loaded, addressStack ::ₘ typeStack ::ₘ last.owned⟩ := by
    rw [Client.next, hpair]
    rfl
  have hrun' := hrun.append (.cons ⟨hallowed, hnext⟩ (.nil _))
  have hheld : Client.Holds ⟨loaded, addressStack ::ₘ typeStack ::ₘ last.owned⟩ typeStack :=
    Or.inl (Multiset.mem_cons_of_mem (Multiset.mem_cons_self ..))
  obtain ⟨honly, hiterators⟩ := stackStateLoadPair_spec hpair
  obtain ⟨counted, hcount, hcounted⟩ := countStackEntries_spec hrun' hheld htype (hiterators ▸ hit)
  obtain ⟨honly', hiterators'⟩ := countStackEntries_only (hiterators ▸ hit) hcount
  have hsame : counted.iterators = last.process.iterators := hiterators'.trans hiterators
  have hsince := honly.trans honly'
  have hrefs : Sound counted.nodes (addressStack ::ₘ typeStack ::ₘ last.roots) := by
    rw [Client.roots, ← hsame, ← hsince.maps, ← Multiset.cons_add, ← Multiset.cons_add]
    exact hcounted
  obtain ⟨nodes, hrelease, hsound⟩ := hrefs.release
  obtain ⟨nodes', hrelease', hsound'⟩ := hsound.release
  have hlast := accounted_run hrun
  have hloaded : Sound loaded.nodes _ := accounted_run hrun'
  have hnodes : nodes' = last.process.nodes :=
    ((hsince.kept.trans (stackRelease_kept hrelease)).trans (stackRelease_kept hrelease')).eq_of_accounted
      (Sound.accounted hlast) hsound'.accounted (Sound.acyclic hlast)
  refine ⟨loaded, addressStack, typeStack, counted, nodes, nodes', ?_, haddress.size hloaded, htype.size hloaded,
    hcount, hrelease, hrelease', ?_⟩
  · rw [Process.loadMetadataStacks, hload, hpair]
  · rw [hnodes, hsame, hsince.maps, hsince.cleaned, hsince.loaded]

/-- A stack of one value, saved twice in a pair under an offset of a registered map. -/
theorem metadata_lookup_saved :
    ∃ steps last, Run Client.Step Client.start steps last ∧
      ∃ loaded addressStack typeStack counted nodes nodes',
        last.process.loadMetadataStacks 200 5 = some (loaded, some (addressStack, typeStack)) ∧
        loaded.countStackEntries typeStack (some 9) = some (counted, some (1, 7)) ∧
        stackDestroy counted.nodes addressStack = some nodes ∧ stackDestroy nodes typeStack = some nodes' ∧
        {counted with nodes := nodes'} = last.process := by
  have howned : savingClient.Holds (.node 1) := Or.inl (Multiset.mem_singleton_self _)
  have hthere : Client.There savingClient.process.maps (some 1) := by
    intro m hm
    cases hm
    exact Finmap.mem_insert.mpr (Or.inl rfl)
  have hallowed : savingClient.Allowed (.savePair (some 1) 5 (.node 1) (.node 1)) := ⟨hthere, howned, howned⟩
  have hbefore := Run.cons createdClient_step (.cons registeredClient_step (.cons savingClient_step (.nil _)))
  obtain ⟨last, hnext, -⟩ := (accounted_run hbefore).next hallowed
  have hrun := Run.cons createdClient_step
    (.cons registeredClient_step (.cons savingClient_step (.cons ⟨hallowed, hnext⟩ (.nil last))))
  have hit : 9 ∉ last.process.iterators := by
    rw [Client.next] at hnext
    obtain ⟨r, hr, rfl⟩ := Option.map_eq_some_iff.mp hnext
    obtain ⟨pairs, -, -, -, hiterators⟩ := stackStateSavePair_spec hr
    rw [hiterators]
    exact Finmap.notMem_empty
  have hseven : Denotes savingClient.process.nodes (.node 1) [7] :=
    .value (n := ⟨7, .null, 1, false⟩) (Finmap.lookup_insert _) rfl .null
  obtain ⟨loaded, addressStack, typeStack, counted, nodes, nodes', hload, -, -, hrest⟩ :=
    metadata_lookup hrun (by simp [KeepsRegistered])
      (show FirstSet (registryEffect 200) _ 1 from
        ⟨[_], _, [_, _], rfl, vacant_of_keep (by simp [registryEffect]), rfl, by simp [registryEffect]⟩)
      (show SavedLast _ 1 5 [7] [7] from ⟨[_, _, _], _, _, _, [], rfl, by simp, hseven, hseven⟩) hit
  exact ⟨_, _, hrun, loaded, addressStack, typeStack, counted, nodes, nodes', hload, hrest⟩

end Wasmig
