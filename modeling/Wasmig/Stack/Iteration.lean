import Wasmig.Stack.Persistent
import Mathlib.Algebra.GroupWithZero.Nat

/-! Iteration over a stack.

An iterator holds a reference to its current node, and that node keeps those behind it.
So what is left of the iteration is the list its current stack denotes (`Iterating`):
a `next` takes the first value off it, and no other call touches it, whatever becomes of
the stack that the iteration began at. `stackIterator_complete` says so for runs, and for
the two loops built on iterators. -/
namespace Wasmig
open Base Base.RefCount

namespace Process

/-- `wasmig_stack_iterator_has_next(it)`. -/
def stackIteratorHasNext (p : Process) : StackIterator → Option Bool
  | none => some false
  | some it =>
    (p.iterators.lookup it).bind fun current =>
      if current = .null then some false else (readNode p.nodes current).map fun n => !n.isTerminal

/-- `wasmig_stack_iterator_peek(it)`. -/
def stackIteratorPeek (p : Process) : StackIterator → Option UInt64
  | none => some 0
  | some it =>
    (p.iterators.lookup it).bind fun current =>
      if current = .null then some 0
      else (readNode p.nodes current).map fun n => if n.isTerminal then 0 else n.value

section
variable {σ : Type}

/-- `while (has_next(it)) { v = next(it); body(v); }`, through at most `fuel` values. The body
may do anything to the process and to a state of its own. -/
def iterateLoop (body : UInt64 → Process → σ → Option (Process × σ)) (it : StackIterator) :
    Nat → Process → σ → Option (Process × σ)
  | 0, _, _ => none
  | fuel + 1, p, user =>
    (p.stackIteratorHasNext it).bind fun hasNext =>
      if hasNext then
        (p.stackIteratorNext it).bind fun r =>
          (body r.2 r.1 user).bind fun called => iterateLoop body it fuel called.1 called.2
      else some (p, user)

/-- `wasmig_stack_foreach(stack, cb, user)`, the iterator at `it` if there is memory for it. It
comes across no more nodes than there are at first, whatever the callback does. -/
def stackForeach (p : Process) (stack : Stack) (cb : Option (UInt64 → Process → σ → Option (Process × σ)))
    (user : σ) (it : StackIterator) : Option (Process × σ) :=
  match cb, it with
  | none, _ => some (p, user)
  | some _, none => some (p, user)
  | some cb, some it =>
    (p.stackIteratorCreate stack it).bind fun created =>
      (iterateLoop cb (some it) (p.nodes.keys.card + 1) created user).bind fun r =>
        (r.1.stackIteratorDestroy (some it)).map fun p => (p, r.2)

end

/-- `wasmig_count_stack_entries(type_stack, ..)`, the iterator at `it` if there is memory for
it: the number of entries and their total size, when it returns `true`. -/
def countStackEntries (p : Process) (typeStack : Stack) (it : StackIterator) :
    Option (Process × Option (UInt32 × UInt32)) :=
  match it with
  | none => some (p, none)
  | some it =>
    (p.stackIteratorCreate typeStack it).bind fun created =>
      (iterateLoop (fun t p counts => some (p, (counts.1 + 1, counts.2 + t.toUInt32))) (some it)
        (p.nodes.keys.card + 1) created (0, 0)).bind fun r =>
          (r.1.stackIteratorDestroy (some it)).map fun p => (p, some r.2)

end Process

/-! ### What is left of an iteration -/

/-- The iterator at `it` is there, and has these values to come. -/
structure Iterating (c : Client) (it : Addr) (vs : List UInt64) : Prop where
  accounted : Accounted c.process c.owned
  denotes : ∃ current, c.process.iterators.lookup it = some current ∧ Denotes c.process.nodes current vs

/-- An iterator's current stack may be read. -/
theorem Accounted.live_iterator {p : Process} {owned : Multiset Stack} (h : Accounted p owned) {it : Addr}
    {current : Stack} (hcurrent : p.iterators.lookup it = some current) : Live p.nodes current := by
  refine Sound.live h (Multiset.mem_add.mpr (Or.inr (Multiset.mem_add.mpr (Or.inl ?_))))
  rw [held_lookup hcurrent]
  exact Multiset.mem_cons_self ..

/-- What a `next` returns, and where it leaves the iterator. -/
theorem Denotes.iteratorNext {p p' : Process} {it : Addr} {current : Stack} {vs : List UInt64} {value : UInt64}
    (h : Denotes p.nodes current vs) (hcurrent : p.iterators.lookup it = some current)
    (hnext : p.stackIteratorNext (some it) = some (p', value)) :
    value = vs.headD 0 ∧ ∃ rest, p'.iterators.lookup it = some rest ∧ Denotes p.nodes rest vs.tail := by
  rw [Process.stackIteratorNext, hcurrent, Option.bind_some] at hnext
  cases h with
  | null =>
    cases hnext
    exact ⟨rfl, .null, hcurrent, .null⟩
  | empty =>
    cases hnext
    exact ⟨rfl, .empty, hcurrent, .empty⟩
  | @terminal a n hn hterminal =>
    have hread : readNode p.nodes (.node a) = some n := hn
    rw [if_neg Stack.noConfusion, hread, Option.bind_some, if_pos hterminal] at hnext
    cases hnext
    exact ⟨rfl, .node a, hcurrent, .terminal hn hterminal⟩
  | @value a n vs hn hterminal hlink =>
    have hread : readNode p.nodes (.node a) = some n := hn
    rw [if_neg Stack.noConfusion, hread, Option.bind_some, if_neg (by simp [hterminal])] at hnext
    obtain ⟨nodes, -, hnext⟩ := Option.bind_eq_some_iff.mp hnext
    obtain ⟨nodes', -, hnext⟩ := Option.map_eq_some_iff.mp hnext
    cases hnext
    exact ⟨rfl, n.next.orEmpty, Finmap.lookup_insert _, hlink.orEmpty⟩

namespace Iterating
variable {c c' : Client} {it : Addr} {vs : List UInt64}

theorem there (h : Iterating c it vs) : it ∈ c.process.iterators := by
  obtain ⟨current, hcurrent, -⟩ := h.denotes
  exact Finmap.mem_of_lookup_eq_some hcurrent

theorem mayUse (h : Iterating c it vs) : Client.There c.process.iterators (some it) := by
  intro a ha
  cases ha
  exact h.there

/-- A new iterator has all values of its stack to come. -/
theorem create {stack : Stack} (haccounted : Accounted c.process c.owned)
    (hstep : Client.Step c (.iteratorCreate stack it) c') (hvs : Denotes c.process.nodes stack vs) :
    Iterating c' it vs := by
  have haccounted' := accounted_step c _ c' hstep haccounted
  obtain ⟨hallowed, hnext⟩ := hstep
  have hagrees := (afterCall_next hallowed hnext).agrees
  obtain ⟨p, hp, rfl⟩ := Option.map_eq_some_iff.mp hnext
  obtain ⟨nodes, hretain, rfl⟩ := Option.map_eq_some_iff.mp hp
  have hcurrent : (c.process.iterators.insert it stack.orEmpty).lookup it = some stack.orEmpty :=
    Finmap.lookup_insert _
  exact ⟨haccounted', stack.orEmpty, hcurrent,
    hvs.orEmpty.agrees hagrees haccounted' (haccounted'.live_iterator hcurrent)⟩

/-- Calls not made on the iterator leave it what is to come. -/
theorem step (h : Iterating c it vs) {call : Call} (hstep : Client.Step c call c')
    (hleaves : call.LeavesIterator it) : Iterating c' it vs := by
  have haccounted' := accounted_step c call c' hstep h.accounted
  obtain ⟨current, hcurrent, hvs⟩ := h.denotes
  have hcurrent' : c'.process.iterators.lookup it = some current := by
    have hnew : ∀ stack, call ≠ .iteratorCreate stack it := by
      rintro stack rfl
      exact hstep.1.2 h.there
    rw [iterators_next hstep.2 hnew hleaves]
    exact hcurrent
  exact ⟨haccounted', current, hcurrent',
    denotes_step h.accounted hstep hvs (haccounted'.live_iterator hcurrent')⟩

theorem hasNext (h : Iterating c it vs) : c.process.stackIteratorHasNext (some it) = some !vs.isEmpty := by
  obtain ⟨current, hcurrent, hvs⟩ := h.denotes
  rw [Process.stackIteratorHasNext, hcurrent, Option.bind_some]
  cases hvs with
  | null => rfl
  | empty => rfl
  | terminal hn hterminal => simp [readNode, hn, hterminal]
  | value hn hterminal => simp [readNode, hn, hterminal]

theorem peek (h : Iterating c it vs) : c.process.stackIteratorPeek (some it) = some (vs.headD 0) := by
  obtain ⟨current, hcurrent, hvs⟩ := h.denotes
  rw [Process.stackIteratorPeek, hcurrent, Option.bind_some]
  cases hvs with
  | null => rfl
  | empty => rfl
  | terminal hn hterminal => simp [readNode, hn, hterminal]
  | value hn hterminal => simp [readNode, hn, hterminal]

/-- A `next` gives the first value to come, and leaves the others. -/
theorem next (h : Iterating c it vs) :
    ∃ p', c.process.stackIteratorNext (some it) = some (p', vs.headD 0) ∧
      Client.Step c (.iteratorNext (some it)) ⟨p', c.owned⟩ ∧ Iterating ⟨p', c.owned⟩ it vs.tail := by
  obtain ⟨p', value, hnext, haccounted'⟩ := h.accounted.iteratorNext h.mayUse
  obtain ⟨current, hcurrent, hvs⟩ := h.denotes
  obtain ⟨rfl, rest, hrest, hvs'⟩ := hvs.iteratorNext hcurrent hnext
  have hagrees := (stackIteratorNext_spec hnext).1.kept.agrees
  refine ⟨p', hnext, ⟨h.mayUse, ?_⟩, haccounted', rest, hrest, ?_⟩
  · rw [Client.next, hnext, Option.map_some]
  · exact hvs'.agrees hagrees haccounted' (haccounted'.live_iterator hrest)

end Iterating

/-! ### Runs -/

/-- A `next` on the iterator at `it`. -/
def Call.advances (it : Addr) : Call → Bool
  | .iteratorNext (some it') => it' == it
  | _ => false

/-- How many calls of a run are a `next` on the iterator at `it`. -/
def advances (it : Addr) (steps : List (Client × Call)) : Nat := steps.countP fun s => s.2.advances it

/-- The value that a call takes off the iterator at `it`, as long as there is a next one. -/
def takenOff (it : Addr) (s : Client × Call) : Option UInt64 :=
  if s.2.advances it && s.1.process.stackIteratorHasNext (some it) == some true then
    (s.1.process.stackIteratorNext (some it)).map Prod.snd
  else none

/-- The values that a run takes off the iterator at `it`. -/
def yielded (it : Addr) (steps : List (Client × Call)) : List UInt64 := steps.filterMap (takenOff it)

theorem Call.advances_iff {it : Addr} {call : Call} :
    call.advances it = true ↔ call = .iteratorNext (some it) := by
  constructor
  · intro h
    unfold Call.advances at h
    split at h
    · rw [beq_iff_eq.mp h]
    · cases h
  · rintro rfl
    exact beq_self_eq_true it

namespace Iterating
variable {c last : Client} {it : Addr} {vs : List UInt64}

theorem takenOff (h : Iterating c it vs) :
    Wasmig.takenOff it (c, .iteratorNext (some it)) = vs.head? := by
  obtain ⟨p', hnext, -, -⟩ := h.next
  have hadvances : Call.advances it (.iteratorNext (some it)) = true := Call.advances_iff.mpr rfl
  rw [Wasmig.takenOff, hadvances, h.hasNext, hnext]
  cases vs with
  | nil => rfl
  | cons v vs => rfl

/-- A run in which the iterator stays takes the values off it in their order. -/
theorem run {after : List (Client × Call)} (hrun : Run Client.Step c after last) (h : Iterating c it vs)
    (hstays : ∀ s ∈ after, s.2 ≠ .iteratorDestroy (some it)) :
    Iterating last it (vs.drop (advances it after)) ∧ yielded it after = vs.take (advances it after) := by
  induction hrun generalizing vs with
  | nil => exact ⟨h, rfl⟩
  | @cons c c' last call after hstep hrest ih =>
    obtain ⟨hcall, hafter⟩ := List.forall_mem_cons.mp hstays
    cases hadvances : call.advances it with
    | true =>
      have hk : advances it ((c, call) :: after) = advances it after + 1 :=
        List.countP_cons_of_pos hadvances
      rw [Call.advances_iff.mp hadvances] at hstep hk ⊢
      obtain ⟨p', -, hstep', h'⟩ := h.next
      have hsame : c' = ⟨p', c.owned⟩ := Option.some.inj (hstep.2.symm.trans hstep'.2)
      rw [← hsame] at h'
      obtain ⟨hlast, hyielded⟩ := ih h' hafter
      have htaken := h.takenOff
      rw [hk]
      cases vs with
      | nil =>
        rw [List.tail_nil, List.drop_nil] at hlast
        rw [List.tail_nil, List.take_nil] at hyielded
        rw [List.drop_nil, List.take_nil]
        refine ⟨hlast, ?_⟩
        rw [yielded, List.filterMap_cons_none htaken]
        exact hyielded
      | cons v vs =>
        refine ⟨hlast, ?_⟩
        rw [yielded, List.filterMap_cons_some htaken, List.take_succ_cons]
        exact congrArg (v :: ·) hyielded
    | false =>
      have hleaves : call.LeavesIterator it := by
        refine ⟨fun heq => ?_, hcall⟩
        rw [Call.advances_iff.mpr heq] at hadvances
        cases hadvances
      have hk : advances it ((c, call) :: after) = advances it after := by
        apply List.countP_cons_of_neg
        rw [hadvances]
        exact Bool.false_ne_true
      have htaken : Wasmig.takenOff it (c, call) = none := by
        rw [Wasmig.takenOff, hadvances]
        rfl
      rw [hk, yielded, List.filterMap_cons_none htaken]
      exact ih (h.step hstep hleaves) hafter

end Iterating

/-! ### The loops -/

section
variable {σ : Type} {it : Addr} {vs : List UInt64}

/-- What the body of a loop may do in a process, its state telling what the client owns then: calls
that the client may make, but none on the loop's iterator, which it does not know. -/
def CallsBack (it : Addr) (owned : σ → Multiset Stack) (body : UInt64 → Process → σ → Option (Process × σ)) :
    Prop :=
  ∀ value p user before, Run Client.Step Client.start before ⟨p, owned user⟩ →
    ∃ p' user' steps, body value p user = some (p', user') ∧
      Run Client.Step ⟨p, owned user⟩ steps ⟨p', owned user'⟩ ∧ ∀ s ∈ steps, s.2.LeavesIterator it

/-- Calls on other things than the iterator leave it what is to come. -/
theorem Iterating.others {c last : Client} {steps : List (Client × Call)} (h : Iterating c it vs)
    (hrun : Run Client.Step c steps last) (hleaves : ∀ s ∈ steps, s.2.LeavesIterator it) :
    Iterating last it vs := by
  have hstep : ∀ s call s', Client.Step s call s' → Iterating s it vs → call.LeavesIterator it →
      Iterating s' it vs := by
    intro s call s' hstep h hleaves
    exact h.step hstep hleaves
  exact (Run.invariant hstep hrun h hleaves).2

/-- The body is called with these values, one after the other; before each call a `next` takes the
value off the iterator, and nothing else happens in between. -/
inductive CalledOn (body : UInt64 → Process → σ → Option (Process × σ)) (it : Addr) :
    List UInt64 → Process × σ → Process × σ → Prop where
  | done (s : Process × σ) : CalledOn body it [] s s
  | call {v : UInt64} {vs : List UInt64} {p p₁ : Process} {user : σ} {s₁ s : Process × σ}
    (next : p.stackIteratorNext (some it) = some (p₁, v)) (called : body v p₁ user = some s₁)
    (rest : CalledOn body it vs s₁ s) : CalledOn body it (v :: vs) (p, user) s

/-- A body that leaves the process alone folds the values it is called with. -/
theorem CalledOn.folded {f : σ → UInt64 → σ} {s s' : Process × σ}
    (h : CalledOn (fun value p user => some (p, f user value)) it vs s s') : s'.2 = vs.foldl f s.2 := by
  induction h with
  | done s => rfl
  | call _ called _ ih =>
    cases called
    exact ih

/-- The loop calls its body with the values to come. -/
theorem Iterating.loop {owned : σ → Multiset Stack} {body : UInt64 → Process → σ → Option (Process × σ)}
    (hbody : CallsBack it owned body) {p : Process} (user : σ) {before : List (Client × Call)}
    (hbefore : Run Client.Step Client.start before ⟨p, owned user⟩) (h : Iterating ⟨p, owned user⟩ it vs)
    {fuel : Nat} (hfuel : vs.length < fuel) :
    ∃ p' user', Process.iterateLoop body (some it) fuel p user = some (p', user') ∧
      CalledOn body it vs (p, user) (p', user') ∧ Iterating ⟨p', owned user'⟩ it [] := by
  induction vs generalizing fuel p user before with
  | nil =>
    obtain ⟨fuel, rfl⟩ : ∃ k, fuel = k + 1 := ⟨fuel - 1, by omega⟩
    refine ⟨p, user, ?_, .done _, h⟩
    rw [Process.iterateLoop, h.hasNext]
    rfl
  | cons v vs ih =>
    obtain ⟨fuel, rfl⟩ : ∃ k, fuel = k + 1 := ⟨fuel - 1, by omega⟩
    obtain ⟨p₁, hnext, hstep, h₁⟩ := h.next
    have hrun₁ := hbefore.append (.cons hstep (.nil _))
    obtain ⟨p₂, user₂, steps, hcalled, hsteps, hleaves⟩ := hbody v p₁ user _ hrun₁
    have hlength : vs.length < fuel := Nat.lt_of_succ_lt_succ hfuel
    obtain ⟨p', user', hloop, hcalls, h'⟩ :=
      ih user₂ (hrun₁.append hsteps) (h₁.others hsteps hleaves) hlength
    refine ⟨p', user', ?_, .call hnext hcalled hcalls, h'⟩
    rw [Process.iterateLoop, h.hasNext, hnext, Option.bind_some, if_pos (by rfl), Option.bind_some]
    dsimp only [List.headD_cons]
    rw [hcalled, Option.bind_some, hloop]

end

/-- A list that a stack denotes is no longer than there are nodes. -/
theorem Denotes.length_le {nodes : Nodes} {refs : Multiset Stack} {stack : Stack} {vs : List UInt64}
    (hsound : Sound nodes refs) (h : Denotes nodes stack vs) : vs.length ≤ nodes.keys.card := by
  obtain ⟨depth, hle, hpos, hdepth⟩ := hsound.acyclic.exists_depth
  have hbound : ∀ {stack vs}, Denotes nodes stack vs → ∀ a, stack = .node a → vs.length ≤ depth a := by
    intro stack vs h
    induction h with
    | null => intro a ha; cases ha
    | empty => intro a ha; cases ha
    | terminal => intro a ha; exact Nat.zero_le _
    | @value b n vs hn hterminal hnext ih =>
      intro a ha
      cases ha
      cases hlink : n.next with
      | null =>
        rw [hlink] at hnext
        cases hnext
        exact hpos b (Finmap.mem_of_lookup_eq_some hn)
      | empty =>
        rw [hlink] at hnext
        cases hnext
        exact hpos b (Finmap.mem_of_lookup_eq_some hn)
      | node t =>
        have hlt := hdepth b n t hn (congrArg Stack.target hlink)
        have hrest := ih t hlink
        rw [List.length_cons]
        omega
  cases stack with
  | null => cases h; exact Nat.zero_le _
  | empty => cases h; exact Nat.zero_le _
  | node a => exact Nat.le_trans (hbound h a rfl) (hle a)

/-- The counts of `wasmig_count_stack_entries`, in 32 bits. -/
theorem countEntries_foldl (vs : List UInt64) (count size : UInt32) :
    vs.foldl (fun counts t => (counts.1 + 1, counts.2 + t.toUInt32)) (count, size) =
      (count + UInt32.ofNat vs.length, size + UInt32.ofNat (vs.map UInt64.toNat).sum) := by
  induction vs generalizing count size with
  | nil => simp
  | cons v vs ih =>
    have hvalue : v.toUInt32 = UInt32.ofNat v.toNat := rfl
    rw [List.foldl_cons, ih, List.length_cons, List.map_cons, List.sum_cons, hvalue, UInt32.ofNat_add,
      UInt32.ofNat_add, UInt32.add_assoc, UInt32.add_assoc, UInt32.add_comm 1]
    rfl

/-- However the calls of a client are mixed, and whatever it destroys, an iterator yields the
values of the stack it was made for, from the top down and each once; the two loops are run
through on exactly those. -/
theorem stackIterator_complete {before : List (Client × Call)} {c created : Client} {stack : Stack} {it : Addr}
    (hbefore : Run Client.Step Client.start before c)
    (hcreate : Client.Step c (.iteratorCreate stack it) created) :
    ∃ vs, (∀ ws, Denotes c.process.nodes stack ws ↔ ws = vs) ∧
      (∀ after last, Run Client.Step created after last → (∀ s ∈ after, s.2 ≠ .iteratorDestroy (some it)) →
        yielded it after = vs.take (advances it after) ∧
        last.process.stackIteratorHasNext (some it) = some (decide (advances it after < vs.length)) ∧
        last.process.stackIteratorPeek (some it) = some ((vs.drop (advances it after)).headD 0) ∧
        (∃ p', last.process.stackIteratorNext (some it) =
          some (p', (vs.drop (advances it after)).headD 0)) ∧
        ∀ call, last.Allowed call → ∃ c', last.next call = some c') ∧
      (∀ (σ : Type) (owned : σ → Multiset Stack) (cb : UInt64 → Process → σ → Option (Process × σ)) (user : σ),
        owned user = c.owned → CallsBack it owned cb →
          ∃ p p' user', CalledOn cb it vs (created.process, user) (p, user') ∧
            p.stackIteratorDestroy (some it) = some p' ∧
            c.process.stackForeach stack (some cb) user (some it) = some (p', user')) ∧
      ∃ p', c.process.countStackEntries stack (some it) =
        some (p', some (UInt32.ofNat vs.length, UInt32.ofNat (vs.map UInt64.toNat).sum)) := by
  have haccounted := accounted_run hbefore
  have hlive := haccounted.live hcreate.1.1
  obtain ⟨vs, hvs⟩ := Denotes.exists_of_live haccounted hlive
  have hcreated := Iterating.create haccounted hcreate hvs
  have hrun := hbefore.append (.cons hcreate (.nil _))
  obtain ⟨p, hp, hc⟩ := Option.map_eq_some_iff.mp hcreate.2
  have hfuel := Nat.lt_succ_of_le (hvs.length_le haccounted)
  refine ⟨vs, ?_, ?_, ?_, ?_⟩
  · intro ws
    constructor
    · intro hws
      exact hws.unique hvs
    · rintro rfl
      exact hvs
  · intro after last hafter hstays
    obtain ⟨hlast, hyielded⟩ := hcreated.run hafter hstays
    obtain ⟨p', hnext, -, -⟩ := hlast.next
    refine ⟨hyielded, ?_, hlast.peek, ⟨p', hnext⟩, ?_⟩
    · rw [hlast.hasNext, Option.some.injEq, Bool.eq_iff_iff]
      simp
    · intro call hallowed
      obtain ⟨c', hnext, -⟩ := hlast.accounted.next hallowed
      exact ⟨c', hnext⟩
  · intro σ owned cb user howned hcb
    subst hc
    rw [← howned] at hrun hcreated
    obtain ⟨p', user', hloop, hcalls, hlast⟩ := hcreated.loop hcb user hrun hfuel
    obtain ⟨p'', hdestroy, -⟩ := hlast.accounted.iteratorDestroy hlast.mayUse
    refine ⟨p', p'', user', hcalls, hdestroy, ?_⟩
    rw [Process.stackForeach, hp, Option.bind_some, hloop, Option.bind_some, hdestroy, Option.map_some]
  · subst hc
    have hcounts : CallsBack it (fun _ => c.owned)
        fun t p (counts : UInt32 × UInt32) => some (p, (counts.1 + 1, counts.2 + t.toUInt32)) :=
      fun _ p _ _ _ => ⟨p, _, [], rfl, .nil _, fun _ hs => absurd hs List.not_mem_nil⟩
    obtain ⟨p', counts, hloop, hcalls, hlast⟩ := hcreated.loop hcounts (0, 0) hrun hfuel
    obtain ⟨p'', hdestroy, -⟩ := hlast.accounted.iteratorDestroy hlast.mayUse
    have hfold : counts = _ := hcalls.folded
    rw [countEntries_foldl, UInt32.zero_add, UInt32.zero_add] at hfold
    refine ⟨p'', ?_⟩
    rw [Process.countStackEntries, hp, Option.bind_some, hloop, Option.bind_some, hdestroy, hfold]
    rfl

/-- A stack of one value, whose owner destroys it before the iterator gets to the value. -/
theorem stackIterator_complete_destroyed :
    ∃ created after last, Client.Step pushedClient (.iteratorCreate (.node 1) 5) created ∧
      Run Client.Step created after last ∧ after.map Prod.snd = [.destroy (.node 1), .iteratorNext (some 5)] ∧
      yielded 5 after = [7] ∧
      (∃ p', pushedClient.process.stackForeach (.node 1) (some fun v p seen => some (p, seen + v)) (0 : UInt64)
        (some 5) = some (p', 7)) ∧
      ∃ p', pushedClient.process.countStackEntries (.node 1) (some 5) = some (p', some (1, 7)) := by
  have hrun : Run Client.Step Client.start _ pushedClient := .cons pushedClient_step (.nil _)
  have howned : pushedClient.Holds (.node 1) := Or.inl (Multiset.mem_singleton_self _)
  have hallowed : pushedClient.Allowed (.iteratorCreate (.node 1) 5) := ⟨howned, Finmap.notMem_empty⟩
  obtain ⟨created, hnext, haccounted⟩ := (accounted_run hrun).next hallowed
  have hcreate : Client.Step pushedClient (.iteratorCreate (.node 1) 5) created := ⟨hallowed, hnext⟩
  obtain ⟨vs, hvs, hruns, hforeach, hcount⟩ := stackIterator_complete hrun hcreate
  have hdenotes : Denotes pushedClient.process.nodes (.node 1) [7] :=
    Denotes.value (n := ⟨7, .null, 1, false⟩) (Finmap.lookup_insert _) rfl .null
  rw [← (hvs [7]).mp hdenotes] at hruns hforeach hcount
  have hiterating := Iterating.create (accounted_run hrun) hcreate hdenotes
  have hallowed' : created.Allowed (.destroy (.node 1)) := by
    rw [Client.next] at hnext
    obtain ⟨p, -, rfl⟩ := Option.map_eq_some_iff.mp hnext
    exact howned
  obtain ⟨destroyed, hdestroy, -⟩ := haccounted.next hallowed'
  have hstep : Client.Step created (.destroy (.node 1)) destroyed := ⟨hallowed', hdestroy⟩
  have hleaves : Call.LeavesIterator 5 (.destroy (.node 1)) := ⟨Call.noConfusion, Call.noConfusion⟩
  obtain ⟨p', -, hstep', -⟩ := (hiterating.step hstep hleaves).next
  have hafter : Run Client.Step created _ _ := .cons hstep (.cons hstep' (.nil _))
  have hstays : ∀ s ∈ [(created, Call.destroy (.node 1)), (destroyed, Call.iteratorNext (some 5))],
      s.2 ≠ .iteratorDestroy (some 5) := by simp
  have hyielded := (hruns _ _ hafter hstays).1
  refine ⟨created, _, _, hcreate, hafter, rfl, hyielded, ?_, hcount⟩
  obtain ⟨_, p', seen, hcalls, -, hforeach⟩ := hforeach UInt64 (fun _ => pushedClient.owned)
    (fun v p seen => some (p, seen + v)) 0 rfl fun _ p _ _ _ =>
      ⟨p, _, [], rfl, .nil _, fun _ hs => absurd hs List.not_mem_nil⟩
  obtain rfl : seen = 7 := hcalls.folded
  exact ⟨p', hforeach⟩

end Wasmig
