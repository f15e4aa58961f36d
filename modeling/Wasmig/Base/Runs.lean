/-! Runs of a system, step by step.

A `Run` remembers the state before each step and what the step was. An invariant that a
good step keeps holds in every state of a run of good steps (`Run.invariant`); when a
step keeps it only if it is good, the states of a run satisfy it exactly as long as its
steps are good (`Run.invariant_iff`). A system that can do what another does can do so for
a whole run (`Simulates.run`). -/
namespace Base

section
variable {σ α : Type}

/-- A run from one state to another, with the steps taken: the state each started from
and what was done in it. -/
inductive Run (Step : σ → α → σ → Prop) : σ → List (σ × α) → σ → Prop where
  | nil (s : σ) : Run Step s [] s
  | cons {s s' s'' : σ} {a : α} {steps : List (σ × α)} (step : Step s a s') (rest : Run Step s' steps s'') :
    Run Step s ((s, a) :: steps) s''

variable {Step : σ → α → σ → Prop} {Inv : σ → Prop} {Good : σ → α → Prop}

namespace Run

/-- The invariant holds in every state of the run: where its steps start and where it
ends. -/
def Throughout (Inv : σ → Prop) (steps : List (σ × α)) (last : σ) : Prop :=
  (∀ p ∈ steps, Inv p.1) ∧ Inv last

theorem Throughout.imp {Inv' : σ → Prop} (himp : ∀ s, Inv s → Inv' s) {steps : List (σ × α)} {last : σ}
    (h : Throughout Inv steps last) : Throughout Inv' steps last :=
  ⟨fun p hp => himp p.1 (h.1 p hp), himp last h.2⟩

theorem Throughout.head {steps : List (σ × α)} {first last : σ} (hrun : Run Step first steps last)
    (h : Throughout Inv steps last) : Inv first := by
  cases hrun with
  | nil => exact h.2
  | cons step rest => exact h.1 _ (List.mem_cons_self ..)

theorem Throughout.tail {p : σ × α} {steps : List (σ × α)} {last : σ} (h : Throughout Inv (p :: steps) last) :
    Throughout Inv steps last :=
  ⟨fun q hq => h.1 q (List.mem_cons_of_mem _ hq), h.2⟩

/-- A run through a step: up to it, the step, and on from it. -/
theorem split {first s last : σ} {a : α} {before after : List (σ × α)}
    (hrun : Run Step first (before ++ (s, a) :: after) last) :
    ∃ s', Run Step first before s ∧ Step s a s' ∧ Run Step s' after last := by
  induction before generalizing first with
  | nil =>
    cases hrun with
    | cons step rest => exact ⟨_, .nil _, step, rest⟩
  | cons p before ih =>
    cases hrun with
    | cons step rest =>
      obtain ⟨s', hbefore, hstep, hafter⟩ := ih rest
      exact ⟨s', .cons step hbefore, hstep, hafter⟩

/-- One run after another. -/
theorem append {first s last : σ} {before after : List (σ × α)} (hbefore : Run Step first before s)
    (hafter : Run Step s after last) : Run Step first (before ++ after) last := by
  induction hbefore with
  | nil => exact hafter
  | cons step rest ih => exact .cons step (ih hafter)

/-- What every good step keeps holds throughout a run of good steps. -/
theorem invariant (hstep : ∀ s a s', Step s a s' → Inv s → Good s a → Inv s') {first last : σ}
    {steps : List (σ × α)} (hrun : Run Step first steps last) (hfirst : Inv first)
    (hgood : ∀ p ∈ steps, Good p.1 p.2) : Throughout Inv steps last := by
  induction hrun with
  | nil s => exact ⟨fun p hp => absurd hp List.not_mem_nil, hfirst⟩
  | @cons s s' s'' a steps step rest ih =>
    have hnext : Inv s' := hstep s a s' step hfirst (hgood (s, a) (List.mem_cons_self ..))
    obtain ⟨hsteps, hlast⟩ := ih hnext fun p hp => hgood p (List.mem_cons_of_mem _ hp)
    refine ⟨fun p hp => ?_, hlast⟩
    rcases List.mem_cons.mp hp with rfl | hp
    · exact hfirst
    · exact hsteps p hp

/-- What every step keeps holds at the end of a run. -/
theorem keeps (Inv : σ → Prop) (hstep : ∀ s a s', Step s a s' → Inv s → Inv s') {first last : σ}
    {steps : List (σ × α)} (hrun : Run Step first steps last) (hfirst : Inv first) : Inv last :=
  (invariant (fun s a s' step hs (_ : True) => hstep s a s' step hs) hrun hfirst fun _ _ => trivial).2

/-- What steps keep between states in which something is given holds as long as that is. -/
theorem keeps_while {Given : σ → Prop} (hstep : ∀ s a s', Step s a s' → Given s' → Inv s → Inv s')
    {first last : σ} {steps : List (σ × α)} (hrun : Run Step first steps last) (hfirst : Inv first)
    (hgiven : Throughout Given steps last) : Throughout Inv steps last := by
  induction hrun with
  | nil s => exact ⟨fun p hp => absurd hp List.not_mem_nil, hfirst⟩
  | @cons s s' s'' a steps step rest ih =>
    have hnext : Inv s' := hstep s a s' step (hgiven.tail.head rest) hfirst
    obtain ⟨hsteps, hlast⟩ := ih hnext hgiven.tail
    exact ⟨List.forall_mem_cons.mpr ⟨hfirst, hsteps⟩, hlast⟩

/-- When only good steps keep it, it holds throughout exactly the runs of good steps. -/
theorem invariant_iff (hstep : ∀ s a s', Step s a s' → Inv s → (Inv s' ↔ Good s a)) {first last : σ}
    {steps : List (σ × α)} (hrun : Run Step first steps last) (hfirst : Inv first) :
    Throughout Inv steps last ↔ ∀ p ∈ steps, Good p.1 p.2 := by
  constructor
  · intro hall
    induction hrun with
    | nil s =>
      intro p hp
      cases hp
    | @cons s s' s'' a steps step rest ih =>
      have hnext : Inv s' := hall.tail.head rest
      intro p hp
      rcases List.mem_cons.mp hp with rfl | hp
      · exact (hstep s a s' step hfirst).mp hnext
      · exact ih hnext hall.tail p hp
  · intro hgood
    exact invariant (fun s a s' step hs hg => (hstep s a s' step hs).mpr hg) hrun hfirst hgood

end Run

end

/-! ### Simulations -/

section
variable {σ τ α : Type} {Step : σ → α → σ → Prop} {Step' : τ → α → τ → Prop} {R : σ → τ → Prop}

/-- Between related states, what one system does the other can do too, and they stay related. -/
def Simulates (Step : σ → α → σ → Prop) (Step' : τ → α → τ → Prop) (R : σ → τ → Prop) : Prop :=
  ∀ s a s' t, R s t → Step s a s' → ∃ t', Step' t a t' ∧ R s' t'

/-- Whole runs are simulated, doing the same in the same order. -/
theorem Simulates.run (h : Simulates Step Step' R) {first last : σ} {steps : List (σ × α)} {first' : τ}
    (hrun : Run Step first steps last) (hfirst : R first first') :
    ∃ steps' last', Run Step' first' steps' last' ∧ steps'.map Prod.snd = steps.map Prod.snd ∧ R last last' := by
  induction hrun generalizing first' with
  | nil s => exact ⟨[], first', .nil _, rfl, hfirst⟩
  | @cons s s' s'' a steps step rest ih =>
    obtain ⟨t', hstep, hnext⟩ := h s a s' first' hfirst step
    obtain ⟨steps', last', hsteps, hsame, hlast⟩ := ih hnext
    refine ⟨(first', a) :: steps', last', .cons hstep hsteps, ?_, hlast⟩
    rw [List.map_cons, List.map_cons, hsame]

end

end Base
