import Mathlib.Data.Option.Basic

/-! Cells that are filled once.

A cell is empty until its value is first asked for, is filled then from some source, and
keeps that value. A computation on such a cell agrees with one on the value (`Agrees`) if it
does no more to the cell than fill it, and ends as the other one does on what the cell holds
in the end. Computations that agree are composed of ones that do. -/
namespace Base

section
variable {τ α β : Type}

/-- `OnceCell::get_or_try_init`: what the cell holds, or what the source gives. -/
def getOrTryInit (source cell : Option τ) : Option τ :=
  match cell with
  | some t => some t
  | none => source

/-- A computation with a cell, which may not end. -/
abbrev CellM (τ : Type) := StateT (Option τ) Option

/-- What is found in the cell, filled if it was empty; `none` when the source gives nothing
or the computation does not end. -/
def useCell (source : Option τ) (f : τ → Option α) : CellM τ α := fun cell =>
  (getOrTryInit source cell).bind fun t => (f t).map fun a => (a, some t)

/-- The cell is as it was, or it was empty and has been filled. -/
def Filled (source cell cell' : Option τ) : Prop := cell' = cell ∨ cell = none ∧ cell' = source

theorem Filled.keeps {source cell cell' : Option τ} (h : Filled source cell cell') {t : τ} (ht : cell = some t) :
    cell' = some t := by
  rcases h with rfl | ⟨rfl, -⟩
  · exact ht
  · cases ht

theorem Filled.trans {source cell cell' cell'' : Option τ} (h : Filled source cell cell')
    (h' : Filled source cell' cell'') : Filled source cell cell'' := by
  rcases h with rfl | ⟨rfl, rfl⟩
  · exact h'
  · rcases h' with rfl | ⟨rfl, rfl⟩
    · exact .inr ⟨rfl, rfl⟩
    · exact .inl rfl

/-- A value that the cell may hold: its own, or any as long as it is empty. -/
def MayHold (cell : Option τ) (t : τ) : Prop := ∀ u, cell = some u → u = t

theorem Filled.mayHold {source cell cell' : Option τ} (h : Filled source cell cell') {t : τ} (ht : MayHold cell' t) :
    MayHold cell t := fun u hu => ht u (h.keeps hu)

/-- A computation with a cell and one on its value. -/
structure Agrees (source : Option τ) (m : CellM τ α) (g : τ → Option α) : Prop where
  filled : ∀ {cell a cell'}, m cell = some (a, cell') → Filled source cell cell'
  ends : ∀ {cell a cell' t}, m cell = some (a, cell') → MayHold cell' t → g t = some a

variable {source : Option τ}

/-- What does not depend on the cell. -/
theorem Agrees.lift (x : Option α) : Agrees source (StateT.lift x) fun _ => x where
  filled h := by
    obtain ⟨a, -, heq⟩ := Option.bind_eq_some_iff.mp h
    cases heq
    exact .inl rfl
  ends h _ := by
    obtain ⟨a, ha, heq⟩ := Option.bind_eq_some_iff.mp h
    cases heq
    exact ha

/-- Using the cell is using its value. -/
theorem Agrees.use (f : τ → Option α) : Agrees source (useCell source f) f where
  filled h := by
    obtain ⟨t, ht, hf⟩ := Option.bind_eq_some_iff.mp h
    obtain ⟨a, -, heq⟩ := Option.map_eq_some_iff.mp hf
    cases heq
    unfold getOrTryInit at ht
    split at ht
    · exact .inl ht.symm
    · exact .inr ⟨rfl, ht.symm⟩
  ends h hmay := by
    obtain ⟨t, -, hf⟩ := Option.bind_eq_some_iff.mp h
    obtain ⟨a, ha, heq⟩ := Option.map_eq_some_iff.mp hf
    cases heq
    exact hmay t rfl ▸ ha

/-- One computation after another. -/
theorem Agrees.bind {m : CellM τ α} {g : τ → Option α} (hm : Agrees source m g) {k : α → CellM τ β}
    {l : α → τ → Option β} (hk : ∀ a, Agrees source (k a) (l a)) :
    Agrees source (m >>= k) fun t => g t >>= fun a => l a t where
  filled h := by
    obtain ⟨p, hp, hrest⟩ := Option.bind_eq_some_iff.mp h
    exact (hm.filled hp).trans ((hk p.1).filled hrest)
  ends h hmay := by
    obtain ⟨p, hp, hrest⟩ := Option.bind_eq_some_iff.mp h
    have hfirst := hm.ends hp (((hk p.1).filled hrest).mayHold hmay)
    rw [hfirst]
    exact (hk p.1).ends hrest hmay

theorem Agrees.pure (a : α) : Agrees source (Pure.pure a : CellM τ α) fun _ => some a where
  filled h := by
    cases h
    exact .inl rfl
  ends h _ := by
    cases h
    rfl

end

end Base
