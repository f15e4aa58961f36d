import Mathlib.Data.List.Induction
import Wasmig.Base.Runs

/-! What a run leaves in one place of a table.

A step sets the place, clears it or keeps it (`Effect`). After a run the place holds what
the last step that did not keep it set (`LastSet`), or, when all steps kept it, what it
held before (`Run.lookup_iff`). A place that keeps its first value holds what was set
first (`FirstSet`, `Run.lookup_first_iff`). -/
namespace Base

section
variable {σ α ν : Type}

/-- What a step does to a place. -/
inductive Effect (ν : Type) where
  | set (v : ν)
  | clear
  | keep
deriving DecidableEq, Repr

/-- What the place holds after it. -/
def Effect.apply : Effect ν → Option ν → Option ν
  | .set v, _ => some v
  | .clear, _ => none
  | .keep, old => old

/-- The last of the steps that does not keep the place sets it to `v`. -/
def LastSet (effect : α → Effect ν) (steps : List α) (v : ν) : Prop :=
  ∃ before a after, steps = before ++ a :: after ∧ effect a = .set v ∧ ∀ b ∈ after, effect b = .keep

theorem lastSet_nil {effect : α → Effect ν} {v : ν} : ¬ LastSet effect [] v := by
  rintro ⟨before, a, after, h, -⟩
  simp at h

/-- The last set is among the later steps, or these all keep the place and the first step
sets it. -/
theorem lastSet_cons {effect : α → Effect ν} {a : α} {steps : List α} {v : ν} :
    LastSet effect (a :: steps) v ↔
      LastSet effect steps v ∨ (effect a = .set v ∧ ∀ b ∈ steps, effect b = .keep) := by
  constructor
  · intro h
    obtain ⟨before, b, after, hsteps, hb, hafter⟩ := h
    cases before with
    | nil =>
      cases hsteps
      exact Or.inr ⟨hb, hafter⟩
    | cons c before =>
      obtain ⟨-, rfl⟩ := List.cons.inj hsteps
      exact Or.inl ⟨before, b, after, rfl, hb, hafter⟩
  · rintro (⟨before, b, after, rfl, hb, hafter⟩ | ⟨ha, hkeep⟩)
    · exact ⟨a :: before, b, after, rfl, hb, hafter⟩
    · exact ⟨[], a, steps, rfl, ha, hkeep⟩

/-- A place that every step treats as its effect says holds what was set last, or what it
held at first if no step touched it. -/
theorem Run.lookup_iff {Step : σ → α → σ → Prop} {lookup : σ → Option ν} {effect : σ × α → Effect ν}
    (hstep : ∀ s a s', Step s a s' → lookup s' = (effect (s, a)).apply (lookup s)) {first last : σ}
    {steps : List (σ × α)} (hrun : Run Step first steps last) (v : ν) :
    lookup last = some v ↔
      LastSet effect steps v ∨ (lookup first = some v ∧ ∀ p ∈ steps, effect p = .keep) := by
  induction hrun with
  | nil s =>
    rw [or_iff_right lastSet_nil]
    exact (and_iff_left fun p hp => absurd hp List.not_mem_nil).symm
  | @cons s s' s'' a steps step rest ih =>
    rw [ih, lastSet_cons, hstep s a s' step, or_assoc, List.forall_mem_cons]
    apply or_congr_right
    cases effect (s, a) with
    | set w =>
      have hinj : some w = some v ↔ Effect.set w = Effect.set v := by simp
      rw [Effect.apply, hinj, or_iff_left]
      rintro ⟨-, hkeep, -⟩
      cases hkeep
    | clear =>
      rw [Effect.apply]
      constructor
      · rintro ⟨hnone, -⟩
        cases hnone
      · rintro (⟨hset, -⟩ | ⟨-, hkeep, -⟩)
        · cases hset
        · cases hkeep
    | keep =>
      rw [Effect.apply]
      constructor
      · intro h
        obtain ⟨hlookup, hkeep⟩ := h
        exact Or.inr ⟨hlookup, rfl, hkeep⟩
      · rintro (⟨hset, -⟩ | ⟨hlookup, -, hkeep⟩)
        · cases hset
        · exact ⟨hlookup, hkeep⟩

/-! ### Places that keep their first value -/

/-- What such a place holds after a step: a set has no effect while it holds something. -/
def Effect.emplace : Effect ν → Option ν → Option ν
  | .set _, some w => some w
  | .set v, none => some v
  | .clear, _ => none
  | .keep, old => old

/-- The place has been cleared after every set. -/
def Vacant (effect : α → Effect ν) (steps : List α) : Prop :=
  ∀ before a after v, steps = before ++ a :: after → effect a = .set v → ∃ b ∈ after, effect b = .clear

/-- The first set since the place was last cleared sets it to `v`. -/
def FirstSet (effect : α → Effect ν) (steps : List α) (v : ν) : Prop :=
  ∃ before a after, steps = before ++ a :: after ∧ Vacant effect before ∧ effect a = .set v ∧
    ∀ b ∈ after, effect b ≠ .clear

/-- A step of a list with one more at its end is the last one or one of the others. -/
theorem concat_eq_append_cons {steps before after : List α} {a b : α} :
    steps ++ [a] = before ++ b :: after ↔
      (after = [] ∧ before = steps ∧ b = a) ∨ ∃ after', after = after' ++ [a] ∧ steps = before ++ b :: after' := by
  constructor
  · intro h
    rcases List.eq_nil_or_concat after with rfl | ⟨after', x, rfl⟩
    · obtain ⟨rfl, hlast⟩ := List.append_inj' h rfl
      cases hlast
      exact Or.inl ⟨rfl, rfl, rfl⟩
    · rw [List.concat_eq_append] at h ⊢
      rw [← List.cons_append, ← List.append_assoc] at h
      obtain ⟨rfl, hlast⟩ := List.append_inj' h rfl
      cases hlast
      exact Or.inr ⟨after', rfl, rfl⟩
  · rintro (⟨rfl, rfl, rfl⟩ | ⟨after', rfl, rfl⟩)
    · rfl
    · rw [List.append_assoc, List.cons_append]

theorem vacant_of_keep {effect : α → Effect ν} {steps : List α} (hkeep : ∀ a ∈ steps, effect a = .keep) :
    Vacant effect steps := by
  rintro before a after v rfl hset
  rw [hkeep a (List.mem_append.mpr (Or.inr (List.mem_cons_self ..)))] at hset
  cases hset

theorem firstSet_nil {effect : α → Effect ν} {v : ν} : ¬ FirstSet effect [] v := by
  rintro ⟨before, a, after, h, -⟩
  simp at h

theorem vacant_concat {effect : α → Effect ν} {steps : List α} {a : α} :
    Vacant effect (steps ++ [a]) ↔
      effect a = .clear ∨ (Vacant effect steps ∧ ∀ v, effect a ≠ .set v) := by
  constructor
  · intro h
    by_cases hclear : effect a = .clear
    · exact Or.inl hclear
    · refine Or.inr ⟨fun before b after v hsteps hb => ?_, fun v hset => ?_⟩
      · obtain ⟨d, hd, hdclear⟩ :=
          h before b (after ++ [a]) v (concat_eq_append_cons.mpr (Or.inr ⟨after, rfl, hsteps⟩)) hb
        rcases List.mem_append.mp hd with hd | hd
        · exact ⟨d, hd, hdclear⟩
        · rw [List.mem_singleton.mp hd] at hdclear
          exact absurd hdclear hclear
      · obtain ⟨d, hd, -⟩ := h steps a [] v rfl hset
        cases hd
  · intro h before b after v hsteps hb
    rcases concat_eq_append_cons.mp hsteps with ⟨rfl, rfl, rfl⟩ | ⟨after', rfl, hbefore⟩
    · rcases h with hclear | ⟨-, hset⟩
      · rw [hclear] at hb
        cases hb
      · exact absurd hb (hset v)
    · rcases h with hclear | ⟨hvacant, -⟩
      · exact ⟨a, List.mem_append.mpr (Or.inr (List.mem_singleton_self a)), hclear⟩
      · obtain ⟨d, hd, hdclear⟩ := hvacant before b after' v hbefore hb
        exact ⟨d, List.mem_append.mpr (Or.inl hd), hdclear⟩

theorem firstSet_concat {effect : α → Effect ν} {steps : List α} {a : α} {v : ν} :
    FirstSet effect (steps ++ [a]) v ↔
      (FirstSet effect steps v ∧ effect a ≠ .clear) ∨ (Vacant effect steps ∧ effect a = .set v) := by
  constructor
  · intro h
    obtain ⟨before, b, after, hsteps, hvacant, hset, hafter⟩ := h
    rcases concat_eq_append_cons.mp hsteps with ⟨rfl, rfl, rfl⟩ | ⟨after', rfl, hbefore⟩
    · exact Or.inr ⟨hvacant, hset⟩
    · refine Or.inl ⟨⟨before, b, after', hbefore, hvacant, hset, fun d hd => ?_⟩, ?_⟩
      · exact hafter d (List.mem_append.mpr (Or.inl hd))
      · exact hafter a (List.mem_append.mpr (Or.inr (List.mem_singleton_self a)))
  · rintro (⟨⟨before, b, after, rfl, hvacant, hset, hafter⟩, hclear⟩ | ⟨hvacant, hset⟩)
    · refine ⟨before, b, after ++ [a], by rw [List.append_assoc, List.cons_append], hvacant, hset, ?_⟩
      intro d hd
      rcases List.mem_append.mp hd with hd | hd
      · exact hafter d hd
      · rw [List.mem_singleton.mp hd]
        exact hclear
    · exact ⟨steps, a, [], rfl, hvacant, hset, fun d hd => absurd hd List.not_mem_nil⟩

/-- A place that keeps its first value, and holds none at first, holds what was set first
since it was last cleared. -/
theorem Run.lookup_first_iff {Step : σ → α → σ → Prop} {lookup : σ → Option ν} {effect : σ × α → Effect ν}
    (hstep : ∀ s a s', Step s a s' → lookup s' = (effect (s, a)).emplace (lookup s)) {first last : σ}
    {steps : List (σ × α)} (hrun : Run Step first steps last) (hfirst : lookup first = none) :
    (lookup last = none ↔ Vacant effect steps) ∧ ∀ v, lookup last = some v ↔ FirstSet effect steps v := by
  -- From the end of the run: a set counts by what the place held before it.
  induction steps using List.reverseRec generalizing last with
  | nil =>
    cases hrun
    refine ⟨iff_of_true hfirst (vacant_of_keep fun a ha => absurd ha List.not_mem_nil), fun v => ?_⟩
    exact iff_of_false (by rw [hfirst]; simp) firstSet_nil
  | append_singleton steps p ih =>
    obtain ⟨s, a⟩ := p
    obtain ⟨s', hbefore, hlast, hnil⟩ := hrun.split
    cases hnil
    obtain ⟨hnone, hsome⟩ := ih hbefore
    rw [vacant_concat, hstep s a _ hlast, ← hnone]
    simp only [firstSet_concat, ← hnone, ← hsome]
    cases effect (s, a) with
    | set w => cases lookup s <;> simp [Effect.emplace]
    | clear => simp [Effect.emplace]
    | keep => simp [Effect.emplace]

end

end Base
