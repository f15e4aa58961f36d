import Mathlib.Logic.Function.Basic

/-! Two partial maps that point at each other, each of which may also be changed alone.

`Backed` is that the second says of nothing what the first does not say, `Unshared` that
the value of a key is not said to be another key's. Taking a key's value out of the second
map (`cut`) is all that is done when the key is removed: it leaves no trace of the key
when its entries are backed (`cut_traceless_iff`), and takes nothing from other keys when
its value is unshared (`cut_keeps_iff`). For each way of setting entries there is a lemma
that says when it keeps them so. -/
namespace Base

section
variable {α β : Type} {f : α → Option β} {g : β → Option α}

/-- The second map has a value for a key only if the first has it. -/
def Backed (f : α → Option β) (g : β → Option α) : Prop := ∀ b a, g b = some a → f a = some b

/-- The second map gives no value of the first to another key. -/
def Unshared (f : α → Option β) (g : β → Option α) : Prop := ∀ a b, f a = some b → ∀ a', g b = some a' → a' = a

variable [DecidableEq β]

/-- The second map without the value of a key. -/
def cut (f : α → Option β) (g : β → Option α) (a : α) : β → Option α := fun b =>
  if f a = some b then none else g b

theorem cut_self {a : α} {b : β} (h : f a = some b) : cut f g a b = none := if_pos h

theorem cut_of_ne {a : α} {b : β} (h : f a ≠ some b) : cut f g a b = g b := if_neg h

theorem cut_eq_none_iff {a : α} {b : β} : cut f g a b = none ↔ g b = none ∨ f a = some b := by
  by_cases h : f a = some b
  · rw [cut_self h]
    exact iff_of_true rfl (Or.inr h)
  · rw [cut_of_ne h]
    exact (or_iff_left h).symm

/-- What is left after a cut was there before. -/
theorem of_cut {a a' : α} {b : β} (h : cut f g a b = some a') : f a ≠ some b ∧ g b = some a' := by
  unfold cut at h
  split at h
  · cases h
  · rename_i hne
    exact ⟨hne, h⟩

/-- No value is left with a key after the cut exactly when all it had was its own. -/
theorem cut_traceless_iff (a : α) : (∀ b, cut f g a b ≠ some a) ↔ ∀ b, g b = some a → f a = some b := by
  constructor
  · intro h b hb
    by_contra hne
    exact h b ((cut_of_ne hne).trans hb)
  · intro h b hb
    obtain ⟨hne, hg⟩ := of_cut hb
    exact hne (h b hg)

/-- The cut takes nothing from other keys exactly when the value it takes out is not
another's. The value `b` is not looked at. -/
theorem cut_keeps_iff (a : α) (b : β) :
    (∀ b', b' ≠ b → ∀ a', a' ≠ a → g b' = some a' → cut f g a b' = some a') ↔
      ∀ b', b' ≠ b → f a = some b' → ∀ a', g b' = some a' → a' = a := by
  constructor
  · intro h b' hb hf a' hg
    by_contra ha
    have hkept := h b' hb a' ha hg
    rw [cut_self hf] at hkept
    cases hkept
  · intro h b' hb a' ha hg
    have hne : f a ≠ some b' := fun hf => ha (h b' hb hf a' hg)
    rw [cut_of_ne hne]
    exact hg

variable [DecidableEq α]

/-! ### Backed entries -/

namespace Backed

/-- Setting or clearing the first map, the second without the old value. -/
theorem replace (h : Backed f g) (a : α) (value : Option β) :
    Backed (Function.update f a value) (cut f g a) := by
  intro b a' hcut
  obtain ⟨hne, hg⟩ := of_cut hcut
  have hf := h b a' hg
  have ha : a' ≠ a := fun heq => hne (heq ▸ hf)
  rw [Function.update_of_ne ha]
  exact hf

/-- Setting both. -/
theorem bind (h : Backed f g) (a : α) (b : β) :
    Backed (Function.update f a (some b)) (Function.update (cut f g a) b (some a)) := by
  intro b' a' hg
  by_cases hb : b' = b
  · subst hb
    rw [Function.update_self] at hg
    cases hg
    exact Function.update_self ..
  · rw [Function.update_of_ne hb] at hg
    exact h.replace a (some b) b' a' hg

omit [DecidableEq β] in
/-- Setting the first map alone. -/
theorem forward_iff (h : Backed f g) (a : α) (b : β) :
    Backed (Function.update f a (some b)) g ↔ ∀ b', g b' = some a → b' = b := by
  constructor
  · intro hset b' hg
    have hf := hset b' a hg
    rw [Function.update_self] at hf
    exact (Option.some.inj hf).symm
  · intro hown b' a' hg
    by_cases ha : a' = a
    · subst ha
      rw [Function.update_self, hown b' hg]
    · rw [Function.update_of_ne ha]
      exact h b' a' hg

omit [DecidableEq α] in
/-- Setting the second map alone. -/
theorem backward_iff (h : Backed f g) (a : α) (b : β) :
    Backed f (Function.update g b (some a)) ↔ f a = some b := by
  constructor
  · intro hset
    exact hset b a (Function.update_self ..)
  · intro hf b' a' hg
    by_cases hb : b' = b
    · subst hb
      rw [Function.update_self] at hg
      cases hg
      exact hf
    · rw [Function.update_of_ne hb] at hg
      exact h b' a' hg

end Backed

/-! ### Unshared values -/

namespace Unshared

theorem remove (h : Unshared f g) (a : α) : Unshared (Function.update f a none) (cut f g a) := by
  intro a' b hf a'' hcut
  have ha : a' ≠ a := by
    rintro rfl
    rw [Function.update_self] at hf
    cases hf
  rw [Function.update_of_ne ha] at hf
  exact h a' b hf a'' (of_cut hcut).2

/-- Setting the first map alone, to a value the second has for no key once the old one is
taken out. -/
theorem half (h : Unshared f g) {a : α} {b : β} (hnone : cut f g a b = none) :
    Unshared (Function.update f a (some b)) (cut f g a) := by
  intro a' b' hf a'' hcut
  by_cases ha : a' = a
  · subst ha
    rw [Function.update_self] at hf
    cases hf
    rw [hnone] at hcut
    cases hcut
  · rw [Function.update_of_ne ha] at hf
    exact h a' b' hf a'' (of_cut hcut).2

/-- Setting both. -/
theorem bind_iff (h : Unshared f g) (a : α) (b : β) :
    Unshared (Function.update f a (some b)) (Function.update (cut f g a) b (some a)) ↔
      ∀ a', f a' = some b → a' = a := by
  constructor
  · intro hset a' hf
    by_contra ha
    have hother : Function.update f a (some b) a' = some b := by
      rw [Function.update_of_ne ha]
      exact hf
    exact ha (hset a' b hother a (Function.update_self ..)).symm
  · intro hown a' b' hf a'' hg
    by_cases hb : b' = b
    · subst hb
      rw [Function.update_self] at hg
      cases hg
      by_cases ha : a' = a
      · exact ha.symm
      · rw [Function.update_of_ne ha] at hf
        exact (hown a' hf).symm
    · rw [Function.update_of_ne hb] at hg
      have ha : a' ≠ a := by
        rintro rfl
        rw [Function.update_self] at hf
        exact hb (Option.some.inj hf).symm
      rw [Function.update_of_ne ha] at hf
      exact h a' b' hf a'' (of_cut hg).2

omit [DecidableEq β] in
/-- Setting the first map alone. -/
theorem forward_iff (h : Unshared f g) (a : α) (b : β) :
    Unshared (Function.update f a (some b)) g ↔ ∀ a', g b = some a' → a' = a := by
  constructor
  · intro hset
    exact hset a b (Function.update_self ..)
  · intro hown a' b' hf a'' hg
    by_cases ha : a' = a
    · subst ha
      rw [Function.update_self] at hf
      cases hf
      exact hown a'' hg
    · rw [Function.update_of_ne ha] at hf
      exact h a' b' hf a'' hg

omit [DecidableEq α] in
/-- Setting the second map alone. -/
theorem backward_iff (h : Unshared f g) (a : α) (b : β) :
    Unshared f (Function.update g b (some a)) ↔ ∀ a', f a' = some b → a' = a := by
  constructor
  · intro hset a' hf
    exact (hset a' b hf a (Function.update_self ..)).symm
  · intro hown a' b' hf a'' hg
    by_cases hb : b' = b
    · subst hb
      rw [Function.update_self] at hg
      cases hg
      exact (hown a' hf).symm
    · rw [Function.update_of_ne hb] at hg
      exact h a' b' hf a'' hg

end Unshared

end

end Base
