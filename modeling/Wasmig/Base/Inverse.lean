import Mathlib.Data.Finmap

/-! Two finite tables, one meant to be the other read backwards.

`Inverse` is what they should satisfy. Taking a pair out of both keeps it
(`Inverse.erase`). Binding a key to a value in both, after taking out the value it was
bound to, keeps it exactly when the value was not bound to another key
(`Inverse.bind_iff`), and leaving out the entry of the second table never does
(`Inverse.not_half`). -/
namespace Base

section
variable {α β : Type} [DecidableEq α] [DecidableEq β]

/-- Each table is the other read backwards. -/
def Inverse (f : Finmap fun _ : α => β) (g : Finmap fun _ : β => α) : Prop :=
  ∀ a b, f.lookup a = some b ↔ g.lookup b = some a

/-- `g` without the value `f` binds `a` to. -/
def unbind (f : Finmap fun _ : α => β) (g : Finmap fun _ : β => α) (a : α) : Finmap fun _ : β => α :=
  match f.lookup a with
  | some b => g.erase b
  | none => g

theorem unbind_of_none {f : Finmap fun _ : α => β} (g : Finmap fun _ : β => α) {a : α} (h : f.lookup a = none) :
    unbind f g a = g := by
  rw [unbind, h]

/-- Unbinding a key leaves the values of the others. -/
theorem lookup_unbind (f : Finmap fun _ : α => β) (g : Finmap fun _ : β => α) (a : α) (b : β) :
    (unbind f g a).lookup b = if f.lookup a = some b then none else g.lookup b := by
  unfold unbind
  cases hf : f.lookup a with
  | none => rw [if_neg (fun h => by cases h)]
  | some b' =>
    by_cases hb : b = b'
    · rw [hb, Finmap.lookup_erase, if_pos rfl]
    · rw [Finmap.lookup_erase_ne hb, if_neg (fun h => hb (Option.some.inj h).symm)]

namespace Inverse
variable {f : Finmap fun _ : α => β} {g : Finmap fun _ : β => α}

theorem empty : Inverse (∅ : Finmap fun _ : α => β) (∅ : Finmap fun _ : β => α) := by
  intro a b
  rw [Finmap.lookup_empty, Finmap.lookup_empty]
  exact iff_of_false (fun h => by cases h) (fun h => by cases h)

theorem erase (h : Inverse f g) (a : α) : Inverse (f.erase a) (unbind f g a) := by
  intro a' b
  rw [lookup_unbind]
  by_cases ha : a' = a
  · subst ha
    rw [Finmap.lookup_erase]
    refine iff_of_false (fun h => by cases h) fun hg => ?_
    split at hg
    · cases hg
    · rename_i hne
      exact hne ((h a' b).mpr hg)
  · rw [Finmap.lookup_erase_ne ha]
    split
    · rename_i hb
      refine iff_of_false (fun ha' => ha ?_) (fun h => by cases h)
      have hg := (h a b).mp hb
      rw [(h a' b).mp ha'] at hg
      exact Option.some.inj hg
    · exact h a' b

/-- Binding `a` to `b` in both tables. -/
theorem bind_iff (h : Inverse f g) (a : α) (b : β) :
    Inverse (f.insert a b) ((unbind f g a).insert b a) ↔ ∀ a', f.lookup a' = some b → a' = a := by
  constructor
  · intro hbind a' ha'
    by_contra hne
    have hf : (f.insert a b).lookup a' = some b := by rw [Finmap.lookup_insert_of_ne _ hne, ha']
    have hg := (hbind a' b).mp hf
    rw [Finmap.lookup_insert] at hg
    exact hne (Option.some.inj hg).symm
  · intro hfree a' b'
    by_cases ha : a' = a
    · subst ha
      rw [Finmap.lookup_insert]
      by_cases hb : b' = b
      · subst hb
        rw [Finmap.lookup_insert]
        exact iff_of_true rfl rfl
      · rw [Finmap.lookup_insert_of_ne _ hb, lookup_unbind]
        refine iff_of_false (fun h => hb (Option.some.inj h).symm) fun hg => ?_
        split at hg
        · cases hg
        · rename_i hne
          exact hne ((h a' b').mpr hg)
    · rw [Finmap.lookup_insert_of_ne _ ha]
      by_cases hb : b' = b
      · subst hb
        rw [Finmap.lookup_insert]
        exact iff_of_false (fun hf => ha (hfree a' hf)) (fun h => ha (Option.some.inj h).symm)
      · rw [Finmap.lookup_insert_of_ne _ hb, lookup_unbind]
        split
        · rename_i hab
          refine iff_of_false (fun hf => ha ?_) (fun h => by cases h)
          have hg := (h a b').mp hab
          rw [(h a' b').mp hf] at hg
          exact Option.some.inj hg
        · exact h a' b'

/-- A new value whose second entry is missing. -/
theorem not_half {g' : Finmap fun _ : β => α} {a : α} {b : β} (hg : g'.lookup b = none) :
    ¬ Inverse (f.insert a b) g' := by
  intro h
  have hf := (h a b).mp (Finmap.lookup_insert f)
  rw [hg] at hf
  cases hf

end Inverse

end

end Base
