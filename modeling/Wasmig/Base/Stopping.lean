import Mathlib.Data.List.Basic

/-! Walks over a list that a step may stop.

A step answers with a code, and the first code that is not 0 is the last one heard: `taken`
are the items a walk hands out. They are an initial part of the list (`taken_prefix`), all
of it unless a step stopped the walk (`taken_complete`), and when one did it makes no
difference what else there was in the list (`taken_append_stopped`). -/
namespace Base.Stopping

section
variable {α σ : Type} (step : α → σ → Int × σ)

/-- The items handed out: up to the first that is not answered with 0, and that one. -/
def taken : List α → σ → List α
  | [], _ => []
  | a :: as, s => a :: if (step a s).1 ≠ 0 then [] else taken as (step a s).2

/-- The state once all of these items have been handed out. -/
def after (as : List α) (s : σ) : σ := as.foldl (fun s a => (step a s).2) s

/-- The codes that these items are answered with. -/
def codes : List α → σ → List Int
  | [], _ => []
  | a :: as, s => (step a s).1 :: codes as (step a s).2

theorem taken_stop {a : α} {s : σ} (as : List α) (h : (step a s).1 ≠ 0) : taken step (a :: as) s = [a] := by
  rw [taken, if_pos h]

theorem taken_go {a : α} {s : σ} (as : List α) (h : (step a s).1 = 0) :
    taken step (a :: as) s = a :: taken step as (step a s).2 := by
  rw [taken, if_neg (not_not_intro h)]

theorem taken_prefix (as : List α) (s : σ) : taken step as s <+: as := by
  induction as generalizing s with
  | nil => exact List.prefix_refl _
  | cons a as ih =>
    by_cases h : (step a s).1 = 0
    · rw [taken_go step as h]
      exact (List.prefix_cons_inj a).mpr (ih _)
    · rw [taken_stop step as h]
      exact (List.prefix_cons_inj a).mpr List.nil_prefix

/-- Every item but the last was answered with 0. -/
theorem codes_taken_dropLast (as : List α) (s : σ) :
    ∀ code ∈ (codes step (taken step as s) s).dropLast, code = 0 := by
  induction as generalizing s with
  | nil => simp [taken, codes]
  | cons a as ih =>
    by_cases h : (step a s).1 = 0
    · rw [taken_go step as h, codes]
      intro code hcode
      by_cases hnil : codes step (taken step as (step a s).2) (step a s).2 = []
      · simp [hnil] at hcode
      · rw [List.dropLast_cons_of_ne_nil hnil] at hcode
        rcases List.mem_cons.mp hcode with rfl | hrest
        · exact h
        · exact ih _ code hrest
    · simp [taken_stop step as h, codes]

/-- A walk hands out everything, or it was stopped by the last item. -/
theorem taken_complete (as : List α) (s : σ) :
    taken step as s = as ∨ ∃ code, (codes step (taken step as s) s).getLast? = some code ∧ code ≠ 0 := by
  induction as generalizing s with
  | nil => exact .inl rfl
  | cons a as ih =>
    by_cases h : (step a s).1 = 0
    · rw [taken_go step as h]
      rcases ih (step a s).2 with hall | ⟨code, hlast, hcode⟩
      · exact .inl (congrArg (a :: ·) hall)
      · refine .inr ⟨code, ?_, hcode⟩
        rw [codes, List.getLast?_cons, hlast]
        rfl
    · rw [taken_stop step as h]
      exact .inr ⟨_, rfl, h⟩

/-- What follows the item that stopped a walk is not looked at. -/
theorem taken_append_stopped {as : List α} {s : σ} (bs : List α)
    (hstop : ∃ code ∈ codes step as s, code ≠ 0) : taken step (as ++ bs) s = taken step as s := by
  induction as generalizing s with
  | nil => simp [codes] at hstop
  | cons a as ih =>
    by_cases h : (step a s).1 = 0
    · rw [List.cons_append, taken_go step _ h, taken_go step _ h]
      refine congrArg (a :: ·) (ih ?_)
      simpa [codes, h] using hstop
    · rw [List.cons_append, taken_stop step _ h, taken_stop step _ h]

/-- What was handed out would be again. -/
theorem taken_taken (as : List α) (s : σ) : taken step (taken step as s) s = taken step as s := by
  induction as generalizing s with
  | nil => rfl
  | cons a as ih =>
    by_cases h : (step a s).1 = 0
    · rw [taken_go step as h, taken_go step _ h, ih]
    · rw [taken_stop step as h, taken_stop step _ h]

/-- What was answered with 0 throughout is handed out. -/
theorem prefix_taken {as bs : List α} (h : as <+: bs) {s : σ} (hcodes : ∀ code ∈ codes step as s, code = 0) :
    as <+: taken step bs s := by
  induction as generalizing bs s with
  | nil => exact List.nil_prefix
  | cons a as ih =>
    obtain ⟨cs, rfl⟩ := h
    obtain ⟨hcode, hrest⟩ := List.forall_mem_cons.mp hcodes
    rw [List.cons_append, taken_go step _ hcode]
    exact (List.prefix_cons_inj a).mpr (ih (List.prefix_append as cs) hrest)

end

end Base.Stopping
