import Mathlib.Data.Finmap
import Mathlib.Data.Finset.Max
import Mathlib.Data.Multiset.Filter

/-! Heaps of reference-counted cells that link to each other.

A cell has a count and at most one link. `retain` adds one to a count; `release` takes
one off and, when none is left, releases the cell's link and frees the cell. Both fail
on a cell that is not there. `Accounted` says that every count is the number of owners
outside plus the number of links inside, and that none of these dangles: an accounted
reference can be retained, a new cell given out and an owned reference released
(`Accounted.retain`, `Accounted.alloc`, `Accounted.release`), and without owners an
acyclic heap is empty (`Accounted.no_leak`). `Kept` and `Agrees` say that cells which
are still there have changed in their counts only. -/
namespace Base.RefCount

/-- How the cells of a kind are counted: the count of a cell, the cell with another one,
and the cell it links to. -/
structure Counting (κ ν : Type) where
  count : ν → Int
  recount : ν → Int → ν
  link : ν → Option κ
  count_recount : ∀ n i, count (recount n i) = i
  link_recount : ∀ n i, link (recount n i) = link n
  recount_count : ∀ n, recount n (count n) = n
  recount_recount : ∀ n i j, recount (recount n i) j = recount n j

abbrev Heap (κ ν : Type) := Finmap fun _ : κ => ν

/-! ### Finite maps -/

section Entries
variable {κ ν : Type} [DecidableEq κ]

theorem insert_erase {h : Heap κ ν} {k : κ} {n : ν} (hk : h.lookup k = some n) : (h.erase k).insert k n = h := by
  apply Finmap.ext_lookup
  intro j
  by_cases hj : j = k
  · rw [hj, Finmap.lookup_insert, hk]
  · rw [Finmap.lookup_insert_of_ne _ hj, Finmap.lookup_erase_ne hj]

theorem erase_insert {h : Heap κ ν} {k : κ} (n : ν) (hk : k ∉ h) : (h.insert k n).erase k = h := by
  apply Finmap.ext_lookup
  intro j
  by_cases hj : j = k
  · rw [hj, Finmap.lookup_erase, Finmap.lookup_eq_none.mpr hk]
  · rw [Finmap.lookup_erase_ne hj, Finmap.lookup_insert_of_ne _ hj]

theorem eq_empty_of_card {h : Heap κ ν} (hcard : h.keys.card = 0) : h = ∅ := by
  apply Finmap.ext_lookup
  intro j
  rw [Finmap.lookup_empty, Finmap.lookup_eq_none, ← Finmap.mem_keys, Finset.card_eq_zero.mp hcard]
  exact Finset.notMem_empty j

theorem erase_of_notMem {h : Heap κ ν} {k : κ} (hk : k ∉ h) : h.erase k = h := by
  apply Finmap.ext_lookup
  intro j
  by_cases hj : j = k
  · rw [hj, Finmap.lookup_erase, Finmap.lookup_eq_none.mpr hk]
  · rw [Finmap.lookup_erase_ne hj]

theorem insert_insert_erase (h : Heap κ ν) (k : κ) (n : ν) : (h.erase k).insert k n = h.insert k n := by
  apply Finmap.ext_lookup
  intro j
  by_cases hj : j = k
  · rw [hj, Finmap.lookup_insert, Finmap.lookup_insert]
  · rw [Finmap.lookup_insert_of_ne _ hj, Finmap.lookup_erase_ne hj, Finmap.lookup_insert_of_ne _ hj]

/-- The entries with one taken out. -/
theorem entries_of_lookup {h : Heap κ ν} {k : κ} {n : ν} (hk : h.lookup k = some n) :
    h.entries = ⟨k, n⟩ ::ₘ (h.erase k).entries := by
  rw [← Finmap.entries_insert_of_notMem Finmap.notMem_erase_self, insert_erase hk]

/-- The entries with one replaced. -/
theorem entries_insert (h : Heap κ ν) (k : κ) (n : ν) :
    (h.insert k n).entries = ⟨k, n⟩ ::ₘ (h.erase k).entries := by
  rw [← insert_insert_erase, Finmap.entries_insert_of_notMem Finmap.notMem_erase_self]

end Entries

variable {κ ν : Type} [DecidableEq κ] (c : Counting κ ν)

def retain (h : Heap κ ν) (k : κ) : Option (Heap κ ν) :=
  (h.lookup k).map fun n => h.insert k (c.recount n (c.count n + 1))

/-- Freeing a cell that is there. -/
def free (h : Heap κ ν) (k : κ) : Option (Heap κ ν) := if k ∈ h then some (h.erase k) else none

/-- Releasing a reference to `k`, through at most `fuel` cells. -/
def release : Nat → Heap κ ν → κ → Option (Heap κ ν)
  | 0, _, _ => none
  | fuel + 1, h, k =>
    (h.lookup k).bind fun n =>
      let h' := h.insert k (c.recount n (c.count n - 1))
      if c.count n - 1 ≤ 0 then
        match c.link n with
        | none => free h' k
        | some t => (release fuel h' t).bind fun h'' => free h'' k
      else some h'

/-- The link of a cell, as owners are counted. -/
def linkOf (n : ν) : Multiset κ := (c.link n).elim 0 ({·})

/-- All links. -/
def links (h : Heap κ ν) : Multiset κ := h.entries.bind fun e => linkOf c e.2

omit [DecidableEq κ] in
theorem linkOf_recount (n : ν) (i : Int) : linkOf c (c.recount n i) = linkOf c n := by
  rw [linkOf, linkOf, c.link_recount]

theorem links_insert (h : Heap κ ν) (k : κ) (n : ν) :
    links c (h.insert k n) = linkOf c n + links c (h.erase k) := by
  rw [links, entries_insert, Multiset.cons_bind]
  rfl

theorem links_insert_new {h : Heap κ ν} {k : κ} (n : ν) (hk : k ∉ h) :
    links c (h.insert k n) = linkOf c n + links c h := by
  rw [links, Finmap.entries_insert_of_notMem hk, Multiset.cons_bind]
  rfl

theorem links_of_lookup {h : Heap κ ν} {k : κ} {n : ν} (hk : h.lookup k = some n) :
    links c h = linkOf c n + links c (h.erase k) := by
  rw [links, entries_of_lookup hk, Multiset.cons_bind]
  rfl

theorem links_recount {h : Heap κ ν} {k : κ} {n : ν} (hk : h.lookup k = some n) (i : Int) :
    links c (h.insert k (c.recount n i)) = links c h := by
  rw [links_insert, linkOf_recount, ← links_of_lookup c hk]

theorem mem_links {h : Heap κ ν} {t : κ} : t ∈ links c h ↔ ∃ k n, h.lookup k = some n ∧ c.link n = some t := by
  rw [links, Multiset.mem_bind]
  constructor
  · intro h
    obtain ⟨⟨k, n⟩, he, ht⟩ := h
    refine ⟨k, n, Finmap.mem_lookup_iff.mpr he, ?_⟩
    unfold linkOf at ht
    cases hl : c.link n with
    | none => simp [hl] at ht
    | some t' =>
      rw [hl] at ht
      rw [Multiset.mem_singleton.mp ht]
  · intro h
    obtain ⟨k, n, hk, ht⟩ := h
    refine ⟨⟨k, n⟩, Finmap.mem_lookup_iff.mp hk, ?_⟩
    rw [linkOf, ht]
    exact Multiset.mem_singleton_self t

/-! ### Accounts -/

/-- The count of every cell is the number of owners and links to it, at least one, and
owners and links are to cells that are there. -/
structure Accounted (h : Heap κ ν) (owners : Multiset κ) : Prop where
  count : ∀ k n, h.lookup k = some n → c.count n = ((owners + links c h).count k : Nat)
  live : ∀ k n, h.lookup k = some n → 0 < c.count n
  closed : ∀ k ∈ owners + links c h, k ∈ h

/-- The cells of `h'` are cells of `h`, but for their counts. -/
def Kept (h h' : Heap κ ν) : Prop :=
  ∀ k n', h'.lookup k = some n' → ∃ n i, h.lookup k = some n ∧ n' = c.recount n i

variable {c}

theorem Kept.refl (h : Heap κ ν) : Kept c h h := fun _ n hk => ⟨n, c.count n, hk, (c.recount_count n).symm⟩

theorem Kept.trans {h h' h'' : Heap κ ν} (hh : Kept c h h') (hh' : Kept c h' h'') : Kept c h h'' := by
  intro k n'' hk
  obtain ⟨n', j, hk', rfl⟩ := hh' k n'' hk
  obtain ⟨n, i, hn, rfl⟩ := hh k n' hk'
  exact ⟨n, j, hn, c.recount_recount n i j⟩

theorem kept_recount {h : Heap κ ν} {k : κ} {n : ν} (hk : h.lookup k = some n) (i : Int) :
    Kept c h (h.insert k (c.recount n i)) := by
  intro j n' hj
  by_cases hjk : j = k
  · subst hjk
    rw [Finmap.lookup_insert] at hj
    exact ⟨n, i, hk, (Option.some.inj hj).symm⟩
  · rw [Finmap.lookup_insert_of_ne _ hjk] at hj
    exact Kept.refl h j n' hj

theorem kept_erase (h : Heap κ ν) (k : κ) : Kept c h (h.erase k) := by
  intro j n hj
  by_cases hjk : j = k
  · rw [hjk, Finmap.lookup_erase] at hj
    cases hj
  · rw [Finmap.lookup_erase_ne hjk] at hj
    exact Kept.refl h j n hj

theorem retain_kept {h h' : Heap κ ν} {k : κ} (hretain : retain c h k = some h') : Kept c h h' := by
  obtain ⟨n, hn, rfl⟩ := Option.map_eq_some_iff.mp hretain
  exact kept_recount hn _

theorem free_kept {h h' : Heap κ ν} {k : κ} (hfree : free h k = some h') : Kept c h h' := by
  unfold free at hfree
  split at hfree
  · cases hfree
    exact kept_erase h k
  · cases hfree

theorem release_kept (fuel : Nat) {h h' : Heap κ ν} {k : κ} (hrelease : release c fuel h k = some h') :
    Kept c h h' := by
  induction fuel generalizing h h' k with
  | zero => cases hrelease
  | succ fuel ih =>
    rw [release] at hrelease
    obtain ⟨n, hn, hrest⟩ := Option.bind_eq_some_iff.mp hrelease
    have hcount := kept_recount (c := c) hn (c.count n - 1)
    dsimp only at hrest
    split at hrest
    · cases hlink : c.link n with
      | none =>
        rw [hlink] at hrest
        exact hcount.trans (free_kept hrest)
      | some t =>
        rw [hlink] at hrest
        obtain ⟨h'', ht, hfree⟩ := Option.bind_eq_some_iff.mp hrest
        exact (hcount.trans (ih ht)).trans (free_kept hfree)
    · cases hrest
      exact hcount

variable (c) in
/-- Cells that are in both heaps differ in their counts only. Unlike `Kept` this allows
for new cells. -/
def Agrees (h h' : Heap κ ν) : Prop :=
  ∀ k n n', h.lookup k = some n → h'.lookup k = some n' → ∃ i, n' = c.recount n i

theorem Kept.agrees {h h' : Heap κ ν} (hkept : Kept c h h') : Agrees c h h' := by
  intro k n n' hn hn'
  obtain ⟨m, i, hm, rfl⟩ := hkept k n' hn'
  rw [hn] at hm
  cases hm
  exact ⟨i, rfl⟩

theorem agrees_insert {h : Heap κ ν} {k : κ} (n : ν) (hk : k ∉ h) : Agrees c h (h.insert k n) := by
  intro j m m' hm hm'
  have hjk : j ≠ k := by
    rintro rfl
    exact hk (Finmap.mem_of_lookup_eq_some hm)
  rw [Finmap.lookup_insert_of_ne _ hjk, hm] at hm'
  cases hm'
  exact ⟨c.count m, (c.recount_count m).symm⟩

theorem Agrees.kept {h h' h'' : Heap κ ν} (hagrees : Agrees c h h') (hkept : Kept c h' h'') :
    Agrees c h h'' := by
  intro k n n'' hn hn''
  obtain ⟨n', j, hn', rfl⟩ := hkept k n'' hn''
  obtain ⟨i, rfl⟩ := hagrees k n n' hn hn'
  exact ⟨j, c.recount_recount n i j⟩

namespace Accounted
variable {h : Heap κ ν} {owners : Multiset κ} {k : κ} {n : ν}

/-- Changing the owners of one cell and its count with them. -/
theorem recount (ha : Accounted c h owners) (hk : h.lookup k = some n) {owners' : Multiset κ} {i : Int}
    (hi : i = ((owners' + links c h).count k : Nat)) (hpos : 0 < i)
    (hothers : ∀ j, j ≠ k → owners'.count j = owners.count j) :
    Accounted c (h.insert k (c.recount n i)) owners' := by
  have hmem := Finmap.mem_of_lookup_eq_some hk
  refine ⟨fun j m hj => ?_, fun j m hj => ?_, fun j hj => ?_⟩
  · rw [links_recount c hk]
    by_cases hjk : j = k
    · subst hjk
      rw [Finmap.lookup_insert] at hj
      cases hj
      rw [c.count_recount, hi]
    · rw [Finmap.lookup_insert_of_ne _ hjk] at hj
      rw [ha.count j m hj, Multiset.count_add, Multiset.count_add, hothers j hjk]
  · by_cases hjk : j = k
    · subst hjk
      rw [Finmap.lookup_insert] at hj
      cases hj
      rw [c.count_recount]
      exact hpos
    · rw [Finmap.lookup_insert_of_ne _ hjk] at hj
      exact ha.live j m hj
  · rw [links_recount c hk] at hj
    rw [Finmap.mem_insert]
    by_cases hjk : j = k
    · exact Or.inl hjk
    · refine Or.inr (ha.closed j ?_)
      rw [← Multiset.count_pos, Multiset.count_add, hothers j hjk, ← Multiset.count_add,
        Multiset.count_pos] at hj
      exact hj

/-- One more owner of a cell that is there. -/
theorem retain (ha : Accounted c h owners) (hk : k ∈ h) :
    ∃ h', RefCount.retain c h k = some h' ∧ Accounted c h' (k ::ₘ owners) ∧ Kept c h h' := by
  obtain ⟨n, hn⟩ := Finmap.mem_iff.mp hk
  refine ⟨_, by rw [RefCount.retain, hn, Option.map_some], ?_, kept_recount hn _⟩
  have hcount := ha.count k n hn
  have hlive := ha.live k n hn
  refine ha.recount hn ?_ (by omega) fun j hj => Multiset.count_cons_of_ne hj _
  rw [Multiset.cons_add, Multiset.count_cons_self, hcount]
  rfl

/-- A new cell, whose link was owned before. -/
theorem alloc (ha : Accounted c h (linkOf c n + owners)) (hk : k ∉ h) (hcount : c.count n = 1) :
    Accounted c (h.insert k n) (k ::ₘ owners) := by
  have habsent : (linkOf c n + owners + links c h).count k = 0 :=
    Multiset.count_eq_zero.mpr fun hmem => hk (ha.closed k hmem)
  have hlinks : k ::ₘ owners + links c (h.insert k n) = k ::ₘ (linkOf c n + owners + links c h) := by
    rw [links_insert_new c n hk, Multiset.cons_add, ← add_assoc, add_comm owners]
  refine ⟨fun j m hj => ?_, fun j m hj => ?_, fun j hj => ?_⟩
  · rw [hlinks]
    by_cases hjk : j = k
    · subst hjk
      rw [Finmap.lookup_insert] at hj
      cases hj
      rw [Multiset.count_cons_self, habsent, hcount]
      rfl
    · rw [Finmap.lookup_insert_of_ne _ hjk] at hj
      rw [Multiset.count_cons_of_ne hjk, ha.count j m hj]
  · by_cases hjk : j = k
    · subst hjk
      rw [Finmap.lookup_insert] at hj
      cases hj
      rw [hcount]
      decide
    · rw [Finmap.lookup_insert_of_ne _ hjk] at hj
      exact ha.live j m hj
  · rw [hlinks] at hj
    rw [Finmap.mem_insert]
    rcases Multiset.mem_cons.mp hj with hj | hj
    · exact Or.inl hj
    · exact Or.inr (ha.closed j hj)

/-- The heap without a cell that has one owner and no link to it, whose own link is then
owned outside. -/
theorem drop (ha : Accounted c h (k ::ₘ owners)) (hk : h.lookup k = some n) (hone : c.count n = 1) :
    Accounted c (h.erase k) (linkOf c n + owners) := by
  have hlinks : linkOf c n + owners + links c (h.erase k) = owners + links c h := by
    rw [links_of_lookup c hk, add_comm (linkOf c n) owners, add_assoc]
  have hzero : (owners + links c h).count k = 0 := by
    have hcount := ha.count k n hk
    rw [Multiset.cons_add, Multiset.count_cons_self] at hcount
    omega
  refine ⟨fun j m hj => ?_, fun j m hj => ?_, fun j hj => ?_⟩
  · have hjk : j ≠ k := by
      rintro rfl
      rw [Finmap.lookup_erase] at hj
      cases hj
    rw [Finmap.lookup_erase_ne hjk] at hj
    rw [hlinks, ha.count j m hj, Multiset.cons_add, Multiset.count_cons_of_ne hjk]
  · exact ha.live j m (by
      by_cases hjk : j = k
      · rw [hjk, Finmap.lookup_erase] at hj
        cases hj
      · rwa [Finmap.lookup_erase_ne hjk] at hj)
  · rw [hlinks] at hj
    rw [Finmap.mem_erase]
    refine ⟨?_, ha.closed j (by rw [Multiset.cons_add]; exact Multiset.mem_cons_of_mem hj)⟩
    rintro rfl
    exact Multiset.count_eq_zero.mp hzero hj

end Accounted

/-! ### Releasing -/

theorem insert_erase_comm (h : Heap κ ν) {j k : κ} (m : ν) (hjk : j ≠ k) :
    (h.insert j m).erase k = (h.erase k).insert j m := by
  apply Finmap.ext_lookup
  intro i
  by_cases hik : i = k
  · rw [hik, Finmap.lookup_erase, Finmap.lookup_insert_of_ne _ hjk.symm, Finmap.lookup_erase]
  · rw [Finmap.lookup_erase_ne hik]
    by_cases hij : i = j
    · rw [hij, Finmap.lookup_insert, Finmap.lookup_insert]
    · rw [Finmap.lookup_insert_of_ne _ hij, Finmap.lookup_insert_of_ne _ hij, Finmap.lookup_erase_ne hik]

/-- Freeing takes no notice of a cell that is not involved. -/
theorem free_frame {h h' : Heap κ ν} {j k : κ} (m : ν) (hfree : free h k = some h') (hj : j ∉ h) :
    j ∉ h' ∧ free (h.insert j m) k = some (h'.insert j m) := by
  unfold free at hfree ⊢
  split at hfree
  · rename_i hk
    cases hfree
    have hjk : j ≠ k := fun hjk => hj (hjk ▸ hk)
    refine ⟨fun hmem => hj (Finmap.mem_erase.mp hmem).2, ?_⟩
    rw [if_pos (Finmap.mem_insert.mpr (Or.inr hk)), insert_erase_comm h m hjk]
  · cases hfree

/-- Nor does releasing. -/
theorem release_frame {j : κ} (m : ν) (fuel : Nat) {h h' : Heap κ ν} {k : κ}
    (hrelease : release c fuel h k = some h') (hj : j ∉ h) :
    j ∉ h' ∧ release c fuel (h.insert j m) k = some (h'.insert j m) := by
  induction fuel generalizing h h' k with
  | zero => cases hrelease
  | succ fuel ih =>
    rw [release] at hrelease ⊢
    obtain ⟨n, hn, hrest⟩ := Option.bind_eq_some_iff.mp hrelease
    have hjk : j ≠ k := fun hjk => hj (hjk ▸ Finmap.mem_of_lookup_eq_some hn)
    have hj' : j ∉ h.insert k (c.recount n (c.count n - 1)) := fun hmem =>
      (Finmap.mem_insert.mp hmem).elim hjk hj
    rw [Finmap.lookup_insert_of_ne _ hjk.symm, hn, Option.bind_some, Finmap.insert_insert_of_ne _ hjk]
    dsimp only at hrest ⊢
    split at hrest
    · rename_i hdead
      rw [if_pos hdead]
      cases hlink : c.link n with
      | none =>
        rw [hlink] at hrest
        exact free_frame m hrest hj'
      | some t =>
        rw [hlink] at hrest
        obtain ⟨h'', ht, hfree⟩ := Option.bind_eq_some_iff.mp hrest
        obtain ⟨hj'', ht'⟩ := ih ht hj'
        dsimp only
        rw [ht', Option.bind_some]
        exact free_frame m hfree hj''
    · rename_i halive
      cases hrest
      rw [if_neg halive]
      exact ⟨hj', rfl⟩

/-- One owner less, with as much fuel as there are cells. When the last owner of a cell
goes, the release runs on in the heap without it. -/
theorem Accounted.release {h : Heap κ ν} {owners : Multiset κ} {k : κ} (fuel : Nat)
    (hfuel : h.keys.card ≤ fuel) (ha : Accounted c h (k ::ₘ owners)) :
    ∃ h', RefCount.release c fuel h k = some h' ∧ Accounted c h' owners ∧ Kept c h h' := by
  have hmem : k ∈ h := ha.closed k (by rw [Multiset.cons_add]; exact Multiset.mem_cons_self ..)
  obtain ⟨n, hn⟩ := Finmap.mem_iff.mp hmem
  induction fuel generalizing h k n owners with
  | zero =>
    have hempty := Finset.card_eq_zero.mp (Nat.le_zero.mp hfuel)
    rw [← Finmap.mem_keys, hempty] at hmem
    exact absurd hmem (Finset.notMem_empty k)
  | succ fuel ih =>
    have hcount := ha.count k n hn
    have hlive := ha.live k n hn
    rw [Multiset.cons_add, Multiset.count_cons_self] at hcount
    by_cases hdead : c.count n - 1 ≤ 0
    · have hdrop := ha.drop hn (by omega)
      have hdec : h.insert k (c.recount n (c.count n - 1)) =
          (h.erase k).insert k (c.recount n (c.count n - 1)) := (insert_insert_erase ..).symm
      cases hlink : c.link n with
      | none =>
        refine ⟨h.erase k, ?_, ?_, kept_erase h k⟩
        · simp only [RefCount.release, hn, Option.bind_some, if_pos hdead, hlink, free]
          rw [if_pos (Finmap.mem_insert.mpr (Or.inl rfl)), hdec, erase_insert _ Finmap.notMem_erase_self]
        · rwa [linkOf, hlink, Option.elim_none, zero_add] at hdrop
      | some t =>
        rw [linkOf, hlink, Option.elim_some, Multiset.singleton_add] at hdrop
        have hsmaller : (h.erase k).keys.card ≤ fuel := by
          rw [Finmap.keys_erase, Finset.card_erase_of_mem (Finmap.mem_keys.mpr hmem)]
          omega
        have htmem : t ∈ h.erase k :=
          hdrop.closed t (by rw [Multiset.cons_add]; exact Multiset.mem_cons_self ..)
        obtain ⟨m, hm⟩ := Finmap.mem_iff.mp htmem
        obtain ⟨h', hrelease, ha', hkept⟩ := ih hsmaller hdrop htmem m hm
        obtain ⟨hk', hframe⟩ :=
          release_frame (c.recount n (c.count n - 1)) fuel hrelease Finmap.notMem_erase_self
        refine ⟨h', ?_, ha', (kept_erase h k).trans hkept⟩
        simp only [RefCount.release, hn, Option.bind_some, if_pos hdead, hlink]
        rw [hdec, hframe, Option.bind_some, free, if_pos (Finmap.mem_insert.mpr (Or.inl rfl)),
          erase_insert _ hk']
    · refine ⟨h.insert k (c.recount n (c.count n - 1)), ?_, ?_, kept_recount hn _⟩
      · simp only [RefCount.release, hn, Option.bind_some, if_neg hdead]
      · refine ha.recount hn ?_ (by omega) fun j hj => (Multiset.count_cons_of_ne hj _).symm
        omega

/-! ### Leaks -/

/-- The links do not go round. -/
def Acyclic (c : Counting κ ν) (h : Heap κ ν) : Prop :=
  ∃ rank : κ → Nat, ∀ k n t, h.lookup k = some n → c.link n = some t → rank t < rank k

theorem Acyclic.kept {h h' : Heap κ ν} (hacyclic : Acyclic c h) (hkept : Kept c h h') : Acyclic c h' := by
  obtain ⟨rank, hrank⟩ := hacyclic
  refine ⟨rank, fun k n' t hk ht => ?_⟩
  obtain ⟨n, i, hn, rfl⟩ := hkept k n' hk
  rw [c.link_recount] at ht
  exact hrank k n t hn ht

/-- From a cell to what it links to, and no further than the heap goes. -/
theorem Acyclic.exists_depth {h : Heap κ ν} (hacyclic : Acyclic c h) :
    ∃ depth : κ → Nat, (∀ k, depth k ≤ h.keys.card) ∧ (∀ k ∈ h, 0 < depth k) ∧
      ∀ k n t, h.lookup k = some n → c.link n = some t → depth t < depth k := by
  obtain ⟨rank, hrank⟩ := hacyclic
  have hself : ∀ k ∈ h, k ∈ h.keys.filter fun j => rank j ≤ rank k := fun k hk =>
    Finset.mem_filter.mpr ⟨Finmap.mem_keys.mpr hk, Nat.le_refl _⟩
  refine ⟨fun k => (h.keys.filter fun j => rank j ≤ rank k).card, fun k => Finset.card_filter_le ..,
    fun k hk => Finset.card_pos.mpr ⟨k, hself k hk⟩, fun k n t hk ht => ?_⟩
  have hlt := hrank k n t hk ht
  apply Finset.card_lt_card
  rw [Finset.ssubset_iff_of_subset]
  · refine ⟨k, hself k (Finmap.mem_of_lookup_eq_some hk), fun hmem => ?_⟩
    have hle := (Finset.mem_filter.mp hmem).2
    omega
  · intro j hj
    obtain ⟨hj, hle⟩ := Finset.mem_filter.mp hj
    exact Finset.mem_filter.mpr ⟨hj, by omega⟩

/-- What holds of a cell when it holds of what the cell links to holds of every cell. -/
theorem Acyclic.induction {h : Heap κ ν} (hacyclic : Acyclic c h) {P : κ → Prop}
    (step : ∀ k n, h.lookup k = some n → (∀ t, c.link n = some t → t ∈ h → P t) → P k) {k : κ} (hk : k ∈ h) :
    P k := by
  obtain ⟨rank, hrank⟩ := hacyclic
  induction hr : rank k using Nat.strong_induction_on generalizing k with
  | _ r ih =>
    subst hr
    obtain ⟨n, hn⟩ := Finmap.mem_iff.mp hk
    exact step k n hn fun t ht hmem => ih (rank t) (hrank k n t hn ht) hmem rfl

/-- A new cell cannot close a circle: nothing links to it. -/
theorem Acyclic.alloc {h : Heap κ ν} {owners : Multiset κ} {k : κ} {n : ν} (hacyclic : Acyclic c h)
    (ha : Accounted c h (linkOf c n + owners)) (hk : k ∉ h) : Acyclic c (h.insert k n) := by
  obtain ⟨rank, hrank⟩ := hacyclic
  have hlinked : ∀ j m t, h.lookup j = some m → c.link m = some t → t ≠ k := by
    rintro j m t hj ht rfl
    exact hk (ha.closed t (Multiset.mem_add.mpr (Or.inr ((mem_links c).mpr ⟨j, m, hj, ht⟩))))
  have hself : ∀ t, c.link n = some t → t ≠ k := by
    rintro t ht rfl
    refine hk (ha.closed t (Multiset.mem_add.mpr (Or.inl (Multiset.mem_add.mpr (Or.inl ?_)))))
    rw [linkOf, ht]
    exact Multiset.mem_singleton_self t
  refine ⟨Function.update rank k ((c.link n).elim 0 rank + 1), fun j m t hj ht => ?_⟩
  by_cases hjk : j = k
  · subst hjk
    rw [Finmap.lookup_insert] at hj
    cases hj
    rw [Function.update_self, Function.update_of_ne (hself t ht), ht]
    exact Nat.lt_succ_self _
  · rw [Finmap.lookup_insert_of_ne _ hjk] at hj
    rw [Function.update_of_ne (hlinked j m t hj ht), Function.update_of_ne hjk]
    exact hrank j m t hj ht

/-- Without owners, a cell is linked to by another, and that by another, and so on; in
an acyclic heap there is none. -/
theorem Accounted.no_leak {h : Heap κ ν} (ha : Accounted c h 0) (hacyclic : Acyclic c h) : h = ∅ := by
  obtain ⟨rank, hrank⟩ := hacyclic
  by_contra hne
  have hkeys : h.keys.Nonempty := by
    rw [Finset.nonempty_iff_ne_empty]
    intro hempty
    refine hne (Finmap.ext_lookup fun k => ?_)
    rw [Finmap.lookup_empty, Finmap.lookup_eq_none, ← Finmap.mem_keys, hempty]
    exact Finset.notMem_empty k
  obtain ⟨k, hk, hmax⟩ := h.keys.exists_max_image rank hkeys
  obtain ⟨n, hn⟩ := Finmap.mem_iff.mp (Finmap.mem_keys.mp hk)
  have hcount := ha.count k n hn
  have hlive := ha.live k n hn
  rw [zero_add] at hcount
  have hlinked : k ∈ links c h := Multiset.count_pos.mp (by omega)
  obtain ⟨j, m, hj, hlink⟩ := (mem_links c).mp hlinked
  have hlt := hrank j m k hj hlink
  have hle := hmax j (Finmap.mem_keys.mpr (Finmap.mem_of_lookup_eq_some hj))
  omega

end Base.RefCount
