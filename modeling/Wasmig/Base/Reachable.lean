import Mathlib.Logic.Relation
import Wasmig.Base.RefCount

/-! What the owners of reference-counted cells reach.

Links lead from an owner to the cells it reaches (`Reached`). In an accounted heap whose
links do not go round these are all the cells there are (`Accounted.mem_iff_reached`), so
counting collects what tracing would: of the cells of a heap, a heap kept from it has
those that the owners left reach (`Kept.mem_iff_reached`), and is the same heap if the
owners are the same (`Kept.eq_of_accounted`). -/
namespace Base.RefCount
open Relation

variable {κ ν : Type} [DecidableEq κ]

/-- The cell at `k` links to `t`. -/
def LinksTo (c : Counting κ ν) (h : Heap κ ν) (k t : κ) : Prop := ∃ n, h.lookup k = some n ∧ c.link n = some t

/-- Links lead from an owner to `k`. -/
def Reached (c : Counting κ ν) (h : Heap κ ν) (owners : Multiset κ) (k : κ) : Prop :=
  ∃ o ∈ owners, ReflTransGen (LinksTo c h) o k

variable {c : Counting κ ν} {h h' : Heap κ ν} {owners : Multiset κ} {j k t : κ}

/-- What an accounted cell links to is there. -/
theorem Accounted.linked_mem (ha : Accounted c h owners) (hlink : LinksTo c h j k) : k ∈ h := by
  obtain ⟨n, hn, hk⟩ := hlink
  apply ha.closed k
  exact Multiset.mem_add.mpr (Or.inr ((mem_links c).mpr ⟨j, n, hn, hk⟩))

/-- Links from cells that are there lead to cells that are there. -/
theorem Accounted.path_mem (ha : Accounted c h owners) (hj : j ∈ h) (hpath : ReflTransGen (LinksTo c h) j k) :
    k ∈ h := by
  induction hpath with
  | refl => exact hj
  | tail _ hlink _ => exact ha.linked_mem hlink

theorem Accounted.owner_mem (ha : Accounted c h owners) (hk : k ∈ owners) : k ∈ h :=
  ha.closed k (Multiset.mem_add.mpr (Or.inl hk))

/-- A cell that is there is counted on, by an owner or by a link to it. -/
theorem Accounted.owned_or_linked (ha : Accounted c h owners) (hk : k ∈ h) :
    k ∈ owners ∨ ∃ j, LinksTo c h j k := by
  obtain ⟨n, hn⟩ := Finmap.mem_iff.mp hk
  have hcount := ha.count k n hn
  have hlive := ha.live k n hn
  have hmem : k ∈ owners + links c h := Multiset.count_pos.mp (by omega)
  rcases Multiset.mem_add.mp hmem with howner | hlinked
  · exact Or.inl howner
  · obtain ⟨j, m, hj, hlink⟩ := (mem_links c).mp hlinked
    exact Or.inr ⟨j, m, hj, hlink⟩

/-- Going back along the links of an acyclic heap comes to an owner. -/
theorem Accounted.reached (ha : Accounted c h owners) (hacyclic : Acyclic c h) (hk : k ∈ h) :
    Reached c h owners k := by
  obtain ⟨rank, hrank⟩ := hacyclic
  obtain ⟨top, -, hmax⟩ := h.keys.exists_max_image rank ⟨k, Finmap.mem_keys.mpr hk⟩
  -- The rank of what links to a cell is greater, and no rank exceeds that of `top`.
  induction hd : rank top - rank k using Nat.strong_induction_on generalizing k with
  | _ d ih =>
    rcases ha.owned_or_linked hk with howner | ⟨j, hlink⟩
    · exact ⟨k, howner, .refl⟩
    · have hj : j ∈ h := by
        obtain ⟨m, hm, -⟩ := hlink
        exact Finmap.mem_of_lookup_eq_some hm
      have hlt : rank k < rank j := by
        obtain ⟨m, hm, ht⟩ := hlink
        exact hrank j m k hm ht
      have hle := hmax j (Finmap.mem_keys.mpr hj)
      obtain ⟨o, ho, hpath⟩ := ih (rank top - rank j) (by omega) hj rfl
      exact ⟨o, ho, hpath.tail hlink⟩

theorem Accounted.mem_iff_reached (ha : Accounted c h owners) (hacyclic : Acyclic c h) :
    k ∈ h ↔ Reached c h owners k := by
  constructor
  · exact ha.reached hacyclic
  · intro hreached
    obtain ⟨o, ho, hpath⟩ := hreached
    exact ha.path_mem (ha.owner_mem ho) hpath

/-! ### What is kept -/

/-- A heap kept from another has no other links than this. -/
theorem Kept.linksTo (hkept : Kept c h h') (hlink : LinksTo c h' j k) : LinksTo c h j k := by
  obtain ⟨n', hn', hk⟩ := hlink
  obtain ⟨n, i, hn, rfl⟩ := hkept j n' hn'
  rw [c.link_recount] at hk
  exact ⟨n, hn, hk⟩

/-- And it has the links of the cells it still has. -/
theorem Kept.linksTo_of_mem (hkept : Kept c h h') (hlink : LinksTo c h j k) (hj : j ∈ h') : LinksTo c h' j k := by
  obtain ⟨n, hn, hk⟩ := hlink
  obtain ⟨n', hn'⟩ := Finmap.mem_iff.mp hj
  obtain ⟨m, i, hm, rfl⟩ := hkept j n' hn'
  rw [hn] at hm
  cases hm
  refine ⟨_, hn', ?_⟩
  rw [c.link_recount]
  exact hk

/-- Of the cells of a heap, those stay that the owners left reach. -/
theorem Kept.mem_iff_reached (hkept : Kept c h h') (ha : Accounted c h' owners) (hacyclic : Acyclic c h) :
    k ∈ h' ↔ Reached c h owners k := by
  constructor
  · intro hk
    obtain ⟨o, ho, hpath⟩ := ha.reached (hacyclic.kept hkept) hk
    exact ⟨o, ho, ReflTransGen.mono (fun _ _ => hkept.linksTo) _ _ hpath⟩
  · intro hreached
    obtain ⟨o, ho, hpath⟩ := hreached
    induction hpath with
    | refl => exact ha.owner_mem ho
    | tail _ hlink ih => exact ha.linked_mem (hkept.linksTo_of_mem hlink ih)

theorem Kept.mem (hkept : Kept c h h') (hk : k ∈ h') : k ∈ h := by
  obtain ⟨n', hn'⟩ := Finmap.mem_iff.mp hk
  obtain ⟨n, i, hn, -⟩ := hkept k n' hn'
  exact Finmap.mem_of_lookup_eq_some hn

theorem Kept.erase (hkept : Kept c h h') (k : κ) : Kept c (h.erase k) (h'.erase k) := by
  intro j n' hj
  by_cases hjk : j = k
  · rw [hjk, Finmap.lookup_erase] at hj
    cases hj
  · rw [Finmap.lookup_erase_ne hjk] at hj ⊢
    exact hkept j n' hj

/-- A heap that is kept whole has the links it had. -/
theorem Kept.links_eq (hkept : Kept c h h') (hmem : ∀ k ∈ h, k ∈ h') : links c h' = links c h := by
  induction hkeys : h.keys using Finset.induction_on generalizing h h' with
  | empty =>
    have hnone : ∀ k, k ∉ h := fun k hk => by
      rw [← Finmap.mem_keys, hkeys] at hk
      exact Finset.notMem_empty k hk
    have hsame : h' = h := by
      apply Finmap.ext_lookup
      intro k
      rw [Finmap.lookup_eq_none.mpr (hnone k), Finmap.lookup_eq_none]
      exact fun hk => hnone k (hkept.mem hk)
    rw [hsame]
  | insert k keys hk ih =>
    obtain ⟨n, hn⟩ := Finmap.mem_iff.mp (Finmap.mem_keys.mp (hkeys ▸ Finset.mem_insert_self k keys))
    obtain ⟨n', hn'⟩ := Finmap.mem_iff.mp (hmem k (Finmap.mem_of_lookup_eq_some hn))
    obtain ⟨m, i, hm, rfl⟩ := hkept k n' hn'
    cases hn.symm.trans hm
    have hthere : ∀ j ∈ h.erase k, j ∈ h'.erase k := by
      intro j hj
      obtain ⟨hne, hj⟩ := Finmap.mem_erase.mp hj
      exact Finmap.mem_erase.mpr ⟨hne, hmem j hj⟩
    have herased : (h.erase k).keys = keys := by
      rw [Finmap.keys_erase, hkeys, Finset.erase_insert hk]
    rw [links_of_lookup c hn', links_of_lookup c hn, linkOf_recount, ih (hkept.erase k) hthere herased]

/-- With the owners it had, a heap is kept as it was, the counts included. -/
theorem Kept.eq_of_accounted (hkept : Kept c h h') (ha : Accounted c h owners) (ha' : Accounted c h' owners)
    (hacyclic : Acyclic c h) : h' = h := by
  have hmem : ∀ k, k ∈ h' ↔ k ∈ h := fun k =>
    (hkept.mem_iff_reached ha' hacyclic).trans (ha.mem_iff_reached hacyclic).symm
  have hlinks := hkept.links_eq fun k => (hmem k).mpr
  apply Finmap.ext_lookup
  intro k
  cases hk : h.lookup k with
  | none =>
    rw [Finmap.lookup_eq_none, hmem]
    exact Finmap.lookup_eq_none.mp hk
  | some n =>
    obtain ⟨n', hn'⟩ := Finmap.mem_iff.mp ((hmem k).mpr (Finmap.mem_of_lookup_eq_some hk))
    obtain ⟨m, i, hm, rfl⟩ := hkept k n' hn'
    cases hk.symm.trans hm
    have hcount := ha'.count k _ hn'
    rw [c.count_recount, hlinks, ← ha.count k n hk] at hcount
    rw [hn', hcount, c.recount_count]

end Base.RefCount
