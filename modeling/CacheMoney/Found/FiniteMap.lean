import Mathlib.Algebra.Order.BigOperators.Group.Multiset
import Mathlib.Data.Finmap
import Mathlib.Tactic.Ring

/-!
# Finite maps as multisets of pairs

A store is observed in two ways: as the multiset of the pairs it holds, which is what a scan of
its slots gives, and as a finite map, which is what its users think it is. This file relates
Mathlib's `Finmap` to the first reading.

* `upsert k v M` and `M.filter (·.1 ≠ k)` are insertion and erasure on pairs with distinct keys.
* `Reports M k r`: `r` is what `M` holds under `k`.
* `weight c f`: the sum of a cost over the pairs, and how an insertion or an erasure changes it.
* `pairs f`: the pairs of a finite map; `pairs_insert`, `pairs_erase`, `pairs_eraseAll`,
  `card_pairs`, `reports_pairs_iff` translate one reading into the other.
-/

set_option linter.unusedSectionVars false

namespace CacheMoney.Found

variable {K V : Type}

/-! ### Pairs with distinct keys -/

section upsert

variable [DecidableEq K]

/-- Store `v` under `k`.
Source: none
Kind: D -/
def upsert (k : K) (v : V) (M : Multiset (K × V)) : Multiset (K × V) :=
  (k, v) ::ₘ M.filter (fun e => e.1 ≠ k)

/-- Removing a key that is not there changes nothing.
Source: none
Kind: L -/
theorem filter_ne_of_not_mem {k : K} {M : Multiset (K × V)} (h : k ∉ M.map Prod.fst) :
    M.filter (fun e => e.1 ≠ k) = M := by
  rw [Multiset.filter_eq_self]
  rintro e he rfl
  exact h (Multiset.mem_map_of_mem _ he)

/-- Under a new key, an upsert adds an entry.
Source: none
Kind: L -/
theorem upsert_of_not_mem {k : K} {M : Multiset (K × V)} (h : k ∉ M.map Prod.fst) (v : V) :
    upsert k v M = (k, v) ::ₘ M := by
  rw [upsert, filter_ne_of_not_mem h]

/-- Removing the key of an added entry takes the entry off again.
Source: none
Kind: L -/
theorem filter_ne_cons {k : K} {v : V} {M : Multiset (K × V)}
    (h : (((k, v) ::ₘ M).map Prod.fst).Nodup) :
    ((k, v) ::ₘ M).filter (fun e => e.1 ≠ k) = M := by
  rw [Multiset.map_cons, Multiset.nodup_cons] at h
  rw [Multiset.filter_cons_of_neg _ (by simp), filter_ne_of_not_mem h.1]

/-- Keys stay distinct when one is removed.
Source: none
Kind: L -/
theorem nodup_filter_ne {k : K} {M : Multiset (K × V)} (h : (M.map Prod.fst).Nodup) :
    ((M.filter (fun e => e.1 ≠ k)).map Prod.fst).Nodup :=
  Multiset.nodup_of_le (Multiset.map_le_map (Multiset.filter_le _ _)) h

/-- Keys stay distinct under an upsert.
Source: none
Kind: L -/
theorem nodup_upsert {k : K} {v : V} {M : Multiset (K × V)} (h : (M.map Prod.fst).Nodup) :
    ((upsert k v M).map Prod.fst).Nodup := by
  rw [upsert, Multiset.map_cons, Multiset.nodup_cons]
  refine ⟨?_, nodup_filter_ne h⟩
  intro hmem
  obtain ⟨e, he, hek⟩ := Multiset.mem_map.mp hmem
  exact (Multiset.mem_filter.mp he).2 hek

/-- An upsert adds at most one entry.
Source: none
Kind: L -/
theorem card_upsert_le (k : K) (v : V) (M : Multiset (K × V)) :
    (upsert k v M).card ≤ M.card + 1 := by
  rw [upsert, Multiset.card_cons]
  exact Nat.succ_le_succ (Multiset.card_le_card (Multiset.filter_le _ _))

/-- Removing a key removes at most one entry.
Source: none
Kind: L -/
theorem card_le_filter_ne {k : K} {M : Multiset (K × V)} (h : (M.map Prod.fst).Nodup) :
    M.card ≤ (M.filter (fun e => e.1 ≠ k)).card + 1 := by
  by_cases hk : k ∈ M.map Prod.fst
  · obtain ⟨e, he, rfl⟩ := Multiset.mem_map.mp hk
    obtain ⟨N, rfl⟩ := Multiset.exists_cons_of_mem he
    rw [filter_ne_cons h, Multiset.card_cons]
  · rw [filter_ne_of_not_mem hk]
    exact Nat.le_succ _

/-- The entries after an upsert: the new one, and the old ones of other keys.
Source: none
Kind: L -/
theorem mem_upsert {k : K} {v : V} {M : Multiset (K × V)} {e : K × V} :
    e ∈ upsert k v M ↔ e = (k, v) ∨ e ∈ M ∧ e.1 ≠ k := by
  rw [upsert, Multiset.mem_cons, Multiset.mem_filter]

/-- A part that does not hold the key is untouched.
Source: none
Kind: L -/
theorem upsert_add {k : K} {M N : Multiset (K × V)} (h : k ∉ N.map Prod.fst) (v : V) :
    upsert k v (M + N) = upsert k v M + N := by
  rw [upsert, upsert, Multiset.filter_add, filter_ne_of_not_mem h, Multiset.cons_add]

end upsert

/-- What a search for `k` may report.
Source: none
Kind: D -/
def Reports (M : Multiset (K × V)) (k : K) (r : Option V) : Prop := ∀ v, r = some v ↔ (k, v) ∈ M

/-- A key that is not stored is reported absent.
Source: none
Kind: L -/
theorem reports_none {M : Multiset (K × V)} {k : K} (h : k ∉ M.map Prod.fst) :
    Reports M k none := by
  intro v
  simp only [reduceCtorEq, false_iff]
  exact fun hmem => h (Multiset.mem_map_of_mem Prod.fst hmem)

/-- Two multisets of pairs with distinct keys are equal if they have the same members.
Source: none
Kind: L -/
theorem eq_of_mem_iff {M N : Multiset (K × V)} (hM : (M.map Prod.fst).Nodup)
    (hN : (N.map Prod.fst).Nodup) (h : ∀ e, e ∈ M ↔ e ∈ N) : M = N :=
  ((Multiset.Nodup.of_map _ hM).ext (Multiset.Nodup.of_map _ hN)).mpr h

/-! ### Finite maps -/

/-- A finite map from `K` to `V`.
Source: none
Kind: D -/
abbrev FinMap (K V : Type) := Finmap (fun _ : K => V)

/-- The pairs of a finite map.
Source: none
Kind: D -/
def pairs (f : FinMap K V) : Multiset (K × V) := f.entries.map fun e => (e.1, e.2)

/-- The keys of the entries are the keys of the map.
Source: none
Kind: L -/
theorem map_fst_pairs (f : FinMap K V) : (pairs f).map Prod.fst = f.keys.val := by
  rw [pairs, Multiset.map_map]
  rfl

/-- The entries of a map have distinct keys.
Source: none
Kind: L -/
theorem nodup_keys_pairs (f : FinMap K V) : ((pairs f).map Prod.fst).Nodup := by
  rw [map_fst_pairs]
  exact f.keys.nodup

/-- The empty map has no entries.
Source: none
Kind: L -/
@[simp] theorem pairs_empty : pairs (∅ : FinMap K V) = 0 := rfl

/-- A map has as many entries as keys.
Source: none
Kind: L -/
theorem card_pairs (f : FinMap K V) : (pairs f).card = f.keys.card := by
  rw [Finset.card_def, ← map_fst_pairs, Multiset.card_map]

variable [DecidableEq K]

/-- An entry is one that a lookup finds.
Source: none
Kind: L -/
theorem mem_pairs {f : FinMap K V} {e : K × V} : e ∈ pairs f ↔ f.lookup e.1 = some e.2 := by
  rw [Finmap.lookup_eq_some_iff, pairs, Multiset.mem_map]
  constructor
  · rintro ⟨s, hs, rfl⟩
    exact hs
  · intro h
    exact ⟨_, h, rfl⟩

/-- An insertion is an upsert of the entries.
Source: none
Kind: L -/
theorem pairs_insert (f : FinMap K V) (k : K) (v : V) :
    pairs (f.insert k v) = upsert k v (pairs f) := by
  apply eq_of_mem_iff (nodup_keys_pairs _) (nodup_upsert (nodup_keys_pairs _))
  rintro ⟨k', v'⟩
  rw [mem_pairs, mem_upsert, mem_pairs]
  by_cases hk : k' = k
  · subst hk
    rw [Finmap.lookup_insert]
    simp [eq_comm]
  · rw [Finmap.lookup_insert_of_ne _ hk]
    simp [hk]

/-- An erasure filters the entries.
Source: none
Kind: L -/
theorem pairs_erase (f : FinMap K V) (k : K) :
    pairs (f.erase k) = (pairs f).filter (fun e => e.1 ≠ k) := by
  apply eq_of_mem_iff (nodup_keys_pairs _) (nodup_filter_ne (nodup_keys_pairs _))
  rintro ⟨k', v'⟩
  rw [mem_pairs, Multiset.mem_filter, mem_pairs]
  by_cases hk : k' = k
  · subst hk
    rw [Finmap.lookup_erase]
    simp
  · rw [Finmap.lookup_erase_ne hk]
    simp [hk]

/-- Several keys taken out.
Source: none
Kind: D -/
def eraseAll (f : FinMap K V) (keys : List K) : FinMap K V := keys.foldl (fun f k => f.erase k) f

/-- Erasing several keys filters the entries by all of them.
Source: none
Kind: L -/
theorem pairs_eraseAll (keys : List K) : ∀ f : FinMap K V,
    pairs (eraseAll f keys) = (pairs f).filter (fun e => e.1 ∉ keys) := by
  induction keys with
  | nil =>
      intro f
      simp [eraseAll]
  | cons k keys ih =>
      intro f
      rw [eraseAll, List.foldl_cons]
      rw [← eraseAll, ih, pairs_erase, Multiset.filter_filter]
      simp only [List.mem_cons, not_or, and_comm]

/-- What the entries report under a key is what a lookup gives.
Source: none
Kind: L -/
theorem reports_pairs_iff {f : FinMap K V} {k : K} {r : Option V} :
    Reports (pairs f) k r ↔ r = f.lookup k := by
  constructor
  · intro h
    apply Option.ext
    intro v
    rw [h v, mem_pairs]
  · rintro rfl v
    rw [mem_pairs]

/-- Pairs with distinct keys are the pairs of a finite map.
Source: none
Kind: L -/
theorem exists_pairs_eq {M : Multiset (K × V)} (h : (M.map Prod.fst).Nodup) :
    ∃ f : FinMap K V, pairs f = M := by
  induction M using Multiset.induction_on with
  | empty => exact ⟨∅, rfl⟩
  | cons e M ih =>
      rw [Multiset.map_cons, Multiset.nodup_cons] at h
      obtain ⟨f, rfl⟩ := ih h.2
      exact ⟨f.insert e.1 e.2, by rw [pairs_insert, upsert_of_not_mem h.1]⟩

/-- The entries of a map with a stored key: that one, and the rest.
Source: none
Kind: L -/
theorem pairs_erase_of_lookup {f : FinMap K V} {k : K} {v : V} (h : f.lookup k = some v) :
    pairs f = (k, v) ::ₘ pairs (f.erase k) := by
  have hne : k ∉ (pairs (f.erase k)).map Prod.fst := by
    rw [map_fst_pairs]
    exact Finmap.notMem_erase_self
  apply eq_of_mem_iff (nodup_keys_pairs f)
  · rw [Multiset.map_cons, Multiset.nodup_cons]
    exact ⟨hne, nodup_keys_pairs _⟩
  · rintro ⟨k', v'⟩
    rw [Multiset.mem_cons, pairs_erase, Multiset.mem_filter, mem_pairs]
    by_cases hk : k' = k
    · subst hk
      simp [h, eq_comm]
    · simp [hk]

/-- Erasing a key that is not stored changes nothing.
Source: none
Kind: L -/
theorem erase_of_lookup_none {f : FinMap K V} {k : K} (h : f.lookup k = none) :
    f.erase k = f := by
  apply Finmap.ext_lookup
  intro k'
  by_cases hk : k' = k
  · subst hk
    rw [Finmap.lookup_erase, h]
  · rw [Finmap.lookup_erase_ne hk]

/-! ### Weights -/

/-- The total weight of the pairs of a finite map.
Source: none
Kind: D -/
def weight (c : K → V → ℤ) (f : FinMap K V) : ℤ := ((pairs f).map fun e => c e.1 e.2).sum

/-- An erasure takes the weight of what was stored off.
Source: none
Kind: L -/
theorem weight_erase (c : K → V → ℤ) (f : FinMap K V) (k : K) :
    weight c (f.erase k) = weight c f - (f.lookup k).elim 0 (c k) := by
  cases h : f.lookup k with
  | none => simp [erase_of_lookup_none h]
  | some v => simp [weight, pairs_erase_of_lookup h]

/-- An insertion adds the difference to what was stored.
Source: none
Kind: L -/
theorem weight_insert (c : K → V → ℤ) (f : FinMap K V) (k : K) (v : V) :
    weight c (f.insert k v) = weight c f + (c k v - (f.lookup k).elim 0 (c k)) := by
  have h := weight_erase c f k
  have hins : pairs (f.insert k v) = (k, v) ::ₘ pairs (f.erase k) := by
    rw [pairs_insert, pairs_erase, upsert]
  rw [weight, hins, Multiset.map_cons, Multiset.sum_cons]
  rw [weight] at h
  rw [h]
  ring

/-- If no entry has a negative weight, the map has none.
Source: none
Kind: L -/
theorem weight_nonneg {c : K → V → ℤ} (hc : ∀ k v, 0 ≤ c k v) (f : FinMap K V) :
    0 ≤ weight c f := by
  apply Multiset.sum_nonneg
  intro x hx
  obtain ⟨e, -, rfl⟩ := Multiset.mem_map.mp hx
  exact hc e.1 e.2

end CacheMoney.Found
