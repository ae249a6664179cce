import CacheMoney.Found.Crowding
import CacheMoney.Shardmap.Refinement

/-!
# Table calls return

`set` and `grow` call each other through the overflow valve, so a bound on the recursion is a bound
on the capacities at which the valve can fire.

* `Table.Laid.spread`: what a table holds is spread over its capacity with slack `maxDib`, whatever
  the hasher.
* `Carried.Ready.not_spread`: when the valve fires, the table and the entry in hand are not.
* `set_returns`: so below a capacity over which everything is spread `set` returns. The induction is
  on the doublings left to that capacity; one walk of `set` ends at an empty slot.
* `Table.Sound.insert_returns`, `Table.Sound.delete_returns`: distinct hashes are spread over
  `2 ^ 64` slots, and a shrinking table can at worst grow back to the capacity it came from.
-/

set_option linter.unusedSectionVars false

namespace CacheMoney.Shardmap

open CacheMoney.Found CacheMoney.Found.RobinHood

variable {K V : Type} [DecidableEq K] [Inhabited K] [Inhabited V] {hf : K → UInt64}
  {t : Table K V} {c : Carried K V}

/-! ### Spread contents -/

/-- The hashes of stored pairs.
Source: none
Kind: D -/
def hashesOf (hf : K → UInt64) (M : Multiset (K × V)) : Multiset ℕ := M.map fun e => (hf e.1).toNat

/-- The pairs can be stored in a table of capacity `n`.
Source: `internal/shardmap/table.go` `maxDib`
Kind: D -/
def SpreadOver (hf : K → UInt64) (n : ℕ) (M : Multiset (K × V)) : Prop :=
  Spread n maxDib.toNat (hashesOf hf M)

/-- A count over the hashes of the entries is a count over the occupied slots.
Source: none
Kind: L -/
theorem countP_hashesOf (P : ℕ → Prop) [DecidablePred P] (t : Table K V) :
    (hashesOf hf t.contents).countP P = ((Finset.range t.cap).filter fun i =>
      ∃ s, t.slots[i]? = some s ∧ s.Occupied ∧ P (hf s.key).toNat).card := by
  rw [hashesOf, Multiset.countP_map, ← Multiset.countP_eq_card_filter, Table.contents, countP_bag]
  rfl

/-- Fewer entries are as well spread.
Source: none
Kind: L -/
theorem SpreadOver.mono {n : ℕ} {M N : Multiset (K × V)} (h : SpreadOver hf n M) (hle : N ≤ M) :
    SpreadOver hf n N :=
  Spread.mono h (Multiset.map_le_map hle)

/-- What is spread over a table is spread over a larger one.
Source: none
Kind: L -/
theorem SpreadOver.pow_mono {p q : ℕ} {M : Multiset (K × V)} (h : SpreadOver hf (2 ^ p) M)
    (hle : p ≤ q) : SpreadOver hf (2 ^ q) M :=
  Spread.dvd h (pow_dvd_pow 2 hle)

/-- What a table holds is spread over its capacity: no entry is farther than `maxDib` from home.
Source: `internal/shardmap/table.go` `maxDib`
Kind: P -/
theorem Table.Laid.spread (ht : t.Laid hf) : SpreadOver hf t.cap t.contents := by
  intro a L
  rw [countP_hashesOf]
  have hsub : ((Finset.range t.cap).filter fun i =>
      ∃ s, t.slots[i]? = some s ∧ s.Occupied ∧ InWindow t.cap a L (hf s.key).toNat) ⊆
      (Finset.range (L + maxDib.toNat)).image fun k => (a + k) % t.cap := by
    intro i hi
    obtain ⟨-, s, hs, hocc, k, hk, hhome⟩ := Finset.mem_filter.mp hi
    have hfit := ht.fits i s hs hocc
    have hle : (dibOf s.metadata).toNat ≤ maxDib.toNat := hfit.dib_le
    refine Finset.mem_image.mpr ⟨k + (dibOf s.metadata).toNat, ?_, ?_⟩
    · exact Finset.mem_range.mpr (by omega)
    · rw [← hfit.reach, hfit.hash_eq, ← hhome, Nat.mod_add_mod, Nat.add_assoc]
  have hcard := (Finset.card_le_card hsub).trans Finset.card_image_le
  rwa [Finset.card_range] at hcard

/-- An entry whose home is counted back from the slot it is in.
Source: none
Kind: L -/
theorem Slot.FitsAt.home_eq {n a i e : ℕ} {s : Slot K V} (hfit : s.FitsAt hf n ((a + i) % n))
    (he : (dibOf s.metadata).toNat = e) (hle : e ≤ i) :
    (a + (i - e)) % n = (hf s.key).toNat % n := by
  have hreach := hfit.reach
  rw [he, hfit.hash_eq] at hreach
  have hmod : a + (i - e) + e ≡ (hf s.key).toNat % n + e [MOD n] := by
    rw [show a + (i - e) + e = a + i by omega]
    exact hreach.symm
  exact (Nat.ModEq.add_right_cancel' e hmod).trans (Nat.mod_mod _ n)

/-- When the valve fires, the table and the entry in hand crowd some stretch.
Source: `internal/shardmap/table.go` `set`
Kind: P -/
theorem Carried.Ready.not_spread (hr : c.Ready hf t) (ht : t.Arranged hf)
    (hroom : t.count < t.growAt) (hvalve : maxDib < c.curDib) :
    ¬SpreadOver hf t.cap (upsert c.curKey c.curVal t.contents) := by
  intro hspread
  have hpos : 0 < t.cap := by have := ht.eight_le_cap; omega
  have hfar : maxDib.toNat < c.curDib.toNat := hvalve
  have habsent : c.curKey ∉ t.contents.map Prod.fst := by
    intro hmem
    obtain ⟨i, s, hs, hocc, hkey⟩ := Table.mem_keys.mp hmem
    have hle : (dibOf s.metadata).toNat ≤ maxDib.toNat := (ht.fits i s hs hocc).dib_le
    have hahead := hr.ahead i s hs hocc hkey
    omega
  obtain ⟨j, hj, hempty⟩ := ht.exists_empty (hroom.trans ht.growAt_lt_cap)
  obtain ⟨a, l, hend, hround, hfull⟩ := ht.ordered.crowded (Nat.mod_lt _ hpos) hr.pushed
    (by omega) hj hempty
  have hbound := hspread a (l + 1)
  rw [upsert_of_not_mem habsent, hashesOf, Multiset.map_cons] at hbound
  rw [Multiset.countP_cons_of_pos _ ⟨l, by omega, by rw [← hr.hash_eq]; exact hend⟩] at hbound
  -- The slots of the stretch, each with an entry whose home is in the stretch.
  have hsub : ((Finset.range (l + c.curDib.toNat)).image fun i => (a + i) % t.cap) ⊆
      (Finset.range t.cap).filter fun i => ∃ s, t.slots[i]? = some s ∧ s.Occupied ∧
        InWindow t.cap a (l + 1) (hf s.key).toNat := by
    intro x hx
    obtain ⟨i, hi, rfl⟩ := Finset.mem_image.mp hx
    obtain ⟨e, he, hle, hl⟩ := hfull i (Finset.mem_range.mp hi)
    obtain ⟨s, hs, hocc, hdib⟩ := Table.exists_of_dibAt he
    refine Finset.mem_filter.mpr ⟨Finset.mem_range.mpr (Nat.mod_lt _ hpos), s, hs, hocc, ?_⟩
    exact ⟨i - e, by omega, (ht.fits _ s hs hocc).home_eq hdib hle⟩
  have hcard := Finset.card_le_card hsub
  rw [Finset.card_image_of_injOn, Finset.card_range, ← countP_hashesOf, hashesOf] at hcard
  · omega
  · intro x hx y hy hxy
    rw [Finset.coe_range, Set.mem_Iio] at hx hy
    exact reach_unique (by omega) (by omega) hxy

/-! ### `set`, `grow` and `resize` return -/

/-- The walk of `set` ends: an empty slot lies `m` steps ahead. What happens at the valve is given.
Source: `internal/shardmap/table.go` `set`
Kind: L -/
theorem setLoop_returns {P p F : ℕ} (hpP : p ≤ P)
    (hvalve : ∀ (t : Table K V) (c : Carried K V) (fuel : ℕ), t.Arranged hf → t.cap = 2 ^ p →
      t.count < t.growAt → c.Ready hf t → maxDib < c.curDib →
      SpreadOver hf (2 ^ P) (upsert c.curKey c.curVal t.contents) → F ≤ fuel →
      Returns (Table.grow fuel t >>= fun g => Table.set fuel g c.curHash c.curKey c.curVal)
        fun t' => t'.cap ≤ 2 ^ P) (fuel : ℕ) :
    ∀ (t : Table K V) (c : Carried K V) (m : ℕ), t.Arranged hf → t.cap = 2 ^ p →
      t.count < t.growAt → c.Ready hf t →
      SpreadOver hf (2 ^ P) (upsert c.curKey c.curVal t.contents) →
      t.dibAt ((c.i + m) % t.cap) = none → F + m + 1 ≤ fuel →
      Returns (Table.setLoop fuel t c) fun t' => t'.cap ≤ 2 ^ P := by
  induction fuel with
  | zero =>
      intro t c m _ _ _ _ _ _ hfuel
      omega
  | succ fuel ih =>
      intro t c m ht hcap hroom hr hspread hempty hfuel
      have hcapP : t.cap ≤ 2 ^ P := by
        rw [hcap]
        exact Nat.pow_le_pow_right (by omega) hpP
      rw [Table.setLoop]
      split_ifs with hv
      · exact hvalve t c fuel ht hcap hroom hr hv hspread (by omega)
      · have hmax : c.curDib ≤ maxDib := UInt16.not_lt.mp hv
        have hi := hr.i_lt ht
        rw [index_eq_ok hi]
        have hs : t.slots[c.i]? = some t.slots[c.i] := List.getElem?_eq_getElem hi
        generalize t.slots[c.i] = s at hs
        simp only [ok_bind, store_eq_ok _ hi]
        split_ifs with hz hhit hrich
        · exact ⟨_, rfl, by simpa [Table.cap] using hcapP⟩
        · exact ⟨_, rfl, by simpa [Table.cap] using hcapP⟩
        all_goals
          -- The slot reached is occupied, so the empty one is still ahead.
          have hne : (c.i + m) % t.cap ≠ c.i := by
            intro heq
            rw [heq, Table.dibAt_of_getElem? hs, Slot.dib_of_occupied hz] at hempty
            cases hempty
          have hm : m ≠ 0 := by
            rintro rfl
            exact hne (Nat.mod_eq_of_lt hi)
          obtain ⟨m, rfl⟩ := Nat.exists_eq_succ_of_ne_zero hm
          have hnext : (t.next c.i + m) % t.cap = (c.i + m.succ) % t.cap := by
            rw [ht.next_eq, Nat.mod_add_mod]
            congr 1
            omega
        · obtain ⟨harr, hready, hcont⟩ := hr.rob ht hroom hmax hs hz hrich
          have hcap' : Table.cap { t with slots := t.slots.set c.i c.slot } = t.cap := by
            simp [Table.cap]
          have hspread' : SpreadOver hf (2 ^ P) (upsert s.key s.val
              (Table.contents { t with slots := t.slots.set c.i c.slot })) := by
            rw [upsert_of_not_mem (hready.fresh rfl), hcont]
            exact hspread
          have hempty' : Table.dibAt { t with slots := t.slots.set c.i c.slot }
              ((t.next c.i + m) % Table.cap { t with slots := t.slots.set c.i c.slot }) = none := by
            rw [hcap', hnext, t.dibAt_set hi c.slot t.count, Function.update_of_ne hne]
            exact hempty
          exact ih _ _ m harr (hcap'.trans hcap) hroom hready hspread' hempty' (by omega)
        · refine ih t _ m ht hcap hroom (hr.advance ht hmax hs hz hhit hrich) hspread ?_
            (by omega)
          simp only [hnext]
          exact hempty

/-- `resize` returns, given that `set` does at the capacities it can meet.
Source: `internal/shardmap/table.go` `resize`
Kind: L -/
theorem resize_returns {P lo F fuel : ℕ}
    (ihset : ∀ q, lo ≤ q → q ≤ P → ∀ (t : Table K V) (k : K) (v : V) (fuel : ℕ), t.Arranged hf →
      t.cap = 2 ^ q → t.count < t.growAt → SpreadOver hf (2 ^ P) (upsert k v t.contents) →
      F ≤ fuel → Returns (Table.set fuel t (hf k) k v) fun t' => t'.cap ≤ 2 ^ P)
    (ht : t.Arranged hf) (hlo : 3 ≤ lo) (hP : lo ≤ P)
    (hfit : t.count ≤ 2 ^ lo * loadNum / loadDen) (hspread : SpreadOver hf (2 ^ P) t.contents)
    (hfuel : F + 1 ≤ fuel) :
    Returns (Table.resize fuel t (2 ^ lo)) fun t' => t'.cap ≤ 2 ^ P := by
  obtain ⟨fuel, rfl⟩ : ∃ f, fuel = f + 1 := ⟨fuel - 1, by omega⟩
  rw [Table.resize]
  let I : List (Slot K V) → Table K V → Prop := fun done acc =>
    acc.Arranged hf ∧ acc.contents = bag done ∧ 2 ^ lo ≤ acc.cap ∧ acc.cap ≤ 2 ^ P
  have hloop : Returns (t.slots.foldlM (fun acc s =>
      if s.metadata ≠ 0 then Table.set fuel acc s.hash s.key s.val else pure acc)
      (Table.alloc (2 ^ lo))) (I t.slots) := by
    apply Returns.foldlM I
    · refine ⟨Table.arranged_alloc hlo, by simp, by simp [Table.alloc, Table.cap], ?_⟩
      simpa [Table.alloc, Table.cap] using Nat.pow_le_pow_right (by omega) hP
    · rintro done s rest acc hl ⟨harr, hcont, hcap, hcapP⟩
      split_ifs with hocc
      · obtain ⟨hhash, hroom, hnext⟩ := ht.reinsert hl hocc harr hcont hcap hfit
        obtain ⟨q, -, hq⟩ := harr.cap_pow
        have hqlo : lo ≤ q := (Nat.pow_le_pow_iff_right (by omega)).mp (hq ▸ hcap)
        have hqP : q ≤ P := (Nat.pow_le_pow_iff_right (by omega)).mp (hq ▸ hcapP)
        have hle : bag (done ++ [s]) ≤ t.contents := by
          rw [Table.contents, hl, List.append_cons done s rest, bag_append _ rest]
          exact Multiset.le_add_right _ _
        rw [hhash]
        have hset := ihset q hqlo hqP acc s.key s.val fuel harr hq hroom
          (by rw [hnext]; exact hspread.mono hle) (by omega)
        refine (hset.and (Table.set_correct harr hroom fuel s.key s.val)).mono ?_
        rintro t' ⟨hcap', hst⟩
        exact ⟨hst.arranged, hst.contents_eq.trans hnext, hcap.trans hst.cap_le, hcap'⟩
      · exact ⟨acc, rfl, harr, hcont.trans (bag_concat_of_empty hocc done).symm, hcap, hcapP⟩
  exact hloop.mono fun t' h => h.2.2.2

/-- The pairs stay as spread when one is overwritten or left out.
Source: none
Kind: L -/
theorem SpreadOver.of_upsert {n : ℕ} {k : K} {v : V} {M : Multiset (K × V)}
    (h : SpreadOver hf n (upsert k v M)) (hnd : (M.map Prod.fst).Nodup) : SpreadOver hf n M := by
  by_cases hk : k ∈ M.map Prod.fst
  · obtain ⟨e, he, rfl⟩ := Multiset.mem_map.mp hk
    obtain ⟨rest, rfl⟩ := Multiset.exists_cons_of_mem he
    have hups : upsert e.1 v (e ::ₘ rest) = (e.1, v) ::ₘ rest := by
      rw [upsert, filter_ne_cons hnd]
    unfold SpreadOver hashesOf at h ⊢
    rw [hups, Multiset.map_cons] at h
    rw [Multiset.map_cons]
    exact h
  · rw [upsert_of_not_mem hk] at h
    exact h.mono (Multiset.le_cons_self _ _)

/-- A doubling returns, given that `set` does at the larger capacities.
Source: `internal/shardmap/table.go` `grow`
Kind: L -/
theorem grow_returns {P p F fuel : ℕ}
    (ihset : ∀ q, p + 1 ≤ q → q ≤ P → ∀ (t : Table K V) (k : K) (v : V) (fuel : ℕ), t.Arranged hf →
      t.cap = 2 ^ q → t.count < t.growAt → SpreadOver hf (2 ^ P) (upsert k v t.contents) →
      F ≤ fuel → Returns (Table.set fuel t (hf k) k v) fun t' => t'.cap ≤ 2 ^ P)
    (ht : t.Arranged hf) (hcap : t.cap = 2 ^ p) (hP : p + 1 ≤ P) (hcount : t.count ≤ t.growAt)
    (hspread : SpreadOver hf (2 ^ P) t.contents) (hfuel : F + 2 ≤ fuel) :
    Returns (Table.grow fuel t) fun g => g.cap ≤ 2 ^ P ∧ t.Resized hf (t.cap * 2) g := by
  refine Returns.and ?_ (Table.grow_correct ht hcount fuel)
  obtain ⟨fuel, rfl⟩ : ∃ f, fuel = f + 1 := ⟨fuel - 1, by omega⟩
  have hdouble : t.cap * 2 = 2 ^ (p + 1) := by rw [hcap, pow_succ]
  have hp : 3 ≤ p + 1 := by
    have h8 := ht.eight_le_cap
    rw [hcap, show 8 = 2 ^ 3 from rfl, Nat.pow_le_pow_iff_right (by omega)] at h8
    omega
  rw [Table.grow, hdouble]
  refine resize_returns ihset ht hp hP ?_ hspread (by omega)
  rw [← hdouble]
  have hgrow := ht.growAt_eq
  unfold loadNum loadDen at hgrow ⊢
  omega

/-- **`set` returns** at every capacity from which doubling leads to one over which everything is
spread.
Source: `internal/shardmap/table.go` `set`
Kind: P -/
theorem set_returns (hf : K → UInt64) (P d : ℕ) :
    ∀ (p : ℕ), p + d = P → ∀ (t : Table K V) (k : K) (v : V) (fuel : ℕ), t.Arranged hf →
      t.cap = 2 ^ p → t.count < t.growAt → SpreadOver hf (2 ^ P) (upsert k v t.contents) →
      (d + 1) * (2 ^ P + 4) ≤ fuel →
      Returns (Table.set fuel t (hf k) k v) fun t' => t'.cap ≤ 2 ^ P := by
  induction d using Nat.strong_induction_on with
  | _ d ih =>
      intro p hd t k v fuel ht hcap hroom hspread hfuel
      rw [Nat.add_mul, Nat.one_mul] at hfuel
      have hpos := Nat.two_pow_pos P
      obtain ⟨fuel, rfl⟩ : ∃ f, fuel = f + 1 := ⟨fuel - 1, by omega⟩
      rw [Table.set]
      obtain ⟨j, hj, hempty⟩ := ht.exists_empty (hroom.trans ht.growAt_lt_cap)
      obtain ⟨m, hm, hreach⟩ := exists_reach hj (t.home (hf k))
      have hmP : m < 2 ^ P := by
        have hle : 2 ^ p ≤ 2 ^ P := Nat.pow_le_pow_right (by omega) (by omega)
        omega
      refine setLoop_returns (P := P) (p := p) (F := d * (2 ^ P + 4) + 2) (by omega) ?_ fuel t _ m
        ht hcap hroom (Carried.ready_start ht k v) hspread (by rw [hreach]; exact hempty)
        (by omega)
      -- The valve. At the last capacity it cannot fire; before, the table doubles first.
      · intro t c fuel ht hcap hroom hr hv hspread hfuel
        have hlt : p < P := by
          by_contra hge
          obtain rfl : p = P := by omega
          exact hr.not_spread ht hroom hv (hcap ▸ hspread)
        have ihset : ∀ q, p + 1 ≤ q → q ≤ P → ∀ (t : Table K V) (k : K) (v : V) (fuel : ℕ),
            t.Arranged hf → t.cap = 2 ^ q → t.count < t.growAt →
            SpreadOver hf (2 ^ P) (upsert k v t.contents) → d * (2 ^ P + 4) ≤ fuel →
            Returns (Table.set fuel t (hf k) k v) fun t' => t'.cap ≤ 2 ^ P := by
          intro q hq hqP t k v fuel ht hcap hroom hspread hfuel
          refine ih (P - q) (by omega) q (by omega) t k v fuel ht hcap hroom hspread ?_
          exact (Nat.mul_le_mul_right _ (by omega)).trans hfuel
        refine (grow_returns ihset ht hcap hlt hroom.le (hspread.of_upsert ht.nodup) hfuel).bind ?_
        rintro g ⟨hgP, hg⟩
        obtain ⟨q, -, hq⟩ := hg.arranged.cap_pow
        have hqlo : p + 1 ≤ q := by
          have hle := hg.cap_le
          rw [hq, hcap, ← pow_succ] at hle
          exact (Nat.pow_le_pow_iff_right (by omega)).mp hle
        have hqP : q ≤ P := (Nat.pow_le_pow_iff_right (by omega)).mp (hq ▸ hgP)
        rw [hr.hash_eq]
        exact ihset q hqlo hqP g c.curKey c.curVal fuel hg.arranged hq (hg.count_lt ht hroom.le)
          (by rw [hg.contents_eq]; exact hspread) (by omega)

/-- The hypothesis under which `resize` and `grow` were stated, at every capacity up to `2 ^ P`.
Source: `internal/shardmap/table.go` `set`
Kind: L -/
theorem set_returns_upTo (hf : K → UInt64) {P lo : ℕ} :
    ∀ q, lo ≤ q → q ≤ P → ∀ (t : Table K V) (k : K) (v : V) (fuel : ℕ), t.Arranged hf →
      t.cap = 2 ^ q → t.count < t.growAt → SpreadOver hf (2 ^ P) (upsert k v t.contents) →
      (P - lo + 1) * (2 ^ P + 4) ≤ fuel →
      Returns (Table.set fuel t (hf k) k v) fun t' => t'.cap ≤ 2 ^ P := by
  intro q hq hqP t k v fuel ht hcap hroom hspread hfuel
  refine set_returns hf P (P - q) q (by omega) t k v fuel ht hcap hroom hspread ?_
  exact (Nat.mul_le_mul_right _ (by omega)).trans hfuel

/-! ### Insertion and deletion return -/

/-- `insert` returns if the pairs it leaves are spread over some larger capacity.
Source: `internal/shardmap/table.go` `insert`
Kind: P -/
theorem Table.Sound.insert_returns_of_spread (ht : t.Sound hf) {p P : ℕ} (hcap : t.cap = 2 ^ p)
    (hP : p + 1 ≤ P) {k : K} {v : V} (hspread : SpreadOver hf (2 ^ P) (upsert k v t.contents))
    {fuel : ℕ} (hfuel : (P - p + 1) * (2 ^ P + 4) + 2 ≤ fuel) :
    ∃ t', t.insert fuel (hf k) k v = .ok t' := by
  suffices h : Returns (t.insert fuel (hf k) k v) fun t' => t'.cap ≤ 2 ^ P by
    obtain ⟨t', h, -⟩ := h
    exact ⟨t', h⟩
  unfold Table.insert
  split_ifs with hfull
  · have hF : (P - (p + 1) + 1) * (2 ^ P + 4) ≤ (P - p + 1) * (2 ^ P + 4) :=
      Nat.mul_le_mul_right _ (by omega)
    refine (grow_returns (set_returns_upTo hf) ht.toArranged hcap hP ht.count_le
      (hspread.of_upsert ht.nodup) (by omega)).bind ?_
    rintro g ⟨hgP, hg⟩
    obtain ⟨q, -, hq⟩ := hg.arranged.cap_pow
    have hqlo : p ≤ q := by
      have hle := hg.cap_le
      rw [hq, hcap, ← pow_succ, Nat.pow_le_pow_iff_right (by omega)] at hle
      omega
    have hqP : q ≤ P := (Nat.pow_le_pow_iff_right (by omega)).mp (hq ▸ hgP)
    exact set_returns_upTo hf q hqlo hqP g k v fuel hg.arranged hq
      (hg.count_lt ht.toArranged ht.count_le) (by rw [hg.contents_eq]; exact hspread) (by omega)
  · exact set_returns_upTo hf p le_rfl (by omega) t k v fuel ht.toArranged hcap (by omega) hspread
      (by omega)

/-- Distinct hashes are spread over `2 ^ 64` slots, with one pair of any hash added.
Source: none
Kind: L -/
theorem spreadOver_of_injOn {M : Multiset (K × V)} (hnd : (M.map Prod.fst).Nodup)
    (hinj : ∀ a ∈ M.map Prod.fst, ∀ b ∈ M.map Prod.fst, hf a = hf b → a = b) (k : K) (v : V) :
    SpreadOver hf (2 ^ 64) (upsert k v M) := by
  have hrest : (hashesOf hf (M.filter fun e => e.1 ≠ k)).Nodup := by
    have heq : hashesOf hf M = (M.map Prod.fst).map fun a => (hf a).toNat := by
      rw [hashesOf, Multiset.map_map]
      rfl
    have hall : (hashesOf hf M).Nodup := by
      rw [heq]
      exact hnd.map_on fun a ha b hb hab => hinj a ha b hb (UInt64.toNat_inj.mp hab)
    exact Multiset.nodup_of_le (Multiset.map_le_map (Multiset.filter_le _ M)) hall
  have hlt : ∀ x ∈ hashesOf hf (M.filter fun e => e.1 ≠ k), x < 2 ^ 64 := by
    intro x hx
    obtain ⟨e, -, rfl⟩ := Multiset.mem_map.mp hx
    exact (hf e.1).toNat_lt
  have hone := (spread_of_nodup hrest hlt).cons (hf k).toNat
  unfold SpreadOver hashesOf upsert
  rw [Multiset.map_cons]
  exact hone.slack_mono (by decide)

/-- `insert` returns when the hashes of the stored keys are distinct, whatever the hash of the new
key.
Source: `internal/shardmap/table.go` `insert`
Kind: P -/
theorem Table.Sound.insert_returns (ht : t.Sound hf)
    (hinj : ∀ a ∈ t.keys, ∀ b ∈ t.keys, hf a = hf b → a = b) (k : K) (v : V) :
    ∃ fuel₀, ∀ fuel, fuel₀ ≤ fuel → ∃ t', t.insert fuel (hf k) k v = .ok t' := by
  obtain ⟨p, -, hcap⟩ := ht.cap_pow
  have hspread := spreadOver_of_injOn ht.nodup hinj k v
  exact ⟨_, fun fuel hfuel => ht.insert_returns_of_spread hcap (le_max_left (p + 1) 64)
    (hspread.pow_mono (le_max_right _ _)) hfuel⟩

/-- The backward shift stops: an empty slot lies `m` steps ahead of the hole.
Source: `internal/shardmap/table.go` `delete`
Kind: P -/
theorem Table.shiftBack_returns {M : Multiset (K × V)} (fuel : ℕ) :
    ∀ (t : Table K V) (i m : ℕ), t.Holed hf M i → t.dibAt i ≠ none →
      t.dibAt ((i + m) % t.cap) = none → m ≤ fuel →
      ∃ r, Table.shiftBack fuel t i (t.next i) = .ok r := by
  induction fuel with
  | zero =>
      intro t i m h hocc hempty hm
      have hi : i < t.cap := h.lt
      rw [Nat.le_zero.mp hm, Nat.add_zero, Nat.mod_eq_of_lt hi] at hempty
      exact absurd hempty hocc
  | succ fuel ih =>
      intro t i m h hocc hempty hm
      have hi : i < t.cap := h.lt
      have hj := h.laid.next_lt i
      rw [Table.shiftBack, index_eq_ok hj, ok_bind]
      have hs : t.slots[t.next i]? = some t.slots[t.next i] := List.getElem?_eq_getElem hj
      generalize t.slots[t.next i] = s at hs
      split_ifs with hshift
      · rw [store_eq_ok _ h.lt, ok_bind]
        have hne : (i + m) % t.cap ≠ i := fun heq => hocc (heq ▸ hempty)
        have hm0 : m ≠ 0 := by
          rintro rfl
          exact hne (Nat.mod_eq_of_lt hi)
        obtain ⟨m, rfl⟩ := Nat.exists_eq_succ_of_ne_zero hm0
        have hcap' : Table.cap { t with slots := t.slots.set i s.pulled } = t.cap := by
          simp [Table.cap]
        have hself : t.next i ≠ i := by
          have hcap := h.laid.eight_le_cap
          rw [h.laid.next_eq]
          exact step_ne_self (by omega) hi
        have hdib := t.dibAt_set h.lt s.pulled t.count
        have hocc' : Table.dibAt { t with slots := t.slots.set i s.pulled } (t.next i) ≠ none := by
          rw [hdib, Function.update_of_ne hself, Table.dibAt_of_getElem? hs,
            Slot.dib_of_occupied hshift.1]
          exact Option.some_ne_none _
        have hempty' : Table.dibAt { t with slots := t.slots.set i s.pulled }
            ((t.next i + m) % Table.cap { t with slots := t.slots.set i s.pulled }) = none := by
          have hpos : (t.next i + m) % t.cap = (i + m.succ) % t.cap := by
            rw [h.laid.next_eq, Nat.mod_add_mod]
            congr 1
            omega
          rw [hcap', hpos, hdib, Function.update_of_ne hne]
          exact hempty
        exact ih _ (t.next i) m (h.shift hs hshift.1 hshift.2) hocc' hempty' (by omega)
      · exact ⟨_, rfl⟩

/-- The backward shift, as `delete` starts it.
Source: `internal/shardmap/table.go` `delete`
Kind: L -/
theorem Table.Sound.shiftBack_returns_from (ht : t.Sound hf) {i : ℕ} {s : Slot K V}
    (hs : t.slots[i]? = some s) (hocc : s.Occupied) :
    ∃ m < t.cap, ∀ fuel, m ≤ fuel → ∃ r, Table.shiftBack fuel t i (t.next i) = .ok r := by
  have hi : i < t.slots.length := (List.getElem?_eq_some_iff.mp hs).1
  have hdib : t.dibAt i ≠ none := by
    rw [Table.dibAt_of_getElem? hs, Slot.dib_of_occupied hocc]
    exact Option.some_ne_none _
  obtain ⟨j, hj, hempty⟩ := ht.exists_empty (ht.count_le.trans_lt ht.growAt_lt_cap)
  obtain ⟨m, hm, hreach⟩ := exists_reach hj i
  exact ⟨m, hm, fun fuel hfuel => Table.shiftBack_returns fuel t i m ⟨ht.toLaid, hi, rfl⟩ hdib
    (by rw [hreach]; exact hempty) hfuel⟩

/-- A shrink returns, whatever the hasher: its entries are spread over the capacity they come from.
Source: `internal/shardmap/table.go` `shrink`
Kind: P -/
theorem Table.Arranged.shrink_returns (ht : t.Arranged hf) {fuel : ℕ}
    (hfuel : 2 * (t.cap + 4) + 1 ≤ fuel) :
    Returns (Table.shrink fuel t) fun t' => t'.cap ≤ t.cap := by
  unfold Table.shrink
  split_ifs with hmin hload
  · exact ⟨t, rfl, le_rfl⟩
  · exact ⟨t, rfl, le_rfl⟩
  · obtain ⟨p, hp, hcap⟩ := ht.cap_pow
    have hp4 : 3 < p := by
      rw [hcap] at hmin
      by_contra hle
      exact hmin (Nat.pow_le_pow_right (by omega) (show p ≤ 3 by omega))
    obtain ⟨q, rfl⟩ : ∃ q, p = q + 1 := ⟨p - 1, by omega⟩
    have hhalf : t.cap / 2 = 2 ^ q := by
      rw [hcap, pow_succ, Nat.mul_div_cancel _ (by omega)]
    have hfit : t.count ≤ t.cap / 2 * loadNum / loadDen := by
      unfold shrinkNum shrinkDen at hload
      unfold loadNum loadDen
      omega
    have hspread := ht.spread
    rw [hcap] at hspread hfuel
    rw [hhalf] at hfit ⊢
    have hF : (q + 1 - q + 1) * (2 ^ (q + 1) + 4) + 1 ≤ fuel := by
      rw [Nat.add_sub_cancel_left]
      exact hfuel
    rw [hcap]
    exact resize_returns (set_returns_upTo hf) ht (by omega) (Nat.le_succ q) hfit hspread hF

/-- `delete` returns, whatever the hasher, and never enlarges the table.
Source: `internal/shardmap/table.go` `delete`
Kind: P -/
theorem Table.Sound.delete_returns (ht : t.Sound hf) {fuel : ℕ}
    (hfuel : 2 * (t.cap + 4) + 256 ≤ fuel) (k : K) :
    Returns (t.delete fuel (hf k) k) fun r => r.2.cap ≤ t.cap := by
  unfold Table.delete
  refine (Table.probe_returns ht.toArranged (by omega) k).bind fun found hfound => ?_
  cases found with
  | none => exact ⟨_, rfl, le_rfl⟩
  | some i =>
      obtain ⟨s, hs, hocc, -⟩ := hfound
      simp only [index_eq_ok_iff.mpr hs, ok_bind]
      have hi : i < t.slots.length := (List.getElem?_eq_some_iff.mp hs).1
      have hhole : t.Holed hf (bag (t.slots.set i Slot.zero)) i := ⟨ht.toLaid, hi, rfl⟩
      obtain ⟨m, hm, hshift⟩ := ht.shiftBack_returns_from hs hocc
      obtain ⟨q, hq⟩ := hshift fuel (by omega)
      obtain ⟨hqh, hstop, hcapq, hcountq⟩ := (Table.shiftBack_correct fuel t i hhole).of_ok hq
      simp only [hq, ok_bind, store_eq_ok _ hqh.lt]
      have harr := ht.toArranged.vacated hs hocc hqh hstop hcountq
      have hcap : (q.1.slots.set q.2 Slot.zero).length = t.cap := by
        rw [List.length_set]
        exact hcapq
      refine (harr.shrink_returns (show 2 * (_ + 4) + 1 ≤ fuel by
        rw [Table.cap, hcap]
        omega)).bind fun t' ht' => ?_
      exact ⟨_, rfl, ht'.trans_eq hcap⟩

/-! ### Map calls return -/

variable {S : Type} {m : Map S K V} {f : FinMap K V}

/-- No shard has a larger capacity.
Source: none
Kind: D -/
def Map.Within (c : ℕ) (m : Map S K V) : Prop := ∀ t ∈ m.shards, t.cap ≤ c

/-- Every map has a bound on its capacities.
Source: none
Kind: L -/
theorem Map.exists_within (m : Map S K V) : ∃ c, m.Within c :=
  ⟨(m.shards.map Table.cap).sum, fun _ ht => List.le_sum_of_mem (List.mem_map_of_mem ht)⟩

/-- `Delete` returns with fuel for the largest shard, and keeps the bound.
Source: `internal/shardmap/map.go` `Delete`
Kind: P -/
theorem Map.Represents.delete_returns (h : m.Represents f) {c fuel : ℕ} (hc : m.Within c)
    (hfuel : 2 * (c + 4) + 256 ≤ fuel) (k : K) :
    Returns (m.delete fuel k) fun r =>
      r.2.Within c ∧ r.1 = f.lookup k ∧ r.2.Represents (f.erase k) := by
  refine Returns.and ?_ (h.delete fuel k)
  obtain ⟨t, -, hidx, ht, -⟩ := h.sound.route k
  have hget := index_eq_ok_iff.mp hidx
  have hcap := hc t (List.mem_of_getElem? hget)
  unfold Map.delete
  simp only [hidx, ok_bind]
  refine (ht.delete_returns (by omega) k).bind fun r hr => ?_
  simp only [store_eq_ok _ (List.getElem?_eq_some_iff.mp hget).1, ok_bind]
  refine ⟨_, rfl, ?_⟩
  intro t' ht'
  rcases List.mem_or_eq_of_mem_set ht' with ht' | rfl
  · exact hc t' ht'
  · exact hr.trans hcap

/-- `Swap` returns when the hashes of the stored keys are distinct.
Source: `internal/shardmap/map.go` `Swap`
Kind: P -/
theorem Map.Represents.swap_returns (h : m.Represents f)
    (hinj : ∀ a ∈ f, ∀ b ∈ f, m.hash a = m.hash b → a = b) (k : K) (v : V) :
    ∃ fuel₀, ∀ fuel, fuel₀ ≤ fuel → Returns (m.swap fuel k v) fun r =>
      r.1 = f.lookup k ∧ r.2.Represents (f.insert k v) := by
  obtain ⟨t, rest, hidx, ht, hcont, -⟩ := h.sound.route k
  have hstored : ∀ a ∈ t.keys, a ∈ f := by
    intro a ha
    obtain ⟨e, he, rfl⟩ := Multiset.mem_map.mp ha
    have hmem : e ∈ pairs f := by
      rw [← h.contents_eq, hcont]
      exact Multiset.mem_add.mpr (Or.inl he)
    exact Finmap.mem_of_lookup_eq_some (mem_pairs.mp hmem)
  obtain ⟨fuel₀, hinsert⟩ := ht.insert_returns
    (fun a ha b hb => hinj a (hstored a ha) b (hstored b hb)) k v
  refine ⟨max 256 fuel₀, fun fuel hfuel => ?_⟩
  suffices hret : Returns (m.swap fuel k v) fun _ => True from
    (hret.and (h.swap fuel k v)).mono fun _ hr => hr.2
  obtain ⟨t', ht'⟩ := hinsert fuel ((le_max_right _ _).trans hfuel)
  unfold Map.swap
  simp only [hidx, ok_bind]
  refine (Table.lookup_returns ht.toArranged ((le_max_left _ _).trans hfuel) k).bind
    fun old _ => ?_
  have hlt := (List.getElem?_eq_some_iff.mp (index_eq_ok_iff.mp hidx)).1
  rw [show m.hasher m.seed k = m.hash k from rfl] at hlt ⊢
  simp only [ht', ok_bind, store_eq_ok _ hlt]
  exact ⟨_, rfl, trivial⟩

/-! ### The main result -/

/-- **Table calls return.** Of every reachable table, under any hasher: a search looks at no more
than 256 slots, the backward shift stops within one round, and `delete` returns. If the hashes of
the stored keys are distinct, `insert` returns as well, for every key.
Source: `internal/shardmap/table.go` `set`, `lookup`, `grow`, `resize`, `delete`, `shrink`
Kind: P
Fidelity: exact -/
theorem table_calls_return (hf : K → UInt64) (t : Table K V) (h : t.Reachable hf) :
    ((∀ a ∈ t.keys, ∀ b ∈ t.keys, hf a = hf b → a = b) → ∀ k v,
      ∃ fuel₀, ∀ fuel, fuel₀ ≤ fuel → ∃ t', t.insert fuel (hf k) k v = .ok t') ∧
    (∀ k, ∃ fuel₀, ∀ fuel, fuel₀ ≤ fuel → ∃ r, t.delete fuel (hf k) k = .ok r) ∧
    (∀ k, (∃ r, t.probe (fragOf (hf k)) k 256 (t.home (hf k)) 0 = .ok r) ∧
      ∃ r, t.lookup 256 (hf k) k = .ok r) ∧
    ∀ i s, t.slots[i]? = some s → s.Occupied →
      ∃ r, t.shiftBack t.cap i (t.next i) = .ok r := by
  have ht := h.sound
  refine ⟨fun hinj k v => ht.insert_returns hinj k v,
    fun k => ⟨2 * (t.cap + 4) + 256, fun fuel hfuel => ?_⟩, fun k => ⟨?_, ?_⟩,
    fun i s hs hocc => ?_⟩
  · obtain ⟨r, hr, -⟩ := ht.delete_returns hfuel k
    exact ⟨r, hr⟩
  · obtain ⟨r, hr, -⟩ := Table.probe_returns ht.toArranged le_rfl k
    exact ⟨r, hr⟩
  · obtain ⟨r, hr, -⟩ := Table.lookup_returns ht.toArranged le_rfl k
    exact ⟨r, hr⟩
  · obtain ⟨m, hm, hr⟩ := ht.shiftBack_returns_from hs hocc
    exact hr t.cap hm.le

/-- Distinct hashes that all have the home slot 0 in a small table.
Source: `internal/shardmap/table_test.go` `TestTable_DIBOverflowValve`
Kind: D -/
def crowdedHash (k : ℕ) : UInt64 := UInt64.ofNat k <<< 40

/-- Six keys with one home slot fill a table up to its threshold; the seventh makes it grow.
Source: `internal/shardmap/table.go` `insert`, `grow`
Kind: C -/
theorem table_calls_return_growing :
    ∃ t : Table ℕ ℕ, [(0, 0), (1, 10), (2, 20), (3, 30), (4, 40), (5, 50)].foldlM
        (fun t e => t.insert 300 (crowdedHash e.1) e.1 e.2) (newTable 0) = .ok t ∧
      t.cap = 8 ∧ t.count = t.growAt ∧
      Returns (t.insert 300 (crowdedHash 6) 6 60) (fun t' => t'.cap = 16 ∧ t'.count = 7) ∧
      ∃ fuel₀, ∀ fuel, fuel₀ ≤ fuel → ∃ t', t.insert fuel (crowdedHash 6) 6 60 = .ok t' := by
  have hrun : Returns ([(0, 0), (1, 10), (2, 20), (3, 30), (4, 40), (5, 50)].foldlM
      (fun t e => t.insert 300 (crowdedHash e.1) e.1 e.2) (newTable 0 : Table ℕ ℕ)) fun t =>
      t.cap = 8 ∧ t.count = t.growAt ∧
      Returns (t.insert 300 (crowdedHash 6) 6 60) (fun t' => t'.cap = 16 ∧ t'.count = 7) ∧
      ∀ a ∈ t.keys, ∀ b ∈ t.keys, crowdedHash a = crowdedHash b → a = b := by
    decide +kernel
  obtain ⟨t, ht, hcap, hfull, hgrows, hinj⟩ := hrun
  have hreach : t.Reachable crowdedHash := (Table.Reachable.new 0).inserts ht
  exact ⟨t, ht, hcap, hfull, hgrows, (table_calls_return crowdedHash t hreach).1 hinj 6 60⟩

end CacheMoney.Shardmap
