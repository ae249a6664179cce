import CacheMoney.Found.Canonical
import CacheMoney.Shardmap.Reachable

/-!
# The layout forgets the history

Which slots of a table are occupied, and at which distance, depends on the capacity and on how
many entries have each home bucket, and on nothing else: not on the order of the insertions, not
on keys that came and went, not on growth and shrinkage in between.

* `Table.homes`: the home buckets of the stored entries.
* `Table.Sound.homeCount_eq`: they are the home counts of the library's canonical form.
* `Table.Calls`: a history of calls, with what it stores (`Table.Calls.sound`).
* `layout_canonical`: equal homes, equal layout; and a key that was inserted and deleted has left
  no trace.
-/

set_option linter.unusedSectionVars false

namespace CacheMoney.Shardmap

open CacheMoney.Found CacheMoney.Found.RobinHood

variable {K V : Type} [DecidableEq K] [Inhabited K] [Inhabited V] {hf : K → UInt64}
  {t : Table K V}

/-! ### Home buckets -/

/-- The home buckets of the stored entries.
Source: `internal/shardmap/table.go` `home`
Kind: D -/
def Table.homes (hf : K → UInt64) (t : Table K V) : Multiset ℕ :=
  t.contents.map fun e => t.home (hf e.1)

/-- A count over the entries is a count over the occupied slots.
Source: none
Kind: L -/
theorem count_map_bag {α : Type} [DecidableEq α] (g : K × V → α) (a : α) (l : List (Slot K V)) :
    ((bag l).map g).count a =
      ((Finset.range l.length).filter fun i =>
        ∃ s, l[i]? = some s ∧ s.Occupied ∧ g (s.key, s.val) = a).card := by
  rw [Multiset.count_map, ← Multiset.countP_eq_card_filter, countP_bag]
  simp only [@eq_comm _ a]

/-- The entries of a home, counted by distance and counted by slot.
Source: `internal/shardmap/table_test.go` `checkInvariants`
Kind: L -/
theorem Table.Sound.homeCount_eq (ht : t.Sound hf) (h : ℕ) :
    homeCount t.cap t.dibAt h = (t.homes hf).count (h % t.cap) := by
  have hcap : 0 < t.cap := by have := ht.eight_le_cap; omega
  rw [Table.homes, Table.contents, count_map_bag]
  unfold homeCount
  refine Finset.card_bij (fun m _ => (h + m) % t.cap) ?_ ?_ ?_
  · intro m hm
    obtain ⟨hmn, hdib⟩ := Finset.mem_filter.mp hm
    obtain ⟨s, hs, hocc, hd⟩ := Table.exists_of_dibAt hdib
    have hfit := ht.fits _ s hs hocc
    refine Finset.mem_filter.mpr ⟨Finset.mem_range.mpr (Nat.mod_lt _ hcap), s, hs, hocc, ?_⟩
    have hreach := hfit.reach
    rw [hd, Nat.mod_add_mod] at hreach
    rw [ht.home_eq, ← hfit.hash_eq]
    exact Nat.ModEq.add_right_cancel' m hreach
  · intro m hm m' hm' heq
    exact reach_unique (Finset.mem_range.mp (Finset.mem_filter.mp hm).1)
      (Finset.mem_range.mp (Finset.mem_filter.mp hm').1) heq
  · intro i hi
    obtain ⟨-, s, hs, hocc, hhome⟩ := Finset.mem_filter.mp hi
    have hfit := ht.fits i s hs hocc
    have hi' : (h + (dibOf s.metadata).toNat) % t.cap = i := by
      have hreach := hfit.reach
      rw [hfit.hash_eq, ← ht.home_eq, hhome, Nat.mod_add_mod] at hreach
      exact hreach
    refine ⟨(dibOf s.metadata).toNat, Finset.mem_filter.mpr ⟨Finset.mem_range.mpr hfit.dib_lt, ?_⟩,
      hi'⟩
    rw [hi', Table.dibAt_of_getElem? hs, Slot.dib_of_occupied hocc]

/-- No height exceeds the capacity.
Source: `internal/shardmap/table_test.go` `checkInvariants`
Kind: L -/
theorem Table.Sound.height_le (ht : t.Sound hf) (i : ℕ) : height t.dibAt i ≤ t.cap := by
  unfold height
  cases hd : t.dibAt i with
  | none => exact Nat.zero_le _
  | some d =>
      obtain ⟨s, hs, hocc, rfl⟩ := Table.exists_of_dibAt hd
      exact (ht.fits i s hs hocc).dib_lt

/-- A sound table has an empty slot.
Source: `internal/shardmap/table_test.go` `checkInvariants`
Kind: L -/
theorem Table.Sound.exists_vacant (ht : t.Sound hf) : ∃ j < t.cap, t.dibAt j = none :=
  ht.exists_empty (ht.count_le.trans_lt ht.growAt_lt_cap)

/-- Sound tables of one capacity with the same homes have the same layout.
Source: `internal/shardmap/table_test.go` `TestTable_DeleteRestoresAsIfNeverInserted`
Kind: P -/
theorem Table.Sound.dibAt_eq {K' V' : Type} [DecidableEq K'] [Inhabited K'] [Inhabited V']
    {hf' : K' → UInt64} {t' : Table K' V'} (ht : t.Sound hf) (ht' : t'.Sound hf')
    (hcap : t.cap = t'.cap) (hhomes : t.homes hf = t'.homes hf') (i : ℕ) :
    t.dibAt i = t'.dibAt i := by
  by_cases hi : i < t.cap
  · refine Ordered.canonical ht.ordered ?_ ht.height_le ?_ ht.exists_vacant ?_ ?_ i hi
    · rw [hcap]
      exact ht'.ordered
    · rw [hcap]
      exact ht'.height_le
    · rw [hcap]
      exact ht'.exists_vacant
    · intro h
      rw [ht.homeCount_eq, hhomes, hcap, ht'.homeCount_eq]
  · have hout : ∀ {K V : Type} {t : Table K V}, t.cap ≤ i → t.dibAt i = none := by
      intro K V t hle
      unfold Table.dibAt
      rw [List.getElem?_eq_none hle]
      rfl
    rw [hout (not_lt.mp hi), hout (hcap ▸ not_lt.mp hi)]

/-! ### Histories -/

/-- A call on a table.
Source: `internal/shardmap/table.go` `insert`, `delete`
Kind: D -/
inductive TableOp (K V : Type) where
  | insert (k : K) (v : V)
  | delete (k : K)

/-- Source: none
Kind: D -/
def TableOp.key : TableOp K V → K
  | .insert k _ => k
  | .delete k => k

/-- What a call does to the stored pairs.
Source: `internal/shardmap/table.go` `insert`, `delete`
Kind: D -/
def TableOp.effect (M : Multiset (K × V)) : TableOp K V → Multiset (K × V)
  | .insert k v => upsert k v M
  | .delete k => M.filter fun e => e.1 ≠ k

/-- A sequence of calls that return, every key passed with its hash.
Source: `internal/shardmap/table.go` `insert`, `delete`
Kind: D -/
inductive Table.Calls (hf : K → UInt64) : Table K V → List (TableOp K V) → Table K V → Prop where
  | nil (t : Table K V) : Table.Calls hf t [] t
  | insert {t t' t'' : Table K V} {ops : List (TableOp K V)} (fuel : ℕ) (k : K) (v : V)
      (hcall : t.insert fuel (hf k) k v = .ok t') (hrest : Table.Calls hf t' ops t'') :
      Table.Calls hf t (.insert k v :: ops) t''
  | delete {t t' t'' : Table K V} {ops : List (TableOp K V)} (fuel : ℕ) (k : K) (r : Option V)
      (hcall : t.delete fuel (hf k) k = .ok (r, t')) (hrest : Table.Calls hf t' ops t'') :
      Table.Calls hf t (.delete k :: ops) t''

/-- A sequence of calls keeps a table sound, and its entries are what the calls say.
Source: `internal/shardmap/table.go` `insert`, `delete`
Kind: L -/
theorem Table.Calls.sound {t' : Table K V} {ops : List (TableOp K V)} (h : t.Calls hf ops t')
    (ht : t.Sound hf) : t'.Sound hf ∧ t'.contents = ops.foldl TableOp.effect t.contents := by
  induction h with
  | nil t => exact ⟨ht, rfl⟩
  | insert fuel k v hcall _ ih =>
      obtain ⟨hsound, hcontents⟩ := (ht.insert fuel k v).of_ok hcall
      rw [List.foldl_cons, TableOp.effect, ← hcontents]
      exact ih hsound
  | delete fuel k r hcall _ ih =>
      obtain ⟨hsound, hcontents, -⟩ := (ht.delete fuel k).of_ok hcall
      rw [List.foldl_cons, TableOp.effect, ← hcontents]
      exact ih hsound

/-- A call for another key does not depend on a key, and does not touch it.
Source: none
Kind: L -/
theorem TableOp.effect_filter_ne {k : K} {op : TableOp K V} (hop : op.key ≠ k)
    (M : Multiset (K × V)) : (op.effect M).filter (fun e => e.1 ≠ k) =
      op.effect (M.filter fun e => e.1 ≠ k) := by
  have hcomm : ∀ k', (M.filter fun e => e.1 ≠ k').filter (fun e => e.1 ≠ k) =
      (M.filter fun e => e.1 ≠ k).filter fun e => e.1 ≠ k' := fun k' => Multiset.filter_comm _ _ M
  cases op with
  | insert k' v =>
      have hkeep : (k', v).1 ≠ k := hop
      rw [TableOp.effect, TableOp.effect, upsert, upsert,
        Multiset.filter_cons_of_pos (p := fun e : K × V => e.1 ≠ k) _ hkeep, hcomm]
  | delete k' => exact hcomm k'

/-- Calls on other keys commute with the removal of a key.
Source: none
Kind: L -/
theorem effects_filter_ne {k : K} {ops : List (TableOp K V)} (hops : ∀ op ∈ ops, op.key ≠ k)
    (M : Multiset (K × V)) : (ops.foldl TableOp.effect M).filter (fun e => e.1 ≠ k) =
      ops.foldl TableOp.effect (M.filter fun e => e.1 ≠ k) := by
  induction ops generalizing M with
  | nil => rfl
  | cons op ops ih =>
      rw [List.foldl_cons, List.foldl_cons, ih fun o ho => hops o (List.mem_cons_of_mem _ ho),
        TableOp.effect_filter_ne (hops op List.mem_cons_self)]

/-- **The layout is independent of the history, up to ties.** Reachable tables of one capacity
whose entries have the same home buckets have the same slots occupied at the same distances; and
a key that is inserted where it was absent and deleted later leaves the layout as it would have
been without it.
Source: `internal/shardmap/table_test.go` `TestTable_DeleteRestoresAsIfNeverInserted`
Kind: P
Fidelity: exact -/
theorem layout_canonical {K' V' : Type} [DecidableEq K'] [Inhabited K'] [Inhabited V'] :
    (∀ (hf : K → UInt64) (hf' : K' → UInt64) (t : Table K V) (t' : Table K' V'),
      t.Reachable hf → t'.Reachable hf' → t.cap = t'.cap → t.homes hf = t'.homes hf' →
        ∀ i, t.dibAt i = t'.dibAt i) ∧
    ∀ (hf : K → UInt64) (t t₁ t₂ : Table K V) (k : K) (v : V) (ops : List (TableOp K V)),
      t.Reachable hf → k ∉ t.keys → (∀ op ∈ ops, op.key ≠ k) →
      t.Calls hf (.insert k v :: (ops ++ [.delete k])) t₁ → t.Calls hf ops t₂ → t₁.cap = t₂.cap →
        ∀ i, t₁.dibAt i = t₂.dibAt i := by
  constructor
  · intro hf hf' t t' h h' hcap hhomes
    exact h.sound.dibAt_eq h'.sound hcap hhomes
  · intro hf t t₁ t₂ k v ops h hk hops hwith hwithout hcap
    obtain ⟨hs₁, hc₁⟩ := hwith.sound h.sound
    obtain ⟨hs₂, hc₂⟩ := hwithout.sound h.sound
    have hcontents : t₁.contents = t₂.contents := by
      rw [hc₁, hc₂, List.foldl_cons, List.foldl_append]
      change (ops.foldl TableOp.effect (upsert k v t.contents)).filter (fun e => e.1 ≠ k) = _
      rw [effects_filter_ne hops, upsert_of_not_mem hk, Multiset.filter_cons_of_neg _ (by simp),
        filter_ne_of_not_mem hk]
    refine hs₁.dibAt_eq hs₂ hcap ?_
    unfold Table.homes
    rw [hcontents]
    refine Multiset.map_congr rfl fun e _ => ?_
    rw [hs₁.home_eq, hs₂.home_eq, hcap]

/-- Two keys of one bucket, the first one deleted, against the second one alone.
Source: `internal/shardmap/table_test.go` `TestTable_DeleteRestoresAsIfNeverInserted`
Kind: C -/
theorem layout_canonical_colliding :
    ∃ a b c d : Table ℕ ℕ, (newTable 0).insert 10 0 7 70 = .ok a ∧ a.insert 10 0 8 80 = .ok b ∧
      b.delete 10 0 7 = .ok (some 70, c) ∧ (newTable 0).insert 10 0 8 80 = .ok d ∧
      d.dibAt 0 = some 0 ∧ ∀ i, c.dibAt i = d.dibAt i := by
  have hrun : ∃ a b c d : Table ℕ ℕ, (newTable 0).insert 10 0 7 70 = .ok a ∧
      a.insert 10 0 8 80 = .ok b ∧ b.delete 10 0 7 = .ok (some 70, c) ∧
      (newTable 0).insert 10 0 8 80 = .ok d ∧ c.cap = d.cap ∧ d.dibAt 0 = some 0 :=
    ⟨_, _, _, _, rfl, rfl, rfl, rfl, rfl, rfl⟩
  obtain ⟨a, b, c, d, ha, hb, hc, hd, hcap, hfirst⟩ := hrun
  refine ⟨a, b, c, d, ha, hb, hc, hd, hfirst, ?_⟩
  exact (@layout_canonical ℕ ℕ _ _ _ ℕ ℕ _ _ _).2 (fun _ => 0) (newTable 0) c d 7 70
    [.insert 8 80] (.new 0) (by simp [Table.keys, newTable]) (by simp [TableOp.key])
    (.insert 10 7 70 ha (.insert 10 8 80 hb (.delete 10 7 (some 70) hc (.nil c))))
    (.insert 10 8 80 hd (.nil d)) hcap

end CacheMoney.Shardmap
