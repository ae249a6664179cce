import CacheMoney.Shardmap.Map
import CacheMoney.Shardmap.Reachable

/-!
# The sharded map is a finite map

`Map.Represents m f`: every shard is sound, every key is stored in the shard its hash routes to,
and the shards together hold exactly the pairs of the finite map `f`.

* `represents_new`: a new map represents the empty map, for every option list whose shard
  counts are at most `2 ^ 62`.
* `Represents.get`, `.set`, `.swap`, `.delete`, `.len` and `Sound.range_eq`: one specification for
  each method. None of them panics, so every shard and slot index is in range.
* `Represents.step`, `.run` and `run_refines`: whole runs. The reference is `Reference.run`, on
  Mathlib's `Finmap`; a `Range` is observed as the multiset of visited pairs.
-/

set_option linter.unusedSectionVars false

namespace CacheMoney.Shardmap

open CacheMoney.Found

/-! ### Rounding to powers of two -/

/-- The doubling loop reaches a power of two, past `n` if the rounds suffice, and within every
power of two that bounds `n` and its start.
Source: `internal/shardmap/options.go` `nextPow2`
Kind: L -/
theorem nextPow2Loop_spec (n : ℤ) (b : ℕ) (hn : n ≤ 2 ^ b) (rounds : ℕ) :
    ∀ j ≤ b, n ≤ rounds + 2 ^ j →
      ∃ q ≤ b, nextPow2Loop n rounds (2 ^ j) = 2 ^ q ∧ n ≤ 2 ^ q := by
  induction rounds with
  | zero =>
      intro j hj h
      exact ⟨j, hj, rfl, by simpa using h⟩
  | succ rounds ih =>
      intro j hj h
      rw [nextPow2Loop]
      split_ifs with hlt
      · push_cast at hlt
        have hjb : j + 1 ≤ b := by
          by_contra hge
          have : j = b := by omega
          subst this
          omega
        rw [Nat.shiftLeft_eq, ← pow_add]
        refine ih (j + 1) hjb ?_
        have hpos : (0 : ℤ) < 2 ^ j := Int.pow_pos (by omega)
        push_cast at h
        rw [pow_succ]
        omega
      · push_cast at hlt
        exact ⟨j, hj, rfl, by omega⟩

/-- The rounding is a power of two, not below `n`, and within every power of two that bounds `n`.
Source: `internal/shardmap/options.go` `nextPow2`
Kind: L -/
theorem nextPow2_spec {n : ℤ} {b : ℕ} (hn : n ≤ 2 ^ b) :
    ∃ q ≤ b, nextPow2 n = 2 ^ q ∧ n ≤ 2 ^ q := by
  unfold nextPow2
  split_ifs with h1
  · exact ⟨0, Nat.zero_le b, rfl, by simpa using h1⟩
  · refine nextPow2Loop_spec n b hn n.toNat 0 (Nat.zero_le b) ?_
    have := Int.self_le_toNat n
    omega

/-- The counting loop reaches the exponent of a power of two.
Source: `internal/shardmap/options.go` `log2PowerOf2`
Kind: L -/
theorem log2Loop_pow (p : ℕ) (rounds : ℕ) :
    ∀ k ≤ p, p ≤ rounds + k → log2Loop (2 ^ p) rounds k = p := by
  induction rounds with
  | zero =>
      intro k hk h
      rw [log2Loop]
      omega
  | succ rounds ih =>
      intro k hk h
      rw [log2Loop, Nat.shiftLeft_eq, one_mul]
      split_ifs with hlt
      · have : k < p := (Nat.pow_lt_pow_iff_right (by omega)).mp hlt
        exact ih (k + 1) this (by omega)
      · have : p ≤ k := (Nat.pow_le_pow_iff_right (by omega)).mp (not_lt.mp hlt)
        omega

/-- The logarithm of a power of two is its exponent.
Source: `internal/shardmap/options.go` `log2PowerOf2`
Kind: L -/
theorem log2PowerOf2_pow (p : ℕ) : log2PowerOf2 (2 ^ p) = p :=
  log2Loop_pow p _ 0 (Nat.zero_le p) (by have := @Nat.lt_two_pow_self p; omega)

/-! ### The representation relation -/

variable {S K V : Type} [DecidableEq K] [Inhabited K] [Inhabited V] {m : Map S K V}
  {f : FinMap K V}

/-- The hash of a key in this map.
Source: `internal/shardmap/map.go` `Map`
Kind: D -/
def Map.hash (m : Map S K V) (k : K) : UInt64 := m.hasher m.seed k

/-- The pairs stored in all shards.
Source: none
Kind: D -/
def Map.contents (m : Map S K V) : Multiset (K × V) := (m.shards.map Table.contents).sum

/-- An entry of the shards is an entry of one of them.
Source: none
Kind: L -/
theorem mem_sum_contents {l : List (Table K V)} {e : K × V} :
    e ∈ (l.map Table.contents).sum ↔ ∃ t ∈ l, e ∈ t.contents := by
  induction l with
  | nil => simp
  | cons t l ih => simp [ih]

/-- What holds of a map between calls.
Source: `internal/shardmap/map.go` `Map`
Kind: D -/
structure Map.Sound (m : Map S K V) : Prop where
  shards_pow : ∃ p ≤ 62, m.shards.length = 2 ^ p ∧ m.shardShift = 64 - p
  tables : ∀ t ∈ m.shards, t.Sound m.hash
  routed : ∀ (i : ℕ) (t : Table K V), m.shards[i]? = some t → ∀ k ∈ t.keys,
    shardIndex (m.hash k) m.shardShift = i

/-- The map holds exactly the pairs of `f`.
Source: none
Kind: D -/
structure Map.Represents (m : Map S K V) (f : FinMap K V) : Prop where
  sound : m.Sound
  contents_eq : m.contents = pairs f

/-- Every shard index a hash can compute is inside the shard array.
Source: `internal/shardmap/map.go` `shardIndex`
Kind: P -/
theorem Map.Sound.shardIndex_lt (h : m.Sound) (x : UInt64) :
    shardIndex x m.shardShift < m.shards.length := by
  obtain ⟨p, hp, hlen, hshift⟩ := h.shards_pow
  rw [hlen, hshift, shardIndex, Nat.shiftRight_eq_div_pow]
  apply Nat.div_lt_of_lt_mul
  rw [← pow_add, show 64 - p + p = 64 by omega]
  exact x.toNat_lt

/-- The shard a key is routed to, split out of the map: the other shards do not hold the key.
Source: `internal/shardmap/map.go` `Get`
Kind: L -/
theorem Map.Sound.route (h : m.Sound) (k : K) :
    ∃ (t : Table K V) (rest : Multiset (K × V)),
      index m.shards (shardIndex (m.hasher m.seed k) m.shardShift) = .ok t ∧ t.Sound m.hash ∧
      m.contents = t.contents + rest ∧ k ∉ rest.map Prod.fst ∧
      ∀ t' : Table K V, t'.Sound m.hash → (∀ j ∈ t'.keys, j = k ∨ j ∈ t.keys) →
        ∃ m' : Map S K V,
          store m.shards (shardIndex (m.hasher m.seed k) m.shardShift) t' = .ok m'.shards ∧
          m' = { m with shards := m'.shards } ∧ m'.Sound ∧ m'.contents = t'.contents + rest := by
  have hi := h.shardIndex_lt (m.hasher m.seed k)
  generalize hidx : shardIndex (m.hasher m.seed k) m.shardShift = i at hi
  have ht : m.shards[i]? = some m.shards[i] := List.getElem?_eq_getElem hi
  generalize m.shards[i] = t at ht
  obtain ⟨l, r, hsplit, hlen, hset⟩ := exists_split_of_getElem? ht
  refine ⟨t, (l.map Table.contents).sum + (r.map Table.contents).sum,
    index_eq_ok_iff.mpr ht, h.tables t (List.mem_of_getElem? ht), ?_, ?_, ?_⟩
  · rw [Map.contents, hsplit]
    simp only [List.map_append, List.map_cons, List.sum_append, List.sum_cons]
    abel
  · -- A copy of the key in another shard would be routed there.
    intro hmem
    obtain ⟨e, he, rfl⟩ := Multiset.mem_map.mp hmem
    have hother : ∃ j u, j ≠ i ∧ m.shards[j]? = some u ∧ e ∈ u.contents := by
      rcases Multiset.mem_add.mp he with he | he
      · obtain ⟨u, hu, heM⟩ := mem_sum_contents.mp he
        obtain ⟨j, hj⟩ := List.mem_iff_getElem?.mp hu
        have hjl := (List.getElem?_eq_some_iff.mp hj).1
        exact ⟨j, u, by omega, by rw [hsplit, List.getElem?_append_left hjl]; exact hj, heM⟩
      · obtain ⟨u, hu, heM⟩ := mem_sum_contents.mp he
        obtain ⟨j, hj⟩ := List.mem_iff_getElem?.mp hu
        refine ⟨l.length + (j + 1), u, by omega, ?_, heM⟩
        rw [hsplit, List.getElem?_append_right (by omega)]
        simpa using hj
    obtain ⟨j, u, hji, hu, heu⟩ := hother
    exact hji ((h.routed j u hu e.1 (Multiset.mem_map_of_mem _ heu)).symm.trans hidx)
  · intro t' ht' hkeys
    refine ⟨{ m with shards := m.shards.set i t' }, store_eq_ok t' hi, rfl, ?_, ?_⟩
    · refine ⟨?_, ?_, ?_⟩
      · simpa using h.shards_pow
      · intro u hu
        rcases List.mem_or_eq_of_mem_set hu with hu | rfl
        · exact h.tables u hu
        · exact ht'
      · intro j u hu k' hk'
        by_cases hij : i = j
        · subst hij
          simp only [List.getElem?_set_self hi, Option.some.injEq] at hu
          subst hu
          rcases hkeys k' hk' with rfl | hk'
          · exact hidx
          · exact h.routed i t ht k' hk'
        · simp only [List.getElem?_set_ne hij] at hu
          exact h.routed j u hu k' hk'
    · rw [Map.contents, hset]
      simp only [List.map_append, List.map_cons, List.sum_append, List.sum_cons]
      abel

/-- Entries of other keys do not change what is reported.
Source: `internal/shardmap/map.go` `Get`
Kind: L -/
theorem reports_add {M N : Multiset (K × V)} {k : K} {r : Option V} (h : Reports M k r)
    (hN : k ∉ N.map Prod.fst) : Reports (M + N) k r := by
  intro v
  rw [h v, Multiset.mem_add]
  constructor
  · exact Or.inl
  · rintro (hmem | hmem)
    · exact hmem
    · exact absurd (Multiset.mem_map_of_mem Prod.fst hmem) hN

/-! ### The methods -/

/-- `Get` returns what the finite map holds under the key.
Source: `internal/shardmap/map.go` `Get`
Kind: P -/
theorem Map.Represents.get (h : m.Represents f) (fuel : ℕ) (k : K) :
    Ensures (m.get fuel k) fun r => r = f.lookup k := by
  obtain ⟨t, rest, hidx, ht, hcont, hrest, -⟩ := h.sound.route k
  unfold Map.get
  simp only [hidx, ok_bind]
  refine (Table.lookup_correct ht.toArranged fuel k).mono fun r hr => ?_
  rw [← reports_pairs_iff, ← h.contents_eq, hcont]
  exact reports_add hr hrest

/-- `Get` returns with fuel for the longest probe.
Source: `internal/shardmap/map.go` `Get`
Kind: P -/
theorem Map.Represents.get_returns (h : m.Represents f) {fuel : ℕ} (hfuel : 256 ≤ fuel) (k : K) :
    m.get fuel k = .ok (f.lookup k) := by
  obtain ⟨t, rest, hidx, ht, -⟩ := h.sound.route k
  obtain ⟨r, hr, -⟩ := Table.lookup_returns ht.toArranged hfuel k
  have hget : m.get fuel k = .ok r := by
    unfold Map.get
    simp only [hidx, ok_bind]
    exact hr
  rw [hget, (h.get fuel k).of_ok hget]

/-- The keys after an upsert: the new one, and the old ones.
Source: `internal/shardmap/map.go` `Get`
Kind: L -/
theorem mem_keys_upsert {k j : K} {v : V} {t t' : Table K V}
    (hcont : t'.contents = upsert k v t.contents) (hj : j ∈ t'.keys) : j = k ∨ j ∈ t.keys := by
  rw [Table.keys, hcont, upsert, Multiset.map_cons, Multiset.mem_cons] at hj
  rcases hj with rfl | hj
  · exact Or.inl rfl
  · exact Or.inr (Multiset.mem_of_le (Multiset.map_le_map (Multiset.filter_le _ _)) hj)

/-- Writing a shard back after an insertion.
Source: `internal/shardmap/map.go` `Set`, `Swap`
Kind: L -/
theorem Map.Represents.upserted (h : m.Represents f) {k : K} {v : V} {rest : Multiset (K × V)}
    {t t' : Table K V} (hcont : m.contents = t.contents + rest) (hrest : k ∉ rest.map Prod.fst)
    (ht' : t'.contents = upsert k v t.contents) {m' : Map S K V} (hm' : m'.Sound)
    (hcont' : m'.contents = t'.contents + rest) : m'.Represents (f.insert k v) := by
  refine ⟨hm', ?_⟩
  rw [hcont', ht', ← upsert_add hrest, ← hcont, h.contents_eq, pairs_insert]

/-- `Set` inserts into the finite map.
Source: `internal/shardmap/map.go` `Set`
Kind: P -/
theorem Map.Represents.set (h : m.Represents f) (fuel : ℕ) (k : K) (v : V) :
    Ensures (m.set fuel k v) fun m' => m'.Represents (f.insert k v) := by
  obtain ⟨t, rest, hidx, ht, hcont, hrest, hback⟩ := h.sound.route k
  unfold Map.set
  simp only [hidx, ok_bind]
  refine (ht.insert fuel k v).bind fun t' ht' => ?_
  obtain ⟨m', hstore, hm', hsound, hcont'⟩ :=
    hback t' ht'.1 fun j hj => mem_keys_upsert ht'.2 hj
  simp only [hstore, ok_bind, ensures_pure]
  rw [← hm']
  exact h.upserted hcont hrest ht'.2 hsound hcont'

/-- `Swap` returns what was under the key, and inserts.
Source: `internal/shardmap/map.go` `Swap`
Kind: P -/
theorem Map.Represents.swap (h : m.Represents f) (fuel : ℕ) (k : K) (v : V) :
    Ensures (m.swap fuel k v) fun r => r.1 = f.lookup k ∧ r.2.Represents (f.insert k v) := by
  obtain ⟨t, rest, hidx, ht, hcont, hrest, hback⟩ := h.sound.route k
  unfold Map.swap
  simp only [hidx, ok_bind]
  refine (Table.lookup_correct ht.toArranged fuel k).bind fun old hold => ?_
  refine (ht.insert fuel k v).bind fun t' ht' => ?_
  obtain ⟨m', hstore, hm', hsound, hcont'⟩ :=
    hback t' ht'.1 fun j hj => mem_keys_upsert ht'.2 hj
  simp only [hstore, ok_bind, ensures_pure]
  rw [← hm']
  refine ⟨?_, h.upserted hcont hrest ht'.2 hsound hcont'⟩
  rw [← reports_pairs_iff, ← h.contents_eq, hcont]
  exact reports_add hold hrest

/-- `Delete` returns what was under the key, and erases.
Source: `internal/shardmap/map.go` `Delete`
Kind: P -/
theorem Map.Represents.delete (h : m.Represents f) (fuel : ℕ) (k : K) :
    Ensures (m.delete fuel k) fun r => r.1 = f.lookup k ∧ r.2.Represents (f.erase k) := by
  obtain ⟨t, rest, hidx, ht, hcont, hrest, hback⟩ := h.sound.route k
  unfold Map.delete
  simp only [hidx, ok_bind]
  refine (ht.delete fuel k).bind fun r hr => ?_
  obtain ⟨hsound', hcontr, hreports⟩ := hr
  obtain ⟨m', hstore, hm', hsound, hcont'⟩ := hback r.2 hsound' fun j hj => Or.inr (by
    rw [Table.keys, hcontr] at hj
    exact Multiset.mem_of_le (Multiset.map_le_map (Multiset.filter_le _ _)) hj)
  simp only [hstore, ok_bind, ensures_pure]
  rw [← hm']
  refine ⟨?_, hsound, ?_⟩
  · rw [← reports_pairs_iff, ← h.contents_eq, hcont]
    exact reports_add hreports hrest
  · rw [hcont', hcontr, pairs_erase, ← h.contents_eq, hcont, Multiset.filter_add,
      filter_ne_of_not_mem hrest]

/-- `Len` is the number of keys.
Source: `internal/shardmap/map.go` `Len`
Kind: P -/
theorem Map.Represents.len (h : m.Represents f) : m.len = f.keys.card := by
  have hsum : ∀ (l : List (Table K V)) (n : ℕ), (∀ t ∈ l, t.Sound m.hash) →
      l.foldl (fun n s => n + s.count) n = n + ((l.map Table.contents).sum).card := by
    intro l
    induction l with
    | nil => simp
    | cons t l ih =>
        intro n hl
        rw [List.foldl_cons, ih _ fun u hu => hl u (List.mem_cons_of_mem _ hu), List.map_cons,
          List.sum_cons, Multiset.card_add, (hl t List.mem_cons_self).count_eq, Nat.add_assoc]
  rw [Map.len, hsum _ 0 h.sound.tables, Nat.zero_add, ← card_pairs, ← h.contents_eq]
  rfl

/-! ### Iteration -/

/-- The pairs of a slot list in slot order.
Source: `internal/shardmap/map.go` `rangeShard`
Kind: D -/
def occupiedPairs (slots : List (Slot K V)) : List (K × V) :=
  slots.filterMap fun s => if s.metadata = 0 then none else some (s.key, s.val)

/-- The pairs `Range` visits, in order.
Source: `internal/shardmap/map.go` `Range`
Kind: D -/
def Map.visits (m : Map S K V) : List (K × V) :=
  (m.shards.map fun t => occupiedPairs t.slots).flatten

/-- An empty slot is not visited.
Source: `internal/shardmap/map.go` `Range`
Kind: L -/
theorem occupiedPairs_cons_of_empty {s : Slot K V} (hz : s.metadata = 0)
    (slots : List (Slot K V)) : occupiedPairs (s :: slots) = occupiedPairs slots := by
  simp [occupiedPairs, hz]

/-- An occupied slot is visited in its turn.
Source: `internal/shardmap/map.go` `Range`
Kind: L -/
theorem occupiedPairs_cons_of_occupied {s : Slot K V} (hocc : s.Occupied)
    (slots : List (Slot K V)) :
    occupiedPairs (s :: slots) = (s.key, s.val) :: occupiedPairs slots := by
  simp [occupiedPairs, show ¬ s.metadata = 0 from hocc]

/-- What is visited are the entries, each once.
Source: `internal/shardmap/map.go` `Range`
Kind: L -/
theorem coe_occupiedPairs (slots : List (Slot K V)) :
    (occupiedPairs slots : Multiset (K × V)) = bag slots := by
  induction slots with
  | nil => rfl
  | cons s slots ih =>
      rw [bag_cons, ← ih]
      by_cases hz : s.metadata = 0
      · rw [occupiedPairs_cons_of_empty hz, Slot.entry_of_empty hz, zero_add]
      · rw [occupiedPairs_cons_of_occupied hz, Slot.entry_of_occupied hz, ← Multiset.cons_coe,
          Multiset.singleton_add]

/-- A walk over all shards visits the entries of the map, each once.
Source: `internal/shardmap/map.go` `Range`
Kind: L -/
theorem Map.coe_visits (m : Map S K V) : (m.visits : Multiset (K × V)) = m.contents := by
  have hall : ∀ l : List (Table K V), (((l.map fun t => occupiedPairs t.slots).flatten :
      List (K × V)) : Multiset (K × V)) = (l.map Table.contents).sum := by
    intro l
    induction l with
    | nil => rfl
    | cons t l ih =>
        rw [List.map_cons, List.flatten_cons, ← Multiset.coe_add, ih, coe_occupiedPairs,
          List.map_cons, List.sum_cons]
        rfl
  exact hall m.shards

/-- A callback that never stops is folded over the occupied slots.
Source: `internal/shardmap/map.go` `rangeShard`
Kind: L -/
theorem rangeLoop_eq {α : Type} (g : α → K → V → α) (t : Table K V) (rounds : ℕ) :
    ∀ (i : ℕ) (a : α), i + rounds = t.slots.length →
      rangeLoop (fun a k v => (g a k v, true)) t rounds i a =
        .ok ((occupiedPairs (t.slots.drop i)).foldl (fun a e => g a e.1 e.2) a, true) := by
  induction rounds with
  | zero =>
      intro i a hi
      rw [rangeLoop, List.drop_eq_nil_of_le (by omega)]
      rfl
  | succ rounds ih =>
      intro i a hi
      have hlt : i < t.slots.length := by omega
      rw [rangeLoop, index_eq_ok hlt, ok_bind, List.drop_eq_getElem_cons hlt]
      by_cases hz : t.slots[i].metadata = 0
      · rw [if_pos hz, ih (i + 1) a (by omega), occupiedPairs_cons_of_empty hz]
      · rw [if_neg hz, if_neg (by simp), ih (i + 1) _ (by omega),
          occupiedPairs_cons_of_occupied hz, List.foldl_cons]

/-- `Range` with a callback that never stops.
Source: `internal/shardmap/map.go` `Range`
Kind: P -/
theorem Map.Sound.range_eq (h : m.Sound) {α : Type} (g : α → K → V → α) (a : α) :
    m.range (fun a k v => (g a k v, true)) a =
      .ok (m.visits.foldl (fun a e => g a e.1 e.2) a) := by
  have hall : ∀ (l : List (Table K V)) (a : α), (∀ t ∈ l, t.Sound m.hash) →
      rangeShards (fun a k v => (g a k v, true)) l a =
        .ok (((l.map fun t => occupiedPairs t.slots).flatten).foldl (fun a e => g a e.1 e.2) a) := by
    intro l
    induction l with
    | nil => exact fun a _ => rfl
    | cons t l ih =>
        intro a hl
        have ht := hl t List.mem_cons_self
        have hcap : 0 + (t.capm1 + 1) = t.slots.length := by
          have h8 := ht.eight_le_cap
          rw [ht.capm1_eq]
          unfold Table.cap at *
          omega
        rw [rangeShards, rangeShard, rangeLoop_eq g t _ 0 a hcap, ok_bind]
        simp only [Bool.not_true, Bool.false_eq_true, if_false, List.drop_zero]
        rw [ih _ fun u hu => hl u (List.mem_cons_of_mem _ hu), List.map_cons, List.flatten_cons,
          List.foldl_append]
  exact hall m.shards a h.tables

/-- A new map represents the empty map.
Source: `internal/shardmap/map.go` `New`
Kind: P -/
theorem represents_new (host : Host S) (hasher : S → K → UInt64) (opts : List (Opt S))
    (hhost : host.gomaxprocs * 4 ≤ 2 ^ 62)
    (hopts : ∀ n, Opt.withShards n ∈ opts → n ≤ 2 ^ 62) :
    (Map.new host hasher opts : Map S K V).Represents ∅ := by
  have hcfg : ∀ (opts : List (Opt S)) (c : Config S), c.numShards ≤ 2 ^ 62 →
      (∀ n, Opt.withShards n ∈ opts → n ≤ 2 ^ 62) →
      (opts.foldl Opt.apply c).numShards ≤ 2 ^ 62 := by
    intro opts
    induction opts with
    | nil => exact fun c hc _ => hc
    | cons o opts ih =>
        intro c hc ho
        rw [List.foldl_cons]
        refine ih _ ?_ fun n hn => ho n (List.mem_cons_of_mem _ hn)
        cases o with
        | withShards n =>
            have hn := ho n List.mem_cons_self
            simp only [Opt.apply]
            split_ifs <;> omega
        | withSeed seed => exact hc
        | withInitialCapacity n =>
            simp only [Opt.apply]
            split_ifs <;> exact hc
  obtain ⟨p, hp, hcount, -⟩ : ∃ p ≤ 62, shardCount host opts = 2 ^ p ∧ True := by
    unfold shardCount
    have hn := hcfg opts {} (by simp) hopts
    simp only
    split_ifs with hdef
    · obtain ⟨q, hq, hdq, -⟩ := nextPow2_spec (n := host.gomaxprocs * 4) (b := 62)
        (by exact_mod_cast hhost)
      obtain ⟨p, hp, hpp, -⟩ := nextPow2_spec (n := defaultShardCount host) (b := 62) (by
        rw [defaultShardCount, hdq]
        exact_mod_cast Nat.pow_le_pow_right (by omega) hq)
      exact ⟨p, hp, hpp, trivial⟩
    · obtain ⟨p, hp, hpp, -⟩ := nextPow2_spec hn
      exact ⟨p, hp, hpp, trivial⟩
  refine ⟨⟨⟨p, hp, by simp [Map.new, hcount], ?_⟩, ?_, ?_⟩, ?_⟩
  · simp only [Map.new]
    rw [hcount, log2PowerOf2_pow]
  · intro t ht
    rw [List.eq_of_mem_replicate ht]
    exact sound_newTable _
  · intro i t ht k hk
    rw [List.eq_of_mem_replicate (List.mem_of_getElem? ht)] at hk
    simp [Table.keys, newTable] at hk
  · simp [Map.contents, Map.new, newTable]

/-! ### Runs -/

/-- One call of a sequential client. `range` passes a callback that records what it is given and
always returns true.
Source: `internal/shardmap/property_test.go` `runModelEquivalence`
Kind: D -/
inductive Op (K V : Type) where
  | set (k : K) (v : V)
  | swap (k : K) (v : V)
  | get (k : K)
  | delete (k : K)
  | len
  | range
  deriving Repr

/-- What a call returned. `P` is how the pairs a `range` visited are recorded: `List`, in order,
or `Multiset`.
Source: `internal/shardmap/property_test.go` `runModelEquivalence`
Kind: D -/
inductive Out (V P : Type) where
  | done
  | value (old : Option V)
  | size (n : ℕ)
  | visited (pairs : P)
  deriving DecidableEq

/-- Forget the order in which a `range` visited the pairs.
Source: none
Kind: D -/
def Out.observe : Out V (List (K × V)) → Out V (Multiset (K × V))
  | .done => .done
  | .value old => .value old
  | .size n => .size n
  | .visited l => .visited l

/-- Source: `internal/shardmap/map.go` `Get`, `Set`, `Swap`, `Delete`, `Len`, `Range`
Kind: D -/
def Map.step (fuel : ℕ) (m : Map S K V) : Op K V → Outcome (Out V (List (K × V)) × Map S K V)
  | .set k v => do
      let m ← m.set fuel k v
      pure (.done, m)
  | .swap k v => do
      let (old, m) ← m.swap fuel k v
      pure (.value old, m)
  | .get k => do
      let old ← m.get fuel k
      pure (.value old, m)
  | .delete k => do
      let (old, m) ← m.delete fuel k
      pure (.value old, m)
  | .len => pure (.size m.len, m)
  | .range => do
      let l ← m.range (fun l k v => (l ++ [(k, v)], true)) []
      pure (.visited l, m)

/-- Calls in sequence, with what each returned.
Source: `internal/shardmap/property_test.go` `runModelEquivalence`
Kind: D -/
def Map.run (fuel : ℕ) (m : Map S K V) :
    List (Op K V) → Outcome (List (Out V (List (K × V))) × Map S K V)
  | [] => pure ([], m)
  | op :: ops => do
      let (out, m) ← m.step fuel op
      let (outs, m) ← Map.run fuel m ops
      pure (out :: outs, m)

/-- The same calls on a plain finite map.
Source: `internal/shardmap/property_test.go` `runModelEquivalence`
Kind: D -/
def Reference.step (f : FinMap K V) : Op K V → Out V (Multiset (K × V)) × FinMap K V
  | .set k v => (.done, f.insert k v)
  | .swap k v => (.value (f.lookup k), f.insert k v)
  | .get k => (.value (f.lookup k), f)
  | .delete k => (.value (f.lookup k), f.erase k)
  | .len => (.size f.keys.card, f)
  | .range => (.visited (pairs f), f)

/-- Source: `internal/shardmap/property_test.go` `runModelEquivalence`
Kind: D -/
def Reference.run (f : FinMap K V) : List (Op K V) → List (Out V (Multiset (K × V))) × FinMap K V
  | [] => ([], f)
  | op :: ops =>
      let (out, f) := Reference.step f op
      let (outs, f) := Reference.run f ops
      (out :: outs, f)

/-- A visitor that appends collects the list.
Source: none
Kind: L -/
theorem foldl_append_pair (l acc : List (K × V)) :
    l.foldl (fun a e => a ++ [(e.1, e.2)]) acc = acc ++ l := by
  induction l generalizing acc with
  | nil => simp
  | cons e l ih => simp [ih]

/-- One call keeps the representation and returns what the finite map returns.
Source: `internal/shardmap/map.go` `Get`, `Set`, `Swap`, `Delete`, `Len`, `Range`
Kind: L -/
theorem Map.Represents.step (h : m.Represents f) (fuel : ℕ) (op : Op K V) :
    Ensures (m.step fuel op) fun r =>
      r.1.observe = (Reference.step f op).1 ∧ r.2.Represents (Reference.step f op).2 := by
  cases op with
  | set k v => exact (h.set fuel k v).bind fun m' hm' => ⟨rfl, hm'⟩
  | swap k v =>
      refine (h.swap fuel k v).bind ?_
      rintro ⟨old, m'⟩ ⟨rfl, hm'⟩
      exact ⟨rfl, hm'⟩
  | get k =>
      refine (h.get fuel k).bind ?_
      rintro old rfl
      exact ⟨rfl, h⟩
  | delete k =>
      refine (h.delete fuel k).bind ?_
      rintro ⟨old, m'⟩ ⟨rfl, hm'⟩
      exact ⟨rfl, hm'⟩
  | len =>
      refine ⟨?_, h⟩
      rw [h.len]
      rfl
  | range =>
      unfold Map.step
      rw [h.sound.range_eq (fun l k v => l ++ [(k, v)]), foldl_append_pair, ok_bind]
      refine ⟨?_, h⟩
      simp only [Out.observe, Reference.step, List.nil_append, m.coe_visits, h.contents_eq]

/-- A whole run returns what the finite map returns, call by call.
Source: `internal/shardmap/property_test.go` `runModelEquivalence`
Kind: L -/
theorem Map.Represents.run (h : m.Represents f) (fuel : ℕ) (ops : List (Op K V)) :
    Ensures (m.run fuel ops) fun r =>
      r.1.map Out.observe = (Reference.run f ops).1 ∧
        r.2.Represents (Reference.run f ops).2 := by
  induction ops generalizing m f with
  | nil => exact ⟨rfl, h⟩
  | cons op ops ih =>
      unfold Map.run
      refine (h.step fuel op).bind ?_
      rintro ⟨out, m'⟩ ⟨hout, hm'⟩
      refine (ih hm').bind ?_
      rintro ⟨outs, m''⟩ ⟨houts, hm''⟩
      refine ⟨?_, hm''⟩
      rw [List.map_cons, hout, houts]
      rfl

/-- **The sharded map is a finite map.** For every hasher, every option list and every sequence of
calls that return: no call panics, the results are those of a plain finite map, every shard
index that a hash gives is inside the shard array, and another hasher and another shard count
give the same results.
Source: `internal/shardmap/property_test.go` `runModelEquivalence`
Kind: P
Fidelity: exact -/
theorem run_refines (host : Host S) (hasher : S → K → UInt64) (opts : List (Opt S))
    (hhost : host.gomaxprocs * 4 ≤ 2 ^ 62)
    (hopts : ∀ n, Opt.withShards n ∈ opts → n ≤ 2 ^ 62) (fuel : ℕ) (ops : List (Op K V)) :
    Ensures ((Map.new host hasher opts : Map S K V).run fuel ops) fun r =>
      r.1.map Out.observe = (Reference.run ∅ ops).1 ∧
      r.2.len = (Reference.run (∅ : FinMap K V) ops).2.keys.card ∧
      (∀ x : UInt64, shardIndex x r.2.shardShift < r.2.shards.length) ∧
      ∀ (hasher' : S → K → UInt64) (opts' : List (Opt S)) (fuel' : ℕ),
        (∀ n, Opt.withShards n ∈ opts' → n ≤ 2 ^ 62) →
        Ensures ((Map.new host hasher' opts' : Map S K V).run fuel' ops) fun r' =>
          r'.1.map Out.observe = r.1.map Out.observe := by
  refine ((represents_new host hasher opts hhost hopts).run fuel ops).mono ?_
  rintro r ⟨houts, hrep⟩
  refine ⟨houts, hrep.len, hrep.sound.shardIndex_lt, ?_⟩
  intro hasher' opts' fuel' hopts'
  refine ((represents_new host hasher' opts' hhost hopts').run fuel' ops).mono ?_
  rintro r' ⟨houts', -⟩
  rw [houts', houts]

/-- Four shards and a hasher that sends every key to one slot of the last shard: the second key
survives the deletion of the first.
Source: `internal/shardmap/property_test.go` `runModelEquivalence`
Kind: C -/
theorem run_refines_colliding :
    ∃ r, (Map.new ⟨2, ()⟩ (fun _ _ => 0xFFFFFFFFFFFFFFFF) [.withShards 3] : Map Unit ℕ ℕ).run 20
        [.set 1 10, .set 2 20, .swap 2 21, .delete 1, .get 2, .len, .range] = .ok r ∧
      r.1 = [.done, .done, .value (some 20), .value (some 10), .value (some 21), .size 1,
        .visited [(2, 21)]] ∧
      r.1.map Out.observe = (Reference.run ∅ [.set 1 10, .set 2 20, .swap 2 21, .delete 1, .get 2,
        .len, .range]).1 := by
  refine ⟨_, rfl, rfl, ?_⟩
  exact ((run_refines ⟨2, ()⟩ (fun _ _ => 0xFFFFFFFFFFFFFFFF) [.withShards 3] (by decide)
    (by simp) 20 [.set 1 10, .set 2 20, .swap 2 21, .delete 1, .get 2, .len, .range]).of_ok
      rfl).1

end CacheMoney.Shardmap
