import CacheMoney.Shardmap.Delete

/-!
# Every reachable table is a Robin Hood table

`Table.Reachable hf`: the tables that `newTable` and any finite sequence of `insert` and
`delete` calls produce, every key always passed with the hash `hf` gives it. `Table.Sound` is
what holds between calls (arranged, and no fuller than the grow threshold); it is kept by each
call, so it holds of every reachable table, and `Table.RobinHood` spells out what it says slot
by slot.
-/

set_option linter.unusedSectionVars false

namespace CacheMoney.Shardmap

open CacheMoney.Found CacheMoney.Found.RobinHood

variable {K V : Type} [DecidableEq K] [Inhabited K] [Inhabited V] {hf : K → UInt64}
  {t : Table K V}

/-! ### Construction -/

/-- The doubling loop stays on the powers of two from its start, and the rounds it is given are
enough: it ends because its condition fails, with room for `capacityHint` entries.
Source: `internal/shardmap/table.go` `newTable`
Kind: L -/
theorem newTableLoop_spec (capacityHint : ℤ) (rounds : ℕ) :
    ∀ p, 3 ≤ p → capacityHint ≤ rounds + (2 ^ p * loadNum / loadDen : ℕ) →
      ∃ q, 3 ≤ q ∧ newTableLoop capacityHint rounds (2 ^ p) = 2 ^ q ∧
        capacityHint ≤ (2 ^ q * loadNum / loadDen : ℕ) := by
  induction rounds with
  | zero =>
      intro p hp h
      exact ⟨p, hp, rfl, by simpa using h⟩
  | succ rounds ih =>
      intro p hp h
      rw [newTableLoop]
      split_ifs with hlt
      · rw [Nat.shiftLeft_eq, ← pow_add]
        refine ih (p + 1) (by omega) ?_
        -- A doubling makes room for at least one entry more, so a round pays for a round.
        have hpos : 0 < 2 ^ p := Nat.two_pow_pos p
        rw [pow_succ]
        unfold loadNum loadDen at *
        omega
      · exact ⟨p, hp, rfl, by omega⟩

/-- A new table is an empty one of a power of two of slots that takes its hint without growing.
Source: `internal/shardmap/table.go` `newTable`
Kind: L -/
theorem newTable_spec (capacityHint : ℤ) :
    ∃ q, 3 ≤ q ∧ (newTable capacityHint : Table K V) = Table.alloc (2 ^ q) ∧
      capacityHint ≤ (newTable capacityHint : Table K V).growAt := by
  have hstart : capacityHint ≤ capacityHint.toNat + (2 ^ 3 * loadNum / loadDen : ℕ) := by
    have := Int.self_le_toNat capacityHint
    unfold loadNum loadDen
    omega
  obtain ⟨q, hq, hcap, hroom⟩ := newTableLoop_spec capacityHint capacityHint.toNat 3 le_rfl hstart
  have hnew : (newTable capacityHint : Table K V) = Table.alloc (2 ^ q) :=
    congrArg Table.alloc hcap
  refine ⟨q, hq, hnew, ?_⟩
  rw [hnew]
  exact hroom

/-! ### The invariant of every call -/

/-- What holds of a table between calls.
Source: `internal/shardmap/table_test.go` `checkInvariants`
Kind: D -/
structure Table.Sound (hf : K → UInt64) (t : Table K V) : Prop extends Table.Arranged hf t where
  count_le : t.count ≤ t.growAt

/-- A new table is sound.
Source: `internal/shardmap/table.go` `newTable`
Kind: L -/
theorem sound_newTable (capacityHint : ℤ) : (newTable capacityHint : Table K V).Sound hf := by
  obtain ⟨q, hq, hnew, -⟩ := newTable_spec (K := K) (V := V) capacityHint
  rw [hnew]
  exact ⟨Table.arranged_alloc hq, by simp [Table.alloc]⟩

/-- `insert` keeps a table sound and stores exactly the pair.
Source: `internal/shardmap/table.go` `insert`
Kind: P -/
theorem Table.Sound.insert (ht : t.Sound hf) (fuel : ℕ) (k : K) (v : V) :
    Ensures (t.insert fuel (hf k) k v) fun t' =>
      t'.Sound hf ∧ t'.contents = upsert k v t.contents :=
  (Table.insert_correct ht.toArranged ht.count_le fuel k v).mono fun _ h =>
    ⟨⟨h.1.arranged, h.2⟩, h.1.contents_eq⟩

/-- `delete` keeps a table sound, removes exactly the key and reports its value.
Source: `internal/shardmap/table.go` `delete`
Kind: P -/
theorem Table.Sound.delete (ht : t.Sound hf) (fuel : ℕ) (k : K) :
    Ensures (t.delete fuel (hf k) k) fun r =>
      r.2.Sound hf ∧ r.2.contents = t.contents.filter (fun e => e.1 ≠ k) ∧
        Reports t.contents k r.1 :=
  (Table.delete_correct ht.toArranged ht.count_le fuel k).mono fun _ h =>
    ⟨⟨h.arranged, h.count_le⟩, h.contents_eq, h.reports⟩

/-- The tables that finite sequences of calls produce.
Source: `internal/shardmap/table_test.go` `checkInvariants`
Kind: D -/
inductive Table.Reachable (hf : K → UInt64) : Table K V → Prop
  | new (capacityHint : ℤ) : Table.Reachable hf (newTable capacityHint)
  | insert {t t' : Table K V} {fuel : ℕ} {k : K} {v : V} (h : Table.Reachable hf t)
      (hcall : t.insert fuel (hf k) k v = .ok t') : Table.Reachable hf t'
  | delete {t t' : Table K V} {fuel : ℕ} {k : K} {r : Option V} (h : Table.Reachable hf t)
      (hcall : t.delete fuel (hf k) k = .ok (r, t')) : Table.Reachable hf t'

/-- Every reachable table is sound.
Source: `internal/shardmap/table_test.go` `checkInvariants`
Kind: L -/
theorem Table.Reachable.sound (h : t.Reachable hf) : t.Sound hf := by
  induction h with
  | new capacityHint => exact sound_newTable capacityHint
  | insert _ hcall ih => exact ((ih.insert _ _ _).of_ok hcall).1
  | delete _ hcall ih => exact ((ih.delete _ _).of_ok hcall).1

/-- A table is reachable by any number of inserts.
Source: `internal/shardmap/table.go` `insert`
Kind: L -/
theorem Table.Reachable.inserts {fuel : ℕ} {entries : List (K × V)} (h : t.Reachable hf)
    (hrun : entries.foldlM (fun t e => t.insert fuel (hf e.1) e.1 e.2) t = .ok t') :
    t'.Reachable hf := by
  induction entries generalizing t with
  | nil =>
      obtain rfl := Except.ok.inj hrun
      exact h
  | cons e entries ih =>
      rw [List.foldlM_cons] at hrun
      obtain ⟨t₁, hcall, hrest⟩ := bind_eq_ok_iff.mp hrun
      exact ih (h.insert hcall) hrest

/-! ### Slot by slot -/

/-- The Robin Hood representation invariant, as a statement about the slots.
Source: `internal/shardmap/table_test.go` `checkInvariants`
Kind: D -/
structure Table.RobinHood (hf : K → UInt64) (t : Table K V) : Prop where
  /-- The capacity is a power of two, at least `minCap`. -/
  cap_pow : ∃ p, t.cap = 2 ^ p
  cap_ge : minCap ≤ t.cap
  growAt_eq : t.growAt * 4 = t.cap * 3
  /-- `count` counts the occupied slots. -/
  count_eq : t.slots.countP (fun s => decide s.Occupied) = t.count
  count_le : t.count ≤ t.growAt
  /-- An occupied slot stores its key's own hash and the low byte of it. -/
  hash_eq : ∀ s ∈ t.slots, s.Occupied → s.hash = hf s.key
  frag_eq : ∀ s ∈ t.slots, s.Occupied →
    (s.metadata &&& fragMask).toNat = (hf s.key).toNat % 2 ^ 8
  /-- The stored distance is the cyclic displacement from the home bucket. -/
  dib_eq : ∀ i s, t.slots[i]? = some s → s.Occupied →
    (dibOf s.metadata).toNat = (i + t.cap - t.home (hf s.key)) % t.cap
  dib_le : ∀ s ∈ t.slots, s.Occupied → (dibOf s.metadata).toNat ≤ 254
  /-- An entry away from home has an occupied predecessor at most one step nearer its own. -/
  predecessor : ∀ i s, t.slots[i]? = some s → s.Occupied → 0 < (dibOf s.metadata).toNat →
    ∃ r, t.slots[(i + t.cap - 1) % t.cap]? = some r ∧ r.Occupied ∧
      (dibOf s.metadata).toNat - 1 ≤ (dibOf r.metadata).toNat
  /-- No key occupies two slots. -/
  unique : ∀ (i j : ℕ) (r s : Slot K V), t.slots[i]? = some r → t.slots[j]? = some s →
    r.Occupied → s.Occupied → r.key = s.key → i = j
  /-- Empty slots are zeroed. -/
  blank : ∀ s ∈ t.slots, ¬ s.Occupied → s.key = default ∧ s.val = default ∧ s.hash = 0

/-- There are as many entries as occupied slots.
Source: `internal/shardmap/table_test.go` `checkInvariants`
Kind: L -/
theorem card_bag (l : List (Slot K V)) :
    (bag l).card = l.countP (fun s => decide s.Occupied) := by
  induction l with
  | nil => rfl
  | cons a l ih =>
      rw [bag_cons, Multiset.card_add, ih, List.countP_cons]
      by_cases ha : a.Occupied
      · rw [Slot.entry_of_occupied ha]
        simp [ha, Nat.add_comm]
      · rw [Slot.entry_of_empty (not_not.mp ha)]
        simp [ha]

/-- The predecessor of a slot on the cycle.
Source: none
Kind: L -/
theorem step_pred {n i : ℕ} (hi : i < n) : ((i + n - 1) % n + 1) % n = i := by
  rw [Nat.mod_add_mod, show i + n - 1 + 1 = i + n by omega, Nat.add_mod_right,
    Nat.mod_eq_of_lt hi]

/-- A sound table has the invariant slot by slot.
Source: `internal/shardmap/table_test.go` `checkInvariants`
Kind: P -/
theorem Table.Sound.robinHood (ht : t.Sound hf) : t.RobinHood hf := by
  have hcap := ht.eight_le_cap
  have hmem : ∀ s ∈ t.slots, s.Occupied → ∃ i, s.FitsAt hf t.cap i := by
    intro s hs hocc
    obtain ⟨i, hi⟩ := List.mem_iff_getElem?.mp hs
    exact ⟨i, ht.fits i s hi hocc⟩
  refine ⟨?_, hcap, ?_, ?_, ht.count_le, ?_, ?_, ?_, ?_, ?_, ?_, ?_⟩
  · obtain ⟨p, -, hp⟩ := ht.cap_pow
    exact ⟨p, hp⟩
  · obtain ⟨p, hp3, hp⟩ := ht.cap_pow
    obtain ⟨q, rfl⟩ : ∃ q, p = q + 2 := ⟨p - 2, by omega⟩
    have h4 : t.cap = 4 * 2 ^ q := by rw [hp, pow_add]; omega
    rw [ht.growAt_eq]
    unfold loadNum loadDen
    omega
  · rw [← card_bag, ht.count_eq]
    rfl
  · intro s hs hocc
    obtain ⟨i, hfit⟩ := hmem s hs hocc
    exact hfit.hash_eq
  · intro s hs hocc
    obtain ⟨i, hfit⟩ := hmem s hs hocc
    rw [hfit.frag_eq, fragOf_toNat, hfit.hash_eq, show 2 ^ 8 = 256 from rfl]
  · intro i s hs hocc
    have hfit := ht.fits i s hs hocc
    have hlt : s.hash.toNat % t.cap < t.cap := Nat.mod_lt _ (by omega)
    rw [ht.home_eq, ← hfit.hash_eq]
    conv_rhs => rw [← hfit.reach]
    exact (displacement_eq hlt hfit.dib_lt).symm
  · intro s hs hocc
    obtain ⟨i, hfit⟩ := hmem s hs hocc
    exact hfit.dib_le
  · intro i s hs hocc hpos
    have hi : i < t.cap := (List.getElem?_eq_some_iff.mp hs).1
    have hdib : t.dibAt i = some ((dibOf s.metadata).toNat - 1 + 1) := by
      rw [Table.dibAt_of_getElem? hs, Slot.dib_of_occupied hocc, Nat.sub_add_cancel hpos]
    obtain ⟨e, he, hle⟩ := ht.ordered ((i + t.cap - 1) % t.cap) (Nat.mod_lt _ (by omega))
      ((dibOf s.metadata).toNat - 1) (by rw [step_pred hi]; exact hdib)
    obtain ⟨r, hr, hrocc, rfl⟩ := Table.exists_of_dibAt he
    exact ⟨r, hr, hrocc, hle⟩
  · intro i j r s hr hs hro hso hkey
    exact index_eq_of_key_eq ht.nodup hr hs hro hso hkey
  · intro s hs hempty
    rw [ht.blank s hs hempty]
    exact ⟨rfl, rfl, rfl⟩

/-- **The Robin Hood invariant** holds in every table reachable from `newTable` by any finite
sequence of `insert` and `delete` calls.
Source: `internal/shardmap/table_test.go` `checkInvariants`
Kind: P
Fidelity: exact -/
theorem reachable_robinHood (hf : K → UInt64) (t : Table K V) (h : t.Reachable hf) :
    t.RobinHood hf :=
  h.sound.robinHood

/-- Two keys with one hash, then the first one deleted: the second has shifted back.
Source: `internal/shardmap/table_test.go` `TestTable_DeleteRestoresAsIfNeverInserted`
Kind: C -/
theorem reachable_robinHood_colliding :
    ∃ a b c : Table ℕ ℕ, (newTable 0).insert 10 0 7 70 = .ok a ∧ a.insert 10 0 8 80 = .ok b ∧
      b.delete 10 0 7 = .ok (some 70, c) ∧ c.RobinHood (fun _ => 0) := by
  have hrun : ∃ a b c : Table ℕ ℕ, (newTable 0).insert 10 0 7 70 = .ok a ∧
      a.insert 10 0 8 80 = .ok b ∧ b.delete 10 0 7 = .ok (some 70, c) := ⟨_, _, _, rfl, rfl, rfl⟩
  obtain ⟨a, b, c, ha, hb, hc⟩ := hrun
  exact ⟨a, b, c, ha, hb, hc, reachable_robinHood (fun _ => 0) c
    (.delete (k := 7) (.insert (k := 8) (.insert (k := 7) (.new 0) ha) hb) hc)⟩

end CacheMoney.Shardmap
