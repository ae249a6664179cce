import Mathlib.Algebra.BigOperators.Group.List.Basic
import Mathlib.Algebra.Order.Group.Multiset
import Mathlib.Data.Finset.Range
import Mathlib.Tactic.Abel
import CacheMoney.Found.FiniteMap
import CacheMoney.Found.RobinHood
import CacheMoney.Shardmap.Table

/-!
# What a table holds and how it is laid out

Two readings of a table. `Table.contents` forgets the layout: the multiset of stored
key/value pairs. `Table.dibAt` forgets the contents: the distance recorded in each slot, which
is the view of `Found.RobinHood`.

* `Table.Laid hf t`: the layout half of the invariant, for keys hashed by `hf`. It survives the
  middle of a backward shift, where one entry is stored twice.
* `Table.Arranged hf t`: the layout together with an exact count and distinct keys. This is the
  invariant of every table between calls.
* `Table.Laid.write`, `Table.bag_set`: what one slot write does to either reading.
-/

namespace CacheMoney.Shardmap

open CacheMoney.Found CacheMoney.Found.RobinHood

variable {K V : Type}

/-! ### Metadata words -/

/-- The two fields of a metadata word do not overlap.
Source: `internal/shardmap/table.go` `packMeta`
Kind: L -/
theorem packMeta_toNat {d f : UInt16} (hd : d ≤ maxDib) (hf : f ≤ fragMask) :
    (packMeta d f).toNat = (d.toNat + 1) * 256 + f.toNat := by
  have hd' : d.toNat ≤ 254 := hd
  have hf' : f.toNat ≤ 255 := hf
  have hinc : (d + 1).toNat = d.toNat + 1 := by
    rw [UInt16.toNat_add]
    exact Nat.mod_eq_of_lt (by simp; omega)
  unfold packMeta
  rw [UInt16.toNat_or, UInt16.toNat_shiftLeft, hinc]
  have hshift : (d.toNat + 1) <<< (fragBits.toNat % 16) % 2 ^ 16 = (d.toNat + 1) <<< 8 := by
    rw [show fragBits.toNat % 16 = 8 from rfl, Nat.shiftLeft_eq]
    exact Nat.mod_eq_of_lt (by omega)
  rw [hshift, ← Nat.shiftLeft_add_eq_or_of_lt (by omega), Nat.shiftLeft_eq]

/-- Packed metadata is never the mark of an empty slot.
Source: `internal/shardmap/table.go` `packMeta`
Kind: L -/
theorem packMeta_ne_zero {d f : UInt16} (hd : d ≤ maxDib) (hf : f ≤ fragMask) :
    packMeta d f ≠ 0 := by
  intro h
  have := packMeta_toNat hd hf
  rw [h, show (0 : UInt16).toNat = 0 from rfl] at this
  omega

/-- The distance is unpacked again.
Source: `internal/shardmap/table.go` `packMeta`
Kind: L -/
@[simp] theorem dibOf_packMeta {d f : UInt16} (hd : d ≤ maxDib) (hf : f ≤ fragMask) :
    dibOf (packMeta d f) = d := by
  have hf' : f.toNat ≤ 255 := hf
  have hd' : d.toNat ≤ 254 := hd
  unfold dibOf
  have hhigh : packMeta d f >>> fragBits = d + 1 := by
    rw [← UInt16.toNat_inj, UInt16.toNat_shiftRight, packMeta_toNat hd hf, UInt16.toNat_add,
      show fragBits.toNat % 16 = 8 from rfl, Nat.shiftRight_eq_div_pow,
      show (1 : UInt16).toNat = 1 from rfl]
    omega
  rw [hhigh, UInt16.add_sub_cancel]

/-- The fragment is unpacked again.
Source: `internal/shardmap/table.go` `packMeta`
Kind: L -/
@[simp] theorem packMeta_and_fragMask {d f : UInt16} (hd : d ≤ maxDib) (hf : f ≤ fragMask) :
    packMeta d f &&& fragMask = f := by
  have hf' : f.toNat ≤ 255 := hf
  rw [← UInt16.toNat_inj, UInt16.toNat_and, packMeta_toNat hd hf,
    show fragMask.toNat = 2 ^ 8 - 1 from rfl, Nat.and_two_pow_sub_one_eq_mod]
  omega

/-- The fragment is the low byte of the hash.
Source: `internal/shardmap/table.go` `fragOf`
Kind: L -/
theorem fragOf_toNat (hash : UInt64) : (fragOf hash).toNat = hash.toNat % 256 := by
  unfold fragOf
  rw [UInt64.toNat_toUInt16, UInt64.toNat_and,
    show fragMask.toUInt64.toNat = 2 ^ 8 - 1 from rfl, Nat.and_two_pow_sub_one_eq_mod]
  omega

/-- The fragment of a hash fits its bits.
Source: `internal/shardmap/table.go` `fragOf`
Kind: L -/
theorem fragOf_le (hash : UInt64) : fragOf hash ≤ fragMask := by
  show (fragOf hash).toNat ≤ 255
  rw [fragOf_toNat]
  omega

/-! ### The two readings of a slot list -/

/-- What a slot contributes to the contents.
Source: none
Kind: D -/
def Slot.entry (s : Slot K V) : Multiset (K × V) := if s.metadata = 0 then 0 else {(s.key, s.val)}

/-- The distance a slot records, if it is occupied.
Source: none
Kind: D -/
def Slot.dib (s : Slot K V) : Option ℕ :=
  if s.metadata = 0 then none else some (dibOf s.metadata).toNat

/-- The contents of a slot list.
Source: none
Kind: D -/
def bag (slots : List (Slot K V)) : Multiset (K × V) := (slots.map Slot.entry).sum

/-- The stored key/value pairs.
Source: none
Kind: D -/
def Table.contents (t : Table K V) : Multiset (K × V) := bag t.slots

/-- The stored keys.
Source: none
Kind: D -/
def Table.keys (t : Table K V) : Multiset K := t.contents.map Prod.fst

/-- The distance recorded in slot `i`, `none` where the slot is empty or does not exist.
Source: none
Kind: D -/
def Table.dibAt (t : Table K V) (i : ℕ) : Option ℕ := t.slots[i]?.bind Slot.dib

/-- An occupied slot holds its entry.
Source: none
Kind: L -/
theorem Slot.entry_of_occupied {s : Slot K V} (h : s.Occupied) : s.entry = {(s.key, s.val)} :=
  if_neg h

/-- An empty slot holds no entry.
Source: none
Kind: L -/
theorem Slot.entry_of_empty {s : Slot K V} (h : s.metadata = 0) : s.entry = 0 := if_pos h

/-- An occupied slot has the distance of its metadata.
Source: none
Kind: L -/
theorem Slot.dib_of_occupied {s : Slot K V} (h : s.Occupied) :
    s.dib = some (dibOf s.metadata).toNat := if_neg h

/-- An empty slot has no distance.
Source: none
Kind: L -/
theorem Slot.dib_of_empty {s : Slot K V} (h : s.metadata = 0) : s.dib = none := if_pos h

/-- Equation lemma: no slots, no entries.
Source: none
Kind: L -/
@[simp] theorem bag_nil : bag ([] : List (Slot K V)) = 0 := rfl

/-- The entries of two stretches of slots.
Source: none
Kind: L -/
@[simp] theorem bag_append (l₁ l₂ : List (Slot K V)) : bag (l₁ ++ l₂) = bag l₁ + bag l₂ := by
  simp [bag]

/-- Equation lemma: the entry of the first slot, and of the rest.
Source: none
Kind: L -/
@[simp] theorem bag_cons (s : Slot K V) (l : List (Slot K V)) : bag (s :: l) = s.entry + bag l := by
  simp [bag]

/-- One slot write, read on the contents.
Source: none
Kind: L -/
theorem bag_set {l : List (Slot K V)} {i : ℕ} {s : Slot K V} (hs : l[i]? = some s)
    (s' : Slot K V) : bag (l.set i s') + s.entry = bag l + s'.entry := by
  induction l generalizing i with
  | nil => simp at hs
  | cons a l ih =>
      cases i with
      | zero =>
          obtain rfl : a = s := by simpa using hs
          simp only [List.set_cons_zero, bag_cons]
          abel
      | succ i =>
          simp only [List.set_cons_succ, bag_cons, add_assoc]
          rw [ih (by simpa using hs)]

/-- The stored pairs are those of the occupied slots.
Source: none
Kind: L -/
theorem mem_bag {l : List (Slot K V)} {e : K × V} :
    e ∈ bag l ↔ ∃ (i : ℕ) (s : Slot K V), l[i]? = some s ∧ s.Occupied ∧ (s.key, s.val) = e := by
  induction l with
  | nil => simp
  | cons a l ih =>
      rw [bag_cons, Multiset.mem_add, ih]
      constructor
      · rintro (ha | ⟨i, s, hs, hocc, rfl⟩)
        · by_cases hocc : a.Occupied
          · rw [Slot.entry_of_occupied hocc, Multiset.mem_singleton] at ha
            exact ⟨0, a, rfl, hocc, ha.symm⟩
          · rw [Slot.entry_of_empty (not_not.mp hocc)] at ha
            simp at ha
        · exact ⟨i + 1, s, by simpa using hs, hocc, rfl⟩
      · rintro ⟨i, s, hs, hocc, rfl⟩
        cases i with
        | zero =>
            obtain rfl : a = s := by simpa using hs
            exact Or.inl (by rw [Slot.entry_of_occupied hocc]; simp)
        | succ i => exact Or.inr ⟨i, s, by simpa using hs, hocc, rfl⟩

/-- An entry of the table is that of an occupied slot.
Source: none
Kind: L -/
theorem Table.mem_contents {t : Table K V} {e : K × V} :
    e ∈ t.contents ↔
      ∃ (i : ℕ) (s : Slot K V), t.slots[i]? = some s ∧ s.Occupied ∧ (s.key, s.val) = e := mem_bag

/-- A key of the table is that of an occupied slot.
Source: none
Kind: L -/
theorem Table.mem_keys {t : Table K V} {k : K} :
    k ∈ t.keys ↔ ∃ (i : ℕ) (s : Slot K V), t.slots[i]? = some s ∧ s.Occupied ∧ s.key = k := by
  simp only [Table.keys, Multiset.mem_map, Table.mem_contents]
  constructor
  · rintro ⟨e, ⟨i, s, hs, hocc, rfl⟩, rfl⟩
    exact ⟨i, s, hs, hocc, rfl⟩
  · rintro ⟨i, s, hs, hocc, rfl⟩
    exact ⟨_, ⟨i, s, hs, hocc, rfl⟩, rfl⟩

/-- With distinct keys, no key is in two slots.
Source: none
Kind: L -/
theorem index_eq_of_key_eq [Inhabited K] [Inhabited V] {l : List (Slot K V)}
    (hnd : ((bag l).map Prod.fst).Nodup) {i j : ℕ} {a b : Slot K V} (ha : l[i]? = some a)
    (hb : l[j]? = some b) (hao : a.Occupied) (hbo : b.Occupied) (hkey : a.key = b.key) :
    i = j := by
  by_contra hij
  -- Emptying slot `i` takes one copy of the key away, and slot `j` still holds another.
  have hset := bag_set ha Slot.zero
  rw [Slot.entry_of_occupied hao, Slot.entry_of_empty rfl, add_zero] at hset
  rw [← hset, Multiset.map_add, Multiset.map_singleton, add_comm, Multiset.singleton_add,
    Multiset.nodup_cons] at hnd
  apply hnd.1
  refine Multiset.mem_map.mpr ⟨(b.key, b.val), mem_bag.mpr ⟨j, b, ?_, hbo, rfl⟩, hkey.symm⟩
  rw [List.getElem?_set_ne hij]
  exact hb

/-- One slot write, read on the distances.
Source: none
Kind: L -/
theorem Table.dibAt_set (t : Table K V) {i : ℕ} (hi : i < t.slots.length) (s : Slot K V)
    (c : ℕ) : Table.dibAt { t with slots := t.slots.set i s, count := c } =
      Function.update t.dibAt i s.dib := by
  funext j
  unfold Table.dibAt
  by_cases hij : j = i
  · subst hij
    rw [Function.update_self, List.getElem?_set_self hi]
    rfl
  · rw [Function.update_of_ne hij, List.getElem?_set_ne (Ne.symm hij)]

/-- The distance at an index is that of its slot.
Source: none
Kind: L -/
theorem Table.dibAt_of_getElem? {t : Table K V} {i : ℕ} {s : Slot K V}
    (hs : t.slots[i]? = some s) : t.dibAt i = s.dib := by
  unfold Table.dibAt
  rw [hs]
  rfl

/-- A recorded distance comes from an occupied slot.
Source: none
Kind: L -/
theorem Table.exists_of_dibAt {t : Table K V} {i d : ℕ} (h : t.dibAt i = some d) :
    ∃ s, t.slots[i]? = some s ∧ s.Occupied ∧ (dibOf s.metadata).toNat = d := by
  unfold Table.dibAt at h
  obtain ⟨s, hs, hd⟩ := Option.bind_eq_some_iff.mp h
  unfold Slot.dib at hd
  split_ifs at hd with hz
  exact ⟨s, hs, hz, by simpa using hd⟩

/-- The contents after a slot write.
Source: none
Kind: L -/
theorem Table.contents_write {t : Table K V} {i : ℕ} {s : Slot K V} (hs : t.slots[i]? = some s)
    (s' : Slot K V) (c : ℕ) : Table.contents { t with slots := t.slots.set i s', count := c } + s.entry =
      t.contents + s'.entry :=
  bag_set hs s'

/-- A table with fewer entries than slots has an empty slot.
Source: none
Kind: L -/
theorem exists_empty_of_card_lt {l : List (Slot K V)} (h : (bag l).card < l.length) :
    ∃ (j : ℕ) (s : Slot K V), l[j]? = some s ∧ s.metadata = 0 := by
  induction l with
  | nil => simp at h
  | cons a l ih =>
      by_cases ha : a.metadata = 0
      · exact ⟨0, a, rfl, ha⟩
      · rw [bag_cons, Slot.entry_of_occupied ha] at h
        obtain ⟨j, s, hs, hz⟩ := ih (by simpa [Nat.add_comm] using h)
        exact ⟨j + 1, s, by simpa using hs, hz⟩

/-- The stored pairs with a property, counted slot by slot.
Source: none
Kind: L -/
theorem countP_bag (P : K × V → Prop) [DecidablePred P] (l : List (Slot K V)) :
    (bag l).countP P =
      ((Finset.range l.length).filter fun i =>
        ∃ s, l[i]? = some s ∧ s.Occupied ∧ P (s.key, s.val)).card := by
  induction l using List.reverseRecOn with
  | nil => rfl
  | append_singleton l s ih =>
      rw [bag_append, bag_cons, bag_nil, add_zero, Multiset.countP_add, ih, List.length_append,
        List.length_singleton, Finset.range_add_one, Finset.filter_insert]
      have hold : ((Finset.range l.length).filter fun i =>
          ∃ s', (l ++ [s])[i]? = some s' ∧ s'.Occupied ∧ P (s'.key, s'.val)) =
          (Finset.range l.length).filter fun i =>
            ∃ s', l[i]? = some s' ∧ s'.Occupied ∧ P (s'.key, s'.val) := by
        refine Finset.filter_congr fun i hi => ?_
        rw [List.getElem?_append_left (Finset.mem_range.mp hi)]
      rw [hold]
      have hlast : (l ++ [s])[l.length]? = some s := by simp
      by_cases hs : s.Occupied ∧ P (s.key, s.val)
      · rw [if_pos ⟨s, hlast, hs⟩, Finset.card_insert_of_notMem (by simp),
          Slot.entry_of_occupied hs.1, ← Multiset.cons_zero, Multiset.countP_cons_of_pos _ hs.2,
          Multiset.countP_zero]
      · have hnone : s.entry.countP P = 0 := by
          rw [Multiset.countP_eq_zero]
          intro e he hP
          by_cases hocc : s.Occupied
          · rw [Slot.entry_of_occupied hocc, Multiset.mem_singleton] at he
            exact hs ⟨hocc, he ▸ hP⟩
          · rw [Slot.entry_of_empty (not_not.mp hocc)] at he
            simp at he
        rw [hnone, add_zero, if_neg]
        rintro ⟨s', hs', hocc⟩
        rw [hlast] at hs'
        cases hs'
        exact hs hocc

/-! ### The invariant -/

section invariant

variable [Inhabited K] [Inhabited V]

/-- An occupied slot stores its key's own hash and fragment, and a distance that leads from
the home bucket to the slot without going round the cycle.
Source: `internal/shardmap/table_test.go` `checkInvariants`
Kind: D -/
structure Slot.FitsAt (hf : K → UInt64) (n i : ℕ) (s : Slot K V) : Prop where
  hash_eq : s.hash = hf s.key
  frag_eq : s.metadata &&& fragMask = fragOf s.hash
  dib_le : dibOf s.metadata ≤ maxDib
  dib_lt : (dibOf s.metadata).toNat < n
  reach : (s.hash.toNat % n + (dibOf s.metadata).toNat) % n = i

/-- The layout half of the table invariant.
Source: `internal/shardmap/table_test.go` `checkInvariants`
Kind: D -/
structure Table.Laid (hf : K → UInt64) (t : Table K V) : Prop where
  cap_pow : ∃ p, 3 ≤ p ∧ t.cap = 2 ^ p
  capm1_eq : t.capm1 = t.cap - 1
  growAt_eq : t.growAt = t.cap * loadNum / loadDen
  fits : ∀ (i : ℕ) (s : Slot K V), t.slots[i]? = some s → s.Occupied → s.FitsAt hf t.cap i
  ordered : Ordered t.cap t.dibAt
  blank : ∀ s ∈ t.slots, ¬ s.Occupied → s = Slot.zero

/-- The table invariant: the layout, an exact count, and distinct keys.
Source: `internal/shardmap/table_test.go` `checkInvariants`
Kind: D -/
structure Table.Arranged (hf : K → UInt64) (t : Table K V) : Prop extends Table.Laid hf t where
  count_eq : t.count = t.contents.card
  nodup : t.keys.Nodup

variable {hf : K → UInt64} {t : Table K V}

/-- A table has at least eight slots.
Source: `internal/shardmap/table_test.go` `checkInvariants`
Kind: L -/
theorem Table.Laid.eight_le_cap (h : t.Laid hf) : 8 ≤ t.cap := by
  obtain ⟨p, hp, hcap⟩ := h.cap_pow
  rw [hcap]
  calc 8 = 2 ^ 3 := rfl
    _ ≤ 2 ^ p := Nat.pow_le_pow_right (by omega) hp

/-- Masking is reduction modulo the capacity.
Source: `internal/shardmap/table_test.go` `checkInvariants`
Kind: L -/
theorem Table.Laid.and_capm1 (h : t.Laid hf) (x : ℕ) : x &&& t.capm1 = x % t.cap := by
  obtain ⟨p, -, hcap⟩ := h.cap_pow
  rw [h.capm1_eq, hcap, Nat.and_two_pow_sub_one_eq_mod]

/-- The home of a hash, modulo the capacity.
Source: `internal/shardmap/table_test.go` `checkInvariants`
Kind: L -/
theorem Table.Laid.home_eq (h : t.Laid hf) (hash : UInt64) : t.home hash = hash.toNat % t.cap :=
  h.and_capm1 _

/-- The next slot, modulo the capacity.
Source: `internal/shardmap/table_test.go` `checkInvariants`
Kind: L -/
theorem Table.Laid.next_eq (h : t.Laid hf) (i : ℕ) : t.next i = (i + 1) % t.cap :=
  h.and_capm1 _

/-- The next slot is a slot of the table.
Source: `internal/shardmap/table_test.go` `checkInvariants`
Kind: L -/
theorem Table.Laid.next_lt (h : t.Laid hf) (i : ℕ) : t.next i < t.slots.length := by
  rw [h.next_eq]
  exact Nat.mod_lt _ (by have := h.eight_le_cap; omega)

/-- The grow threshold leaves an empty slot.
Source: `internal/shardmap/table.go` `growAt`
Kind: L -/
theorem Table.Laid.growAt_lt_cap (h : t.Laid hf) : t.growAt < t.cap := by
  have := h.eight_le_cap
  rw [h.growAt_eq]
  unfold loadNum loadDen
  omega

/-- A slot write keeps the layout if the written slot fits and the distances stay ordered.
Source: none
Kind: P -/
theorem Table.Laid.write (h : t.Laid hf) {i : ℕ} (hi : i < t.slots.length) (s : Slot K V)
    (c : ℕ) (hfit : s.Occupied → s.FitsAt hf t.cap i) (hblank : ¬ s.Occupied → s = Slot.zero)
    (hord : Ordered t.cap (Function.update t.dibAt i s.dib)) :
    Table.Laid hf { t with slots := t.slots.set i s, count := c } where
  cap_pow := by
    simpa [Table.cap] using h.cap_pow
  capm1_eq := by
    simpa [Table.cap] using h.capm1_eq
  growAt_eq := by
    simpa [Table.cap] using h.growAt_eq
  fits := by
    intro j r hr hocc
    have hcap : Table.cap { t with slots := t.slots.set i s, count := c } = t.cap := by
      simp [Table.cap]
    rw [hcap]
    by_cases hij : i = j
    · subst hij
      simp only [List.getElem?_set_self hi, Option.some.injEq] at hr
      subst hr
      exact hfit hocc
    · simp only [List.getElem?_set_ne hij] at hr
      exact h.fits j r hr hocc
  ordered := by
    rw [t.dibAt_set hi s c]
    simpa [Table.cap] using hord
  blank := by
    intro r hr hempty
    rcases List.mem_or_eq_of_mem_set hr with hr' | rfl
    · exact h.blank r hr' hempty
    · exact hblank hempty

/-- Below the capacity, some slot records no distance.
Source: none
Kind: L -/
theorem Table.Arranged.exists_empty (h : t.Arranged hf) (hlt : t.count < t.cap) :
    ∃ j < t.cap, t.dibAt j = none := by
  rw [h.count_eq] at hlt
  obtain ⟨j, s, hs, hz⟩ := exists_empty_of_card_lt hlt
  refine ⟨j, (List.getElem?_eq_some_iff.mp hs).1, ?_⟩
  rw [Table.dibAt_of_getElem? hs, Slot.dib_of_empty hz]

/-- The early exit: while a stored key lies ahead of a probe, the slot the probe has reached is
occupied and not richer than the probe.
Source: `internal/shardmap/table.go` `lookup`
Kind: P -/
theorem Table.Laid.resident_of_ahead (h : t.Laid hf) {j d : ℕ} {r : Slot K V}
    (hrj : t.slots[j]? = some r) (hocc : r.Occupied) (hd : d ≤ (dibOf r.metadata).toNat) :
    ∃ e, t.dibAt ((r.hash.toNat % t.cap + d) % t.cap) = some e ∧ d ≤ e := by
  have hfit := h.fits j r hrj hocc
  have hdib : t.dibAt ((r.hash.toNat % t.cap + (dibOf r.metadata).toNat) % t.cap) =
      some (dibOf r.metadata).toNat := by
    rw [hfit.reach, Table.dibAt_of_getElem? hrj, Slot.dib_of_occupied hocc]
  exact h.ordered.chain (by have := h.eight_le_cap; omega) _ hdib le_rfl d (by omega)

/-- A new array has no entries.
Source: `internal/shardmap/table.go` `newTable`
Kind: L -/
@[simp] theorem Table.contents_alloc (capacity : ℕ) :
    (Table.alloc capacity : Table K V).contents = 0 := by
  simp [Table.contents, bag, Table.alloc, Slot.entry_of_empty (show Slot.zero.metadata = 0 from rfl)]

/-- A freshly allocated table.
Source: `internal/shardmap/table.go` `alloc`
Kind: L -/
theorem Table.arranged_alloc {p : ℕ} (hp : 3 ≤ p) :
    Table.Arranged hf (Table.alloc (2 ^ p) : Table K V) where
  cap_pow := ⟨p, hp, by simp [Table.alloc, Table.cap]⟩
  capm1_eq := by simp [Table.alloc, Table.cap]
  growAt_eq := by simp [Table.alloc, Table.cap]
  fits := by
    intro i s hs hocc
    have hmem := List.mem_of_getElem? hs
    rw [List.eq_of_mem_replicate hmem] at hocc
    exact absurd rfl hocc
  ordered := by
    apply ordered_of_empty
    intro i
    unfold Table.dibAt
    cases hs : (Table.alloc (2 ^ p) : Table K V).slots[i]? with
    | none => rfl
    | some s =>
        rw [List.eq_of_mem_replicate (List.mem_of_getElem? hs)]
        rfl
  blank := fun s hs _ => List.eq_of_mem_replicate hs
  count_eq := by
    rw [Table.contents_alloc]
    rfl
  nodup := by
    rw [Table.keys, Table.contents_alloc]
    simp

end invariant

end CacheMoney.Shardmap
