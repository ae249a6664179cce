import CacheMoney.Shardmap.Insert

/-!
# Search and deletion

`lookup` returns the stored value, and `delete` removes exactly its key.

* `Table.probe_correct`: the search loop finds the key's slot, and gives up only when the key is
  absent. The probe stays behind the key's slot, so both exits contradict
  `Laid.resident_of_ahead`.
* `Table.Holed`: the loop invariant of the backward shift. The layout is kept by every single
  write; only the slot to be vacated next is stored twice, so the contents are read with that
  slot emptied.
* `Table.delete_correct`: the pair is gone, the rest is kept, and a shrink changes neither.
-/

set_option linter.unusedSectionVars false

namespace CacheMoney.Shardmap

open CacheMoney.Found CacheMoney.Found.RobinHood

variable {K V : Type} [DecidableEq K] [Inhabited K] [Inhabited V] {hf : K → UInt64}
  {t : Table K V}

/-! ### Search -/

/-- What the search loop returns.
Source: `internal/shardmap/table.go` `lookup`, `delete`
Kind: D -/
def Table.Found (t : Table K V) (key : K) : Option ℕ → Prop
  | none => key ∉ t.keys
  | some i => ∃ s, t.slots[i]? = some s ∧ s.Occupied ∧ s.key = key

/-- The search loop, from any point of the probe sequence that is not past the key.
Source: `internal/shardmap/table.go` `lookup`, `delete`
Kind: P -/
theorem Table.probe_correct_from (ht : t.Arranged hf) (key : K) (fuel : ℕ) :
    ∀ (i : ℕ) (dib : UInt16), dib.toNat ≤ 255 →
      ((hf key).toNat % t.cap + dib.toNat) % t.cap = i →
      (∀ (j : ℕ) (r : Slot K V), t.slots[j]? = some r → r.Occupied → r.key = key →
        dib.toNat ≤ (dibOf r.metadata).toNat) →
      Ensures (t.probe (fragOf (hf key)) key fuel i dib) (t.Found key) := by
  induction fuel with
  | zero =>
      intro i dib _ _ _
      rw [Table.probe]
      trivial
  | succ fuel ih =>
      intro i dib hdib hpos hahead
      have hi : i < t.slots.length := by
        rw [← hpos]
        exact Nat.mod_lt _ (by have := ht.eight_le_cap; omega)
      have hres : key ∈ t.keys → ∃ e, t.dibAt i = some e ∧ dib.toNat ≤ e := by
        intro hmem
        obtain ⟨j, r, hrj, hocc, hkey⟩ := Table.mem_keys.mp hmem
        have h := ht.resident_of_ahead hrj hocc (hahead j r hrj hocc hkey)
        rwa [(ht.fits j r hrj hocc).hash_eq, hkey, hpos] at h
      rw [Table.probe, index_eq_ok hi, ok_bind]
      have hs : t.slots[i]? = some t.slots[i] := List.getElem?_eq_getElem hi
      generalize t.slots[i] = s at hs
      split_ifs with hz hrich hhit
      · intro hmem
        obtain ⟨e, he, -⟩ := hres hmem
        rw [Table.dibAt_of_getElem? hs, Slot.dib_of_empty hz] at he
        cases he
      · intro hmem
        obtain ⟨e, he, hle⟩ := hres hmem
        rw [Table.dibAt_of_getElem? hs, Slot.dib_of_occupied hz] at he
        cases he
        have hrich' : (dibOf s.metadata).toNat < dib.toNat := hrich
        omega
      · exact ⟨s, hs, hz, hhit.2⟩
      · have hle : dib.toNat ≤ (dibOf s.metadata).toNat := UInt16.not_lt.mp hrich
        have hmax : (dibOf s.metadata).toNat ≤ 254 := (ht.fits i s hs hz).dib_le
        have hsucc : (dib + 1).toNat = dib.toNat + 1 := by
          rw [UInt16.toNat_add]
          exact Nat.mod_eq_of_lt (by simp; omega)
        refine ih (t.next i) (dib + 1) (by omega) ?_ ?_
        · rw [hsucc, ← step_mod, hpos, ht.next_eq]
        · intro j r hrj hocc hkey
          rw [hsucc]
          rcases (hahead j r hrj hocc hkey).lt_or_eq with hlt | heq
          · exact hlt
          · exfalso
            have hfit := ht.fits j r hrj hocc
            have hji : j = i := by rw [← hfit.reach, hfit.hash_eq, hkey, ← heq, hpos]
            rw [hji, hs] at hrj
            cases hrj
            exact hhit ⟨by rw [hfit.frag_eq, hfit.hash_eq, hkey], hkey⟩

/-- The search loop, as `lookup` and `delete` start it.
Source: `internal/shardmap/table.go` `lookup`, `delete`
Kind: P -/
theorem Table.probe_correct (ht : t.Arranged hf) (fuel : ℕ) (key : K) :
    Ensures (t.probe (fragOf (hf key)) key fuel (t.home (hf key)) 0) (t.Found key) := by
  refine Table.probe_correct_from ht key fuel _ 0 (by simp) ?_ (by simp)
  rw [ht.home_eq]
  simp

/-- The search ends: its distance grows with every step, and no resident is farther from home than
`maxDib`.
Source: `internal/shardmap/table.go` `lookup`, `delete`
Kind: L -/
theorem Table.Laid.probe_ne_outOfFuel (ht : t.Laid hf) (frag : UInt16) (key : K) (fuel : ℕ) :
    ∀ (i : ℕ) (dib : UInt16), i < t.slots.length → dib.toNat ≤ 255 → 256 ≤ fuel + dib.toNat →
      t.probe frag key fuel i dib ≠ .error .outOfFuel := by
  induction fuel with
  | zero =>
      intro i dib _ hdib hfuel
      omega
  | succ fuel ih =>
      intro i dib hi hdib hfuel
      rw [Table.probe, index_eq_ok hi, ok_bind]
      have hs : t.slots[i]? = some t.slots[i] := List.getElem?_eq_getElem hi
      generalize t.slots[i] = s at hs
      split_ifs with hz hrich hhit
      · exact fun h => by cases h
      · exact fun h => by cases h
      · exact fun h => by cases h
      · have hle : dib.toNat ≤ (dibOf s.metadata).toNat := UInt16.not_lt.mp hrich
        have hmax : (dibOf s.metadata).toNat ≤ 254 := (ht.fits i s hs hz).dib_le
        have hsucc : (dib + 1).toNat = dib.toNat + 1 := by
          rw [UInt16.toNat_add]
          exact Nat.mod_eq_of_lt (by simp; omega)
        exact ih (t.next i) (dib + 1) (ht.next_lt i) (by omega) (by omega)

/-- A probe from home ends within the longest distance, at the key or at its absence.
Source: `internal/shardmap/table.go` `lookup`, `delete`
Kind: L -/
theorem Table.probe_returns (ht : t.Arranged hf) {fuel : ℕ} (hfuel : 256 ≤ fuel) (key : K) :
    Returns (t.probe (fragOf (hf key)) key fuel (t.home (hf key)) 0) (t.Found key) := by
  have hhome : t.home (hf key) < t.slots.length := by
    rw [ht.home_eq]
    exact Nat.mod_lt _ (by have := ht.eight_le_cap; omega)
  rcases (Table.probe_correct ht fuel key).ok_or_outOfFuel with h | h
  · exact h
  · exact absurd h (ht.probe_ne_outOfFuel _ _ fuel _ 0 hhome (by simp) (by simpa using hfuel))

/-- With distinct keys the value under a key is determined.
Source: none
Kind: L -/
theorem Table.Arranged.val_unique (ht : t.Arranged hf) {k : K} {v w : V}
    (hv : (k, v) ∈ t.contents) (hw : (k, w) ∈ t.contents) : v = w := by
  obtain ⟨i, a, ha, hao, hav⟩ := Table.mem_contents.mp hv
  obtain ⟨j, b, hb, hbo, hbw⟩ := Table.mem_contents.mp hw
  cases hav
  have hkey : a.key = b.key := (congrArg Prod.fst hbw).symm
  have hij := index_eq_of_key_eq ht.nodup ha hb hao hbo hkey
  rw [hij, hb] at ha
  cases ha
  exact (congrArg Prod.snd hbw)

/-- An occupied slot reports its value under its key.
Source: none
Kind: L -/
theorem Table.Arranged.reports_some (ht : t.Arranged hf) {i : ℕ} {s : Slot K V}
    (hs : t.slots[i]? = some s) (hocc : s.Occupied) : Reports t.contents s.key (some s.val) := by
  intro v
  have hmem : (s.key, s.val) ∈ t.contents := Table.mem_contents.mpr ⟨i, s, hs, hocc, rfl⟩
  simp only [Option.some.injEq]
  constructor
  · rintro rfl
    exact hmem
  · exact fun hv => ht.val_unique hmem hv

/-- The specification of `lookup`.
Source: `internal/shardmap/table.go` `lookup`
Kind: P -/
theorem Table.lookup_correct (ht : t.Arranged hf) (fuel : ℕ) (k : K) :
    Ensures (t.lookup fuel (hf k) k) (Reports t.contents k) := by
  unfold Table.lookup
  refine (Table.probe_correct ht fuel k).bind fun r hr => ?_
  cases r with
  | none => exact reports_none hr
  | some i =>
      obtain ⟨s, hs, hocc, rfl⟩ := hr
      have hidx : index t.slots i = .ok s := index_eq_ok_iff.mpr hs
      simp only [hidx, ok_bind, ensures_pure]
      exact ht.reports_some hs hocc

/-- A search returns, whatever the table holds.
Source: `internal/shardmap/table.go` `lookup`
Kind: P -/
theorem Table.lookup_returns (ht : t.Arranged hf) {fuel : ℕ} (hfuel : 256 ≤ fuel) (k : K) :
    Returns (t.lookup fuel (hf k) k) (Reports t.contents k) := by
  rcases (Table.lookup_correct ht fuel k).ok_or_outOfFuel with h | h
  · exact h
  · obtain ⟨r, hr, hfound⟩ := Table.probe_returns ht hfuel k
    rw [Table.lookup, hr, ok_bind] at h
    cases r with
    | none => cases h
    | some i =>
        obtain ⟨s, hs, -, -⟩ := hfound
        simp only [index_eq_ok_iff.mpr hs, ok_bind] at h
        cases h

/-! ### The backward shift -/

/-- The loop invariant of the backward shift: slot `i` is about to be overwritten, and without
it the contents are `M`.
Source: `internal/shardmap/table.go` `delete`
Kind: D -/
structure Table.Holed (hf : K → UInt64) (M : Multiset (K × V)) (t : Table K V) (i : ℕ) :
    Prop where
  laid : t.Laid hf
  lt : i < t.slots.length
  rest : bag (t.slots.set i Slot.zero) = M

/-- A slot's entry one step nearer its home, as the shift writes it.
Source: `internal/shardmap/table.go` `delete`
Kind: D -/
def Slot.pulled (s : Slot K V) : Slot K V :=
  { s with metadata := packMeta (dibOf s.metadata - 1) (s.metadata &&& fragMask) }

/-- One shift moves the hole one slot on.
Source: `internal/shardmap/table.go` `delete`
Kind: P -/
theorem Table.Holed.shift {M : Multiset (K × V)} {i : ℕ} (h : t.Holed hf M i) {s : Slot K V}
    (hs : t.slots[t.next i]? = some s) (hocc : s.Occupied) (hpos : 0 < dibOf s.metadata) :
    Table.Holed hf M { t with slots := t.slots.set i s.pulled } (t.next i) := by
  have hfit := h.laid.fits _ s hs hocc
  have hcap := h.laid.eight_le_cap
  have hi : i < t.cap := h.lt
  have hpos' : 0 < (dibOf s.metadata).toNat := hpos
  have hpred : (dibOf s.metadata - 1).toNat = (dibOf s.metadata).toNat - 1 :=
    UInt16.toNat_sub_of_le _ _ hpos'
  have hmax : dibOf s.metadata - 1 ≤ maxDib := by
    have h254 : (dibOf s.metadata).toNat ≤ 254 := hfit.dib_le
    show (dibOf s.metadata - 1).toNat ≤ 254
    omega
  have hfrag : s.metadata &&& fragMask ≤ fragMask := by
    rw [hfit.frag_eq]
    exact fragOf_le _
  have hocc' : s.pulled.Occupied := packMeta_ne_zero hmax hfrag
  have hdib' : s.pulled.dib = some ((dibOf s.metadata).toNat - 1) := by
    rw [Slot.dib_of_occupied hocc']
    simp only [Slot.pulled]
    rw [dibOf_packMeta hmax hfrag, hpred]
  have hnext := h.laid.next_eq i
  have hlaid : Table.Laid hf { t with slots := t.slots.set i s.pulled, count := t.count } := by
    refine h.laid.write h.lt s.pulled t.count (fun _ => ?_) (fun hn => absurd hocc' hn) ?_
    · refine ⟨hfit.hash_eq, ?_, ?_, ?_, ?_⟩ <;> simp only [Slot.pulled]
      · rw [packMeta_and_fragMask hmax hfrag]
        exact hfit.frag_eq
      · rw [dibOf_packMeta hmax hfrag]
        exact hmax
      · have hlt := hfit.dib_lt
        rw [dibOf_packMeta hmax hfrag, hpred]
        omega
      · rw [dibOf_packMeta hmax hfrag, hpred]
        apply eq_of_step_eq (Nat.mod_lt _ (by omega)) hi
        rw [step_mod, Nat.sub_add_cancel hpos', hfit.reach, hnext]
    · rw [hdib']
      refine h.laid.ordered.pull (by omega) hi ?_
      rw [← hnext, Table.dibAt_of_getElem? hs, Slot.dib_of_occupied hocc,
        Nat.sub_add_cancel hpos']
  refine ⟨hlaid, by simpa using h.laid.next_lt i, ?_⟩
  -- Moving the pair from `next i` to `i` leaves the multiset without the hole as it was.
  have hne : i ≠ t.next i := by
    rw [hnext]
    exact (step_ne_self (by omega) hi).symm
  have hold : t.slots[i]? = some t.slots[i] := List.getElem?_eq_getElem h.lt
  have hmoved : bag (t.slots.set i s.pulled) = M + s.pulled.entry := by
    have h1 := bag_set hold s.pulled
    have h2 := bag_set hold Slot.zero
    rw [h.rest, Slot.entry_of_empty (show (Slot.zero : Slot K V).metadata = 0 from rfl),
      add_zero] at h2
    rw [← h2, add_right_comm] at h1
    exact add_right_cancel h1
  have hlast : (t.slots.set i s.pulled)[t.next i]? = some s := by
    rw [List.getElem?_set_ne hne]
    exact hs
  have h3 := bag_set hlast Slot.zero
  rw [hmoved, Slot.entry_of_empty (show (Slot.zero : Slot K V).metadata = 0 from rfl), add_zero,
    Slot.entry_of_occupied hocc, Slot.entry_of_occupied hocc'] at h3
  exact add_right_cancel h3

/-- The backward shift stops at a hole whose successor is empty or at home.
Source: `internal/shardmap/table.go` `delete`
Kind: P -/
theorem Table.shiftBack_correct {M : Multiset (K × V)} (fuel : ℕ) :
    ∀ (t : Table K V) (i : ℕ), t.Holed hf M i →
      Ensures (Table.shiftBack fuel t i (t.next i)) fun r =>
        r.1.Holed hf M r.2 ∧ (∀ d, r.1.dibAt (r.1.next r.2) ≠ some (d + 1)) ∧
          r.1.cap = t.cap ∧ r.1.count = t.count := by
  induction fuel with
  | zero =>
      intro t i _
      rw [Table.shiftBack]
      trivial
  | succ fuel ih =>
      intro t i h
      have hj := h.laid.next_lt i
      rw [Table.shiftBack, index_eq_ok hj, ok_bind]
      have hs : t.slots[t.next i]? = some t.slots[t.next i] := List.getElem?_eq_getElem hj
      generalize t.slots[t.next i] = s at hs
      split_ifs with hshift
      · rw [store_eq_ok _ h.lt, ok_bind]
        refine (ih _ (t.next i) (h.shift hs hshift.1 hshift.2)).mono fun r hr => ?_
        refine ⟨hr.1, hr.2.1, ?_, hr.2.2.2⟩
        rw [hr.2.2.1]
        simp [Table.cap]
      · refine ⟨h, fun d hd => hshift ?_, rfl, rfl⟩
        obtain ⟨s', hs', hocc, hdib⟩ := Table.exists_of_dibAt hd
        rw [hs] at hs'
        cases hs'
        refine ⟨hocc, ?_⟩
        show 0 < (dibOf s.metadata).toNat
        omega

/-! ### Deletion -/

/-- A shrink changes neither the contents nor the invariant.
Source: `internal/shardmap/table.go` `shrink`
Kind: P -/
theorem Table.shrink_correct (ht : t.Arranged hf) (hcount : t.count ≤ t.growAt) (fuel : ℕ) :
    Ensures (Table.shrink fuel t) fun t' =>
      t'.Arranged hf ∧ t'.contents = t.contents ∧ t'.count ≤ t'.growAt := by
  unfold Table.shrink
  split_ifs with hmin hload
  · exact ⟨ht, rfl, hcount⟩
  · exact ⟨ht, rfl, hcount⟩
  · obtain ⟨p, hp, hcap⟩ := ht.cap_pow
    have hp4 : 3 < p := by
      by_contra hle
      have : p = 3 := by omega
      subst this
      exact hmin (by rw [hcap]; decide)
    have hhalf : t.cap / 2 = 2 ^ (p - 1) := by
      rw [hcap]
      obtain ⟨q, rfl⟩ : ∃ q, p = q + 1 := ⟨p - 1, by omega⟩
      rw [pow_succ, Nat.mul_div_cancel _ (by omega), Nat.add_sub_cancel]
    have hfit : t.count ≤ t.cap / 2 * loadNum / loadDen := by
      unfold shrinkNum shrinkDen at hload
      unfold loadNum loadDen
      omega
    rw [hhalf] at hfit ⊢
    refine ((insertion_correct hf fuel).2.2.2 t (p - 1) ht (by omega) hfit).mono fun t' hr => ?_
    refine ⟨hr.arranged, hr.contents_eq, ?_⟩
    have hle := hr.cap_le
    rw [hr.arranged.count_eq, hr.contents_eq, ← ht.count_eq, hr.arranged.growAt_eq]
    unfold loadNum loadDen at hfit ⊢
    omega

/-- Vacating the last hole: the table without the removed pair is arranged.
Source: `internal/shardmap/table.go` `delete`
Kind: P -/
theorem Table.Holed.vacate {M : Multiset (K × V)} {i : ℕ} (h : t.Holed hf M i)
    (hstop : ∀ d, t.dibAt (t.next i) ≠ some (d + 1)) (hcard : t.count = M.card + 1)
    (hnd : (M.map Prod.fst).Nodup) :
    Table.Arranged hf { t with slots := t.slots.set i Slot.zero, count := t.count - 1 } := by
  have hlaid := h.laid.write h.lt Slot.zero (t.count - 1) (fun hocc => absurd rfl hocc)
    (fun _ => rfl) (by
      rw [Slot.dib_of_empty rfl]
      refine h.laid.ordered.vacate fun d => ?_
      rw [← h.laid.next_eq]
      exact hstop d)
  refine ⟨hlaid, ?_, ?_⟩
  · show t.count - 1 = (bag (t.slots.set i Slot.zero)).card
    rw [h.rest, hcard, Nat.add_sub_cancel]
  · show ((bag (t.slots.set i Slot.zero)).map Prod.fst).Nodup
    rw [h.rest]
    exact hnd

/-- The contents around the pair of one slot.
Source: none
Kind: L -/
theorem Table.contents_split {i : ℕ} {s : Slot K V} (hs : t.slots[i]? = some s)
    (hocc : s.Occupied) : t.contents = (s.key, s.val) ::ₘ bag (t.slots.set i Slot.zero) := by
  have hsplit := bag_set hs Slot.zero
  rw [Slot.entry_of_empty (show (Slot.zero : Slot K V).metadata = 0 from rfl), add_zero,
    Slot.entry_of_occupied hocc, add_comm, Multiset.singleton_add] at hsplit
  exact hsplit.symm

/-- The table that `delete` leaves before it shrinks: the shift began at the slot found and has
stopped.
Source: `internal/shardmap/table.go` `delete`
Kind: L -/
theorem Table.Arranged.vacated (ht : t.Arranged hf) {i : ℕ} {s : Slot K V}
    (hs : t.slots[i]? = some s) (hocc : s.Occupied) {r : Table K V} {j : ℕ}
    (hr : r.Holed hf (bag (t.slots.set i Slot.zero)) j)
    (hstop : ∀ d, r.dibAt (r.next j) ≠ some (d + 1)) (hcount : r.count = t.count) :
    Table.Arranged hf { r with slots := r.slots.set j Slot.zero, count := r.count - 1 } := by
  have hnd := ht.nodup
  rw [Table.keys, Table.contents_split hs hocc, Multiset.map_cons, Multiset.nodup_cons] at hnd
  refine hr.vacate hstop ?_ hnd.2
  rw [hcount, ht.count_eq, Table.contents_split hs hocc, Multiset.card_cons]

/-- What a deletion of `k` may do to a table.
Source: `internal/shardmap/table.go` `delete`
Kind: D -/
structure Table.Removed (hf : K → UInt64) (t : Table K V) (k : K) (r : Option V × Table K V) :
    Prop where
  arranged : r.2.Arranged hf
  count_le : r.2.count ≤ r.2.growAt
  contents_eq : r.2.contents = t.contents.filter (fun e => e.1 ≠ k)
  reports : Reports t.contents k r.1

/-- The specification of `delete`.
Source: `internal/shardmap/table.go` `delete`
Kind: P -/
theorem Table.delete_correct (ht : t.Arranged hf) (hcount : t.count ≤ t.growAt) (fuel : ℕ)
    (k : K) : Ensures (t.delete fuel (hf k) k) (t.Removed hf k) := by
  unfold Table.delete
  refine (Table.probe_correct ht fuel k).bind fun r hr => ?_
  cases r with
  | none => exact ⟨ht, hcount, (filter_ne_of_not_mem hr).symm, reports_none hr⟩
  | some i =>
      obtain ⟨s, hs, hocc, rfl⟩ := hr
      have hi : i < t.slots.length := (List.getElem?_eq_some_iff.mp hs).1
      -- Without the removed pair, the contents are what the shift keeps.
      have hrest : bag (t.slots.set i Slot.zero) = t.contents.filter (fun e => e.1 ≠ s.key) := by
        have hnd := ht.nodup
        rw [Table.keys, Table.contents_split hs hocc] at hnd
        rw [Table.contents_split hs hocc, filter_ne_cons hnd]
      have hhole : t.Holed hf (bag (t.slots.set i Slot.zero)) i := ⟨ht.toLaid, hi, rfl⟩
      have hidx : index t.slots i = .ok s := index_eq_ok_iff.mpr hs
      simp only [hidx, ok_bind]
      refine (Table.shiftBack_correct fuel t i hhole).bind fun q hq => ?_
      obtain ⟨hq, hstop, hcapq, hcountq⟩ := hq
      have harr := ht.vacated hs hocc hq hstop hcountq
      simp only [store_eq_ok _ hq.lt, ok_bind]
      have hle : q.1.count - 1 ≤ q.1.growAt := by
        have hgrow := hq.laid.growAt_eq
        rw [hcapq, ← ht.growAt_eq] at hgrow
        omega
      refine (Table.shrink_correct harr hle fuel).bind fun t' ht' => ?_
      refine ⟨ht'.1, ht'.2.2, ?_, ht.reports_some hs hocc⟩
      rw [ht'.2.1, ← hrest]
      exact hq.rest

end CacheMoney.Shardmap
