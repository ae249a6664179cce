import CacheMoney.Shardmap.Layout

/-!
# Insertion keeps the table arranged

The specification of `set`, `grow`, `resize` and `insert`: an arranged table stays arranged,
and its contents change by exactly the stored pair (`upsert`), whatever was robbed on the way
and however often the overflow valve fired.

`Carried.Ready` is the loop invariant of `set`. The entry in hand has probed `curDib` slots from
its home, all occupied and none richer; if it has been swapped in, its key is nowhere in the
table; if it is still the original entry, its key can only lie ahead. The four branches of the
loop are `Ready.place`, `Ready.overwrite`, `Ready.rob` and `Ready.advance`, and the four mutually
recursive functions are then one induction on the clock (`insertion_correct`).
-/

set_option linter.unusedSectionVars false

namespace CacheMoney.Shardmap

open CacheMoney.Found CacheMoney.Found.RobinHood

/-! ### The loop invariant of `set` -/

variable {K V : Type} [DecidableEq K] [Inhabited K] [Inhabited V] {hf : K → UInt64}
  {t : Table K V} {c : Carried K V}

/-- The carried entry is ready to be written at the slot the loop has reached.
Source: `internal/shardmap/table.go` `set`
Kind: D -/
structure Carried.Ready (hf : K → UInt64) (t : Table K V) (c : Carried K V) : Prop where
  hash_eq : c.curHash = hf c.curKey
  frag_eq : c.curFrag = fragOf c.curHash
  dib_le : c.curDib.toNat ≤ 255
  pos : (c.curHash.toNat % t.cap + c.curDib.toNat) % t.cap = c.i
  pushed : Pushed t.cap t.dibAt (c.curHash.toNat % t.cap) c.curDib.toNat
  fresh : c.swapped = true → c.curKey ∉ t.keys
  ahead : ∀ (i : ℕ) (s : Slot K V), t.slots[i]? = some s → s.Occupied → s.key = c.curKey →
    c.curDib.toNat ≤ (dibOf s.metadata).toNat

/-- The carried entry stands at a slot of the table.
Source: `internal/shardmap/table.go` `set`
Kind: L -/
theorem Carried.Ready.i_lt (hr : c.Ready hf t) (ht : t.Arranged hf) : c.i < t.slots.length := by
  rw [← hr.pos]
  exact Nat.mod_lt _ (by have := ht.eight_le_cap; omega)

/-- If the key is stored at all, the slot reached is occupied and not richer than the probe.
This is the early exit of `lookup`, used here to know that a robbery or an empty slot means the
key is absent.
Source: `internal/shardmap/table.go` `set`
Kind: L -/
theorem Carried.Ready.resident_of_mem (hr : c.Ready hf t) (ht : t.Arranged hf)
    (hmem : c.curKey ∈ t.keys) : ∃ e, t.dibAt c.i = some e ∧ c.curDib.toNat ≤ e := by
  obtain ⟨j, r, hrj, hocc, hkey⟩ := Table.mem_keys.mp hmem
  have hhome : r.hash = c.curHash := by
    rw [(ht.fits j r hrj hocc).hash_eq, hkey, hr.hash_eq]
  have hres := ht.resident_of_ahead hrj hocc (hr.ahead j r hrj hocc hkey)
  rwa [hhome, hr.pos] at hres

/-- The slot `set` writes for the carried entry.
Source: `internal/shardmap/table.go` `set`
Kind: D -/
def Carried.slot (c : Carried K V) : Slot K V :=
  ⟨packMeta c.curDib c.curFrag, c.curKey, c.curVal, c.curHash⟩

/-- Its fragment fits its bits.
Source: `internal/shardmap/table.go` `set`
Kind: L -/
theorem Carried.Ready.frag_le (hr : c.Ready hf t) : c.curFrag ≤ fragMask := by
  rw [hr.frag_eq]
  exact fragOf_le _

/-- Put down, it occupies its slot.
Source: `internal/shardmap/table.go` `set`
Kind: L -/
theorem Carried.Ready.occupied_slot (hr : c.Ready hf t) (hmax : c.curDib ≤ maxDib) :
    c.slot.Occupied := packMeta_ne_zero hmax hr.frag_le

/-- Put down, it is a well-formed slot at its place.
Source: `internal/shardmap/table.go` `set`
Kind: L -/
theorem Carried.Ready.fitsAt_slot (hr : c.Ready hf t) (hmax : c.curDib ≤ maxDib)
    (hlt : c.curDib.toNat < t.cap) : c.slot.FitsAt hf t.cap c.i where
  hash_eq := hr.hash_eq
  frag_eq := by
    simp only [Carried.slot]
    rw [packMeta_and_fragMask hmax hr.frag_le, hr.frag_eq]
  dib_le := by
    simp only [Carried.slot]
    rw [dibOf_packMeta hmax hr.frag_le]
    exact hmax
  dib_lt := by
    simp only [Carried.slot]
    rw [dibOf_packMeta hmax hr.frag_le]
    exact hlt
  reach := by
    simp only [Carried.slot]
    rw [dibOf_packMeta hmax hr.frag_le]
    exact hr.pos

/-- Put down, its distance is the one it was carried at.
Source: `internal/shardmap/table.go` `set`
Kind: L -/
theorem Carried.Ready.dib_slot (hr : c.Ready hf t) (hmax : c.curDib ≤ maxDib) :
    c.slot.dib = some c.curDib.toNat := by
  rw [Slot.dib_of_occupied (hr.occupied_slot hmax)]
  simp only [Carried.slot]
  rw [dibOf_packMeta hmax hr.frag_le]

/-- Writing the carried entry over an empty slot or a richer resident keeps the layout.
Source: `internal/shardmap/table.go` `set`
Kind: P -/
theorem Carried.Ready.laid_write (hr : c.Ready hf t) (ht : t.Arranged hf)
    (hroom : t.count < t.growAt) (hmax : c.curDib ≤ maxDib)
    (hle : ∀ e, t.dibAt c.i = some e → e ≤ c.curDib.toNat) (m : ℕ) :
    Table.Laid hf { t with slots := t.slots.set c.i c.slot, count := m } := by
  obtain ⟨j, hj, hempty⟩ := ht.exists_empty (hroom.trans ht.growAt_lt_cap)
  have hlt : c.curDib.toNat < t.cap := hr.pushed.lt_of_empty hj hempty
  refine ht.toLaid.write (hr.i_lt ht) c.slot m (fun _ => hr.fitsAt_slot hmax hlt)
    (fun h => absurd (hr.occupied_slot hmax) h) ?_
  rw [hr.dib_slot hmax]
  exact ht.ordered.raise (by have := ht.eight_le_cap; omega) hr.pushed hr.pos hle

/-! ### The four branches -/

/-- What an insertion of `(k, v)` may do to a table.
Source: `internal/shardmap/table.go` `set`
Kind: D -/
structure Table.Stored (hf : K → UInt64) (t : Table K V) (k : K) (v : V) (t' : Table K V) :
    Prop where
  arranged : t'.Arranged hf
  contents_eq : t'.contents = upsert k v t.contents
  cap_le : t.cap ≤ t'.cap

/-- An empty slot takes the carried entry.
Source: `internal/shardmap/table.go` `set`
Kind: L -/
theorem Carried.Ready.place (hr : c.Ready hf t) (ht : t.Arranged hf) (hroom : t.count < t.growAt)
    (hmax : c.curDib ≤ maxDib) {s : Slot K V} (hs : t.slots[c.i]? = some s)
    (hz : s.metadata = 0) :
    Table.Stored hf t c.curKey c.curVal
      { t with slots := t.slots.set c.i c.slot, count := t.count + 1 } := by
  have hdib : t.dibAt c.i = none := by
    rw [Table.dibAt_of_getElem? hs, Slot.dib_of_empty hz]
  have habsent : c.curKey ∉ t.keys := by
    intro hmem
    obtain ⟨e, he, -⟩ := hr.resident_of_mem ht hmem
    rw [hdib] at he
    cases he
  have hcont := Table.contents_write hs c.slot (t.count + 1)
  rw [Slot.entry_of_empty hz, add_zero, Slot.entry_of_occupied (hr.occupied_slot hmax),
    add_comm t.contents, Multiset.singleton_add] at hcont
  have hups : Table.contents { t with slots := t.slots.set c.i c.slot, count := t.count + 1 } =
      upsert c.curKey c.curVal t.contents := by
    rw [hcont, upsert_of_not_mem habsent]
    rfl
  have hlaid := hr.laid_write ht hroom hmax (fun e he => by rw [hdib] at he; cases he)
    (t.count + 1)
  refine ⟨⟨hlaid, ?_, ?_⟩, hups, by simp [Table.cap]⟩
  · rw [hcont, Multiset.card_cons, ← ht.count_eq]
  · rw [Table.keys, hups]
    exact nodup_upsert ht.nodup

/-- The original entry finds its key and overwrites the value.
Source: `internal/shardmap/table.go` `set`
Kind: L -/
theorem Carried.Ready.overwrite (hr : c.Ready hf t) (ht : t.Arranged hf) {s : Slot K V}
    (hs : t.slots[c.i]? = some s) (hocc : s.Occupied) (hkey : s.key = c.curKey) :
    Table.Stored hf t c.curKey c.curVal
      { t with slots := t.slots.set c.i { s with val := c.curVal } } := by
  have hocc' : ({ s with val := c.curVal } : Slot K V).Occupied := hocc
  have hdib : ({ s with val := c.curVal } : Slot K V).dib = t.dibAt c.i := by
    rw [Table.dibAt_of_getElem? hs]
    rfl
  have hfit := ht.fits c.i s hs hocc
  have hlaid : Table.Laid hf
      { t with slots := t.slots.set c.i { s with val := c.curVal }, count := t.count } := by
    refine ht.toLaid.write (hr.i_lt ht) _ t.count
      (fun _ => ⟨hfit.hash_eq, hfit.frag_eq, hfit.dib_le, hfit.dib_lt, hfit.reach⟩)
      (fun h => absurd hocc' h) ?_
    rw [hdib, Function.update_eq_self]
    exact ht.ordered
  -- Split the old pair off: `contents t = (k, old) ::ₘ rest`.
  obtain ⟨rest, hrest⟩ := Multiset.exists_cons_of_mem
    (Table.mem_contents.mpr ⟨c.i, s, hs, hocc, rfl⟩)
  have hcont := Table.contents_write hs { s with val := c.curVal } t.count
  rw [Slot.entry_of_occupied hocc, Slot.entry_of_occupied hocc', hrest, ← Multiset.singleton_add,
    add_comm, add_assoc, add_right_inj] at hcont
  have hnew : Table.contents { t with slots := t.slots.set c.i { s with val := c.curVal } } =
      (s.key, c.curVal) ::ₘ rest := by
    rw [← Multiset.singleton_add, add_comm]
    exact hcont
  have hnd : (((s.key, s.val) ::ₘ rest).map Prod.fst).Nodup := by
    rw [← hrest]
    exact ht.nodup
  have hups : Table.contents { t with slots := t.slots.set c.i { s with val := c.curVal } } =
      upsert c.curKey c.curVal t.contents := by
    rw [hnew, hrest, upsert, ← hkey, filter_ne_cons hnd]
  refine ⟨⟨hlaid, ?_, ?_⟩, hups, by simp [Table.cap]⟩
  · show t.count = _
    rw [hnew, ht.count_eq, hrest, Multiset.card_cons, Multiset.card_cons]
  · rw [Table.keys, hups]
    exact nodup_upsert ht.nodup

/-- Robbing: the resident is richer, so the original key is absent; the table with the carried
entry written in is arranged, holds the carried pair in place of the resident's, and the
resident is ready to be carried on.
Source: `internal/shardmap/table.go` `set`
Kind: P -/
theorem Carried.Ready.rob (hr : c.Ready hf t) (ht : t.Arranged hf) (hroom : t.count < t.growAt)
    (hmax : c.curDib ≤ maxDib) {s : Slot K V} (hs : t.slots[c.i]? = some s) (hocc : s.Occupied)
    (hrich : dibOf s.metadata < c.curDib) :
    Table.Arranged hf { t with slots := t.slots.set c.i c.slot } ∧
    Carried.Ready hf { t with slots := t.slots.set c.i c.slot }
      ⟨s.hash, s.key, s.val, fragOf s.hash, dibOf s.metadata + 1, true, t.next c.i⟩ ∧
    (s.key, s.val) ::ₘ Table.contents { t with slots := t.slots.set c.i c.slot } =
      upsert c.curKey c.curVal t.contents := by
  have hrich' : (dibOf s.metadata).toNat < c.curDib.toNat := hrich
  have hmax' : c.curDib.toNat ≤ 254 := hmax
  have hdib : t.dibAt c.i = some (dibOf s.metadata).toNat := by
    rw [Table.dibAt_of_getElem? hs, Slot.dib_of_occupied hocc]
  have hle : ∀ e, t.dibAt c.i = some e → e ≤ c.curDib.toNat := by
    intro e he
    rw [hdib] at he
    cases he
    exact hrich'.le
  have habsent : c.curKey ∉ t.keys := by
    intro hmem
    obtain ⟨e, he, hce⟩ := hr.resident_of_mem ht hmem
    rw [hdib] at he
    cases he
    omega
  have hfit := ht.fits c.i s hs hocc
  have hlaid := hr.laid_write ht hroom hmax hle t.count
  have hcont := Table.contents_write hs c.slot t.count
  rw [Slot.entry_of_occupied hocc, Slot.entry_of_occupied (hr.occupied_slot hmax), add_comm,
    Multiset.singleton_add, add_comm, Multiset.singleton_add] at hcont
  have hups : (s.key, s.val) ::ₘ Table.contents { t with slots := t.slots.set c.i c.slot } =
      upsert c.curKey c.curVal t.contents := by
    rw [upsert_of_not_mem habsent]
    exact hcont
  have hnd : (((s.key, s.val) ::ₘ
      Table.contents { t with slots := t.slots.set c.i c.slot }).map Prod.fst).Nodup := by
    rw [hups]
    exact nodup_upsert ht.nodup
  rw [Multiset.map_cons, Multiset.nodup_cons] at hnd
  have hkey : s.key ∉ Table.keys { t with slots := t.slots.set c.i c.slot } := hnd.1
  have hsucc : (dibOf s.metadata + 1).toNat = (dibOf s.metadata).toNat + 1 := by
    rw [UInt16.toNat_add]
    exact Nat.mod_eq_of_lt (by simp; omega)
  have hcap : Table.cap { t with slots := t.slots.set c.i c.slot } = t.cap := by
    simp [Table.cap]
  refine ⟨⟨hlaid, ?_, hnd.2⟩, ?_, hups⟩
  · show t.count = _
    have hcard := congrArg Multiset.card hcont
    rw [Multiset.card_cons, Multiset.card_cons, ← ht.count_eq] at hcard
    exact (Nat.succ_inj.mp hcard).symm
  · refine ⟨hfit.hash_eq, rfl, by rw [hsucc]; omega, ?_, ?_, fun _ => hkey, ?_⟩
    · simp only [hcap, hsucc]
      rw [← step_mod, hfit.reach, ht.next_eq]
    · simp only [hcap, hsucc]
      have hlate := ht.ordered.chain (by have := ht.eight_le_cap; omega) (s.hash.toNat % t.cap)
        (by rw [hfit.reach]; exact hdib) le_rfl
      rw [t.dibAt_set (hr.i_lt ht) c.slot t.count, hr.dib_slot hmax]
      exact hlate.update hle
    · intro j r hrj hrocc hrkey
      exact absurd (Table.mem_keys.mpr ⟨j, r, hrj, hrocc, hrkey⟩) hkey

/-- Moving on past a resident that is not richer and does not hold the key.
Source: `internal/shardmap/table.go` `set`
Kind: L -/
theorem Carried.Ready.advance (hr : c.Ready hf t) (ht : t.Arranged hf) (hmax : c.curDib ≤ maxDib)
    {s : Slot K V} (hs : t.slots[c.i]? = some s) (hocc : s.Occupied)
    (hmiss : ¬ (!c.swapped ∧ s.metadata &&& fragMask = c.curFrag ∧ s.key = c.curKey))
    (hpoor : ¬ dibOf s.metadata < c.curDib) :
    Carried.Ready hf t { c with i := t.next c.i, curDib := c.curDib + 1 } := by
  have hmax' : c.curDib.toNat ≤ 254 := hmax
  have hpoor' : c.curDib.toNat ≤ (dibOf s.metadata).toNat := UInt16.not_lt.mp hpoor
  have hdib : t.dibAt c.i = some (dibOf s.metadata).toNat := by
    rw [Table.dibAt_of_getElem? hs, Slot.dib_of_occupied hocc]
  have hsucc : (c.curDib + 1).toNat = c.curDib.toNat + 1 := by
    rw [UInt16.toNat_add]
    exact Nat.mod_eq_of_lt (by simp; omega)
  refine ⟨hr.hash_eq, hr.frag_eq, by rw [hsucc]; omega, ?_, ?_, hr.fresh, ?_⟩
  · simp only [hsucc]
    rw [← step_mod, hr.pos, ht.next_eq]
  · simp only [hsucc]
    exact hr.pushed.step (by rw [hr.pos]; exact hdib) hpoor'
  · intro j r hrj hrocc hrkey
    simp only [hsucc]
    have hle := hr.ahead j r hrj hrocc hrkey
    rcases hle.lt_or_eq with hlt | heq
    · exact hlt
    · -- The key would sit in the slot just inspected, which the overwrite test rejected.
      exfalso
      have hfit := ht.fits j r hrj hrocc
      have hhash : r.hash = c.curHash := by rw [hfit.hash_eq, hrkey, hr.hash_eq]
      have hji : j = c.i := by rw [← hfit.reach, hhash, ← heq, hr.pos]
      rw [hji, hs] at hrj
      cases hrj
      cases hsw : c.swapped with
      | true => exact hr.fresh hsw (Table.mem_keys.mpr ⟨c.i, s, hs, hocc, hrkey⟩)
      | false =>
          exact hmiss ⟨by rw [hsw]; rfl, by rw [hfit.frag_eq, hhash, hr.frag_eq], hrkey⟩

/-- The entry handed to `set` is ready at its home.
Source: `internal/shardmap/table.go` `set`
Kind: L -/
theorem Carried.ready_start (ht : t.Arranged hf) (k : K) (v : V) :
    Carried.Ready hf t ⟨hf k, k, v, fragOf (hf k), 0, false, t.home (hf k)⟩ where
  hash_eq := rfl
  frag_eq := rfl
  dib_le := by simp
  pos := by
    rw [ht.home_eq]
    simp
  pushed := pushed_zero _
  fresh := by simp
  ahead := by simp

/-! ### The four functions -/

/-- What a resize to `newCap` may do to a table.
Source: `internal/shardmap/table.go` `resize`
Kind: D -/
structure Table.Resized (hf : K → UInt64) (t : Table K V) (newCap : ℕ) (t' : Table K V) :
    Prop where
  arranged : t'.Arranged hf
  contents_eq : t'.contents = t.contents
  cap_le : newCap ≤ t'.cap

/-- A doubled table has room.
Source: `internal/shardmap/table.go` `grow`
Kind: L -/
theorem Table.Resized.count_lt {g : Table K V} (hg : t.Resized hf (t.cap * 2) g)
    (ht : t.Arranged hf) (hcount : t.count ≤ t.growAt) : g.count < g.growAt := by
  have hlarge := ht.eight_le_cap
  have hle := hg.cap_le
  have hgrow := ht.growAt_eq
  rw [hg.arranged.count_eq, hg.contents_eq, ← ht.count_eq, hg.arranged.growAt_eq]
  unfold loadNum loadDen at hgrow ⊢
  omega

/-- The loop of `set`, given the recursive calls.
Source: `internal/shardmap/table.go` `set`
Kind: L -/
theorem setLoop_correct {fuel : ℕ}
    (ihset : ∀ (t : Table K V) (k : K) (v : V), t.Arranged hf → t.count < t.growAt →
      Ensures (Table.set fuel t (hf k) k v) (t.Stored hf k v))
    (ihloop : ∀ (t : Table K V) (c : Carried K V), t.Arranged hf → t.count < t.growAt →
      c.Ready hf t → Ensures (Table.setLoop fuel t c) (t.Stored hf c.curKey c.curVal))
    (ihgrow : ∀ t : Table K V, t.Arranged hf → t.count ≤ t.growAt →
      Ensures (Table.grow fuel t) (t.Resized hf (t.cap * 2)))
    (ht : t.Arranged hf) (hroom : t.count < t.growAt) (hr : c.Ready hf t) :
    Ensures (Table.setLoop (fuel + 1) t c) (t.Stored hf c.curKey c.curVal) := by
  rw [Table.setLoop]
  split_ifs with hvalve
  · refine (ihgrow t ht hroom.le).bind fun g hg => ?_
    rw [hr.hash_eq]
    refine (ihset g c.curKey c.curVal hg.arranged (hg.count_lt ht hroom.le)).mono
      fun t' hst => ?_
    have hcap : t.cap ≤ t'.cap := by
      have h1 := hg.cap_le
      have h2 := hst.cap_le
      omega
    exact ⟨hst.arranged, by rw [hst.contents_eq, hg.contents_eq], hcap⟩
  · have hmax : c.curDib ≤ maxDib := UInt16.not_lt.mp hvalve
    have hi := hr.i_lt ht
    rw [index_eq_ok hi]
    have hs : t.slots[c.i]? = some t.slots[c.i] := List.getElem?_eq_getElem hi
    generalize t.slots[c.i] = s at hs
    simp only [ok_bind, store_eq_ok _ hi]
    split_ifs with hz hhit hrich
    · exact hr.place ht hroom hmax hs hz
    · exact hr.overwrite ht hs hz hhit.2.2
    · obtain ⟨harr, hready, hcont⟩ := hr.rob ht hroom hmax hs hz hrich
      refine (ihloop _ _ harr hroom hready).mono fun t' hst => ?_
      refine ⟨hst.arranged, ?_, ?_⟩
      · rw [hst.contents_eq, ← hcont, upsert_of_not_mem (hready.fresh rfl)]
      · simpa [Table.cap] using hst.cap_le
    · exact ihloop t _ ht hroom (hr.advance ht hmax hs hz hhit hrich)

/-- The new table in the middle of a resize: it holds exactly the entries of the slots done, so the
next entry is not in it and there is room for that entry.
Source: `internal/shardmap/table.go` `resize`
Kind: L -/
theorem Table.Arranged.reinsert (ht : t.Arranged hf) {done rest : List (Slot K V)} {s : Slot K V}
    (hl : t.slots = done ++ s :: rest) (hocc : s.Occupied) {acc : Table K V}
    (hacc : acc.Arranged hf) (hcont : acc.contents = bag done) {newCap : ℕ}
    (hcap : newCap ≤ acc.cap) (hfit : t.count ≤ newCap * loadNum / loadDen) :
    s.hash = hf s.key ∧ acc.count < acc.growAt ∧
      upsert s.key s.val acc.contents = bag (done ++ [s]) := by
  have hsplit : t.contents = bag done + (s.entry + bag rest) := by
    rw [Table.contents, hl, bag_append, bag_cons]
  have hs : t.slots[done.length]? = some s := by
    rw [hl]
    simp
  have hentry : s.entry = {(s.key, s.val)} := Slot.entry_of_occupied hocc
  have hnd := ht.nodup
  rw [Table.keys, hsplit, hentry] at hnd
  have hnew : s.key ∉ acc.contents.map Prod.fst := by
    rw [hcont]
    intro hmem
    rw [Multiset.map_add] at hnd
    exact (Multiset.disjoint_left.mp (Multiset.nodup_add.mp hnd).2.2) hmem (by simp)
  refine ⟨(ht.fits _ s hs hocc).hash_eq, ?_, ?_⟩
  · have hcard := congrArg Multiset.card hsplit
    rw [hentry, ← ht.count_eq, Multiset.card_add, Multiset.card_add,
      Multiset.card_singleton, ← hcont, ← hacc.count_eq] at hcard
    rw [hacc.growAt_eq]
    unfold loadNum loadDen at hfit ⊢
    omega
  · rw [upsert_of_not_mem hnew, hcont, bag_append, bag_cons, bag_nil, hentry, add_zero, add_comm,
      Multiset.singleton_add]

/-- An empty slot at the end adds no entry.
Source: `internal/shardmap/table.go` `resize`
Kind: L -/
theorem bag_concat_of_empty {s : Slot K V} (hs : ¬s.Occupied) (l : List (Slot K V)) :
    bag (l ++ [s]) = bag l := by
  rw [bag_append, bag_cons, bag_nil, Slot.entry_of_empty (not_not.mp hs)]
  simp

/-- The reinsertion loop of `resize`, given the recursive calls of `set`.
Source: `internal/shardmap/table.go` `resize`
Kind: L -/
theorem resize_correct {fuel p : ℕ}
    (ihset : ∀ (t : Table K V) (k : K) (v : V), t.Arranged hf → t.count < t.growAt →
      Ensures (Table.set fuel t (hf k) k v) (t.Stored hf k v))
    (ht : t.Arranged hf) (hp : 3 ≤ p) (hfit : t.count ≤ 2 ^ p * loadNum / loadDen) :
    Ensures (Table.resize (fuel + 1) t (2 ^ p)) (t.Resized hf (2 ^ p)) := by
  rw [Table.resize]
  -- After a prefix of the old slots, the new table holds exactly that prefix's entries.
  let I : List (Slot K V) → Table K V → Prop := fun done acc =>
    acc.Arranged hf ∧ acc.contents = bag done ∧ 2 ^ p ≤ acc.cap
  have hloop : Ensures (t.slots.foldlM (fun acc s =>
      if s.metadata ≠ 0 then Table.set fuel acc s.hash s.key s.val else pure acc)
      (Table.alloc (2 ^ p))) (I t.slots) := by
    apply Ensures.foldlM I
    · exact ⟨Table.arranged_alloc hp, by simp, by simp [Table.alloc, Table.cap]⟩
    · rintro done s rest acc hl ⟨harr, hcont, hcap⟩
      split_ifs with hocc
      · obtain ⟨hhash, hroom, hnext⟩ := ht.reinsert hl hocc harr hcont hcap hfit
        rw [hhash]
        refine (ihset acc s.key s.val harr hroom).mono fun t' hst => ?_
        exact ⟨hst.arranged, hst.contents_eq.trans hnext, hcap.trans hst.cap_le⟩
      · exact ⟨harr, hcont.trans (bag_concat_of_empty hocc done).symm, hcap⟩
  exact hloop.mono fun t' h => ⟨h.1, h.2.1, h.2.2⟩

/-- **Insertion is correct**, for all four mutually recursive functions at every clock.
Source: `internal/shardmap/table.go` `set`, `grow`, `resize`
Kind: P -/
theorem insertion_correct (hf : K → UInt64) (fuel : ℕ) :
    (∀ (t : Table K V) (k : K) (v : V), t.Arranged hf → t.count < t.growAt →
      Ensures (Table.set fuel t (hf k) k v) (t.Stored hf k v)) ∧
    (∀ (t : Table K V) (c : Carried K V), t.Arranged hf → t.count < t.growAt →
      c.Ready hf t → Ensures (Table.setLoop fuel t c) (t.Stored hf c.curKey c.curVal)) ∧
    (∀ t : Table K V, t.Arranged hf → t.count ≤ t.growAt →
      Ensures (Table.grow fuel t) (t.Resized hf (t.cap * 2))) ∧
    (∀ (t : Table K V) (p : ℕ), t.Arranged hf → 3 ≤ p → t.count ≤ 2 ^ p * loadNum / loadDen →
      Ensures (Table.resize fuel t (2 ^ p)) (t.Resized hf (2 ^ p))) := by
  induction fuel with
  | zero =>
      refine ⟨fun t k v _ _ => ?_, fun t c _ _ _ => ?_, fun t _ _ => ?_, fun t p _ _ _ => ?_⟩
      · rw [Table.set]; trivial
      · rw [Table.setLoop]; trivial
      · rw [Table.grow]; trivial
      · rw [Table.resize]; trivial
  | succ fuel ih =>
      obtain ⟨ihset, ihloop, ihgrow, ihresize⟩ := ih
      refine ⟨fun t k v ht hroom => ?_, fun t c ht hroom hr => ?_, fun t ht hcount => ?_,
        fun t p ht hp hfit => ?_⟩
      · rw [Table.set]
        exact ihloop t _ ht hroom (Carried.ready_start ht k v)
      · exact setLoop_correct ihset ihloop ihgrow ht hroom hr
      · rw [Table.grow]
        obtain ⟨p, hp, hcap⟩ := ht.cap_pow
        have hdouble : t.cap * 2 = 2 ^ (p + 1) := by rw [hcap, pow_succ]
        rw [hdouble]
        refine ihresize t (p + 1) ht (by omega) ?_
        rw [← hdouble]
        have hgrow := ht.growAt_eq
        unfold loadNum loadDen at hgrow ⊢
        omega
      · exact resize_correct ihset ht hp hfit

/-- The specification of `set`.
Source: `internal/shardmap/table.go` `set`
Kind: P -/
theorem Table.set_correct (ht : t.Arranged hf) (hroom : t.count < t.growAt) (fuel : ℕ) (k : K)
    (v : V) : Ensures (Table.set fuel t (hf k) k v) (t.Stored hf k v) :=
  (insertion_correct hf fuel).1 t k v ht hroom

/-- The specification of `grow`.
Source: `internal/shardmap/table.go` `grow`
Kind: P -/
theorem Table.grow_correct (ht : t.Arranged hf) (hcount : t.count ≤ t.growAt) (fuel : ℕ) :
    Ensures (Table.grow fuel t) (t.Resized hf (t.cap * 2)) :=
  (insertion_correct hf fuel).2.2.1 t ht hcount

/-- The specification of `insert`. The bound on the count is the one `insert` restores.
Source: `internal/shardmap/table.go` `insert`
Kind: P -/
theorem Table.insert_correct (ht : t.Arranged hf) (hcount : t.count ≤ t.growAt) (fuel : ℕ)
    (k : K) (v : V) :
    Ensures (Table.insert fuel t (hf k) k v) fun t' =>
      t.Stored hf k v t' ∧ t'.count ≤ t'.growAt := by
  have hfinish : ∀ g : Table K V, g.Arranged hf → g.contents = t.contents → t.cap ≤ g.cap →
      g.count < g.growAt → Ensures (Table.set fuel g (hf k) k v) fun t' =>
        t.Stored hf k v t' ∧ t'.count ≤ t'.growAt := by
    intro g harr hcont hcap hroom
    refine (Table.set_correct harr hroom fuel k v).mono fun t' hst => ?_
    refine ⟨⟨hst.arranged, by rw [hst.contents_eq, hcont], hcap.trans hst.cap_le⟩, ?_⟩
    have hcard := card_upsert_le k v g.contents
    rw [← hst.contents_eq, ← hst.arranged.count_eq, ← harr.count_eq] at hcard
    have hle := hst.cap_le
    rw [hst.arranged.growAt_eq]
    rw [harr.growAt_eq] at hroom
    unfold loadNum loadDen at hroom ⊢
    omega
  unfold Table.insert
  split_ifs with hfull
  · refine (Table.grow_correct ht hcount fuel).bind fun g hg => ?_
    have hle := hg.cap_le
    exact hfinish g hg.arranged hg.contents_eq (by omega) (hg.count_lt ht hcount)
  · exact hfinish t ht rfl le_rfl (by omega)

end CacheMoney.Shardmap
