import CacheMoney.Shardmap.History

/-!
# Capacity does not thrash

A table grows at three quarters of its capacity and shrinks below one quarter, so the count has to
travel an eighth of the new capacity before a resize can be undone.

* `Table.insertLogged`, `Table.deleteLogged`: the calls, with a note of every resize and of every
  time the overflow valve fires. Without the notes they are the calls
  (`Table.insert_eq_logged`, `Table.delete_eq_logged`).
* `CallRecord.Effect`: what a call does to the capacity and the count when the valve stays shut.
* `Table.Recorded`: a history with the notes of every call.
* `capacity_hysteresis`: no call resizes twice, and opposite resizes are an eighth apart.
-/

set_option linter.unusedSectionVars false

namespace CacheMoney.Shardmap

open CacheMoney.Found

/-! ### Calls that keep notes -/

/-- What a call on a table writes down.
Source: `internal/shardmap/table.go` `set`, `resize`
Kind: D -/
inductive Note where
  /-- A probe distance left the metadata field. -/
  | valve
  /-- `resize`, from the capacity `before` to the capacity `after`. -/
  | resize (before after : ℕ)
  deriving DecidableEq, Repr

variable {K V : Type} [DecidableEq K] [Inhabited K] [Inhabited V] {hf : K → UInt64}
  {t : Table K V}

mutual

/-- Source: `internal/shardmap/table.go` `set`
Kind: D -/
def Table.setLogged : ℕ → Table K V → UInt64 → K → V → Outcome (Table K V × List Note)
  | 0, _, _, _, _ => throw .outOfFuel
  | fuel + 1, t, hash, key, value =>
      Table.setLoopLogged fuel t ⟨hash, key, value, fragOf hash, 0, false, t.home hash⟩

/-- The loop of `set`.
Source: `internal/shardmap/table.go` `set`
Kind: D -/
def Table.setLoopLogged : ℕ → Table K V → Carried K V → Outcome (Table K V × List Note)
  | 0, _, _ => throw .outOfFuel
  | fuel + 1, t, c =>
      if maxDib < c.curDib then do
        let grown ← Table.growLogged fuel t
        let stored ← Table.setLogged fuel grown.1 c.curHash c.curKey c.curVal
        pure (stored.1, .valve :: (grown.2 ++ stored.2))
      else do
        let s ← index t.slots c.i
        if s.metadata = 0 then
          let slots ← store t.slots c.i
            ⟨packMeta c.curDib c.curFrag, c.curKey, c.curVal, c.curHash⟩
          pure ({ t with slots := slots, count := t.count + 1 }, [])
        else if !c.swapped ∧ s.metadata &&& fragMask = c.curFrag ∧ s.key = c.curKey then
          let slots ← store t.slots c.i { s with val := c.curVal }
          pure ({ t with slots := slots }, [])
        else if dibOf s.metadata < c.curDib then
          let slots ← store t.slots c.i
            ⟨packMeta c.curDib c.curFrag, c.curKey, c.curVal, c.curHash⟩
          Table.setLoopLogged fuel { t with slots := slots }
            ⟨s.hash, s.key, s.val, fragOf s.hash, dibOf s.metadata + 1, true, t.next c.i⟩
        else
          Table.setLoopLogged fuel t { c with i := t.next c.i, curDib := c.curDib + 1 }

/-- Source: `internal/shardmap/table.go` `grow`
Kind: D -/
def Table.growLogged : ℕ → Table K V → Outcome (Table K V × List Note)
  | 0, _ => throw .outOfFuel
  | fuel + 1, t => Table.resizeLogged fuel t (t.cap * 2)

/-- Source: `internal/shardmap/table.go` `resize`
Kind: D -/
def Table.resizeLogged : ℕ → Table K V → ℕ → Outcome (Table K V × List Note)
  | 0, _, _ => throw .outOfFuel
  | fuel + 1, src, newCap => do
      let moved ← src.slots.foldlM (fun p s =>
        if s.metadata ≠ 0 then do
          let stored ← Table.setLogged fuel p.1 s.hash s.key s.val
          pure (stored.1, p.2 ++ stored.2)
        else pure p)
        (Table.alloc newCap, ([] : List Note))
      pure (moved.1, .resize src.cap newCap :: moved.2)

end

/-- Source: `internal/shardmap/table.go` `insert`
Kind: D -/
def Table.insertLogged (fuel : ℕ) (t : Table K V) (hash : UInt64) (key : K) (value : V) :
    Outcome (Table K V × List Note) := do
  let grown ← if t.growAt ≤ t.count then Table.growLogged fuel t else pure (t, [])
  let stored ← Table.setLogged fuel grown.1 hash key value
  pure (stored.1, grown.2 ++ stored.2)

/-- Source: `internal/shardmap/table.go` `shrink`
Kind: D -/
def Table.shrinkLogged (fuel : ℕ) (t : Table K V) : Outcome (Table K V × List Note) :=
  if t.cap ≤ minCap then pure (t, [])
  else if t.cap * shrinkNum / shrinkDen ≤ t.count then pure (t, [])
  else Table.resizeLogged fuel t (t.cap / 2)

/-- The removed value and the table afterwards, as `Table.delete` has them, with the notes.
Source: `internal/shardmap/table.go` `delete`
Kind: D -/
def Table.deleteLogged (fuel : ℕ) (t : Table K V) (hash : UInt64) (key : K) :
    Outcome ((Option V × Table K V) × List Note) := do
  match ← t.probe (fragOf hash) key fuel (t.home hash) 0 with
  | none => pure ((none, t), [])
  | some i =>
      let removed ← index t.slots i
      let (t, i) ← Table.shiftBack fuel t i (t.next i)
      let slots ← store t.slots i Slot.zero
      let shrunk ← Table.shrinkLogged fuel { t with slots := slots, count := t.count - 1 }
      pure ((some removed.val, shrunk.1), shrunk.2)

/-! ### The notes change nothing -/

/-- Keeping notes of `setLoop` changes nothing, if `set` and `grow` were unchanged with less fuel.
Source: none
Kind: L -/
theorem setLoop_eq_logged {fuel : ℕ}
    (hset : ∀ (t : Table K V) (hash : UInt64) (key : K) (value : V),
      Prod.fst <$> Table.setLogged fuel t hash key value = Table.set fuel t hash key value)
    (hloop : ∀ (t : Table K V) (c : Carried K V),
      Prod.fst <$> Table.setLoopLogged fuel t c = Table.setLoop fuel t c)
    (hgrow : ∀ t : Table K V, Prod.fst <$> Table.growLogged fuel t = Table.grow fuel t)
    (t : Table K V) (c : Carried K V) :
    Prod.fst <$> Table.setLoopLogged (fuel + 1) t c = Table.setLoop (fuel + 1) t c := by
  rw [Table.setLoopLogged, Table.setLoop]
  split_ifs with hvalve
  · rw [← hgrow]
    refine map_bind_of fun grown => ?_
    rw [← hset]
    exact map_bind_pure fun _ => rfl
  · refine map_bind_congr fun s => ?_
    split_ifs
    · exact map_bind_congr fun _ => rfl
    · exact map_bind_congr fun _ => rfl
    · exact map_bind_congr fun slots => hloop _ _
    · exact hloop _ _

/-- Resizing with notes is resizing, if storing with notes is storing.
Source: `internal/shardmap/table.go` `resize`
Kind: L -/
theorem resize_eq_logged {fuel : ℕ}
    (hset : ∀ (t : Table K V) (hash : UInt64) (key : K) (value : V),
      Prod.fst <$> Table.setLogged fuel t hash key value = Table.set fuel t hash key value)
    (src : Table K V) (newCap : ℕ) :
    Prod.fst <$> Table.resizeLogged (fuel + 1) src newCap = Table.resize (fuel + 1) src newCap := by
  rw [Table.resizeLogged, Table.resize]
  refine (map_bind_pure fun _ => rfl).trans (map_foldlM_of (fun p s => ?_) _ _)
  split_ifs
  · rw [← hset]
    exact map_bind_pure fun _ => rfl
  · rfl

/-- The four mutually recursive functions, by induction on the fuel.
Source: none
Kind: L -/
theorem insertion_eq_logged (fuel : ℕ) :
    (∀ (t : Table K V) (hash : UInt64) (key : K) (value : V),
      Prod.fst <$> Table.setLogged fuel t hash key value = Table.set fuel t hash key value) ∧
    (∀ (t : Table K V) (c : Carried K V),
      Prod.fst <$> Table.setLoopLogged fuel t c = Table.setLoop fuel t c) ∧
    (∀ t : Table K V, Prod.fst <$> Table.growLogged fuel t = Table.grow fuel t) ∧
    ∀ (src : Table K V) (newCap : ℕ),
      Prod.fst <$> Table.resizeLogged fuel src newCap = Table.resize fuel src newCap := by
  induction fuel with
  | zero => exact ⟨fun _ _ _ _ => rfl, fun _ _ => rfl, fun _ => rfl, fun _ _ => rfl⟩
  | succ fuel ih =>
      obtain ⟨hset, hloop, hgrow, hresize⟩ := ih
      refine ⟨?_, setLoop_eq_logged hset hloop hgrow, ?_, resize_eq_logged hset⟩
      · intro t hash key value
        rw [Table.setLogged, Table.set, hloop]
      · intro t
        rw [Table.growLogged, Table.grow, hresize]

/-- Inserting with notes is inserting.
Source: `internal/shardmap/table.go` `insert`
Kind: P -/
theorem Table.insert_eq_logged (fuel : ℕ) (t : Table K V) (hash : UInt64) (key : K) (value : V) :
    Prod.fst <$> t.insertLogged fuel hash key value = t.insert fuel hash key value := by
  obtain ⟨hset, -, hgrow, -⟩ := insertion_eq_logged (K := K) (V := V) fuel
  have hfinish : ∀ grown : Table K V × List Note,
      Prod.fst <$> (do
        let stored ← Table.setLogged fuel grown.1 hash key value
        pure (stored.1, grown.2 ++ stored.2)) = Table.set fuel grown.1 hash key value := by
    intro grown
    rw [← hset]
    exact map_bind_pure fun _ => rfl
  rw [Table.insertLogged, Table.insert]
  split_ifs
  · rw [← hgrow]
    exact map_bind_of hfinish
  · exact hfinish (t, [])

/-- Deleting with notes is deleting.
Source: `internal/shardmap/table.go` `delete`
Kind: P -/
theorem Table.delete_eq_logged (fuel : ℕ) (t : Table K V) (hash : UInt64) (key : K) :
    Prod.fst <$> t.deleteLogged fuel hash key = t.delete fuel hash key := by
  have hshrink : ∀ t : Table K V, Table.shrink fuel t = Prod.fst <$> Table.shrinkLogged fuel t := by
    intro t
    unfold Table.shrink Table.shrinkLogged
    split_ifs
    · rfl
    · rfl
    · exact ((insertion_eq_logged fuel).2.2.2 t _).symm
  rw [Table.deleteLogged, Table.delete]
  refine map_bind_congr fun found => ?_
  cases found with
  | none => rfl
  | some i =>
      refine map_bind_congr fun removed => map_bind_congr fun shifted => ?_
      refine map_bind_congr fun slots => ?_
      rw [hshrink]
      exact map_bind_of fun _ => rfl

/-! ### The valve stays shut -/

/-- As long as the valve stays shut, `set` keeps the capacity.
Source: `internal/shardmap/table.go` `set`
Kind: P -/
theorem setLoopLogged_quiet (fuel : ℕ) : ∀ (t : Table K V) (c : Carried K V)
    (r : Table K V × List Note), Table.setLoopLogged fuel t c = .ok r → .valve ∉ r.2 →
      r.1.cap = t.cap ∧ r.2 = [] := by
  induction fuel with
  | zero =>
      intro t c r h
      rw [Table.setLoopLogged] at h
      cases h
  | succ fuel ih =>
      intro t c r h hshut
      rw [Table.setLoopLogged] at h
      split_ifs at h with hvalve
      · obtain ⟨grown, -, h⟩ := bind_eq_ok_iff.mp h
        obtain ⟨stored, -, h⟩ := bind_eq_ok_iff.mp h
        cases h
        exact absurd List.mem_cons_self hshut
      · obtain ⟨s, -, h⟩ := bind_eq_ok_iff.mp h
        split_ifs at h
        · obtain ⟨slots, hstore, h⟩ := bind_eq_ok_iff.mp h
          cases h
          exact ⟨length_of_store hstore, rfl⟩
        · obtain ⟨slots, hstore, h⟩ := bind_eq_ok_iff.mp h
          cases h
          exact ⟨length_of_store hstore, rfl⟩
        · obtain ⟨slots, hstore, h⟩ := bind_eq_ok_iff.mp h
          obtain ⟨hr, hnotes⟩ := ih _ _ r h hshut
          exact ⟨hr.trans (length_of_store hstore), hnotes⟩
        · exact ih _ _ r h hshut

/-- A store that does not open the valve keeps the capacity and notes nothing.
Source: `internal/shardmap/table.go` `set`
Kind: L -/
theorem setLogged_quiet {fuel : ℕ} {t : Table K V} {hash : UInt64} {key : K} {value : V}
    {r : Table K V × List Note} (h : Table.setLogged fuel t hash key value = .ok r)
    (hshut : .valve ∉ r.2) : r.1.cap = t.cap ∧ r.2 = [] := by
  cases fuel with
  | zero =>
      rw [Table.setLogged] at h
      cases h
  | succ fuel =>
      rw [Table.setLogged] at h
      exact setLoopLogged_quiet fuel _ _ r h hshut

/-- As long as the valve stays shut, a resize is one resize.
Source: `internal/shardmap/table.go` `resize`
Kind: P -/
theorem resizeLogged_quiet {fuel : ℕ} {src : Table K V} {newCap : ℕ} {r : Table K V × List Note}
    (h : Table.resizeLogged fuel src newCap = .ok r) (hshut : .valve ∉ r.2) :
    r.1.cap = newCap ∧ r.2 = [.resize src.cap newCap] := by
  cases fuel with
  | zero =>
      rw [Table.resizeLogged] at h
      cases h
  | succ fuel =>
      rw [Table.resizeLogged] at h
      obtain ⟨moved, hmoved, h⟩ := bind_eq_ok_iff.mp h
      cases h
      have hshut : .valve ∉ moved.2 := fun hmem => hshut (List.mem_cons_of_mem _ hmem)
      have hfold : moved.1.cap = newCap ∧ moved.2 = [] := by
        -- Backwards from the end: the notes only get longer, so the valve was shut throughout.
        have hrule := foldlM_rel (fun p : Table K V × List Note =>
          moved.1.cap = p.1.cap ∧ moved.2 = p.2) ⟨rfl, rfl⟩ ?_ _ hmoved
        · refine ⟨hrule.1.trans ?_, hrule.2⟩
          simp [Table.cap, Table.alloc]
        · rintro p s q hq ⟨hcap, hnotes⟩
          split_ifs at hq
          · obtain ⟨stored, hset, hq⟩ := bind_eq_ok_iff.mp hq
            cases hq
            obtain ⟨hcap', hnotes'⟩ := setLogged_quiet hset fun hmem =>
              hshut (hnotes ▸ List.mem_append_right _ hmem)
            refine ⟨hcap.trans hcap', hnotes.trans ?_⟩
            rw [hnotes', List.append_nil]
          · cases hq
            exact ⟨hcap, hnotes⟩
      exact ⟨hfold.1, by rw [hfold.2]⟩

/-- A growth that does not open the valve doubles the capacity once.
Source: `internal/shardmap/table.go` `grow`
Kind: L -/
theorem growLogged_quiet {fuel : ℕ} {t : Table K V} {r : Table K V × List Note}
    (h : Table.growLogged fuel t = .ok r) (hshut : .valve ∉ r.2) :
    r.1.cap = t.cap * 2 ∧ r.2 = [.resize t.cap (t.cap * 2)] := by
  cases fuel with
  | zero =>
      rw [Table.growLogged] at h
      cases h
  | succ fuel =>
      rw [Table.growLogged] at h
      exact resizeLogged_quiet h hshut

/-- An insertion that does not open the valve resizes only at the threshold, and once.
Source: `internal/shardmap/table.go` `insert`
Kind: L -/
theorem Table.insertLogged_quiet {fuel : ℕ} {hash : UInt64} {key : K} {value : V}
    {r : Table K V × List Note} (h : t.insertLogged fuel hash key value = .ok r)
    (hshut : .valve ∉ r.2) :
    (r.1.cap = t.cap ∧ r.2 = []) ∨
      t.growAt ≤ t.count ∧ r.1.cap = t.cap * 2 ∧ r.2 = [.resize t.cap (t.cap * 2)] := by
  rw [Table.insertLogged] at h
  split_ifs at h with hfull
  · obtain ⟨grown, hgrow, h⟩ := bind_eq_ok_iff.mp h
    obtain ⟨stored, hset, h⟩ := bind_eq_ok_iff.mp h
    cases h
    obtain ⟨hgrown, hstored⟩ := not_or.mp (List.mem_append.not.mp hshut)
    obtain ⟨hcap, hnotes⟩ := growLogged_quiet hgrow hgrown
    obtain ⟨hcap', hnotes'⟩ := setLogged_quiet hset hstored
    refine Or.inr ⟨hfull, hcap'.trans hcap, ?_⟩
    rw [hnotes, hnotes', List.append_nil]
  · obtain ⟨kept, hkept, h⟩ := bind_eq_ok_iff.mp h
    cases hkept
    obtain ⟨stored, hset, h⟩ := bind_eq_ok_iff.mp h
    cases h
    exact Or.inl (setLogged_quiet hset hshut)

/-- Shifting back keeps capacity and count.
Source: `internal/shardmap/table.go` `delete`
Kind: L -/
theorem Table.shiftBack_frame (fuel : ℕ) : ∀ (t : Table K V) (i j : ℕ) (r : Table K V × ℕ),
    Table.shiftBack fuel t i j = .ok r → r.1.cap = t.cap ∧ r.1.count = t.count := by
  induction fuel with
  | zero =>
      intro t i j r h
      rw [Table.shiftBack] at h
      cases h
  | succ fuel ih =>
      intro t i j r h
      rw [Table.shiftBack] at h
      obtain ⟨s, -, h⟩ := bind_eq_ok_iff.mp h
      split_ifs at h
      · obtain ⟨slots, hstore, h⟩ := bind_eq_ok_iff.mp h
        obtain ⟨hcap, hcount⟩ := ih _ _ _ r h
        exact ⟨hcap.trans (length_of_store hstore), hcount⟩
      · cases h
        exact ⟨rfl, rfl⟩

/-- A deletion that does not open the valve shrinks only below its threshold, and once.
Source: `internal/shardmap/table.go` `delete`
Kind: L -/
theorem Table.deleteLogged_quiet {fuel : ℕ} {hash : UInt64} {key : K}
    {r : (Option V × Table K V) × List Note} (h : t.deleteLogged fuel hash key = .ok r)
    (hshut : .valve ∉ r.2) :
    (r.1.2.cap = t.cap ∧ r.2 = []) ∨
      (minCap < t.cap ∧ t.count - 1 < t.cap * shrinkNum / shrinkDen) ∧
        r.1.2.cap = t.cap / 2 ∧ r.2 = [.resize t.cap (t.cap / 2)] := by
  rw [Table.deleteLogged] at h
  obtain ⟨found, -, h⟩ := bind_eq_ok_iff.mp h
  cases found with
  | none =>
      cases h
      exact Or.inl ⟨rfl, rfl⟩
  | some i =>
      obtain ⟨removed, -, h⟩ := bind_eq_ok_iff.mp h
      obtain ⟨shifted, hshift, h⟩ := bind_eq_ok_iff.mp h
      obtain ⟨slots, hstore, h⟩ := bind_eq_ok_iff.mp h
      obtain ⟨shrunk, hshrink, h⟩ := bind_eq_ok_iff.mp h
      cases h
      obtain ⟨hcap, hcount⟩ := Table.shiftBack_frame fuel t _ _ _ hshift
      have hslots : slots.length = t.cap := (length_of_store hstore).trans hcap
      unfold Table.shrinkLogged Table.cap at hshrink
      rw [hslots, hcount] at hshrink
      split_ifs at hshrink with hmin hload
      · cases hshrink
        exact Or.inl ⟨hslots, rfl⟩
      · cases hshrink
        exact Or.inl ⟨hslots, rfl⟩
      · obtain ⟨hcap', hnotes⟩ := resizeLogged_quiet hshrink hshut
        refine Or.inr ⟨⟨not_le.mp hmin, not_le.mp hload⟩, hcap', ?_⟩
        rw [hnotes, Table.cap, hslots]

/-! ### One call -/

/-- Source: `internal/shardmap/table.go` `insert`, `delete`
Kind: D -/
def TableOp.logged (hf : K → UInt64) (fuel : ℕ) (t : Table K V) :
    TableOp K V → Outcome (Table K V × List Note)
  | .insert k v => t.insertLogged fuel (hf k) k v
  | .delete k => do
      let r ← t.deleteLogged fuel (hf k) k
      pure (r.1.2, r.2)

/-- A call that returned: the table before and after it, and its notes.
Source: `internal/shardmap/table.go` `insert`, `delete`
Kind: D -/
structure CallRecord (K V : Type) where
  op : TableOp K V
  before : Table K V
  notes : List Note
  after : Table K V

/-- The capacity before and after a resize.
Source: `internal/shardmap/table.go` `resize`
Kind: D -/
def Note.resized : Note → Option (ℕ × ℕ)
  | .valve => none
  | .resize before after => some (before, after)

/-- The resizes of a call, each with the capacity before and after it.
Source: `internal/shardmap/table.go` `resize`
Kind: D -/
def CallRecord.resizes (c : CallRecord K V) : List (ℕ × ℕ) := c.notes.filterMap Note.resized

/-- Source: `internal/shardmap/table.go` `grow`
Kind: D -/
def CallRecord.Grows (c : CallRecord K V) : Prop := ∃ r ∈ c.resizes, r.1 < r.2

/-- Source: `internal/shardmap/table.go` `shrink`
Kind: D -/
def CallRecord.Shrinks (c : CallRecord K V) : Prop := ∃ r ∈ c.resizes, r.2 < r.1

/-- What a call does to the capacity and the count when the valve stays shut.
Source: `internal/shardmap/table.go` `insert`, `delete`
Kind: D -/
inductive CallRecord.Effect (c : CallRecord K V) : Prop
  | still (hnotes : c.notes = []) (hcap : c.after.cap = c.before.cap)
      (hle : c.after.count ≤ c.before.count + 1) (hge : c.before.count ≤ c.after.count + 1)
  | grown (hnotes : c.notes = [.resize c.before.cap (c.before.cap * 2)])
      (hcap : c.after.cap = c.before.cap * 2)
      (hfull : c.before.cap * loadNum / loadDen ≤ c.before.count)
      (hge : c.before.count ≤ c.after.count)
  | shrunk (hnotes : c.notes = [.resize c.before.cap (c.before.cap / 2)])
      (hcap : c.after.cap = c.before.cap / 2)
      (hsparse : c.before.count - 1 < c.before.cap * shrinkNum / shrinkDen)
      (hle : c.after.count ≤ c.before.count)

/-- A quiet call keeps the table sound and does one of the three things.
Source: `internal/shardmap/table.go` `insert`, `delete`
Kind: P -/
theorem TableOp.logged_effect (ht : t.Sound hf) {fuel : ℕ} {op : TableOp K V} {t' : Table K V}
    {notes : List Note} (hcall : op.logged hf fuel t = .ok (t', notes)) (hshut : .valve ∉ notes) :
    (⟨op, t, notes, t'⟩ : CallRecord K V).Effect := by
  have hbound := fun k => card_le_filter_ne (k := k) ht.nodup
  cases op with
  | insert k v =>
      rw [TableOp.logged] at hcall
      have hok : t.insert fuel (hf k) k v = .ok t' := by
        rw [← Table.insert_eq_logged, hcall]
        rfl
      obtain ⟨hsound, hcontents⟩ := (ht.insert fuel k v).of_ok hok
      have hle : t'.count ≤ t.count + 1 := by
        rw [hsound.count_eq, ht.count_eq, hcontents]
        exact card_upsert_le k v _
      have hge : t.count ≤ t'.count := by
        rw [hsound.count_eq, ht.count_eq, hcontents, upsert, Multiset.card_cons]
        exact hbound k
      rcases Table.insertLogged_quiet hcall hshut with ⟨hcap, hnotes⟩ | ⟨hfull, hcap, hnotes⟩
      · exact .still hnotes hcap hle (Nat.le_succ_of_le hge)
      · exact .grown hnotes hcap (ht.growAt_eq ▸ hfull) hge
  | delete k =>
      rw [TableOp.logged] at hcall
      obtain ⟨⟨⟨r, t'⟩, notes⟩, hdelete, hcall⟩ := bind_eq_ok_iff.mp hcall
      cases hcall
      have hok : t.delete fuel (hf k) k = .ok (r, t') := by
        rw [← Table.delete_eq_logged, hdelete]
        rfl
      obtain ⟨hsound, hcontents, -⟩ := (ht.delete fuel k).of_ok hok
      have hle : t'.count ≤ t.count := by
        rw [hsound.count_eq, ht.count_eq, hcontents]
        exact Multiset.card_le_card (Multiset.filter_le _ _)
      have hge : t.count ≤ t'.count + 1 := by
        rw [hsound.count_eq, ht.count_eq, hcontents]
        exact hbound k
      rcases Table.deleteLogged_quiet hdelete hshut with ⟨hcap, hnotes⟩ | ⟨hsparse, hcap, hnotes⟩
      · exact .still hnotes hcap (Nat.le_succ_of_le hle) hge
      · exact .shrunk hnotes hcap hsparse.2 hle

/-! ### Histories with notes -/

/-- A sequence of calls that return, with the record of each.
Source: `internal/shardmap/table.go` `insert`, `delete`
Kind: D -/
inductive Table.Recorded (hf : K → UInt64) :
    Table K V → List (CallRecord K V) → Table K V → Prop where
  | nil (t : Table K V) : Table.Recorded hf t [] t
  | cons {t t' t'' : Table K V} {calls : List (CallRecord K V)} {notes : List Note} (fuel : ℕ)
      (op : TableOp K V) (hcall : op.logged hf fuel t = .ok (t', notes))
      (hrest : Table.Recorded hf t' calls t'') :
      Table.Recorded hf t (⟨op, t, notes, t'⟩ :: calls) t''

/-- The records of a sequence of calls, all with the same fuel.
Source: `internal/shardmap/table.go` `insert`, `delete`
Kind: D -/
def Table.record (hf : K → UInt64) (fuel : ℕ) (t : Table K V) :
    List (TableOp K V) → Outcome (List (CallRecord K V) × Table K V)
  | [] => pure ([], t)
  | op :: ops => do
      let r ← op.logged hf fuel t
      let rest ← Table.record hf fuel r.1 ops
      pure (⟨op, t, r.2, r.1⟩ :: rest.1, rest.2)

/-- A run with its records is a recorded run.
Source: `internal/shardmap/table.go` `insert`, `delete`
Kind: L -/
theorem Table.recorded_of_record {fuel : ℕ} {ops : List (TableOp K V)}
    {r : List (CallRecord K V) × Table K V} (h : t.record hf fuel ops = .ok r) :
    t.Recorded hf r.1 r.2 := by
  induction ops generalizing t r with
  | nil =>
      cases h
      exact .nil t
  | cons op ops ih =>
      rw [Table.record] at h
      obtain ⟨r', hcall, h⟩ := bind_eq_ok_iff.mp h
      obtain ⟨rest, hrest, h⟩ := bind_eq_ok_iff.mp h
      cases h
      exact .cons fuel op hcall (ih hrest)

/-- Every history of calls has its records, and records are of a history.
Source: none
Kind: L -/
theorem Table.calls_iff_recorded {ops : List (TableOp K V)} {t' : Table K V} :
    t.Calls hf ops t' ↔ ∃ calls, t.Recorded hf calls t' ∧ calls.map CallRecord.op = ops := by
  constructor
  · intro h
    induction h with
    | nil t => exact ⟨[], .nil t, rfl⟩
    | insert fuel k v hcall _ ih =>
        obtain ⟨calls, hrec, rfl⟩ := ih
        rw [← Table.insert_eq_logged] at hcall
        obtain ⟨r, hlogged, rfl⟩ := map_eq_ok_iff.mp hcall
        exact ⟨_, .cons fuel (.insert k v) hlogged hrec, rfl⟩
    | @delete t t' _ _ fuel k r hcall _ ih =>
        obtain ⟨calls, hrec, rfl⟩ := ih
        rw [← Table.delete_eq_logged] at hcall
        obtain ⟨⟨_, notes⟩, hlogged, rfl⟩ := map_eq_ok_iff.mp hcall
        have hop : (TableOp.delete k : TableOp K V).logged hf fuel t = .ok (t', notes) := by
          rw [TableOp.logged, hlogged]
          rfl
        exact ⟨_, .cons fuel (.delete k) hop hrec, rfl⟩
  · rintro ⟨calls, h, rfl⟩
    induction h with
    | nil t => exact .nil t
    | cons fuel op hcall _ ih =>
        cases op with
        | insert k v =>
            refine .insert fuel k v ?_ ih
            rw [← Table.insert_eq_logged]
            exact map_eq_ok_iff.mpr ⟨_, hcall, rfl⟩
        | delete k =>
            rw [TableOp.logged] at hcall
            obtain ⟨r, hdelete, hcall⟩ := bind_eq_ok_iff.mp hcall
            cases hcall
            refine .delete fuel k r.1.1 ?_ ih
            rw [← Table.delete_eq_logged]
            exact map_eq_ok_iff.mpr ⟨_, hdelete, rfl⟩

/-- A recorded run keeps a table sound.
Source: none
Kind: L -/
theorem Table.Recorded.sound {calls : List (CallRecord K V)} {t' : Table K V}
    (h : t.Recorded hf calls t') (ht : t.Sound hf) : t'.Sound hf :=
  ((Table.calls_iff_recorded.mpr ⟨calls, h, rfl⟩).sound ht).1

/-- A recorded run can be cut anywhere.
Source: none
Kind: L -/
theorem Table.Recorded.split {l₁ l₂ : List (CallRecord K V)} {t' : Table K V}
    (h : t.Recorded hf (l₁ ++ l₂) t') : ∃ m, t.Recorded hf l₁ m ∧ m.Recorded hf l₂ t' := by
  induction l₁ generalizing t with
  | nil => exact ⟨t, .nil t, h⟩
  | cons c l₁ ih =>
      cases h with
      | cons fuel op hcall hrest =>
          obtain ⟨m, hm, hm'⟩ := ih hrest
          exact ⟨m, .cons fuel op hcall hm, hm'⟩

/-- A call of a history, in its place: the table it finds is sound, and it does one of the three
things.
Source: none
Kind: L -/
theorem Table.Recorded.at {l₁ l₂ : List (CallRecord K V)} {c : CallRecord K V} {t' : Table K V}
    (h : t.Recorded hf (l₁ ++ c :: l₂) t') (ht : t.Sound hf) (hshut : .valve ∉ c.notes) :
    t.Recorded hf l₁ c.before ∧ c.after.Recorded hf l₂ t' ∧ c.before.Sound hf ∧
      c.after.Sound hf ∧ c.Effect := by
  obtain ⟨m, hbefore, hrest⟩ := h.split
  cases hrest with
  | cons fuel op hcall hafter =>
      have hm := hbefore.sound ht
      refine ⟨hbefore, hafter, hm, ?_, op.logged_effect hm hcall hshut⟩
      exact (Table.Recorded.cons fuel op hcall (.nil _)).sound hm

/-- Between two resizes the capacity stands and every call moves the count by at most one.
Source: `internal/shardmap/table.go` `insert`, `delete`
Kind: P -/
theorem Table.Recorded.between {calls : List (CallRecord K V)} {t' : Table K V}
    (h : t.Recorded hf calls t') (ht : t.Sound hf) (hshut : ∀ c ∈ calls, .valve ∉ c.notes)
    (hsame : ∀ c ∈ calls, c.resizes = []) :
    t'.cap = t.cap ∧ t'.count ≤ t.count + calls.length ∧ t.count ≤ t'.count + calls.length := by
  induction h with
  | nil t => exact ⟨rfl, le_rfl, le_rfl⟩
  | @cons t t' t'' calls notes fuel op hcall hrest ih =>
      have hs : t'.Sound hf := (Table.Recorded.cons fuel op hcall (.nil _)).sound ht
      obtain ⟨hcap, hle, hge⟩ := ih hs (fun c hc => hshut c (List.mem_cons_of_mem _ hc))
        fun c hc => hsame c (List.mem_cons_of_mem _ hc)
      have hnone := hsame _ List.mem_cons_self
      have heffect := op.logged_effect ht hcall (hshut _ List.mem_cons_self)
      rw [List.length_cons]
      cases heffect with
      | still hnotes hcap' hle' hge' =>
          dsimp only at hcap' hle' hge'
          exact ⟨hcap.trans hcap', by omega, by omega⟩
      | grown hnotes =>
          dsimp only at hnotes
          rw [CallRecord.resizes, hnotes] at hnone
          cases hnone
      | shrunk hnotes =>
          dsimp only at hnotes
          rw [CallRecord.resizes, hnotes] at hnone
          cases hnone

/-! ### Hysteresis -/

/-- The capacity is a multiple of eight.
Source: `internal/shardmap/table.go` `insert`, `delete`
Kind: L -/
theorem Table.Laid.eight_dvd_cap (h : t.Laid hf) : 8 ∣ t.cap := by
  obtain ⟨p, hp, hcap⟩ := h.cap_pow
  rw [hcap]
  exact pow_dvd_pow 2 hp

namespace CallRecord

variable {c : CallRecord K V}

/-- A call resizes at most once.
Source: `internal/shardmap/table.go` `insert`, `delete`
Kind: L -/
theorem Effect.resizes_length (h : c.Effect) : c.resizes.length ≤ 1 := by
  unfold resizes
  cases h with
  | still hnotes => simp [hnotes]
  | grown hnotes => simp [hnotes, Note.resized]
  | shrunk hnotes => simp [hnotes, Note.resized]

/-- A grow starts at three quarters, and ends with no fewer entries.
Source: `internal/shardmap/table.go` `insert`
Kind: L -/
theorem Effect.of_grows (h : c.Effect) (hgrows : c.Grows) :
    c.after.cap = c.before.cap * 2 ∧ c.before.cap * loadNum / loadDen ≤ c.before.count ∧
      c.before.count ≤ c.after.count := by
  obtain ⟨r, hr, hlt⟩ := hgrows
  unfold resizes at hr
  cases h with
  | still hnotes => simp [hnotes] at hr
  | grown hnotes hcap hfull hge => exact ⟨hcap, hfull, hge⟩
  | shrunk hnotes =>
      obtain rfl : r = (c.before.cap, c.before.cap / 2) := by simpa [hnotes, Note.resized] using hr
      dsimp only at hlt
      omega

/-- A shrink starts one entry above a quarter at most, and ends with no more entries.
Source: `internal/shardmap/table.go` `shrink`
Kind: L -/
theorem Effect.of_shrinks (h : c.Effect) (hshrinks : c.Shrinks) :
    c.after.cap = c.before.cap / 2 ∧ c.before.count - 1 < c.before.cap * shrinkNum / shrinkDen ∧
      c.after.count ≤ c.before.count := by
  obtain ⟨r, hr, hlt⟩ := hshrinks
  unfold resizes at hr
  cases h with
  | still hnotes => simp [hnotes] at hr
  | grown hnotes =>
      obtain rfl : r = (c.before.cap, c.before.cap * 2) := by simpa [hnotes, Note.resized] using hr
      dsimp only at hlt
      omega
  | shrunk hnotes hcap hsparse hle => exact ⟨hcap, hsparse, hle⟩

end CallRecord

/-- **Capacity does not thrash.** In a history during which the overflow valve stays shut no call
resizes twice, and between a grow and a later shrink, or a shrink and a later grow, with no resize
in between, there are at least an eighth as many calls as the capacity in between. The records the
statement is about are those of the histories of `insert` and `delete`.
Source: `internal/shardmap/table.go` `shrink`
Kind: P
Fidelity: exact -/
theorem capacity_hysteresis (hf : K → UInt64) (t : Table K V) (h : t.Reachable hf) :
    (∀ ops t', t.Calls hf ops t' ↔
      ∃ calls, t.Recorded hf calls t' ∧ calls.map CallRecord.op = ops) ∧
    ∀ calls t', t.Recorded hf calls t' → (∀ c ∈ calls, Note.valve ∉ c.notes) →
      (∀ c ∈ calls, c.resizes.length ≤ 1) ∧
      ∀ earlier first between second later,
        calls = earlier ++ first :: (between ++ second :: later) →
        (∀ c ∈ between, c.resizes = []) →
        first.Grows ∧ second.Shrinks ∨ first.Shrinks ∧ second.Grows →
          first.after.cap ≤ 8 * between.length := by
  refine ⟨fun ops t' => Table.calls_iff_recorded, fun calls t' hrec hshut => ⟨?_, ?_⟩⟩
  · intro c hc
    obtain ⟨l₁, l₂, rfl⟩ := List.append_of_mem hc
    exact (hrec.at h.sound (hshut c hc)).2.2.2.2.resizes_length
  · rintro earlier first between second later rfl hsame hopposite
    obtain ⟨-, hrest, hsound, hsound', hfirst⟩ := hrec.at h.sound (hshut first (by simp))
    obtain ⟨hbetween, -, -, -, hsecond⟩ := hrest.at hsound' (hshut second (by simp))
    obtain ⟨hcap, hle, hge⟩ := hbetween.between hsound' (fun c hc => hshut c (by simp [hc])) hsame
    have hdvd := hsound.eight_dvd_cap
    have hdvd' := hsound'.eight_dvd_cap
    rcases hopposite with ⟨hgrows, hshrinks⟩ | ⟨hshrinks, hgrows⟩
    -- From three eighths of the new capacity down to a quarter.
    · obtain ⟨hdouble, hfull, hmore⟩ := hfirst.of_grows hgrows
      obtain ⟨-, hsparse, -⟩ := hsecond.of_shrinks hshrinks
      unfold loadNum loadDen at hfull
      unfold shrinkNum shrinkDen at hsparse
      omega
    -- From half of the new capacity up to three quarters.
    · obtain ⟨hhalf, hsparse, hfewer⟩ := hfirst.of_shrinks hshrinks
      obtain ⟨-, hfull, -⟩ := hsecond.of_grows hgrows
      unfold loadNum loadDen at hfull
      unfold shrinkNum shrinkDen at hsparse
      omega

/-- Seven insertions, of which the last one grows, and four deletions, of which the last one
shrinks.
Source: `internal/shardmap/table_test.go` `TestTable_ShrinkHysteresisNoOscillation`
Kind: C -/
theorem capacity_hysteresis_seven :
    ∃ (earlier : List (CallRecord ℕ ℕ)) (first : CallRecord ℕ ℕ) (between : List (CallRecord ℕ ℕ))
      (second : CallRecord ℕ ℕ) (later : List (CallRecord ℕ ℕ)) (t : Table ℕ ℕ),
      (newTable 0).Recorded UInt64.ofNat (earlier ++ first :: (between ++ second :: later)) t ∧
      first.notes = [.resize 8 16] ∧ between.map CallRecord.notes = [[], [], []] ∧
      second.notes = [.resize 16 8] ∧ first.after.cap ≤ 8 * between.length := by
  have hrun : (fun r => r.1.map CallRecord.notes) <$>
      (newTable 0 : Table ℕ ℕ).record UInt64.ofNat 20
      [.insert 1 1, .insert 2 2, .insert 3 3, .insert 4 4, .insert 5 5, .insert 6 6, .insert 7 7,
        .delete 1, .delete 2, .delete 3, .delete 4] =
      .ok ([[], [], [], [], [], []] ++ [.resize 8 16] ::
        ([[], [], []] ++ [.resize 16 8] :: [])) := by
    decide +kernel
  obtain ⟨⟨calls, t⟩, hrecord, hnotes⟩ := map_eq_ok_iff.mp hrun
  have hrec := Table.recorded_of_record hrecord
  have hshut : ∀ c ∈ calls, Note.valve ∉ c.notes := by
    have hall : ∀ notes ∈ calls.map CallRecord.notes, Note.valve ∉ notes := by
      rw [hnotes]
      decide
    exact fun c hc => hall _ (List.mem_map_of_mem hc)
  obtain ⟨earlier, rest, rfl, -, hnotes⟩ := List.map_eq_append_iff.mp hnotes
  obtain ⟨first, rest, rfl, hfirst, hnotes⟩ := List.map_eq_cons_iff.mp hnotes
  obtain ⟨between, rest, rfl, hbetween, hnotes⟩ := List.map_eq_append_iff.mp hnotes
  obtain ⟨second, later, rfl, hsecond, -⟩ := List.map_eq_cons_iff.mp hnotes
  have hsame : ∀ c ∈ between, c.resizes = [] := by
    have hall : ∀ notes ∈ between.map CallRecord.notes, notes.filterMap Note.resized = [] := by
      rw [hbetween]
      decide
    exact fun c hc => hall _ (List.mem_map_of_mem hc)
  have hgrows : first.Grows := ⟨(8, 16), by simp [CallRecord.resizes, hfirst, Note.resized]⟩
  have hshrinks : second.Shrinks := ⟨(16, 8), by simp [CallRecord.resizes, hsecond, Note.resized]⟩
  refine ⟨earlier, first, between, second, later, t, hrec, hfirst, hbetween, hsecond, ?_⟩
  exact ((capacity_hysteresis UInt64.ofNat (newTable 0) (.new 0)).2 _ t hrec hshut).2 earlier first
    between second later rfl hsame (Or.inl ⟨hgrows, hshrinks⟩)

end CacheMoney.Shardmap
