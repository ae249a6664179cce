import Mathlib.Data.Nat.Basic
import CacheMoney.Found.Outcome

/-!
# The per-shard table

`internal/shardmap/table.go`: one single-threaded open-addressing Robin Hood table. The four
parallel arrays `meta`, `keys`, `vals`, `hashes` are one list of `Slot`s here (they always have
one length and are written together); the metadata word, the hashes and the distances keep
their machine types. Capacities are naturals: a call that would need a capacity no Go slice
can have does not return.

* `Table.set`, `setLoop`, `grow`, `resize` are mutually recursive through the overflow valve
  (`set` grows the table when a distance leaves the metadata field, and `grow` reinserts with
  `set`), so they run on a fuel clock. With colliding 64-bit hashes the recursion really does
  not end.
* `Table.probe` is the search loop that `lookup` and `delete` share.
* Every slot access is bounds-checked (`index`, `store`).
-/

namespace CacheMoney.Shardmap

open CacheMoney.Found

/-! ### Metadata words -/

/-- Source: `internal/shardmap/table.go` `fragBits`
Kind: D -/
def fragBits : UInt16 := 8

/-- Source: `internal/shardmap/table.go` `fragMask`
Kind: D -/
def fragMask : UInt16 := (1 <<< fragBits) - 1

/-- The largest distance the metadata can store.
Source: `internal/shardmap/table.go` `maxDib`
Kind: D -/
def maxDib : UInt16 := (1 <<< (16 - fragBits)) - 2

/-- Source: `internal/shardmap/table.go` `minCap`
Kind: D -/
def minCap : ℕ := 8

/-- Source: `internal/shardmap/table.go` `loadNum`
Kind: D -/
def loadNum : ℕ := 3

/-- Source: `internal/shardmap/table.go` `loadDen`
Kind: D -/
def loadDen : ℕ := 4

/-- Source: `internal/shardmap/table.go` `shrinkNum`
Kind: D -/
def shrinkNum : ℕ := 1

/-- Source: `internal/shardmap/table.go` `shrinkDen`
Kind: D -/
def shrinkDen : ℕ := 4

/-- The hash fragment kept in the low bits of the metadata.
Source: `internal/shardmap/table.go` `fragOf`
Kind: D -/
def fragOf (hash : UInt64) : UInt16 := (hash &&& fragMask.toUInt64).toUInt16

/-- The distance recorded in an occupied slot's metadata.
Source: `internal/shardmap/table.go` `dibOf`
Kind: D -/
def dibOf (m : UInt16) : UInt16 := (m >>> fragBits) - 1

/-- Source: `internal/shardmap/table.go` `packMeta`
Kind: D -/
def packMeta (dib frag : UInt16) : UInt16 := ((dib + 1) <<< fragBits) ||| frag

/-! ### The table -/

/-- One slot: element `i` of `meta`, `keys`, `vals` and `hashes`. A zero `metadata` word means
the slot is empty.
Source: `internal/shardmap/table.go` `table`
Kind: D -/
structure Slot (K V : Type) where
  /-- `0` for empty, else `(dib+1) << fragBits | fragment`. -/
  metadata : UInt16
  key : K
  val : V
  /-- The cached full hash of `key`. -/
  hash : UInt64
  deriving DecidableEq, Repr

/-- Source: `internal/shardmap/table.go` `table`
Kind: D -/
structure Table (K V : Type) where
  slots : List (Slot K V)
  /-- Number of occupied slots. -/
  count : ℕ
  /-- Capacity minus one, as a bit mask. -/
  capm1 : ℕ
  /-- Grow when `count` reaches this. -/
  growAt : ℕ
  deriving DecidableEq, Repr

/-- What the insertion loop carries: the `cur*` locals, the `swapped` flag and the index.
Source: `internal/shardmap/table.go` `set`
Kind: D -/
structure Carried (K V : Type) where
  curHash : UInt64
  curKey : K
  curVal : V
  curFrag : UInt16
  curDib : UInt16
  swapped : Bool
  i : ℕ
  deriving DecidableEq, Repr

variable {K V : Type}

/-- The slot holds an entry.
Source: `internal/shardmap/table.go` `table`
Kind: D -/
def Slot.Occupied (s : Slot K V) : Prop := s.metadata ≠ 0

instance (s : Slot K V) : Decidable s.Occupied := inferInstanceAs (Decidable (_ ≠ _))

/-- Source: `internal/shardmap/table.go` `home`
Kind: D -/
def Table.home (t : Table K V) (hash : UInt64) : ℕ := hash.toNat &&& t.capm1

/-- The next slot on the cycle.
Source: `internal/shardmap/table.go` `set`, `lookup`, `delete`
Kind: D -/
def Table.next (t : Table K V) (i : ℕ) : ℕ := (i + 1) &&& t.capm1

/-- Capacity, `len(t.meta)`.
Source: `internal/shardmap/table.go` `grow`, `shrink`
Kind: D -/
def Table.cap (t : Table K V) : ℕ := t.slots.length

section ops

variable [DecidableEq K] [Inhabited K] [Inhabited V]

/-- A zeroed slot, as `make` and the vacating write of `delete` leave it.
Source: `internal/shardmap/table.go` `alloc`, `delete`
Kind: D -/
def Slot.zero : Slot K V := ⟨0, default, default, 0⟩

/-- Source: `internal/shardmap/table.go` `alloc`
Kind: D -/
def Table.alloc (capacity : ℕ) : Table K V where
  slots := List.replicate capacity Slot.zero
  count := 0
  capm1 := capacity - 1
  growAt := capacity * loadNum / loadDen

/-- The doubling loop of `newTable`. `capacityHint` rounds are always enough
(`newTableLoop_spec`).
Source: `internal/shardmap/table.go` `newTable`
Kind: D -/
def newTableLoop (capacityHint : ℤ) : ℕ → ℕ → ℕ
  | 0, c => c
  | rounds + 1, c =>
      if ((c * loadNum / loadDen : ℕ) : ℤ) < capacityHint then
        newTableLoop capacityHint rounds (c <<< 1)
      else c

/-- Source: `internal/shardmap/table.go` `newTable`
Kind: D -/
def newTable (capacityHint : ℤ) : Table K V :=
  Table.alloc (newTableLoop capacityHint capacityHint.toNat minCap)

mutual

/-- Source: `internal/shardmap/table.go` `set`
Kind: D -/
def Table.set : ℕ → Table K V → UInt64 → K → V → Outcome (Table K V)
  | 0, _, _, _, _ => throw .outOfFuel
  | fuel + 1, t, hash, key, value =>
      Table.setLoop fuel t ⟨hash, key, value, fragOf hash, 0, false, t.home hash⟩

/-- The loop of `set`.
Source: `internal/shardmap/table.go` `set`
Kind: D -/
def Table.setLoop : ℕ → Table K V → Carried K V → Outcome (Table K V)
  | 0, _, _ => throw .outOfFuel
  | fuel + 1, t, c =>
      if maxDib < c.curDib then do
        -- The valve: the carried entry is outside the table while the others are reinserted.
        let t ← Table.grow fuel t
        Table.set fuel t c.curHash c.curKey c.curVal
      else do
        let s ← index t.slots c.i
        if s.metadata = 0 then
          let slots ← store t.slots c.i
            ⟨packMeta c.curDib c.curFrag, c.curKey, c.curVal, c.curHash⟩
          pure { t with slots := slots, count := t.count + 1 }
        else if !c.swapped ∧ s.metadata &&& fragMask = c.curFrag ∧ s.key = c.curKey then
          let slots ← store t.slots c.i { s with val := c.curVal }
          pure { t with slots := slots }
        else if dibOf s.metadata < c.curDib then
          -- Rob the richer resident and carry it onward.
          let slots ← store t.slots c.i
            ⟨packMeta c.curDib c.curFrag, c.curKey, c.curVal, c.curHash⟩
          Table.setLoop fuel { t with slots := slots }
            ⟨s.hash, s.key, s.val, fragOf s.hash, dibOf s.metadata + 1, true, t.next c.i⟩
        else
          Table.setLoop fuel t { c with i := t.next c.i, curDib := c.curDib + 1 }

/-- Source: `internal/shardmap/table.go` `grow`
Kind: D -/
def Table.grow : ℕ → Table K V → Outcome (Table K V)
  | 0, _ => throw .outOfFuel
  | fuel + 1, t => Table.resize fuel t (t.cap * 2)

/-- Source: `internal/shardmap/table.go` `resize`
Kind: D -/
def Table.resize : ℕ → Table K V → ℕ → Outcome (Table K V)
  | 0, _, _ => throw .outOfFuel
  | fuel + 1, src, newCap =>
      src.slots.foldlM (fun t s =>
        if s.metadata ≠ 0 then Table.set fuel t s.hash s.key s.val else pure t)
        (Table.alloc newCap)

end

/-- Source: `internal/shardmap/table.go` `insert`
Kind: D -/
def Table.insert (fuel : ℕ) (t : Table K V) (hash : UInt64) (key : K) (value : V) :
    Outcome (Table K V) := do
  let t ← if t.growAt ≤ t.count then Table.grow fuel t else pure t
  Table.set fuel t hash key value

/-- The search loop of `lookup` and `delete`: the slot that holds `key`, or `none` on an empty
slot or a resident nearer its home than the probe is.
Source: `internal/shardmap/table.go` `lookup`, `delete`
Kind: D -/
def Table.probe (t : Table K V) (frag : UInt16) (key : K) : ℕ → ℕ → UInt16 → Outcome (Option ℕ)
  | 0, _, _ => throw .outOfFuel
  | fuel + 1, i, dib => do
      let s ← index t.slots i
      if s.metadata = 0 then pure none
      else if dibOf s.metadata < dib then pure none
      else if s.metadata &&& fragMask = frag ∧ s.key = key then pure (some i)
      else Table.probe t frag key fuel (t.next i) (dib + 1)

/-- Source: `internal/shardmap/table.go` `lookup`
Kind: D -/
def Table.lookup (fuel : ℕ) (t : Table K V) (hash : UInt64) (key : K) : Outcome (Option V) := do
  match ← t.probe (fragOf hash) key fuel (t.home hash) 0 with
  | none => pure none
  | some i =>
      let s ← index t.slots i
      pure (some s.val)

/-- The backward shift of `delete`; returns the slot left to vacate.
Source: `internal/shardmap/table.go` `delete`
Kind: D -/
def Table.shiftBack : ℕ → Table K V → ℕ → ℕ → Outcome (Table K V × ℕ)
  | 0, _, _, _ => throw .outOfFuel
  | fuel + 1, t, i, j => do
      let s ← index t.slots j
      if s.metadata ≠ 0 ∧ 0 < dibOf s.metadata then
        let slots ← store t.slots i
          { s with metadata := packMeta (dibOf s.metadata - 1) (s.metadata &&& fragMask) }
        Table.shiftBack fuel { t with slots := slots } j (t.next j)
      else pure (t, i)

/-- Source: `internal/shardmap/table.go` `shrink`
Kind: D -/
def Table.shrink (fuel : ℕ) (t : Table K V) : Outcome (Table K V) :=
  if t.cap ≤ minCap then pure t
  else if t.cap * shrinkNum / shrinkDen ≤ t.count then pure t
  else Table.resize fuel t (t.cap / 2)

/-- The removed value, if `key` was present, and the table afterwards.
Source: `internal/shardmap/table.go` `delete`
Kind: D -/
def Table.delete (fuel : ℕ) (t : Table K V) (hash : UInt64) (key : K) :
    Outcome (Option V × Table K V) := do
  match ← t.probe (fragOf hash) key fuel (t.home hash) 0 with
  | none => pure (none, t)
  | some i =>
      let removed ← index t.slots i
      let (t, i) ← Table.shiftBack fuel t i (t.next i)
      let slots ← store t.slots i Slot.zero
      let t ← Table.shrink fuel { t with slots := slots, count := t.count - 1 }
      pure (some removed.val, t)

end ops

end CacheMoney.Shardmap
