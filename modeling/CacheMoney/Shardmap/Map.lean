import CacheMoney.Shardmap.Table

/-!
# The sharded map

`internal/shardmap/map.go` and `internal/shardmap/options.go`: a power-of-two array of tables,
routed by the top bits of the key's hash. Each method is one critical section of one shard
(`Len` and `Range` one per shard), so a sequential run is a run of these functions.

The hasher and the seed are parameters, as in the source. `Host` is what `New` asks of the
process: `GOMAXPROCS` and a fresh seed.
-/

namespace CacheMoney.Shardmap

open CacheMoney.Found

/-! ### Construction -/

/-- An option of `New`.
Source: `internal/shardmap/options.go` `Option`
Kind: D -/
inductive Opt (S : Type) where
  | withShards (n : ℤ)
  | withSeed (seed : S)
  | withInitialCapacity (n : ℤ)
  deriving Repr

/-- Source: `internal/shardmap/options.go` `config`
Kind: D -/
structure Config (S : Type) where
  /-- Requested shard count; `0` derives the default. -/
  numShards : ℤ := 0
  /-- The routing seed, when `WithSeed` supplied one. -/
  seed : Option S := none
  /-- Total capacity hint; `0` for none. -/
  initialCap : ℤ := 0
  deriving Repr

/-- Source: `internal/shardmap/options.go` `WithShards`, `WithSeed`, `WithInitialCapacity`
Kind: D -/
def Opt.apply {S : Type} (c : Config S) : Opt S → Config S
  | .withShards n => { c with numShards := if n < 1 then 1 else n }
  | .withSeed seed => { c with seed := some seed }
  | .withInitialCapacity n => if 0 < n then { c with initialCap := n } else c

/-- The doubling loop of `nextPow2`; `n` rounds are enough (`nextPow2Loop_spec`).
Source: `internal/shardmap/options.go` `nextPow2`
Kind: D -/
def nextPow2Loop (n : ℤ) : ℕ → ℕ → ℕ
  | 0, p => p
  | rounds + 1, p => if (p : ℤ) < n then nextPow2Loop n rounds (p <<< 1) else p

/-- Source: `internal/shardmap/options.go` `nextPow2`
Kind: D -/
def nextPow2 (n : ℤ) : ℕ := if n ≤ 1 then 1 else nextPow2Loop n n.toNat 1

/-- The counting loop of `log2PowerOf2`; `n` rounds are enough.
Source: `internal/shardmap/options.go` `log2PowerOf2`
Kind: D -/
def log2Loop (n : ℕ) : ℕ → ℕ → ℕ
  | 0, k => k
  | rounds + 1, k => if 1 <<< k < n then log2Loop n rounds (k + 1) else k

/-- Source: `internal/shardmap/options.go` `log2PowerOf2`
Kind: D -/
def log2PowerOf2 (n : ℕ) : ℕ := log2Loop n n 0

/-- What `New` reads from the process.
Source: `internal/shardmap/map.go` `New`, `defaultShardCount`
Kind: D -/
structure Host (S : Type) where
  gomaxprocs : ℕ
  freshSeed : S

/-- Source: `internal/shardmap/map.go` `defaultShardCount`
Kind: D -/
def defaultShardCount {S : Type} (host : Host S) : ℕ := nextPow2 (host.gomaxprocs * 4)

/-- Source: `internal/shardmap/map.go` `Map`
Kind: D -/
structure Map (S K V : Type) where
  shards : List (Table K V)
  seed : S
  hasher : S → K → UInt64
  /-- `64 - log2(len(shards))`. -/
  shardShift : ℕ

/-- The shard slot for a hash. The shift is by a natural amount, so a shift of 64 gives `0` as in
Go.
Source: `internal/shardmap/map.go` `shardIndex`
Kind: D -/
def shardIndex (h : UInt64) (shift : ℕ) : ℕ := h.toNat >>> shift

variable {S K V : Type}

/-- The resolved, rounded shard count of `New`.
Source: `internal/shardmap/map.go` `New`
Kind: D -/
def shardCount (host : Host S) (opts : List (Opt S)) : ℕ :=
  let cfg := opts.foldl Opt.apply {}
  nextPow2 (if cfg.numShards < 1 then defaultShardCount host else cfg.numShards)

section ops

variable [DecidableEq K] [Inhabited K] [Inhabited V]

/-- Source: `internal/shardmap/map.go` `New`
Kind: D -/
def Map.new (host : Host S) (hasher : S → K → UInt64) (opts : List (Opt S)) : Map S K V :=
  let cfg := opts.foldl Opt.apply {}
  let numShards := shardCount host opts
  let perShardCap : ℤ :=
    if 0 < cfg.initialCap then (cfg.initialCap + numShards - 1) / numShards else 0
  { shards := List.replicate numShards (newTable perShardCap)
    seed := cfg.seed.getD host.freshSeed
    hasher := hasher
    shardShift := 64 - log2PowerOf2 numShards }

/-! ### Methods -/

/-- Source: `internal/shardmap/map.go` `Get`
Kind: D -/
def Map.get (fuel : ℕ) (m : Map S K V) (key : K) : Outcome (Option V) := do
  let h := m.hasher m.seed key
  let s ← index m.shards (shardIndex h m.shardShift)
  s.lookup fuel h key

/-- Source: `internal/shardmap/map.go` `Set`
Kind: D -/
def Map.set (fuel : ℕ) (m : Map S K V) (key : K) (value : V) : Outcome (Map S K V) := do
  let h := m.hasher m.seed key
  let s ← index m.shards (shardIndex h m.shardShift)
  let s ← s.insert fuel h key value
  let shards ← store m.shards (shardIndex h m.shardShift) s
  pure { m with shards := shards }

/-- The previous value, if any, and the map afterwards.
Source: `internal/shardmap/map.go` `Swap`
Kind: D -/
def Map.swap (fuel : ℕ) (m : Map S K V) (key : K) (value : V) :
    Outcome (Option V × Map S K V) := do
  let h := m.hasher m.seed key
  let s ← index m.shards (shardIndex h m.shardShift)
  let old ← s.lookup fuel h key
  let s ← s.insert fuel h key value
  let shards ← store m.shards (shardIndex h m.shardShift) s
  pure (old, { m with shards := shards })

/-- The removed value, if any, and the map afterwards.
Source: `internal/shardmap/map.go` `Delete`
Kind: D -/
def Map.delete (fuel : ℕ) (m : Map S K V) (key : K) : Outcome (Option V × Map S K V) := do
  let h := m.hasher m.seed key
  let s ← index m.shards (shardIndex h m.shardShift)
  let (removed, s) ← s.delete fuel h key
  let shards ← store m.shards (shardIndex h m.shardShift) s
  pure (removed, { m with shards := shards })

/-- Source: `internal/shardmap/map.go` `Len`
Kind: D -/
def Map.len (m : Map S K V) : ℕ := m.shards.foldl (fun n s => n + s.count) 0

/-- The slot loop of `rangeShard`, from slot `i` for the given number of rounds. The callback
threads a state `α` and answers whether to go on.
Source: `internal/shardmap/map.go` `rangeShard`
Kind: D -/
def rangeLoop {α : Type} (fn : α → K → V → α × Bool) (t : Table K V) :
    ℕ → ℕ → α → Outcome (α × Bool)
  | 0, _, a => pure (a, true)
  | rounds + 1, i, a => do
      let s ← index t.slots i
      if s.metadata = 0 then rangeLoop fn t rounds (i + 1) a
      else if !(fn a s.key s.val).2 then pure ((fn a s.key s.val).1, false)
      else rangeLoop fn t rounds (i + 1) (fn a s.key s.val).1

/-- Source: `internal/shardmap/map.go` `rangeShard`
Kind: D -/
def rangeShard {α : Type} (fn : α → K → V → α × Bool) (t : Table K V) (a : α) :
    Outcome (α × Bool) :=
  rangeLoop fn t (t.capm1 + 1) 0 a

/-- The shard loop of `Range`.
Source: `internal/shardmap/map.go` `Range`
Kind: D -/
def rangeShards {α : Type} (fn : α → K → V → α × Bool) : List (Table K V) → α → Outcome α
  | [], a => pure a
  | t :: ts, a => do
      let (a, more) ← rangeShard fn t a
      if !more then pure a else rangeShards fn ts a

/-- Source: `internal/shardmap/map.go` `Range`
Kind: D -/
def Map.range {α : Type} (fn : α → K → V → α × Bool) (m : Map S K V) (a : α) : Outcome α :=
  rangeShards fn m.shards a

end ops

end CacheMoney.Shardmap
