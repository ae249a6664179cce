import CacheMoney.Engine.Cache

/-!
# What the actions of the engine do

The finite-map reading of the backing map carries over to the cache: one specification for each
map action, in terms of a finite map `f` with `m.Represents f`, and one equation for the expiry
check, which is all the methods do besides.

* `Cache.Holds c f`: the map stores `f` and the byte counter is the cost of `f`. It holds of the
  new cache (`holds_new`) and between the calls of a sequential run.
* `Entry.deadAt`: the expiry rule at one clock reading.
-/

set_option linter.unusedSectionVars false

namespace CacheMoney.Engine

open CacheMoney.Found CacheMoney.Shardmap

variable {S : Type} {w : World S} {f : FinMap Bytes Entry}

/-- The accounted cost of a stored entry.
Source: `internal/cache/cost.go` `costOf`
Kind: D -/
def entryCost (key : Bytes) (e : Entry) : ℤ := costOf key e.value

/-- Every entry costs something.
Source: `internal/cache/cost.go` `costOf`
Kind: L -/
theorem entryCost_pos (key : Bytes) (e : Entry) : 0 < entryCost key e := by
  unfold entryCost costOf entryOverhead
  omega

/-- The accounted cost of everything that is stored, expired entries included.
Source: `internal/cache/cost.go` `costOf`
Kind: D -/
def total (f : FinMap Bytes Entry) : ℤ := weight entryCost f

/-- The total is never negative.
Source: `internal/cache/cost.go` `costOf`
Kind: L -/
theorem total_nonneg (f : FinMap Bytes Entry) : 0 ≤ total f :=
  weight_nonneg (fun k e => (entryCost_pos k e).le) f

/-- The cost of what was found under a key, if anything was.
Source: `internal/cache/cost.go` `costOf`
Kind: L -/
theorem foundCost_eq (key : Bytes) (old : Option Entry) :
    Cache.foundCost key old = old.elim 0 (entryCost key) := by
  cases old <;> rfl

/-- What was found never costs less than nothing.
Source: `internal/cache/cost.go` `costOf`
Kind: L -/
theorem foundCost_nonneg (key : Bytes) (old : Option Entry) : 0 ≤ Cache.foundCost key old := by
  cases old with
  | none => exact le_rfl
  | some e => exact (entryCost_pos key e).le

/-- An insertion adds the new cost and takes the old one off.
Source: `internal/cache/cost.go` `costOf`
Kind: L -/
theorem total_insert (f : FinMap Bytes Entry) (key : Bytes) (e : Entry) :
    total (f.insert key e) =
      total f + (costOf key e.value - Cache.foundCost key (f.lookup key)) := by
  rw [total, weight_insert, foundCost_eq]
  rfl

/-- An erasure takes the cost of what was stored off.
Source: `internal/cache/cost.go` `costOf`
Kind: L -/
theorem total_erase (f : FinMap Bytes Entry) (key : Bytes) :
    total (f.erase key) = total f - Cache.foundCost key (f.lookup key) := by
  rw [total, weight_erase, foundCost_eq]
  rfl

/-- The cache stores `f` and accounts for it exactly.
Source: `internal/cache/cache.go` `Cache`
Kind: D -/
structure Cache.Holds (c : Cache S) (f : FinMap Bytes Entry) : Prop where
  represents : c.m.Represents f
  usage_eq : c.usage = total f

/-- A new cache holds the empty map.
Source: `internal/cache/cache.go` `New`
Kind: P -/
theorem holds_new (host : Host S) (hasher : S → Bytes → UInt64) (opts : List (CacheOpt S))
    (hhost : host.gomaxprocs * 4 ≤ 2 ^ 62)
    (hopts : ∀ n, CacheOpt.withShards n ∈ opts → n ≤ 2 ^ 62) :
    (Cache.new host hasher opts).Holds ∅ := by
  have hcfg : ∀ (opts : List (CacheOpt S)) (cfg : Config S) (n : ℤ),
      Opt.withShards n ∈ (opts.foldl CacheOpt.apply cfg).shardOpts →
        Opt.withShards n ∈ cfg.shardOpts ∨ CacheOpt.withShards n ∈ opts := by
    intro opts
    induction opts with
    | nil => exact fun cfg n hn => Or.inl hn
    | cons o opts ih =>
        intro cfg n hn
        rcases ih (CacheOpt.apply cfg o) n hn with hn | hn
        · cases o with
          | withShards n' =>
              simp only [CacheOpt.apply, List.mem_append, List.mem_singleton,
                Opt.withShards.injEq] at hn
              rcases hn with hn | rfl
              · exact Or.inl hn
              · exact Or.inr List.mem_cons_self
          | withSeed seed => exact Or.inl (by simpa [CacheOpt.apply] using hn)
          | withMaxMemory bytes => exact Or.inl hn
          | withEvictionPolicy p => exact Or.inl hn
        · exact Or.inr (List.mem_cons_of_mem _ hn)
  refine ⟨represents_new host hasher _ hhost fun n hn => hopts n ?_, rfl⟩
  rcases hcfg opts {} n hn with hn | hn
  · exact absurd hn List.not_mem_nil
  · exact hn

/-! ### Single actions -/

/-- Sequencing after one action.
Source: none
Kind: L -/
theorem ensures_ask_bind {β W : Type} {ex : (a : Action) → W → Outcome (a.Answer × W)} {a : Action}
    {next : a.Answer → CacheM β} {x : W} {Q : a.Answer × W → Prop} {Q' : β × W → Prop}
    (h : Ensures (ex a x) Q) (hnext : ∀ r y, Q (r, y) → Ensures ((next r).run ex y) Q') :
    Ensures ((ask a >>= next).run ex x) Q' := by
  refine Prog.ensures_bind (Q := Q) ?_ hnext
  rw [ask, Prog.run_perform]
  exact h

/-- A lookup in the map answers with the entry and changes nothing.
Source: `internal/shardmap/map.go` `Get`
Kind: L -/
theorem exec_get (h : w.cache.m.Represents f) (fuel : ℕ) (key : Bytes) :
    Ensures (exec fuel (.get key) w) fun r => r.1 = f.lookup key ∧ r.2 = w :=
  (h.get fuel key).bind fun _ hr => ⟨hr, rfl⟩

/-- A swap answers what was stored, and leaves the map that `Swap` computes.
Source: `internal/shardmap/shardmap.go` `Swap`
Kind: L -/
theorem exec_swap (h : w.cache.m.Represents f) (fuel : ℕ) (key : Bytes) (e : Entry) :
    Ensures (exec fuel (.swap key e) w) fun r => r.1 = f.lookup key ∧
      ∃ m, w.cache.m.swap fuel key e = .ok (r.1, m) ∧ m.Represents (f.insert key e) ∧
        r.2 = { w with cache := { w.cache with m := m } } :=
  (h.swap fuel key e).eq_ok.bind fun r hr => ⟨hr.2.1, r.2, hr.1, hr.2.2, rfl⟩

/-- A deletion answers what was stored, and leaves the map that `Delete` computes.
Source: `internal/shardmap/shardmap.go` `Delete`
Kind: L -/
theorem exec_delete (h : w.cache.m.Represents f) (fuel : ℕ) (key : Bytes) :
    Ensures (exec fuel (.delete key) w) fun r => r.1 = f.lookup key ∧
      ∃ m, w.cache.m.delete fuel key = .ok (r.1, m) ∧ m.Represents (f.erase key) ∧
        r.2 = { w with cache := { w.cache with m := m } } :=
  (h.delete fuel key).eq_ok.bind fun r hr => ⟨hr.2.1, r.2, hr.1, hr.2.2, rfl⟩

/-- Loading the usage changes nothing.
Source: `internal/cache/cache.go` `usage`
Kind: L -/
theorem exec_loadUsage (fuel : ℕ) :
    Ensures (exec fuel .loadUsage w) fun r => r.1 = w.cache.usage ∧ r.2 = w := ⟨rfl, rfl⟩

/-- Loading the ceiling changes nothing.
Source: `internal/cache/cache.go` `maxmemory`
Kind: L -/
theorem exec_loadMaxmemory (fuel : ℕ) :
    Ensures (exec fuel .loadMaxmemory w) fun r => r.1 = w.cache.maxmemory ∧ r.2 = w := ⟨rfl, rfl⟩

/-- Loading the policy changes nothing.
Source: `internal/cache/cache.go` `evictPol`
Kind: L -/
theorem exec_loadEvictPol (fuel : ℕ) :
    Ensures (exec fuel .loadEvictPol w) fun r => r.1 = w.cache.evictPol ∧ r.2 = w := ⟨rfl, rfl⟩

/-- Adding to the usage changes the usage only.
Source: `internal/cache/cache.go` `usage`
Kind: L -/
theorem exec_addUsage (fuel : ℕ) (d : ℤ) : Ensures (exec fuel (.addUsage d) w) fun r =>
    r.2 = { w with cache := { w.cache with usage := w.cache.usage + d } } := rfl

/-- Storing the ceiling changes the ceiling only.
Source: `internal/cache/cache.go` `maxmemory`
Kind: L -/
theorem exec_storeMaxmemory (fuel : ℕ) (bytes : ℤ) :
    Ensures (exec fuel (.storeMaxmemory bytes) w) fun r =>
      r.2 = { w with cache := { w.cache with maxmemory := bytes } } := rfl

/-- Storing the policy changes the policy only.
Source: `internal/cache/cache.go` `evictPol`
Kind: L -/
theorem exec_storeEvictPol (fuel : ℕ) (p : EvictionPolicy) :
    Ensures (exec fuel (.storeEvictPol p) w) fun r =>
      r.2 = { w with cache := { w.cache with evictPol := p } } := rfl

/-- A sampling shows stored entries, and moves on the source of the draws.
Source: `internal/shardmap/sample.go` `Sample`
Kind: L -/
theorem exec_sample (h : w.cache.m.Represents f) (fuel : ℕ) (n : ℤ) :
    Ensures (exec fuel (.sample n) w) fun r => Drawn f n r.1 ∧
      ∃ rand, w.cache.m.sample fuel n w.env.rand = .ok (r.1, rand) ∧
        r.2 = { w with env := { w.env with rand := rand } } :=
  (h.sample fuel n w.env.rand).eq_ok.bind fun r hr => ⟨hr.2, r.2, hr.1, rfl⟩

/-- A walk answers with the entries of the map and changes nothing.
Source: `internal/shardmap/map.go` `Range`
Kind: L -/
theorem exec_range (h : w.cache.m.Represents f) (fuel : ℕ) :
    Ensures (exec fuel .range w) fun r => (r.1 : Multiset (Bytes × Entry)) = pairs f ∧ r.2 = w := by
  refine Ensures.bind (Q := fun l => l = w.cache.m.visits) ?_ ?_
  · rw [h.sound.range_eq (fun l k v => l ++ [(k, v)]), foldl_append_pair]
    exact List.nil_append _
  · rintro l rfl
    exact ⟨by rw [Map.coe_visits, h.contents_eq], rfl⟩

/-! ### The expiry check -/

/-- Whether an entry has expired at clock reading `t`.
Source: `internal/cache/cache.go` `expired`
Kind: D -/
def Entry.deadAt (e : Entry) (t : ℤ) : Bool :=
  !decide (e.expiresAt = zeroTime) && !decide (t < e.expiresAt)

/-- A clock that stands still, draws and estimates that are always `0`.
Source: none
Kind: D -/
def stillEnv (now : ℤ) : Env := ⟨⟨fun _ => now, 0⟩, ⟨fun _ => 0, 0⟩, ⟨fun _ => 0, 0⟩⟩

/-- A clock that stands at `0`, draws that are always `1`.
Source: none
Kind: D -/
def onesEnv : Env := ⟨⟨fun _ => 0, 0⟩, ⟨fun _ => 1, 0⟩, ⟨fun _ => 0, 0⟩⟩

/-- A hash that is the first byte of the key.
Source: none
Kind: D -/
def firstByte (_ : Unit) (k : Bytes) : UInt64 := (k.headD 0).toUInt64

/-- The world after one clock reading.
Source: none
Kind: D -/
def World.tick (w : World S) : World S :=
  { w with env := { w.env with clock := w.env.clock.tail } }

/-- Reading the clock takes one reading.
Source: none
Kind: L -/
theorem exec_now (fuel : ℕ) :
    Ensures (exec fuel .now w) fun r => r.1 = w.env.clock.head ∧ r.2 = w.tick := ⟨rfl, rfl⟩

/-- The check reads the clock once, and only for an entry that can expire.
Source: `internal/cache/cache.go` `expired`
Kind: L -/
theorem run_expired (fuel : ℕ) (e : Entry) :
    (Cache.expired e).run (exec fuel) w =
      .ok (e.deadAt w.env.clock.head, if e.expiresAt = zeroTime then w else w.tick) := by
  unfold Cache.expired Entry.deadAt
  by_cases hz : e.expiresAt = zeroTime
  · simp [hz]
  · simp only [hz, decide_false, Bool.not_false, Bool.true_and]
    rfl

/-- Two worlds with the same cache contents and settings, the same clock and the same draws ahead.
Source: none
Kind: D -/
structure World.Kept (w w' : World S) : Prop where
  m_eq : w'.cache.m = w.cache.m
  usage_eq : w'.cache.usage = w.cache.usage
  maxmemory_eq : w'.cache.maxmemory = w.cache.maxmemory
  evictPol_eq : w'.cache.evictPol = w.cache.evictPol
  clock_eq : w'.env.clock.read = w.env.clock.read
  rand_eq : w'.env.rand = w.env.rand

/-- A world keeps itself.
Source: none
Kind: L -/
theorem World.Kept.rfl' (w : World S) : w.Kept w := ⟨rfl, rfl, rfl, rfl, rfl, rfl⟩

/-- What is kept twice is kept.
Source: none
Kind: L -/
theorem World.Kept.trans {w w' w'' : World S} (h : w.Kept w') (h' : w'.Kept w'') : w.Kept w'' :=
  ⟨h'.m_eq.trans h.m_eq, h'.usage_eq.trans h.usage_eq, h'.maxmemory_eq.trans h.maxmemory_eq,
    h'.evictPol_eq.trans h.evictPol_eq, h'.clock_eq.trans h.clock_eq, h'.rand_eq.trans h.rand_eq⟩

/-- A kept cache holds the map it held.
Source: none
Kind: L -/
theorem World.Kept.holds {w w' : World S} (h : w.Kept w') (hf : w.cache.Holds f) :
    w'.cache.Holds f :=
  ⟨h.m_eq ▸ hf.represents, h.usage_eq.trans hf.usage_eq⟩

/-- Reading the clock keeps the cache.
Source: none
Kind: L -/
theorem World.kept_tick (w : World S) : w.Kept w.tick := ⟨rfl, rfl, rfl, rfl, rfl, rfl⟩

/-- Resizing the tracker keeps the cache.
Source: `internal/cache/cache.go` `SetMaxMemory`
Kind: L -/
theorem exec_swapPolicyCounters (fuel : ℕ) (n : ℤ) :
    Ensures (exec fuel (.swapPolicyCounters n) w) fun r => w.Kept r.2 :=
  ⟨rfl, rfl, rfl, rfl, rfl, rfl⟩

/-- Whether an entry is dead is judged at the next reading of the clock.
Source: `internal/cache/cache.go` `expired`
Kind: L -/
theorem expired_kept (fuel : ℕ) (e : Entry) :
    Ensures ((Cache.expired e).run (exec fuel) w) fun r =>
      r.1 = e.deadAt w.env.clock.head ∧ w.Kept r.2 := by
  rw [run_expired]
  refine ⟨rfl, ?_⟩
  by_cases hz : e.expiresAt = zeroTime
  · rw [if_pos hz]
    exact .rfl' w
  · rw [if_neg hz]
    exact w.kept_tick

end CacheMoney.Engine
