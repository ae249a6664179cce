import CacheMoney.Engine.Accounting
import CacheMoney.Engine.Lifetime
import CacheMoney.Shardmap.Termination

/-!
# Writes refused for memory

Under `noeviction` a `Set` is decided by the byte counter and by the entry it finds under its key.
Between calls the counter is the accounted cost of the stored entries, so the decision can be
stated with that cost alone.

* `Cache.Refuses`: the write enlarges the stored cost, and past the ceiling.
* `set_returns_of_rejected`, `set_returns_quiet`: `Set` returns, when it is rejected and when it
  cannot evict.
* `refuses_growing_writes`: after every run, `Set` fails exactly for the writes that are refused,
  and a refused one changes nothing.
-/

set_option linter.unusedSectionVars false

namespace CacheMoney.Engine

open CacheMoney.Found CacheMoney.Shardmap

variable {S : Type} {w : World S} {f : FinMap Bytes Entry} {fuel : ℕ}

/-! ### The decision -/

/-- The accounted cost of the stored entries with `value` under `key`; the expiry has no cost.
Source: `internal/cache/cost.go` `costOf`
Kind: D -/
def costWith (c : Cache S) (key value : Bytes) : ℤ :=
  ((upsert key ⟨value, zeroTime⟩ c.m.contents).map fun e => costOf e.1 e.2.value).sum

/-- The write would enlarge the stored cost, and past the ceiling.
Source: `internal/cache/policy.go` `ErrOOM`
Kind: D -/
def Cache.Refuses (c : Cache S) (key value : Bytes) : Prop :=
  storedCost c < costWith c key value ∧ c.maxmemory < costWith c key value

instance (c : Cache S) (key value : Bytes) : Decidable (c.Refuses key value) :=
  inferInstanceAs (Decidable (_ ∧ _))

/-- The cost after a store is the weight of the map with the entry in it.
Source: `internal/cache/policy.go` `ErrOOM`
Kind: L -/
theorem costWith_eq {c : Cache S} (h : c.m.Represents f) (key value : Bytes) :
    costWith c key value = total f + (costOf key value - Cache.foundCost key (f.lookup key)) := by
  have hinsert := total_insert f key ⟨value, zeroTime⟩
  rw [← hinsert, costWith, h.contents_eq, ← pairs_insert]
  rfl

/-- The guard decides on the counter what `Refuses` says of the entries.
Source: `internal/cache/cache.go` `Set`
Kind: L -/
theorem Cache.Holds.refuses_iff {c : Cache S} (h : c.Holds f) (key value : Bytes) :
    c.Refuses key value ↔ Overflows c.maxmemory c.usage key value (f.lookup key) := by
  unfold Cache.Refuses Overflows
  rw [costWith_eq h.represents, storedCost_eq h.represents, h.usage_eq, lt_add_iff_pos_right]

/-- Rewriting a stored entry with one that costs no more is not refused.
Source: `internal/cache/tunable_test.go` `TestNoEvictionRejectsAndAllowsShrink`
Kind: L -/
theorem Cache.Holds.not_refuses {c : Cache S} (h : c.Holds f) {key value : Bytes} {e : Entry}
    (hmem : (key, e) ∈ c.m.contents) (hcost : costOf key value ≤ costOf key e.value) :
    ¬c.Refuses key value := by
  rw [h.represents.contents_eq, mem_pairs] at hmem
  rw [h.refuses_iff, hmem]
  rintro ⟨hgrow, -⟩
  exact absurd hgrow (not_lt.mpr (sub_nonpos.mpr hcost))

/-! ### `Set` returns -/

/-- A deadline is computed with one reading of the clock, if there is a lifetime.
Source: `internal/cache/cache.go` `Set`
Kind: L -/
theorem run_expiry (ttl : ℤ) :
    (Cache.expiry ttl).run (exec fuel) w =
      .ok (expiryAt w.env.clock.head ttl, if 0 < ttl then w.tick else w) := by
  unfold Cache.expiry expiryAt
  by_cases hpos : 0 < ttl
  · rw [if_pos hpos, if_pos hpos, if_pos hpos]
    rfl
  · rw [if_neg hpos, if_neg hpos, if_neg hpos]
    rfl

/-- `Set` from its guard on.
Source: `internal/cache/cache.go` `Set`
Kind: L -/
theorem run_set (rounds : ℕ) (key value : Bytes) (ttl : ℤ) :
    (Cache.set rounds none key value ttl).run (exec fuel) w =
      (Cache.rejects w.cache.maxmemory w.cache.evictPol key (costOf key value) >>= fun oom =>
        if oom then pure (.error .oom) else do
          let old ← ask (.swap key ⟨value, expiryAt w.env.clock.head ttl⟩)
          ask (.addUsage (costOf key value - Cache.foundCost key old))
          Cache.evictIfOver rounds w.cache.maxmemory w.cache.evictPol key true
          pure (.ok ())).run (exec fuel) (if 0 < ttl then w.tick else w) := by
  unfold Cache.set
  rw [Prog.run_bind, run_expiry, ok_bind]
  by_cases hpos : 0 < ttl
  · rw [if_pos hpos]
    rfl
  · rw [if_neg hpos]
    rfl

/-- A call of `Set` runs its program.
Source: `internal/cache/cache.go` `Set`
Kind: L -/
theorem call_set (ctx : Ctx) (key value : Bytes) (ttl : ℤ) :
    call fuel w (.set ctx key value ttl) = (Cache.set fuel ctx key value ttl).run (exec fuel) w >>=
      fun r => .ok (.stored r.1, r.2) :=
  Prog.run_bind _ _ _

/-- The world in which the guard of `Set` is evaluated.
Source: none
Kind: L -/
theorem cache_after_expiry (ttl : ℤ) : (if 0 < ttl then w.tick else w).cache = w.cache := by
  split_ifs
  · rfl
  · rfl

/-- The guard returns what it decides.
Source: `internal/cache/cache.go` `Set`
Kind: L -/
theorem rejects_returns (h : w.cache.Holds f) (hfuel : 256 ≤ fuel) (ceiling : ℤ)
    (pol : EvictionPolicy) (key value : Bytes) :
    ∃ oom, (Cache.rejects ceiling pol key (costOf key value)).run (exec fuel) w = .ok (oom, w) ∧
      (oom = true ↔ (0 < ceiling ∧ pol = .noEviction) ∧
        Overflows ceiling w.cache.usage key value (f.lookup key)) := by
  have hret : Returns ((Cache.rejects ceiling pol key (costOf key value)).run (exec fuel) w)
      fun _ => True := by
    unfold Cache.rejects ask
    by_cases hguard : 0 < ceiling ∧ pol = .noEviction
    · rw [if_pos hguard, Prog.run_bind, Prog.run_perform, exec_get_returns h hfuel, ok_bind]
      by_cases hgrow : 0 < costOf key value - Cache.foundCost key (f.lookup key)
      · rw [if_pos hgrow]
        exact ⟨_, rfl, trivial⟩
      · rw [if_neg hgrow]
        exact ⟨_, rfl, trivial⟩
    · rw [if_neg hguard]
      exact ⟨_, rfl, trivial⟩
  have hspec : Ensures ((Cache.rejects ceiling pol key (costOf key value)).run (exec fuel) w)
      fun r => (r.1 = true ↔ (0 < ceiling ∧ pol = .noEviction) ∧
        Overflows ceiling w.cache.usage key value (f.lookup key)) ∧ r.2 = w :=
    rejects_spec h ceiling pol key value
  obtain ⟨⟨oom, _⟩, hrun, -, hoom, rfl⟩ := hret.and hspec
  exact ⟨oom, hrun, hoom⟩

/-- A rejected `Set` returns, and the cache is as before.
Source: `internal/cache/cache.go` `Set`
Kind: P -/
theorem set_returns_of_rejected (h : w.cache.Holds f) (hfuel : 256 ≤ fuel) {key value : Bytes}
    (hrej : Rejected w f key value) (rounds : ℕ) (ttl : ℤ) :
    ∃ w', (Cache.set rounds none key value ttl).run (exec fuel) w = .ok (.error .oom, w') ∧
      w'.cache = w.cache := by
  have hcache := cache_after_expiry (w := w) ttl
  refine ⟨if 0 < ttl then w.tick else w, ?_, hcache⟩
  rw [run_set]
  generalize (if 0 < ttl then w.tick else w) = w₁ at hcache
  obtain ⟨oom, hrun, hoom⟩ := rejects_returns (w := w₁) (hcache ▸ h) hfuel w.cache.maxmemory
    w.cache.evictPol key value
  rw [hcache] at hoom
  rw [Prog.run_bind, hrun, ok_bind, if_pos (hoom.mpr hrej)]
  rfl

/-- The hashes of the stored keys are distinct.
Source: `internal/shardmap/map.go` `Map`
Kind: D -/
def Cache.Distinct (c : Cache S) : Prop :=
  ∀ a ∈ c.m.contents, ∀ b ∈ c.m.contents, c.m.hash a.1 = c.m.hash b.1 → a.1 = b.1

/-- A swap returns with enough fuel if the hashes of the keys are distinct.
Source: `internal/shardmap/map.go` `Map`
Kind: L -/
theorem exec_swap_returns (h : w.cache.Holds f) (hdist : w.cache.Distinct) (key : Bytes)
    (e : Entry) :
    ∃ fuel₀, ∀ fuel, fuel₀ ≤ fuel → ∃ r, exec fuel (.swap key e) w = .ok r := by
  have hstored : ∀ a ∈ f, ∃ x, (a, x) ∈ w.cache.m.contents := by
    intro a ha
    obtain ⟨x, hx⟩ := Finmap.mem_iff.mp ha
    refine ⟨x, ?_⟩
    rw [h.represents.contents_eq]
    exact mem_pairs.mpr hx
  have hinj : ∀ a ∈ f, ∀ b ∈ f, w.cache.m.hash a = w.cache.m.hash b → a = b := by
    intro a ha b hb
    obtain ⟨x, hx⟩ := hstored a ha
    obtain ⟨y, hy⟩ := hstored b hb
    exact hdist _ hx _ hy
  obtain ⟨fuel₀, hswap⟩ := h.represents.swap_returns hinj key e
  refine ⟨fuel₀, fun fuel hfuel => ?_⟩
  obtain ⟨r, hr, -⟩ := hswap fuel hfuel
  refine ⟨(r.1, { w with cache := { w.cache with m := r.2 } }), ?_⟩
  change (w.cache.m.swap fuel key e >>= fun r => _) = _
  rw [hr]
  rfl

/-- A `Set` that cannot evict returns, if the hashes of the stored keys are distinct.
Source: `internal/cache/cache.go` `Set`
Kind: P -/
theorem set_returns_quiet (h : w.cache.Holds f) (hdist : w.cache.Distinct)
    (hquiet : w.cache.maxmemory ≤ 0 ∨ w.cache.evictPol = .noEviction) (key value : Bytes)
    (ttl : ℤ) :
    ∃ fuel₀, ∀ fuel rounds, fuel₀ ≤ fuel →
      ∃ r, (Cache.set rounds none key value ttl).run (exec fuel) w = .ok r := by
  have hcache := cache_after_expiry (w := w) ttl
  obtain ⟨fuel₀, hswap⟩ := exec_swap_returns (w := if 0 < ttl then w.tick else w)
    (hcache ▸ h) (hcache ▸ hdist) key ⟨value, expiryAt w.env.clock.head ttl⟩
  refine ⟨max 256 fuel₀, fun fuel rounds hfuel => ?_⟩
  obtain ⟨⟨old, w₂⟩, hold⟩ := hswap fuel ((le_max_right _ _).trans hfuel)
  rw [run_set]
  generalize (if 0 < ttl then w.tick else w) = w₁ at hcache hold
  obtain ⟨oom, hrun, -⟩ := rejects_returns (w := w₁) (hcache ▸ h) ((le_max_left _ _).trans hfuel)
    w.cache.maxmemory w.cache.evictPol key value
  have hoff : ¬(0 < w.cache.maxmemory ∧ w.cache.evictPol ≠ .noEviction) := by
    rintro ⟨hpos, hpol⟩
    rcases hquiet with hle | heq
    · exact absurd hpos (not_lt.mpr hle)
    · exact hpol heq
  rw [Prog.run_bind, hrun, ok_bind]
  cases oom with
  | true => exact ⟨_, rfl⟩
  | false =>
      unfold Cache.evictIfOver ask
      rw [if_neg (by simp), Prog.run_bind, Prog.run_perform, hold, ok_bind, Prog.run_bind,
        if_neg hoff]
      exact ⟨_, rfl⟩

/-! ### Growth -/

/-- Under `noeviction` a call that adds to the stored cost is a `Set` that fits.
Source: `internal/cache/cache.go` `Cache`
Kind: L -/
theorem Effect.total_le {c : Call} {out : Reply} {f' : FinMap Bytes Entry}
    (heffect : Effect w f c out f') (h : w.cache.Holds f) (hpos : 0 < w.cache.maxmemory)
    (hpol : w.cache.evictPol = .noEviction) (hgrow : total f < total f') :
    total f' ≤ w.cache.maxmemory := by
  cases heffect with
  | kept out hc => exact absurd hgrow (lt_irrefl _)
  | rejected ttl hrej => exact absurd hgrow (lt_irrefl _)
  | @stored key value ttl _ hrej htrim hquiet =>
      obtain rfl := hquiet (Or.inr hpol)
      rw [total_insert] at hgrow ⊢
      by_contra hover
      refine hrej ⟨⟨hpos, hpol⟩, (lt_add_iff_pos_right _).mp hgrow, ?_⟩
      rw [h.usage_eq]
      exact not_le.mp hover
  | deleted key out =>
      rw [total_erase] at hgrow
      have hnonneg := foundCost_nonneg key (f.lookup key)
      omega
  | retuned htrim hquiet =>
      obtain rfl := hquiet (Or.inr hpol)
      exact absurd hgrow (lt_irrefl _)

/-- What `Set` replies under `noeviction`.
Source: `internal/cache/cache.go` `Set`
Kind: L -/
theorem Cache.Holds.set_reply (h : w.cache.Holds f) (hpos : 0 < w.cache.maxmemory)
    (hpol : w.cache.evictPol = .noEviction) (key value : Bytes) (ttl : ℤ) :
    Ensures (Engine.call fuel w (.set none key value ttl)) fun r =>
      r.1 = .stored (if w.cache.Refuses key value then .error .oom else .ok ()) := by
  refine (h.call_effect _).mono ?_
  rintro ⟨out, w'⟩ ⟨f', -, -, -, heffect⟩
  cases heffect with
  | kept out hc => exact absurd rfl hc
  | rejected ttl hrej => rw [if_pos ((h.refuses_iff key value).mpr hrej.2)]
  | stored hrej htrim hquiet =>
      rw [if_neg fun href => hrej ⟨⟨hpos, hpol⟩, (h.refuses_iff key value).mp href⟩]

/-! ### The main result -/

/-- **Refusals.** After every run, whatever the ceilings and policies were on the way, if the policy
is `noeviction` and the ceiling is positive: `Set` with a live context fails with `ErrOOM` exactly
for the writes that would enlarge the stored cost past the ceiling, and otherwise succeeds; a
refused `Set` returns and leaves the whole cache as it was, any other returns as well if the hashes
of the stored keys are distinct; a call that adds to the stored cost leaves it at or below the
ceiling; and rewriting an entry with one that costs no more succeeds.
Source: `internal/cache/cache.go` `Set`
Kind: P
Fidelity: exact -/
theorem refuses_growing_writes (host : Host S) (hasher : S → Bytes → UInt64)
    (opts : List (CacheOpt S)) (hhost : host.gomaxprocs * 4 ≤ 2 ^ 62)
    (hopts : ∀ n, CacheOpt.withShards n ∈ opts → n ≤ 2 ^ 62) (env : Env) (turns : List Turn)
    (fuel : ℕ) :
    Ensures (run fuel ⟨Cache.new host hasher opts, env⟩ turns) fun x =>
      x.2.cache.evictPol = .noEviction → 0 < x.2.cache.maxmemory → ∀ now : Env,
        (∀ fuel k v ttl, Ensures (call fuel ⟨x.2.cache, now⟩ (.set none k v ttl)) fun r =>
          r.1 = .stored (if x.2.cache.Refuses k v then .error .oom else .ok ())) ∧
        (∀ fuel ≥ 256, ∀ k v ttl, x.2.cache.Refuses k v →
          ∃ w', call fuel ⟨x.2.cache, now⟩ (.set none k v ttl) =
            .ok (.stored (.error .oom), w') ∧ w'.cache = x.2.cache) ∧
        (x.2.cache.Distinct → ∀ k v ttl, ∃ fuel₀, ∀ fuel ≥ fuel₀,
          ∃ r, call fuel ⟨x.2.cache, now⟩ (.set none k v ttl) = .ok r) ∧
        (∀ fuel c, Ensures (call fuel ⟨x.2.cache, now⟩ c) fun r =>
          storedCost x.2.cache < storedCost r.2.cache →
            storedCost r.2.cache ≤ x.2.cache.maxmemory) ∧
        ∀ fuel k e v ttl, (k, e) ∈ x.2.cache.m.contents → costOf k v ≤ costOf k e.value →
          Ensures (call fuel ⟨x.2.cache, now⟩ (.set none k v ttl)) fun r =>
            r.1 = .stored (.ok ()) := by
  refine (Cache.Holds.run turns (w := ⟨Cache.new host hasher opts, env⟩)
    (holds_new host hasher opts hhost hopts)).mono ?_
  rintro ⟨hist, w⟩ ⟨f, hf⟩ hpol hpos now
  have hf' : (⟨w.cache, now⟩ : World S).cache.Holds f := hf
  refine ⟨fun fuel k v ttl => hf'.set_reply hpos hpol k v ttl, fun fuel hfuel k v ttl href => ?_,
    fun hdist k v ttl => ?_, fun fuel c => ?_, fun fuel k e v ttl hmem hcost => ?_⟩
  · obtain ⟨w', hw', hcache⟩ := set_returns_of_rejected hf' hfuel
      ⟨⟨hpos, hpol⟩, (hf.refuses_iff k v).mp href⟩ fuel ttl
    refine ⟨w', ?_, hcache⟩
    rw [call_set, hw', ok_bind]
  · obtain ⟨fuel₀, hset⟩ := set_returns_quiet hf' hdist (Or.inr hpol) k v ttl
    refine ⟨fuel₀, fun fuel hfuel => ?_⟩
    obtain ⟨r, hr⟩ := hset fuel fuel hfuel
    exact ⟨_, by rw [call_set, hr, ok_bind]⟩
  · refine (hf'.call_effect c).mono ?_
    rintro ⟨out, w'⟩ ⟨f', hf'', -, -, heffect⟩ hgrow
    rw [storedCost_eq hf.represents, storedCost_eq hf''.represents] at hgrow
    rw [storedCost_eq hf''.represents]
    exact heffect.total_le hf' hpos hpol hgrow
  · refine (hf'.set_reply hpos hpol k v ttl).mono fun r hr => ?_
    rw [hr, if_neg (hf.not_refuses hmem hcost)]

/-- The ceiling is set below the one stored entry: another key is refused, a shorter value is not.
Source: `internal/cache/tunable_test.go` `TestNoEvictionRejectsAndAllowsShrink`
Kind: C -/
theorem refuses_growing_writes_shrink :
    ∃ x, run 9 ⟨Cache.new ⟨1, ()⟩ (fun _ _ => 0) [.withShards 1, .withEvictionPolicy .noEviction],
        stillEnv 0⟩ [⟨.set none [97] [1, 2] 0, stillEnv 0⟩, ⟨.setMaxMemory 1, stillEnv 0⟩] = .ok x ∧
      x.2.cache.maxmemory < x.2.cache.usage ∧
      (∃ w', call 256 ⟨x.2.cache, stillEnv 0⟩ (.set none [98] [3] 0) =
        .ok (.stored (.error .oom), w') ∧ w'.cache = x.2.cache) ∧
      Ensures (call 256 ⟨x.2.cache, stillEnv 0⟩ (.set none [97] [3] 0)) fun r =>
        r.1 = .stored (.ok ()) := by
  have hrun : ∃ x, run 9 ⟨Cache.new ⟨1, ()⟩ (fun _ _ => 0)
        [.withShards 1, .withEvictionPolicy .noEviction], stillEnv 0⟩
        [⟨.set none [97] [1, 2] 0, stillEnv 0⟩, ⟨.setMaxMemory 1, stillEnv 0⟩] = .ok x ∧
      x.2.cache.evictPol = .noEviction ∧ x.2.cache.maxmemory = 1 ∧ 1 < x.2.cache.usage ∧
      x.2.cache.m.contents = {([97], ⟨[1, 2], zeroTime⟩)} :=
    ⟨_, rfl, rfl, rfl, by decide, rfl⟩
  obtain ⟨x, hx, hpol, hmm, husage, hcont⟩ := hrun
  have hpos : 0 < x.2.cache.maxmemory := by
    rw [hmm]
    decide
  obtain ⟨-, hrefused, -, -, hshrink⟩ := (refuses_growing_writes ⟨1, ()⟩ (fun _ _ => 0)
    [.withShards 1, .withEvictionPolicy .noEviction] (by decide) (by simp) (stillEnv 0) _ 9).of_ok
    hx hpol hpos (stillEnv 0)
  refine ⟨x, hx, hmm ▸ husage, hrefused 256 le_rfl [98] [3] 0 ?_,
    hshrink 256 [97] ⟨[1, 2], zeroTime⟩ [3] 0 ?_ (by decide)⟩
  · unfold Cache.Refuses costWith storedCost
    rw [hcont, hmm]
    decide
  · rw [hcont]
    exact Multiset.mem_singleton_self _

end CacheMoney.Engine
