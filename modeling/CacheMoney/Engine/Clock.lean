import CacheMoney.Engine.Refusal
import CacheMoney.Engine.Rounds
import CacheMoney.Shardmap.Clock

/-!
# The fuel clock of the cache

The calls of the cache converge: with enough fuel they return, and what they return does not depend
on how much there is. Only `Set` asks for something, that the hash tells the stored keys apart.

* `Tame keys w`: all stored keys are among `keys`, which the hash tells apart.
* `get_converges`, `ttl_converges`, `del_converges`, `set_converges`, `setMaxMemory_converges`,
  `setEvictionPolicy_converges`: each call returns, and leaves the world tame.
-/

set_option linter.unusedSectionVars false

namespace CacheMoney.Engine

open CacheMoney.Found CacheMoney.Shardmap

variable {S : Type} {w w' : World S} {f : FinMap Bytes Entry} {keys : Set Bytes}

/-! ### More fuel -/

/-- An action run with more fuel answers the same.
Source: `internal/cache/cache.go` `Cache`
Kind: L -/
theorem exec_grows (a : Action) (w : World S) : Grows fun fuel => exec fuel a w := by
  intro fuel
  cases a with
  | get key => exact (w.cache.m.get_grows key fuel).bind fun _ => Approx.refl _
  | swap key e => exact (w.cache.m.swap_grows key e fuel).bind fun _ => Approx.refl _
  | delete key => exact (w.cache.m.delete_grows key fuel).bind fun _ => Approx.refl _
  | sample n => exact (w.cache.m.sample_grows n _ fuel).bind fun _ => Approx.refl _
  | _ => exact Approx.refl _

/-- A text without a clock of its own.
Source: none
Kind: L -/
theorem run_grows {α : Type} (p : CacheM α) (w : World S) : Grows fun fuel => p.run (exec fuel) w :=
  fun fuel => Prog.approx_run (fun a w => exec_grows a w fuel) p w

/-- A program without loops of its own runs the same with more fuel.
Source: none
Kind: L -/
theorem approx_same {α : Type} (fuel : ℕ) (p : CacheM α) :
    p.Approx (exec (S := S) fuel) (exec (fuel + 1)) p := fun w => run_grows p w fuel

/-- The rounds of an eviction run the same with more fuel.
Source: `internal/cache/evict.go` `evictUntilUnder`
Kind: L -/
theorem evictLoop_grows (fuel : ℕ) (ceiling : ℤ) (pol : EvictionPolicy) (exclude : Bytes)
    (hasExclude : Bool) (rounds : ℕ) : ∀ misses,
      (Cache.evictLoop ceiling pol exclude hasExclude rounds misses).Approx (exec (S := S) fuel)
        (exec (fuel + 1)) (Cache.evictLoop ceiling pol exclude hasExclude (rounds + 1) misses) := by
  induction rounds with
  | zero => exact fun misses => Prog.approx_stop _
  | succ rounds ih =>
      intro misses
      rw [Cache.evictLoop, Cache.evictLoop]
      refine (approx_same fuel _).bind fun usage => Prog.Approx.ite ?_ (approx_same fuel _)
      refine (approx_same fuel _).bind fun cands => (approx_same fuel _).bind fun victim => ?_
      cases victim with
      | none => exact Prog.Approx.ite (approx_same fuel _) (ih _)
      | some victim =>
          exact (approx_same fuel _).bind fun e => (approx_same fuel _).bind fun _ => ih _

/-- An eviction that returned returns the same with more fuel.
Source: `internal/cache/cache.go` `Set`, `SetMaxMemory`
Kind: L -/
theorem evictIfOver_grows (ceiling : ℤ) (pol : EvictionPolicy) (exclude : Bytes)
    (hasExclude : Bool) (w : World S) :
    Grows fun fuel => (Cache.evictIfOver fuel ceiling pol exclude hasExclude).run (exec fuel) w := by
  intro fuel
  refine Prog.Approx.ite ?_ (approx_same fuel _) w
  refine (approx_same fuel _).bind fun usage => Prog.Approx.ite ?_ (approx_same fuel _)
  exact evictLoop_grows fuel ceiling pol exclude hasExclude fuel 0

/-! ### Enough fuel -/

/-- The eviction at the end of a call returns, over any cache that holds a finite map.
Source: `internal/cache/cache.go` `Set`, `SetMaxMemory`
Kind: L -/
theorem Cache.Holds.evictIfOver_converges (h : w.cache.Holds f) (ceiling : ℤ) (pol : EvictionPolicy)
    (exclude : Bytes) (hasExclude : Bool) :
    Converges (fun fuel => (Cache.evictIfOver fuel ceiling pol exclude hasExclude).run (exec fuel) w)
      fun _ => True := by
  obtain ⟨c, hc⟩ := w.cache.m.exists_within
  apply (evictIfOver_grows ceiling pol exclude hasExclude w).converges
    (n := max (2 * (c + 4) + 256) (w.cache.m.len + (Cache.maxEvictMisses + 1)))
  unfold Cache.evictIfOver
  by_cases hon : 0 < ceiling ∧ pol ≠ .noEviction
  · rw [if_pos hon, Prog.run_bind, ask, Prog.run_perform]
    change Returns ((if ceiling < w.cache.usage then _ else _ : CacheM Unit).run _ w) _
    by_cases hover : ceiling < w.cache.usage
    · rw [if_pos hover]
      obtain ⟨rs, w', hrun, -⟩ : ∃ rs w', (Cache.evictUntilUnder _ ceiling pol exclude
          hasExclude).run (exec _) w = .ok ((), w') ∧ _ :=
        h.evict_returns hc (le_max_left _ _) (le_max_right _ _)
      exact ⟨_, hrun, trivial⟩
    · rw [if_neg hover]
      exact ⟨_, rfl, trivial⟩
  · rw [if_neg hon]
    exact ⟨_, rfl, trivial⟩

/-- All stored keys are among `keys`, which the hash tells apart.
Source: `internal/shardmap/map.go` `Map`
Kind: D -/
structure Tame (keys : Set Bytes) (w : World S) : Prop where
  holds : ∃ f, w.cache.Holds f ∧ ∀ k ∈ f, k ∈ keys
  injOn : Set.InjOn w.cache.m.hash keys

/-- In a tame world the hashes of the stored keys are distinct.
Source: `internal/shardmap/map.go` `Map`
Kind: L -/
theorem Tame.distinct (h : Tame keys w) : w.cache.Distinct := by
  obtain ⟨f, hf, hsub⟩ := h.holds
  have hmem : ∀ a ∈ w.cache.m.contents, a.1 ∈ keys := by
    intro a ha
    rw [hf.represents.contents_eq, mem_pairs] at ha
    exact hsub _ (Finmap.mem_of_lookup_eq_some ha)
  exact fun a ha b hb heq => h.injOn (hmem a ha) (hmem b hb) heq

/-- A new cache is tame.
Source: `internal/shardmap/map.go` `Map`
Kind: L -/
theorem tame_new (host : Host S) (hasher : S → Bytes → UInt64) (opts : List (CacheOpt S))
    (hhost : host.gomaxprocs * 4 ≤ 2 ^ 62)
    (hopts : ∀ n, CacheOpt.withShards n ∈ opts → n ≤ 2 ^ 62) (env : Env)
    (hinj : Set.InjOn (Cache.new host hasher opts).m.hash keys) :
    Tame keys ⟨Cache.new host hasher opts, env⟩ :=
  ⟨⟨∅, holds_new host hasher opts hhost hopts, fun _ hk => absurd hk Finmap.notMem_empty⟩, hinj⟩

/-- The actions do not touch the hasher and its seed.
Source: `internal/shardmap/map.go` `Map`
Kind: L -/
theorem exec_hash {fuel : ℕ} {a : Action} {r : a.Answer × World S} (h : exec fuel a w = .ok r) :
    r.2.cache.m.hash = w.cache.m.hash := by
  cases a with
  | get key =>
      obtain ⟨e, -, hr⟩ := bind_eq_ok_iff.mp h
      cases hr
      rfl
  | swap key e =>
      obtain ⟨x, hswap, hr⟩ := bind_eq_ok_iff.mp h
      cases hr
      exact Map.swap_hash hswap
  | delete key =>
      obtain ⟨x, hdelete, hr⟩ := bind_eq_ok_iff.mp h
      cases hr
      exact Map.delete_hash hdelete
  | sample n =>
      obtain ⟨x, -, hr⟩ := bind_eq_ok_iff.mp h
      cases hr
      rfl
  | range =>
      obtain ⟨l, -, hr⟩ := bind_eq_ok_iff.mp h
      cases hr
      rfl
  | _ =>
      cases h
      rfl

/-- A call keeps the world tame if it stores no key outside `keys`.
Source: none
Kind: L -/
theorem Tame.run {α : Type} {fuel : ℕ} {p : CacheM α} {r : α × World S} (h : Tame keys w)
    (hrun : p.run (exec fuel) w = .ok r) (hholds : ∃ f, r.2.cache.Holds f ∧ ∀ k ∈ f, k ∈ keys) :
    Tame keys r.2 := by
  have hstep : ∀ a, True → ∀ (w₁ : World S) (x : a.Answer) (w₂ : World S),
      w₁.cache.m.hash = w.cache.m.hash → exec fuel a w₁ = .ok (x, w₂) →
        w₂.cache.m.hash = w.cache.m.hash :=
    fun a _ w₁ x w₂ hw₁ hexec => (exec_hash hexec).trans hw₁
  refine ⟨hholds, ?_⟩
  rw [(Prog.Asks.of_forall fun _ => trivial).run hstep rfl hrun]
  exact h.injOn

/-! ### The calls -/

/-- `Get` returns with enough fuel, and keeps the world tame.
Source: `internal/cache/cache.go` `Get`
Kind: P -/
theorem get_converges (h : Tame keys w) (key : Bytes) :
    Converges (fun fuel => (Cache.get none key).run (exec fuel) w) fun r => Tame keys r.2 := by
  obtain ⟨f, hf, hsub⟩ := h.holds
  have hret := (run_grows _ w).converges (get_returns hf le_rfl key)
  refine (hret.and fun fuel r hr => ?_).mono fun r hr => hr.2
  exact h.run hr ⟨f, ((get_spec hf key).of_ok hr).2.holds hf, hsub⟩

/-- `TTL` returns with enough fuel, and keeps the world tame.
Source: `internal/cache/cache.go` `TTL`
Kind: P -/
theorem ttl_converges (h : Tame keys w) (key : Bytes) :
    Converges (fun fuel => (Cache.ttl none key).run (exec fuel) w) fun r => Tame keys r.2 := by
  obtain ⟨f, hf, hsub⟩ := h.holds
  have hret := (run_grows _ w).converges (ttl_returns hf le_rfl key)
  refine (hret.and fun fuel r hr => ?_).mono fun r hr => hr.2
  exact h.run hr ⟨f, ((ttl_spec hf key).of_ok hr).2.holds hf, hsub⟩

/-- `Del` returns with enough fuel, and keeps the world tame.
Source: `internal/cache/cache.go` `Del`
Kind: P -/
theorem del_converges (h : Tame keys w) (key : Bytes) :
    Converges (fun fuel => (Cache.del none key).run (exec fuel) w) fun r => Tame keys r.2 := by
  obtain ⟨f, hf, hsub⟩ := h.holds
  obtain ⟨c, hc⟩ := w.cache.m.exists_within
  have hret := (run_grows _ w).converges (del_returns hf hc le_rfl key)
  refine (hret.and fun fuel r hr => ?_).mono fun r hr => hr.2
  refine h.run hr ⟨f.erase key, ((del_spec hf key).of_ok hr).2.1, fun k hk => ?_⟩
  exact hsub k (Finmap.mem_erase.mp hk).2

/-- The removal of some keys stores no other.
Source: none
Kind: L -/
theorem mem_of_trimmed {f f' : FinMap Bytes Entry} {R : Finset Bytes}
    (htrim : ∀ k, f'.lookup k = if k ∈ R then none else f.lookup k) {k : Bytes} (hk : k ∈ f') :
    k ∈ f := by
  obtain ⟨e, he⟩ := Finmap.mem_iff.mp hk
  rw [htrim] at he
  split_ifs at he
  exact Finmap.mem_of_lookup_eq_some he

/-- `Set` of a tame key returns with enough fuel, and keeps the world tame.
Source: `internal/cache/cache.go` `Set`
Kind: P -/
theorem set_converges (h : Tame keys w) {key : Bytes} (hkey : key ∈ keys) (value : Bytes)
    (ttl : ℤ) :
    Converges (fun fuel => (Cache.set fuel none key value ttl).run (exec fuel) w) fun r =>
      Tame keys r.2 := by
  obtain ⟨f, hf, hsub⟩ := h.holds
  suffices hret : Converges (fun fuel => (Cache.set fuel none key value ttl).run (exec fuel) w)
      fun _ => True by
    refine (hret.and fun fuel r hr => h.run hr ?_).mono fun r hr => hr.2
    refine ((set_spec hf fuel key value ttl).mono
      (R := fun x => ∃ f', x.2.cache.Holds f' ∧ ∀ k ∈ f', k ∈ keys) ?_).of_ok hr
    rintro x (⟨-, hkept, -⟩ | ⟨-, -, f', hw⟩)
    · exact ⟨f, hkept.holds hf, hsub⟩
    · obtain ⟨R, -, htrim⟩ := hw.trimmed
      refine ⟨f', hw.holds, fun k hk => ?_⟩
      rcases Finmap.mem_insert.mp (mem_of_trimmed htrim hk) with rfl | hk
      · exact hkey
      · exact hsub k hk
  simp only [run_set]
  have hcache := cache_after_expiry (w := w) ttl
  generalize (if 0 < ttl then w.tick else w) = w₁ at hcache
  have hf₁ : w₁.cache.Holds f := hcache ▸ hf
  have hrejects : Converges (fun fuel => (Cache.rejects w.cache.maxmemory w.cache.evictPol key
      (costOf key value)).run (exec fuel) w₁) fun r => r.2 = w₁ := by
    obtain ⟨oom, hrun, -⟩ := rejects_returns hf₁ (le_refl 256) w.cache.maxmemory
      w.cache.evictPol key value
    exact (run_grows _ w₁).converges ⟨(oom, w₁), hrun, rfl⟩
  refine Prog.converges_bind hrejects fun oom w₂ hw₂ => ?_
  simp only at hw₂
  subst hw₂
  cases oom with
  | true => exact converges_ok trivial
  | false =>
      simp only [Bool.false_eq_true, if_false]
      obtain ⟨fuel₀, hswap⟩ := exec_swap_returns hf₁ (hcache ▸ h.distinct) key
        ⟨value, expiryAt w.env.clock.head ttl⟩
      obtain ⟨x, hx⟩ := hswap fuel₀ le_rfl
      refine Prog.converges_perform_bind (Q := fun r => r.1 = f.lookup key ∧
        ∃ m, m.Represents (f.insert key ⟨value, expiryAt w.env.clock.head ttl⟩) ∧
          r.2 = { w₂ with cache := { w₂.cache with m := m } }) ?_ ?_
      · obtain ⟨hold, m, -, hm, hw⟩ := (exec_swap hf₁.represents fuel₀ key _).of_ok hx
        exact (exec_grows _ _).converges ⟨x, hx, hold, m, hm, hw⟩
      rintro old w₃ ⟨hold, m, hm, hw₃⟩
      simp only at hold hw₃
      subst hold hw₃
      have husage : w₂.cache.usage + (costOf key value - Cache.foundCost key (f.lookup key)) =
          total (f.insert key ⟨value, expiryAt w.env.clock.head ttl⟩) := by
        rw [total_insert, hf₁.usage_eq]
      refine Prog.converges_perform_bind (Q := fun r => r.2.cache.Holds
        (f.insert key ⟨value, expiryAt w.env.clock.head ttl⟩)) (converges_ok ⟨hm, husage⟩) ?_
      intro _ w₄ hf₄
      refine Prog.converges_bind (hf₄.evictIfOver_converges _ _ _ _) ?_
      exact fun _ w₅ _ => converges_ok trivial

/-- `SetMaxMemory` returns with enough fuel, and keeps the world tame.
Source: `internal/cache/cache.go` `SetMaxMemory`
Kind: P -/
theorem setMaxMemory_converges (h : Tame keys w) (bytes : ℤ) :
    Converges (fun fuel => (Cache.setMaxMemory fuel bytes).run (exec fuel) w) fun r =>
      Tame keys r.2 := by
  obtain ⟨f, hf, hsub⟩ := h.holds
  suffices hret : Converges (fun fuel => (Cache.setMaxMemory fuel bytes).run (exec fuel) w)
      fun _ => True by
    refine (hret.and fun fuel r hr => h.run hr ?_).mono fun r hr => hr.2
    refine ((setMaxMemory_spec hf fuel bytes).mono
      (R := fun x => ∃ f', x.2.cache.Holds f' ∧ ∀ k ∈ f', k ∈ keys) ?_).of_ok hr
    rintro x ⟨f', hret⟩
    obtain ⟨R, htrim⟩ := hret.trimmed
    exact ⟨f', hret.holds, fun k hk => hsub k (mem_of_trimmed htrim hk)⟩
  refine Prog.converges_perform_bind (Q := fun r => r.2.cache.Holds f)
    (converges_ok ⟨hf.represents, hf.usage_eq⟩) fun _ w₁ hf₁ => ?_
  refine Prog.converges_perform_bind (Q := fun r => r.2.cache.Holds f) (converges_ok hf₁)
    fun mm w₂ hf₂ => ?_
  refine Prog.converges_perform_bind (Q := fun r => r.2.cache.Holds f)
    (converges_ok ⟨hf₂.represents, hf₂.usage_eq⟩) fun old w₃ hf₃ => ?_
  refine Prog.converges_bind (p := fun _ => Cache.resizePolicy (countersFor mm) old)
    (Q := fun r => r.2.cache.Holds f) ((run_grows _ w₃).converges (n := 0) ?_) fun _ w₄ hf₄ => ?_
  · exact (resizePolicy_returns (countersFor mm) old).mono fun r hk => hk.holds hf₃
  refine Prog.converges_bind (p := fun _ => Cache.refreshActive)
    (Q := fun r => r.2.cache.Holds f) ((run_grows _ w₄).converges (n := 0) ?_) fun _ w₅ hf₅ => ?_
  · exact refreshActive_returns.mono fun r hk => hk.holds hf₄
  unfold Cache.evictDown
  split_ifs
  · exact Prog.converges_perform_bind (Q := fun r => r.2.cache.Holds f) (converges_ok hf₅)
      fun pol w₆ hf₆ => hf₆.evictIfOver_converges _ _ _ _
  · exact converges_ok trivial

/-- `SetEvictionPolicy` returns, and keeps the world tame.
Source: `internal/cache/cache.go` `SetEvictionPolicy`
Kind: P -/
theorem setEvictionPolicy_converges (h : Tame keys w) (p : EvictionPolicy) :
    Converges (fun fuel => (Cache.setEvictionPolicy p).run (exec fuel) w) fun r =>
      Tame keys r.2 := by
  obtain ⟨f, hf, hsub⟩ := h.holds
  have hf₁ : Cache.Holds { w.cache with evictPol := p } f := ⟨hf.represents, hf.usage_eq⟩
  have hret : Returns ((Cache.setEvictionPolicy p).run (exec 0) w) fun r => r.2.cache.Holds f :=
    (refreshActive_returns (w := { w with cache := { w.cache with evictPol := p } })).mono
      fun r hk => hk.holds hf₁
  refine ((run_grows _ w).converges hret |>.and fun fuel r hr => h.run hr ?_).mono fun r hr => hr.2
  exact ⟨f, ((setEvictionPolicy_spec hf p).of_ok hr).1, hsub⟩

end CacheMoney.Engine
