import CacheMoney.Engine.Reference
import CacheMoney.Shardmap.Draws

/-!
# Eviction passes, round by round

`evictUntilUnder` again: that it returns, and what its giving up says about its rounds.

* `evictRounds_returns`: a round removes one entry, or it changes nothing and adds a miss; so the
  pass returns, after at most as many rounds as there are entries and misses allowed.
* `eviction_pass_returns`: this, from every state of a sequential run.
* `gives_up_in_a_row`: the misses are counted over the whole pass, so a pass that gives up has not
  always failed `maxEvictMisses + 1` times in a row (`gives_up_early`). It has if the random source
  serves the map before the pass.
-/

set_option linter.unusedSectionVars false

namespace CacheMoney.Engine

open CacheMoney.Found CacheMoney.Shardmap

variable {S : Type} {w : World S} {f : FinMap Bytes Entry} {fuel : ℕ} {ceiling : ℤ}
  {pol : EvictionPolicy} {exclude : Bytes} {hasExclude : Bool}

/-! ### What a round does -/

/-- The round removed the entry `e` of `k`, accounted for it and counted it.
Source: `internal/cache/evict.go` `evictUntilUnder`
Kind: D -/
structure Round.Removed (exclude : Bytes) (hasExclude : Bool) (r : Round S) (k : Bytes)
    (e : Entry) : Prop where
  spared : ¬(hasExclude ∧ k = exclude)
  contents_eq : r.before.cache.m.contents = (k, e) ::ₘ r.after.cache.m.contents
  usage_eq : r.after.cache.usage = r.before.cache.usage - costOf k e.value
  evictions_eq : r.after.cache.evictions = r.before.cache.evictions + 1
  others_eq : { r.after.cache with
    m := r.before.cache.m, usage := r.before.cache.usage,
    evictions := r.before.cache.evictions } = r.before.cache

/-- A round removes one entry or changes nothing.
Source: `internal/cache/evict.go` `evictUntilUnder`
Kind: D -/
def Round.Proper (exclude : Bytes) (hasExclude : Bool) (r : Round S) : Prop :=
  (∃ k e, r.Removed exclude hasExclude k e) ∨ r.after.cache = r.before.cache

/-- A sampling of the engine returns.
Source: `internal/shardmap/sample.go` `Sample`
Kind: L -/
theorem exec_sample_returns (h : w.cache.m.Represents f) {c : ℕ} (hc : w.cache.m.Within c)
    (hfuel : c ≤ fuel) (n : ℤ) :
    Returns (exec fuel (.sample n) w) fun r => Drawn f n r.1 ∧
      r.2.cache = w.cache := by
  obtain ⟨⟨out, rand⟩, hr, hdrawn⟩ := h.sample_returns hc hfuel n w.env.rand
  refine ⟨(out, { w with env := { w.env with rand := rand } }), ?_, hdrawn, rfl⟩
  change (w.cache.m.sample fuel n w.env.rand >>= _) = _
  rw [hr]
  rfl

/-- The removal of a victim returns.
Source: `internal/cache/evict.go` `evictUntilUnder`
Kind: L -/
theorem exec_delete_returns (h : w.cache.m.Represents f) {c : ℕ} (hc : w.cache.m.Within c)
    (hfuel : 2 * (c + 4) + 256 ≤ fuel) (k : Bytes) :
    ∃ m : Map S Bytes Entry, m.Within c ∧ m.Represents (f.erase k) ∧
      exec fuel (.delete k) w = .ok (f.lookup k, { w with cache := { w.cache with m := m } }) := by
  obtain ⟨⟨old, m⟩, hr, hm, hold, hrep⟩ := h.delete_returns hc hfuel k
  simp only at hm hold hrep
  refine ⟨m, hm, hrep, ?_⟩
  change (w.cache.m.delete fuel k >>= _) = _
  rw [hr, hold]
  rfl

/-- `Del` returns, and the tables do not grow.
Source: `internal/cache/cache.go` `Del`
Kind: L -/
theorem del_returns (h : w.cache.Holds f) {c : ℕ} (hc : w.cache.m.Within c)
    (hfuel : 2 * (c + 4) + 256 ≤ fuel) (key : Bytes) :
    Returns ((Cache.del none key).run (exec fuel) w) fun r => r.2.cache.m.Within c := by
  obtain ⟨m, hm, -, hdel⟩ := exec_delete_returns h.represents hc hfuel key
  unfold Cache.del ask
  rw [Prog.run_bind, Prog.run_perform, hdel, ok_bind]
  cases f.lookup key with
  | none => exact ⟨_, rfl, hm⟩
  | some e =>
      simp only
      have husage : ∀ n, exec fuel (.addUsage n) { w with cache := { w.cache with m := m } } =
          .ok ((), { w with cache := { w.cache with m := m, usage := w.cache.usage + n } }) :=
        fun _ => rfl
      rw [Prog.run_bind, Prog.run_perform, husage, ok_bind, Prog.run_bind, run_expired, ok_bind]
      refine ⟨_, rfl, ?_⟩
      by_cases hz : e.expiresAt = zeroTime
      · rw [if_pos hz]
        exact hm
      · rw [if_neg hz]
        exact hm

/-- A round over the finite map its world holds is proper.
Source: `internal/cache/evict.go` `evictUntilUnder`
Kind: L -/
theorem Round.Taken.proper {r : Round S} (h : r.Taken fuel ceiling exclude hasExclude)
    (hf : r.before.cache.Holds f) : r.Proper exclude hasExclude := by
  rcases h.inv hf with ⟨-, hafter⟩ | ⟨-, k, e, m, hne, hlook, hrep, -, hafter⟩
  · exact Or.inr hafter
  · refine Or.inl ⟨k, e, hne, ?_, ?_, ?_, ?_⟩
    · rw [hafter, hf.represents.contents_eq, pairs_erase_of_lookup hlook, ← hrep.contents_eq]
      rfl
    · rw [hafter]
      rfl
    · rw [hafter]
      rfl
    · rw [hafter]
      rfl

/-- So is every round of a pass.
Source: `internal/cache/evict.go` `evictUntilUnder`
Kind: L -/
theorem Linked.proper (rs : List (Round S)) {w' : World S} :
    ∀ {w : World S} {f : FinMap Bytes Entry}, w.cache.Holds f → Linked w rs w' →
      (∀ r ∈ rs, r.Taken fuel ceiling exclude hasExclude) →
      ∀ r ∈ rs, r.Proper exclude hasExclude := by
  induction rs with
  | nil => exact fun _ _ _ r hr => absurd hr List.not_mem_nil
  | cons r rs ih =>
      intro w f h hlink hall x hx
      obtain ⟨rfl, hlink⟩ := hlink
      have htaken := hall r List.mem_cons_self
      obtain ⟨f₁, hev, -⟩ := htaken.evicted h
      rcases List.mem_cons.mp hx with rfl | hx
      · exact htaken.proper h
      · exact ih hev.holds hlink (fun y hy => hall y (List.mem_cons_of_mem _ hy)) x hx

variable (ceiling pol exclude hasExclude) in
/-- **A pass returns**, from any count of misses. The entries and the misses left bound its rounds.
Source: `internal/cache/evict.go` `evictUntilUnder`
Kind: P -/
theorem evictRounds_returns {c : ℕ} (hfuel : 2 * (c + 4) + 256 ≤ fuel) (rounds : ℕ) :
    ∀ (misses : ℕ) (w : World S) (f : FinMap Bytes Entry), w.cache.Holds f →
      w.cache.m.Within c → misses ≤ Cache.maxEvictMisses →
      f.keys.card + (Cache.maxEvictMisses + 1) ≤ rounds + misses →
      ∃ r, evictRounds fuel ceiling pol exclude hasExclude rounds misses w = .ok r := by
  induction rounds with
  | zero =>
      intro misses w f _ _ hm hrounds
      omega
  | succ rounds ih =>
      intro misses w f h hc hm hrounds
      unfold evictRounds
      by_cases hover : ceiling < w.cache.usage
      · rw [if_pos hover]
        obtain ⟨⟨cands, w₁⟩, hsample, hdrawn, hw₁⟩ :=
          exec_sample_returns h.represents hc (show c ≤ fuel by omega) Cache.sampleN
        obtain ⟨⟨victim, w₂⟩, hpick, hw₂, -, -, -, hsome⟩ :=
          pickVictim_returns fuel pol exclude hasExclude cands w₁
        simp only [hsample, hpick, ok_bind]
        simp only at hdrawn hw₁ hw₂ hsome
        have hsame : w₂.cache = w.cache := hw₂.trans hw₁
        cases victim with
        | none =>
            by_cases hgive : Cache.maxEvictMisses < misses + 1
            · simp only [if_pos hgive]
              exact ⟨_, rfl⟩
            · obtain ⟨r, hr⟩ := ih (misses + 1) w₂ f (hsame ▸ h) (hsame ▸ hc) (by omega)
                (by omega)
              simp only [if_neg hgive, hr, ok_bind]
              exact ⟨_, rfl⟩
        | some victim =>
            obtain ⟨⟨cand, hcand, rfl⟩, hne⟩ := hsome victim rfl
            have hlook : f.lookup cand.1 = some cand.2 := hdrawn.stored cand hcand
            obtain ⟨m, hm', hrep, hdel⟩ := exec_delete_returns (w := w₂) (f := f)
              (by rw [hsame]; exact h.represents) (by rw [hsame]; exact hc) hfuel cand.1
            have hcard := card_keys_erase (Finmap.mem_of_lookup_eq_some hlook)
            have hholds : w₂.cache.Holds f := hsame ▸ h
            obtain ⟨r, hr⟩ := ih misses _ (f.erase cand.1)
              (World.holds_without hholds hlook hrep) hm' hm (by omega)
            simp only [hdel, ok_bind, hlook, run_settleVictim, hr]
            exact ⟨_, rfl⟩
      · rw [if_neg hover]
        exact ⟨_, rfl⟩

/-- `evictUntilUnder` with its rounds, from a state that holds a finite map.
Source: `internal/cache/evict.go` `evictUntilUnder`
Kind: P -/
theorem Cache.Holds.evict_returns (h : w.cache.Holds f) {c : ℕ} (hc : w.cache.m.Within c)
    (hfuel : 2 * (c + 4) + 256 ≤ fuel) {rounds : ℕ}
    (hrounds : w.cache.m.len + (Cache.maxEvictMisses + 1) ≤ rounds) :
    ∃ rs w', (Cache.evictUntilUnder rounds ceiling pol exclude hasExclude).run (exec fuel) w =
        .ok ((), w') ∧
      evictRounds fuel ceiling pol exclude hasExclude rounds 0 w = .ok (rs, w') ∧
      Linked w rs w' ∧ (∀ r ∈ rs, r.Taken fuel ceiling exclude hasExclude) ∧
      rs.length ≤ w.cache.m.len + (Cache.maxEvictMisses + 1) ∧
      Ended ceiling w'.cache.usage (rs.countP (Round.blank exclude hasExclude)) := by
  have hlen : w.cache.m.len = f.keys.card := h.represents.len
  rw [hlen] at hrounds ⊢
  obtain ⟨⟨rs, w'⟩, hr⟩ := evictRounds_returns ceiling pol exclude hasExclude hfuel rounds 0 w f h hc
    (Nat.zero_le _) hrounds
  obtain ⟨hlink, hall, hend⟩ := (evictRounds_spec ceiling pol exclude hasExclude rounds 0 w f h
    (Nat.zero_le _)).of_ok hr
  rw [Nat.zero_add] at hend
  refine ⟨rs, w', ?_, hr, hlink, hall, ?_, hend⟩
  · rw [Cache.evictUntilUnder, run_evictLoop, hr]
    rfl
  · have hle := (Linked.evicted rs h hlink hall).2
    simp only at hend hle
    rcases hend with ⟨-, hfew⟩ | ⟨-, hmany⟩
    · omega
    · omega

/-! ### Termination -/

/-- **Every eviction pass returns.** From every state of a sequential run, for every ceiling,
policy, excluded key and stream of draws, `evictUntilUnder` returns after at most as many rounds
as there are stored entries plus 101. Each round removes one entry other than the excluded key,
takes its cost off the counter and counts one eviction, or it changes nothing.
Source: `internal/cache/evict.go` `evictUntilUnder`, `maxEvictMisses`
Kind: P
Fidelity: exact -/
theorem eviction_pass_returns (host : Host S) (hasher : S → Bytes → UInt64)
    (opts : List (CacheOpt S)) (hhost : host.gomaxprocs * 4 ≤ 2 ^ 62)
    (hopts : ∀ n, CacheOpt.withShards n ∈ opts → n ≤ 2 ^ 62) (env : Env) (turns : List Turn)
    (clock : ℕ) :
    Ensures (run clock ⟨Cache.new host hasher opts, env⟩ turns) fun x =>
      ∃ fuel₀, ∀ fuel, fuel₀ ≤ fuel → ∀ rounds, x.2.cache.m.len + 101 ≤ rounds →
        ∀ (env' : Env) (ceiling : ℤ) (pol : EvictionPolicy) (exclude : Bytes)
          (hasExclude : Bool), ∃ rs w',
          (Cache.evictUntilUnder rounds ceiling pol exclude hasExclude).run (exec fuel)
            ⟨x.2.cache, env'⟩ = .ok ((), w') ∧
          evictRounds fuel ceiling pol exclude hasExclude rounds 0 ⟨x.2.cache, env'⟩ =
            .ok (rs, w') ∧
          rs.length ≤ x.2.cache.m.len + 101 ∧ Linked ⟨x.2.cache, env'⟩ rs w' ∧
          ∀ r ∈ rs, (∃ k e, r.Removed exclude hasExclude k e) ∨
            r.after.cache = r.before.cache := by
  refine (Cache.Holds.run turns (holds_new host hasher opts hhost hopts)).mono ?_
  rintro x ⟨f, h⟩
  obtain ⟨c, hc⟩ := x.2.cache.m.exists_within
  refine ⟨2 * (c + 4) + 256, ?_⟩
  intro fuel hfuel rounds hrounds env' ceiling pol exclude hasExclude
  obtain ⟨rs, w', hrun, hrounds', hlink, hall, hlen, -⟩ :=
    Cache.Holds.evict_returns (w := ⟨x.2.cache, env'⟩) h hc hfuel hrounds
  exact ⟨rs, w', hrun, hrounds', hlen, hlink,
    Linked.proper (w := ⟨x.2.cache, env'⟩) rs h hlink hall⟩

/-- A run that stores one entry.
Source: none
Kind: L -/
theorem run_single :
    ∃ x, run 9 ⟨Cache.new ⟨1, ()⟩ (fun _ _ => 0) [.withShards 1], stillEnv 0⟩
      [⟨.set none [97] [1] 0, stillEnv 0⟩] = .ok x ∧ x.2.cache.m.len = 1 :=
  ⟨_, rfl, rfl⟩

/-- A cache with one entry.
Source: `internal/cache/tunable_test.go` `TestOversizedNewcomerStoredAndTerminates`
Kind: C -/
theorem eviction_pass_returns_oversized :
    ∃ x, run 9 ⟨Cache.new ⟨1, ()⟩ (fun _ _ => 0) [.withShards 1], stillEnv 0⟩
        [⟨.set none [97] [1] 0, stillEnv 0⟩] = .ok x ∧
      ∃ fuel₀, ∀ fuel, fuel₀ ≤ fuel → ∃ w',
        (Cache.evictUntilUnder 102 50 .allKeysLFU [97] true).run (exec fuel)
          ⟨x.2.cache, stillEnv 0⟩ = .ok ((), w') := by
  obtain ⟨x, hx, hlen⟩ := run_single
  obtain ⟨fuel₀, hpass⟩ := (eviction_pass_returns ⟨1, ()⟩ (fun _ _ => 0) [.withShards 1]
    (by decide) (by simp) (stillEnv 0) [⟨.set none [97] [1] 0, stillEnv 0⟩] 9).of_ok hx
  refine ⟨x, hx, fuel₀, fun fuel hfuel => ?_⟩
  obtain ⟨rs, w', hw', -⟩ := hpass fuel hfuel 102 (by rw [hlen]) (stillEnv 0) 50 .allKeysLFU [97]
    true
  exact ⟨w', hw'⟩

/-! ### Giving up -/

/-- What may not be removed fits under the ceiling: nothing if no key is excluded, and the entry of
the excluded key if one is stored.
Source: `internal/cache/evict.go` `evictUntilUnder`
Kind: D -/
def RestFits (exclude : Bytes) (hasExclude : Bool) (ceiling : ℤ) (m : Map S Bytes Entry) : Prop :=
  0 ≤ ceiling ∧ ∀ e, hasExclude → (exclude, e) ∈ m.contents → entryCost exclude e ≤ ceiling

/-- What is left when nothing more may be removed is the excluded entry, or nothing.
Source: `internal/cache/evict.go` `evictUntilUnder`
Kind: L -/
theorem RestFits.total_le {w' : World S} {f' : FinMap Bytes Entry}
    (hfits : RestFits exclude hasExclude ceiling w.cache.m) (h : w.cache.Holds f)
    (hev : Evicted exclude hasExclude w w' f f') (hnone : ¬Removable exclude hasExclude f') :
    total f' ≤ ceiling := by
  obtain ⟨R, -, htrim⟩ := hev.trimmed
  have hsole : ∀ k ∈ f', hasExclude ∧ k = exclude := by
    intro k hk
    by_contra hne
    exact hnone ⟨k, hk, hne⟩
  by_cases hmem : exclude ∈ f'
  · obtain ⟨e, he⟩ := Finmap.mem_iff.mp hmem
    have hempty : f'.erase exclude = ∅ := by
      apply Finmap.ext_lookup
      intro k
      rw [Finmap.lookup_empty, Finmap.lookup_eq_none, Finmap.mem_erase]
      exact fun hk => hk.1 (hsole k hk.2).2
    have htotal := total_erase f' exclude
    rw [hempty, he] at htotal
    have hcost : total f' = entryCost exclude e := (sub_eq_zero.mp htotal.symm)
    have hstored : f.lookup exclude = some e := by
      have hlook := htrim exclude
      rw [he] at hlook
      split_ifs at hlook
      exact hlook.symm
    rw [hcost]
    refine hfits.2 e (hsole exclude hmem).1 ?_
    rw [h.represents.contents_eq]
    exact mem_pairs.mpr hstored
  · have hempty : f' = ∅ := by
      apply Finmap.ext_lookup
      intro k
      rw [Finmap.lookup_empty, Finmap.lookup_eq_none]
      intro hk
      exact hmem ((hsole k hk).2 ▸ hk)
    rw [hempty]
    exact hfits.1

/-- A round that fails, with misses left.
Source: `internal/cache/evict.go` `evictUntilUnder`
Kind: L -/
theorem evictRounds_miss {rounds misses : ℕ} {cands : List (Bytes × Entry)} {w₁ w₂ : World S}
    (hover : ceiling < w.cache.usage)
    (hsample : exec fuel (.sample Cache.sampleN) w = .ok (cands, w₁))
    (hpick : (Cache.pickVictim cands pol exclude hasExclude).run (exec fuel) w₁ = .ok (none, w₂))
    (hleft : misses + 1 ≤ Cache.maxEvictMisses) :
    evictRounds fuel ceiling pol exclude hasExclude (rounds + 1) misses w =
      (fun r => (⟨w, cands, w₂⟩ :: r.1, r.2)) <$>
        evictRounds fuel ceiling pol exclude hasExclude rounds (misses + 1) w₂ := by
  rw [evictRounds, if_pos hover]
  simp only [hsample, ok_bind, hpick, if_neg (not_lt.mpr hleft)]
  cases evictRounds fuel ceiling pol exclude hasExclude rounds (misses + 1) w₂ <;> rfl

variable (fuel ceiling pol exclude hasExclude) in
/-- A pass whose draws only meet empty shards fails until it gives up.
Source: `internal/cache/evict.go` `evictUntilUnder`
Kind: L -/
theorem evictRounds_of_emptyAhead (rounds : ℕ) :
    ∀ (misses : ℕ) (w : World S), misses ≤ Cache.maxEvictMisses →
      Cache.maxEvictMisses < rounds + misses → EmptyAhead w.cache.m w.env.rand →
      ceiling < w.cache.usage →
      ∃ rs w', evictRounds fuel ceiling pol exclude hasExclude rounds misses w = .ok (rs, w') ∧
        w'.cache = w.cache ∧ rs.map (Round.blank exclude hasExclude) =
          List.replicate (Cache.maxEvictMisses + 1 - misses) true := by
  induction rounds with
  | zero =>
      intro misses w hm hrounds
      omega
  | succ rounds ih =>
      intro misses w hm hrounds hahead hover
      obtain ⟨rand', hsample, hread, hpos⟩ := hahead.sample fuel Cache.sampleN
      have hexec : exec fuel (.sample Cache.sampleN) w =
          .ok (([] : List (Bytes × Entry)), { w with env := { w.env with rand := rand' } }) := by
        change (w.cache.m.sample fuel Cache.sampleN w.env.rand >>= _) = _
        rw [hsample]
        rfl
      by_cases hleft : misses + 1 ≤ Cache.maxEvictMisses
      · obtain ⟨rs, w', hrs, hcache, hblank⟩ := ih (misses + 1)
          { w with env := { w.env with rand := rand' } } hleft (by omega)
          (fun i hi => hread ▸ hahead i (hpos.trans hi)) hover
        refine ⟨⟨w, [], { w with env := { w.env with rand := rand' } }⟩ :: rs, w', ?_, hcache, ?_⟩
        · rw [evictRounds_miss hover hexec rfl hleft, hrs]
          rfl
        · rw [List.map_cons, hblank, show Cache.maxEvictMisses + 1 - misses =
            Cache.maxEvictMisses + 1 - (misses + 1) + 1 by omega, List.replicate_succ]
          rfl
      · refine ⟨[⟨w, [], { w with env := { w.env with rand := rand' } }⟩],
          { w with env := { w.env with rand := rand' } }, ?_, rfl, ?_⟩
        · rw [evictRounds, if_pos hover, hexec]
          change (if Cache.maxEvictMisses < misses + 1 then _ else _ : Outcome _) = _
          rw [if_pos (by omega)]
          rfl
        · rw [show Cache.maxEvictMisses + 1 - misses = 1 by omega]
          rfl

end CacheMoney.Engine
