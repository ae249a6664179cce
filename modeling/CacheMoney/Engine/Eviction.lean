import CacheMoney.Engine.Actions
import CacheMoney.Shardmap.Draws

/-!
# The eviction pass

`internal/cache/evict.go` `evictUntilUnder`, from a state that holds a finite map.

* `evictRounds`: the loop with its rounds written down (`run_evictLoop`). `Round.Taken` says what
  one turn does: it samples, and it removes one entry, accounts for it and counts it, or it
  changes nothing and adds a miss (`evictRounds_spec`).
* `Evicted`: what a pass may do. It removes stored keys other than the excluded one, accounts for
  each, and changes nothing else.
* `Vain`: a position of the random source from which the draws of a sampling name nothing that may
  be removed, although some part of the map that a pass may come to stores such an entry.
* `Served`: there are few such positions. A pass pays for each failed sampling with a position of
  its own (`unlucky_le`), so few of them leave the misses of the pass within their bound.
-/

set_option linter.unusedSectionVars false

namespace CacheMoney.Engine

open CacheMoney.Found CacheMoney.Shardmap

variable {S : Type} {w w' : World S} {f : FinMap Bytes Entry} {fuel : ℕ} {ceiling : ℤ}
  {pol : EvictionPolicy} {exclude : Bytes} {hasExclude : Bool}

/-! ### Rounds -/

/-- One turn of the loop of `evictUntilUnder`: the candidates its sampling showed, and the world
before and after.
Source: `internal/cache/evict.go` `evictUntilUnder`
Kind: D -/
structure Round (S : Type) where
  before : World S
  cands : List (Bytes × Entry)
  after : World S

/-- The loop of `evictUntilUnder`, with its rounds.
Source: `internal/cache/evict.go` `evictUntilUnder`
Kind: D -/
def evictRounds (fuel : ℕ) (ceiling : ℤ) (pol : EvictionPolicy) (exclude : Bytes)
    (hasExclude : Bool) : ℕ → ℕ → World S → Outcome (List (Round S) × World S)
  | 0, _, _ => throw .outOfFuel
  | rounds + 1, misses, w =>
      if ceiling < w.cache.usage then do
        let (cands, w₁) ← exec fuel (.sample Cache.sampleN) w
        let (victim, w₂) ← (Cache.pickVictim cands pol exclude hasExclude).run (exec fuel) w₁
        match victim with
        | none =>
            if Cache.maxEvictMisses < misses + 1 then pure ([⟨w, cands, w₂⟩], w₂) else do
              let (rs, w') ←
                evictRounds fuel ceiling pol exclude hasExclude rounds (misses + 1) w₂
              pure (⟨w, cands, w₂⟩ :: rs, w')
        | some victim => do
            let (e, w₃) ← exec fuel (.delete victim) w₂
            let (_, w₄) ← (Cache.settleVictim victim e).run (exec fuel) w₃
            let (rs, w') ← evictRounds fuel ceiling pol exclude hasExclude rounds misses w₄
            pure (⟨w, cands, w₄⟩ :: rs, w')
      else pure ([], w)

/-- Writing the rounds down does not change the loop.
Source: `internal/cache/evict.go` `evictUntilUnder`
Kind: L -/
theorem run_evictLoop (rounds : ℕ) : ∀ (misses : ℕ) (w : World S),
    (Cache.evictLoop ceiling pol exclude hasExclude rounds misses).run (exec fuel) w =
      (fun r => ((), r.2)) <$> evictRounds fuel ceiling pol exclude hasExclude rounds misses w := by
  induction rounds with
  | zero => exact fun misses w => rfl
  | succ rounds ih =>
      intro misses w
      rw [Cache.evictLoop, evictRounds]
      change ((if ceiling < w.cache.usage then _ else _ : CacheM Unit).run _ _) = _
      by_cases hover : ceiling < w.cache.usage
      · rw [if_pos hover, if_pos hover, Prog.run_bind, ask, Prog.run_perform]
        simp only [map_bind]
        refine bind_congr fun r => ?_
        rw [Prog.run_bind]
        refine bind_congr fun r => ?_
        obtain ⟨victim, w₂⟩ := r
        cases victim with
        | none =>
            by_cases hgive : Cache.maxEvictMisses < misses + 1
            · simp only [if_pos hgive]
              rfl
            · simp only [if_neg hgive, ih, map_bind, map_pure]
              cases evictRounds fuel ceiling pol exclude hasExclude rounds (misses + 1) w₂ <;> rfl
        | some victim =>
            simp only [map_bind]
            rw [Prog.run_bind, ask, Prog.run_perform]
            refine bind_congr fun r => ?_
            rw [Prog.run_bind]
            refine bind_congr fun r => ?_
            rw [ih]
            cases evictRounds fuel ceiling pol exclude hasExclude rounds misses r.2 <;> rfl
      · rw [if_neg hover, if_neg hover]
        rfl

/-- The sampling of the round showed nothing that may be removed.
Source: `internal/cache/evict.go` `pickVictim`
Kind: D -/
def Round.blank (exclude : Bytes) (hasExclude : Bool) (r : Round S) : Bool :=
  r.cands.all fun e => hasExclude && e.1 == exclude

/-- A round is blank exactly when every candidate is the excluded key.
Source: `internal/cache/evict.go` `pickVictim`
Kind: L -/
theorem Round.blank_iff (r : Round S) :
    r.blank exclude hasExclude ↔ ∀ e ∈ r.cands, hasExclude ∧ e.1 = exclude := by
  simp only [Round.blank, List.all_eq_true, Bool.and_eq_true, beq_iff_eq]

/-- The rounds lead from one world to another.
Source: none
Kind: D -/
def Linked : World S → List (Round S) → World S → Prop
  | w, [], w' => w' = w
  | w, r :: rs, w' => r.before = w ∧ Linked r.after rs w'

/-- How a pass ended: under the ceiling with misses to spare, or over it with none.
Source: `internal/cache/evict.go` `evictUntilUnder`
Kind: D -/
def Ended (ceiling : ℤ) (usage : ℤ) (missed : ℕ) : Prop :=
  (usage ≤ ceiling ∧ missed ≤ Cache.maxEvictMisses) ∨
    (ceiling < usage ∧ missed = Cache.maxEvictMisses + 1)

/-! ### Choosing a victim -/

/-- `pickVictim` answers a candidate other than the excluded key whenever there is one, and only
asks for frequencies.
Source: `internal/cache/evict.go` `pickVictim`
Kind: L -/
theorem pickVictimLoop_returns (pol : EvictionPolicy) (cands : List (Bytes × Entry)) :
    ∀ (best : Option (Bytes × UInt8)) (w : World S),
      Returns ((Cache.pickVictimLoop pol exclude hasExclude cands best).run (exec fuel) w)
        fun r => r.2.cache = w.cache ∧ r.2.env.clock = w.env.clock ∧ r.2.env.rand = w.env.rand ∧
          (r.1 = none → best = none ∧ ∀ e ∈ cands, hasExclude ∧ e.1 = exclude) ∧
          ∀ v, r.1 = some v → (∃ b, best = some (v, b)) ∨
            ((∃ e ∈ cands, e.1 = v) ∧ ¬(hasExclude ∧ v = exclude)) := by
  induction cands with
  | nil =>
      intro best w
      refine ⟨_, rfl, rfl, rfl, rfl, ?_, ?_⟩
      · intro hnone
        exact ⟨Option.map_eq_none_iff.mp hnone, by simp⟩
      · intro v hv
        obtain ⟨b, hb, rfl⟩ := Option.map_eq_some_iff.mp hv
        exact Or.inl ⟨b.2, hb⟩
  | cons c cands ih =>
      intro best w
      obtain ⟨key, e⟩ := c
      unfold Cache.pickVictimLoop
      split_ifs with hspared hrandom
      · refine (ih best w).mono ?_
        rintro r ⟨hc, hclock, hrand, hnone, hsome⟩
        refine ⟨hc, hclock, hrand, fun h => ⟨(hnone h).1, ?_⟩, fun v hv => ?_⟩
        · intro c' hc'
          rcases List.mem_cons.mp hc' with rfl | hc'
          · exact hspared
          · exact (hnone h).2 c' hc'
        · rcases hsome v hv with hb | ⟨⟨c', hc', rfl⟩, hne⟩
          · exact Or.inl hb
          · exact Or.inr ⟨⟨c', List.mem_cons_of_mem _ hc', rfl⟩, hne⟩
      · refine ⟨_, rfl, rfl, rfl, rfl, fun h => absurd h (by simp), fun v hv => ?_⟩
        obtain rfl : key = v := Option.some.inj hv
        exact Or.inr ⟨⟨_, List.mem_cons_self, rfl⟩, hspared⟩
      · refine Prog.returns_bind (p := ask (.estimate key)) (Q := fun r =>
          r.2.cache = w.cache ∧ r.2.env.clock = w.env.clock ∧ r.2.env.rand = w.env.rand)
          ⟨_, rfl, rfl, rfl, rfl⟩ ?_
        rintro freq w' ⟨hc', hclock', hrand'⟩
        -- The candidate itself is eligible: it is the best so far, or a better one stands.
        have hkeep : ∀ best' : Option (Bytes × UInt8), best' = best ∧ best ≠ none ∨
            best' = some (key, freq) →
            Returns ((Cache.pickVictimLoop pol exclude hasExclude cands best').run
              (exec fuel) w') _ := fun best' hbest' =>
          (ih best' w').mono (R := fun r =>
            r.2.cache = w.cache ∧ r.2.env.clock = w.env.clock ∧ r.2.env.rand = w.env.rand ∧
            (r.1 = none → best = none ∧ ∀ c ∈ (key, e) :: cands, hasExclude ∧ c.1 = exclude) ∧
            ∀ v, r.1 = some v → (∃ b, best = some (v, b)) ∨
              ((∃ c ∈ (key, e) :: cands, c.1 = v) ∧ ¬(hasExclude ∧ v = exclude))) (by
            rintro r ⟨hc, hclock, hrand, hnone, hsome⟩
            refine ⟨hc.trans hc', hclock.trans hclock', hrand.trans hrand', fun h => ?_,
              fun v hv => ?_⟩
            · rcases hbest' with ⟨rfl, hne⟩ | rfl
              · exact absurd (hnone h).1 hne
              · cases (hnone h).1
            · rcases hsome v hv with ⟨b, hb⟩ | ⟨⟨c', hc', rfl⟩, hne⟩
              · rcases hbest' with ⟨rfl, -⟩ | rfl
                · exact Or.inl ⟨b, hb⟩
                · cases hb
                  exact Or.inr ⟨⟨_, List.mem_cons_self, rfl⟩, hspared⟩
              · exact Or.inr ⟨⟨c', List.mem_cons_of_mem _ hc', rfl⟩, hne⟩)
        split_ifs with hbetter
        · exact hkeep _ (Or.inr rfl)
        · refine hkeep best (Or.inl ⟨rfl, ?_⟩)
          rintro rfl
          exact hbetter rfl

variable (fuel pol exclude hasExclude) in
/-- The choice of a victim among the candidates of a sampling.
Source: `internal/cache/evict.go` `pickVictim`
Kind: P -/
theorem pickVictim_returns (cands : List (Bytes × Entry)) (w : World S) :
    Returns ((Cache.pickVictim cands pol exclude hasExclude).run (exec fuel) w) fun r =>
      r.2.cache = w.cache ∧ r.2.env.clock = w.env.clock ∧ r.2.env.rand = w.env.rand ∧
      (r.1 = none → ∀ e ∈ cands, hasExclude ∧ e.1 = exclude) ∧
      ∀ v, r.1 = some v → (∃ e ∈ cands, e.1 = v) ∧ ¬(hasExclude ∧ v = exclude) := by
  refine (pickVictimLoop_returns pol cands none w).mono ?_
  rintro r ⟨hc, hclock, hrand, hnone, hsome⟩
  refine ⟨hc, hclock, hrand, fun h => (hnone h).2, fun v hv => ?_⟩
  rcases hsome v hv with ⟨b, hb⟩ | hv
  · cases hb
  · exact hv

/-! ### What a round does -/

/-- The world after a victim was removed and accounted for.
Source: `internal/cache/evict.go` `evictUntilUnder`
Kind: D -/
def World.without (w : World S) (m : Map S Bytes Entry) (k : Bytes) (e : Entry) : World S :=
  { w with cache := { w.cache with
      m := m
      usage := w.cache.usage + -costOf k e.value
      evictions := w.cache.evictions + 1 } }

/-- The accounting of a removed victim.
Source: `internal/cache/evict.go` `evictUntilUnder`
Kind: L -/
theorem run_settleVictim (w : World S) (m : Map S Bytes Entry) (k : Bytes) (e : Entry) :
    (Cache.settleVictim k (some e)).run (exec fuel) { w with cache := { w.cache with m := m } } =
      .ok ((), w.without m k e) := rfl

/-- The counter follows the removal of a victim.
Source: `internal/cache/evict.go` `evictUntilUnder`
Kind: L -/
theorem World.holds_without (h : w.cache.Holds f) {k : Bytes} {e : Entry}
    (hlook : f.lookup k = some e) {m : Map S Bytes Entry} (hm : m.Represents (f.erase k)) :
    (w.without m k e).cache.Holds (f.erase k) := by
  refine ⟨hm, ?_⟩
  rw [total_erase, hlook, ← h.usage_eq]
  rfl

/-- What one turn of the loop does. It starts over the ceiling and samples. If the sampling shows
something that may be removed, such an entry is deleted, accounted for and counted; if not, the
cache stays as it is.
Source: `internal/cache/evict.go` `evictUntilUnder`
Kind: D -/
structure Round.Taken (fuel : ℕ) (ceiling : ℤ) (exclude : Bytes) (hasExclude : Bool)
    (r : Round S) : Prop where
  over_ceiling : ceiling < r.before.cache.usage
  sampled : r.before.cache.m.sample fuel Cache.sampleN r.before.env.rand =
    .ok (r.cands, r.after.env.rand)
  clock_eq : r.after.env.clock = r.before.env.clock
  missed : r.blank exclude hasExclude → r.after.cache = r.before.cache
  removed : ¬r.blank exclude hasExclude → ∃ k e m, ¬(hasExclude ∧ k = exclude) ∧
    r.before.cache.m.delete fuel k = .ok (some e, m) ∧
    r.after.cache = (r.before.without m k e).cache

variable (ceiling pol exclude hasExclude) in
/-- The pass, from any count of misses: its rounds lead from the world before it to the world after
it, each of them is a turn of the loop, and the blank ones are its misses.
Source: `internal/cache/evict.go` `evictUntilUnder`
Kind: P -/
theorem evictRounds_spec (rounds : ℕ) :
    ∀ (misses : ℕ) (w : World S) (f : FinMap Bytes Entry), w.cache.Holds f →
      misses ≤ Cache.maxEvictMisses →
      Ensures (evictRounds fuel ceiling pol exclude hasExclude rounds misses w) fun r =>
        Linked w r.1 r.2 ∧ (∀ x ∈ r.1, x.Taken fuel ceiling exclude hasExclude) ∧
        Ended ceiling r.2.cache.usage (misses + r.1.countP (Round.blank exclude hasExclude)) := by
  induction rounds with
  | zero => exact fun misses w f _ _ => trivial
  | succ rounds ih =>
      intro misses w f h hm
      unfold evictRounds
      by_cases hover : ceiling < w.cache.usage
      · rw [if_pos hover]
        refine (exec_sample h.represents fuel Cache.sampleN).bind ?_
        rintro ⟨cands, w₁⟩ ⟨hdrawn, rand, hsample, hw₁⟩
        obtain ⟨⟨victim, w₂⟩, hpick, hw₂, hclock, hrand, hnone, hsome⟩ :=
          pickVictim_returns fuel pol exclude hasExclude cands w₁
        simp only at hdrawn hsample hw₁ hw₂ hclock hrand hnone hsome
        simp only [hpick, ok_bind]
        subst hw₁
        have hsample' : w.cache.m.sample fuel Cache.sampleN w.env.rand =
            .ok (cands, w₂.env.rand) := by
          rw [hrand]
          exact hsample
        cases victim with
        | none =>
            have hblank : (⟨w, cands, w₂⟩ : Round S).blank exclude hasExclude :=
              (Round.blank_iff _).mpr (hnone rfl)
            have htaken : (⟨w, cands, w₂⟩ : Round S).Taken fuel ceiling exclude hasExclude :=
              ⟨hover, hsample', hclock, fun _ => hw₂, fun hb => absurd hblank hb⟩
            by_cases hgive : Cache.maxEvictMisses < misses + 1
            · simp only [if_pos hgive]
              refine ⟨⟨rfl, rfl⟩, List.forall_mem_singleton.mpr htaken, Or.inr ⟨?_, ?_⟩⟩
              · rw [hw₂]
                exact hover
              · rw [List.countP_cons_of_pos hblank, List.countP_nil]
                omega
            · simp only [if_neg hgive]
              refine (ih (misses + 1) w₂ f (hw₂ ▸ h) (by omega)).bind ?_
              rintro ⟨rs, w'⟩ ⟨hlink, hall, hend⟩
              refine ⟨⟨rfl, hlink⟩, List.forall_mem_cons.mpr ⟨htaken, hall⟩, ?_⟩
              rw [List.countP_cons_of_pos hblank]
              rw [show misses + 1 + rs.countP (Round.blank exclude hasExclude) =
                misses + (rs.countP (Round.blank exclude hasExclude) + 1) by omega] at hend
              exact hend
        | some victim =>
            obtain ⟨⟨c, hcand, rfl⟩, hne⟩ := hsome victim rfl
            have hlook : f.lookup c.1 = some c.2 := hdrawn.stored c hcand
            have hblank : ∀ w', ¬(⟨w, cands, w'⟩ : Round S).blank exclude hasExclude :=
              fun w' hb => hne ((Round.blank_iff _).mp hb c hcand)
            have hholds : w₂.cache.Holds f := hw₂ ▸ h
            refine (exec_delete hholds.represents fuel c.1).bind ?_
            rintro ⟨e, w₃⟩ ⟨he, m, hdel, hrep, hw₃⟩
            simp only at he hdel hw₃
            subst hw₃
            rw [hlook] at he
            subst he
            simp only [run_settleVictim, ok_bind]
            refine (ih misses _ (f.erase c.1) (World.holds_without hholds hlook hrep) hm).bind ?_
            rintro ⟨rs, w'⟩ ⟨hlink, hall, hend⟩
            refine ⟨⟨rfl, hlink⟩, List.forall_mem_cons.mpr ⟨?_, hall⟩, ?_⟩
            · refine ⟨hover, hsample', hclock, fun hb => absurd hb (hblank _), fun _ =>
                ⟨c.1, c.2, m, hne, ?_, ?_⟩⟩
              · rw [← hw₂]
                exact hdel
              · show (w₂.without m c.1 c.2).cache = (w.without m c.1 c.2).cache
                unfold World.without
                rw [hw₂]
            · rw [List.countP_cons_of_neg (hblank _)]
              exact hend
      · rw [if_neg hover]
        exact ⟨rfl, by simp, Or.inl ⟨not_lt.mp hover, by simpa using hm⟩⟩

/-! ### What a pass does -/

/-- What an eviction pass from `w` to `w'` may do.
Source: `internal/cache/evict.go` `evictUntilUnder`
Kind: D -/
structure Evicted (exclude : Bytes) (hasExclude : Bool) (w w' : World S)
    (f f' : FinMap Bytes Entry) : Prop where
  holds : w'.cache.Holds f'
  trimmed : ∃ R : Finset Bytes, (hasExclude → exclude ∉ R) ∧
    ∀ k, f'.lookup k = if k ∈ R then none else f.lookup k
  maxmemory_eq : w'.cache.maxmemory = w.cache.maxmemory
  evictPol_eq : w'.cache.evictPol = w.cache.evictPol
  clock_eq : w'.env.clock = w.env.clock

/-- A pass may leave the cache as it is.
Source: `internal/cache/evict.go` `evictUntilUnder`
Kind: L -/
theorem Evicted.same (h : w.cache.Holds f) (hc : w'.cache = w.cache)
    (hclock : w'.env.clock = w.env.clock) : Evicted exclude hasExclude w w' f f :=
  ⟨hc ▸ h, ⟨∅, by simp, by simp⟩, by rw [hc], by rw [hc], hclock⟩

/-- The removals of consecutive passes add up.
Source: `internal/cache/evict.go` `evictUntilUnder`
Kind: L -/
theorem Evicted.trans {w'' : World S} {f' f'' : FinMap Bytes Entry}
    (h : Evicted exclude hasExclude w w' f f') (h' : Evicted exclude hasExclude w' w'' f' f'') :
    Evicted exclude hasExclude w w'' f f'' := by
  obtain ⟨R, hR, hf'⟩ := h.trimmed
  obtain ⟨R', hR', hf''⟩ := h'.trimmed
  refine ⟨h'.holds, ⟨R ∪ R', ?_, ?_⟩, h'.maxmemory_eq.trans h.maxmemory_eq,
    h'.evictPol_eq.trans h.evictPol_eq, h'.clock_eq.trans h.clock_eq⟩
  · intro hex hmem
    rcases Finset.mem_union.mp hmem with hmem | hmem
    · exact hR hex hmem
    · exact hR' hex hmem
  · intro k
    rw [hf'' k, hf' k]
    by_cases hk : k ∈ R <;> by_cases hk' : k ∈ R' <;> simp [hk, hk']

/-- A key a pass may remove is stored.
Source: `internal/cache/evict.go` `pickVictim`
Kind: D -/
def Removable (exclude : Bytes) (hasExclude : Bool) (f : FinMap Bytes Entry) : Prop :=
  ∃ k ∈ f, ¬(hasExclude ∧ k = exclude)

/-- Something that may be removed is stored, in terms of the map and of the finite map.
Source: `internal/cache/evict.go` `pickVictim`
Kind: L -/
theorem removable_iff {m : Map S Bytes Entry} (h : m.Represents f) :
    (∃ e ∈ m.contents, ¬(hasExclude ∧ e.1 = exclude)) ↔ Removable exclude hasExclude f := by
  rw [h.contents_eq]
  constructor
  · rintro ⟨e, he, hne⟩
    exact ⟨e.1, Finmap.mem_of_lookup_eq_some (mem_pairs.mp he), hne⟩
  · rintro ⟨k, hk, hne⟩
    obtain ⟨e, he⟩ := Finmap.mem_iff.mp hk
    exact ⟨(k, e), mem_pairs.mpr he, hne⟩

/-- What may be removed after a pass could be removed before it.
Source: `internal/cache/evict.go` `evictUntilUnder`
Kind: L -/
theorem Evicted.removable {f' : FinMap Bytes Entry}
    (h : Evicted exclude hasExclude w w' f f') (hr : Removable exclude hasExclude f') :
    Removable exclude hasExclude f := by
  obtain ⟨R, -, hf'⟩ := h.trimmed
  obtain ⟨k, hk, hne⟩ := hr
  refine ⟨k, ?_, hne⟩
  rw [← Finmap.lookup_isSome] at hk ⊢
  rw [hf' k] at hk
  split_ifs at hk with hR
  · cases hk
  · exact hk

/-- A removed entry makes the map smaller by one.
Source: none
Kind: L -/
theorem card_keys_erase {key : Bytes} (h : key ∈ f) :
    (f.erase key).keys.card + 1 = f.keys.card := by
  have hmem : key ∈ f.keys := Finmap.mem_keys.mpr h
  rw [Finmap.keys_erase, Finset.card_erase_of_mem hmem]
  exact Nat.sub_add_cancel (Finset.card_pos.mpr ⟨key, hmem⟩)

/-- A round, over the finite map its world holds: it misses and keeps everything, or it takes one
entry out.
Source: `internal/cache/evict.go` `evictUntilUnder`
Kind: L -/
theorem Round.Taken.inv {r : Round S} (h : r.Taken fuel ceiling exclude hasExclude)
    (hf : r.before.cache.Holds f) :
    (r.blank exclude hasExclude ∧ r.after.cache = r.before.cache) ∨
      (¬r.blank exclude hasExclude ∧ ∃ k e m, ¬(hasExclude ∧ k = exclude) ∧
        f.lookup k = some e ∧ m.Represents (f.erase k) ∧
        r.before.cache.m.delete fuel k = .ok (some e, m) ∧
        r.after.cache = (r.before.without m k e).cache) := by
  by_cases hb : r.blank exclude hasExclude
  · exact Or.inl ⟨hb, h.missed hb⟩
  · obtain ⟨k, e, m, hne, hdel, hafter⟩ := h.removed hb
    obtain ⟨hlook, hrep⟩ := (hf.represents.delete fuel k).of_ok hdel
    exact Or.inr ⟨hb, k, e, m, hne, hlook.symm, hrep, hdel, hafter⟩

/-- One round is a pass of one turn.
Source: `internal/cache/evict.go` `evictUntilUnder`
Kind: L -/
theorem Round.Taken.evicted {r : Round S} (h : r.Taken fuel ceiling exclude hasExclude)
    (hf : r.before.cache.Holds f) :
    ∃ f', Evicted exclude hasExclude r.before r.after f f' ∧
      f'.keys.card + (if r.blank exclude hasExclude then 0 else 1) = f.keys.card := by
  rcases h.inv hf with ⟨hb, hafter⟩ | ⟨hb, k, e, m, hne, hlook, hrep, -, hafter⟩
  · exact ⟨f, .same hf hafter h.clock_eq, by rw [if_pos hb, Nat.add_zero]⟩
  · refine ⟨f.erase k, ⟨?_, ⟨{k}, ?_, ?_⟩, ?_, ?_, h.clock_eq⟩, ?_⟩
    · rw [hafter]
      exact World.holds_without hf hlook hrep
    · intro hex hmem
      exact hne ⟨hex, (Finset.mem_singleton.mp hmem).symm⟩
    · intro j
      by_cases hj : j = k
      · subst hj
        simp
      · simp [hj, Finmap.lookup_erase_ne hj]
    · rw [hafter]
      rfl
    · rw [hafter]
      rfl
    · rw [if_neg hb]
      exact card_keys_erase (Finmap.mem_of_lookup_eq_some hlook)

/-- The rounds of a pass together: what they removed, and how many of them there can be.
Source: `internal/cache/evict.go` `evictUntilUnder`
Kind: P -/
theorem Linked.evicted (rs : List (Round S)) : ∀ {w : World S} {f : FinMap Bytes Entry},
    w.cache.Holds f → Linked w rs w' → (∀ r ∈ rs, r.Taken fuel ceiling exclude hasExclude) →
      (∃ f', Evicted exclude hasExclude w w' f f') ∧
        rs.length ≤ f.keys.card + rs.countP (Round.blank exclude hasExclude) := by
  induction rs with
  | nil =>
      intro w f h hlink _
      obtain rfl : w' = w := hlink
      exact ⟨⟨f, .same h rfl rfl⟩, Nat.zero_le _⟩
  | cons r rs ih =>
      intro w f h hlink hall
      obtain ⟨rfl, hlink⟩ := hlink
      obtain ⟨f₁, hev, hcard⟩ := (hall r List.mem_cons_self).evicted h
      obtain ⟨⟨f', hev'⟩, hlen⟩ := ih hev.holds hlink fun x hx => hall x (List.mem_cons_of_mem _ hx)
      refine ⟨⟨f', hev.trans hev'⟩, ?_⟩
      rw [List.countP_cons, List.length_cons]
      split_ifs at hcard ⊢ <;> omega

/-- What may be removed at the end of a pass could be removed in each of its rounds.
Source: `internal/cache/evict.go` `evictUntilUnder`
Kind: L -/
theorem Linked.removable (rs : List (Round S)) : ∀ {w : World S} {f f' : FinMap Bytes Entry},
    w.cache.Holds f → w'.cache.Holds f' → Linked w rs w' →
    (∀ r ∈ rs, r.Taken fuel ceiling exclude hasExclude) → Removable exclude hasExclude f' →
      Removable exclude hasExclude f ∧
        ∀ r ∈ rs, ∃ g, r.before.cache.Holds g ∧ Removable exclude hasExclude g := by
  induction rs with
  | nil =>
      intro w f f' h h' hlink _ hr
      obtain rfl : w' = w := hlink
      have hr' := (removable_iff h'.represents).mpr hr
      exact ⟨(removable_iff h.represents).mp hr', by simp⟩
  | cons r rs ih =>
      intro w f f' h h' hlink hall hr
      obtain ⟨rfl, hlink⟩ := hlink
      obtain ⟨htaken, hall⟩ := List.forall_mem_cons.mp hall
      obtain ⟨f₁, hev, -⟩ := htaken.evicted h
      obtain ⟨hr₁, hrest⟩ := ih hev.holds h' hlink hall hr
      have hremovable := hev.removable hr₁
      exact ⟨hremovable, List.forall_mem_cons.mpr ⟨⟨f, h, hremovable⟩, hrest⟩⟩

/-! ### What the draws offer -/

/-- The attempts of one sampling, made on `m` with the draws from `rand` on, name an entry that may
be removed.
Source: `internal/shardmap/sample.go` `Sample`; `internal/cache/evict.go` `pickVictim`
Kind: D -/
def Offers (fuel : ℕ) (exclude : Bytes) (hasExclude : Bool) (m : Map S Bytes Entry)
    (rand : Tape UInt64) : Prop :=
  ∀ made, m.attempts fuel (sampleBudget Cache.sampleN) rand = .ok made →
    ∃ k ∈ namedKeys made, ¬(hasExclude ∧ k = exclude)

/-- A part of `m`: what is left of it after some entries that may be removed were deleted.
Source: `internal/cache/evict.go` `evictUntilUnder`
Kind: D -/
inductive Pared (fuel : ℕ) (exclude : Bytes) (hasExclude : Bool) (m : Map S Bytes Entry) :
    Map S Bytes Entry → Prop
  | whole : Pared fuel exclude hasExclude m m
  | delete {m₁ m₂ : Map S Bytes Entry} {k : Bytes} {e : Entry}
      (hpart : Pared fuel exclude hasExclude m m₁) (hk : ¬(hasExclude ∧ k = exclude))
      (hdel : m₁.delete fuel k = .ok (some e, m₂)) : Pared fuel exclude hasExclude m m₂

/-- The accounted cost of what a map stores.
Source: `internal/cache/cost.go` `costOf`
Kind: D -/
def mapCost (m : Map S Bytes Entry) : ℤ := (m.contents.map fun e => entryCost e.1 e.2).sum

/-- It is the total of the finite map.
Source: `internal/cache/cost.go` `costOf`
Kind: L -/
theorem mapCost_eq {m : Map S Bytes Entry} (h : m.Represents f) : mapCost m = total f := by
  rw [mapCost, h.contents_eq, total, weight]

/-- A part of a map: it stores nothing new, and unless it is the whole map it lacks an entry that
may be removed and costs less, by the overhead of an entry at least.
Source: `internal/cache/cost.go` `entryOverhead`
Kind: L -/
theorem Pared.inv {m m' : Map S Bytes Entry} (h : m.Represents f)
    (hpart : Pared fuel exclude hasExclude m m') :
    ∃ f', m'.Represents f' ∧ (∀ k ∈ f', k ∈ f) ∧
      (m' = m ∨ ∃ k ∈ f, ¬(hasExclude ∧ k = exclude) ∧ k ∉ f' ∧
        mapCost m' + entryOverhead ≤ mapCost m) := by
  induction hpart with
  | whole => exact ⟨f, h, fun _ hk => hk, Or.inl rfl⟩
  | @delete m₁ m₂ k e hpart hk hdel ih =>
      obtain ⟨f₁, h₁, hsub, hcost⟩ := ih
      obtain ⟨hlook, h₂⟩ := (h₁.delete fuel k).of_ok hdel
      have hmem : k ∈ f₁ := Finmap.mem_of_lookup_eq_some hlook.symm
      have htotal := total_erase f₁ k
      rw [← hlook, ← mapCost_eq h₁, ← mapCost_eq h₂] at htotal
      simp only [Cache.foundCost, costOf] at htotal
      refine ⟨f₁.erase k, h₂, fun j hj => hsub j (Finmap.mem_erase.mp hj).2, Or.inr ?_⟩
      refine ⟨k, hsub k hmem, hk, fun hin => (Finmap.mem_erase.mp hin).1 rfl, ?_⟩
      rcases hcost with rfl | ⟨-, -, -, -, hcost⟩
      · omega
      · have hpos : 0 ≤ entryOverhead := by decide
        omega

/-- The most draws that a pass over `n` entries makes: it has a turn for each entry and for each
miss, and each turn makes one sampling.
Source: `internal/cache/evict.go` `evictUntilUnder`
Kind: D -/
def passDraws (n : ℕ) : ℕ :=
  (n + (Cache.maxEvictMisses + 1)) * (sampleBudget Cache.sampleN * attemptDraws)

/-- A position of the random source from which a sampling would be in vain: the pass can come to
it, and for some part of the map that is still over the ceiling the draws from there name nothing
that may be removed, although something is stored that may.
Source: `internal/cache/evict.go` `maxEvictMisses`
Kind: D -/
structure Vain (fuel : ℕ) (exclude : Bytes) (hasExclude : Bool) (ceiling : ℤ)
    (m : Map S Bytes Entry) (rand : Tape UInt64) (p : ℕ) : Prop where
  pos_le : rand.pos ≤ p
  lt_pos : p < rand.pos + passDraws m.len
  in_vain : ∃ m', Pared fuel exclude hasExclude m m' ∧ ceiling < mapCost m' ∧
    (∃ e ∈ m'.contents, ¬(hasExclude ∧ e.1 = exclude)) ∧
    ¬Offers fuel exclude hasExclude m' { rand with pos := p }

/-- At most `n` positions of the random source are in vain.
Source: `internal/cache/evict.go` `maxEvictMisses`
Kind: D -/
def Served (n : ℕ) (fuel : ℕ) (exclude : Bytes) (hasExclude : Bool) (ceiling : ℤ)
    (m : Map S Bytes Entry) (rand : Tape UInt64) : Prop :=
  ∃ B : Finset ℕ, B.card ≤ n ∧ ∀ p, Vain fuel exclude hasExclude ceiling m rand p → p ∈ B

/-- The round missed although something that may be removed was stored.
Source: `internal/cache/evict.go` `maxEvictMisses`
Kind: D -/
def Round.unlucky (exclude : Bytes) (hasExclude : Bool) (r : Round S) : Bool :=
  r.blank exclude hasExclude &&
    r.before.cache.m.visits.any fun e => !(hasExclude && e.1 == exclude)

/-- A round is unlucky exactly when it is blank and something removable is stored.
Source: `internal/cache/evict.go` `maxEvictMisses`
Kind: L -/
theorem Round.unlucky_iff {r : Round S} (hf : r.before.cache.Holds f) :
    r.unlucky exclude hasExclude ↔
      r.blank exclude hasExclude ∧ Removable exclude hasExclude f := by
  have hspare : ∀ k, (!(hasExclude && k == exclude)) ↔ ¬(hasExclude ∧ k = exclude) := by
    intro k
    cases hasExclude <;> simp
  rw [Round.unlucky, Bool.and_eq_true, List.any_eq_true, ← removable_iff hf.represents,
    ← Map.coe_visits]
  simp only [hspare, Multiset.mem_coe]

/-- Candidates that are all the excluded key are at most one.
Source: `internal/cache/evict.go` `pickVictim`
Kind: L -/
theorem length_le_one_of_spared {n : ℤ} {cands : List (Bytes × Entry)} (h : Drawn f n cands)
    (hall : ∀ e ∈ cands, hasExclude ∧ e.1 = exclude) : cands.length ≤ 1 := by
  have hsub : cands.map Prod.fst ⊆ [exclude] := by
    intro k hk
    obtain ⟨e, he, rfl⟩ := List.mem_map.mp hk
    exact List.mem_singleton.mpr (hall e he).2
  simpa using (h.distinct.subperm hsub).length_le

/-- A round that missed got nothing from its draws: they name the excluded key at most.
Source: `internal/cache/evict.go` `evictUntilUnder`
Kind: L -/
theorem Round.Taken.not_offers {r : Round S} (h : r.Taken fuel ceiling exclude hasExclude)
    (hf : r.before.cache.Holds f) (hb : r.blank exclude hasExclude) :
    ¬Offers fuel exclude hasExclude r.before.cache.m r.before.env.rand := by
  have hall := (Round.blank_iff r).mp hb
  have hdrawn := (hf.represents.sample fuel Cache.sampleN r.before.env.rand).of_ok h.sampled
  have hshort : (r.cands.length : ℤ) < Cache.sampleN := by
    have hle : r.cands.length ≤ 1 := length_le_one_of_spared hdrawn hall
    unfold Cache.sampleN
    omega
  obtain ⟨made, hmade, hkeys⟩ := Map.sample_collects (by decide) h.sampled hshort
  intro hoffers
  obtain ⟨k, hk, hne⟩ := hoffers made hmade
  rw [← hkeys, List.mem_toFinset] at hk
  obtain ⟨e, he, rfl⟩ := List.mem_map.mp hk
  exact hne (hall e he)

/-- **Each unlucky round has a vain position of its own.** The rounds read the source from left to
right, so the unlucky ones among them are at most as many as the vain positions ahead.
Source: `internal/cache/evict.go` `evictUntilUnder`
Kind: P -/
theorem unlucky_le {m₀ : Map S Bytes Entry} {rand₀ : Tape UInt64} {B : Finset ℕ}
    (hB : ∀ p, Vain fuel exclude hasExclude ceiling m₀ rand₀ p → p ∈ B) (rs : List (Round S)) :
    ∀ {w : World S} {f : FinMap Bytes Entry}, w.cache.Holds f → Linked w rs w' →
      (∀ r ∈ rs, r.Taken fuel ceiling exclude hasExclude) →
      Pared fuel exclude hasExclude m₀ w.cache.m → w.env.rand.read = rand₀.read →
      rand₀.pos ≤ w.env.rand.pos →
      w.env.rand.pos + rs.length * (sampleBudget Cache.sampleN * attemptDraws) ≤
        rand₀.pos + passDraws m₀.len →
      rs.countP (Round.unlucky exclude hasExclude) ≤ (B.filter (w.env.rand.pos ≤ ·)).card := by
  induction rs with
  | nil => exact fun _ _ _ _ _ _ _ => Nat.zero_le _
  | cons r rs ih =>
      intro w f h hlink hall hpart hread hpos hlim
      obtain ⟨rfl, hlink⟩ := hlink
      have htaken := hall r List.mem_cons_self
      obtain ⟨f₁, hev, -⟩ := htaken.evicted h
      obtain ⟨hadv, hlt⟩ := Map.sample_advanced (by decide) htaken.sampled
      have hpart₁ : Pared fuel exclude hasExclude m₀ r.after.cache.m := by
        rcases htaken.inv h with ⟨-, hafter⟩ | ⟨-, k, e, m, hne, -, -, hdel, hafter⟩
        · rw [hafter]
          exact hpart
        · rw [hafter]
          exact hpart.delete hne hdel
      have hle := hadv.le_pos
      rw [List.length_cons, Nat.succ_mul] at hlim
      have hrest := ih hev.holds hlink (fun x hx => hall x (List.mem_cons_of_mem _ hx)) hpart₁
        (hadv.read_eq.trans hread) (hpos.trans hadv.pos_le) (by omega)
      have hsub : B.filter (r.after.env.rand.pos ≤ ·) ⊆ B.filter (r.before.env.rand.pos ≤ ·) :=
        Finset.monotone_filter_right B fun p _ hp => hadv.pos_le.trans hp
      rw [List.countP_cons]
      split_ifs with hun
      · -- The position of this round is in vain, and the later rounds read beyond it.
        obtain ⟨hb, hr⟩ := (Round.unlucky_iff h).mp hun
        have hvain : Vain fuel exclude hasExclude ceiling m₀ rand₀ r.before.env.rand.pos := by
          refine ⟨hpos, ?_, r.before.cache.m, hpart, ?_, (removable_iff h.represents).mpr hr, ?_⟩
          · have hdraws : 0 < sampleBudget Cache.sampleN * attemptDraws := by decide
            omega
          · rw [mapCost_eq h.represents, ← h.usage_eq]
            exact htaken.over_ceiling
          · rw [show ({ rand₀ with pos := r.before.env.rand.pos } : Tape UInt64) =
              r.before.env.rand by rw [← hread]]
            exact htaken.not_offers h hb
        have hmem : r.before.env.rand.pos ∈ B.filter (r.before.env.rand.pos ≤ ·) :=
          Finset.mem_filter.mpr ⟨hB _ hvain, le_rfl⟩
        have hnot : r.before.env.rand.pos ∉ B.filter (r.after.env.rand.pos ≤ ·) :=
          fun hin => absurd (Finset.mem_filter.mp hin).2 (not_le.mpr hlt)
        have hcard := Finset.card_lt_card
          (Finset.ssubset_iff_of_subset hsub |>.mpr ⟨_, hmem, hnot⟩)
        omega
      · exact hrest.trans (Finset.card_le_card hsub)

/-- The rounds of a whole pass whose source is served: its unlucky rounds are few.
Source: `internal/cache/evict.go` `evictUntilUnder`
Kind: P -/
theorem Served.unlucky_le {n : ℕ} {rs : List (Round S)}
    (hs : Served n fuel exclude hasExclude ceiling w.cache.m w.env.rand) (h : w.cache.Holds f)
    (hlink : Linked w rs w') (hall : ∀ r ∈ rs, r.Taken fuel ceiling exclude hasExclude)
    (hend : Ended ceiling w'.cache.usage (rs.countP (Round.blank exclude hasExclude))) :
    rs.countP (Round.unlucky exclude hasExclude) ≤ n := by
  obtain ⟨B, hcard, hB⟩ := hs
  have hlen := (Linked.evicted rs h hlink hall).2
  have hmiss : rs.countP (Round.blank exclude hasExclude) ≤ Cache.maxEvictMisses + 1 := by
    rcases hend with ⟨-, hle⟩ | ⟨-, heq⟩
    · omega
    · omega
  have hrounds : rs.length ≤ w.cache.m.len + (Cache.maxEvictMisses + 1) := by
    rw [h.represents.len]
    omega
  refine (Engine.unlucky_le hB rs h hlink hall .whole rfl le_rfl ?_).trans
    ((Finset.card_filter_le _ _).trans hcard)
  exact Nat.add_le_add_left (Nat.mul_le_mul_right _ hrounds) _

/-- A pass with at most `maxEvictMisses` vain positions ahead ends under the ceiling, or with
nothing left that may be removed.
Source: `internal/cache/evict.go` `evictUntilUnder`, `maxEvictMisses`
Kind: P -/
theorem Served.ends {rs : List (Round S)} {f' : FinMap Bytes Entry}
    (hs : Served Cache.maxEvictMisses fuel exclude hasExclude ceiling w.cache.m w.env.rand)
    (h : w.cache.Holds f) (h' : w'.cache.Holds f') (hlink : Linked w rs w')
    (hall : ∀ r ∈ rs, r.Taken fuel ceiling exclude hasExclude)
    (hend : Ended ceiling w'.cache.usage (rs.countP (Round.blank exclude hasExclude))) :
    w'.cache.usage ≤ ceiling ∨ ¬Removable exclude hasExclude f' := by
  have hfew := hs.unlucky_le h hlink hall hend
  rcases hend with ⟨hunder, -⟩ | ⟨-, hmany⟩
  · exact Or.inl hunder
  · refine Or.inr fun hr => ?_
    -- Otherwise something could be removed in every round, and every blank one was unlucky.
    obtain ⟨-, hbefore⟩ := Linked.removable rs h h' hlink hall hr
    have hsame : rs.countP (Round.blank exclude hasExclude) ≤
        rs.countP (Round.unlucky exclude hasExclude) := by
      refine List.countP_mono_left fun r hmem hb => ?_
      obtain ⟨g, hg, hrg⟩ := hbefore r hmem
      exact (Round.unlucky_iff hg).mpr ⟨hb, hrg⟩
    omega

/-- `evictUntilUnder`, from a state that holds a finite map.
Source: `internal/cache/evict.go` `evictUntilUnder`
Kind: P -/
theorem evictUntilUnder_spec (ceiling : ℤ) (pol : EvictionPolicy) (rounds : ℕ)
    (h : w.cache.Holds f) :
    Ensures ((Cache.evictUntilUnder rounds ceiling pol exclude hasExclude).run (exec fuel) w)
      fun r => ∃ f', Evicted exclude hasExclude w r.2 f f' ∧
        (Served Cache.maxEvictMisses fuel exclude hasExclude ceiling w.cache.m w.env.rand →
          r.2.cache.usage ≤ ceiling ∨ ¬Removable exclude hasExclude f') := by
  rw [Cache.evictUntilUnder, run_evictLoop, map_eq_pure_bind]
  refine (evictRounds_spec ceiling pol exclude hasExclude rounds 0 w f h (Nat.zero_le _)).bind ?_
  rintro ⟨rs, w'⟩ ⟨hlink, hall, hend⟩
  rw [Nat.zero_add] at hend
  obtain ⟨⟨f', hev⟩, -⟩ := Linked.evicted rs h hlink hall
  exact ⟨f', hev, fun hs => hs.ends h hev.holds hlink hall hend⟩

end CacheMoney.Engine
