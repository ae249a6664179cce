import CacheMoney.Found.Charges
import CacheMoney.Engine.Accounting
import CacheMoney.Engine.Paths
import CacheMoney.Engine.Tuning

/-!
# The ceiling, when no call is in progress

`Set` stores first and evicts afterwards, and the counter it then looks at is moved by every other
client too: while calls are in progress the cache may be over its ceiling by as much as they have
just stored. What holds at rest follows from who is to blame. A `Set` that has raised the counter
does not return before it has seen the counter at or below the ceiling, or has given up.

* `Calm`: the actions that leave ceiling and eviction alone and do not raise the counter.
* `GaveUp`: more samples without a candidate than an eviction pass accepts.
* `set_charged`: a `Set` that returns charged gave up.
* `ceiling_at_rest`: whatever the interleaving, at rest the stored entries are within the ceiling,
  or one of the calls gave up.
-/

namespace CacheMoney.Engine

open CacheMoney.Found CacheMoney.Shardmap

variable {S : Type}

/-! ### Actions -/

/-- Ceiling and eviction stay as they are: no new ceiling, and no policy that does not evict.
Source: `internal/cache/cache.go` `SetMaxMemory`, `SetEvictionPolicy`
Kind: D -/
def Keeping : Action → Prop
  | .storeMaxmemory _ => False
  | .storeEvictPol p => p ≠ .noEviction
  | _ => True

/-- And the counter is not raised.
Source: `internal/cache/cache.go` `Cache`
Kind: D -/
def Calm : Action → Prop
  | .storeMaxmemory _ => False
  | .storeEvictPol p => p ≠ .noEviction
  | .addUsage d => d ≤ 0
  | _ => True

/-- What is calm keeps ceiling and eviction as they are.
Source: `internal/cache/cache.go` `Cache`
Kind: L -/
theorem Calm.keeping {a : Action} (h : Calm a) : Keeping a := by
  cases a with
  | storeMaxmemory bytes => exact h
  | storeEvictPol p => exact h
  | _ => trivial

/-- The action raises the counter.
Source: `internal/cache/cache.go` `Cache`
Kind: D -/
def Raises : (Σ a : Action, a.Answer) → Prop
  | ⟨.addUsage d, _⟩ => 0 < d
  | _ => False

/-- The action is a look at the counter that found it at or below the ceiling.
Source: `internal/cache/evict.go` `evictUntilUnder`
Kind: D -/
def FoundUnder (ceiling : ℤ) : (Σ a : Action, a.Answer) → Prop
  | ⟨.loadUsage, usage⟩ => usage ≤ ceiling
  | _ => False

/-- What ceiling and policy answer while they stay as they are.
Source: `internal/cache/cache.go` `Set`
Kind: D -/
def Regime (ceiling : ℤ) : (Σ a : Action, a.Answer) → Prop
  | ⟨.loadMaxmemory, c⟩ => c = ceiling
  | ⟨.loadEvictPol, pol⟩ => pol ≠ .noEviction
  | _ => True

/-- A calm action does not raise the counter.
Source: `internal/cache/cache.go` `Set`
Kind: L -/
theorem Calm.not_raises {x : Σ a : Action, a.Answer} (h : Calm x.1) : ¬Raises x := by
  obtain ⟨a, r⟩ := x
  cases a with
  | addUsage d => exact not_lt.mpr h
  | _ => exact id

/-! ### Calm methods -/

section calm

/-- Whatever the answers, every action of the program is calm.
Source: none
Kind: D -/
abbrev Rests {α : Type} (p : CacheM α) : Prop := p.Asks Calm

/-- Reading is calm.
Source: `internal/cache/cache.go` `Get`, `TTL`, `Len`
Kind: L -/
theorem Action.Reads.calm {a : Action} (h : a.Reads) : Calm a := by
  cases a <;> trivial

/-- Removing is calm: it lowers the counter.
Source: `internal/cache/cache.go` `Del`
Kind: L -/
theorem Action.Removes.calm {a : Action} (h : a.Removes) : Calm a := by
  cases a <;> trivial

/-- Evicting is calm: it lowers the counter.
Source: `internal/cache/evict.go` `evictUntilUnder`
Kind: L -/
theorem Action.Evicts.calm {a : Action} (h : a.Evicts) : Calm a := by
  cases a <;> trivial

/-- A method that only reads rests.
Source: `internal/cache/cache.go` `Get`, `TTL`, `Len`
Kind: L -/
theorem rests_of_reads {α : Type} {p : CacheM α} (h : p.Asks Action.Reads) : Rests p :=
  h.mono fun _ => Action.Reads.calm

/-- Evicting raises no usage.
Source: `internal/cache/evict.go` `evictUntilUnder`
Kind: L -/
theorem evictIfOver_rests (fuel : ℕ) (ceiling : ℤ) (pol : EvictionPolicy) (exclude : Bytes)
    (hasExclude : Bool) : Rests (Cache.evictIfOver fuel ceiling pol exclude hasExclude) :=
  (evictIfOver_asks fuel ceiling pol exclude hasExclude).mono fun _ => Action.Evicts.calm

/-- Deciding whether the tracker is active raises no usage.
Source: `internal/cache/cache.go` `refreshActive`
Kind: L -/
theorem refreshActive_rests : Rests Cache.refreshActive := by
  refine asks_act trivial fun pol => ?_
  split_ifs with hlfu
  · exact asks_act trivial fun _ => ⟨trivial, fun _ => trivial⟩
  · exact ⟨trivial, fun _ => trivial⟩

/-- Choosing a policy that evicts raises no usage.
Source: `internal/cache/cache.go` `SetEvictionPolicy`
Kind: L -/
theorem setEvictionPolicy_rests {p : EvictionPolicy} (hp : p ≠ .noEviction) :
    Rests (Cache.setEvictionPolicy p) := asks_act hp fun _ => refreshActive_rests

end calm

/-! ### The eviction of `Set` -/

/-- A sample with no candidate but the key that is being written.
Source: `internal/cache/evict.go` `evictUntilUnder`, `pickVictim`
Kind: D -/
def blank (key : Bytes) : (Σ a : Action, a.Answer) → Bool
  | ⟨.sample _, cands⟩ => cands.all fun e => e.1 == key
  | _ => false

/-- More blank samples than an eviction pass accepts.
Source: `internal/cache/evict.go` `maxEvictMisses`
Kind: D -/
def GaveUp (key : Bytes) (l : Acts) : Prop := Cache.maxEvictMisses < l.countP (blank key)

/-- No victim is found only if every candidate is the spared key.
Source: `internal/cache/evict.go` `pickVictim`
Kind: L -/
theorem pickVictimLoop_blank (pol : EvictionPolicy) (key : Bytes) (cands : List (Bytes × Entry)) :
    ∀ best, Walks (fun _ victim => victim = none → best = none ∧ ∀ e ∈ cands, e.1 = key)
      (Cache.pickVictimLoop pol key true cands best) := by
  induction cands with
  | nil =>
      intro best hnone
      exact ⟨Option.map_eq_none_iff.mp hnone, nofun⟩
  | cons x cands ih =>
      intro best
      rw [Cache.pickVictimLoop]
      by_cases hspared : true = true ∧ x.1 = key
      · rw [if_pos hspared]
        refine (ih best).mono fun _ victim h hnone => ?_
        exact ⟨(h hnone).1, List.forall_mem_cons.mpr ⟨hspared.2, (h hnone).2⟩⟩
      · rw [if_neg hspared]
        by_cases hrandom : pol = .allKeysRandom
        · rw [if_pos hrandom]
          exact walks_pure nofun
        · rw [if_neg hrandom]
          refine walks_ask fun f => ?_
          by_cases hbest : best.all fun b => f < b.2
          · rw [if_pos hbest]
            exact (ih _).mono fun _ _ h hnone => absurd (h hnone).1 (Option.some_ne_none _)
          · rw [if_neg hbest]
            refine (ih best).mono fun _ _ h hnone => absurd ?_ hbest
            rw [(h hnone).1]
            rfl

/-- An eviction loop that returns has seen the counter at or below the ceiling, or has given up.
Source: `internal/cache/evict.go` `evictUntilUnder`
Kind: L -/
theorem evictLoop_ends (ceiling : ℤ) (pol : EvictionPolicy) (key : Bytes) (rounds : ℕ) :
    ∀ misses, Walks (fun l _ => (∃ x ∈ l, FoundUnder ceiling x) ∨
        Cache.maxEvictMisses < misses + l.countP (blank key))
      (Cache.evictLoop ceiling pol key true rounds misses) := by
  induction rounds with
  | zero => exact fun _ => trivial
  | succ rounds ih =>
      intro misses
      refine walks_ask fun usage => ?_
      by_cases hover : ceiling < usage
      · rw [if_pos hover]
        refine walks_ask fun cands => ?_
        refine (pickVictimLoop_blank pol key cands none).seq fun l victim hvictim => ?_
        cases victim with
        | none =>
            have hblank : blank key ⟨.sample Cache.sampleN, cands⟩ = true := by
              simpa [blank] using (hvictim rfl).2
            dsimp only
            by_cases hgive : Cache.maxEvictMisses < misses + 1
            · rw [if_pos hgive]
              refine walks_pure (Or.inr ?_)
              simp only [List.countP_cons, hblank, if_true]
              omega
            · rw [if_neg hgive]
              refine (ih (misses + 1)).mono fun l' _ h => ?_
              refine h.imp (fun ⟨x, hx, hfits⟩ => ⟨x, by simp [hx], hfits⟩) fun h => ?_
              simp only [List.countP_cons, List.countP_append, hblank, if_true]
              omega
        | some victim =>
            refine walks_ask fun found => ?_
            refine (settleVictim_walks victim found).seq fun l' _ _ => ?_
            refine (ih misses).mono fun l'' _ h => ?_
            refine h.imp (fun ⟨x, hx, hfits⟩ => ⟨x, by simp [hx], hfits⟩) fun h => ?_
            simp only [List.countP_cons, List.countP_append]
            omega
      · rw [if_neg hover]
        exact walks_pure (Or.inl ⟨_, List.mem_cons_self, not_lt.mp hover⟩)

/-- An eviction ends when it finds the usage under the ceiling, or gives up.
Source: `internal/cache/evict.go` `evictUntilUnder`
Kind: L -/
theorem evictIfOver_ends (fuel : ℕ) {ceiling : ℤ} (hpos : 0 < ceiling) {pol : EvictionPolicy}
    (hpol : pol ≠ .noEviction) (key : Bytes) :
    Walks (fun l _ => (∃ x ∈ l, FoundUnder ceiling x) ∨ GaveUp key l)
      (Cache.evictIfOver fuel ceiling pol key true) := by
  unfold Cache.evictIfOver
  rw [if_pos ⟨hpos, hpol⟩]
  refine walks_ask fun usage => ?_
  by_cases hover : ceiling < usage
  · rw [if_pos hover]
    refine (evictLoop_ends ceiling pol key fuel 0).mono fun l _ h => ?_
    refine h.imp (fun ⟨x, hx, hfits⟩ => ⟨x, List.mem_cons_of_mem _ hx, hfits⟩) fun h => ?_
    rw [GaveUp, List.countP_cons]
    omega
  · rw [if_neg hover]
    exact walks_pure (Or.inl ⟨_, List.mem_cons_self, not_lt.mp hover⟩)

/-- A `Set` that returns charged has given up.
Source: `internal/cache/cache.go` `Set`
Kind: L -/
theorem set_charged (fuel : ℕ) {ceiling : ℤ} (hpos : 0 < ceiling) (ctx : Ctx) (key value : Bytes)
    (ttl : ℤ) : Walks (fun l _ => (∀ x ∈ l, Regime ceiling x) →
      Charged Raises (FoundUnder ceiling) l → GaveUp key l) (Cache.set fuel ctx key value ttl) := by
  cases ctx with
  | some err => exact walks_pure fun _ hcharged => hcharged.elim
  | none =>
      refine (expiry_asks (P := Calm) trivial ttl).along.seq fun l expiresAt hl => ?_
      refine walks_ask fun c => walks_ask fun pol => ?_
      by_cases hgood : c = ceiling ∧ pol ≠ .noEviction
      · obtain ⟨rfl, hpol⟩ := hgood
        refine (rejects_asks (P := Calm) trivial trivial c pol (costOf key value)).along.seq fun l' oom hl' => ?_
        cases oom with
        | true =>
            -- A refused write has done nothing but look.
            refine walks_pure fun _ hcharged => absurd hcharged (not_charged fun x hx => ?_)
            apply Calm.not_raises
            simp only [List.append_nil, List.mem_append, List.mem_cons] at hx
            rcases hx with hx | rfl | rfl | hx
            · exact hl x hx
            · trivial
            · trivial
            · exact hl' x hx
        | false =>
            refine walks_ask fun old => walks_ask fun _ => ?_
            refine ((evictIfOver_rests fuel c pol key true).along.and
              (evictIfOver_ends fuel hpos hpol key)).seq fun l'' _ hl'' => ?_
            refine walks_pure fun _ hcharged => ?_
            obtain ⟨hcalm, hend⟩ := hl''
            rw [List.append_nil] at hcharged ⊢
            -- What follows the one raise is the eviction, and it raises nothing.
            obtain ⟨front, hfront⟩ : ∃ front : Acts, l ++ ⟨.loadMaxmemory, c⟩ ::
                ⟨.loadEvictPol, pol⟩ :: (l' ++ ⟨.swap key ⟨value, expiresAt⟩, old⟩ ::
                  ⟨.addUsage (costOf key value - Cache.foundCost key old), ()⟩ :: l'') =
                front ++ l'' :=
              ⟨l ++ ⟨.loadMaxmemory, c⟩ :: ⟨.loadEvictPol, pol⟩ ::
                (l' ++ [⟨.swap key ⟨value, expiresAt⟩, old⟩,
                  ⟨.addUsage (costOf key value - Cache.foundCost key old), ()⟩]), by simp⟩
            rw [hfront] at hcharged ⊢
            have hquiet : ¬Charged Raises (FoundUnder c) l'' :=
              not_charged fun x hx => (hcalm x hx).not_raises
            rcases charged_append.mp hcharged with ⟨-, hfits⟩ | hcharged
            · rcases hend with ⟨x, hx, hfit⟩ | hgave
              · exact absurd hfit (hfits x hx)
              · rw [GaveUp, List.countP_append]
                exact Nat.lt_add_left _ hgave
            · exact absurd hcharged hquiet
      · refine Prog.Along.of_forall fun l' _ hregime => absurd ⟨?_, ?_⟩ hgood
        · exact hregime ⟨.loadMaxmemory, c⟩ (by simp)
        · exact hregime ⟨.loadEvictPol, pol⟩ (by simp)

/-! ### Calls -/

/-- The calls that leave ceiling and eviction as they are.
Source: `internal/cache/engine.go` `Engine`; `internal/cache/policy.go` `Tunable`
Kind: D -/
def Call.Keeping : Call → Prop
  | .setMaxMemory _ => False
  | .setEvictionPolicy p => p ≠ .noEviction
  | _ => True

/-- Source: `internal/cache/engine.go` `Engine`
Kind: D -/
inductive Steady : CacheM Reply → Prop where
  | call (fuel : ℕ) (c : Call) (h : c.Keeping) : Steady (c.prog fuel)

/-- `Set` keeps ceiling and eviction as they are.
Source: `internal/cache/engine.go` `Engine`
Kind: L -/
theorem set_keeping (fuel : ℕ) (ctx : Ctx) (key value : Bytes) (ttl : ℤ) :
    (Cache.set fuel ctx key value ttl).Asks Keeping := by
  cases ctx with
  | some err => trivial
  | none =>
      refine (expiry_asks trivial ttl).bind fun expiresAt => ?_
      refine ⟨trivial, fun c => ⟨trivial, fun pol => ?_⟩⟩
      refine (rejects_asks trivial trivial c pol (costOf key value)).bind fun oom => ?_
      cases oom with
      | true => trivial
      | false =>
          refine ⟨trivial, fun old => ⟨trivial, fun _ => ?_⟩⟩
          have hevict : (Cache.evictIfOver fuel c pol key true).Asks Keeping :=
            (evictIfOver_rests fuel c pol key true).mono fun _ => Calm.keeping
          exact hevict.bind fun _ => trivial

/-- A call that is no `Set` is calm.
Source: `internal/cache/engine.go` `Engine`; `internal/cache/policy.go` `Tunable`
Kind: L -/
theorem Call.Keeping.rests {c : Call} (h : c.Keeping)
    (hset : ∀ ctx key value ttl, c ≠ .set ctx key value ttl) (fuel : ℕ) : Rests (c.prog fuel) := by
  cases c with
  | get ctx key => exact (rests_of_reads (get_asks ctx key)).bind fun _ => trivial
  | set ctx key value ttl => exact absurd rfl (hset ctx key value ttl)
  | del ctx key =>
      exact ((del_asks ctx key).mono fun _ => Action.Removes.calm).bind fun _ => trivial
  | ttl ctx key => exact (rests_of_reads (ttl_asks ctx key)).bind fun _ => trivial
  | len ctx => exact (rests_of_reads (len_asks ctx)).bind fun _ => trivial
  | setMaxMemory bytes => exact h.elim
  | setEvictionPolicy p => exact (setEvictionPolicy_rests h).bind fun _ => trivial

/-- A call that keeps ceiling and eviction asks for nothing that would change them.
Source: `internal/cache/engine.go` `Engine`; `internal/cache/policy.go` `Tunable`
Kind: L -/
theorem Call.Keeping.asks {c : Call} (h : c.Keeping) (fuel : ℕ) :
    (c.prog fuel).Asks Engine.Keeping := by
  by_cases hset : ∃ ctx key value ttl, c = .set ctx key value ttl
  · obtain ⟨ctx, key, value, ttl, rfl⟩ := hset
    exact (set_keeping fuel ctx key value ttl).bind fun _ => trivial
  · refine (h.rests (fun ctx key value ttl hc => ?_) fuel).mono fun _ => Calm.keeping
    exact hset ⟨ctx, key, value, ttl, hc⟩

/-- A call that returns charged is a `Set` that gave up.
Source: `internal/cache/engine.go` `Engine`; `internal/cache/policy.go` `Tunable`
Kind: L -/
theorem Call.Keeping.charged {c : Call} (h : c.Keeping) {ceiling : ℤ} (hpos : 0 < ceiling)
    (fuel : ℕ) : Walks (fun l _ => (∀ x ∈ l, Regime ceiling x) →
      Charged Raises (FoundUnder ceiling) l →
      ∃ ctx key value ttl, c = .set ctx key value ttl ∧ GaveUp key l) (c.prog fuel) := by
  by_cases hset : ∃ ctx key value ttl, c = .set ctx key value ttl
  · obtain ⟨ctx, key, value, ttl, rfl⟩ := hset
    refine (set_charged fuel hpos ctx key value ttl).seq fun l _ hl => ?_
    refine walks_pure fun hregime hcharged => ⟨ctx, key, value, ttl, rfl, ?_⟩
    rw [List.append_nil] at hregime hcharged ⊢
    exact hl hregime hcharged
  · have hrests : Rests (c.prog fuel) :=
      h.rests (fun ctx key value ttl hc => hset ⟨ctx, key, value, ttl, hc⟩) fuel
    refine hrests.along.mono fun l _ hl _ hcharged => absurd hcharged ?_
    exact not_charged fun x hx => (hl x hx).not_raises

/-! ### The world -/

/-- The usage changes by what the action adds.
Source: `internal/cache/engine.go` `Engine`; `internal/cache/policy.go` `Tunable`
Kind: L -/
theorem exec_usage {fuel : ℕ} {a : Action} {w w' : World S} {r : a.Answer}
    (h : exec fuel a w = .ok (r, w')) : w'.cache.usage = w.cache.usage + due a := by
  cases a with
  | get key =>
      obtain ⟨e, -, he⟩ := bind_eq_ok_iff.mp h
      cases he
      exact (add_zero _).symm
  | swap key e =>
      obtain ⟨m, -, hm⟩ := bind_eq_ok_iff.mp h
      cases hm
      exact (add_zero _).symm
  | delete key =>
      obtain ⟨m, -, hm⟩ := bind_eq_ok_iff.mp h
      cases hm
      exact (add_zero _).symm
  | sample n =>
      obtain ⟨m, -, hm⟩ := bind_eq_ok_iff.mp h
      cases hm
      exact (add_zero _).symm
  | range =>
      obtain ⟨l, -, hl⟩ := bind_eq_ok_iff.mp h
      cases hl
      exact (add_zero _).symm
  | addUsage d =>
      cases h
      rfl
  | _ =>
      cases h
      exact (add_zero _).symm

/-- The usage gets over the ceiling only by an action that raises it.
Source: `internal/cache/engine.go` `Engine`; `internal/cache/policy.go` `Tunable`
Kind: L -/
theorem exec_raises {fuel : ℕ} {ceiling : ℤ} {a : Action} {w w' : World S} {r : a.Answer}
    (h : exec fuel a w = .ok (r, w')) (hover : ceiling < w'.cache.usage) :
    ceiling < w.cache.usage ∨ Raises ⟨a, r⟩ := by
  rw [exec_usage h] at hover
  cases a with
  | addUsage d =>
      by_cases hd : 0 < d
      · exact Or.inr hd
      · exact Or.inl (lt_of_lt_of_le hover (add_le_of_nonpos_right (not_lt.mp hd)))
  | _ => exact Or.inl (by simpa [due] using hover)

/-- An action that found the usage under the ceiling leaves it there.
Source: `internal/cache/engine.go` `Engine`; `internal/cache/policy.go` `Tunable`
Kind: L -/
theorem exec_foundUnder {fuel : ℕ} {ceiling : ℤ} {a : Action} {w w' : World S} {r : a.Answer}
    (h : exec fuel a w = .ok (r, w')) (hfits : FoundUnder ceiling ⟨a, r⟩) :
    ¬ceiling < w'.cache.usage := by
  cases a with
  | loadUsage =>
      cases h
      exact not_lt.mpr hfits
  | _ => exact hfits.elim

/-- What the steady calls keep, and what they are told.
Source: `internal/cache/cache.go` `Cache`
Kind: L -/
theorem exec_regime {fuel : ℕ} {ceiling : ℤ} {a : Action} (ha : Keeping a) {w w' : World S}
    {r : a.Answer} (hw : w.cache.maxmemory = ceiling ∧ w.cache.evictPol ≠ .noEviction)
    (h : exec fuel a w = .ok (r, w')) :
    (w'.cache.maxmemory = ceiling ∧ w'.cache.evictPol ≠ .noEviction) ∧ Regime ceiling ⟨a, r⟩ := by
  obtain ⟨htuning, htold⟩ := exec_tuning h
  have hmax : w'.cache.maxmemory = (tune a w.cache.tuning).maxmemory :=
    congrArg Tuning.maxmemory htuning
  have hpol : w'.cache.evictPol = (tune a w.cache.tuning).evictPol :=
    congrArg Tuning.evictPol htuning
  rw [hmax, hpol]
  cases a with
  | storeMaxmemory bytes => exact ha.elim
  | storeEvictPol p => exact ⟨⟨hw.1, ha⟩, trivial⟩
  | loadMaxmemory => exact ⟨hw, Eq.trans htold hw.1⟩
  | loadEvictPol => exact ⟨hw, fun hr => hw.2 (Eq.trans (Eq.symm htold) hr)⟩
  | _ => exact ⟨hw, trivial⟩

/-- **The ceiling holds at rest.** Any number of clients, any interleaving of their atomic actions,
on a cache with a ceiling and a policy that evicts: when no client is in the middle of a call, the
cost of the stored entries is at most the ceiling, or one of the `Set`s that have returned gave
up, after more than `maxEvictMisses` samples in which it met no key but its own.
Source: `internal/cache/cache.go` `Set`; `internal/cache/evict.go` `evictUntilUnder`, `pickVictim`
Kind: P
Fidelity: exact -/
theorem ceiling_at_rest {ι : Type} [Fintype ι] [DecidableEq ι] (host : Host S)
    (hasher : S → Bytes → UInt64) (opts : List (CacheOpt S))
    (hhost : host.gomaxprocs * 4 ≤ 2 ^ 62)
    (hopts : ∀ n, CacheOpt.withShards n ∈ opts → n ≤ 2 ^ 62)
    (hpos : 0 < (Cache.new host hasher opts).maxmemory)
    (hevicts : (Cache.new host hasher opts).evictPol ≠ .noEviction) (env : Env) (fuel : ℕ)
    (log : List (Found.Event ι Action Action.Answer Reply))
    (s : Pool ι Action Action.Answer Reply (World S))
    (htrace : Pool.Trace (exec fuel) Steady
      ⟨⟨Cache.new host hasher opts, env⟩, fun _ => none⟩ log s)
    (hrest : ∀ i, s.threads i = none) :
    s.world.cache.maxmemory = (Cache.new host hasher opts).maxmemory ∧
      (storedCost s.world.cache ≤ s.world.cache.maxmemory ∨
        ∃ fuel' ctx key value ttl acts,
          Returned log ((Call.set ctx key value ttl).prog fuel') acts ∧ GaveUp key acts) := by
  set ceiling := (Cache.new host hasher opts).maxmemory with hceiling
  have hnew := holds_new host hasher opts hhost hopts
  obtain ⟨hkept, hregime⟩ : (s.world.cache.maxmemory = ceiling ∧
      s.world.cache.evictPol ≠ .noEviction) ∧
      ∀ x ∈ log.filterMap Event.action?, Regime ceiling x := by
    have hcalls : ∀ p, Steady p → p.Asks Keeping := by
      rintro _ ⟨fuel', c, hc⟩
      exact hc.asks fuel'
    obtain ⟨hkept, -, hregime⟩ := htrace.asks hcalls
      (fun a ha w r w' hw h => exec_regime ha hw h) ⟨hceiling.symm, hevicts⟩
    exact ⟨hkept, hregime⟩
  refine ⟨hkept.1, ?_⟩
  have hbalance : s.world.cache.usage = storedCost s.world.cache := by
    have hreach : Pool.Reachable (exec fuel) Startable
        ⟨⟨Cache.new host hasher opts, env⟩, fun _ => none⟩ s := by
      refine htrace.reachable ?_
      rintro _ ⟨fuel', c, -⟩
      exact .call fuel' c
    obtain ⟨-, hbal⟩ := Pool.balanced (fun w : World S => w.cache.usage)
      (fun w => storedCost w.cache) (fun w => ∃ f, w.cache.m.Represents f)
      (fun p hp => hp.settles) (fun a w r w' => exec_ledger fuel a w r w') ⟨∅, hnew.represents⟩
      (hnew.usage_eq.trans (storedCost_eq hnew.represents).symm) hreach
    have hb := hbal.balance
    simpa [hrest, Thread.pending] using hb
  rw [← hbalance, hkept.1]
  by_cases hover : ceiling < s.world.cache.usage
  · right
    have hstart : ¬ceiling < (Cache.new host hasher opts).usage := not_lt.mpr (le_of_lt hpos)
    rcases htrace.charged (fun a w r w' h => exec_raises h) (fun a w r w' h => exec_foundUnder h) hstart
      hover with ⟨i, th, acts, hi, -, -⟩ | ⟨p, acts, hacts, hcharged⟩
    · rw [hrest i] at hi
      cases hi
    · obtain ⟨hp, halong⟩ := htrace.of_returned hacts
      obtain ⟨fuel', c, hc⟩ := hp
      obtain ⟨_, hQ⟩ := halong _ (hc.charged hpos fuel')
      obtain ⟨ctx, key, value, ttl, rfl, hgave⟩ :=
        hQ (fun x hx => hregime x (hacts.action hx)) hcharged
      exact ⟨fuel', ctx, key, value, ttl, acts, hacts, hgave⟩
  · exact Or.inl (not_lt.mp hover)

set_option maxRecDepth 10000 in
/-- Two clients store under a ceiling that has room for one entry. Both have stored before either
looks at the counter; one of them evicts the other's entry.
Source: `internal/cache/cache.go` `Set`; `internal/cache/evict.go` `evictUntilUnder`
Kind: C -/
theorem ceiling_at_rest_racing :
    ∃ (log : List (Found.Event Bool Action Action.Answer Reply))
      (s : Pool Bool Action Action.Answer Reply (World Unit)),
      Pool.Trace (exec 9) Steady ⟨⟨Cache.new ⟨1, ()⟩ (fun _ _ => 0) [.withShards 1,
        .withMaxMemory 100, .withEvictionPolicy .allKeysRandom], stillEnv 0⟩, fun _ => none⟩ log s ∧
      s.world.cache.evictions = 1 ∧
      (storedCost s.world.cache ≤ s.world.cache.maxmemory ∨
        ∃ fuel' ctx key value ttl acts,
          Returned log ((Call.set ctx key value ttl).prog fuel') acts ∧ GaveUp key acts) := by
  have htrace : ∃ (log : List (Found.Event Bool Action Action.Answer Reply))
      (s : Pool Bool Action Action.Answer Reply (World Unit)),
      Pool.Trace (exec 9) Steady ⟨⟨Cache.new ⟨1, ()⟩ (fun _ _ => 0) [.withShards 1,
        .withMaxMemory 100, .withEvictionPolicy .allKeysRandom], stillEnv 0⟩, fun _ => none⟩ log s ∧
      s.world.cache.evictions = 1 ∧ s.threads false = none ∧ s.threads true = none :=
    ⟨_, _, .cons (.called _ false _ rfl (.call 9 (.set none [97] [1] 0) trivial)) <|
      .cons (.done _ false Action.loadMaxmemory _ _ _ _ rfl rfl) <|
      .cons (.done _ false Action.loadEvictPol _ _ _ _ rfl rfl) <|
      .cons (.done _ false (Action.swap [97] ⟨[1], zeroTime⟩) _ _ _ _ rfl rfl) <|
      .cons (.called _ true _ rfl (.call 9 (.set none [98] [1] 0) trivial)) <|
      .cons (.done _ true Action.loadMaxmemory _ _ _ _ rfl rfl) <|
      .cons (.done _ true Action.loadEvictPol _ _ _ _ rfl rfl) <|
      .cons (.done _ true (Action.swap [98] ⟨[1], zeroTime⟩) _ _ _ _ rfl rfl) <|
      .cons (.done _ false (Action.addUsage 66) _ _ _ _ rfl rfl) <|
      .cons (.done _ true (Action.addUsage 66) _ _ _ _ rfl rfl) <|
      .cons (.done _ true Action.loadUsage _ _ _ _ rfl rfl) <|
      .cons (.done _ true Action.loadUsage _ _ _ _ rfl rfl) <|
      .cons (.done _ true (Action.sample 5) _ _ _ _ rfl rfl) <|
      .cons (.done _ true (Action.delete [97]) _ _ _ _ rfl rfl) <|
      .cons (.done _ true (Action.addUsage (-66)) _ _ _ _ rfl rfl) <|
      .cons (.done _ true Action.addEvictions _ _ _ _ rfl rfl) <|
      .cons (.done _ true Action.loadUsage _ _ _ _ rfl rfl) <|
      .cons (.returned _ true _ _ rfl) <|
      .cons (.done _ false Action.loadUsage _ _ _ _ rfl rfl) <|
      .cons (.returned _ false _ _ rfl) .nil, rfl, rfl, rfl⟩
  obtain ⟨log, s, hs, hone, hfalse, htrue⟩ := htrace
  exact ⟨log, s, hs, hone, (ceiling_at_rest ⟨1, ()⟩ (fun _ _ => 0) [.withShards 1,
    .withMaxMemory 100, .withEvictionPolicy .allKeysRandom] (by decide) (by simp) (by decide)
    (by decide) (stillEnv 0) 9 log s hs (Bool.forall_bool.mpr ⟨hfalse, htrue⟩)).2⟩

end CacheMoney.Engine
