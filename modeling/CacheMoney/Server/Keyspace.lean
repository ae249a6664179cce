import CacheMoney.Engine.Reference
import CacheMoney.Server.Sessions

/-!
# The server over a plain map

What the clients of a server see of its cache: a map of values with deadlines, behind the commands.
`Keyspace` is that map with a clock, a ceiling and a policy, and `Keyspace.answer` answers what the
handlers ask. It keeps to the regimes in which nothing is evicted: no ceiling, or `noeviction`, where
a write that does not fit is refused.

* `backend_models`: each method of the sharded cache does what the plain map does.
* `sessions_match_keyspace`: the clients of the cache get byte for byte the replies of the plain map.
-/

set_option linter.unusedSectionVars false

namespace CacheMoney.Server

open CacheMoney.Found CacheMoney.Resp CacheMoney.Shardmap
open CacheMoney.Engine (World Env Entry Record Reference Records Shows costOf)

/-! ### The plain map -/

/-- A map of values with deadlines, with its settings and the time.
Source: none
Kind: D -/
structure Keyspace extends Reference where
  now : ℤ

namespace Keyspace

/-- The cost of everything that is stored.
Source: none
Kind: D -/
def size (entries : FinMap Bytes Record) : ℤ := weight (fun k r => costOf k r.value) entries

/-- Nothing is ever evicted with these settings.
Source: none
Kind: D -/
def Quiet (ceiling : ℤ) (policy : Engine.EvictionPolicy) : Prop :=
  ceiling ≤ 0 ∨ policy = .noEviction

instance (ceiling : ℤ) (policy : Engine.EvictionPolicy) : Decidable (Quiet ceiling policy) :=
  inferInstanceAs (Decidable (_ ∨ _))

/-- The write would enlarge what is stored, and past the ceiling.
Source: none
Kind: D -/
def Full (k : Keyspace) (entries : FinMap Bytes Record) : Prop :=
  0 < k.ceiling ∧ size k.entries < size entries ∧ k.ceiling < size entries

instance (k : Keyspace) (entries : FinMap Bytes Record) : Decidable (k.Full entries) :=
  inferInstanceAs (Decidable (_ ∧ _ ∧ _))

/-- The map with other settings, if they are quiet.
Source: none
Kind: D -/
def tune (k : Keyspace) (ceiling : ℤ) (policy : Engine.EvictionPolicy) : Outcome (Unit × Keyspace) :=
  if Quiet ceiling policy then .ok ((), { k with ceiling := ceiling, policy := policy })
  else .error .outOfFuel

/-- What the map answers to a handler.
Source: none
Kind: D -/
def answer : (o : EngineOp) → Keyspace → Outcome (o.Answer × Keyspace)
  | .get key, k => .ok (.ok ((k.readable k.now key).map Record.value), k)
  | .set key value ttl, k =>
      let entries := k.entries.insert key ⟨value, Engine.deadlineOf k.now ttl.toInt⟩
      if k.Full entries then .ok (.error (engineErr .oom), k)
      else .ok (.ok (), { k with entries := entries })
  | .del key, k =>
      .ok (.ok (k.readable k.now key).isSome, { k with entries := k.entries.erase key })
  | .ttl key, k =>
      .ok (.ok ((k.readable k.now key).map fun r => Int64.ofInt (r.remaining k.now)), k)
  | .now, k => .ok (k.now, k)
  | .maxMemory, k => .ok (Int64.ofInt k.ceiling, k)
  | .setMaxMemory bytes, k => k.tune bytes.toInt k.policy
  | .evictionPolicy, k => .ok (k.policy, k)
  | .setEvictionPolicy p, k => k.tune k.ceiling p

end Keyspace

/-! ### The cache models it -/

variable {S : Type} {w : World S} {k : Keyspace}

/-- The cache holds what the map holds, with its settings, and its clock stands still at the time of
the map.
Source: none
Kind: D -/
structure Models (w : World S) (k : Keyspace) : Prop where
  shows : Shows w.cache k.toReference
  quiet : Keyspace.Quiet k.ceiling k.policy
  still : ∀ i, w.env.clock.read i = k.now
  epoch : 0 ≤ k.now

/-- The clock of the cache shows the time of the keyspace.
Source: none
Kind: L -/
theorem Models.head (h : Models w k) : w.env.clock.head = k.now := h.still _

/-- A kept cache is modelled as before.
Source: none
Kind: L -/
theorem Models.kept {w' : World S} (h : Models w k) (hk : w.Kept w') : Models w' k :=
  ⟨hk.shows h.shows, h.quiet, fun i => by rw [hk.clock_eq]; exact h.still i, h.epoch⟩

/-- The size of the keyspace is the cost of the stored entries.
Source: none
Kind: L -/
theorem size_eq_total {f : FinMap Bytes Entry} {g : FinMap Bytes Record} (h : Records f g) :
    Keyspace.size g = Engine.total f := by
  unfold Keyspace.size Engine.total weight
  rw [h, Multiset.map_map]
  rfl

/-- The write is refused by the cache exactly when the map is full.
Source: `internal/cache/cache.go` `Set`
Kind: L -/
theorem Models.full_iff {f : FinMap Bytes Entry} (h : Models w k) (hf : w.cache.Holds f)
    (hrec : Records f k.entries) (key value : Bytes) (ttl : ℤ) :
    k.Full (k.entries.insert key ⟨value, Engine.deadlineOf k.now ttl⟩) ↔
      (0 < w.cache.maxmemory ∧ w.cache.evictPol = .noEviction) ∧
        Engine.Overflows w.cache.maxmemory w.cache.usage key value (f.lookup key) := by
  have hins := hrec.insert key ⟨value, Engine.expiryAt k.now ttl⟩
  rw [Engine.record_expiryAt h.epoch] at hins
  unfold Keyspace.Full Engine.Overflows
  rw [size_eq_total hrec, size_eq_total hins, Engine.total_insert, hf.usage_eq, h.shows.ceiling_eq,
    h.shows.policy_eq]
  constructor
  · rintro ⟨hpos, hgrow, hover⟩
    refine ⟨⟨hpos, h.quiet.resolve_left (not_le.mpr hpos)⟩, ?_, hover⟩
    simp only at hgrow ⊢
    omega
  · rintro ⟨⟨hpos, -⟩, hgrow, hover⟩
    refine ⟨hpos, ?_, hover⟩
    simp only
    omega

/-- `Set`, on a map that is full and on one that is not.
Source: `internal/cache/cache.go` `Set`
Kind: L -/
theorem Models.set {f : FinMap Bytes Entry} (h : Models w k) (fuel : ℕ) (hf : w.cache.Holds f)
    (hrec : Records f k.entries) (key value : Bytes) (ttl : ℤ) :
    Ensures ((Engine.Cache.set fuel none key value ttl).run (Engine.exec fuel) w) fun y =>
      (k.Full (k.entries.insert key ⟨value, Engine.deadlineOf k.now ttl⟩) →
        y.1 = .error .oom ∧ Models y.2 k) ∧
      (¬k.Full (k.entries.insert key ⟨value, Engine.deadlineOf k.now ttl⟩) →
        y.1 = .ok () ∧ Models y.2
          { k with entries := k.entries.insert key ⟨value, Engine.deadlineOf k.now ttl⟩ }) := by
  have hins := hrec.insert key ⟨value, Engine.expiryAt k.now ttl⟩
  rw [Engine.record_expiryAt h.epoch] at hins
  refine (Engine.set_spec hf fuel key value ttl).mono ?_
  rintro y (⟨hout, hkept, hpos, hpol, hover⟩ | ⟨hout, hfits, f', hw⟩)
  · refine ⟨fun _ => ⟨hout, h.kept hkept⟩, fun hnot => absurd ?_ hnot⟩
    exact (h.full_iff hf hrec key value ttl).mpr ⟨⟨hpos, hpol⟩, hover⟩
  · refine ⟨fun hfull => absurd ((h.full_iff hf hrec key value ttl).mp hfull) hfits, fun _ => ?_⟩
    rw [h.head] at hw
    have hquiet := h.quiet
    unfold Keyspace.Quiet at hquiet
    rw [← h.shows.ceiling_eq, ← h.shows.policy_eq] at hquiet
    obtain rfl := hw.quiet hquiet
    refine ⟨hout, ⟨⟨_, hw.holds, hins⟩, hw.maxmemory_eq.trans h.shows.ceiling_eq,
      hw.evictPol_eq.trans h.shows.policy_eq⟩, h.quiet, fun i => ?_, h.epoch⟩
    rw [hw.clock_eq]
    exact h.still i

/-- Settings that are answered are quiet.
Source: `internal/cache/policy.go` `Tunable`
Kind: L -/
theorem Keyspace.tune_eq_ok {ceiling : ℤ} {policy : Engine.EvictionPolicy} {r : Unit}
    {k' : Keyspace} (h : k.tune ceiling policy = .ok (r, k')) :
    Keyspace.Quiet ceiling policy ∧ k' = { k with ceiling := ceiling, policy := policy } := by
  unfold Keyspace.tune at h
  split_ifs at h with hquiet
  cases h
  exact ⟨hquiet, rfl⟩

/-- Each method of the cache does what the plain map does.
Source: `internal/cache/cache.go` `Get`, `Set`, `Del`, `TTL`, `SetMaxMemory`, `SetEvictionPolicy`
Kind: L -/
theorem backend_models (fuel : ℕ) (o : EngineOp) (w : World S) (k : Keyspace) (r : o.Answer)
    (k' : Keyspace) (h : Models w k) (hanswer : k.answer o = .ok (r, k')) :
    Ensures (backend fuel o w) fun y => y.1 = r ∧ Models y.2 k' := by
  obtain ⟨f, hf, hrec⟩ := h.shows.holds
  cases o with
  | get key =>
      cases hanswer
      refine Ensures.bind (Engine.get_spec hf key) ?_
      rintro ⟨out, w'⟩ ⟨hout, hkept⟩
      simp only [h.head] at hout hkept
      refine ⟨?_, h.kept hkept⟩
      rw [hout, hrec.readable, Option.map_map]
      rfl
  | ttl key =>
      cases hanswer
      refine Ensures.bind (Engine.ttl_spec hf key) ?_
      rintro ⟨out, w'⟩ ⟨hout, hkept⟩
      have hnext : w.env.clock.tail.head = k.now := h.still _
      simp only [h.head, hnext] at hout hkept
      refine ⟨?_, h.kept hkept⟩
      have hleft := congrArg (Option.map Int64.ofInt) (hrec.remaining k.now key)
      rw [Option.map_map] at hleft
      rw [hout]
      exact congrArg Except.ok hleft.symm
  | del key =>
      cases hanswer
      refine Ensures.bind (Engine.del_spec hf key) ?_
      rintro ⟨out, w'⟩ ⟨hout, hholds, hmm, hpol, hclock⟩
      simp only [h.head] at hout hholds hmm hpol hclock
      refine ⟨?_, ⟨⟨f.erase key, hholds, hrec.erase key⟩, hmm.trans h.shows.ceiling_eq,
        hpol.trans h.shows.policy_eq⟩, h.quiet, fun i => ?_, h.epoch⟩
      · rw [hout, hrec.readable, Option.isSome_map]
        rfl
      · rw [hclock]
        exact h.still i
  | set key value ttl =>
      refine Ensures.bind (h.set fuel hf hrec key value ttl.toInt) ?_
      rintro ⟨out, w'⟩ hset
      unfold Keyspace.answer at hanswer
      simp only at hanswer
      split_ifs at hanswer with hfull
      · cases hanswer
        obtain ⟨rfl, hmodels⟩ := hset.1 hfull
        exact ⟨rfl, hmodels⟩
      · cases hanswer
        obtain ⟨rfl, hmodels⟩ := hset.2 hfull
        exact ⟨rfl, hmodels⟩
  | now =>
      cases hanswer
      exact ⟨h.head, h.kept ⟨rfl, rfl, rfl, rfl, rfl, rfl⟩⟩
  | maxMemory =>
      cases hanswer
      refine ⟨?_, h⟩
      rw [h.shows.ceiling_eq]
  | evictionPolicy =>
      cases hanswer
      exact ⟨h.shows.policy_eq, h⟩
  | setMaxMemory bytes =>
      obtain ⟨hquiet, rfl⟩ := Keyspace.tune_eq_ok hanswer
      refine (Engine.setMaxMemory_spec hf fuel bytes.toInt).mono ?_
      rintro y ⟨f', hret⟩
      obtain rfl := hret.quiet (hquiet.imp_right h.shows.policy_eq.trans)
      refine ⟨rfl, ⟨⟨f', hret.holds, hrec⟩, hret.maxmemory_eq,
        hret.evictPol_eq.trans h.shows.policy_eq⟩, hquiet, fun i => ?_, h.epoch⟩
      rw [hret.clock_eq]
      exact h.still i
  | setEvictionPolicy p =>
      obtain ⟨hquiet, rfl⟩ := Keyspace.tune_eq_ok hanswer
      refine (Engine.setEvictionPolicy_spec hf p).mono ?_
      rintro y ⟨hholds, hmm, hpol, hclock⟩
      refine ⟨rfl, ⟨⟨f, hholds, hrec⟩, hmm.trans h.shows.ceiling_eq, hpol⟩, hquiet, fun i => ?_,
        h.epoch⟩
      rw [hclock]
      exact h.still i

/-! ### Sessions -/

variable {ι : Type} [DecidableEq ι]

/-- The plain map reads the time.
Source: none
Kind: D -/
def Keyspace.turn (env : Env) (k : Keyspace) : Keyspace := { k with now := env.clock.head }

/-- During the command the clock stands still, at or after the epoch.
Source: none
Kind: D -/
def Visit.Still (v : Visit ι) : Prop := ∃ now, 0 ≤ now ∧ ∀ i, v.env.clock.read i = now

/-- At the beginning of a command both get the time of the command.
Source: none
Kind: L -/
theorem models_turn (hshows : Shows w.cache k.toReference)
    (hquiet : Keyspace.Quiet k.ceiling k.policy) {v : Visit ι} (hv : v.Still) :
    Models (World.turn v.env w) (Keyspace.turn v.env k) := by
  obtain ⟨now, hnow, hclock⟩ := hv
  have hhead : v.env.clock.head = now := hclock _
  refine ⟨hshows, hquiet, fun i => ?_, ?_⟩
  · exact (hclock i).trans hhead.symm
  · exact hnow.trans hhead.ge

/-- A session over the cache is the session over the plain map.
Source: `internal/server/dispatch.go` `dispatch`
Kind: L -/
theorem attend_models (fuel : ℕ) (visits : List (Visit ι)) : ∀ {w : World S} {k k' : Keyspace}
    {conns conns' : ι → Conn}, Shows w.cache k.toReference → Keyspace.Quiet k.ceiling k.policy →
    (∀ v ∈ visits, v.Still) →
    attend (fun o k => k.answer o) Keyspace.turn visits conns k = .ok (conns', k') →
    Ensures (attend (backend fuel) World.turn visits conns w) fun y =>
      y.1 = conns' ∧ Shows y.2.cache k'.toReference := by
  induction visits with
  | nil =>
      intro w k k' conns conns' hshows _ _ hrun
      cases hrun
      exact ⟨rfl, hshows⟩
  | cons v visits ih =>
      intro w k k' conns conns' hshows hquiet hstill hrun
      have hmodels := models_turn hshows hquiet (hstill v List.mem_cons_self)
      unfold attend at hrun ⊢
      obtain ⟨⟨close, c, k₁⟩, hdispatch, hrest⟩ := bind_eq_ok_iff.mp hrun
      refine (Script.simulates (backend_models fuel) hmodels hdispatch).bind ?_
      rintro ⟨close', c', w₁⟩ ⟨rfl, rfl, hmodels₁⟩
      exact ih hmodels₁.shows hmodels₁.quiet
        (fun v' hv' => hstill v' (List.mem_cons_of_mem _ hv')) hrest

/-- The plain map behind a new cache.
Source: `internal/cache/cache.go` `New`
Kind: D -/
def Keyspace.new (opts : List (Engine.CacheOpt S)) : Keyspace := ⟨Reference.new opts, 0⟩

/-- **The server is a plain map.** Over a new cache, sharded in any way, with any hash that tells the
arguments apart: whatever the clients, their commands and their order, with one clock reading per
command, at or after the epoch. If the settings allow no eviction, at the start and after every
change, then with enough fuel the session returns, every connection ends byte for byte as over the
plain map, whatever the random draws and the frequency estimates were, and the cache stores the pairs
of the plain map.
Source: `internal/server/dispatch.go` `dispatch`; `internal/server/commands.go` `cmdGet`, `cmdSet`,
`cmdDel`, `cmdExists`, `replyTTL`; `internal/cache/cache.go` `Cache`
Kind: P
Fidelity: exact -/
theorem sessions_match_keyspace (host : Host S) (hasher : S → Bytes → UInt64)
    (opts : List (Engine.CacheOpt S)) (hhost : host.gomaxprocs * 4 ≤ 2 ^ 62)
    (hopts : ∀ n, Engine.CacheOpt.withShards n ∈ opts → n ≤ 2 ^ 62)
    (hquiet : Keyspace.Quiet (Keyspace.new opts).ceiling (Keyspace.new opts).policy)
    (visits : List (Visit ι)) (hstill : ∀ v ∈ visits, v.Still)
    (hinj : Set.InjOn (Engine.Cache.new host hasher opts).m.hash {k | ∃ v ∈ visits, k ∈ v.args})
    (conns conns' : ι → Conn) (hready : ∀ i, (conns i).Ready) (k : Keyspace)
    (hrun : attend (fun o k => k.answer o) Keyspace.turn visits conns (Keyspace.new opts) =
      .ok (conns', k)) (env : Env) :
    ∃ w, (∃ fuel₀, ∀ fuel ≥ fuel₀, attend (backend fuel) World.turn visits conns
        ⟨Engine.Cache.new host hasher opts, env⟩ = .ok (conns', w)) ∧
      w.cache.m.contents.map (fun e => (e.1, e.2.record)) = pairs k.entries := by
  have htame := Engine.tame_new host hasher opts hhost hopts env hinj
  have hshows : Shows (Engine.Cache.new host hasher opts) (Reference.new opts) :=
    ⟨⟨∅, Engine.holds_new host hasher opts hhost hopts, rfl⟩, rfl, rfl⟩
  obtain ⟨⟨conns₁, w⟩, -, fuel₀, hend⟩ :=
    attend_converges visits htame (fun v hv k hk => ⟨v, hv, hk⟩) hready
  obtain ⟨rfl, hw⟩ := (attend_models fuel₀ visits
    (w := ⟨Engine.Cache.new host hasher opts, env⟩) (k := Keyspace.new opts) hshows hquiet hstill
    hrun).of_ok (hend fuel₀ le_rfl)
  obtain ⟨f, hf, hrec⟩ := hw.holds
  refine ⟨w, ⟨fuel₀, hend⟩, ?_⟩
  rw [hf.represents.contents_eq]
  exact hrec.symm

/-- The two clients get `OK` and `1`.
Source: `internal/server/commands_test.go` `TestExistsVariadicCountsPresentWithDuplicates`
Kind: C -/
theorem sessions_match_keyspace_two :
    ∃ conns', (conns' true).w.out = text "+OK\r\n" ∧ (conns' false).w.out = text ":1\r\n" ∧
      ∃ w fuel₀, ∀ fuel ≥ fuel₀, attend (backend fuel) World.turn twoVisits
        (fun _ => newConn ⟨[], true⟩ 1)
        ⟨Engine.Cache.new ⟨1, ()⟩ (fun _ b => UInt64.ofNat b.length) [], clocked fun _ => 0⟩ =
          .ok (conns', w) := by
  have hrun : ∃ y, attend (fun o k => k.answer o) Keyspace.turn twoVisits
      (fun _ => newConn ⟨[], true⟩ 1) (Keyspace.new (S := Unit) []) = .ok y ∧
      (y.1 true).w.out = text "+OK\r\n" ∧ (y.1 false).w.out = text ":1\r\n" := ⟨_, rfl, rfl, rfl⟩
  obtain ⟨⟨conns', k⟩, hrun, htrue, hfalse⟩ := hrun
  have hstill : ∀ v ∈ twoVisits, v.Still := by
    simp only [twoVisits, List.forall_mem_cons, List.not_mem_nil, false_implies, implies_true,
      and_true]
    exact ⟨⟨0, le_rfl, fun _ => rfl⟩, ⟨1, by decide, fun _ => rfl⟩⟩
  obtain ⟨w, ⟨fuel₀, hend⟩, -⟩ := sessions_match_keyspace ⟨1, ()⟩ (fun _ b => UInt64.ofNat b.length)
    [] (by decide) nofun (Or.inl (by decide)) twoVisits hstill injOn_twoVisits
    (fun _ => newConn ⟨[], true⟩ 1) conns' (fun _ => ⟨rfl, rfl, Or.inl rfl⟩) k hrun
    (clocked fun _ => 0)
  exact ⟨conns', htrue, hfalse, w, fuel₀, hend⟩

end CacheMoney.Server
