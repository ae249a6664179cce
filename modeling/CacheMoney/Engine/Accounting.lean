import CacheMoney.Found.Pool
import CacheMoney.Engine.Asks

/-!
# Byte accounting under concurrency

Any number of clients run the methods of the engine and bare eviction passes, interleaved action
by action. The byte counter is added to outside the shard locks, after the map operation that
decided the amount.

* `due`, `incur`: what an action adds to the counter, and what it changes in the stored bytes.
* `Call.prog_settles`: every method pays for each `Swap` and `Delete` with its next action.
* `usage_balanced`: so the counter and the pending amounts never drift from the stored bytes.
-/

set_option linter.unusedSectionVars false

namespace CacheMoney.Engine

open CacheMoney.Found CacheMoney.Shardmap

/-! ### The ledger of the engine -/

/-- What an action adds to the byte counter.
Source: `internal/cache/cache.go` `usage`
Kind: D -/
def due : Action → ℤ
  | .addUsage d => d
  | _ => 0

/-- What an action changes in the accounted cost of the stored entries.
Source: `internal/cache/cache.go` `Set`, `Del`; `internal/cache/evict.go` `evictUntilUnder`
Kind: D -/
def incur : (a : Action) → a.Answer → ℤ
  | .swap key e, old => costOf key e.value - Cache.foundCost key old
  | .delete key, old => -Cache.foundCost key old
  | _, _ => 0

/-- The accounted cost of all stored entries, expired ones included.
Source: `internal/cache/evict_test.go` `TestByteCounterEqualsRecomputedTruth`
Kind: D -/
def storedCost {S : Type} (c : Cache S) : ℤ :=
  (c.m.contents.map fun e => costOf e.1 e.2.value).sum

/-- The cost of the stored entries is the weight of the map.
Source: `internal/cache/evict_test.go` `TestByteCounterEqualsRecomputedTruth`
Kind: L -/
theorem storedCost_eq {S : Type} {c : Cache S} {f : FinMap Bytes Entry}
    (h : c.m.Represents f) : storedCost c = total f := by
  rw [storedCost, h.contents_eq]
  rfl

/-- Every action keeps the map well formed and moves counter and stored cost as the ledger says.
Source: `internal/cache/cache.go` `Cache`
Kind: L -/
theorem exec_ledger {S : Type} (fuel : ℕ) (a : Action) (w : World S) (r : a.Answer) (w' : World S)
    (hgood : ∃ f, w.cache.m.Represents f) (hexec : exec fuel a w = .ok (r, w')) :
    (∃ f, w'.cache.m.Represents f) ∧ w'.cache.usage = w.cache.usage + due a ∧
      storedCost w'.cache = storedCost w.cache + incur a r := by
  obtain ⟨f, hf⟩ := hgood
  have hsame : w'.cache.m = w.cache.m → incur a r = 0 → w'.cache.usage = w.cache.usage + due a →
      (∃ f, w'.cache.m.Represents f) ∧ w'.cache.usage = w.cache.usage + due a ∧
        storedCost w'.cache = storedCost w.cache + incur a r := by
    intro hm hincur husage
    refine ⟨⟨f, hm ▸ hf⟩, husage, ?_⟩
    rw [storedCost, storedCost, hm, hincur, add_zero]
  have hkept : w'.cache = w.cache → due a = 0 → incur a r = 0 →
      (∃ f, w'.cache.m.Represents f) ∧ w'.cache.usage = w.cache.usage + due a ∧
        storedCost w'.cache = storedCost w.cache + incur a r := by
    intro hc hdue hincur
    exact hsame (by rw [hc]) hincur (by rw [hc, hdue, add_zero])
  cases a with
  | swap key e =>
      obtain ⟨hr, m, -, hm, hw'⟩ := (exec_swap hf fuel key e).of_ok hexec
      simp only at hr hw'
      subst hr hw'
      refine ⟨⟨_, hm⟩, (add_zero _).symm, ?_⟩
      rw [storedCost_eq hf, storedCost_eq (c := { w.cache with m := m }) hm, total_insert]
      rfl
  | delete key =>
      obtain ⟨hr, m, -, hm, hw'⟩ := (exec_delete hf fuel key).of_ok hexec
      simp only at hr hw'
      subst hr hw'
      refine ⟨⟨_, hm⟩, (add_zero _).symm, ?_⟩
      rw [storedCost_eq hf, storedCost_eq (c := { w.cache with m := m }) hm, total_erase]
      rfl
  | get key =>
      obtain ⟨-, hw'⟩ := (exec_get hf fuel key).of_ok hexec
      exact hkept (congrArg World.cache hw') rfl rfl
  | sample n =>
      obtain ⟨-, rand, -, hw'⟩ := (exec_sample hf fuel n).of_ok hexec
      simp only at hw'
      exact hkept (by rw [hw']) rfl rfl
  | range =>
      obtain ⟨-, hw'⟩ := (exec_range hf fuel).of_ok hexec
      exact hkept (congrArg World.cache hw') rfl rfl
  | addUsage d =>
      cases hexec
      exact hsame rfl rfl rfl
  | _ =>
      cases hexec
      exact hsame rfl rfl (add_zero _).symm

/-! ### The methods settle -/

/-- Source: none
Kind: D -/
abbrev Settled {α : Type} (owed : ℤ) (p : CacheM α) : Prop := p.Settles due incur owed

/-- A program without actions settles nothing.
Source: none
Kind: L -/
theorem settled_pure {α : Type} (a : α) : Settled 0 (pure a) := rfl

/-- An action pays what is due, and leaves owed what it incurs.
Source: none
Kind: L -/
theorem settled_ask {α : Type} {a : Action} {next : a.Answer → CacheM α}
    (hnext : ∀ r, Settled (incur a r) (next r)) : Settled (due a) (ask a >>= next) :=
  ⟨rfl, hnext⟩

/-- A program settles nothing if none of its actions moves the counter or the stored cost.
Source: none
Kind: L -/
theorem settled_of_asks {α : Type} {p : CacheM α}
    (h : p.Asks fun a => due a = 0 ∧ ∀ r, incur a r = 0) : Settled 0 p := h.settles fun _ => id

/-- Reading moves neither the counter nor the stored cost.
Source: `internal/cache/cache.go` `Get`, `TTL`, `Len`
Kind: L -/
theorem Action.Reads.free {a : Action} (h : a.Reads) : due a = 0 ∧ ∀ r, incur a r = 0 := by
  cases a with
  | addUsage d => exact h.elim
  | swap key e => exact h.elim
  | delete key => exact h.elim
  | _ => exact ⟨rfl, fun _ => rfl⟩

/-- A method that only reads leaves nothing owed.
Source: `internal/cache/cache.go` `Get`, `TTL`, `Len`
Kind: L -/
theorem settled_of_reads {α : Type} {p : CacheM α} (h : p.Asks Action.Reads) : Settled 0 p :=
  settled_of_asks (h.mono fun _ => Action.Reads.free)

/-- An eviction pass pays for each victim it removed.
Source: `internal/cache/evict.go` `evictUntilUnder`
Kind: L -/
theorem evictUntilUnder_settles (fuel : ℕ) (ceiling : ℤ) (pol : EvictionPolicy) (exclude : Bytes)
    (hasExclude : Bool) :
    Settled 0 (Cache.evictUntilUnder fuel ceiling pol exclude hasExclude) := by
  have hpick : ∀ (cands : List (Bytes × Entry)) (best : Option (Bytes × UInt8)),
      Settled 0 (Cache.pickVictimLoop pol exclude hasExclude cands best) := by
    intro cands
    induction cands with
    | nil => exact fun best => settled_pure _
    | cons c cands ih =>
        intro best
        unfold Cache.pickVictimLoop
        split_ifs with hspared hrandom
        · exact ih best
        · exact settled_pure _
        · refine settled_ask (a := .estimate c.1) fun freq => ?_
          change Settled 0 _
          split_ifs with hbetter
          · exact ih _
          · exact ih _
  have hloop : ∀ (rounds misses : ℕ),
      Settled 0 (Cache.evictLoop ceiling pol exclude hasExclude rounds misses) := by
    intro rounds
    induction rounds with
    | zero => exact fun misses => rfl
    | succ rounds ih =>
        intro misses
        unfold Cache.evictLoop
        refine settled_ask (a := .loadUsage) fun usage => ?_
        change Settled 0 _
        by_cases hover : ceiling < usage
        · rw [if_pos hover]
          refine settled_ask (a := .sample Cache.sampleN) fun cands => ?_
          refine (hpick cands none).bind fun victim => ?_
          cases victim with
          | none =>
              simp only
              split_ifs with hgive
              · exact settled_pure _
              · exact ih _
          | some victim =>
              refine settled_ask (a := .delete victim) fun e => ?_
              refine Prog.Settles.bind ?_ fun _ => ih misses
              cases e with
              | none => exact settled_pure _
              | some e =>
                  exact settled_ask (a := .addUsage _) fun _ => ⟨rfl, fun _ => rfl⟩
        · rw [if_neg hover]
          exact settled_pure _
  exact hloop fuel 0

/-- Evicting leaves nothing owed.
Source: `internal/cache/evict.go` `evictUntilUnder`
Kind: L -/
theorem evictIfOver_settles (fuel : ℕ) (ceiling : ℤ) (pol : EvictionPolicy) (exclude : Bytes)
    (hasExclude : Bool) : Settled 0 (Cache.evictIfOver fuel ceiling pol exclude hasExclude) := by
  unfold Cache.evictIfOver
  split_ifs with hon
  · refine settled_ask (a := .loadUsage) fun usage => ?_
    change Settled 0 _
    split_ifs with hover
    · exact evictUntilUnder_settles fuel ceiling pol exclude hasExclude
    · exact settled_pure _
  · exact settled_pure _

/-- `Set` pays the difference that its `Swap` made.
Source: `internal/cache/cache.go` `Set`
Kind: L -/
theorem set_settles (fuel : ℕ) (ctx : Ctx) (key value : Bytes) (ttl : ℤ) :
    Settled 0 (Cache.set fuel ctx key value ttl) := by
  cases ctx with
  | some err => exact settled_pure _
  | none =>
      have hrejects : ∀ ceiling pol, Settled 0 (Cache.rejects ceiling pol key (costOf key value)) :=
        fun ceiling pol =>
          settled_of_asks (rejects_asks ⟨rfl, fun _ => rfl⟩ ⟨rfl, fun _ => rfl⟩ ceiling pol _)
      unfold Cache.set
      refine (settled_of_asks (expiry_asks ⟨rfl, fun _ => rfl⟩ ttl)).bind fun expiresAt => ?_
      refine settled_ask (a := .loadMaxmemory) fun ceiling => ?_
      refine settled_ask (a := .loadEvictPol) fun pol => ?_
      refine (hrejects ceiling pol).bind fun oom => ?_
      cases oom with
      | true => exact settled_pure _
      | false =>
          refine settled_ask (a := .swap key ⟨value, expiresAt⟩) fun old => ?_
          refine settled_ask (a := .addUsage _) fun _ => ?_
          exact (evictIfOver_settles fuel ceiling pol key true).bind fun _ => settled_pure _

/-- `Del` gives back the cost of what it removed.
Source: `internal/cache/cache.go` `Del`
Kind: L -/
theorem del_settles (ctx : Ctx) (key : Bytes) : Settled 0 (Cache.del ctx key) := by
  cases ctx with
  | some err => exact settled_pure _
  | none =>
      refine settled_ask (a := .delete key) fun found => ?_
      cases found with
      | none => exact settled_pure _
      | some e =>
          refine settled_ask (a := .addUsage _) fun _ => ?_
          exact (settled_of_asks (expired_asks ⟨rfl, fun _ => rfl⟩ e)).bind fun _ => settled_pure _

/-- Deciding whether the tracker is active leaves nothing owed.
Source: `internal/cache/cache.go` `refreshActive`
Kind: L -/
theorem refreshActive_settles : Settled 0 Cache.refreshActive := by
  refine settled_ask (a := .loadEvictPol) fun pol => ?_
  change Settled 0 _
  split_ifs with hpol
  · exact settled_ask (a := .loadMaxmemory) fun _ => ⟨rfl, fun _ => rfl⟩
  · exact ⟨rfl, fun _ => rfl⟩

/-- `SetMaxMemory` leaves nothing owed.
Source: `internal/cache/cache.go` `SetMaxMemory`
Kind: L -/
theorem setMaxMemory_settles (fuel : ℕ) (bytes : ℤ) :
    Settled 0 (Cache.setMaxMemory fuel bytes) := by
  refine settled_ask (a := .storeMaxmemory bytes) fun _ => ?_
  refine settled_ask (a := .loadMaxmemory) fun mm => ?_
  refine settled_ask (a := .swapPolicyCounters _) fun old => ?_
  refine Prog.Settles.bind ?_ fun _ => refreshActive_settles.bind fun _ => ?_
  · unfold Cache.resizePolicy
    split_ifs with hne
    · exact settled_ask (a := .storeSketch _) fun _ => ⟨rfl, fun _ => rfl⟩
    · exact settled_pure _
  · unfold Cache.evictDown
    split_ifs with hpos
    · exact settled_ask (a := .loadEvictPol) fun pol => evictIfOver_settles fuel bytes pol [] false
    · exact settled_pure _

/-- Every method settles what it changes.
Source: `internal/cache/cache.go` `Cache`
Kind: L -/
theorem Call.prog_settles (fuel : ℕ) (c : Call) : Settled 0 (c.prog fuel) := by
  cases c with
  | get ctx key => exact (settled_of_reads (get_asks ctx key)).bind fun _ => settled_pure _
  | set ctx key value ttl => exact (set_settles fuel ctx key value ttl).bind fun _ => settled_pure _
  | del ctx key => exact (del_settles ctx key).bind fun _ => settled_pure _
  | ttl ctx key => exact (settled_of_reads (ttl_asks ctx key)).bind fun _ => settled_pure _
  | len ctx => exact (settled_of_reads (len_asks ctx)).bind fun _ => settled_pure _
  | setMaxMemory bytes => exact (setMaxMemory_settles fuel bytes).bind fun _ => settled_pure _
  | setEvictionPolicy p =>
      refine Prog.Settles.bind (p := Cache.setEvictionPolicy p) ?_ fun _ => settled_pure _
      exact settled_ask (a := .storeEvictPol p) fun _ => refreshActive_settles

/-! ### Clients -/

/-- What a client may start: a method, or an eviction pass of its own.
Source: `internal/cache/cache.go` `Cache`; `internal/cache/evict.go` `evictUntilUnder`
Kind: D -/
inductive Startable : CacheM Reply → Prop where
  | call (fuel : ℕ) (c : Call) : Startable (c.prog fuel)
  | pass (fuel : ℕ) (ceiling : ℤ) (pol : EvictionPolicy) (exclude : Bytes) (hasExclude : Bool) :
      Startable (do
        Cache.evictUntilUnder fuel ceiling pol exclude hasExclude
        pure .done)

/-- Every method of the cache leaves nothing owed.
Source: `internal/cache/cache.go` `Cache`; `internal/cache/evict.go` `evictUntilUnder`
Kind: L -/
theorem Startable.settles {p : CacheM Reply} (h : Startable p) : Settled 0 p := by
  cases h with
  | call fuel c => exact c.prog_settles fuel
  | pass fuel ceiling pol exclude hasExclude =>
      exact (evictUntilUnder_settles fuel ceiling pol exclude hasExclude).bind
        fun _ => settled_pure _

/-- **Byte accounting never drifts.** Any number of clients, any interleaving of their atomic
actions: the counter plus the amounts that completed `Swap`s and `Delete`s have decided but not
yet added is the cost of the stored entries, each such amount is added by its client's next
action, and when no client is in the middle of a call the counter is exact and not negative.
Source: `internal/cache/evict_test.go` `TestByteCounterExactUnderConcurrentSameKeyWrites`
Kind: P
Fidelity: exact -/
theorem usage_balanced {S ι : Type} [Fintype ι] [DecidableEq ι] (host : Host S)
    (hasher : S → Bytes → UInt64) (opts : List (CacheOpt S))
    (hhost : host.gomaxprocs * 4 ≤ 2 ^ 62)
    (hopts : ∀ n, CacheOpt.withShards n ∈ opts → n ≤ 2 ^ 62) (env : Env) (fuel : ℕ)
    (s : Pool ι Action Action.Answer Reply (World S))
    (hreach : Pool.Reachable (exec fuel) Startable
      ⟨⟨Cache.new host hasher opts, env⟩, fun _ => none⟩ s) :
    s.world.cache.usage + ∑ i, Thread.pending incur (s.threads i) = storedCost s.world.cache ∧
      (∀ i th, s.threads i = some th → Thread.pending incur (some th) ≠ 0 →
        ∃ next, th.prog = .act (.addUsage (Thread.pending incur (some th))) next) ∧
      ((∀ i, s.threads i = none) →
        s.world.cache.usage = storedCost s.world.cache ∧ 0 ≤ s.world.cache.usage) := by
  have hnew := holds_new host hasher opts hhost hopts
  obtain ⟨⟨f, hf⟩, hbal⟩ := Pool.balanced (fun w : World S => w.cache.usage)
    (fun w => storedCost w.cache) (fun w => ∃ f, w.cache.m.Represents f) (fun p hp => hp.settles)
    (fun a w r w' => exec_ledger fuel a w r w') ⟨∅, hnew.represents⟩
    (hnew.usage_eq.trans (storedCost_eq hnew.represents).symm) hreach
  refine ⟨hbal.balance, ?_, ?_⟩
  · rintro i ⟨prog, last⟩ hi hne
    have hset := hbal.settles i _ hi
    cases prog with
    | ret a => exact absurd hset hne
    | stop => exact absurd hset hne
    | act a next =>
        have hdue := hset.1
        cases a with
        | addUsage d =>
            refine ⟨next, ?_⟩
            rw [hdue]
            rfl
        | _ => exact absurd hdue hne
  · intro hidle
    have heq : s.world.cache.usage = storedCost s.world.cache := by
      have hb := hbal.balance
      simpa [hidle, Thread.pending] using hb
    refine ⟨heq, ?_⟩
    rw [heq, storedCost_eq hf]
    exact total_nonneg f

/-- One client has stored a key and another has deleted it again, and neither has told the counter.
Source: `internal/cache/evict_test.go` `TestByteCounterExactUnderConcurrentSameKeyWrites`
Kind: C -/
theorem usage_balanced_racing :
    ∃ s : Pool Bool Action Action.Answer Reply (World Unit),
      Pool.Reachable (exec 9) Startable
        ⟨⟨Cache.new ⟨1, ()⟩ (fun _ _ => 0) [.withShards 1], stillEnv 0⟩, fun _ => none⟩ s ∧
      Thread.pending incur (s.threads false) = 66 ∧ Thread.pending incur (s.threads true) = -66 ∧
      s.world.cache.usage + ∑ i, Thread.pending incur (s.threads i) =
        storedCost s.world.cache := by
  have hreach : ∃ s : Pool Bool Action Action.Answer Reply (World Unit),
      Pool.Reachable (exec 9) Startable
        ⟨⟨Cache.new ⟨1, ()⟩ (fun _ _ => 0) [.withShards 1], stillEnv 0⟩, fun _ => none⟩ s ∧
      Thread.pending incur (s.threads false) = 66 ∧
      Thread.pending incur (s.threads true) = -66 := by
    refine ⟨_, .tail (.tail (.tail (.tail (.tail (.tail .refl
      (.invoke _ false _ rfl (.call 9 (.set none [97] [1] 0))))
      (.act _ false .loadMaxmemory _ _ _ _ rfl rfl))
      (.act _ false .loadEvictPol _ _ _ _ rfl rfl))
      (.act _ false (.swap [97] ⟨[1], zeroTime⟩) _ _ _ _ rfl rfl))
      (.invoke _ true _ rfl (.call 9 (.del none [97]))))
      (.act _ true (.delete [97]) _ _ _ _ rfl rfl), ?_, ?_⟩
    · rfl
    · rfl
  obtain ⟨s, hs, hset, hdel⟩ := hreach
  exact ⟨s, hs, hset, hdel, (usage_balanced ⟨1, ()⟩ (fun _ _ => 0) [.withShards 1] (by decide)
    (by simp) (stillEnv 0) 9 s hs).1⟩

end CacheMoney.Engine
