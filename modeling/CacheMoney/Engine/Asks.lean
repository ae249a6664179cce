import CacheMoney.Engine.Actions

/-!
# What each method may do

The actions that a method can perform at all, whatever it is answered. What an action of one kind
leaves alone, a method of that kind leaves alone, so one walk through each method serves every
property of this form: the ledger of `Accounting`, the stages of `Tuning`, the readings of
`Admission` and the calm calls of `AtRest`.

* `Action.Reads`, `Action.Removes`, `Action.Evicts`: the actions of `Get`, `TTL` and `Len`, of
  `Del`, and of an eviction pass.
* `get_asks`, `ttl_asks`, `len_asks`, `del_asks`, `evictIfOver_asks`: the methods keep to them.
-/

namespace CacheMoney.Engine

open CacheMoney.Found CacheMoney.Shardmap

/-- Looks at the map and the clock, and counts the call.
Source: `internal/cache/cache.go` `Get`, `TTL`, `Len`
Kind: D -/
def Action.Reads : Action → Prop
  | .now | .get _ | .range | .record _ | .addHits | .addMisses => True
  | _ => False

/-- Removes an entry and gives back its cost.
Source: `internal/cache/cache.go` `Del`
Kind: D -/
def Action.Removes : Action → Prop
  | .now | .delete _ => True
  | .addUsage d => d ≤ 0
  | _ => False

/-- Looks for a victim, and removes it.
Source: `internal/cache/evict.go` `evictUntilUnder`
Kind: D -/
def Action.Evicts : Action → Prop
  | .loadUsage | .sample _ | .estimate _ | .delete _ | .addEvictions => True
  | .addUsage d => d ≤ 0
  | _ => False

section checks

variable {P : Action → Prop}

/-- An action of the kind, before what keeps to it.
Source: none
Kind: L -/
theorem asks_act {α : Type} {a : Action} {next : a.Answer → CacheM α} (ha : P a)
    (hnext : ∀ r, (next r).Asks P) : (ask a >>= next).Asks P := ⟨ha, hnext⟩

/-- The expiry check reads the clock at most.
Source: `internal/cache/cache.go` `expired`
Kind: L -/
theorem expired_asks (hnow : P .now) (e : Entry) : (Cache.expired e).Asks P := by
  unfold Cache.expired
  split_ifs with hz
  · trivial
  · exact ⟨hnow, fun _ => trivial⟩

/-- Computing a deadline reads the clock at most.
Source: `internal/cache/cache.go` `Set`
Kind: L -/
theorem expiry_asks (hnow : P .now) (ttl : ℤ) : (Cache.expiry ttl).Asks P := by
  unfold Cache.expiry
  split_ifs with hpos
  · exact ⟨hnow, fun _ => trivial⟩
  · trivial

/-- The admission check reads the incumbent and the counter at most.
Source: `internal/cache/cache.go` `Set`
Kind: L -/
theorem rejects_asks {key : Bytes} (hget : P (.get key)) (husage : P .loadUsage) (ceiling : ℤ)
    (pol : EvictionPolicy) (newCost : ℤ) : (Cache.rejects ceiling pol key newCost).Asks P := by
  unfold Cache.rejects
  split_ifs with hguard
  · refine asks_act hget fun old => ?_
    split_ifs with hgrow
    · exact ⟨husage, fun _ => trivial⟩
    · trivial
  · trivial

end checks

/-- `Get` reads.
Source: `internal/cache/cache.go` `Get`
Kind: L -/
theorem get_asks (ctx : Ctx) (key : Bytes) : (Cache.get ctx key).Asks Action.Reads := by
  have hmiss : Cache.miss.Asks Action.Reads := ⟨trivial, fun _ => trivial⟩
  cases ctx with
  | some err => trivial
  | none =>
      refine ⟨trivial, fun found => ?_⟩
      cases found with
      | none => exact hmiss
      | some e =>
          refine (expired_asks trivial e).bind fun dead => ?_
          cases dead with
          | true => exact hmiss
          | false => exact ⟨trivial, fun _ => ⟨trivial, fun _ => trivial⟩⟩

/-- `TTL` reads.
Source: `internal/cache/cache.go` `TTL`
Kind: L -/
theorem ttl_asks (ctx : Ctx) (key : Bytes) : (Cache.ttl ctx key).Asks Action.Reads := by
  cases ctx with
  | some err => trivial
  | none =>
      refine ⟨trivial, fun found => ?_⟩
      cases found with
      | none => trivial
      | some e =>
          refine (expired_asks trivial e).bind fun dead => ?_
          split_ifs with hdead hz
          · trivial
          · trivial
          · exact ⟨trivial, fun _ => trivial⟩

/-- Counting the live entries reads.
Source: `internal/cache/cache.go` `Len`
Kind: L -/
theorem countLive_asks (entries : List (Bytes × Entry)) :
    ∀ count, (Cache.countLive entries count).Asks Action.Reads := by
  induction entries with
  | nil => exact fun _ => trivial
  | cons x entries ih =>
      intro count
      refine (expired_asks trivial x.2).bind fun dead => ?_
      cases dead with
      | true => exact ih count
      | false => exact ih (count + 1)

/-- `Len` reads.
Source: `internal/cache/cache.go` `Len`
Kind: L -/
theorem len_asks (ctx : Ctx) : (Cache.len ctx).Asks Action.Reads := by
  cases ctx with
  | some err => trivial
  | none => exact ⟨trivial, fun entries => (countLive_asks entries 0).bind fun _ => trivial⟩

/-- A cost is never negative.
Source: `internal/cache/cost.go` `costOf`
Kind: L -/
theorem costOf_nonneg (key value : Bytes) : 0 ≤ costOf key value := Int.natCast_nonneg _

/-- `Del` removes.
Source: `internal/cache/cache.go` `Del`
Kind: L -/
theorem del_asks (ctx : Ctx) (key : Bytes) : (Cache.del ctx key).Asks Action.Removes := by
  cases ctx with
  | some err => trivial
  | none =>
      refine ⟨trivial, fun found => ?_⟩
      cases found with
      | none => trivial
      | some e =>
          refine ⟨Int.neg_nonpos_of_nonneg (costOf_nonneg key e.value), fun _ => ?_⟩
          exact (expired_asks trivial e).bind fun _ => trivial

/-- Choosing a victim estimates the candidates.
Source: `internal/cache/evict.go` `pickVictim`
Kind: L -/
theorem pickVictimLoop_asks (pol : EvictionPolicy) (exclude : Bytes) (hasExclude : Bool)
    (cands : List (Bytes × Entry)) :
    ∀ best, (Cache.pickVictimLoop pol exclude hasExclude cands best).Asks Action.Evicts := by
  induction cands with
  | nil => exact fun _ => trivial
  | cons x cands ih =>
      intro best
      unfold Cache.pickVictimLoop
      split_ifs with hspared hrandom
      · exact ih best
      · trivial
      · refine asks_act trivial fun f => ?_
        split_ifs with hbest
        · exact ih _
        · exact ih best

/-- A victim's cost is given back.
Source: `internal/cache/evict.go` `evictUntilUnder`
Kind: L -/
theorem settleVictim_asks (victim : Bytes) (found : Option Entry) :
    (Cache.settleVictim victim found).Asks Action.Evicts := by
  cases found with
  | none => trivial
  | some e =>
      refine ⟨Int.neg_nonpos_of_nonneg (costOf_nonneg victim e.value), fun _ => ?_⟩
      exact ⟨trivial, fun _ => trivial⟩

/-- The rounds of an eviction pass look for victims and remove them.
Source: `internal/cache/evict.go` `evictUntilUnder`
Kind: L -/
theorem evictLoop_asks (ceiling : ℤ) (pol : EvictionPolicy) (exclude : Bytes) (hasExclude : Bool)
    (rounds : ℕ) : ∀ misses,
      (Cache.evictLoop ceiling pol exclude hasExclude rounds misses).Asks Action.Evicts := by
  induction rounds with
  | zero => exact fun _ => trivial
  | succ rounds ih =>
      intro misses
      refine asks_act trivial fun usage => ?_
      by_cases hover : ceiling < usage
      · rw [if_pos hover]
        refine asks_act trivial fun cands => ?_
        refine (pickVictimLoop_asks pol exclude hasExclude cands none).bind fun victim => ?_
        cases victim with
        | none =>
            dsimp only
            split_ifs with hgive
            · trivial
            · exact ih _
        | some victim =>
            refine asks_act trivial fun found => ?_
            exact (settleVictim_asks victim found).bind fun _ => ih _
      · rw [if_neg hover]
        trivial

/-- The eviction of `Set` looks for victims and removes them.
Source: `internal/cache/evict.go` `evictUntilUnder`
Kind: L -/
theorem evictIfOver_asks (fuel : ℕ) (ceiling : ℤ) (pol : EvictionPolicy) (exclude : Bytes)
    (hasExclude : Bool) :
    (Cache.evictIfOver fuel ceiling pol exclude hasExclude).Asks Action.Evicts := by
  unfold Cache.evictIfOver
  split_ifs with hguard
  · refine asks_act trivial fun usage => ?_
    split_ifs with hover
    · exact evictLoop_asks ceiling pol exclude hasExclude fuel 0
    · trivial
  · trivial

end CacheMoney.Engine
