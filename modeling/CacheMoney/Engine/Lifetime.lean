import CacheMoney.Engine.Reference

/-!
# Where an entry comes from

The clock may move between any two readings, so a run is no longer one of the reference; what
survives is where every stored entry comes from.

* `Cache.Holds.call_lookup`: a call keeps an entry, removes it, or is the `Set` that stored it.
* `Effect.lookup_eq`: without a ceiling, only a `Set` or a `Del` of the key changes its entry.
* `Tracked.run`: after every run, the entry of a key is the one of the last successful `Set` of that
  key, with the deadline counted from the reading of that call.
* `get_returns`, `ttl_returns`: the reads return; what `TTL` returns is given by the entry and two
  readings.
-/

set_option linter.unusedSectionVars false

namespace CacheMoney.Engine

open CacheMoney.Found CacheMoney.Shardmap

variable {S : Type} {w : World S} {f : FinMap Bytes Entry} {fuel : ℕ}

/-- The entry found under `k` after a call was there before and the call did not settle `k`, or the
call is the `Set` that stored it.
Source: none
Kind: D -/
def Handed (now : ℤ) (c : Call) (out : Reply) (f f' : FinMap Bytes Entry) : Prop :=
  ∀ k e, f'.lookup k = some e →
    (f.lookup k = some e ∧ ¬(⟨now, c, out⟩ : Did).Settles k) ∨
      ∃ ttl, c = .set none k e.value ttl ∧ out = .stored (.ok ()) ∧ e.expiresAt = expiryAt now ttl

/-- A call that stores and removes nothing hands the map on as it was.
Source: none
Kind: L -/
theorem handed_same {now : ℤ} {c : Call} {out : Reply} (hset : ∀ k v ttl, c = .set none k v ttl →
    out ≠ .stored (.ok ())) (hdel : ∀ k, c ≠ .del none k) : Handed now c out f f := by
  intro k e he
  refine Or.inl ⟨he, ?_⟩
  rintro (⟨v, ttl, hcall, hreply⟩ | hcall)
  · exact hset k v ttl hcall hreply
  · exact hdel k hcall

/-- Removing entries afterwards leaves those that were handed on.
Source: none
Kind: L -/
theorem Handed.trimmed {now : ℤ} {c : Call} {out : Reply} {f' f'' : FinMap Bytes Entry}
    (h : Handed now c out f f') {removed : Finset Bytes}
    (htrim : ∀ k, f''.lookup k = if k ∈ removed then none else f'.lookup k) :
    Handed now c out f f'' := by
  intro k e he
  rw [htrim k] at he
  by_cases hrem : k ∈ removed
  · rw [if_pos hrem] at he
    cases he
  · rw [if_neg hrem] at he
    exact h k e he

/-- A `Set` that succeeds hands on the map with its entry.
Source: none
Kind: L -/
theorem handed_insert (now : ℤ) (key value : Bytes) (ttl : ℤ) :
    Handed now (.set none key value ttl) (.stored (.ok ())) f
      (f.insert key ⟨value, expiryAt now ttl⟩) := by
  intro k e he
  by_cases hk : k = key
  · subst hk
    rw [Finmap.lookup_insert] at he
    cases he
    exact Or.inr ⟨ttl, rfl, rfl, rfl⟩
  · rw [Finmap.lookup_insert_of_ne _ hk] at he
    exact Or.inl ⟨he, by simp [Did.Settles, Ne.symm hk]⟩

/-- A `Del` hands on the map without the key.
Source: none
Kind: L -/
theorem handed_erase (now : ℤ) (key : Bytes) (out : Reply) :
    Handed now (.del none key) out f (f.erase key) := by
  intro k e he
  by_cases hk : k = key
  · subst hk
    rw [Finmap.lookup_erase] at he
    cases he
  · rw [Finmap.lookup_erase_ne hk] at he
    exact Or.inl ⟨he, by simp [Did.Settles, Ne.symm hk]⟩

/-- What one call does to the stored entries, with a clock that may move.
Source: `internal/cache/cache.go` `Cache`
Kind: L -/
theorem Cache.Holds.call_lookup (h : w.cache.Holds f) (c : Call) :
    Ensures (Engine.call fuel w c) fun x =>
      ∃ f', x.2.cache.Holds f' ∧ Handed w.env.clock.head c x.1 f f' := by
  refine (h.call_effect c).mono ?_
  rintro ⟨out, w'⟩ ⟨f', hf', -, -, heffect⟩
  refine ⟨f', hf', ?_⟩
  cases heffect with
  | kept out hc =>
      refine handed_same ?_ ?_
      · rintro k v ttl rfl
        exact absurd rfl hc
      · rintro k rfl
        exact absurd rfl hc
  | rejected ttl hrej => exact handed_same (by simp) (by simp)
  | stored hrej htrim hquiet =>
      obtain ⟨removed, -, htrim⟩ := htrim
      exact (handed_insert _ _ _ _).trimmed htrim
  | deleted key out => exact handed_erase _ key out
  | retuned htrim hquiet =>
      obtain ⟨removed, htrim⟩ := htrim
      exact (handed_same (by simp) (by simp)).trimmed htrim

/-- Without a ceiling nothing is evicted: a call that does not write the key leaves its entry.
Source: `internal/cache/cache.go` `Cache`
Kind: L -/
theorem Effect.lookup_eq {c : Call} {out : Reply} {f' : FinMap Bytes Entry}
    (heffect : Effect w f c out f') (hunset : w.cache.maxmemory ≤ 0)
    (hceiling : c.ceiling w.cache.maxmemory ≤ 0) {key : Bytes}
    (hset : ∀ value ttl, c ≠ .set none key value ttl) (hdel : c ≠ .del none key) :
    f'.lookup key = f.lookup key := by
  cases heffect with
  | kept out hc => rfl
  | rejected ttl hrej => rfl
  | @stored k value ttl _ hrej htrim hquiet =>
      have hk : key ≠ k := by
        rintro rfl
        exact hset value ttl rfl
      rw [hquiet (Or.inl hunset), Finmap.lookup_insert_of_ne _ hk]
  | deleted k out =>
      have hk : key ≠ k := by
        rintro rfl
        exact hdel rfl
      rw [Finmap.lookup_erase_ne hk]
  | retuned htrim hquiet => rw [hquiet (Or.inl hceiling)]

/-- Every stored entry is that of the last successful `Set` of its key.
Source: none
Kind: D -/
def Tracked (hist : List Did) (f : FinMap Bytes Entry) : Prop :=
  ∀ k e, f.lookup k = some e → LastSet hist k e.record

/-- A call keeps the entries tracked by the history.
Source: none
Kind: L -/
theorem Tracked.call {hist : List Did} {f' : FinMap Bytes Entry} (h : Tracked hist f) {now : ℤ}
    (hnow : 0 ≤ now) {c : Call} {out : Reply} (hc : Handed now c out f f') :
    Tracked (hist ++ [⟨now, c, out⟩]) f' := by
  intro k e he
  rcases hc k e he with ⟨he', hd⟩ | ⟨ttl, rfl, rfl, hexp⟩
  · exact (h k e he').snoc hd
  · have hrec : e.record = ⟨e.value, deadlineOf now ttl⟩ := by
      rw [← record_expiryAt hnow, ← hexp]
    rw [hrec]
    exact ⟨hist, now, ttl, [], rfl, rfl, by simp⟩

/-- The run lemma: a run whose clock never shows a time before the epoch.
Source: `internal/cache/cache.go` `Cache`
Kind: P -/
theorem Tracked.run (turns : List Turn) :
    ∀ {w : World S} {f : FinMap Bytes Entry} {hist : List Did}, w.cache.Holds f →
      Tracked hist f → (∀ t ∈ turns, ∀ i, 0 ≤ t.env.clock.read i) →
      Ensures (run fuel w turns) fun x =>
        ∃ f', x.2.cache.Holds f' ∧ Tracked (hist ++ x.1) f' := by
  induction turns with
  | nil =>
      intro w f hist h htrack _
      refine ⟨f, h, ?_⟩
      rw [List.append_nil]
      exact htrack
  | cons t turns ih =>
      intro w f hist h htrack hepoch
      unfold Engine.run
      refine Ensures.bind (Cache.Holds.call_lookup (w := { w with env := t.env }) h t.call) ?_
      rintro ⟨out, w'⟩ ⟨f', hf', hhanded⟩
      have hnow : 0 ≤ t.env.clock.head := hepoch t List.mem_cons_self _
      refine (ih hf' (htrack.call hnow hhanded)
        fun t' ht' => hepoch t' (List.mem_cons_of_mem _ ht')).bind ?_
      rintro ⟨dids, w''⟩ ⟨f'', hf'', htrack''⟩
      refine ⟨f'', hf'', ?_⟩
      rw [List.append_assoc] at htrack''
      exact htrack''

/-- The last `Set` of a key in a history is unique.
Source: none
Kind: L -/
theorem eq_of_lastSet_tail {k : Bytes} {pre post post' : List Did} {now now' ttl ttl' : ℤ}
    {x y : Record}
    (h : (⟨now, .set none k x.value ttl, .stored (.ok ())⟩ : Did) :: post =
      pre ++ ⟨now', .set none k y.value ttl', .stored (.ok ())⟩ :: post')
    (hpost : ∀ d ∈ post, ¬d.Settles k) (hx : x.deadline = deadlineOf now ttl)
    (hy : y.deadline = deadlineOf now' ttl') : x = y := by
  cases pre with
  | nil =>
      simp only [List.nil_append, List.cons.injEq, Did.mk.injEq, Call.set.injEq] at h
      obtain ⟨⟨rfl, ⟨-, -, hvalue, rfl⟩, -⟩, -⟩ := h
      obtain ⟨xv, xd⟩ := x
      obtain ⟨yv, yd⟩ := y
      simp only at hvalue hx hy
      rw [hvalue, hx, hy]
  | cons d pre =>
      -- The other `Set` would come after the last one.
      obtain ⟨-, rfl⟩ := List.cons.inj h
      exact absurd (Or.inl ⟨y.value, ttl', rfl, rfl⟩)
        (hpost _ (List.mem_append_right pre List.mem_cons_self))

/-- There is one last successful `Set`.
Source: none
Kind: L -/
theorem LastSet.unique {hist : List Did} {k : Bytes} {x y : Record} (hx : LastSet hist k x)
    (hy : LastSet hist k y) : x = y := by
  obtain ⟨pre, now, ttl, post, h, hdx, hpost⟩ := hx
  obtain ⟨pre', now', ttl', post', h', hdy, hpost'⟩ := hy
  rcases List.append_eq_append_iff.mp (h.symm.trans h') with ⟨mid, -, hmid⟩ | ⟨mid, -, hmid⟩
  · exact eq_of_lastSet_tail hmid hpost hdx hdy
  · exact (eq_of_lastSet_tail hmid hpost' hdy hdx).symm

/-! ### Reading the time left -/

/-- What `TTL` returns for a record, with one reading for the check and one for the subtraction.
Source: `internal/cache/cache.go` `TTL`
Kind: D -/
def Record.timeLeft (r : Record) (checked read : ℤ) : Option ℤ :=
  match r.deadline with
  | none => some (-1)
  | some d => if checked < d then some (timeSub d read) else none

/-- A difference of times is positive if the first is later, saturated or not.
Source: `internal/cache/cache.go` `TTL`
Kind: L -/
theorem timeSub_pos_iff {t u : ℤ} : 0 < timeSub t u ↔ u < t := by
  unfold timeSub minDuration maxDuration
  omega

/-- A difference of times fits 64 bits.
Source: `internal/cache/cache.go` `TTL`
Kind: L -/
theorem timeSub_bounds (t u : ℤ) : -2 ^ 63 ≤ timeSub t u ∧ timeSub t u < 2 ^ 63 := by
  unfold timeSub minDuration maxDuration
  omega

/-- A lookup returns with fuel for one probe sequence.
Source: `internal/shardmap/map.go` `Get`
Kind: L -/
theorem exec_get_returns (h : w.cache.Holds f) (hfuel : 256 ≤ fuel) (key : Bytes) :
    exec fuel (.get key) w = .ok (f.lookup key, w) := by
  change (w.cache.m.get fuel key >>= fun e => pure (e, w)) = _
  rw [h.represents.get_returns hfuel key]
  rfl

/-- `Get` returns.
Source: `internal/cache/cache.go` `Get`
Kind: P -/
theorem get_returns (h : w.cache.Holds f) (hfuel : 256 ≤ fuel) (key : Bytes) :
    Returns ((Cache.get none key).run (exec fuel) w) fun r =>
      r.1 = .ok (((f.lookup key).bind (liveAt w.env.clock.head)).map Entry.value) := by
  suffices hret : Returns ((Cache.get none key).run (exec fuel) w) fun _ => True from
    (hret.and (get_spec h key)).mono fun r hr => hr.2.1
  unfold Cache.get ask
  rw [Prog.run_bind, Prog.run_perform, exec_get_returns h hfuel, ok_bind]
  cases f.lookup key with
  | none => exact ⟨_, rfl, trivial⟩
  | some e =>
      simp only
      rw [Prog.run_bind, run_expired, ok_bind]
      cases e.deadAt w.env.clock.head with
      | true => exact ⟨_, rfl, trivial⟩
      | false => exact ⟨_, rfl, trivial⟩

/-- `TTL` returns.
Source: `internal/cache/cache.go` `TTL`
Kind: P -/
theorem ttl_returns (h : w.cache.Holds f) (hfuel : 256 ≤ fuel) (key : Bytes) :
    Returns ((Cache.ttl none key).run (exec fuel) w) fun r =>
      r.1 = .ok ((f.lookup key).bind fun e =>
        e.record.timeLeft w.env.clock.head w.env.clock.tail.head) := by
  unfold Cache.ttl ask
  rw [Prog.run_bind, Prog.run_perform, exec_get_returns h hfuel, ok_bind]
  cases f.lookup key with
  | none => exact ⟨_, rfl, rfl⟩
  | some e =>
      simp only [Option.bind_some]
      rw [Prog.run_bind, run_expired, ok_bind]
      unfold Entry.deadAt Record.timeLeft Entry.record
      by_cases hz : e.expiresAt = zeroTime
      · simp only [hz, decide_true, Bool.not_true, Bool.false_and, if_true]
        exact ⟨_, rfl, rfl⟩
      · simp only [hz, decide_false, Bool.not_false, Bool.true_and, if_false]
        by_cases hlive : w.env.clock.head < e.expiresAt
        · simp only [hlive, decide_true, Bool.not_true, if_true]
          exact ⟨_, rfl, rfl⟩
        · simp only [hlive, decide_false, Bool.not_false, if_true, if_false]
          exact ⟨_, rfl, rfl⟩

end CacheMoney.Engine
