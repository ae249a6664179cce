import CacheMoney.Found.Apart
import CacheMoney.Engine.Asks

/-!
# Live reconfiguration under concurrency

`SetMaxMemory` and `SetEvictionPolicy` store their own field and then recompute what depends on
both fields: whether the frequency recorder is active, and the size of its sketch. Each load and
each store is a step of its own, so a call can publish what it computed from values that another
call has replaced since.

* `Tuning`, `tune`: the fields in question and what the actions do to them.
* `Stage`: what a setter has read and not published yet. `Stage.allows` and `Stage.after` are the
  order of the actions inside the two methods (`Reconfigures.follows`).
* `Debts`: derived state is right, or some client is on its way to put it right.
* `reconfiguration_kept`: it is right at the end of every run in which no setter stores a field
  between another one's load of it and the store of the result (`staleWindow`).
* `reconfiguration_lost`: two runs without that condition.
-/

set_option linter.unusedSectionVars false

namespace CacheMoney.Engine

open CacheMoney.Found CacheMoney.Shardmap

variable {S ι : Type} [DecidableEq ι]

/-! ### The tuned fields -/

/-- The fields of `Cache` that the setters write.
Source: `internal/cache/cache.go` `SetMaxMemory`, `SetEvictionPolicy`
Kind: D -/
structure Tuning where
  maxmemory : ℤ
  evictPol : EvictionPolicy
  policyCounters : ℤ
  sketch : ℤ
  active : Bool

/-- Source: `internal/cache/cache.go` `Cache`
Kind: D -/
def Cache.tuning (c : Cache S) : Tuning :=
  ⟨c.maxmemory, c.evictPol, c.policyCounters, c.sketch, c.active⟩

/-- Whether the recorder is to be active.
Source: `internal/cache/cache.go` `refreshActive`
Kind: D -/
def Tuning.wanted (t : Tuning) : Bool := decide (t.evictPol = .allKeysLFU ∧ 0 < t.maxmemory)

/-- What an action does to the tuned fields.
Source: `internal/cache/cache.go` `SetMaxMemory`, `SetEvictionPolicy`
Kind: D -/
def tune : Action → Tuning → Tuning
  | .storeMaxmemory b, t => { t with maxmemory := b }
  | .storeEvictPol p, t => { t with evictPol := p }
  | .swapPolicyCounters n, t => { t with policyCounters := n }
  | .storeSketch n, t => { t with sketch := n }
  | .setActive on, t => { t with active := on }
  | _, t => t

/-- What the answer of an action says about the tuned fields.
Source: `internal/cache/cache.go` `SetMaxMemory`, `SetEvictionPolicy`
Kind: D -/
def Told : (a : Action) → a.Answer → Tuning → Prop
  | .loadMaxmemory, r, t => r = t.maxmemory
  | .loadEvictPol, r, t => r = t.evictPol
  | .swapPolicyCounters _, r, t => r = t.policyCounters
  | _, _, _ => True

/-- An action changes the settings as its name says, and tells them as they are.
Source: `internal/cache/cache.go` `SetMaxMemory`, `SetEvictionPolicy`
Kind: L -/
theorem exec_tuning {fuel : ℕ} {a : Action} {w w' : World S} {r : a.Answer}
    (h : exec fuel a w = .ok (r, w')) :
    w'.cache.tuning = tune a w.cache.tuning ∧ Told a r w.cache.tuning := by
  cases a with
  | get key =>
      obtain ⟨e, -, he⟩ := bind_eq_ok_iff.mp h
      cases he
      exact ⟨rfl, trivial⟩
  | swap key e =>
      obtain ⟨m, -, hm⟩ := bind_eq_ok_iff.mp h
      cases hm
      exact ⟨rfl, trivial⟩
  | delete key =>
      obtain ⟨m, -, hm⟩ := bind_eq_ok_iff.mp h
      cases hm
      exact ⟨rfl, trivial⟩
  | sample n =>
      obtain ⟨m, -, hm⟩ := bind_eq_ok_iff.mp h
      cases hm
      exact ⟨rfl, trivial⟩
  | range =>
      obtain ⟨l, -, hl⟩ := bind_eq_ok_iff.mp h
      cases hl
      exact ⟨rfl, trivial⟩
  | _ =>
      cases h
      exact ⟨rfl, by first | rfl | trivial⟩

/-! ### The stages of a setter -/

/-- Where a client stands in a setter.
Source: `internal/cache/cache.go` `SetMaxMemory`, `SetEvictionPolicy`
Kind: D -/
inductive Stage where
  /-- In no setter, before its store, or after `SetActive`. -/
  | idle
  /-- The ceiling is stored and the sketch size not computed yet. -/
  | stored
  /-- The sketch size is computed and not yet swapped in. -/
  | sized (counters : ℤ)
  /-- The size was swapped in and differs from the old one. -/
  | resizing (counters : ℤ)
  /-- The policy is to be loaded for `refreshActive`. -/
  | refreshing
  /-- `refreshActive` has read allkeys-lfu. -/
  | lfu
  /-- `refreshActive` knows what to publish. -/
  | publishing (on : Bool)

/-- An action of the setters, loads apart.
Source: `internal/cache/cache.go` `SetMaxMemory`, `SetEvictionPolicy`
Kind: D -/
def Action.tunes : Action → Bool
  | .storeMaxmemory _ | .storeEvictPol _ | .swapPolicyCounters _ | .storeSketch _
  | .storeDoorkeeper _ | .setActive _ => true
  | _ => false

/-- Source: `internal/cache/cache.go` `SetMaxMemory`, `SetEvictionPolicy`, `refreshActive`
Kind: D -/
def Stage.allows : Stage → Action → Prop
  | .idle, .storeMaxmemory _ => True
  | .idle, .storeEvictPol _ => True
  | .idle, a => a.tunes = false
  | .stored, a => a = .loadMaxmemory
  | .sized c, a => a = .swapPolicyCounters c
  | .resizing c, a => a = .storeSketch c
  | .refreshing, a => a = .loadEvictPol ∨ ∃ c, a = .storeDoorkeeper c
  | .lfu, a => a = .loadMaxmemory
  | .publishing on, a => a = .setActive on

/-- Source: `internal/cache/cache.go` `SetMaxMemory`, `SetEvictionPolicy`, `refreshActive`
Kind: D -/
def Stage.after : Stage → (a : Action) → a.Answer → Stage
  | .idle, .storeMaxmemory _, _ => .stored
  | .idle, .storeEvictPol _, _ => .refreshing
  | .stored, .loadMaxmemory, mm => .sized (countersFor mm)
  | .sized c, .swapPolicyCounters _, old => if c ≠ old then .resizing c else .refreshing
  | .resizing _, .storeSketch _, _ => .refreshing
  | .refreshing, .storeDoorkeeper _, _ => .refreshing
  | .refreshing, .loadEvictPol, pol => if pol = .allKeysLFU then .lfu else .publishing false
  | .lfu, .loadMaxmemory, mm => .publishing (decide (0 < mm))
  | _, _, _ => .idle

/-- Source: `internal/cache/cache.go` `SetMaxMemory`, `SetEvictionPolicy`
Kind: D -/
def setter : Typestate Action Action.Answer Stage where
  allowed := Stage.allows
  after := Stage.after
  answers := fun _ _ => True
  halts := fun m => m = .idle

/-- A program that begins outside the setters and ends there.
Source: none
Kind: D -/
abbrev Keeps {α : Type} (p : CacheM α) : Prop := p.Follows setter (fun _ m => m = .idle) .idle

/-- A program without an action of the setters begins and ends outside them.
Source: none
Kind: L -/
theorem keeps_of_asks {α : Type} {p : CacheM α} (h : p.Asks fun a => a.tunes = false) :
    Keeps p := by
  refine h.follows (I := (· = Stage.idle)) (fun _ hm => hm) ?_ ?_ rfl
  · rintro _ rfl a ha
    cases a <;> first | exact ha | cases ha
  · rintro _ rfl a r ha
    cases a <;> first | rfl | cases ha

/-- Two programs in sequence that begin and end outside the setters.
Source: none
Kind: L -/
theorem keeps_bind {α β : Type} {p : CacheM α} {f : α → CacheM β} (hp : Keeps p)
    (hf : ∀ a, Keeps (f a)) : Keeps (p >>= f) := by
  refine Prog.Follows.bind hp ?_
  rintro a m rfl
  exact hf a

/-- An eviction pass is no part of the setters' stages.
Source: `internal/cache/evict.go` `evictUntilUnder`
Kind: L -/
theorem Action.Evicts.tunes {a : Action} (h : a.Evicts) : a.tunes = false := by
  cases a <;> first | rfl | exact h.elim

/-- Evicting down to a new ceiling stays outside the setters.
Source: `internal/cache/evict.go` `evictUntilUnder`
Kind: L -/
theorem evictDown_keeps (fuel : ℕ) (bytes : ℤ) : Keeps (Cache.evictDown fuel bytes) := by
  unfold Cache.evictDown
  split_ifs with hpos
  · refine keeps_of_asks (asks_act rfl fun pol => ?_)
    exact (evictIfOver_asks fuel bytes pol [] false).mono fun _ => Action.Evicts.tunes
  · rfl

/-- `refreshActive` loads, loads and publishes.
Source: `internal/cache/cache.go` `refreshActive`
Kind: L -/
theorem refreshActive_follows :
    Cache.refreshActive.Follows setter (fun _ m => m = .idle) .refreshing := by
  refine ⟨.inl rfl, fun pol _ => ?_⟩
  change Prog.Follows setter _ (if pol = .allKeysLFU then .lfu else .publishing false)
    (if pol = .allKeysLFU then _ else _)
  split_ifs with hpol
  · exact ⟨rfl, fun mm _ => ⟨rfl, fun _ _ => rfl⟩⟩
  · exact ⟨rfl, fun _ _ => rfl⟩

/-- `SetMaxMemory` goes through the stages of a setter in order.
Source: `internal/cache/cache.go` `SetMaxMemory`
Kind: L -/
theorem setMaxMemory_keeps (fuel : ℕ) (bytes : ℤ) : Keeps (Cache.setMaxMemory fuel bytes) := by
  refine ⟨trivial, fun _ _ => ⟨rfl, fun mm _ => ⟨rfl, fun old _ => ?_⟩⟩⟩
  have hresize : (Cache.resizePolicy (countersFor mm) old).Follows setter
      (fun _ m => m = .refreshing)
      (if countersFor mm ≠ old then .resizing (countersFor mm) else .refreshing) := by
    unfold Cache.resizePolicy
    split_ifs with hne
    · exact ⟨rfl, fun _ _ => ⟨.inr ⟨_, rfl⟩, fun _ _ => rfl⟩⟩
    · rfl
  change Prog.Follows setter _ _ (Cache.resizePolicy (countersFor mm) old >>= fun _ =>
    Cache.refreshActive >>= fun _ => Cache.evictDown fuel bytes)
  refine Prog.Follows.bind hresize ?_
  rintro _ m rfl
  refine Prog.Follows.bind refreshActive_follows ?_
  rintro _ m rfl
  exact evictDown_keeps fuel bytes

/-- The programs of the clients.
Source: `internal/cache/policy.go` `Tunable`
Kind: D -/
inductive Reconfigures : CacheM Reply → Prop where
  | setMaxMemory (fuel : ℕ) (bytes : ℤ) : Reconfigures ((Call.setMaxMemory bytes).prog fuel)
  | setEvictionPolicy (fuel : ℕ) (p : EvictionPolicy) :
      Reconfigures ((Call.setEvictionPolicy p).prog fuel)

/-- Both setters go through their stages in order.
Source: `internal/cache/policy.go` `Tunable`
Kind: L -/
theorem Reconfigures.follows {p : CacheM Reply} (h : Reconfigures p) : Keeps p := by
  cases h with
  | setMaxMemory fuel bytes => exact keeps_bind (setMaxMemory_keeps fuel bytes) fun _ => rfl
  | setEvictionPolicy fuel pol =>
      refine keeps_bind ?_ fun _ => rfl
      exact ⟨trivial, fun _ _ => refreshActive_follows⟩

/-! ### What is right and who will put it right -/

/-- What a client has read is still so.
Source: `internal/cache/cache.go` `SetMaxMemory`, `refreshActive`
Kind: D -/
def Stage.Honest (t : Tuning) : Stage → Prop
  | .sized c => c = countersFor t.maxmemory
  | .resizing c => c = countersFor t.maxmemory ∧ t.policyCounters = c
  | .lfu => t.evictPol = .allKeysLFU
  | .publishing on => on = t.wanted
  | _ => True

/-- The action overwrites what a client at this stage has read.
Source: `internal/cache/cache.go` `SetMaxMemory`, `SetEvictionPolicy`
Kind: D -/
def Stage.Overwrites : Stage → Action → Prop
  | .sized _, .storeMaxmemory _ => True
  | .resizing _, .storeMaxmemory _ => True
  | .lfu, .storeMaxmemory _ => True
  | .lfu, .storeEvictPol _ => True
  | .publishing _, .storeMaxmemory _ => True
  | .publishing _, .storeEvictPol _ => True
  | _, _ => False

/-- A stage before the sketch size is swapped in.
Source: `internal/cache/cache.go` `SetMaxMemory`
Kind: D -/
def Stage.Unsized : Stage → Prop
  | .stored => True
  | .sized _ => True
  | _ => False

/-- Source: `internal/cache/cache.go` `SetMaxMemory`
Kind: D -/
def Stage.Resizing : Stage → Prop
  | .resizing _ => True
  | _ => False

/-- A stage before `SetActive`.
Source: `internal/cache/cache.go` `refreshActive`
Kind: D -/
def Stage.Busy : Stage → Prop
  | .idle => False
  | _ => True

/-- Nobody works on a stale reading, and derived state that is not right is some client's to do.
Source: `internal/cache/cache.go` `SetMaxMemory`, `SetEvictionPolicy`
Kind: D -/
structure Debts (μ : ι → Stage) (t : Tuning) : Prop where
  honest : ∀ j, (μ j).Honest t
  active : t.active = t.wanted ∨ ∃ j, (μ j).Busy
  counters : t.policyCounters = countersFor t.maxmemory ∨ ∃ j, (μ j).Unsized
  sketch : t.sketch = t.policyCounters ∨ ∃ j, (μ j).Resizing

/-- A store that overwrites nobody's reading leaves everybody honest.
Source: `internal/cache/cache.go` `SetMaxMemory`, `SetEvictionPolicy`
Kind: L -/
theorem Stage.Honest.tune {m : Stage} {t : Tuning} {a : Action} (h : m.Honest t)
    (hclear : ¬m.Overwrites a) (hswap : ∀ c, a = .swapPolicyCounters c → c = countersFor t.maxmemory) :
    m.Honest (Engine.tune a t) := by
  cases a with
  | storeMaxmemory b =>
      cases m <;> first | trivial | exact absurd trivial hclear
  | storeEvictPol p =>
      cases m <;> first | trivial | exact h | exact absurd trivial hclear
  | swapPolicyCounters c =>
      cases m with
      | resizing c' => exact ⟨h.1, (hswap c rfl).trans h.1.symm⟩
      | _ => exact h
  | _ => cases m <;> exact h

/-- A debt that a client leaves, pays or takes over.
Source: none
Kind: L -/
theorem owed_update {P : Stage → Prop} {ok ok' : Prop} {μ : ι → Stage} {i : ι} {m₀ m : Stage}
    (h : ok ∨ ∃ j, P (μ j)) (hμ : μ i = m₀) (hok : ok → ok' ∨ P m) (hi : P m₀ → ok' ∨ P m) :
    ok' ∨ ∃ j, P (Function.update μ i m j) := by
  have hmine : ok' ∨ P m → ok' ∨ ∃ j, P (Function.update μ i m j) :=
    Or.imp_right fun hm => ⟨i, by rw [Function.update_self]; exact hm⟩
  rcases h with h | ⟨j, hj⟩
  · exact hmine (hok h)
  · by_cases hji : j = i
    · subst hji
      exact hmine (hi (hμ ▸ hj))
    · exact .inr ⟨j, by rw [Function.update_of_ne hji]; exact hj⟩

/-- A debt that is the client's own after its action.
Source: none
Kind: L -/
theorem owed_mine {P : Stage → Prop} {ok : Prop} {μ : ι → Stage} {i : ι} {m : Stage} (hm : P m) :
    ok ∨ ∃ j, P (Function.update μ i m j) :=
  .inr ⟨i, by rw [Function.update_self]; exact hm⟩

/-- A debt that is not the client's before its action is untouched.
Source: none
Kind: L -/
theorem owed_others {P : Stage → Prop} {ok : Prop} {μ : ι → Stage} {i : ι} {m₀ m : Stage}
    (h : ok ∨ ∃ j, P (μ j)) (hμ : μ i = m₀) (hi : ¬P m₀) :
    ok ∨ ∃ j, P (Function.update μ i m j) :=
  owed_update h hμ .inl fun hmine => absurd hmine hi

/-- What is swapped in is the size for the current limit.
Source: `internal/cache/cache.go` `SetMaxMemory`
Kind: L -/
theorem Debts.size_of_swap {μ : ι → Stage} {t : Tuning} (h : Debts μ t) {i : ι} {c : ℤ}
    (ha : (μ i).allows (.swapPolicyCounters c)) : c = countersFor t.maxmemory := by
  have hi := h.honest i
  generalize μ i = m at ha hi
  cases m with
  | sized c' =>
      cases ha
      exact hi
  | refreshing => rcases ha with ha | ⟨_, ha⟩ <;> cases ha
  | _ => cases ha

/-- The other clients stay honest, so everybody does if the client itself is.
Source: none
Kind: L -/
theorem Debts.honest_update {μ : ι → Stage} {t : Tuning} (h : Debts μ t) {i : ι} {a : Action}
    (ha : (μ i).allows a) (hclear : ∀ j, j ≠ i → ¬(μ j).Overwrites a) (m : Stage)
    (hm : m.Honest (tune a t)) (j : ι) : (Function.update μ i m j).Honest (tune a t) := by
  by_cases hji : j = i
  · subst hji
    rw [Function.update_self]
    exact hm
  · rw [Function.update_of_ne hji]
    apply (h.honest j).tune (hclear j hji)
    rintro c rfl
    exact h.size_of_swap ha

/-- One action of a setter pays a debt, or makes one of its own.
Source: `internal/cache/cache.go` `SetMaxMemory`, `SetEvictionPolicy`
Kind: L -/
theorem Debts.step {μ : ι → Stage} {t : Tuning} (h : Debts μ t) {i : ι} {a : Action} {r : a.Answer}
    (ha : (μ i).allows a) (hr : Told a r t) (hclear : ∀ j, j ≠ i → ¬(μ j).Overwrites a) :
    Debts (Function.update μ i ((μ i).after a r)) (tune a t) := by
  have hhonest := h.honest_update ha hclear
  have hi := h.honest i
  cases hμ : μ i with
  | idle =>
      rw [hμ] at ha
      cases a with
      | storeMaxmemory b =>
          exact ⟨hhonest .stored trivial, owed_mine trivial, owed_mine trivial,
            owed_others h.sketch hμ id⟩
      | storeEvictPol p =>
          exact ⟨hhonest .refreshing trivial, owed_mine trivial,
            owed_others h.counters hμ id, owed_others h.sketch hμ id⟩
      | swapPolicyCounters c => cases ha
      | storeSketch c => cases ha
      | storeDoorkeeper c => cases ha
      | setActive on => cases ha
      | _ =>
          exact ⟨hhonest .idle trivial, owed_others h.active hμ id,
            owed_others h.counters hμ id, owed_others h.sketch hμ id⟩
  | stored =>
      rw [hμ] at ha
      cases ha
      obtain rfl : r = t.maxmemory := hr
      exact ⟨hhonest (.sized _) rfl, owed_mine trivial, owed_mine trivial,
        owed_others h.sketch hμ id⟩
  | sized c =>
      rw [hμ] at ha hi
      cases ha
      obtain rfl : r = t.policyCounters := hr
      change Debts (Function.update μ i (if c ≠ t.policyCounters then .resizing c else .refreshing)) _
      split_ifs with hne
      · exact ⟨hhonest (.resizing c) ⟨hi, rfl⟩, owed_mine trivial, .inl hi, owed_mine trivial⟩
      · exact ⟨hhonest .refreshing trivial, owed_mine trivial, .inl hi,
          owed_update h.sketch hμ (fun hsk => .inl (hsk.trans (not_not.mp hne).symm)) False.elim⟩
  | resizing c =>
      rw [hμ] at ha hi
      cases ha
      exact ⟨hhonest .refreshing trivial, owed_mine trivial,
        owed_others h.counters hμ id, .inl hi.2.symm⟩
  | refreshing =>
      rw [hμ] at ha
      rcases ha with rfl | ⟨c, rfl⟩
      · obtain rfl : r = t.evictPol := hr
        change Debts (Function.update μ i
          (if t.evictPol = .allKeysLFU then .lfu else .publishing false)) _
        split_ifs with hlfu
        · exact ⟨hhonest .lfu hlfu, owed_mine trivial,
            owed_others h.counters hμ id, owed_others h.sketch hμ id⟩
        · exact ⟨hhonest (.publishing false) (decide_eq_false fun hw => hlfu hw.1).symm,
            owed_mine trivial, owed_others h.counters hμ id, owed_others h.sketch hμ id⟩
      · exact ⟨hhonest .refreshing trivial, owed_mine trivial,
          owed_others h.counters hμ id, owed_others h.sketch hμ id⟩
  | lfu =>
      rw [hμ] at ha hi
      cases ha
      obtain rfl : r = t.maxmemory := hr
      have hwanted : decide (0 < t.maxmemory) = t.wanted :=
        decide_eq_decide.mpr ⟨fun hpos => ⟨hi, hpos⟩, fun hw => hw.2⟩
      exact ⟨hhonest (.publishing (decide (0 < t.maxmemory))) hwanted, owed_mine trivial,
        owed_others h.counters hμ id, owed_others h.sketch hμ id⟩
  | publishing on =>
      rw [hμ] at ha hi
      cases ha
      exact ⟨hhonest .idle trivial, .inl hi, owed_others h.counters hμ id,
        owed_others h.sketch hμ id⟩

/-! ### Runs -/

/-- The client has computed a sketch size and not installed it yet.
Source: `internal/cache/cache.go` `SetMaxMemory`
Kind: D -/
def Sizing (th : Thread Action Action.Answer Reply) : Prop :=
  ∃ c, th.next = some (.swapPolicyCounters c) ∨ th.next = some (.storeSketch c)

/-- The client has loaded the policy in `refreshActive` and not called `SetActive` yet.
Source: `internal/cache/cache.go` `refreshActive`
Kind: D -/
def Publishing (th : Thread Action Action.Answer Reply) : Prop :=
  (∃ on, th.next = some (.setActive on)) ∨
    (th.next = some .loadMaxmemory ∧ ∃ p, th.last = some ⟨.loadEvictPol, p⟩)

/-- A setter's store lands between another client's load of the field and the store of what it
computed from it.
Source: `internal/cache/cache.go` `SetMaxMemory`, `SetEvictionPolicy`
Kind: D -/
def staleWindow (th : Thread Action Action.Answer Reply) : Action → Prop
  | .storeMaxmemory _ => Sizing th ∨ Publishing th
  | .storeEvictPol _ => Publishing th
  | _ => False

/-- The invariant of a pool of setters.
Source: `internal/cache/cache.go` `SetMaxMemory`, `SetEvictionPolicy`
Kind: D -/
structure Settling (μ : ι → Stage) (s : Pool ι Action Action.Answer Reply (World S)) : Prop where
  debts : Debts μ s.world.cache.tuning
  loaded : ∀ j th, s.threads j = some th → μ j = .lfu → ∃ p, th.last = some ⟨.loadEvictPol, p⟩

/-- Only a load of the policy leads to the stage in which allkeys-lfu was read.
Source: `internal/cache/cache.go` `SetMaxMemory`, `SetEvictionPolicy`
Kind: L -/
theorem loadEvictPol_of_after_lfu {m : Stage} {a : Action} {r : a.Answer}
    (ha : m.allows a) (h : m.after a r = .lfu) :
    ∃ p, (⟨a, r⟩ : Σ a : Action, a.Answer) = ⟨.loadEvictPol, p⟩ := by
  cases m with
  | idle => cases a <;> cases h
  | stored => cases ha; cases h
  | sized c =>
      cases ha
      change (if c ≠ r then Stage.resizing c else .refreshing) = .lfu at h
      split_ifs at h
  | resizing c => cases ha; cases h
  | refreshing =>
      rcases ha with rfl | ⟨c, rfl⟩
      · exact ⟨r, rfl⟩
      · cases h
  | lfu => cases ha; cases h
  | publishing on => cases ha; cases h

/-- A client whose reading the action overwrites stands in the window.
Source: `internal/cache/cache.go` `SetMaxMemory`, `SetEvictionPolicy`
Kind: L -/
theorem staleWindow_of_overwrites {μ : ι → Stage} {s : Pool ι Action Action.Answer Reply (World S)}
    (hμ : s.Moded setter (fun _ m => m = .idle) .idle μ) (hs : Settling μ s) {j : ι} {a : Action}
    (hov : (μ j).Overwrites a) : ∃ th, s.threads j = some th ∧ staleWindow th a := by
  have hbusy : μ j ≠ .idle := by
    intro hidle
    rw [hidle] at hov
    cases a <;> cases hov
  cases hth : s.threads j with
  | none => exact absurd (hμ.idle j hth) hbusy
  | some th =>
      refine ⟨th, rfl, ?_⟩
      obtain ⟨e, he, hall⟩ := hμ.exists_next hth (fun _ => hbusy) hbusy
      cases hstage : μ j with
      | sized c =>
          rw [hstage] at hall hov
          cases hall
          cases a <;> first | exact .inl ⟨c, .inl he⟩ | cases hov
      | resizing c =>
          rw [hstage] at hall hov
          cases hall
          cases a <;> first | exact .inl ⟨c, .inr he⟩ | cases hov
      | lfu =>
          have hpub : Publishing th := by
            rw [hstage] at hall
            cases hall
            exact .inr ⟨he, hs.loaded j th hth hstage⟩
          rw [hstage] at hov
          cases a <;> first | exact .inr hpub | exact hpub | cases hov
      | publishing on =>
          have hpub : Publishing th := by
            rw [hstage] at hall
            cases hall
            exact .inl ⟨on, he⟩
          rw [hstage] at hov
          cases a <;> first | exact .inr hpub | exact hpub | cases hov
      | _ =>
          rw [hstage] at hov
          cases a <;> cases hov

/-- Every state of a run without stale readings is settling.
Source: `internal/cache/cache.go` `SetMaxMemory`, `SetEvictionPolicy`
Kind: L -/
theorem settling_of_apart {host : Host S} {hasher : S → Bytes → UInt64}
    {opts : List (CacheOpt S)} {env : Env} {fuel : ℕ}
    {s : Pool ι Action Action.Answer Reply (World S)}
    (hreach : Pool.ApartReachable (exec fuel) Reconfigures staleWindow
      ⟨⟨Cache.new host hasher opts, env⟩, fun _ => none⟩ s) :
    ∃ μ, s.Moded setter (fun _ m => m = .idle) .idle μ ∧ Settling μ s := by
  refine Pool.outline setter (fun _ m => m = .idle) .idle Settling (fun p hp => hp.follows)
    ?_ ?_ ?_ ?_ hreach
  · rintro μ s i p hμ ⟨hdebts, hloaded⟩ hnone -
    refine ⟨hdebts, ?_⟩
    intro j th hj hlfu
    by_cases hji : j = i
    · subst hji
      rw [hμ.idle j hnone] at hlfu
      cases hlfu
    · simp only [Function.update_of_ne hji] at hj
      exact hloaded j th hj hlfu
  · intro μ s i a next last r w _ hμ hs hi hexec hclear
    have ha : (μ i).allows a := (hμ.follows i _ hi).1
    obtain ⟨htuning, htold⟩ := exec_tuning hexec
    refine ⟨trivial, ?_, ?_⟩
    · change Debts _ w.cache.tuning
      rw [htuning]
      refine hs.debts.step ha htold fun j hji hov => ?_
      obtain ⟨th, hth, hwin⟩ := staleWindow_of_overwrites hμ hs hov
      exact hclear j th hji hth hwin
    · intro j th hj hlfu
      by_cases hji : j = i
      · subst hji
        simp only [Function.update_self] at hj hlfu
        cases hj
        obtain ⟨p, hp⟩ := loadEvictPol_of_after_lfu ha hlfu
        exact ⟨p, congrArg some hp⟩
      · simp only [Function.update_of_ne hji] at hj hlfu
        exact hs.loaded j th hj hlfu
  · rintro μ s i a ⟨hdebts, hloaded⟩ hrest
    have hsame : Function.update μ i .idle = μ := by
      rw [← hrest, Function.update_eq_self]
    rw [hsame]
    refine ⟨hdebts, ?_⟩
    intro j th hj hlfu
    by_cases hji : j = i
    · subst hji
      simp only [Function.update_self] at hj
      cases hj
    · simp only [Function.update_of_ne hji] at hj
      exact hloaded j th hj hlfu
  · refine ⟨⟨fun j => trivial, .inl ?_, .inl rfl, .inl rfl⟩, ?_⟩
    · exact (Bool.decide_and _ _).symm
    · intro j th hj
      cases hj

/-- **Live reconfiguration is not lost** when nobody works on a stale reading. Any number of
clients call the two setters, interleaved action by action, and no store of a field lands between
another call's load of it and the store of what that call computed; then, once all calls have
returned, the recorder is active exactly under allkeys-lfu with a positive ceiling, and the sketch
has the size that belongs to the ceiling.
Source: `internal/cache/cache.go` `SetMaxMemory`, `SetEvictionPolicy`
Kind: P
Fidelity: exact -/
theorem reconfiguration_kept (host : Host S) (hasher : S → Bytes → UInt64)
    (opts : List (CacheOpt S)) (env : Env) (fuel : ℕ)
    (s : Pool ι Action Action.Answer Reply (World S))
    (hreach : Pool.ApartReachable (exec fuel) Reconfigures staleWindow
      ⟨⟨Cache.new host hasher opts, env⟩, fun _ => none⟩ s)
    (hidle : ∀ i, s.threads i = none) :
    (s.world.cache.active = true ↔
        s.world.cache.evictPol = .allKeysLFU ∧ 0 < s.world.cache.maxmemory) ∧
      s.world.cache.sketch = countersFor s.world.cache.maxmemory := by
  obtain ⟨μ, hμ, hs⟩ := settling_of_apart hreach
  have hrest : ∀ j, μ j = .idle := fun j => hμ.idle j (hidle j)
  have hactive : s.world.cache.active = s.world.cache.tuning.wanted := by
    refine hs.debts.active.resolve_right fun ⟨j, hj⟩ => ?_
    rw [hrest j] at hj
    exact hj
  have hcounters : s.world.cache.policyCounters = countersFor s.world.cache.maxmemory := by
    refine hs.debts.counters.resolve_right fun ⟨j, hj⟩ => ?_
    rw [hrest j] at hj
    exact hj
  have hsketch : s.world.cache.sketch = s.world.cache.policyCounters := by
    refine hs.debts.sketch.resolve_right fun ⟨j, hj⟩ => ?_
    rw [hrest j] at hj
    exact hj
  exact ⟨by rw [hactive]; exact decide_eq_true_iff, hsketch.trans hcounters⟩

set_option maxRecDepth 10000 in
/-- Two setters that overlap outside the windows: `SetEvictionPolicy(allkeys-random)` has stored the
policy and not loaded it yet when `SetMaxMemory(1 MiB)` runs from start to end.
Source: `internal/cache/cache.go` `SetMaxMemory`, `SetEvictionPolicy`
Kind: C -/
theorem reconfiguration_kept_overlapping :
    ∃ s₁ s₂ : Pool Bool Action Action.Answer Reply (World Unit),
      Pool.ApartReachable (exec 9) Reconfigures staleWindow
        ⟨⟨Cache.new ⟨1, ()⟩ (fun _ _ => 0) [.withShards 1], stillEnv 0⟩, fun _ => none⟩ s₁ ∧
      (∀ i, s₁.threads i ≠ none) ∧
      Pool.ApartReachable (exec 9) Reconfigures staleWindow s₁ s₂ ∧
      (∀ i, s₂.threads i = none) ∧ s₂.world.cache.maxmemory = 2 ^ 20 ∧
      s₂.world.cache.evictPol = .allKeysRandom ∧
      (s₂.world.cache.active = true ↔
        s₂.world.cache.evictPol = .allKeysLFU ∧ 0 < s₂.world.cache.maxmemory) ∧
      s₂.world.cache.sketch = countersFor s₂.world.cache.maxmemory := by
  have hstart : ∃ s₁ : Pool Bool Action Action.Answer Reply (World Unit), ∃ p th,
      Pool.ApartReachable (exec 9) Reconfigures staleWindow
        ⟨⟨Cache.new ⟨1, ()⟩ (fun _ _ => 0) [.withShards 1], stillEnv 0⟩, fun _ => none⟩ s₁ ∧
      s₁.threads true = some ⟨p, none⟩ ∧ s₁.threads false = some th ∧
      th.next = some .loadEvictPol ∧
      ∃ a w, p.run (exec 9) s₁.world = .ok (a, w) ∧
        ∃ a' w', th.prog.run (exec 9) w = .ok (a', w') ∧ w'.cache.maxmemory = 2 ^ 20 ∧
          w'.cache.evictPol = .allKeysRandom :=
    ⟨_, _, _, .tail (.tail (.tail .refl
      (.invoke _ false _ rfl (.setEvictionPolicy 9 .allKeysRandom)))
      (.act _ false (.storeEvictPol .allKeysRandom) _ _ _ _ rfl rfl (by simp)))
      (.invoke _ true _ rfl (.setMaxMemory 9 (2 ^ 20))), rfl, rfl, rfl, _, _, rfl, _, _, rfl, rfl,
      rfl⟩
  obtain ⟨s₁, p, th, hs₁, htrue, hfalse, hnext, a, w, hsecond, a', w', hfirst, hmax, hpol⟩ := hstart
  -- The first client has loaded nothing yet, so no store makes a reading of it stale.
  have hopen : ∀ e, ¬staleWindow th e := by
    have hsizing : ¬Sizing th := by
      rintro ⟨c, h | h⟩
      · cases hnext.symm.trans h
      · cases hnext.symm.trans h
    have hpublishing : ¬Publishing th := by
      rintro (⟨on, h⟩ | ⟨h, -⟩)
      · cases hnext.symm.trans h
      · cases hnext.symm.trans h
    intro e hclash
    cases e with
    | storeMaxmemory bytes => exact hclash.elim hsizing hpublishing
    | storeEvictPol pol => exact hpublishing hclash
    | _ => exact hclash
  have hoverlap : Pool.ApartReachable (exec 9) Reconfigures staleWindow s₁
      ⟨w, Function.update s₁.threads true none⟩ := by
    refine Pool.ApartReachable.alone p htrue ?_ hsecond
    rintro (_ | _) th' hj hth'
    · obtain rfl := Option.some.inj (hfalse.symm.trans hth')
      exact hopen
    · exact absurd rfl hj
  have hend : Pool.ApartReachable (exec 9) Reconfigures staleWindow
      ⟨w, Function.update s₁.threads true none⟩
      ⟨w', Function.update (Function.update s₁.threads true none) false none⟩ := by
    refine Pool.ApartReachable.alone th.prog hfalse ?_ hfirst
    rintro (_ | _) th' hj hth'
    · exact absurd rfl hj
    · cases hth'
  have hidle : ∀ i, Function.update (Function.update s₁.threads true none) false none i = none := by
    rintro (_ | _) <;> rfl
  refine ⟨s₁, _, hs₁, ?_, hoverlap.trans hend, hidle, hmax, hpol,
    reconfiguration_kept ⟨1, ()⟩ (fun _ _ => 0) [.withShards 1] (stillEnv 0) 9 _
      (hs₁.trans (hoverlap.trans hend)) hidle⟩
  rintro (_ | _)
  · simp [hfalse]
  · simp [htrue]

/-- Two runs with a store in a window. In the first, `SetEvictionPolicy(allkeys-random)` has
read its own policy when `SetEvictionPolicy(allkeys-lfu)` runs from start to end, and then switches
the recorder off. In the second, `SetMaxMemory(1 MiB)` has swapped in its sketch size when
`SetMaxMemory(2 MiB)` runs from start to end, and then installs the sketch for 1 MiB.
Source: `internal/cache/cache.go` `SetMaxMemory`, `SetEvictionPolicy`
Kind: C -/
theorem reconfiguration_lost :
    (∃ s : Pool Bool Action Action.Answer Reply (World Unit),
      Pool.Reachable (exec 9) Reconfigures
        ⟨⟨Cache.new ⟨1, ()⟩ (fun _ _ => 0) [.withShards 1, .withMaxMemory 100], stillEnv 0⟩,
          fun _ => none⟩ s ∧
      (∀ i, s.threads i = none) ∧ s.world.cache.evictPol = .allKeysLFU ∧
      s.world.cache.maxmemory = 100 ∧ s.world.cache.active = false) ∧
    ∃ s : Pool Bool Action Action.Answer Reply (World Unit),
      Pool.Reachable (exec 9) Reconfigures
        ⟨⟨Cache.new ⟨1, ()⟩ (fun _ _ => 0) [.withShards 1], stillEnv 0⟩, fun _ => none⟩ s ∧
      (∀ i, s.threads i = none) ∧ s.world.cache.maxmemory = 2 ^ 21 ∧
      countersFor (2 ^ 21) = 8192 ∧ s.world.cache.sketch = 4096 := by
  constructor
  · refine ⟨_, Relation.ReflTransGen.trans (Relation.ReflTransGen.trans
      (.tail (.tail (.tail (.tail .refl
        (.invoke _ false _ rfl (.setEvictionPolicy 9 .allKeysRandom)))
        (.act _ false (.storeEvictPol .allKeysRandom) _ _ _ _ rfl rfl))
        (.act _ false .loadEvictPol _ _ _ _ rfl rfl))
        (.invoke _ true _ rfl (.setEvictionPolicy 9 .allKeysLFU)))
      (Pool.Reachable.alone (i := true) _ rfl rfl))
      (Pool.Reachable.alone (i := false) _ rfl rfl), ?_, rfl, rfl, rfl⟩
    rintro (_ | _) <;> rfl
  · refine ⟨_, Relation.ReflTransGen.trans (Relation.ReflTransGen.trans
      (.tail (.tail (.tail (.tail (.tail .refl
        (.invoke _ false _ rfl (.setMaxMemory 9 (2 ^ 20))))
        (.act _ false (.storeMaxmemory (2 ^ 20)) _ _ _ _ rfl rfl))
        (.act _ false .loadMaxmemory _ _ _ _ rfl rfl))
        (.act _ false (.swapPolicyCounters 4096) _ _ _ _ rfl rfl))
        (.invoke _ true _ rfl (.setMaxMemory 9 (2 ^ 21))))
      (Pool.Reachable.alone (i := true) _ rfl rfl))
      (Pool.Reachable.alone (i := false) _ rfl rfl), ?_, rfl, rfl, rfl⟩
    rintro (_ | _) <;> rfl

end CacheMoney.Engine
