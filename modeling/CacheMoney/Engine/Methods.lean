import CacheMoney.Engine.Eviction

/-!
# The methods of the engine

One specification for each method of `Cache`, from a state that holds a finite map `f`. The reads
keep the state; `Written` and `Retuned` say what the two methods that may evict do, `Del` removes
its key. Whether a call that evicts keeps to its ceiling is up to the draws (`Served`).
-/

set_option linter.unusedSectionVars false

namespace CacheMoney.Engine

open CacheMoney.Found CacheMoney.Shardmap

variable {S : Type} {w : World S} {f : FinMap Bytes Entry} {fuel : ℕ} {exclude : Bytes}
  {hasExclude : Bool}

/-! ### Reads -/

/-- A live value at clock reading `t`.
Source: `internal/cache/cache.go` `Get`
Kind: D -/
def liveAt (t : ℤ) (e : Entry) : Option Entry := if e.deadAt t then none else some e

/-- `Get` answers with the value if the entry is live, and keeps the cache.
Source: `internal/cache/cache.go` `Get`
Kind: P -/
theorem get_spec (h : w.cache.Holds f) (key : Bytes) :
    Ensures ((Cache.get none key).run (exec fuel) w) fun r =>
      r.1 = .ok (((f.lookup key).bind (liveAt w.env.clock.head)).map Entry.value) ∧
        w.Kept r.2 := by
  unfold Cache.get
  refine ensures_ask_bind (exec_get h.represents fuel key) ?_
  rintro found w' ⟨hfound, hw'⟩
  simp only at hfound hw'
  subst hfound hw'
  cases hlook : f.lookup key with
  | none => exact ⟨rfl, ⟨rfl, rfl, rfl, rfl, rfl, rfl⟩⟩
  | some e =>
      refine Prog.ensures_bind (expired_kept fuel e) ?_
      rintro dead w₁ ⟨hdead, hkept⟩
      simp only at hdead
      subst hdead
      cases hd : e.deadAt w'.env.clock.head with
      | true =>
          refine ⟨?_, hkept.trans ⟨rfl, rfl, rfl, rfl, rfl, rfl⟩⟩
          simp [liveAt, hd]
      | false =>
          refine ⟨?_, hkept.trans ⟨rfl, rfl, rfl, rfl, rfl, rfl⟩⟩
          simp [liveAt, hd]

/-- `TTL` with a clock that may advance between its two readings.
Source: `internal/cache/cache.go` `TTL`
Kind: P -/
theorem ttl_spec (h : w.cache.Holds f) (key : Bytes) :
    Ensures ((Cache.ttl none key).run (exec fuel) w) fun r =>
      r.1 = .ok (((f.lookup key).bind (liveAt w.env.clock.head)).map fun e =>
        if e.expiresAt = zeroTime then -1 else timeSub e.expiresAt w.env.clock.tail.head) ∧
        w.Kept r.2 := by
  unfold Cache.ttl
  refine ensures_ask_bind (exec_get h.represents fuel key) ?_
  rintro found w' ⟨hfound, hw'⟩
  simp only at hfound hw'
  subst hfound hw'
  cases hlook : f.lookup key with
  | none => exact ⟨rfl, .rfl' w'⟩
  | some e =>
      refine Prog.ensures_bind (Q := fun r => r = (e.deadAt w'.env.clock.head,
        if e.expiresAt = zeroTime then w' else w'.tick)) ?_ ?_
      · rw [run_expired]
        exact rfl
      · rintro dead w₁ heq
        obtain ⟨rfl, rfl⟩ := Prod.mk.inj heq
        cases hd : e.deadAt w'.env.clock.head with
        | true =>
            have hz : e.expiresAt ≠ zeroTime := by
              intro hz
              simp [Entry.deadAt, hz] at hd
            simp only [if_neg hz]
            refine ⟨?_, w'.kept_tick⟩
            simp [liveAt, hd]
        | false =>
            by_cases hz : e.expiresAt = zeroTime
            · simp only [hz, if_true]
              refine ⟨?_, .rfl' w'⟩
              simp [liveAt, hd, hz]
            · simp only [hz, if_false]
              refine ⟨?_, w'.kept_tick.trans w'.tick.kept_tick⟩
              simp only [liveAt, hd, hz, Option.bind_some, Bool.false_eq_true, if_false,
                Option.map_some]
              rfl

/-- Counting the live entries keeps the cache.
Source: `internal/cache/cache.go` `Len`
Kind: L -/
theorem countLive_kept (l : List (Bytes × Entry)) :
    ∀ (count : ℕ) (w : World S),
      Ensures ((Cache.countLive l count).run (exec fuel) w) fun r => w.Kept r.2 := by
  induction l with
  | nil => exact fun count w => .rfl' w
  | cons e l ih =>
      intro count w
      unfold Cache.countLive
      refine Prog.ensures_bind (expired_kept fuel e.2) ?_
      rintro dead w₁ ⟨-, hkept⟩
      cases dead with
      | true => exact (ih count w₁).mono fun r hr => hkept.trans hr
      | false => exact (ih (count + 1) w₁).mono fun r hr => hkept.trans hr

/-- The count of `Len` at a clock that stands still.
Source: `internal/cache/cache.go` `Len`
Kind: L -/
theorem countLive_spec (now : ℤ) (l : List (Bytes × Entry)) :
    ∀ (count : ℕ) (w : World S), (∀ i, w.env.clock.read i = now) →
      Ensures ((Cache.countLive l count).run (exec fuel) w) fun r =>
        r.1 = count + (l.filter fun e => !e.2.deadAt now).length ∧ w.Kept r.2 := by
  induction l with
  | nil => exact fun count w _ => ⟨rfl, .rfl' w⟩
  | cons e l ih =>
      intro count w hclock
      unfold Cache.countLive
      refine Prog.ensures_bind (expired_kept fuel e.2) ?_
      rintro dead w₁ ⟨hdead, hkept⟩
      simp only at hdead
      have hnow : w.env.clock.head = now := hclock _
      have hclock₁ : ∀ i, w₁.env.clock.read i = now := by
        intro i
        rw [hkept.clock_eq]
        exact hclock i
      rw [hnow] at hdead
      subst hdead
      cases hd : e.2.deadAt now with
      | true =>
          refine (ih count w₁ hclock₁).mono ?_
          rintro r ⟨hr, hkept'⟩
          refine ⟨?_, hkept.trans hkept'⟩
          rw [hr]
          simp [hd]
      | false =>
          refine (ih (count + 1) w₁ hclock₁).mono ?_
          rintro r ⟨hr, hkept'⟩
          refine ⟨?_, hkept.trans hkept'⟩
          rw [hr]
          simp only [hd, Bool.not_false, List.filter_cons_of_pos, List.length_cons]
          omega

/-- `Len` counts the live entries, and keeps the cache.
Source: `internal/cache/cache.go` `Len`
Kind: P -/
theorem len_spec (h : w.cache.Holds f) {now : ℤ} (hclock : ∀ i, w.env.clock.read i = now) :
    Ensures ((Cache.len none).run (exec fuel) w) fun r =>
      r.1 = .ok ((pairs f).filter fun e => !e.2.deadAt now).card ∧ w.Kept r.2 := by
  unfold Cache.len
  refine ensures_ask_bind (exec_range h.represents fuel) ?_
  rintro l w' ⟨hl, hw'⟩
  simp only at hl hw'
  subst hw'
  refine Prog.ensures_bind (countLive_spec now l 0 w' hclock) ?_
  rintro n w₁ ⟨hn, hkept⟩
  simp only at hn
  refine ⟨?_, hkept⟩
  rw [hn, ← hl, Multiset.filter_coe, Multiset.coe_card, Nat.zero_add]
  simp

/-! ### Deletion -/

/-- `Del` removes the key, and says whether a live entry was there.
Source: `internal/cache/cache.go` `Del`
Kind: P -/
theorem del_spec (h : w.cache.Holds f) (key : Bytes) :
    Ensures ((Cache.del none key).run (exec fuel) w) fun r =>
      r.1 = .ok ((f.lookup key).bind (liveAt w.env.clock.head)).isSome ∧
        r.2.cache.Holds (f.erase key) ∧ r.2.cache.maxmemory = w.cache.maxmemory ∧
        r.2.cache.evictPol = w.cache.evictPol ∧ r.2.env.clock.read = w.env.clock.read := by
  unfold Cache.del
  refine ensures_ask_bind (exec_delete h.represents fuel key) ?_
  rintro found w' ⟨hfound, m, -, hm, hw'⟩
  simp only at hfound hw'
  subst hfound hw'
  cases hlook : f.lookup key with
  | none =>
      refine ⟨rfl, ⟨hm, ?_⟩, rfl, rfl, rfl⟩
      rw [erase_of_lookup_none hlook]
      exact h.usage_eq
  | some e =>
      refine ensures_ask_bind (exec_addUsage fuel _) ?_
      rintro _ w₁ hw₁
      simp only at hw₁
      subst hw₁
      refine Prog.ensures_bind (expired_kept fuel e) ?_
      rintro dead w₂ ⟨hdead, hkept⟩
      simp only at hdead
      subst hdead
      refine ⟨?_, hkept.holds ⟨hm, ?_⟩, hkept.maxmemory_eq, hkept.evictPol_eq, hkept.clock_eq⟩
      · cases hd : e.deadAt w.env.clock.head <;> simp [liveAt, hd]
      · rw [total_erase, hlook]
        change w.cache.usage + -costOf key e.value = _
        rw [h.usage_eq]
        rfl

/-! ### Storing -/

/-- The expiry of an entry stored at clock reading `t`.
Source: `internal/cache/cache.go` `Set`
Kind: D -/
def expiryAt (t : ℤ) (ttl : ℤ) : ℤ := if 0 < ttl then t + ttl else zeroTime

/-- The expiry of a `Set` reads the clock at most once.
Source: `internal/cache/cache.go` `Set`
Kind: L -/
theorem expiry_spec (ttl : ℤ) :
    Ensures ((Cache.expiry ttl).run (exec fuel) w) fun r =>
      r.1 = expiryAt w.env.clock.head ttl ∧ w.Kept r.2 := by
  unfold Cache.expiry expiryAt
  by_cases hpos : 0 < ttl
  · rw [if_pos hpos, if_pos hpos]
    refine ensures_ask_bind (exec_now fuel) ?_
    rintro t w' ⟨ht, hw'⟩
    simp only at ht hw'
    subst ht hw'
    exact ⟨rfl, w.kept_tick⟩
  · rw [if_neg hpos, if_neg hpos]
    exact ⟨rfl, .rfl' w⟩

/-- The write would grow the stored bytes past the ceiling.
Source: `internal/cache/cache.go` `Set`
Kind: D -/
def Overflows (ceiling usage : ℤ) (key value : Bytes) (old : Option Entry) : Prop :=
  0 < costOf key value - Cache.foundCost key old ∧
    ceiling < usage + (costOf key value - Cache.foundCost key old)

/-- The noeviction guard of `Set` reads the stored entry and the counter, and writes nothing.
Source: `internal/cache/cache.go` `Set`
Kind: L -/
theorem rejects_spec (h : w.cache.Holds f) (ceiling : ℤ) (pol : EvictionPolicy)
    (key value : Bytes) :
    Ensures ((Cache.rejects ceiling pol key (costOf key value)).run (exec fuel) w)
      fun r => (r.1 = true ↔ (0 < ceiling ∧ pol = .noEviction) ∧
          Overflows ceiling w.cache.usage key value (f.lookup key)) ∧ r.2 = w := by
  unfold Cache.rejects Overflows
  by_cases hguard : 0 < ceiling ∧ pol = .noEviction
  · rw [if_pos hguard]
    refine ensures_ask_bind (exec_get h.represents fuel key) ?_
    rintro old w₁ ⟨hold, hw₁⟩
    simp only at hold hw₁
    subst hold hw₁
    by_cases hgrow : 0 < costOf key value - Cache.foundCost key (f.lookup key)
    · rw [if_pos hgrow]
      refine ensures_ask_bind (exec_loadUsage fuel) ?_
      rintro usage w₂ ⟨husage, hw₂⟩
      simp only at husage hw₂
      subst husage hw₂
      refine ⟨?_, rfl⟩
      simp only [decide_eq_true_eq, hguard, hgrow, and_self, true_and]
    · rw [if_neg hgrow]
      refine ⟨?_, rfl⟩
      simp only [hgrow, false_and, and_false, Bool.false_eq_true]
  · rw [if_neg hguard]
    refine ⟨?_, rfl⟩
    simp [hguard]

variable (exclude hasExclude) in
/-- The pass at the end of `Set` and of `SetMaxMemory`: without an eviction policy nothing is
removed, and with one a served source leaves the counter under the ceiling if anything can.
Source: `internal/cache/cache.go` `Set`, `SetMaxMemory`
Kind: L -/
theorem evictIfOver_spec (h : w.cache.Holds f) (rounds : ℕ) (ceiling : ℤ)
    (pol : EvictionPolicy) :
    Ensures ((Cache.evictIfOver rounds ceiling pol exclude hasExclude).run (exec fuel) w)
      fun r => ∃ f', Evicted exclude hasExclude w r.2 f f' ∧
        (ceiling ≤ 0 ∨ pol = .noEviction → f' = f) ∧
        (0 < ceiling → pol ≠ .noEviction →
          Served Cache.maxEvictMisses fuel exclude hasExclude ceiling w.cache.m w.env.rand →
            r.2.cache.usage ≤ ceiling ∨ ¬Removable exclude hasExclude f') := by
  unfold Cache.evictIfOver
  by_cases hon : 0 < ceiling ∧ pol ≠ .noEviction
  · rw [if_pos hon]
    refine ensures_ask_bind (exec_loadUsage fuel) ?_
    rintro usage w₁ ⟨husage, hw₁⟩
    simp only at husage hw₁
    subst husage hw₁
    have hoff : ¬(ceiling ≤ 0 ∨ pol = .noEviction) := by
      rintro (hle | heq)
      · exact absurd hon.1 (not_lt.mpr hle)
      · exact hon.2 heq
    by_cases hover : ceiling < w₁.cache.usage
    · rw [if_pos hover]
      refine (evictUntilUnder_spec ceiling pol rounds h).mono ?_
      rintro r ⟨f', hev, hend⟩
      exact ⟨f', hev, fun h' => absurd h' hoff, fun _ _ => hend⟩
    · rw [if_neg hover]
      exact ⟨f, .same h rfl rfl, fun _ => rfl, fun _ _ _ => Or.inl (not_lt.mp hover)⟩
  · rw [if_neg hon]
    exact ⟨f, .same h rfl rfl, fun _ => rfl, fun hpos hpol => absurd ⟨hpos, hpol⟩ hon⟩

/-- What a successful `Set` of `key` to `e` does.
Source: `internal/cache/cache.go` `Set`
Kind: D -/
structure Written (fuel : ℕ) (key : Bytes) (e : Entry) (w w' : World S)
    (f f' : FinMap Bytes Entry) : Prop where
  holds : w'.cache.Holds f'
  trimmed : ∃ R : Finset Bytes, key ∉ R ∧
    ∀ k, f'.lookup k = if k ∈ R then none else (f.insert key e).lookup k
  quiet : w.cache.maxmemory ≤ 0 ∨ w.cache.evictPol = .noEviction → f' = f.insert key e
  /-- The map before the pass is the one that stores the new entry. -/
  bounded : 0 < w.cache.maxmemory → w.cache.evictPol ≠ .noEviction →
    (∀ old m, w.cache.m.swap fuel key e = .ok (old, m) →
      Served Cache.maxEvictMisses fuel key true w.cache.maxmemory m w.env.rand) →
    w'.cache.usage ≤ w.cache.maxmemory ∨ ¬Removable key true f'
  maxmemory_eq : w'.cache.maxmemory = w.cache.maxmemory
  evictPol_eq : w'.cache.evictPol = w.cache.evictPol
  clock_eq : w'.env.clock.read = w.env.clock.read

/-- `Set` is refused by the noeviction guard and keeps everything, or it stores its entry.
Source: `internal/cache/cache.go` `Set`
Kind: P -/
theorem set_spec (h : w.cache.Holds f) (rounds : ℕ) (key value : Bytes) (ttl : ℤ) :
    Ensures ((Cache.set rounds none key value ttl).run (exec fuel) w) fun r =>
      (r.1 = .error .oom ∧ w.Kept r.2 ∧ 0 < w.cache.maxmemory ∧
        w.cache.evictPol = .noEviction ∧
        Overflows w.cache.maxmemory w.cache.usage key value (f.lookup key)) ∨
      (r.1 = .ok () ∧
        ¬((0 < w.cache.maxmemory ∧ w.cache.evictPol = .noEviction) ∧
          Overflows w.cache.maxmemory w.cache.usage key value (f.lookup key)) ∧
        ∃ f', Written fuel key ⟨value, expiryAt w.env.clock.head ttl⟩ w r.2 f f') := by
  unfold Cache.set
  refine Prog.ensures_bind (expiry_spec ttl) ?_
  rintro expiresAt w₁ ⟨hexp, hkept⟩
  simp only at hexp hkept
  subst hexp
  have h₁ := hkept.holds h
  refine ensures_ask_bind (exec_loadMaxmemory fuel) ?_
  rintro ceiling w₂ ⟨hceiling, hw₂⟩
  simp only at hceiling hw₂
  subst hceiling hw₂
  refine ensures_ask_bind (exec_loadEvictPol fuel) ?_
  rintro pol w₃ ⟨hpol, hw₃⟩
  simp only at hpol hw₃
  subst hpol hw₃
  refine Prog.ensures_bind (rejects_spec h₁ _ _ key value) ?_
  rintro oom w₄ ⟨hoom, hw₄⟩
  simp only at hoom hw₄
  subst hw₄
  rw [hkept.maxmemory_eq, hkept.evictPol_eq, hkept.usage_eq] at hoom
  cases oom with
  | true =>
      obtain ⟨⟨hpos, hpol⟩, hover⟩ := hoom.mp rfl
      exact Or.inl ⟨rfl, hkept, hpos, hpol, hover⟩
  | false =>
      simp only [Bool.false_eq_true, if_false]
      refine ensures_ask_bind
        (exec_swap h₁.represents fuel key ⟨value, expiryAt w.env.clock.head ttl⟩) ?_
      rintro old w₅ ⟨hold, m, hswap, hm, hw₅⟩
      simp only at hold hswap hw₅
      subst hw₅
      rw [hkept.m_eq] at hswap
      refine ensures_ask_bind (exec_addUsage fuel _) ?_
      rintro _ w₆ hw₆
      simp only at hw₆
      have h₆ : w₆.cache.Holds (f.insert key ⟨value, expiryAt w.env.clock.head ttl⟩) := by
        subst hw₆
        refine ⟨hm, ?_⟩
        rw [total_insert, ← hold]
        change w₄.cache.usage + _ = _
        rw [h₁.usage_eq]
      refine Prog.ensures_bind (evictIfOver_spec key true h₆ rounds
        w₄.cache.maxmemory w₄.cache.evictPol) ?_
      rintro _ w₇ ⟨f', hev, hquiet, hbounded⟩
      simp only at hev hquiet hbounded
      refine Or.inr ⟨rfl, fun hrej => absurd (hoom.mpr hrej) (by simp), f', ?_⟩
      obtain ⟨R, hR, htrim⟩ := hev.trimmed
      have hm₆ : w₆.cache.m = m := by rw [hw₆]
      have hrand₆ : w₆.env.rand = w.env.rand := by
        rw [hw₆]
        exact hkept.rand_eq
      rw [hkept.maxmemory_eq, hkept.evictPol_eq] at hquiet hbounded
      rw [hm₆, hrand₆] at hbounded
      refine ⟨hev.holds, ⟨R, hR rfl, htrim⟩, hquiet,
        fun hpos hpol hserved => hbounded hpos hpol (hserved old m hswap), ?_, ?_, ?_⟩
      · rw [hev.maxmemory_eq, hw₆]
        exact hkept.maxmemory_eq
      · rw [hev.evictPol_eq, hw₆]
        exact hkept.evictPol_eq
      · rw [hev.clock_eq, hw₆]
        exact hkept.clock_eq

/-! ### Tuning -/

/-- What `SetMaxMemory` does.
Source: `internal/cache/cache.go` `SetMaxMemory`
Kind: D -/
structure Retuned (fuel : ℕ) (bytes : ℤ) (w w' : World S) (f f' : FinMap Bytes Entry) :
    Prop where
  holds : w'.cache.Holds f'
  trimmed : ∃ R : Finset Bytes, ∀ k, f'.lookup k = if k ∈ R then none else f.lookup k
  quiet : bytes ≤ 0 ∨ w.cache.evictPol = .noEviction → f' = f
  bounded : 0 < bytes → w.cache.evictPol ≠ .noEviction →
    Served Cache.maxEvictMisses fuel [] false bytes w.cache.m w.env.rand →
    w'.cache.usage ≤ bytes ∨ ¬Removable [] false f'
  maxmemory_eq : w'.cache.maxmemory = bytes
  evictPol_eq : w'.cache.evictPol = w.cache.evictPol
  clock_eq : w'.env.clock.read = w.env.clock.read

/-- Refreshing the frequency policy changes nothing that is stored or set.
Source: `internal/cache/cache.go` `refreshActive`
Kind: L -/
theorem refreshActive_returns :
    Returns (Cache.refreshActive.run (exec fuel) w) fun r => w.Kept r.2 := by
  unfold Cache.refreshActive
  refine Prog.returns_bind (p := ask .loadEvictPol) (Q := fun r => r.2 = w) ⟨_, rfl, rfl⟩ ?_
  rintro pol w₁ rfl
  split_ifs with hlfu
  · exact ⟨_, rfl, rfl, rfl, rfl, rfl, rfl, rfl⟩
  · exact ⟨_, rfl, rfl, rfl, rfl, rfl, rfl, rfl⟩

/-- Rebuilding the sketch changes nothing that is stored or set.
Source: `internal/cache/cache.go` `SetMaxMemory`; `internal/tinylfu/policy.go` `Resize`
Kind: L -/
theorem resizePolicy_returns (counters old : ℤ) :
    Returns ((Cache.resizePolicy counters old).run (exec fuel) w) fun r => w.Kept r.2 := by
  unfold Cache.resizePolicy
  split_ifs with hne
  · exact ⟨_, rfl, rfl, rfl, rfl, rfl, rfl, rfl⟩
  · exact ⟨_, rfl, .rfl' w⟩

/-- `SetMaxMemory` stores the ceiling and then evicts down to it.
Source: `internal/cache/cache.go` `SetMaxMemory`
Kind: P -/
theorem setMaxMemory_spec (h : w.cache.Holds f) (rounds : ℕ) (bytes : ℤ) :
    Ensures ((Cache.setMaxMemory rounds bytes).run (exec fuel) w) fun r =>
      ∃ f', Retuned fuel bytes w r.2 f f' := by
  unfold Cache.setMaxMemory
  refine ensures_ask_bind (exec_storeMaxmemory fuel bytes) ?_
  rintro _ w₁ hw₁
  simp only at hw₁
  refine ensures_ask_bind (exec_loadMaxmemory fuel) ?_
  rintro mm w₂ ⟨-, hw₂⟩
  simp only at hw₂
  subst hw₂
  refine ensures_ask_bind (exec_swapPolicyCounters fuel _) ?_
  rintro old w₃ hk₃
  simp only at hk₃
  refine Prog.ensures_bind (resizePolicy_returns _ old).ensures ?_
  rintro _ w₄ hk₄
  simp only at hk₄
  refine Prog.ensures_bind refreshActive_returns.ensures ?_
  rintro _ w₅ hk₅
  simp only at hk₅
  have hk := (hk₃.trans hk₄).trans hk₅
  have h₅ : w₅.cache.Holds f := hk.holds (by subst hw₁; exact ⟨h.represents, h.usage_eq⟩)
  have hmm : w₅.cache.maxmemory = bytes := by
    rw [hk.maxmemory_eq, hw₁]
  have hpol : w₅.cache.evictPol = w.cache.evictPol := by
    rw [hk.evictPol_eq, hw₁]
  have hclock : w₅.env.clock.read = w.env.clock.read := by
    rw [hk.clock_eq, hw₁]
  have hm : w₅.cache.m = w.cache.m := by
    rw [hk.m_eq, hw₁]
  have hrand : w₅.env.rand = w.env.rand := by
    rw [hk.rand_eq, hw₁]
  unfold Cache.evictDown
  by_cases hpos : 0 < bytes
  · rw [if_pos hpos]
    refine ensures_ask_bind (exec_loadEvictPol fuel) ?_
    rintro pol w₆ ⟨hpol₆, hw₆⟩
    simp only at hpol₆ hw₆
    subst hpol₆ hw₆
    refine (evictIfOver_spec [] false h₅ rounds bytes _).mono ?_
    rintro r ⟨f', hev, hquiet, hbounded⟩
    obtain ⟨R, -, htrim⟩ := hev.trimmed
    rw [hpol] at hquiet hbounded
    rw [hm, hrand] at hbounded
    exact ⟨f', hev.holds, ⟨R, htrim⟩, hquiet, hbounded, hev.maxmemory_eq.trans hmm,
      hev.evictPol_eq.trans hpol, by rw [hev.clock_eq]; exact hclock⟩
  · rw [if_neg hpos]
    exact ⟨f, h₅, ⟨∅, by simp⟩, fun _ => rfl, fun h' => absurd h' hpos, hmm, hpol, hclock⟩

/-- `SetEvictionPolicy` stores the policy and keeps the entries.
Source: `internal/cache/cache.go` `SetEvictionPolicy`
Kind: P -/
theorem setEvictionPolicy_spec (h : w.cache.Holds f) (p : EvictionPolicy) :
    Ensures ((Cache.setEvictionPolicy p).run (exec fuel) w) fun r =>
      r.2.cache.Holds f ∧ r.2.cache.maxmemory = w.cache.maxmemory ∧ r.2.cache.evictPol = p ∧
        r.2.env.clock.read = w.env.clock.read := by
  unfold Cache.setEvictionPolicy
  refine ensures_ask_bind (exec_storeEvictPol fuel p) ?_
  rintro _ w₁ hw₁
  simp only at hw₁
  refine refreshActive_returns.ensures.mono ?_
  intro r hk
  refine ⟨hk.holds (by subst hw₁; exact ⟨h.represents, h.usage_eq⟩), ?_, ?_, ?_⟩
  · rw [hk.maxmemory_eq, hw₁]
  · rw [hk.evictPol_eq, hw₁]
  · rw [hk.clock_eq, hw₁]

/-! ### Any call -/

/-- The call does not write: its context is dead, or it is a read or a change of policy.
Source: `internal/cache/cache.go` `Cache`
Kind: D -/
def Call.Keeps : Call → Prop
  | .set ctx _ _ _ => ctx ≠ none
  | .del ctx _ => ctx ≠ none
  | .setMaxMemory _ => False
  | _ => True

/-- The ceiling after a call.
Source: `internal/cache/cache.go` `SetMaxMemory`
Kind: D -/
def Call.ceiling (ceiling : ℤ) : Call → ℤ
  | .setMaxMemory bytes => bytes
  | _ => ceiling

/-- The policy after a call.
Source: `internal/cache/cache.go` `SetEvictionPolicy`
Kind: D -/
def Call.policy (pol : EvictionPolicy) : Call → EvictionPolicy
  | .setEvictionPolicy p => p
  | _ => pol

/-- The noeviction guard of `Set` rejects the write.
Source: `internal/cache/cache.go` `Set`
Kind: D -/
def Rejected (w : World S) (f : FinMap Bytes Entry) (key value : Bytes) : Prop :=
  (0 < w.cache.maxmemory ∧ w.cache.evictPol = .noEviction) ∧
    Overflows w.cache.maxmemory w.cache.usage key value (f.lookup key)

/-- What a call makes of the stored entries `f`, and what a write replies.
Source: `internal/cache/cache.go` `Cache`
Kind: D -/
inductive Effect (w : World S) (f : FinMap Bytes Entry) : Call → Reply → FinMap Bytes Entry → Prop
  | kept {c : Call} (out : Reply) (hc : c.Keeps) : Effect w f c out f
  | rejected {key value : Bytes} (ttl : ℤ) (hrej : Rejected w f key value) :
      Effect w f (.set none key value ttl) (.stored (.error .oom)) f
  | stored {key value : Bytes} {ttl : ℤ} {f' : FinMap Bytes Entry}
      (hrej : ¬Rejected w f key value)
      (htrim : ∃ R : Finset Bytes, key ∉ R ∧ ∀ k, f'.lookup k = if k ∈ R then none
        else (f.insert key ⟨value, expiryAt w.env.clock.head ttl⟩).lookup k)
      (hquiet : w.cache.maxmemory ≤ 0 ∨ w.cache.evictPol = .noEviction →
        f' = f.insert key ⟨value, expiryAt w.env.clock.head ttl⟩) :
      Effect w f (.set none key value ttl) (.stored (.ok ())) f'
  | deleted (key : Bytes) (out : Reply) : Effect w f (.del none key) out (f.erase key)
  | retuned {bytes : ℤ} {f' : FinMap Bytes Entry}
      (htrim : ∃ R : Finset Bytes, ∀ k, f'.lookup k = if k ∈ R then none else f.lookup k)
      (hquiet : bytes ≤ 0 ∨ w.cache.evictPol = .noEviction → f' = f) :
      Effect w f (.setMaxMemory bytes) .done f'

/-- The state after a call: what it holds, its settings, and how its entries came about.
Source: `internal/cache/cache.go` `Cache`
Kind: D -/
structure After (w : World S) (f : FinMap Bytes Entry) (c : Call) (x : Reply × World S)
    (f' : FinMap Bytes Entry) : Prop where
  holds : x.2.cache.Holds f'
  maxmemory_eq : x.2.cache.maxmemory = c.ceiling w.cache.maxmemory
  evictPol_eq : x.2.cache.evictPol = c.policy w.cache.evictPol
  effect : Effect w f c x.1 f'

/-- A call that keeps the cache has the effect of nothing.
Source: `internal/cache/cache.go` `Cache`
Kind: L -/
theorem World.Kept.after {w' : World S} (hk : w.Kept w') (h : w.cache.Holds f) {c : Call}
    {out : Reply} (hceil : c.ceiling w.cache.maxmemory = w.cache.maxmemory)
    (hpol : c.policy w.cache.evictPol = w.cache.evictPol) (heffect : Effect w f c out f) :
    After w f c (out, w') f :=
  ⟨hk.holds h, hk.maxmemory_eq.trans hceil.symm, hk.evictPol_eq.trans hpol.symm, heffect⟩

/-- What one call does, from any state that holds a finite map.
Source: `internal/cache/cache.go` `Cache`
Kind: P -/
theorem Cache.Holds.call_effect (h : w.cache.Holds f) (c : Call) :
    Ensures (call fuel w c) fun x => ∃ f', After w f c x f' := by
  have hread : ∀ c : Call, c.Keeps → c.ceiling w.cache.maxmemory = w.cache.maxmemory →
      c.policy w.cache.evictPol = w.cache.evictPol →
      ∀ out w', w.Kept w' → ∃ f', After w f c (out, w') f' :=
    fun c hc hceil hpol out w' hk => ⟨f, hk.after h hceil hpol (.kept out hc)⟩
  have hdead : ∀ c : Call, c.Keeps → c.ceiling w.cache.maxmemory = w.cache.maxmemory →
      c.policy w.cache.evictPol = w.cache.evictPol →
      ∀ out, ∃ f', After w f c (out, w) f' :=
    fun c hc hceil hpol out => hread c hc hceil hpol out w (.rfl' w)
  unfold Engine.call
  cases c with
  | get ctx key =>
      cases ctx with
      | some e => exact hdead (.get (some e) key) trivial rfl rfl _
      | none =>
          exact Prog.ensures_bind (get_spec h key) fun _ w' hr =>
            hread (.get none key) trivial rfl rfl _ w' hr.2
  | set ctx key value ttl =>
      cases ctx with
      | some e => exact hdead (.set (some e) key value ttl) (by simp [Call.Keeps]) rfl rfl _
      | none =>
          refine Prog.ensures_bind (Q := fun x : Except Err Unit × World S =>
              ∃ f', After w f (.set none key value ttl) (.stored x.1, x.2) f')
            ?_ (fun _ _ hr => hr)
          refine (set_spec h fuel key value ttl).mono ?_
          rintro ⟨r, w'⟩ (⟨rfl, hk, hpos, hpol, hover⟩ | ⟨rfl, hrej, f', hw⟩)
          · exact ⟨f, hk.after h rfl rfl (.rejected ttl ⟨⟨hpos, hpol⟩, hover⟩)⟩
          · exact ⟨f', hw.holds, hw.maxmemory_eq, hw.evictPol_eq, .stored hrej hw.trimmed hw.quiet⟩
  | del ctx key =>
      cases ctx with
      | some e => exact hdead (.del (some e) key) (by simp [Call.Keeps]) rfl rfl _
      | none =>
          exact Prog.ensures_bind (del_spec h key) fun _ _ hr =>
            ⟨_, hr.2.1, hr.2.2.1, hr.2.2.2.1, .deleted key _⟩
  | ttl ctx key =>
      cases ctx with
      | some e => exact hdead (.ttl (some e) key) trivial rfl rfl _
      | none =>
          exact Prog.ensures_bind (ttl_spec h key) fun _ w' hr =>
            hread (.ttl none key) trivial rfl rfl _ w' hr.2
  | len ctx =>
      cases ctx with
      | some e => exact hdead (.len (some e)) trivial rfl rfl _
      | none =>
          refine Prog.ensures_bind (Q := fun x => w.Kept x.2) ?_ fun _ w' hr =>
            hread (.len none) trivial rfl rfl _ w' hr
          refine ensures_ask_bind (exec_range h.represents fuel) ?_
          rintro l w' ⟨-, hw'⟩
          simp only at hw'
          subst hw'
          exact Prog.ensures_bind (countLive_kept l 0 w') fun _ _ hr => hr
  | setMaxMemory bytes =>
      refine Prog.ensures_bind (Q := fun x : Unit × World S =>
          ∃ f', After w f (.setMaxMemory bytes) (.done, x.2) f')
        ?_ (fun _ _ hr => hr)
      refine (setMaxMemory_spec h fuel bytes).mono ?_
      rintro x ⟨f', ht⟩
      exact ⟨f', ht.holds, ht.maxmemory_eq, ht.evictPol_eq, .retuned ht.trimmed ht.quiet⟩
  | setEvictionPolicy p =>
      exact Prog.ensures_bind (setEvictionPolicy_spec h p) fun _ _ hr =>
        ⟨f, hr.1, hr.2.1, hr.2.2.1, .kept _ trivial⟩

/-- Between calls the cache holds a finite map, whatever the calls were.
Source: `internal/cache/cache.go` `Cache`
Kind: P -/
theorem Cache.Holds.call (h : w.cache.Holds f) (c : Call) :
    Ensures (call fuel w c) fun x => ∃ f', x.2.cache.Holds f' :=
  (h.call_effect c).mono fun _ ⟨f', hx⟩ => ⟨f', hx.holds⟩

end CacheMoney.Engine
