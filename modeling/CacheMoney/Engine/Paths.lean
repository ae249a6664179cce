import CacheMoney.Found.History
import CacheMoney.Engine.Accounting

/-!
# What each method does, action by action

A method is a program of atomic actions; other clients may act between any two of them. Here are
the sequences of actions a method can perform, with the answers they got, and what it returns after
each of them. Nothing is assumed about the answers.

* `GetPath`, `TtlPath`, `DelPath`, `SetPath`: the sequences of the four methods on a key.
* `Passing`: an eviction pass. It stores nothing, spares the key it was told to spare, and counts
  every entry it removed.
* `CallPath`: the sequences of every call.
-/

namespace CacheMoney.Engine

open CacheMoney.Found CacheMoney.Shardmap

/-- Actions with their answers.
Source: none
Kind: D -/
abbrev Acts := List (Σ a : Action, a.Answer)

/-- Source: none
Kind: D -/
abbrev Walks {α : Type} (Q : Acts → α → Prop) (p : CacheM α) : Prop := p.Along Q []

section rules

variable {α β : Type} {Q : Acts → α → Prop}

/-- A program without actions walks no path.
Source: none
Kind: L -/
theorem walks_pure {a : α} (h : Q [] a) : Walks Q (pure a) := h

/-- An action, and then the path of what follows.
Source: none
Kind: L -/
theorem walks_ask {a : Action} {next : a.Answer → CacheM α}
    (h : ∀ r, Walks (fun l b => Q (⟨a, r⟩ :: l) b) (next r)) : Walks Q (ask a >>= next) :=
  Prog.Along.perform h

/-- An action alone.
Source: none
Kind: L -/
theorem walks_tell {a : Action} {Q : Acts → a.Answer → Prop} (h : ∀ r, Q [⟨a, r⟩] r) :
    Walks Q (ask a) := h

end rules

/-! ### Expiry -/

/-- The check `expired`: no reading for an entry that cannot expire, one for every other.
Source: `internal/cache/cache.go` `expired`
Kind: D -/
inductive Judged (e : Entry) : Acts → Bool → Prop where
  | lasting (hz : e.expiresAt = zeroTime) : Judged e [] false
  | read {dead : Bool} (hz : e.expiresAt ≠ zeroTime) (t : ℤ) (hdead : e.deadAt t = dead) :
      Judged e [⟨.now, t⟩] dead

/-- The path of the liveness check: at most one reading of the clock.
Source: `internal/cache/cache.go` `expired`
Kind: L -/
theorem expired_walks (e : Entry) : Walks (Judged e) (Cache.expired e) := by
  unfold Cache.expired
  by_cases hz : e.expiresAt = zeroTime
  · rw [if_pos hz]
    exact .lasting hz
  · rw [if_neg hz]
    refine walks_ask fun t => ?_
    have hdead : e.deadAt t = !decide (t < e.expiresAt) := by
      unfold Entry.deadAt
      simp [hz]
    exact .read hz t hdead

/-- The expiry of a new entry.
Source: `internal/cache/cache.go` `Set`
Kind: D -/
inductive Dated (ttl : ℤ) : Acts → ℤ → Prop where
  | lasting (hz : ttl ≤ 0) : Dated ttl [] zeroTime
  | read (hz : 0 < ttl) (t : ℤ) : Dated ttl [⟨.now, t⟩] (t + ttl)

/-- The path of a deadline: one reading of the clock if there is a lifetime.
Source: `internal/cache/cache.go` `Set`
Kind: L -/
theorem expiry_walks (ttl : ℤ) : Walks (Dated ttl) (Cache.expiry ttl) := by
  unfold Cache.expiry
  by_cases hpos : 0 < ttl
  · rw [if_pos hpos]
    exact walks_ask fun t => .read hpos t
  · rw [if_neg hpos]
    exact .lasting (not_lt.mp hpos)

/-! ### Reads -/

/-- Source: `internal/cache/cache.go` `Get`
Kind: D -/
inductive GetPath (key : Bytes) : Acts → Option Bytes → Prop where
  | absent : GetPath key [⟨.get key, none⟩, ⟨.addMisses, ()⟩] none
  | dead (e : Entry) (l : Acts) (h : Judged e l true) :
      GetPath key (⟨.get key, some e⟩ :: (l ++ [⟨.addMisses, ()⟩])) none
  | live (e : Entry) (l : Acts) (h : Judged e l false) :
      GetPath key (⟨.get key, some e⟩ :: (l ++ [⟨.addHits, ()⟩, ⟨.record key, ()⟩])) (some e.value)

/-- The paths of `Get`.
Source: `internal/cache/cache.go` `Get`
Kind: L -/
theorem get_walks (key : Bytes) :
    Walks (fun l r => ∃ v, r = .ok v ∧ GetPath key l v) (Cache.get none key) := by
  refine walks_ask fun found => ?_
  cases found with
  | none => exact walks_ask fun _ => ⟨none, rfl, .absent⟩
  | some e =>
      refine (expired_walks e).seq fun l dead hjudged => ?_
      cases dead with
      | true => exact walks_ask fun _ => ⟨none, rfl, .dead e l hjudged⟩
      | false => exact walks_ask fun _ => walks_ask fun _ => ⟨_, rfl, .live e l hjudged⟩

/-- Source: `internal/cache/cache.go` `TTL`
Kind: D -/
inductive TtlPath (key : Bytes) : Acts → Option ℤ → Prop where
  | absent : TtlPath key [⟨.get key, none⟩] none
  | dead (e : Entry) (l : Acts) (h : Judged e l true) : TtlPath key (⟨.get key, some e⟩ :: l) none
  | lasting (e : Entry) (hz : e.expiresAt = zeroTime) : TtlPath key [⟨.get key, some e⟩] (some (-1))
  | left (e : Entry) (hz : e.expiresAt ≠ zeroTime) (t t' : ℤ) (hlive : e.deadAt t = false) :
      TtlPath key [⟨.get key, some e⟩, ⟨.now, t⟩, ⟨.now, t'⟩] (some (timeSub e.expiresAt t'))

/-- The paths of `TTL`.
Source: `internal/cache/cache.go` `TTL`
Kind: L -/
theorem ttl_walks (key : Bytes) :
    Walks (fun l r => ∃ v, r = .ok v ∧ TtlPath key l v) (Cache.ttl none key) := by
  refine walks_ask fun found => ?_
  cases found with
  | none => exact ⟨none, rfl, .absent⟩
  | some e =>
      refine (expired_walks e).seq fun l dead hjudged => ?_
      cases hdead : dead with
      | true =>
          subst hdead
          refine ⟨none, rfl, ?_⟩
          rw [List.append_nil]
          exact .dead e l hjudged
      | false =>
          subst hdead
          by_cases hz : e.expiresAt = zeroTime
          · rw [if_neg (by decide), if_pos hz]
            cases hjudged with
            | lasting => exact ⟨_, rfl, .lasting e hz⟩
            | read hz' => exact absurd hz hz'
          · rw [if_neg (by decide), if_neg hz]
            cases hjudged with
            | lasting hz' => exact absurd hz' hz
            | read hz' t hlive => exact walks_ask fun t' => ⟨_, rfl, .left e hz t t' hlive⟩

/-- Actions that change neither the map nor a setting and count nothing.
Source: `internal/cache/cache.go` `Cache`
Kind: D -/
def Action.plain : Action → Bool
  | .swap _ _ => false
  | .delete _ => false
  | .storeMaxmemory _ => false
  | .storeEvictPol _ => false
  | .addHits => false
  | .addMisses => false
  | .addEvictions => false
  | _ => true

/-- Source: none
Kind: D -/
def Plain (l : Acts) : Prop := ∀ x ∈ l, x.1.plain = true

/-- No action is plain.
Source: none
Kind: L -/
theorem plain_nil : Plain [] := fun _ hx => absurd hx List.not_mem_nil

/-- A plain action before a plain path.
Source: none
Kind: L -/
theorem plain_cons {a : Action} {r : a.Answer} {l : Acts} (ha : a.plain = true) (h : Plain l) :
    Plain (⟨a, r⟩ :: l) := List.forall_mem_cons.mpr ⟨ha, h⟩

/-- Plain paths in sequence are plain.
Source: none
Kind: L -/
theorem Plain.append {l l' : Acts} (h : Plain l) (h' : Plain l') : Plain (l ++ l') := by
  intro x hx
  rcases List.mem_append.mp hx with hx | hx
  · exact h x hx
  · exact h' x hx

/-- Judging an entry is plain.
Source: none
Kind: L -/
theorem Judged.plain {e : Entry} {l : Acts} {dead : Bool} (h : Judged e l dead) : Plain l := by
  cases h with
  | lasting => exact plain_nil
  | read => exact plain_cons rfl plain_nil

/-- Computing a deadline is plain.
Source: none
Kind: L -/
theorem Dated.plain {ttl x : ℤ} {l : Acts} (h : Dated ttl l x) : Plain l := by
  cases h with
  | lasting => exact plain_nil
  | read => exact plain_cons rfl plain_nil

/-- Whether an action changes the map, the ceiling or the policy.
Source: `internal/cache/cache.go` `Cache`
Kind: D -/
def Action.writes : Action → Bool
  | .swap _ _ => true
  | .delete _ => true
  | .storeMaxmemory _ => true
  | .storeEvictPol _ => true
  | _ => false

/-- Source: none
Kind: D -/
def ReadOnly (l : Acts) : Prop := ∀ x ∈ l, x.1.writes = false

/-- A plain action writes nothing.
Source: none
Kind: L -/
theorem writes_of_plain {a : Action} (h : a.plain = true) : a.writes = false := by
  cases a <;> first | rfl | cases h

/-- A plain path only reads.
Source: none
Kind: L -/
theorem Plain.readOnly {l : Acts} (h : Plain l) : ReadOnly l :=
  fun x hx => writes_of_plain (h x hx)

/-- An action that writes nothing before a path that only reads.
Source: none
Kind: L -/
theorem readOnly_cons {a : Action} {r : a.Answer} {l : Acts} (ha : a.writes = false)
    (h : ReadOnly l) : ReadOnly (⟨a, r⟩ :: l) := List.forall_mem_cons.mpr ⟨ha, h⟩

/-- Paths that only read, in sequence.
Source: none
Kind: L -/
theorem ReadOnly.append {l l' : Acts} (h : ReadOnly l) (h' : ReadOnly l') : ReadOnly (l ++ l') := by
  intro x hx
  rcases List.mem_append.mp hx with hx | hx
  · exact h x hx
  · exact h' x hx

/-- `Get` changes neither the map nor a setting.
Source: `internal/cache/cache.go` `Get`
Kind: L -/
theorem GetPath.readOnly {key : Bytes} {l : Acts} {v : Option Bytes} (h : GetPath key l v) :
    ReadOnly l := by
  have hend : ReadOnly [⟨.addMisses, ()⟩] := readOnly_cons rfl plain_nil.readOnly
  cases h with
  | absent => exact readOnly_cons rfl hend
  | dead e l h => exact readOnly_cons rfl (h.plain.readOnly.append hend)
  | live e l h =>
      exact readOnly_cons rfl (h.plain.readOnly.append
        (readOnly_cons rfl (readOnly_cons rfl plain_nil.readOnly)))

/-- `TTL` is plain.
Source: `internal/cache/cache.go` `TTL`
Kind: L -/
theorem TtlPath.plain {key : Bytes} {l : Acts} {v : Option ℤ} (h : TtlPath key l v) :
    Plain l := by
  cases h with
  | absent => exact plain_cons rfl plain_nil
  | dead e l h => exact plain_cons rfl h.plain
  | lasting e hz => exact plain_cons rfl plain_nil
  | left e hz t t' hlive => exact plain_cons rfl (plain_cons rfl (plain_cons rfl plain_nil))

/-- Counting the live entries is plain.
Source: `internal/cache/cache.go` `Len`
Kind: L -/
theorem countLive_walks (entries : List (Bytes × Entry)) :
    ∀ n : ℕ, Walks (fun l _ => Plain l) (Cache.countLive entries n) := by
  induction entries with
  | nil => exact fun n => plain_nil
  | cons e entries ih =>
      intro n
      refine (expired_walks e.2).seq fun l dead hjudged => ?_
      cases dead with
      | true => exact (ih n).mono fun l' _ h => hjudged.plain.append h
      | false => exact (ih (n + 1)).mono fun l' _ h => hjudged.plain.append h

/-- `Len` is plain.
Source: `internal/cache/cache.go` `Len`
Kind: L -/
theorem len_walks (ctx : Ctx) : Walks (fun l _ => Plain l) (Cache.len ctx) := by
  cases ctx with
  | some err => exact plain_nil
  | none =>
      refine walks_ask fun entries => ?_
      refine (countLive_walks entries 0).seq fun l n h => ?_
      refine walks_pure ?_
      rw [List.append_nil]
      exact plain_cons rfl h

/-! ### Eviction -/

/-- Entries removed and not counted as evictions: a removal is one, and the count takes one away.
Source: `internal/cache/cache.go` `Del`; `internal/cache/evict.go` `evictUntilUnder`
Kind: D -/
def unrecorded : (Σ a : Action, a.Answer) → ℤ
  | ⟨.delete _, some _⟩ => 1
  | ⟨.addEvictions, _⟩ => -1
  | _ => 0

/-- What an action adds to the hit counter.
Source: `internal/cache/cache.go` `hits`
Kind: D -/
def hit : (Σ a : Action, a.Answer) → ℤ
  | ⟨.addHits, _⟩ => 1
  | _ => 0

/-- What an action adds to the miss counter.
Source: `internal/cache/cache.go` `misses`
Kind: D -/
def missed : (Σ a : Action, a.Answer) → ℤ
  | ⟨.addMisses, _⟩ => 1
  | _ => 0

/-- Source: none
Kind: D -/
def gained (gain : (Σ a : Action, a.Answer) → ℤ) (l : Acts) : ℤ := (l.map gain).sum

/-- The gains of two paths add up.
Source: none
Kind: L -/
theorem gained_append (gain : (Σ a : Action, a.Answer) → ℤ) (l l' : Acts) :
    gained gain (l ++ l') = gained gain l + gained gain l' := by
  rw [gained, List.map_append, List.sum_append]
  rfl

/-- Equation lemma: the gain of the first action, and of the rest.
Source: none
Kind: L -/
theorem gained_cons (gain : (Σ a : Action, a.Answer) → ℤ) (x : Σ a : Action, a.Answer) (l : Acts) :
    gained gain (x :: l) = gain x + gained gain l := by
  rw [gained, List.map_cons, List.sum_cons]
  rfl

/-- Equation lemma: no action, no gain.
Source: none
Kind: L -/
@[simp] theorem gained_nil (gain : (Σ a : Action, a.Answer) → ℤ) : gained gain [] = 0 := rfl

/-- A plain path gains nothing that plain actions do not gain.
Source: none
Kind: L -/
theorem Plain.gained_eq {gain : (Σ a : Action, a.Answer) → ℤ}
    (hgain : ∀ x : Σ a : Action, a.Answer, x.1.plain = true → gain x = 0) {l : Acts}
    (h : Plain l) : gained gain l = 0 := by
  refine List.sum_eq_zero fun n hn => ?_
  obtain ⟨x, hx, rfl⟩ := List.mem_map.mp hn
  exact hgain x (h x hx)

/-- The actions of an eviction pass that spares `exclude`: it removes other entries only, and counts
each of them.
Source: `internal/cache/evict.go` `evictUntilUnder`
Kind: D -/
structure Passing (exclude : Option Bytes) (l : Acts) : Prop where
  spares : ∀ x ∈ l, x.1.plain = true ∨ x.1 = .addEvictions ∨
    ∃ victim, x.1 = .delete victim ∧ exclude ≠ some victim
  counts : gained unrecorded l = 0

/-- A plain action removes nothing unrecorded.
Source: `internal/cache/evict.go` `evictUntilUnder`
Kind: L -/
theorem unrecorded_of_plain (x : Σ a : Action, a.Answer) (h : x.1.plain = true) :
    unrecorded x = 0 := by
  obtain ⟨a, r⟩ := x
  cases a <;> first | rfl | exact absurd h (by simp [Action.plain])

/-- A plain action counts no hit.
Source: `internal/cache/evict.go` `evictUntilUnder`
Kind: L -/
theorem hit_of_plain (x : Σ a : Action, a.Answer) (h : x.1.plain = true) : hit x = 0 := by
  obtain ⟨a, r⟩ := x
  cases a <;> first | rfl | exact absurd h (by simp [Action.plain])

/-- A plain action counts no miss.
Source: `internal/cache/evict.go` `evictUntilUnder`
Kind: L -/
theorem missed_of_plain (x : Σ a : Action, a.Answer) (h : x.1.plain = true) : missed x = 0 := by
  obtain ⟨a, r⟩ := x
  cases a <;> first | rfl | exact absurd h (by simp [Action.plain])

/-- Plain actions remove nothing, so they are a pass.
Source: `internal/cache/evict.go` `evictUntilUnder`
Kind: L -/
theorem Plain.passing {l : Acts} (h : Plain l) (exclude : Option Bytes) : Passing exclude l where
  spares x hx := Or.inl (h x hx)
  counts := h.gained_eq unrecorded_of_plain

/-- Two passes in sequence are a pass.
Source: `internal/cache/evict.go` `evictUntilUnder`
Kind: L -/
theorem Passing.append {exclude : Option Bytes} {l l' : Acts} (h : Passing exclude l)
    (h' : Passing exclude l') : Passing exclude (l ++ l') where
  spares x hx := by
    rcases List.mem_append.mp hx with hx | hx
    · exact h.spares x hx
    · exact h'.spares x hx
  counts := by rw [gained_append, h.counts, h'.counts, add_zero]

/-- The key an eviction pass spares.
Source: `internal/cache/evict.go` `pickVictim`
Kind: D -/
def sparedKey (exclude : Bytes) (hasExclude : Bool) : Option Bytes :=
  if hasExclude = true then some exclude else none

/-- Choosing a victim is plain, and never chooses the spared key.
Source: `internal/cache/evict.go` `pickVictim`
Kind: L -/
theorem pickVictimLoop_walks (pol : EvictionPolicy) (exclude : Bytes) (hasExclude : Bool)
    (cands : List (Bytes × Entry)) : ∀ best : Option (Bytes × UInt8),
      (∀ b ∈ best, sparedKey exclude hasExclude ≠ some b.1) →
      Walks (fun l victim => Plain l ∧ ∀ v ∈ victim, sparedKey exclude hasExclude ≠ some v)
        (Cache.pickVictimLoop pol exclude hasExclude cands best) := by
  induction cands with
  | nil =>
      intro best hbest
      refine ⟨plain_nil, fun v hv => ?_⟩
      obtain ⟨b, hb, rfl⟩ := Option.map_eq_some_iff.mp hv
      exact hbest b hb
  | cons c cands ih =>
      intro best hbest
      unfold Cache.pickVictimLoop
      by_cases hspared : hasExclude = true ∧ c.1 = exclude
      · rw [if_pos hspared]
        exact ih best hbest
      have hc : sparedKey exclude hasExclude ≠ some c.1 := by
        unfold sparedKey
        by_cases hh : hasExclude = true
        · rw [if_pos hh]
          exact fun heq => hspared ⟨hh, (Option.some.inj heq).symm⟩
        · rw [if_neg hh]
          exact fun heq => by cases heq
      rw [if_neg hspared]
      by_cases hrandom : pol = .allKeysRandom
      · rw [if_pos hrandom]
        refine ⟨plain_nil, fun v hv => ?_⟩
        obtain rfl := Option.some.inj hv
        exact hc
      rw [if_neg hrandom]
      refine walks_ask fun f => ?_
      have hnext : ∀ best' : Option (Bytes × UInt8),
          (∀ b ∈ best', sparedKey exclude hasExclude ≠ some b.1) →
          Walks (fun l victim => Plain (⟨.estimate c.1, f⟩ :: l) ∧
            ∀ v ∈ victim, sparedKey exclude hasExclude ≠ some v)
            (Cache.pickVictimLoop pol exclude hasExclude cands best') :=
        fun best' hbest' => (ih best' hbest').mono fun l v h => ⟨plain_cons rfl h.1, h.2⟩
      split_ifs with hbetter
      · refine hnext _ fun b hb => ?_
        obtain rfl := Option.some.inj hb
        exact hc
      · exact hnext best hbest

/-- Settling for a victim records the eviction if there was an entry.
Source: `internal/cache/evict.go` `evictUntilUnder`
Kind: L -/
theorem settleVictim_walks (victim : Bytes) (found : Option Entry) :
    Walks (fun l _ => (∀ x ∈ l, x.1.plain = true ∨ x.1 = .addEvictions) ∧
      gained unrecorded (⟨.delete victim, found⟩ :: l) = 0)
      (Cache.settleVictim victim found) := by
  cases found with
  | none => exact ⟨fun x hx => absurd hx List.not_mem_nil, rfl⟩
  | some e =>
      refine walks_ask fun _ => walks_tell fun _ => ⟨fun x hx => ?_, rfl⟩
      rcases List.mem_cons.mp hx with rfl | hx
      · exact Or.inl rfl
      · obtain rfl := List.mem_singleton.mp hx
        exact Or.inr rfl

/-- An eviction pass from any of its rounds.
Source: `internal/cache/evict.go` `evictUntilUnder`
Kind: L -/
theorem evictLoop_walks (ceiling : ℤ) (pol : EvictionPolicy) (exclude : Bytes)
    (hasExclude : Bool) (rounds : ℕ) : ∀ misses : ℕ,
      Walks (fun l _ => Passing (sparedKey exclude hasExclude) l)
        (Cache.evictLoop ceiling pol exclude hasExclude rounds misses) := by
  induction rounds with
  | zero => exact fun misses => trivial
  | succ rounds ih =>
      intro misses
      have hone : ∀ {a : Action} (r : a.Answer), a.plain = true →
          Passing (sparedKey exclude hasExclude) [⟨a, r⟩] :=
        fun r ha => (plain_cons ha plain_nil).passing _
      unfold Cache.evictLoop
      refine walks_ask fun usage => ?_
      by_cases hover : ceiling < usage
      · rw [if_pos hover]
        refine walks_ask fun cands => ?_
        refine (pickVictimLoop_walks pol exclude hasExclude cands none
          (fun b hb => by cases hb)).seq fun l victim hpick => ?_
        have hbefore : Passing (sparedKey exclude hasExclude)
            (⟨.loadUsage, usage⟩ :: ⟨.sample Cache.sampleN, cands⟩ :: l) :=
          (plain_cons rfl (plain_cons rfl hpick.1)).passing _
        cases victim with
        | none =>
            simp only
            by_cases hgive : Cache.maxEvictMisses < misses + 1
            · rw [if_pos hgive]
              refine walks_pure ?_
              rw [List.append_nil]
              exact hbefore
            · rw [if_neg hgive]
              exact (ih (misses + 1)).mono fun l' _ h => hbefore.append h
        | some victim =>
            have hspared := hpick.2 victim rfl
            refine walks_ask fun found => ?_
            refine (settleVictim_walks victim found).seq fun l' _ hsettled => ?_
            refine (ih misses).mono fun l'' _ h => ?_
            have hvictim : Passing (sparedKey exclude hasExclude)
                (⟨.delete victim, found⟩ :: l') := by
              refine ⟨fun x hx => ?_, ?_⟩
              · rcases List.mem_cons.mp hx with rfl | hx
                · exact Or.inr (Or.inr ⟨victim, rfl, hspared⟩)
                · rcases hsettled.1 x hx with hplain | hcount
                  · exact Or.inl hplain
                  · exact Or.inr (Or.inl hcount)
              · exact hsettled.2
            exact hbefore.append (hvictim.append h)
      · rw [if_neg hover]
        refine walks_pure ?_
        exact hone usage rfl

/-- An eviction is a pass that spares its key.
Source: `internal/cache/evict.go` `evictUntilUnder`
Kind: L -/
theorem evictIfOver_walks (fuel : ℕ) (ceiling : ℤ) (pol : EvictionPolicy) (exclude : Bytes)
    (hasExclude : Bool) :
    Walks (fun l _ => Passing (sparedKey exclude hasExclude) l)
      (Cache.evictIfOver fuel ceiling pol exclude hasExclude) := by
  unfold Cache.evictIfOver
  by_cases hon : 0 < ceiling ∧ pol ≠ .noEviction
  · rw [if_pos hon]
    refine walks_ask fun usage => ?_
    have hone : Passing (sparedKey exclude hasExclude) [⟨.loadUsage, usage⟩] :=
      (plain_cons rfl plain_nil).passing _
    by_cases hover : ceiling < usage
    · rw [if_pos hover]
      exact (evictLoop_walks ceiling pol exclude hasExclude fuel 0).mono
        fun l _ h => hone.append h
    · rw [if_neg hover]
      exact walks_pure hone
  · rw [if_neg hon]
    exact walks_pure (plain_nil.passing _)

/-! ### Writes -/

/-- Source: `internal/cache/cache.go` `Del`
Kind: D -/
inductive DelPath (key : Bytes) : Acts → Bool → Prop where
  | absent : DelPath key [⟨.delete key, none⟩] false
  | present (e : Entry) (l : Acts) (dead : Bool) (h : Judged e l dead) :
      DelPath key (⟨.delete key, some e⟩ :: ⟨.addUsage (-costOf key e.value), ()⟩ :: l) (!dead)

/-- The paths of `Del`.
Source: `internal/cache/cache.go` `Del`
Kind: L -/
theorem del_walks (key : Bytes) :
    Walks (fun l r => ∃ b, r = .ok b ∧ DelPath key l b) (Cache.del none key) := by
  refine walks_ask fun found => ?_
  cases found with
  | none => exact ⟨false, rfl, .absent⟩
  | some e =>
      refine walks_ask fun _ => ?_
      refine (expired_walks e).seq fun l dead hjudged => ?_
      refine ⟨!dead, rfl, ?_⟩
      rw [List.append_nil]
      exact .present e l dead hjudged

/-- The actions with which a growing write under the noeviction policy is refused: it read a positive
ceiling, the policy, the entry it would replace and the usage, and would not fit.
Source: `internal/cache/cache.go` `Set`
Kind: D -/
inductive RefusedPath (key value : Bytes) : Acts → Prop where
  | full (ceiling usage : ℤ) (old : Option Entry) (hpos : 0 < ceiling)
      (hgrows : 0 < costOf key value - Cache.foundCost key old)
      (hfull : ceiling < usage + (costOf key value - Cache.foundCost key old)) :
      RefusedPath key value [⟨.loadMaxmemory, ceiling⟩, ⟨.loadEvictPol, .noEviction⟩,
        ⟨.get key, old⟩, ⟨.loadUsage, usage⟩]

/-- Source: `internal/cache/cache.go` `Set`
Kind: D -/
inductive SetPath (key value : Bytes) (ttl : ℤ) : Acts → Except Err Unit → Prop where
  | refused (l l' : Acts) (expiresAt : ℤ) (hdated : Dated ttl l expiresAt)
      (hfull : RefusedPath key value l') : SetPath key value ttl (l ++ l') (.error .oom)
  | stored (l l' l'' : Acts) (expiresAt : ℤ) (old : Option Entry) (hdated : Dated ttl l expiresAt)
      (hplain : Plain l') (hpass : Passing (some key) l'') :
      SetPath key value ttl (l ++ (l' ++ ⟨.swap key ⟨value, expiresAt⟩, old⟩ :: l'')) (.ok ())

/-- A refused write only reads.
Source: `internal/cache/cache.go` `Set`
Kind: L -/
theorem RefusedPath.plain {key value : Bytes} {l : Acts} (h : RefusedPath key value l) :
    Plain l := by
  cases h with
  | full => exact plain_cons rfl (plain_cons rfl (plain_cons rfl (plain_cons rfl plain_nil)))

/-- The guard of `Set` only reads, and where it refuses the write it has read why.
Source: `internal/cache/cache.go` `Set`
Kind: L -/
theorem rejects_walks (ceiling : ℤ) (pol : EvictionPolicy) (key value : Bytes) :
    Walks (fun l oom => Plain l ∧ (oom = true →
      RefusedPath key value (⟨.loadMaxmemory, ceiling⟩ :: ⟨.loadEvictPol, pol⟩ :: l)))
      (Cache.rejects ceiling pol key (costOf key value)) := by
  unfold Cache.rejects
  by_cases hguard : 0 < ceiling ∧ pol = .noEviction
  · rw [if_pos hguard]
    obtain ⟨hpos, rfl⟩ := hguard
    refine walks_ask fun old => ?_
    by_cases hgrow : 0 < costOf key value - Cache.foundCost key old
    · rw [if_pos hgrow]
      refine walks_ask fun usage => ⟨plain_cons rfl (plain_cons rfl plain_nil), fun hfull => ?_⟩
      exact .full ceiling usage old hpos hgrow (of_decide_eq_true hfull)
    · rw [if_neg hgrow]
      exact ⟨plain_cons rfl plain_nil, fun hfull => absurd hfull (by decide)⟩
  · rw [if_neg hguard]
    exact ⟨plain_nil, fun hfull => absurd hfull (by decide)⟩

/-- `Set` is refused with a reason or stores its entry.
Source: `internal/cache/cache.go` `Set`
Kind: L -/
theorem set_walks (fuel : ℕ) (key value : Bytes) (ttl : ℤ) :
    Walks (SetPath key value ttl) (Cache.set fuel none key value ttl) := by
  refine (expiry_walks ttl).seq fun l expiresAt hdated => ?_
  refine walks_ask fun ceiling => walks_ask fun pol => ?_
  refine (rejects_walks ceiling pol key value).seq fun l' oom hguard => ?_
  have hbefore : Plain (⟨.loadMaxmemory, ceiling⟩ :: ⟨.loadEvictPol, pol⟩ :: l') :=
    plain_cons rfl (plain_cons rfl hguard.1)
  cases oom with
  | true =>
      have hrefused := SetPath.refused l _ expiresAt hdated (hguard.2 rfl)
      refine walks_pure ?_
      rwa [List.append_nil]
  | false =>
      refine walks_ask fun old => walks_ask fun _ => ?_
      refine (evictIfOver_walks fuel ceiling pol key true).seq fun l'' _ hpass => ?_
      have hafter : Passing (some key)
          (⟨.addUsage (costOf key value - Cache.foundCost key old), ()⟩ :: l'') :=
        ((plain_cons rfl plain_nil).passing _).append hpass
      refine walks_pure ?_
      rw [List.append_nil]
      exact .stored l _ _ expiresAt old hdated hbefore hafter

/-! ### Tuning -/

/-- Deciding whether the tracker is active is plain.
Source: `internal/cache/cache.go` `refreshActive`
Kind: L -/
theorem refreshActive_walks : Walks (fun l _ => Plain l) Cache.refreshActive := by
  refine walks_ask fun pol => ?_
  by_cases hpol : pol = .allKeysLFU
  · rw [if_pos hpol]
    exact walks_ask fun _ => walks_tell fun _ =>
      plain_cons rfl (plain_cons rfl (plain_cons rfl plain_nil))
  · rw [if_neg hpol]
    exact walks_tell fun _ => plain_cons rfl (plain_cons rfl plain_nil)

/-- Resizing the tracker is plain.
Source: `internal/cache/cache.go` `SetMaxMemory`
Kind: L -/
theorem resizePolicy_walks (counters old : ℤ) :
    Walks (fun l _ => Plain l) (Cache.resizePolicy counters old) := by
  unfold Cache.resizePolicy
  by_cases hne : counters ≠ old
  · rw [if_pos hne]
    exact walks_ask fun _ => walks_tell fun _ => plain_cons rfl (plain_cons rfl plain_nil)
  · rw [if_neg hne]
    exact plain_nil

/-- `SetMaxMemory` stores the ceiling first; after that it does no more than an eviction pass does.
Source: `internal/cache/cache.go` `SetMaxMemory`
Kind: L -/
theorem setMaxMemory_walks (fuel : ℕ) (bytes : ℤ) :
    Walks (fun l _ => ∃ l', l = ⟨.storeMaxmemory bytes, ()⟩ :: l' ∧ Passing none l')
      (Cache.setMaxMemory fuel bytes) := by
  refine walks_ask fun _ => walks_ask fun mm => walks_ask fun old => ?_
  refine (resizePolicy_walks _ old).seq fun l _ hl => ?_
  refine refreshActive_walks.seq fun l' _ hl' => ?_
  have hbefore : Passing none (⟨.loadMaxmemory, mm⟩ ::
      ⟨.swapPolicyCounters (countersFor mm), old⟩ :: (l ++ l')) :=
    (plain_cons rfl (plain_cons rfl (hl.append hl'))).passing _
  have hdone : Walks (fun l _ => Passing none l) (Cache.evictDown fuel bytes) := by
    unfold Cache.evictDown
    by_cases hpos : 0 < bytes
    · rw [if_pos hpos]
      refine walks_ask fun pol => (evictIfOver_walks fuel bytes pol [] false).mono ?_
      exact fun l _ h => ((plain_cons rfl plain_nil).passing _).append h
    · rw [if_neg hpos]
      exact plain_nil.passing _
  refine hdone.mono fun l'' _ h => ?_
  have hall := hbefore.append h
  refine ⟨_, rfl, ?_⟩
  simpa only [List.cons_append, List.append_assoc] using hall

/-- `SetEvictionPolicy` stores the policy first; after that it only reads and switches the drainer.
Source: `internal/cache/cache.go` `SetEvictionPolicy`
Kind: L -/
theorem setEvictionPolicy_walks (p : EvictionPolicy) :
    Walks (fun l _ => ∃ l', l = ⟨.storeEvictPol p, ()⟩ :: l' ∧ Plain l')
      (Cache.setEvictionPolicy p) :=
  walks_ask fun _ => refreshActive_walks.mono fun l _ hl => ⟨l, rfl, hl⟩

/-! ### Calls -/

/-- The actions and the reply of every call.
Source: `internal/cache/cache.go` `Cache`
Kind: D -/
inductive CallPath : Call → Acts → Reply → Prop where
  | get {key : Bytes} {l : Acts} {v : Option Bytes} (h : GetPath key l v) :
      CallPath (.get none key) l (.value (.ok v))
  | set {key value : Bytes} {ttl : ℤ} {l : Acts} {r : Except Err Unit}
      (h : SetPath key value ttl l r) : CallPath (.set none key value ttl) l (.stored r)
  | del {key : Bytes} {l : Acts} {b : Bool} (h : DelPath key l b) :
      CallPath (.del none key) l (.existed (.ok b))
  | ttl {key : Bytes} {l : Acts} {v : Option ℤ} (h : TtlPath key l v) :
      CallPath (.ttl none key) l (.remaining (.ok v))
  | len {ctx : Ctx} {l : Acts} (r : Except Err ℕ) (h : Plain l) : CallPath (.len ctx) l (.size r)
  | setMaxMemory {bytes : ℤ} {l : Acts} (h : Passing none l) :
      CallPath (.setMaxMemory bytes) (⟨.storeMaxmemory bytes, ()⟩ :: l) .done
  | setEvictionPolicy {p : EvictionPolicy} {l : Acts} (h : Plain l) :
      CallPath (.setEvictionPolicy p) (⟨.storeEvictPol p, ()⟩ :: l) .done
  | getCanceled (err : CtxErr) (key : Bytes) :
      CallPath (.get (some err) key) [] (.value (.error (.ctx err)))
  | setCanceled (err : CtxErr) (key value : Bytes) (ttl : ℤ) :
      CallPath (.set (some err) key value ttl) [] (.stored (.error (.ctx err)))
  | delCanceled (err : CtxErr) (key : Bytes) :
      CallPath (.del (some err) key) [] (.existed (.error (.ctx err)))
  | ttlCanceled (err : CtxErr) (key : Bytes) :
      CallPath (.ttl (some err) key) [] (.remaining (.error (.ctx err)))

/-- Every call walks one of the paths of its method.
Source: `internal/cache/cache.go` `Cache`
Kind: P -/
theorem Call.prog_walks (fuel : ℕ) (c : Call) : Walks (CallPath c) (c.prog fuel) := by
  cases c with
  | get ctx key =>
      cases ctx with
      | some err => exact .getCanceled err key
      | none =>
          refine (get_walks key).seq fun l r hl => ?_
          obtain ⟨v, rfl, hpath⟩ := hl
          refine walks_pure ?_
          rw [List.append_nil]
          exact .get hpath
  | set ctx key value ttl =>
      cases ctx with
      | some err => exact .setCanceled err key value ttl
      | none =>
          refine (set_walks fuel key value ttl).seq fun l r hpath => ?_
          refine walks_pure ?_
          rw [List.append_nil]
          exact .set hpath
  | del ctx key =>
      cases ctx with
      | some err => exact .delCanceled err key
      | none =>
          refine (del_walks key).seq fun l r hl => ?_
          obtain ⟨b, rfl, hpath⟩ := hl
          refine walks_pure ?_
          rw [List.append_nil]
          exact .del hpath
  | ttl ctx key =>
      cases ctx with
      | some err => exact .ttlCanceled err key
      | none =>
          refine (ttl_walks key).seq fun l r hl => ?_
          obtain ⟨v, rfl, hpath⟩ := hl
          refine walks_pure ?_
          rw [List.append_nil]
          exact .ttl hpath
  | len ctx =>
      refine (len_walks ctx).seq fun l r hpath => ?_
      refine walks_pure ?_
      rw [List.append_nil]
      exact .len r hpath
  | setMaxMemory bytes =>
      refine (setMaxMemory_walks fuel bytes).seq fun l _ hpath => ?_
      obtain ⟨l', rfl, hpath⟩ := hpath
      refine walks_pure ?_
      rw [List.append_nil]
      exact .setMaxMemory hpath
  | setEvictionPolicy p =>
      refine (setEvictionPolicy_walks p).seq fun l _ hpath => ?_
      obtain ⟨l', rfl, hpath⟩ := hpath
      refine walks_pure ?_
      rw [List.append_nil]
      exact .setEvictionPolicy hpath

end CacheMoney.Engine
