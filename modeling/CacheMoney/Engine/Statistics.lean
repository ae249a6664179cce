import CacheMoney.Engine.Paths

/-!
# The counters of `Stats`

Hits, misses and evictions are counted in separate atomics, some time after the map operation they
are about. While calls are in progress the counters lag behind; here is what they are when no call
is in progress.

* `Accounted`: what one call adds to the counters, by its reply.
* `stats_exact`: at rest every `Get` is counted once and as what it replied, and every entry that
  was ever created is stored, was evicted and counted as such, or was removed by a `Del`.
-/

namespace CacheMoney.Engine

open CacheMoney.Found CacheMoney.Shardmap

/-- Source: `internal/cache/stats.go` `Stats`
Kind: D -/
structure Stats where
  hits : ℕ
  misses : ℕ
  evictions : ℕ
  usage : ℤ
  maxMemory : ℤ
  deriving DecidableEq, Repr

/-- The five loads, with nothing in between.
Source: `internal/cache/stats.go` `Stats`
Kind: D -/
def Cache.stats {S : Type} (c : Cache S) : Stats :=
  { hits := c.hits
    misses := c.misses
    evictions := c.evictions
    usage := c.usage
    maxMemory := c.maxmemory }

/-! ### Replies -/

/-- A `Get` that returned a value.
Source: `internal/cache/cache.go` `Get`
Kind: D -/
def Reply.isHit : Reply → Bool
  | .value (.ok (some _)) => true
  | _ => false

/-- A `Get` that returned no value and no error.
Source: `internal/cache/cache.go` `Get`
Kind: D -/
def Reply.isMiss : Reply → Bool
  | .value (.ok none) => true
  | _ => false

/-- A `Del` that reported a live key.
Source: `internal/cache/cache.go` `Del`
Kind: D -/
def Reply.isDeletion : Reply → Bool
  | .existed (.ok b) => b
  | _ => false

/-- A `Del` that returned no error.
Source: `internal/cache/cache.go` `Del`
Kind: D -/
def Reply.isDel : Reply → Bool
  | .existed (.ok _) => true
  | _ => false

/-- Source: none
Kind: D -/
def indicator (b : Bool) : ℤ := if b = true then 1 else 0

/-- What a call adds to the counters. `Del` removes an entry without counting it, also one that has
expired and that it reports as absent.
Source: `internal/cache/cache.go` `Get`, `Set`, `Del`; `internal/cache/evict.go` `evictUntilUnder`
Kind: D -/
structure Accounted (l : Acts) (reply : Reply) : Prop where
  hits : gained hit l = indicator reply.isHit
  misses : gained missed l = indicator reply.isMiss
  deletion_le : indicator reply.isDeletion ≤ gained unrecorded l
  le_del : gained unrecorded l ≤ indicator reply.isDel

/-- An eviction pass counts neither hits nor misses.
Source: `internal/cache/cache.go` `Get`, `Set`, `Del`; `internal/cache/evict.go` `evictUntilUnder`
Kind: L -/
theorem Passing.uncounted {exclude : Option Bytes} {l : Acts} (h : Passing exclude l) :
    gained hit l = 0 ∧ gained missed l = 0 := by
  constructor
  · refine List.sum_eq_zero fun n hn => ?_
    obtain ⟨⟨a, r⟩, hx, rfl⟩ := List.mem_map.mp hn
    rcases h.spares _ hx with hplain | hcount | ⟨victim, hvictim, -⟩
    · exact hit_of_plain _ hplain
    · simp only at hcount
      subst hcount
      rfl
    · simp only at hvictim
      subst hvictim
      rfl
  · refine List.sum_eq_zero fun n hn => ?_
    obtain ⟨⟨a, r⟩, hx, rfl⟩ := List.mem_map.mp hn
    rcases h.spares _ hx with hplain | hcount | ⟨victim, hvictim, -⟩
    · exact missed_of_plain _ hplain
    · simp only at hcount
      subst hcount
      rfl
    · simp only at hvictim
      subst hvictim
      rfl

/-- A call that does no more than an eviction pass does.
Source: none
Kind: L -/
theorem Passing.accounted {exclude : Option Bytes} {l : Acts} {reply : Reply}
    (h : Passing exclude l) (hget : reply.isHit = false ∧ reply.isMiss = false)
    (hdel : reply.isDel = false ∧ reply.isDeletion = false) : Accounted l reply where
  hits := by rw [h.uncounted.1, hget.1]; rfl
  misses := by rw [h.uncounted.2, hget.2]; rfl
  deletion_le := by rw [h.counts, hdel.2]; rfl
  le_del := by rw [h.counts, hdel.1]; rfl

/-- An action that counts nothing.
Source: none
Kind: L -/
theorem Accounted.cons {x : Σ a : Action, a.Answer} {l : Acts} {reply : Reply}
    (h : Accounted l reply) (hhit : hit x = 0) (hmissed : missed x = 0)
    (hunrecorded : unrecorded x = 0) : Accounted (x :: l) reply where
  hits := by rw [gained_cons, hhit, zero_add, h.hits]
  misses := by rw [gained_cons, hmissed, zero_add, h.misses]
  deletion_le := by rw [gained_cons, hunrecorded, zero_add]; exact h.deletion_le
  le_del := by rw [gained_cons, hunrecorded, zero_add]; exact h.le_del

/-- `Get` counts a hit or a miss, as it replies.
Source: `internal/cache/cache.go` `Get`
Kind: L -/
theorem GetPath.accounted {key : Bytes} {l : Acts} {v : Option Bytes} (h : GetPath key l v) :
    Accounted l (.value (.ok v)) := by
  cases h with
  | absent => exact ⟨rfl, rfl, le_rfl, le_rfl⟩
  | dead e l h =>
      refine ⟨?_, ?_, ?_, ?_⟩
      · rw [gained_cons, gained_append, h.plain.gained_eq hit_of_plain]
        rfl
      · rw [gained_cons, gained_append, h.plain.gained_eq missed_of_plain]
        rfl
      · rw [gained_cons, gained_append, h.plain.gained_eq unrecorded_of_plain]
        exact le_rfl
      · rw [gained_cons, gained_append, h.plain.gained_eq unrecorded_of_plain]
        exact le_rfl
  | live e l h =>
      refine ⟨?_, ?_, ?_, ?_⟩
      · rw [gained_cons, gained_append, h.plain.gained_eq hit_of_plain]
        rfl
      · rw [gained_cons, gained_append, h.plain.gained_eq missed_of_plain]
        rfl
      · rw [gained_cons, gained_append, h.plain.gained_eq unrecorded_of_plain]
        exact le_rfl
      · rw [gained_cons, gained_append, h.plain.gained_eq unrecorded_of_plain]
        exact le_rfl

/-- `Del` counts neither.
Source: `internal/cache/cache.go` `Del`
Kind: L -/
theorem DelPath.accounted {key : Bytes} {l : Acts} {b : Bool} (h : DelPath key l b) :
    Accounted l (.existed (.ok b)) := by
  cases h with
  | absent => exact ⟨rfl, rfl, le_rfl, zero_le_one⟩
  | present e l dead h =>
      have hone : gained unrecorded (⟨.delete key, some e⟩ ::
          ⟨.addUsage (-costOf key e.value), ()⟩ :: l) = 1 := by
        rw [gained_cons, gained_cons, h.plain.gained_eq unrecorded_of_plain]
        rfl
      refine ⟨?_, ?_, ?_, hone.le⟩
      · rw [gained_cons, gained_cons, h.plain.gained_eq hit_of_plain]
        rfl
      · rw [gained_cons, gained_cons, h.plain.gained_eq missed_of_plain]
        rfl
      · rw [hone]
        cases dead <;> decide

/-- `Set` counts neither.
Source: `internal/cache/cache.go` `Set`
Kind: L -/
theorem SetPath.accounted {key value : Bytes} {ttl : ℤ} {l : Acts} {r : Except Err Unit}
    (h : SetPath key value ttl l r) : Accounted l (.stored r) := by
  cases h with
  | refused l l' expiresAt hdated hfull =>
      exact ((hdated.plain.append hfull.plain).passing none).accounted ⟨rfl, rfl⟩ ⟨rfl, rfl⟩
  | stored l l' l'' expiresAt old hdated hplain hpass =>
      have hbefore := hdated.plain.append hplain
      rw [← List.append_assoc]
      have hzero : gained unrecorded
          (l ++ l' ++ ⟨.swap key ⟨value, expiresAt⟩, old⟩ :: l'') = 0 := by
        rw [gained_append, gained_cons, hbefore.gained_eq unrecorded_of_plain, hpass.counts]
        rfl
      refine ⟨?_, ?_, hzero.ge, hzero.le⟩
      · rw [gained_append, gained_cons, hbefore.gained_eq hit_of_plain, hpass.uncounted.1]
        rfl
      · rw [gained_append, gained_cons, hbefore.gained_eq missed_of_plain, hpass.uncounted.2]
        rfl

/-- Every call is accounted for by its reply.
Source: `internal/cache/cache.go` `Cache`
Kind: L -/
theorem CallPath.accounted {c : Call} {l : Acts} {reply : Reply} (h : CallPath c l reply) :
    Accounted l reply := by
  cases h with
  | get h => exact h.accounted
  | set h => exact h.accounted
  | del h => exact h.accounted
  | ttl h => exact (h.plain.passing none).accounted ⟨rfl, rfl⟩ ⟨rfl, rfl⟩
  | len r h => exact (h.passing none).accounted ⟨rfl, rfl⟩ ⟨rfl, rfl⟩
  | setMaxMemory h => exact (h.accounted ⟨rfl, rfl⟩ ⟨rfl, rfl⟩).cons rfl rfl rfl
  | setEvictionPolicy h =>
      exact ((h.passing none).accounted ⟨rfl, rfl⟩ ⟨rfl, rfl⟩).cons rfl rfl rfl
  | _ => exact ⟨rfl, rfl, le_rfl, le_rfl⟩

/-- Every method counts as it replies.
Source: `internal/cache/cache.go` `Cache`
Kind: L -/
theorem Startable.accounted {p : CacheM Reply} (h : Startable p) : Walks Accounted p := by
  cases h with
  | call fuel c => exact (c.prog_walks fuel).mono fun _ _ h => h.accounted
  | pass fuel ceiling pol exclude hasExclude =>
      refine (evictLoop_walks ceiling pol exclude hasExclude fuel 0).seq fun l _ h => ?_
      refine walks_pure ?_
      rw [List.append_nil]
      exact h.accounted ⟨rfl, rfl⟩ ⟨rfl, rfl⟩

/-! ### The counters -/

/-- An entry for a key that had none.
Source: `internal/cache/cache.go` `Set`
Kind: D -/
def creation : (Σ a : Action, a.Answer) → ℤ
  | ⟨.swap _ _, none⟩ => 1
  | _ => 0

/-- An entry that was removed.
Source: `internal/cache/cache.go` `Del`; `internal/cache/evict.go` `evictUntilUnder`
Kind: D -/
def removal : (Σ a : Action, a.Answer) → ℤ
  | ⟨.delete _, some _⟩ => 1
  | _ => 0

/-- What an action adds to the eviction counter.
Source: `internal/cache/cache.go` `evictions`
Kind: D -/
def evicted : (Σ a : Action, a.Answer) → ℤ
  | ⟨.addEvictions, _⟩ => 1
  | _ => 0

/-- What is unrecorded is removed and not counted as evicted.
Source: `internal/cache/cache.go` `evictions`
Kind: L -/
theorem unrecorded_eq (x : Σ a : Action, a.Answer) : unrecorded x = removal x - evicted x := by
  obtain ⟨a, r⟩ := x
  cases a with
  | delete key => cases r <;> rfl
  | _ => rfl

/-- The number of stored entries, expired ones included.
Source: `internal/shardmap/map.go` `Len`
Kind: D -/
def storedEntries {S : Type} (c : Cache S) : ℕ := c.m.contents.card

/-- The number of stored entries is the weight that gives one to each.
Source: `internal/shardmap/map.go` `Len`
Kind: L -/
theorem storedEntries_eq {S : Type} {c : Cache S} {f : FinMap Bytes Entry}
    (h : c.m.Represents f) : (storedEntries c : ℤ) = weight (fun _ _ => 1) f := by
  rw [storedEntries, h.contents_eq, weight, Multiset.map_const', Multiset.sum_replicate,
    nsmul_eq_mul, mul_one]

/-- Each action moves the three counters by its own gain.
Source: `internal/cache/cache.go` `hits`, `misses`, `evictions`
Kind: L -/
theorem exec_counts {S : Type} (fuel : ℕ) (a : Action) (w : World S) (r : a.Answer) (w' : World S)
    (h : exec fuel a w = .ok (r, w')) :
    (w'.cache.hits : ℤ) = w.cache.hits + hit ⟨a, r⟩ ∧
      (w'.cache.misses : ℤ) = w.cache.misses + missed ⟨a, r⟩ ∧
      (w'.cache.evictions : ℤ) = w.cache.evictions + evicted ⟨a, r⟩ := by
  have hsame : w'.cache.hits = w.cache.hits → w'.cache.misses = w.cache.misses →
      w'.cache.evictions = w.cache.evictions → hit ⟨a, r⟩ = 0 → missed ⟨a, r⟩ = 0 →
      evicted ⟨a, r⟩ = 0 → (w'.cache.hits : ℤ) = w.cache.hits + hit ⟨a, r⟩ ∧
        (w'.cache.misses : ℤ) = w.cache.misses + missed ⟨a, r⟩ ∧
        (w'.cache.evictions : ℤ) = w.cache.evictions + evicted ⟨a, r⟩ := by
    intro h₁ h₂ h₃ h₄ h₅ h₆
    rw [h₁, h₂, h₃, h₄, h₅, h₆]
    exact ⟨(add_zero _).symm, (add_zero _).symm, (add_zero _).symm⟩
  cases a with
  | get key =>
      obtain ⟨e, -, he⟩ := bind_eq_ok_iff.mp h
      cases he
      exact hsame rfl rfl rfl rfl rfl rfl
  | swap key e =>
      obtain ⟨x, -, hx⟩ := bind_eq_ok_iff.mp h
      cases hx
      exact hsame rfl rfl rfl rfl rfl rfl
  | delete key =>
      obtain ⟨x, -, hx⟩ := bind_eq_ok_iff.mp h
      cases hx
      exact hsame rfl rfl rfl rfl rfl rfl
  | sample n =>
      obtain ⟨x, -, hx⟩ := bind_eq_ok_iff.mp h
      cases hx
      exact hsame rfl rfl rfl rfl rfl rfl
  | range =>
      obtain ⟨x, -, hx⟩ := bind_eq_ok_iff.mp h
      cases hx
      exact hsame rfl rfl rfl rfl rfl rfl
  | addHits =>
      cases h
      exact ⟨by push_cast; rfl, (add_zero _).symm, (add_zero _).symm⟩
  | addMisses =>
      cases h
      exact ⟨(add_zero _).symm, by push_cast; rfl, (add_zero _).symm⟩
  | addEvictions =>
      cases h
      exact ⟨(add_zero _).symm, (add_zero _).symm, by push_cast; rfl⟩
  | _ =>
      cases h
      exact hsame rfl rfl rfl rfl rfl rfl

/-- Entries come with a `Swap` and go with a `Delete`.
Source: `internal/cache/cache.go` `Cache`
Kind: L -/
theorem exec_entries {S : Type} (fuel : ℕ) (a : Action) (w : World S) (r : a.Answer)
    (w' : World S) (hf : ∃ f, w.cache.m.Represents f) (hexec : exec fuel a w = .ok (r, w')) :
    (∃ f, w'.cache.m.Represents f) ∧
      (storedEntries w'.cache : ℤ) = storedEntries w.cache +
        (creation ⟨a, r⟩ - removal ⟨a, r⟩) := by
  obtain ⟨f, hf⟩ := hf
  have hkept : w'.cache.m = w.cache.m → creation ⟨a, r⟩ - removal ⟨a, r⟩ = 0 →
      (∃ f, w'.cache.m.Represents f) ∧ (storedEntries w'.cache : ℤ) = storedEntries w.cache +
        (creation ⟨a, r⟩ - removal ⟨a, r⟩) := by
    intro hm hzero
    rw [hzero, add_zero, storedEntries, storedEntries, hm]
    exact ⟨⟨f, hf⟩, rfl⟩
  cases a with
  | swap key e =>
      obtain ⟨hr, m, -, hm, hw'⟩ := (exec_swap hf fuel key e).of_ok hexec
      simp only at hr hw'
      subst hr hw'
      refine ⟨⟨_, hm⟩, ?_⟩
      rw [storedEntries_eq hf, storedEntries_eq (c := { w.cache with m := m }) hm, weight_insert]
      cases f.lookup key with
      | none => rfl
      | some old => simp [creation, removal]
  | delete key =>
      obtain ⟨hr, m, -, hm, hw'⟩ := (exec_delete hf fuel key).of_ok hexec
      simp only at hr hw'
      subst hr hw'
      refine ⟨⟨_, hm⟩, ?_⟩
      rw [storedEntries_eq hf, storedEntries_eq (c := { w.cache with m := m }) hm, weight_erase]
      cases f.lookup key with
      | none => simp [creation, removal]
      | some old => simp [creation, removal, sub_eq_add_neg]
  | get key =>
      obtain ⟨-, hw'⟩ := (exec_get hf fuel key).of_ok hexec
      exact hkept (congrArg (fun w => w.cache.m) hw') rfl
  | sample n =>
      obtain ⟨-, rand, -, hw'⟩ := (exec_sample hf fuel n).of_ok hexec
      exact hkept (congrArg (fun w => w.cache.m) hw') rfl
  | range =>
      obtain ⟨-, hw'⟩ := (exec_range hf fuel).of_ok hexec
      exact hkept (congrArg (fun w => w.cache.m) hw') rfl
  | _ =>
      cases hexec
      exact hkept rfl rfl

/-- Gains are subtracted action by action.
Source: none
Kind: L -/
theorem gained_sub (f g : (Σ a : Action, a.Answer) → ℤ) (l : Acts) :
    gained (fun x => f x - g x) l = gained f l - gained g l := by
  induction l with
  | nil => rfl
  | cons x l ih =>
      rw [gained_cons, gained_cons, gained_cons, ih]
      ring

/-- If no call gains more than its reply says, all calls together do not.
Source: none
Kind: L -/
theorem sum_le_countP {g : Acts → ℤ} {p : Reply → Bool} (ended : List (Acts × Reply))
    (h : ∀ c ∈ ended, g c.1 ≤ indicator (p c.2)) :
    (ended.map fun c => g c.1).sum ≤ ((ended.map Prod.snd).countP p : ℤ) := by
  induction ended with
  | nil => exact le_rfl
  | cons c ended ih =>
      have hc := h c List.mem_cons_self
      have hrest := ih fun c' hc' => h c' (List.mem_cons_of_mem c hc')
      rw [List.map_cons, List.sum_cons, List.map_cons, List.countP_cons]
      unfold indicator at hc
      split_ifs at hc ⊢ with hp
      · push_cast
        omega
      · push_cast
        omega

/-- If every call gains what its reply says, all calls together do.
Source: none
Kind: L -/
theorem countP_le_sum {g : Acts → ℤ} {p : Reply → Bool} (ended : List (Acts × Reply))
    (h : ∀ c ∈ ended, indicator (p c.2) ≤ g c.1) :
    ((ended.map Prod.snd).countP p : ℤ) ≤ (ended.map fun c => g c.1).sum := by
  induction ended with
  | nil => exact le_rfl
  | cons c ended ih =>
      have hc := h c List.mem_cons_self
      have hrest := ih fun c' hc' => h c' (List.mem_cons_of_mem c hc')
      rw [List.map_cons, List.countP_cons, List.map_cons, List.sum_cons]
      unfold indicator at hc
      split_ifs at hc ⊢ with hp
      · push_cast
        omega
      · push_cast
        omega

/-- Any number of clients, any interleaving. When no call is in progress, `Stats` is exact: the hits
are the `Get` calls that returned a value, the misses those that returned none, and the entries that
were ever created are those stored, those evicted and those removed by a `Del`, of which there are
at least as many as `Del` reported and at most one for each `Del`.
Source: `internal/cache/stats.go` `Stats`; `internal/cache/cache.go` `Get`, `Set`, `Del`
Kind: P
Fidelity: exact -/
theorem stats_exact {S ι : Type} [Fintype ι] [DecidableEq ι] (host : Host S)
    (hasher : S → Bytes → UInt64) (opts : List (CacheOpt S))
    (hhost : host.gomaxprocs * 4 ≤ 2 ^ 62)
    (hopts : ∀ n, CacheOpt.withShards n ∈ opts → n ≤ 2 ^ 62) (env : Env) (fuel : ℕ)
    (log : List (Found.Event ι Action Action.Answer Reply))
    (s : Pool ι Action Action.Answer Reply (World S))
    (htrace : Pool.Trace (exec fuel) Startable
      ⟨⟨Cache.new host hasher opts, env⟩, fun _ => none⟩ log s)
    (hrest : ∀ i, s.threads i = none) :
    s.world.cache.stats.hits = (log.filterMap Event.reply?).countP Reply.isHit ∧
      s.world.cache.stats.misses = (log.filterMap Event.reply?).countP Reply.isMiss ∧
      ∃ deleted : ℕ,
        gained creation (log.filterMap Event.action?) =
          storedEntries s.world.cache + s.world.cache.stats.evictions + deleted ∧
        (log.filterMap Event.reply?).countP Reply.isDeletion ≤ deleted ∧
        deleted ≤ (log.filterMap Event.reply?).countP Reply.isDel := by
  obtain ⟨ended, since, hc⟩ := htrace.composed fun p hp => Startable.accounted hp
  have hnew := (holds_new host hasher opts hhost hopts).represents
  have hgain : ∀ gain, gained gain (log.filterMap Event.action?) =
      (ended.map fun c => gained gain c.1).sum := fun gain => hc.gain_at_rest hrest gain
  have hlower : ∀ {gain p}, (∀ l reply, Accounted l reply → indicator (p reply) ≤ gained gain l) →
      ((log.filterMap Event.reply?).countP p : ℤ) ≤ gained gain (log.filterMap Event.action?) := by
    intro gain p hle
    rw [hgain, hc.replies]
    exact countP_le_sum ended fun c hcmem => hle c.1 c.2 (hc.ended_ok c hcmem)
  have hupper : ∀ {gain p}, (∀ l reply, Accounted l reply → gained gain l ≤ indicator (p reply)) →
      gained gain (log.filterMap Event.action?) ≤ ((log.filterMap Event.reply?).countP p : ℤ) := by
    intro gain p hle
    rw [hgain, hc.replies]
    exact sum_le_countP ended fun c hcmem => hle c.1 c.2 (hc.ended_ok c hcmem)
  obtain ⟨-, hhits⟩ := htrace.measured (fun w => (w.cache.hits : ℤ)) hit
    (fun a w r w' (_ : True) h => ⟨trivial, (exec_counts fuel a w r w' h).1⟩) trivial
  obtain ⟨-, hmisses⟩ := htrace.measured (fun w => (w.cache.misses : ℤ)) missed
    (fun a w r w' (_ : True) h => ⟨trivial, (exec_counts fuel a w r w' h).2.1⟩) trivial
  obtain ⟨-, hevictions⟩ := htrace.measured (fun w => (w.cache.evictions : ℤ)) evicted
    (fun a w r w' (_ : True) h => ⟨trivial, (exec_counts fuel a w r w' h).2.2⟩) trivial
  obtain ⟨-, hentries⟩ := htrace.measured (fun w => (storedEntries w.cache : ℤ))
    (fun x => creation x - removal x) (exec_entries fuel) ⟨∅, hnew⟩
  have hzero : (storedEntries (Cache.new host hasher opts) : ℤ) = 0 := by
    rw [storedEntries_eq hnew]
    rfl
  refine ⟨?_, ?_, ?_⟩
  · have heq := le_antisymm (hupper fun l reply h => h.hits.le) (hlower fun l reply h => h.hits.ge)
    exact_mod_cast (hhits.trans (zero_add _)).trans heq
  · have heq :=
      le_antisymm (hupper fun l reply h => h.misses.le) (hlower fun l reply h => h.misses.ge)
    exact_mod_cast (hmisses.trans (zero_add _)).trans heq
  · have hle := hlower fun l reply h => h.deletion_le
    have hle' := hupper fun l reply h => h.le_del
    have hsplit : gained unrecorded (log.filterMap Event.action?) =
        gained removal (log.filterMap Event.action?) -
          gained evicted (log.filterMap Event.action?) := by
      rw [← gained_sub, ← funext unrecorded_eq]
    have hstored : (storedEntries s.world.cache : ℤ) =
        gained creation (log.filterMap Event.action?) -
          gained removal (log.filterMap Event.action?) := by
      rw [← gained_sub]
      exact hentries.trans ((congrArg (· + _) hzero).trans (zero_add _))
    have hcount : (s.world.cache.evictions : ℤ) = gained evicted (log.filterMap Event.action?) :=
      hevictions.trans (zero_add _)
    refine ⟨(gained unrecorded (log.filterMap Event.action?)).toNat, ?_, ?_, ?_⟩
    · rw [Int.toNat_of_nonneg (le_trans (Int.natCast_nonneg _) hle)]
      change _ = _ + (s.world.cache.evictions : ℤ) + _
      omega
    · omega
    · omega

/-- One client stores a key and reads it.
Source: `internal/cache/stats.go` `Stats`
Kind: C -/
theorem stats_exact_read :
    ∃ (log : List (Found.Event Unit Action Action.Answer Reply))
      (s : Pool Unit Action Action.Answer Reply (World Unit)),
      Pool.Trace (exec 9) Startable
        ⟨⟨Cache.new ⟨1, ()⟩ (fun _ _ => 0) [.withShards 1], stillEnv 0⟩, fun _ => none⟩ log s ∧
      s.world.cache.stats.hits = 1 ∧
      s.world.cache.stats.hits = (log.filterMap Event.reply?).countP Reply.isHit := by
  have htrace : ∃ (log : List (Found.Event Unit Action Action.Answer Reply))
      (s : Pool Unit Action Action.Answer Reply (World Unit)),
      Pool.Trace (exec 9) Startable
        ⟨⟨Cache.new ⟨1, ()⟩ (fun _ _ => 0) [.withShards 1], stillEnv 0⟩, fun _ => none⟩ log s ∧
      s.world.cache.stats.hits = 1 ∧ s.threads () = none :=
    ⟨_, _, .cons (.called _ () _ rfl (.call 9 (.set none [97] [1] 0))) <|
      .cons (.done _ () Action.loadMaxmemory _ _ _ _ rfl rfl) <|
      .cons (.done _ () Action.loadEvictPol _ _ _ _ rfl rfl) <|
      .cons (.done _ () (Action.swap [97] ⟨[1], zeroTime⟩) _ _ _ _ rfl rfl) <|
      .cons (.done _ () (Action.addUsage 66) _ _ _ _ rfl rfl) <|
      .cons (.returned _ () _ _ rfl) <|
      .cons (.called _ () _ rfl (.call 9 (.get none [97]))) <|
      .cons (.done _ () (Action.get [97]) _ _ _ _ rfl rfl) <|
      .cons (.done _ () Action.addHits _ _ _ _ rfl rfl) <|
      .cons (.done _ () (Action.record [97]) _ _ _ _ rfl rfl) <|
      .cons (.returned _ () _ _ rfl) .nil, rfl, rfl⟩
  obtain ⟨log, s, hs, hone, hrest⟩ := htrace
  exact ⟨log, s, hs, hone, (stats_exact ⟨1, ()⟩ (fun _ _ => 0) [.withShards 1] (by decide)
    (by simp) (stillEnv 0) 9 log s hs fun _ => hrest).1⟩

end CacheMoney.Engine
