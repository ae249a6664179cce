import Mathlib.Algebra.Order.BigOperators.Group.Finset
import CacheMoney.Engine.Accounting
import CacheMoney.Engine.Tuning

/-!
# The noeviction ceiling under concurrency

Under noeviction `Set` decides from two readings, the incumbent entry and the byte counter, and
stores later. Both readings can be overtaken: another `Swap` after them, a `Delete` of the same
key between them, or a `Swap` before the counter is read that the counter does not know of yet.

* `Reading`: what a client has read for its admission. `admission` is the order of the readings
  and the store inside `Set`.
* `admissionWindow`: the three ways in which another client overtakes a reading.
* `Fits`: storing now keeps the ceiling.
* `noeviction_ceiling_held`: without overtaking, the ceiling holds in every state of every run.
* `noeviction_ceiling_missed`: two `Set`s that read the counter before either adds to it.
-/

set_option linter.unusedSectionVars false

namespace CacheMoney.Engine

open CacheMoney.Found CacheMoney.Shardmap

variable {S ι : Type} [DecidableEq ι] {ceiling : ℤ}

/-! ### The readings of an admission -/

/-- Source: `internal/cache/cache.go` `Set`
Kind: D -/
inductive Reading where
  | none
  /-- The incumbent of the key. -/
  | seen (key : Bytes) (old : Option Entry)
  /-- The incumbent and the byte counter. -/
  | checked (key : Bytes) (old : Option Entry) (usage : ℤ)

/-- What the guard of `Set` demands before the store.
Source: `internal/cache/cache.go` `Set`
Kind: D -/
def Reading.Admits (ceiling : ℤ) (key : Bytes) (cost : ℤ) : Reading → Prop
  | .none => False
  | .seen k old => k = key ∧ cost - Cache.foundCost key old ≤ 0
  | .checked k old usage => k = key ∧ usage + (cost - Cache.foundCost key old) ≤ ceiling

/-- Source: `internal/cache/cache.go` `Set`
Kind: D -/
def Reading.allows (ceiling : ℤ) (m : Reading) : Action → Prop
  | .swap key e => m.Admits ceiling key (costOf key e.value)
  | .loadUsage => ∃ key old, m = .seen key old
  | .storeMaxmemory _ => False
  | .storeEvictPol _ => False
  | _ => True

/-- Source: `internal/cache/cache.go` `Set`
Kind: D -/
def Reading.after : Reading → (a : Action) → a.Answer → Reading
  | _, .get key, old => .seen key old
  | .seen key old, .loadUsage, usage => .checked key old usage
  | _, _, _ => .none

/-- Source: `internal/cache/cache.go` `Set`
Kind: D -/
def admission (ceiling : ℤ) : Typestate Action Action.Answer Reading where
  allowed := Reading.allows ceiling
  after := Reading.after
  answers
    | .loadMaxmemory, r => r = ceiling
    | .loadEvictPol, r => r = .noEviction
    | _, _ => True
  halts := fun _ => True

/-- A program that stores nothing and reads no counter, whatever was read before.
Source: none
Kind: D -/
abbrev Harmless {α : Type} (ceiling : ℤ) (p : CacheM α) : Prop :=
  ∀ m, p.Follows (admission ceiling) (fun _ _ => True) m

/-- A program is harmless if every reading allows its actions.
Source: none
Kind: L -/
theorem harmless_of_asks {α : Type} {p : CacheM α}
    (h : p.Asks fun a => ∀ m : Reading, m.allows ceiling a) : Harmless ceiling p :=
  fun _ => h.follows (I := fun _ => True) (fun _ _ => trivial) (fun m _ _ ha => ha m)
    (fun _ _ _ _ _ => trivial) trivial

/-- Reading stores nothing and reads no counter.
Source: `internal/cache/cache.go` `Get`, `TTL`, `Len`
Kind: L -/
theorem Action.Reads.allows {a : Action} (h : a.Reads) (m : Reading) : m.allows ceiling a := by
  cases a <;> trivial

/-- Removing stores nothing and reads no counter.
Source: `internal/cache/cache.go` `Del`
Kind: L -/
theorem Action.Removes.allows {a : Action} (h : a.Removes) (m : Reading) : m.allows ceiling a := by
  cases a <;> trivial

/-- A method that only reads is harmless.
Source: `internal/cache/cache.go` `Get`, `TTL`, `Len`
Kind: L -/
theorem harmless_of_reads {α : Type} {p : CacheM α} (h : p.Asks Action.Reads) :
    Harmless ceiling p := harmless_of_asks (h.mono fun _ => Action.Reads.allows)

/-- `Del` stores nothing and reads no counter.
Source: `internal/cache/cache.go` `Del`
Kind: L -/
theorem del_harmless (ctx : Ctx) (key : Bytes) : Harmless ceiling (Cache.del ctx key) :=
  harmless_of_asks ((del_asks ctx key).mono fun _ => Action.Removes.allows)

/-- The guard lets a write pass only in a mode that admits it.
Source: `internal/cache/cache.go` `Set`
Kind: L -/
theorem rejects_follows (hpos : 0 < ceiling) (key : Bytes) (cost : ℤ) (m : Reading) :
    (Cache.rejects ceiling .noEviction key cost).Follows (admission ceiling)
      (fun oom m => oom = false → m.Admits ceiling key cost) m := by
  unfold Cache.rejects
  rw [if_pos ⟨hpos, rfl⟩]
  refine ⟨trivial, fun old _ => ?_⟩
  change Prog.Follows _ _ (Reading.seen key old) (if _ then _ else _)
  split_ifs with hgrow
  · refine ⟨⟨key, old, rfl⟩, fun usage _ => ?_⟩
    intro hoom
    exact ⟨rfl, not_lt.mp (of_decide_eq_false hoom)⟩
  · exact fun _ => ⟨rfl, not_lt.mp hgrow⟩

/-- `Set` stores only after it has checked its entry against the ceiling.
Source: `internal/cache/cache.go` `Set`
Kind: L -/
theorem set_follows (hpos : 0 < ceiling) (fuel : ℕ) (ctx : Ctx) (key value : Bytes) (ttl : ℤ)
    (m : Reading) :
    (Cache.set fuel ctx key value ttl).Follows (admission ceiling) (fun _ _ => True) m := by
  cases ctx with
  | some err => trivial
  | none =>
      have hexpiry : Harmless ceiling (Cache.expiry ttl) :=
        harmless_of_reads (expiry_asks trivial ttl)
      unfold Cache.set
      refine (hexpiry m).bind fun expiresAt m _ => ?_
      refine ⟨trivial, ?_⟩
      rintro c rfl
      refine ⟨trivial, ?_⟩
      rintro pol rfl
      change Prog.Follows _ _ _ (Cache.rejects c .noEviction key (costOf key value) >>= _)
      refine (rejects_follows hpos key (costOf key value) _).bind fun oom m hadmits => ?_
      cases oom with
      | true => trivial
      | false =>
          refine ⟨hadmits rfl, fun old _ => ⟨trivial, fun _ _ => ?_⟩⟩
          change Prog.Follows _ _ _ (Cache.evictIfOver fuel c .noEviction key true >>= _)
          unfold Cache.evictIfOver
          rw [if_neg fun h => h.2 rfl]
          trivial

/-- A call of a client: any method but the two setters.
Source: `internal/cache/engine.go` `Engine`
Kind: D -/
inductive Working : CacheM Reply → Prop where
  | get (fuel : ℕ) (ctx : Ctx) (key : Bytes) : Working ((Call.get ctx key).prog fuel)
  | set (fuel : ℕ) (ctx : Ctx) (key value : Bytes) (ttl : ℤ) :
      Working ((Call.set ctx key value ttl).prog fuel)
  | del (fuel : ℕ) (ctx : Ctx) (key : Bytes) : Working ((Call.del ctx key).prog fuel)
  | ttl (fuel : ℕ) (ctx : Ctx) (key : Bytes) : Working ((Call.ttl ctx key).prog fuel)
  | len (fuel : ℕ) (ctx : Ctx) : Working ((Call.len ctx).prog fuel)

/-- The methods that run under the ceiling leave nothing owed.
Source: `internal/cache/engine.go` `Engine`
Kind: L -/
theorem Working.settles {p : CacheM Reply} (h : Working p) : Settled 0 p := by
  cases h <;> exact Call.prog_settles _ _

/-- The methods that run under the ceiling store only what they have checked.
Source: `internal/cache/engine.go` `Engine`
Kind: L -/
theorem Working.follows (hpos : 0 < ceiling) {p : CacheM Reply} (h : Working p) (m : Reading) :
    p.Follows (admission ceiling) (fun _ _ => True) m := by
  cases h with
  | get fuel ctx key => exact (harmless_of_reads (get_asks ctx key) m).bind fun _ _ _ => trivial
  | set fuel ctx key value ttl =>
      exact (set_follows hpos fuel ctx key value ttl m).bind fun _ _ _ => trivial
  | del fuel ctx key => exact (del_harmless ctx key m).bind fun _ _ _ => trivial
  | ttl fuel ctx key => exact (harmless_of_reads (ttl_asks ctx key) m).bind fun _ _ _ => trivial
  | len fuel ctx => exact (harmless_of_reads (len_asks ctx) m).bind fun _ _ _ => trivial

/-! ### Overtaking -/

/-- Another client performs the action while this one relies on a reading that the action
overtakes: a `Swap` between the incumbent `Get` and the `Swap`, a `Delete` of the key between
the incumbent `Get` and the load of the counter, or a load of the counter between this client's
`Swap` and its `usage.Add`.
Source: `internal/cache/cache.go` `Set`
Kind: D -/
def admissionWindow (th : Thread Action Action.Answer Reply) : Action → Prop
  | .swap _ _ => th.next = some .loadUsage ∨ ∃ key e, th.next = some (.swap key e)
  | .delete key => th.next = some .loadUsage ∧ ∃ old, th.last = some ⟨.get key, old⟩
  | .loadUsage => ∃ key e old, th.last = some ⟨.swap key e, old⟩
  | _ => False

/-- Storing an entry of this cost under the key keeps the ceiling.
Source: `internal/cache/cache.go` `Set`
Kind: D -/
def Fits (ceiling : ℤ) (f : FinMap Bytes Entry) (key : Bytes) (cost : ℤ) : Prop :=
  total f - Cache.foundCost key (f.lookup key) + cost ≤ ceiling

/-- What an action does to the stored entries.
Source: `internal/cache/cache.go` `Cache`
Kind: D -/
def stores : Action → FinMap Bytes Entry → FinMap Bytes Entry
  | .swap key e, f => f.insert key e
  | .delete key, f => f.erase key
  | _, f => f

/-- An action changes the stored map as its name says.
Source: `internal/cache/cache.go` `Cache`
Kind: L -/
theorem exec_stores {fuel : ℕ} {a : Action} {w w' : World S} {r : a.Answer}
    {f : FinMap Bytes Entry} (hf : w.cache.m.Represents f) (h : exec fuel a w = .ok (r, w')) :
    w'.cache.m.Represents (stores a f) := by
  cases a with
  | swap key e =>
      obtain ⟨-, m, -, hm, hw'⟩ := (exec_swap hf fuel key e).of_ok h
      simp only at hw'
      subst hw'
      exact hm
  | delete key =>
      obtain ⟨-, m, -, hm, hw'⟩ := (exec_delete hf fuel key).of_ok h
      simp only at hw'
      subst hw'
      exact hm
  | get key =>
      obtain ⟨-, hw'⟩ := (exec_get hf fuel key).of_ok h
      simp only at hw'
      subst hw'
      exact hf
  | sample n =>
      obtain ⟨-, rand, -, hw'⟩ := (exec_sample hf fuel n).of_ok h
      simp only at hw'
      subst hw'
      exact hf
  | range =>
      obtain ⟨-, hw'⟩ := (exec_range hf fuel).of_ok h
      simp only at hw'
      subst hw'
      exact hf
  | _ =>
      cases h
      exact hf

/-- A `Delete` leaves room for whatever fitted before.
Source: `internal/cache/cache.go` `Del`
Kind: L -/
theorem Fits.erase {f : FinMap Bytes Entry} {key : Bytes} {cost : ℤ} (h : Fits ceiling f key cost)
    (k : Bytes) : Fits ceiling (f.erase k) key cost := by
  unfold Fits at h ⊢
  rw [total_erase]
  by_cases hk : key = k
  · subst hk
    rw [Finmap.lookup_erase]
    change _ - (0 : ℤ) + cost ≤ ceiling
    omega
  · rw [Finmap.lookup_erase_ne hk]
    have hnonneg := foundCost_nonneg k (f.lookup k)
    omega

/-- What a client relies on: the incumbent it has seen is still there when it loads the counter,
and what it is about to store fits.
Source: `internal/cache/cache.go` `Set`
Kind: D -/
structure Reads (ceiling : ℤ) (f : FinMap Bytes Entry) (m : Reading)
    (th : Thread Action Action.Answer Reply) : Prop where
  seen : th.next = some .loadUsage →
    ∃ key, m = .seen key (f.lookup key) ∧ th.last = some ⟨.get key, f.lookup key⟩
  fits : ∀ key e, th.next = some (.swap key e) → Fits ceiling f key (costOf key e.value)

/-- An action that does not overtake leaves the readings of the others as they are.
Source: `internal/cache/cache.go` `Set`, `Del`
Kind: L -/
theorem Reads.stores {f : FinMap Bytes Entry} {m : Reading} {a : Action}
    {th : Thread Action Action.Answer Reply} (h : Reads ceiling f m th)
    (hclear : ¬admissionWindow th a) : Reads ceiling (Engine.stores a f) m th := by
  cases a with
  | swap key e =>
      refine ⟨fun hnext => absurd (.inl hnext) hclear, fun k v hnext => ?_⟩
      exact absurd (.inr ⟨k, v, hnext⟩) hclear
  | delete key =>
      refine ⟨fun hnext => ?_, fun k v hnext => (h.fits k v hnext).erase key⟩
      obtain ⟨k, hm, hlast⟩ := h.seen hnext
      have hk : k ≠ key := by
        rintro rfl
        exact hclear ⟨hnext, _, hlast⟩
      have hsame : (Engine.stores (.delete key) f).lookup k = f.lookup k :=
        Finmap.lookup_erase_ne hk
      exact ⟨k, by rw [hsame]; exact hm, by rw [hsame]; exact hlast⟩
  | _ => exact h

/-! ### The invariant -/

/-- Source: `internal/cache/cache.go` `Set`
Kind: D -/
structure Held (ceiling : ℤ) (μ : ι → Reading) (s : Pool ι Action Action.Answer Reply (World S))
    (f : FinMap Bytes Entry) : Prop where
  represents : s.world.cache.m.Represents f
  within : total f ≤ ceiling
  maxmemory_eq : s.world.cache.maxmemory = ceiling
  evictPol_eq : s.world.cache.evictPol = .noEviction
  reads : ∀ j th, s.threads j = some th → Reads ceiling f (μ j) th

/-- Only a lookup leads to the mode in which an entry is seen.
Source: `internal/cache/cache.go` `Set`
Kind: L -/
theorem Reading.after_eq_seen {m : Reading} {a : Action} {r : a.Answer} {key : Bytes}
    {old : Option Entry} (h : m.after a r = .seen key old) :
    (⟨a, r⟩ : Σ a : Action, a.Answer) = ⟨.get key, old⟩ := by
  cases a with
  | get k =>
      cases m <;> cases h <;> rfl
  | _ => cases m <;> cases h

/-- Only a load of the usage after a lookup leads to the mode in which a store is allowed.
Source: `internal/cache/cache.go` `Set`
Kind: L -/
theorem Reading.after_eq_checked {m : Reading} {a : Action} {r : a.Answer} {key : Bytes}
    {old : Option Entry} {usage : ℤ} (h : m.after a r = .checked key old usage) :
    m = .seen key old ∧ (⟨a, r⟩ : Σ a : Action, a.Answer) = ⟨.loadUsage, usage⟩ := by
  cases a with
  | loadUsage =>
      cases m <;> cases h
      exact ⟨rfl, rfl⟩
  | _ => cases m <;> cases h

/-- When no `Swap` waits for its `usage.Add`, the counter is not below the stored cost.
Source: `internal/cache/cache.go` `Set`
Kind: L -/
theorem total_le_usage [Fintype ι] {s : Pool ι Action Action.Answer Reply (World S)}
    {f : FinMap Bytes Entry} (hf : s.world.cache.m.Represents f)
    (hbal : s.Balanced due incur (fun w => w.cache.usage) (fun w => storedCost w.cache))
    (hadded : ∀ j th, s.threads j = some th → ∀ key e old, th.last ≠ some ⟨.swap key e, old⟩) :
    total f ≤ s.world.cache.usage := by
  have hpending : ∀ j, Thread.pending incur (s.threads j) ≤ 0 := by
    intro j
    cases hth : s.threads j with
    | none => exact le_rfl
    | some th =>
        have hlast := hadded j th hth
        obtain ⟨prog, last⟩ := th
        cases last with
        | none => exact le_rfl
        | some er =>
            obtain ⟨a, r⟩ := er
            cases a with
            | swap key e => exact absurd rfl (hlast key e r)
            | delete key => exact neg_nonpos.mpr (foundCost_nonneg key r)
            | _ => exact le_rfl
  have hsum : ∑ j, Thread.pending incur (s.threads j) ≤ 0 :=
    Finset.sum_nonpos fun j _ => hpending j
  have hbalance : s.world.cache.usage + ∑ j, Thread.pending incur (s.threads j) =
      storedCost s.world.cache := hbal.balance
  rw [← storedCost_eq hf]
  omega

/-- The client that acts: what it relies on next.
Source: `internal/cache/cache.go` `Set`
Kind: L -/
theorem Held.reads_next {μ : ι → Reading} {s : Pool ι Action Action.Answer Reply (World S)}
    {f : FinMap Bytes Entry} (h : Held ceiling μ s f) {i : ι} {a : Action} {r : a.Answer}
    {next : a.Answer → CacheM Reply} {last : Option (Σ a : Action, a.Answer)} {fuel : ℕ}
    {w : World S} (hi : s.threads i = some ⟨.act a next, last⟩)
    (hexec : exec fuel a s.world = .ok (r, w))
    (husage : a = .loadUsage → total f ≤ s.world.cache.usage)
    (hfol : (next r).Follows (admission ceiling) (fun _ _ => True) ((μ i).after a r)) :
    Reads ceiling (stores a f) ((μ i).after a r) ⟨next r, some ⟨a, r⟩⟩ := by
  have hallowed : ∀ e, Thread.next (⟨next r, some ⟨a, r⟩⟩ : Thread _ _ _) = some e →
      ((μ i).after a r).allows ceiling e := by
    intro e he
    cases hnext : next r with
    | act e' rest =>
        rw [hnext] at hfol he
        obtain rfl : e' = e := Option.some.inj he
        exact hfol.1
    | _ =>
        rw [hnext] at he
        cases he
  -- A mode `seen` comes from the incumbent `Get` that was just made.
  have hseen : ∀ key old, (μ i).after a r = .seen key old →
      (⟨a, r⟩ : Σ a : Action, a.Answer) = ⟨.get key, old⟩ ∧ old = f.lookup key ∧
        stores a f = f := by
    intro key old hafter
    have heq := Reading.after_eq_seen hafter
    cases heq
    exact ⟨rfl, ((exec_get h.represents fuel key).of_ok hexec).1, rfl⟩
  constructor
  · intro hload
    obtain ⟨key, old, hmode⟩ := hallowed .loadUsage hload
    obtain ⟨hlast, hold, hsame⟩ := hseen key old hmode
    rw [hsame, hmode]
    exact ⟨key, by rw [← hold], by rw [← hold, ← hlast]⟩
  · intro key e hswap
    have hadmits : ((μ i).after a r).Admits ceiling key (costOf key e.value) := hallowed _ hswap
    cases hmode : (μ i).after a r with
    | none =>
        rw [hmode] at hadmits
        exact hadmits.elim
    | seen k old =>
        obtain ⟨-, hold, hsame⟩ := hseen k old hmode
        rw [hmode] at hadmits
        obtain ⟨rfl, hshrinks⟩ := hadmits
        have hwithin := h.within
        unfold Fits
        rw [hsame, ← hold]
        omega
    | checked k old usage =>
        obtain ⟨hbefore, heq⟩ := Reading.after_eq_checked hmode
        rw [hmode] at hadmits
        obtain ⟨rfl, hroom⟩ := hadmits
        cases heq
        obtain ⟨k', hm, -⟩ := (h.reads i _ hi).seen rfl
        rw [hbefore] at hm
        cases hm
        obtain rfl : usage = s.world.cache.usage := ((exec_loadUsage fuel).of_ok hexec).1
        have hcount := husage rfl
        change total f - Cache.foundCost k (f.lookup k) + costOf k e.value ≤ ceiling
        omega

/-- One action keeps the ceiling.
Source: `internal/cache/cache.go` `Set`, `Del`
Kind: L -/
theorem Held.within_next {μ : ι → Reading} {s : Pool ι Action Action.Answer Reply (World S)}
    {f : FinMap Bytes Entry} (h : Held ceiling μ s f) {i : ι}
    {th : Thread Action Action.Answer Reply} {a : Action} (hi : s.threads i = some th)
    (ha : th.next = some a) : total (stores a f) ≤ ceiling := by
  cases a with
  | swap key e =>
      have hfits := (h.reads i th hi).fits key e ha
      change total (f.insert key e) ≤ ceiling
      unfold Fits at hfits
      rw [total_insert]
      omega
  | delete key =>
      have hnonneg := foundCost_nonneg key (f.lookup key)
      have hwithin := h.within
      change total (f.erase key) ≤ ceiling
      rw [total_erase]
      omega
  | _ => exact h.within

/-- A client that has read nothing relies on nothing.
Source: `internal/cache/cache.go` `Set`
Kind: L -/
theorem reads_of_none {f : FinMap Bytes Entry} {p : CacheM Reply}
    {last : Option (Σ a : Action, a.Answer)}
    (h : p.Follows (admission ceiling) (fun _ _ => True) .none) :
    Reads ceiling f .none ⟨p, last⟩ := by
  constructor
  · intro hnext
    cases p with
    | act a next =>
        obtain rfl : a = .loadUsage := Option.some.inj hnext
        obtain ⟨key, old, hmode⟩ := h.1
        cases hmode
    | _ => cases hnext
  · intro key e hnext
    cases p with
    | act a next =>
        obtain rfl : a = .swap key e := Option.some.inj hnext
        exact h.1.elim
    | _ => cases hnext

/-- Actions that an admission allows leave ceiling and policy alone, and read them as they are.
Source: `internal/cache/cache.go` `Set`
Kind: L -/
theorem Held.tuning_next {μ : ι → Reading} {s : Pool ι Action Action.Answer Reply (World S)}
    {f : FinMap Bytes Entry} (h : Held ceiling μ s f) {m : Reading} {a : Action} {r : a.Answer}
    {fuel : ℕ} {w : World S} (ha : m.allows ceiling a) (hexec : exec fuel a s.world = .ok (r, w)) :
    w.cache.maxmemory = ceiling ∧ w.cache.evictPol = .noEviction ∧
      (admission ceiling).answers a r := by
  obtain ⟨htuning, htold⟩ := exec_tuning hexec
  have hkept : w.cache.tuning.maxmemory = s.world.cache.maxmemory ∧
      w.cache.tuning.evictPol = s.world.cache.evictPol := by
    rw [htuning]
    cases a with
    | storeMaxmemory b => exact ha.elim
    | storeEvictPol p => exact ha.elim
    | _ => exact ⟨rfl, rfl⟩
  refine ⟨hkept.1.trans h.maxmemory_eq, hkept.2.trans h.evictPol_eq, ?_⟩
  cases a with
  | loadMaxmemory => exact htold.trans h.maxmemory_eq
  | loadEvictPol => exact htold.trans h.evictPol_eq
  | _ => trivial

/-- Every state of a run without overtaking.
Source: `internal/cache/cache.go` `Set`, `Del`
Kind: L -/
theorem held_of_apart [Fintype ι] (hpos : 0 < ceiling) {w : World S} {f : FinMap Bytes Entry}
    (hw : w.cache.Holds f) (hmax : w.cache.maxmemory = ceiling)
    (hpol : w.cache.evictPol = .noEviction) (hwithin : total f ≤ ceiling) {fuel : ℕ}
    {s : Pool ι Action Action.Answer Reply (World S)}
    (hreach : Pool.ApartReachable (exec fuel) Working admissionWindow ⟨w, fun _ => none⟩ s) :
    ∃ μ : ι → Reading, s.Moded (admission ceiling) (fun _ _ => True) .none μ ∧
      ∃ f, Held ceiling μ s f := by
  refine Pool.outline (admission ceiling) (fun _ _ => True) .none
    (fun μ s => ∃ f, Held ceiling μ s f) (fun p hp => hp.follows hpos .none) ?_ ?_ ?_ ?_ hreach
  · rintro μ s i p hμ ⟨f, hs⟩ hnone hp
    refine ⟨f, hs.represents, hs.within, hs.maxmemory_eq, hs.evictPol_eq, ?_⟩
    intro j th hj
    by_cases hji : j = i
    · subst hji
      simp only [Function.update_self] at hj
      cases hj
      rw [hμ.idle j hnone]
      exact reads_of_none (hp.follows hpos .none)
    · simp only [Function.update_of_ne hji] at hj
      exact hs.reads j th hj
  · rintro μ s i a next last r w' hprev hμ ⟨f, hs⟩ hi hexec hclear
    obtain ⟨ha, hfol⟩ := hμ.follows i _ hi
    obtain ⟨hmax', hpol', hans⟩ := hs.tuning_next ha hexec
    have husage : a = .loadUsage → total f ≤ s.world.cache.usage := by
      rintro rfl
      obtain ⟨-, hbal⟩ := Pool.balanced (fun w : World S => w.cache.usage)
        (fun w => storedCost w.cache) (fun w => ∃ f, w.cache.m.Represents f)
        (fun p hp => hp.settles) (fun a w r w' => exec_ledger fuel a w r w') ⟨_, hw.represents⟩
        (hw.usage_eq.trans (storedCost_eq hw.represents).symm) hprev.reachable
      refine total_le_usage hs.represents hbal fun j th hj key e old hlast => ?_
      by_cases hji : j = i
      · subst hji
        obtain ⟨k, -, hget⟩ := (hs.reads j th hj).seen (by rw [hi] at hj; cases hj; rfl)
        rw [hget] at hlast
        cases hlast
      · exact hclear j th hji hj ⟨key, e, old, hlast⟩
    refine ⟨hans, stores a f, exec_stores hs.represents hexec, hs.within_next hi rfl, hmax', hpol',
      ?_⟩
    intro j th hj
    by_cases hji : j = i
    · subst hji
      simp only [Function.update_self] at hj ⊢
      cases hj
      exact hs.reads_next hi hexec husage (hfol r hans)
    · simp only [Function.update_of_ne hji] at hj ⊢
      exact (hs.reads j th hj).stores (hclear j th hji hj)
  · rintro μ s i a ⟨f, hs⟩ -
    refine ⟨f, hs.represents, hs.within, hs.maxmemory_eq, hs.evictPol_eq, ?_⟩
    intro j th hj
    by_cases hji : j = i
    · subst hji
      simp only [Function.update_self] at hj
      cases hj
    · simp only [Function.update_of_ne hji] at hj ⊢
      exact hs.reads j th hj
  · refine ⟨f, hw.represents, hwithin, hmax, hpol, ?_⟩
    intro j th hj
    cases hj

/-- **noeviction holds the ceiling** when nobody is overtaken. Any number of clients call the
methods of the engine under noeviction and a fixed ceiling, interleaved action by action, and no
reading of an admission is overtaken; then the cost of the stored entries stays within the ceiling
in every state of the run.
Source: `internal/cache/policy.go` `ErrOOM`; `internal/cache/cache.go` `Set`
Kind: P
Fidelity: exact -/
theorem noeviction_ceiling_held [Fintype ι] (ceiling : ℤ) (hpos : 0 < ceiling) (w : World S)
    (f : FinMap Bytes Entry) (hw : w.cache.Holds f) (hmax : w.cache.maxmemory = ceiling)
    (hpol : w.cache.evictPol = .noEviction) (hwithin : storedCost w.cache ≤ ceiling) (fuel : ℕ)
    (s : Pool ι Action Action.Answer Reply (World S))
    (hreach : Pool.ApartReachable (exec fuel) Working admissionWindow ⟨w, fun _ => none⟩ s) :
    storedCost s.world.cache ≤ ceiling := by
  rw [storedCost_eq hw.represents] at hwithin
  obtain ⟨μ, -, f', hs⟩ := held_of_apart hpos hw hmax hpol hwithin hreach
  rw [storedCost_eq hs.represents]
  exact hs.within

/-- A cache with one shard, a ceiling of 100 bytes and noeviction.
Source: none
Kind: D -/
def smallCache : World Unit :=
  ⟨Cache.new ⟨1, ()⟩ (fun _ _ => 0)
    [.withShards 1, .withMaxMemory 100, .withEvictionPolicy .noEviction], stillEnv 0⟩

set_option maxRecDepth 10000 in
/-- Two `Set`s of 66 bytes that overlap: the first has read the settings when the second runs from
start to end. No reading of an admission is overtaken; the first then sees that it does not fit and
is refused.
Source: `internal/cache/cache.go` `Set`
Kind: C -/
theorem noeviction_ceiling_held_overlapping :
    ∃ s₁ s₂ : Pool Bool Action Action.Answer Reply (World Unit),
      Pool.ApartReachable (exec 9) Working admissionWindow ⟨smallCache, fun _ => none⟩ s₁ ∧
      (∀ i, s₁.threads i ≠ none) ∧
      Pool.ApartReachable (exec 9) Working admissionWindow s₁ s₂ ∧
      (∀ i, s₂.threads i = none) ∧ s₂.world.cache.usage = 66 ∧
      storedCost s₂.world.cache ≤ 100 := by
  have hnew : smallCache.cache.Holds ∅ := holds_new _ _ _ (by decide) (by simp)
  have hempty : storedCost smallCache.cache ≤ 100 := by
    rw [storedCost_eq hnew.represents]
    decide
  have hstart : ∃ s₁ : Pool Bool Action Action.Answer Reply (World Unit), ∃ p th,
      Pool.ApartReachable (exec 9) Working admissionWindow ⟨smallCache, fun _ => none⟩ s₁ ∧
      s₁.threads true = some ⟨p, none⟩ ∧ s₁.threads false = some th ∧
      th.next = some (.get [97]) ∧ th.last = some ⟨.loadEvictPol, .noEviction⟩ ∧
      ∃ a w, p.run (exec 9) s₁.world = .ok (a, w) ∧
        ∃ a' w', th.prog.run (exec 9) w = .ok (a', w') ∧ w'.cache.usage = 66 :=
    ⟨_, _, _, .tail (.tail (.tail (.tail .refl
      (.invoke _ false _ rfl (.set 9 none [97] [1] 0)))
      (.act _ false .loadMaxmemory _ _ _ _ rfl rfl (by simp)))
      (.act _ false .loadEvictPol _ _ _ _ rfl rfl (by simp)))
      (.invoke _ true _ rfl (.set 9 none [98] [1] 0)), rfl, rfl, rfl, rfl, _, _, rfl, _, _, rfl,
      rfl⟩
  obtain ⟨s₁, p, th, hs₁, htrue, hfalse, hnext, hlast, a, w, hsecond, a', w', hfirst, husage⟩ :=
    hstart
  -- The first client stands before its incumbent `Get`, where nothing overtakes it.
  have hopen : ∀ e, ¬admissionWindow th e := by
    intro e hclash
    cases e with
    | swap key e =>
        rw [admissionWindow, hnext] at hclash
        rcases hclash with h | ⟨_, _, h⟩
        · cases h
        · cases h
    | delete key =>
        rw [admissionWindow, hnext] at hclash
        cases hclash.1
    | loadUsage =>
        rw [admissionWindow, hlast] at hclash
        obtain ⟨_, _, _, h⟩ := hclash
        cases h
    | _ => exact hclash
  have hoverlap : Pool.ApartReachable (exec 9) Working admissionWindow s₁
      ⟨w, Function.update s₁.threads true none⟩ := by
    refine Pool.ApartReachable.alone p htrue ?_ hsecond
    rintro (_ | _) th' hj hth'
    · obtain rfl := Option.some.inj (hfalse.symm.trans hth')
      exact hopen
    · exact absurd rfl hj
  have hend : Pool.ApartReachable (exec 9) Working admissionWindow
      ⟨w, Function.update s₁.threads true none⟩
      ⟨w', Function.update (Function.update s₁.threads true none) false none⟩ := by
    refine Pool.ApartReachable.alone th.prog hfalse ?_ hfirst
    rintro (_ | _) th' hj hth'
    · exact absurd rfl hj
    · cases hth'
  refine ⟨s₁, _, hs₁, ?_, hoverlap.trans hend, ?_, husage,
    noeviction_ceiling_held 100 (by decide) smallCache ∅ hnew rfl rfl hempty 9 _
      (hs₁.trans (hoverlap.trans hend))⟩
  · rintro (_ | _)
    · simp [hfalse]
    · simp [htrue]
  · rintro (_ | _) <;> rfl

/-- The rest of `Set` after its admission.
Source: `internal/cache/cache.go` `Set`
Kind: D -/
def admitted (key value : Bytes) : CacheM Reply := do
  let old ← ask (.swap key ⟨value, zeroTime⟩)
  ask (.addUsage (costOf key value - Cache.foundCost key old))
  pure (.stored (.ok ()))

/-- Two `Set`s of 66 bytes each load the counter at 0 before either has stored: both are admitted
and 132 bytes are stored under the ceiling of 100.
Source: `internal/cache/cache.go` `Set`
Kind: C -/
theorem noeviction_ceiling_missed :
    smallCache.cache.Holds ∅ ∧ smallCache.cache.maxmemory = 100 ∧
      smallCache.cache.evictPol = .noEviction ∧
      ∃ s : Pool Bool Action Action.Answer Reply (World Unit),
        Pool.Reachable (exec 9) Working ⟨smallCache, fun _ => none⟩ s ∧
        (∀ i, s.threads i = none) ∧ storedCost s.world.cache = 132 := by
  have hruns : ∃ a b w w', ((Call.set none [98] [1] 0).prog 9).run (exec 9) smallCache = .ok (a, w) ∧
      (admitted [97] [1]).run (exec 9) w = .ok (b, w') ∧ storedCost w'.cache = 132 :=
    ⟨_, _, _, _, rfl, rfl, rfl⟩
  obtain ⟨a, b, w, w', hsecond, hfirst, hstored⟩ := hruns
  have hreach : ∃ threads : Bool → Option (Thread Action Action.Answer Reply),
      Pool.Reachable (exec 9) Working ⟨smallCache, fun _ => none⟩ ⟨smallCache, threads⟩ ∧
        threads false = some ⟨admitted [97] [1], some ⟨.loadUsage, 0⟩⟩ ∧ threads true = none :=
    ⟨_, .tail (.tail (.tail (.tail (.tail .refl
      (.invoke _ false _ rfl (.set 9 none [97] [1] 0)))
      (.act _ false .loadMaxmemory _ _ 100 smallCache rfl rfl))
      (.act _ false .loadEvictPol _ _ .noEviction smallCache rfl rfl))
      (.act _ false (.get [97]) _ _ none smallCache rfl rfl))
      (.act _ false .loadUsage _ _ 0 smallCache rfl rfl), rfl, rfl⟩
  obtain ⟨threads, hthreads, hadmitted, hidle⟩ := hreach
  have hinvoked := hthreads.tail (.invoke _ true _ hidle (.set 9 none [98] [1] 0))
  have hstarted := hinvoked.trans (Pool.Reachable.alone _ (Function.update_self ..) hsecond)
  have hdone := hstarted.trans (Pool.Reachable.alone (i := false) _ hadmitted hfirst)
  refine ⟨holds_new _ _ _ (by decide) (by simp), rfl, rfl, _, hdone, ?_, hstored⟩
  rintro (_ | _) <;> rfl

end CacheMoney.Engine
