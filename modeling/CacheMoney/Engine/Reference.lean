import CacheMoney.Engine.Methods

/-!
# The engine is a map with expiring entries

`Reference` says what the engine is for: a finite map of values with optional deadlines, a byte
ceiling and a policy. A successful `Set` may remove some other keys; a read sees an entry until
its deadline.

* `Reference.Step`, `Reference.Run`: what each call returns and does, over whole histories.
* `Reference.Run.lastSet`: every stored entry was put there by the last successful `Set` of its
  key.
* `Shows.call`, `run_matches_reference`: every sequential run of the engine is a run of the
  reference, for any random source, frequency estimates and ceilings.
-/

set_option linter.unusedSectionVars false

namespace CacheMoney.Engine

open CacheMoney.Found CacheMoney.Shardmap

/-! ### The reference -/

/-- A value with an optional deadline.
Source: none
Kind: D -/
structure Record where
  value : Bytes
  deadline : Option ℤ
  deriving DecidableEq, Repr

/-- Source: none
Kind: D -/
def Record.live (r : Record) (now : ℤ) : Bool := r.deadline.all fun d => now < d

/-- The time left, `-1` without a deadline. A `Duration` cannot say more than `maxDuration`.
Source: none
Kind: D -/
def Record.remaining (r : Record) (now : ℤ) : ℤ :=
  match r.deadline with
  | none => -1
  | some d => min (d - now) maxDuration

/-- Source: none
Kind: D -/
structure Reference where
  entries : FinMap Bytes Record
  ceiling : ℤ
  policy : EvictionPolicy

/-- What a read of `k` sees.
Source: none
Kind: D -/
def Reference.readable (r : Reference) (now : ℤ) (k : Bytes) : Option Record :=
  (r.entries.lookup k).filter fun x => x.live now

/-- The deadline of an entry stored at `now`.
Source: none
Kind: D -/
def deadlineOf (now : ℤ) (ttl : ℤ) : Option ℤ := if 0 < ttl then some (now + ttl) else none

/-- The context of a call.
Source: none
Kind: D -/
def Call.ctx : Call → Ctx
  | .get ctx _ => ctx
  | .set ctx _ _ _ => ctx
  | .del ctx _ => ctx
  | .ttl ctx _ => ctx
  | .len ctx => ctx
  | .setMaxMemory _ => none
  | .setEvictionPolicy _ => none

/-- The reply of a call that failed.
Source: none
Kind: D -/
def Call.fail (e : Err) : Call → Reply
  | .get _ _ => .value (.error e)
  | .set _ _ _ _ => .stored (.error e)
  | .del _ _ => .existed (.error e)
  | .ttl _ _ => .remaining (.error e)
  | .len _ => .size (.error e)
  | .setMaxMemory _ => .done
  | .setEvictionPolicy _ => .done

/-- One call at clock reading `now`. `set` and `setMaxMemory` may drop a set of keys, never the
key just written, and none at all without a ceiling or under noeviction.
Source: none
Kind: D -/
inductive Reference.Step (now : ℤ) (r : Reference) : Call → Reply → Reference → Prop where
  | cancelled {c : Call} {e : CtxErr} (hc : c.ctx = some e) :
      Step now r c (c.fail (.ctx e)) r
  | get (k : Bytes) :
      Step now r (.get none k) (.value (.ok ((r.readable now k).map Record.value))) r
  | ttl (k : Bytes) :
      Step now r (.ttl none k)
        (.remaining (.ok ((r.readable now k).map fun x => x.remaining now))) r
  | len :
      Step now r (.len none)
        (.size (.ok ((pairs r.entries).filter fun e => e.2.live now).card)) r
  | del (k : Bytes) :
      Step now r (.del none k) (.existed (.ok (r.readable now k).isSome))
        { r with entries := r.entries.erase k }
  | set (k v : Bytes) (ttl : ℤ) (removed : Finset Bytes) (entries : FinMap Bytes Record)
      (hk : k ∉ removed) (hquiet : r.ceiling ≤ 0 ∨ r.policy = .noEviction → removed = ∅)
      (hentries : ∀ j, entries.lookup j = if j ∈ removed then none else
        (r.entries.insert k ⟨v, deadlineOf now ttl⟩).lookup j) :
      Step now r (.set none k v ttl) (.stored (.ok ())) { r with entries := entries }
  | oom (k v : Bytes) (ttl : ℤ) (hpos : 0 < r.ceiling) (hpol : r.policy = .noEviction) :
      Step now r (.set none k v ttl) (.stored (.error .oom)) r
  | setMaxMemory (bytes : ℤ) (removed : Finset Bytes) (entries : FinMap Bytes Record)
      (hquiet : bytes ≤ 0 ∨ r.policy = .noEviction → removed = ∅)
      (hentries : ∀ j, entries.lookup j = if j ∈ removed then none else r.entries.lookup j) :
      Step now r (.setMaxMemory bytes) .done { r with entries := entries, ceiling := bytes }
  | setEvictionPolicy (p : EvictionPolicy) :
      Step now r (.setEvictionPolicy p) .done { r with policy := p }

/-- A call that has returned.
Source: none
Kind: D -/
structure Did where
  now : ℤ
  call : Call
  reply : Reply

/-- A run of the reference with its history.
Source: none
Kind: D -/
inductive Reference.Run (r₀ : Reference) : List Did → Reference → Prop where
  | nil : Run r₀ [] r₀
  | snoc {h : List Did} {r r' : Reference} {d : Did} (hrun : Run r₀ h r)
      (hstep : r.Step d.now d.call d.reply r') : Run r₀ (h ++ [d]) r'

/-! ### Histories -/

/-- The call settled what is stored under `k`: a successful `Set`, or a `Del` that was performed.
Source: none
Kind: D -/
def Did.Settles (d : Did) (k : Bytes) : Prop :=
  (∃ v ttl, d.call = .set none k v ttl ∧ d.reply = .stored (.ok ())) ∨ d.call = .del none k

/-- The last call of the history that settled `k` was the `Set` of this value and deadline.
Source: none
Kind: D -/
def LastSet (h : List Did) (k : Bytes) (x : Record) : Prop :=
  ∃ pre now ttl post, h = pre ++ ⟨now, .set none k x.value ttl, .stored (.ok ())⟩ :: post ∧
    x.deadline = deadlineOf now ttl ∧ ∀ d ∈ post, ¬d.Settles k

/-- A call that does not settle the key leaves its last `Set`.
Source: none
Kind: L -/
theorem LastSet.snoc {h : List Did} {k : Bytes} {x : Record} (hlast : LastSet h k x) {d : Did}
    (hd : ¬d.Settles k) : LastSet (h ++ [d]) k x := by
  obtain ⟨pre, now, ttl, post, rfl, hdl, hpost⟩ := hlast
  refine ⟨pre, now, ttl, post ++ [d], by simp, hdl, ?_⟩
  intro d' hd'
  rcases List.mem_append.mp hd' with hd' | hd'
  · exact hpost d' hd'
  · rw [List.mem_singleton.mp hd']
    exact hd

/-- A step that keeps the entry of `k` has not settled it, unless it is the `Set` itself.
Source: none
Kind: L -/
theorem Reference.Step.lookup {now : ℤ} {r r' : Reference} {c : Call} {out : Reply}
    (hstep : r.Step now c out r') {k : Bytes} {x : Record} (hx : r'.entries.lookup k = some x) :
    (r.entries.lookup k = some x ∧ ¬(⟨now, c, out⟩ : Did).Settles k) ∨
      ∃ ttl, c = .set none k x.value ttl ∧ out = .stored (.ok ()) ∧
        x.deadline = deadlineOf now ttl := by
  cases hstep with
  | cancelled hc =>
      refine Or.inl ⟨hx, ?_⟩
      rintro (⟨v, ttl, hcall, -⟩ | hcall)
      · simp only at hcall
        subst hcall
        cases hc
      · simp only at hcall
        subst hcall
        cases hc
  | get j => exact Or.inl ⟨hx, by simp [Did.Settles]⟩
  | ttl j => exact Or.inl ⟨hx, by simp [Did.Settles]⟩
  | len => exact Or.inl ⟨hx, by simp [Did.Settles]⟩
  | del j =>
      by_cases hkj : k = j
      · subst hkj
        rw [Finmap.lookup_erase] at hx
        cases hx
      · rw [Finmap.lookup_erase_ne hkj] at hx
        refine Or.inl ⟨hx, ?_⟩
        simp [Did.Settles, Ne.symm hkj]
  | set j v ttl removed entries hj hquiet hentries =>
      simp only [hentries k] at hx
      split_ifs at hx with hrem
      by_cases hkj : k = j
      · subst hkj
        rw [Finmap.lookup_insert] at hx
        cases hx
        exact Or.inr ⟨ttl, rfl, rfl, rfl⟩
      · rw [Finmap.lookup_insert_of_ne _ hkj] at hx
        refine Or.inl ⟨hx, ?_⟩
        simp [Did.Settles, Ne.symm hkj]
  | oom j v ttl hpos hpol => exact Or.inl ⟨hx, by simp [Did.Settles]⟩
  | setMaxMemory bytes removed entries hquiet hentries =>
      simp only [hentries k] at hx
      split_ifs at hx with hrem
      exact Or.inl ⟨hx, by simp [Did.Settles]⟩
  | setEvictionPolicy p => exact Or.inl ⟨hx, by simp [Did.Settles]⟩

/-- Every stored entry comes from the last successful `Set` of its key.
Source: none
Kind: P -/
theorem Reference.Run.lastSet {r₀ r : Reference} {h : List Did} (hrun : r₀.Run h r)
    (h₀ : r₀.entries = ∅) {k : Bytes} {x : Record} (hx : r.entries.lookup k = some x) :
    LastSet h k x := by
  induction hrun generalizing x with
  | nil =>
      rw [h₀] at hx
      cases hx
  | @snoc h r r' d hrun hstep ih =>
      rcases hstep.lookup hx with ⟨hx', hd⟩ | ⟨ttl, hcall, hreply, hdl⟩
      · exact (ih hx').snoc hd
      · refine ⟨h, d.now, ttl, [], ?_, hdl, by simp⟩
        rw [← hcall, ← hreply]

/-- The last call of a run.
Source: none
Kind: L -/
theorem Reference.Run.last {r₀ r' : Reference} {h : List Did} {d : Did}
    (hrun : r₀.Run (h ++ [d]) r') : ∃ r, r₀.Run h r ∧ r.Step d.now d.call d.reply r' := by
  generalize hh : h ++ [d] = h' at hrun
  cases hrun with
  | nil => simp at hh
  | @snoc g r r' e hrun hstep =>
      obtain ⟨rfl, hd⟩ := List.append_inj' hh rfl
      obtain rfl : d = e := by simpa using hd
      exact ⟨r, hrun, hstep⟩

/-- An initial part of a run is a run.
Source: none
Kind: L -/
theorem Reference.Run.initial {r₀ : Reference} (pre : List Did) :
    ∀ {post : List Did} {r : Reference}, r₀.Run (pre ++ post) r → ∃ r', r₀.Run pre r' := by
  intro post
  induction post using List.reverseRecOn with
  | nil =>
      intro r hrun
      rw [List.append_nil] at hrun
      exact ⟨r, hrun⟩
  | append_singleton post d ih =>
      intro r hrun
      rw [← List.append_assoc] at hrun
      obtain ⟨r', hrun', -⟩ := hrun.last
      exact ih hrun'

/-- A run around one of its calls.
Source: none
Kind: L -/
theorem Reference.Run.around {r₀ r : Reference} {pre post : List Did} {d : Did}
    (hrun : r₀.Run (pre ++ d :: post) r) :
    ∃ r₁ r₂, r₀.Run pre r₁ ∧ r₁.Step d.now d.call d.reply r₂ := by
  rw [← List.singleton_append, ← List.append_assoc] at hrun
  obtain ⟨r₂, hrun₂⟩ := Reference.Run.initial (pre ++ [d]) hrun
  obtain ⟨r₁, hrun₁, hstep⟩ := hrun₂.last
  exact ⟨r₁, r₂, hrun₁, hstep⟩

/-- A hit returns the bytes of the last successful `Set` of its key, before the deadline.
Source: none
Kind: P -/
theorem Reference.Run.hit {r₀ r : Reference} {pre post : List Did} {now : ℤ} {k v : Bytes}
    (hrun : r₀.Run (pre ++ ⟨now, .get none k, .value (.ok (some v))⟩ :: post) r)
    (h₀ : r₀.entries = ∅) : ∃ x, x.value = v ∧ LastSet pre k x ∧ x.live now := by
  obtain ⟨r₁, r₂, hrun₁, hstep⟩ := hrun.around
  simp only at hstep
  generalize hout : Reply.value (.ok (some v)) = out at hstep
  cases hstep with
  | cancelled hc => cases hc
  | get =>
      simp only [Reply.value.injEq, Except.ok.injEq] at hout
      obtain ⟨x, hx, rfl⟩ := Option.map_eq_some_iff.mp hout.symm
      obtain ⟨hlook, hlive⟩ := Option.filter_eq_some_iff.mp hx
      exact ⟨x, rfl, hrun₁.lastSet h₀ hlook, hlive⟩

variable {S : Type} {w : World S} {f : FinMap Bytes Entry} {fuel : ℕ}

/-- The record an entry stands for.
Source: `internal/cache/cache.go` `entry`
Kind: D -/
def Entry.record (e : Entry) : Record :=
  ⟨e.value, if e.expiresAt = zeroTime then none else some e.expiresAt⟩

/-- A record is live if its entry is not dead.
Source: `internal/cache/cache.go` `entry`
Kind: L -/
theorem Entry.live_record (e : Entry) (t : ℤ) : e.record.live t = !e.deadAt t := by
  unfold Entry.record Record.live Entry.deadAt
  by_cases hz : e.expiresAt = zeroTime <;> simp [hz]

/-- At or after the epoch, a computed expiry is never the zero time.
Source: `internal/cache/cache.go` `Set`
Kind: L -/
theorem record_expiryAt {t : ℤ} (ht : 0 ≤ t) (value : Bytes) (ttl : ℤ) :
    (⟨value, expiryAt t ttl⟩ : Entry).record = ⟨value, deadlineOf t ttl⟩ := by
  unfold Entry.record expiryAt deadlineOf
  by_cases hpos : 0 < ttl
  · have hzero : zeroTime < 0 := by decide
    have hne : t + ttl ≠ zeroTime := by omega
    simp [hpos, hne]
  · simp [hpos]

/-- The time left of a live entry.
Source: `internal/cache/cache.go` `TTL`
Kind: L -/
theorem Entry.remaining_record {e : Entry} {t : ℤ} (hlive : e.record.live t) :
    e.record.remaining t =
      if e.expiresAt = zeroTime then -1 else timeSub e.expiresAt t := by
  unfold Entry.record Record.remaining
  by_cases hz : e.expiresAt = zeroTime
  · simp [hz]
  · have hlt : t < e.expiresAt := by
      simpa [Entry.record, Record.live, hz] using hlive
    have hmin : minDuration ≤ 0 := by decide
    have hmax : 0 ≤ maxDuration := by decide
    simp only [hz, if_false, timeSub]
    rw [min_comm, max_eq_right]
    exact le_min (hmin.trans hmax) (by omega)

/-- The records of a finite map of entries.
Source: none
Kind: D -/
def Records (f : FinMap Bytes Entry) (g : FinMap Bytes Record) : Prop :=
  pairs g = (pairs f).map fun e => (e.1, e.2.record)

/-- Every map has its records.
Source: none
Kind: L -/
theorem exists_records (f : FinMap Bytes Entry) : ∃ g, Records f g := by
  apply exists_pairs_eq
  rw [Multiset.map_map]
  exact nodup_keys_pairs f

/-- A record is that of the stored entry.
Source: none
Kind: L -/
theorem Records.lookup {g : FinMap Bytes Record} (h : Records f g) (k : Bytes) :
    g.lookup k = (f.lookup k).map Entry.record := by
  symm
  rw [← reports_pairs_iff]
  intro x
  rw [h, Multiset.mem_map, Option.map_eq_some_iff]
  constructor
  · rintro ⟨e, he, rfl⟩
    exact ⟨(k, e), mem_pairs.mpr he, rfl⟩
  · rintro ⟨e, he, heq⟩
    obtain ⟨rfl, rfl⟩ := Prod.mk.inj heq
    exact ⟨e.2, mem_pairs.mp he, rfl⟩

/-- Records are known by their lookups.
Source: none
Kind: L -/
theorem records_of_lookup {g : FinMap Bytes Record}
    (h : ∀ k, g.lookup k = (f.lookup k).map Entry.record) : Records f g := by
  obtain ⟨g', hg'⟩ := exists_records f
  have heq : g = g' := by
    apply Finmap.ext_lookup
    intro k
    rw [h k, hg'.lookup k]
  rw [heq]
  exact hg'

/-- The engine's state read as a state of the reference.
Source: none
Kind: D -/
structure Shows (c : Cache S) (r : Reference) : Prop where
  holds : ∃ f, c.Holds f ∧ Records f r.entries
  ceiling_eq : c.maxmemory = r.ceiling
  policy_eq : c.evictPol = r.policy

/-- A kept cache shows the reference it showed.
Source: none
Kind: L -/
theorem World.Kept.shows {w w' : World S} {r : Reference} (hk : w.Kept w') (h : Shows w.cache r) :
    Shows w'.cache r := by
  obtain ⟨f, hf, hrec⟩ := h.holds
  exact ⟨⟨f, hk.holds hf, hrec⟩, hk.maxmemory_eq.trans h.ceiling_eq,
    hk.evictPol_eq.trans h.policy_eq⟩

/-- A read of the reference through the engine's entry.
Source: none
Kind: L -/
theorem Records.readable {r : Reference} (h : Records f r.entries) (now : ℤ) (k : Bytes) :
    r.readable now k = ((f.lookup k).bind (liveAt now)).map Entry.record := by
  unfold Reference.readable
  rw [h.lookup k]
  cases f.lookup k with
  | none => rfl
  | some e =>
      have hlive := e.live_record now
      cases hd : e.deadAt now <;> simp_all [liveAt, Option.filter]

/-- Storing an entry stores its record.
Source: none
Kind: L -/
theorem Records.insert {g : FinMap Bytes Record} (h : Records f g) (k : Bytes) (e : Entry) :
    Records (f.insert k e) (g.insert k e.record) := by
  apply records_of_lookup
  intro j
  by_cases hj : j = k
  · subst hj
    rw [Finmap.lookup_insert, Finmap.lookup_insert, Option.map_some]
  · rw [Finmap.lookup_insert_of_ne _ hj, Finmap.lookup_insert_of_ne _ hj, h.lookup]

/-- Removing an entry removes its record.
Source: none
Kind: L -/
theorem Records.erase {g : FinMap Bytes Record} (h : Records f g) (k : Bytes) :
    Records (f.erase k) (g.erase k) := by
  apply records_of_lookup
  intro j
  by_cases hj : j = k
  · subst hj
    rw [Finmap.lookup_erase, Finmap.lookup_erase]
    rfl
  · rw [Finmap.lookup_erase_ne hj, Finmap.lookup_erase_ne hj, h.lookup j]

/-- The entries that are left after some keys were dropped.
Source: none
Kind: L -/
theorem Records.trimmed {g g' : FinMap Bytes Record} {f' : FinMap Bytes Entry}
    {removed : Finset Bytes} (h : Records f g) (h' : Records f' g')
    (htrim : ∀ j, f'.lookup j = if j ∈ removed then none else f.lookup j) (j : Bytes) :
    g'.lookup j = if j ∈ removed then none else g.lookup j := by
  rw [h'.lookup j, htrim j, h.lookup j]
  split_ifs
  · rfl
  · rfl

/-- The time left of a key, through the engine's entry.
Source: `internal/cache/cache.go` `TTL`
Kind: L -/
theorem Records.remaining {r : Reference} (h : Records f r.entries) (now : ℤ) (k : Bytes) :
    (r.readable now k).map (fun x => x.remaining now) =
      ((f.lookup k).bind (liveAt now)).map fun e =>
        if e.expiresAt = zeroTime then -1 else timeSub e.expiresAt now := by
  rw [h.readable now k, Option.map_map]
  cases hlook : f.lookup k with
  | none => rfl
  | some e =>
      cases hd : e.deadAt now with
      | true => simp [liveAt, hd]
      | false =>
          have hlive : e.record.live now := by rw [e.live_record, hd]; rfl
          simp [liveAt, hd, e.remaining_record hlive]

/-- The number of live keys, through the engine's entries.
Source: `internal/cache/cache.go` `Len`
Kind: L -/
theorem Records.card_live {g : FinMap Bytes Record} (h : Records f g) (now : ℤ) :
    ((pairs g).filter fun e => e.2.live now).card =
      ((pairs f).filter fun e => !e.2.deadAt now).card := by
  rw [h, Multiset.filter_map, Multiset.card_map]
  congr 1
  apply Multiset.filter_congr
  intro e _
  simp [Entry.live_record]

/-- A successful `Set` is one of the reference.
Source: `internal/cache/cache.go` `Set`
Kind: L -/
theorem Written.shows {r : Reference} {key value : Bytes} {now ttl : ℤ} {w' : World S}
    {f' : FinMap Bytes Entry}
    (hw : Written fuel key ⟨value, expiryAt now ttl⟩ w w' f f') (h : Shows w.cache r)
    (hrec : Records f r.entries) (hnow : 0 ≤ now) :
    ∃ r', r.Step now (.set none key value ttl) (.stored (.ok ())) r' ∧ Shows w'.cache r' := by
  obtain ⟨entries, hentries⟩ := exists_records f'
  refine ⟨{ r with entries := entries }, ?_, ⟨f', hw.holds, hentries⟩,
    hw.maxmemory_eq.trans h.ceiling_eq, hw.evictPol_eq.trans h.policy_eq⟩
  have hins := hrec.insert key ⟨value, expiryAt now ttl⟩
  rw [record_expiryAt hnow] at hins
  by_cases hquiet : r.ceiling ≤ 0 ∨ r.policy = .noEviction
  · refine .set key value ttl ∅ entries (Finset.notMem_empty key) (fun _ => rfl) ?_
    rw [← h.ceiling_eq, ← h.policy_eq] at hquiet
    exact hins.trimmed hentries (by simp [hw.quiet hquiet])
  · obtain ⟨removed, hkey, htrim⟩ := hw.trimmed
    exact .set key value ttl removed entries hkey (fun hq => absurd hq hquiet)
      (hins.trimmed hentries htrim)

/-- `SetMaxMemory` is that of the reference.
Source: `internal/cache/cache.go` `SetMaxMemory`
Kind: L -/
theorem Retuned.shows {r : Reference} {bytes now : ℤ} {w' : World S} {f' : FinMap Bytes Entry}
    (ht : Retuned fuel bytes w w' f f') (h : Shows w.cache r)
    (hrec : Records f r.entries) :
    ∃ r', r.Step now (.setMaxMemory bytes) .done r' ∧ Shows w'.cache r' := by
  obtain ⟨entries, hentries⟩ := exists_records f'
  refine ⟨{ r with entries := entries, ceiling := bytes }, ?_, ⟨f', ht.holds, hentries⟩,
    ht.maxmemory_eq, ht.evictPol_eq.trans h.policy_eq⟩
  by_cases hquiet : bytes ≤ 0 ∨ r.policy = .noEviction
  · refine .setMaxMemory bytes ∅ entries (fun _ => rfl) ?_
    rw [← h.policy_eq] at hquiet
    exact hrec.trimmed hentries (by simp [ht.quiet hquiet])
  · obtain ⟨removed, htrim⟩ := ht.trimmed
    exact .setMaxMemory bytes removed entries (fun hq => absurd hq hquiet)
      (hrec.trimmed hentries htrim)

/-- A call at a clock that stands still is a step of the reference.
Source: `internal/cache/cache_test.go` `TestCache_ModelEquivalence`
Kind: L -/
theorem Shows.call {r : Reference} (h : Shows w.cache r) {now : ℤ} (hnow : 0 ≤ now)
    (hclock : ∀ i, w.env.clock.read i = now) (c : Call) :
    Ensures (call fuel w c) fun x => ∃ r', r.Step now c x.1 r' ∧ Shows x.2.cache r' := by
  obtain ⟨f, hf, hrec⟩ := h.holds
  have hhead : w.env.clock.head = now := hclock _
  have hnext : w.env.clock.tail.head = now := hclock _
  unfold Engine.call
  cases c with
  | get ctx key =>
      cases ctx with
      | some e => exact ⟨r, .cancelled rfl, h⟩
      | none =>
          refine Prog.ensures_bind (get_spec hf key) ?_
          rintro out w' ⟨hout, hk⟩
          simp only [hhead] at hout hk
          refine ⟨r, ?_, hk.shows h⟩
          have hstep : r.Step now _ _ r := .get key
          rw [hrec.readable now key, Option.map_map] at hstep
          rw [hout]
          exact hstep
  | set ctx key value ttl =>
      cases ctx with
      | some e => exact ⟨r, .cancelled rfl, h⟩
      | none =>
          refine Prog.ensures_bind
            (Q := fun x : Except Err Unit × World S => ∃ r',
              r.Step now (.set none key value ttl) (.stored x.1) r' ∧ Shows x.2.cache r')
            ?_ (fun out w' hout => hout)
          refine (set_spec hf fuel key value ttl).mono ?_
          rintro x (⟨hout, hk, hpos, hpol, -⟩ | ⟨hout, -, f', hw⟩)
          · refine ⟨r, ?_, hk.shows h⟩
            rw [hout]
            exact .oom key value ttl (h.ceiling_eq ▸ hpos) (h.policy_eq.symm.trans hpol)
          · rw [hhead] at hw
            rw [hout]
            exact hw.shows h hrec hnow
  | del ctx key =>
      cases ctx with
      | some e => exact ⟨r, .cancelled rfl, h⟩
      | none =>
          refine Prog.ensures_bind (del_spec hf key) ?_
          rintro out w' ⟨hout, hf', hmm, hpol, -⟩
          simp only [hhead] at hout hf' hmm hpol
          refine ⟨{ r with entries := r.entries.erase key }, ?_,
            ⟨f.erase key, hf', hrec.erase key⟩, hmm.trans h.ceiling_eq, hpol.trans h.policy_eq⟩
          have hstep : r.Step now _ _ _ := .del key
          rw [hrec.readable now key, Option.isSome_map] at hstep
          rw [hout]
          exact hstep
  | ttl ctx key =>
      cases ctx with
      | some e => exact ⟨r, .cancelled rfl, h⟩
      | none =>
          refine Prog.ensures_bind (ttl_spec hf key) ?_
          rintro out w' ⟨hout, hk⟩
          simp only [hhead, hnext] at hout hk
          refine ⟨r, ?_, hk.shows h⟩
          have hstep : r.Step now _ _ r := .ttl key
          rw [hrec.remaining now key] at hstep
          rw [hout]
          exact hstep
  | len ctx =>
      cases ctx with
      | some e => exact ⟨r, .cancelled rfl, h⟩
      | none =>
          refine Prog.ensures_bind (len_spec hf hclock) ?_
          rintro out w' ⟨hout, hk⟩
          simp only at hout hk
          refine ⟨r, ?_, hk.shows h⟩
          have hstep : r.Step now _ _ r := .len
          rw [hrec.card_live now] at hstep
          rw [hout]
          exact hstep
  | setMaxMemory bytes =>
      refine Prog.ensures_bind
        (Q := fun x : Unit × World S => ∃ r',
          r.Step now (.setMaxMemory bytes) .done r' ∧ Shows x.2.cache r')
        ?_ (fun out w' hout => hout)
      refine (setMaxMemory_spec hf fuel bytes).mono ?_
      rintro x ⟨f', ht⟩
      exact ht.shows h hrec
  | setEvictionPolicy p =>
      refine Prog.ensures_bind (setEvictionPolicy_spec hf p) ?_
      rintro _ w' ⟨hf', hmm, hpol, -⟩
      exact ⟨{ r with policy := p }, .setEvictionPolicy p, ⟨f, hf', hrec⟩,
        hmm.trans h.ceiling_eq, hpol⟩

/-! ### Runs -/

/-- A call and what it reads from outside.
Source: none
Kind: D -/
structure Turn where
  call : Call
  env : Env

/-- A sequential run, with what each call returned.
Source: `internal/cache/cache_test.go` `TestCache_ModelEquivalence`
Kind: D -/
def run (fuel : ℕ) (w : World S) : List Turn → Outcome (List Did × World S)
  | [] => pure ([], w)
  | t :: ts => do
      let (out, w) ← call fuel { w with env := t.env } t.call
      let (dids, w) ← run fuel w ts
      pure (⟨t.env.clock.head, t.call, out⟩ :: dids, w)

/-- A sequential run keeps the accounting.
Source: `internal/cache/cache.go` `Cache`
Kind: P -/
theorem Cache.Holds.run (turns : List Turn) :
    ∀ {w : World S} {f : FinMap Bytes Entry}, w.cache.Holds f →
      Ensures (run fuel w turns) fun x => ∃ f', x.2.cache.Holds f' := by
  induction turns with
  | nil => exact fun {w f} h => ⟨f, h⟩
  | cons t turns ih =>
      intro w f h
      unfold Engine.run
      refine (Cache.Holds.call (w := { w with env := t.env }) h t.call).bind ?_
      rintro ⟨out, w'⟩ ⟨f', hf'⟩
      exact (ih hf').bind fun x hx => hx

/-- The clock of the turn stands still at or after the epoch.
Source: none
Kind: D -/
def Turn.Still (t : Turn) : Prop := ∃ now, 0 ≤ now ∧ ∀ i, t.env.clock.read i = now

/-- Along a run the cache goes on showing a run of the reference.
Source: `internal/cache/cache.go` `Cache`
Kind: L -/
theorem Shows.run {r₀ : Reference} (turns : List Turn) :
    ∀ {w : World S} {r : Reference} {h : List Did}, Shows w.cache r → r₀.Run h r →
      (∀ t ∈ turns, t.Still) →
      Ensures (run fuel w turns) fun x =>
        ∃ r', r₀.Run (h ++ x.1) r' ∧ Shows x.2.cache r' := by
  induction turns with
  | nil =>
      intro w r h hs hrun _
      refine ⟨r, ?_, hs⟩
      rw [List.append_nil]
      exact hrun
  | cons t turns ih =>
      intro w r h hs hrun hstill
      obtain ⟨now, hnow, hclock⟩ := hstill t List.mem_cons_self
      unfold Engine.run
      refine Ensures.bind (Shows.call (w := { w with env := t.env }) hs hnow hclock t.call) ?_
      rintro ⟨out, w'⟩ ⟨r', hstep, hs'⟩
      have hhead : t.env.clock.head = now := hclock _
      refine (ih hs' (hrun.snoc (d := ⟨t.env.clock.head, t.call, out⟩) (hhead ▸ hstep))
        fun t' ht' => hstill t' (List.mem_cons_of_mem _ ht')).bind ?_
      rintro ⟨dids, w''⟩ ⟨r'', hrun'', hs''⟩
      refine ⟨r'', ?_, hs''⟩
      rw [List.append_assoc] at hrun''
      exact hrun''

/-- The reference of a new cache.
Source: `internal/cache/cache.go` `New`
Kind: D -/
def Reference.new (opts : List (CacheOpt S)) : Reference :=
  let cfg := opts.foldl CacheOpt.apply {}
  ⟨∅, cfg.maxmemory, cfg.policy⟩

end CacheMoney.Engine
