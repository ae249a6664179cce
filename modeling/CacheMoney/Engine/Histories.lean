import CacheMoney.Engine.Paths

/-!
# Calls that overlap

Any number of clients call the methods of the engine and run eviction passes, action by action in
any order. The map, the clock, the usage counter and the settings are then one object that all of
them act on, and every history is a run of it (`Store`). Each call on a key has one point at which
it acts on the map.

* `TakesEffect`: what a call did to the store at its point, and why it replied as it did. The expiry
  check reads the clock after that point; `Get`, `TTL` and `Del` may find the entry expired only
  then.
* `cacheCall_takes_effect`: every call has its effect, in every history.
-/

set_option linter.unusedSectionVars false

namespace CacheMoney.Engine

open CacheMoney.Found CacheMoney.Shardmap

/-! ### The store -/

/-- What the clients share: the stored entries, the clock, the usage counter and the two settings.
Source: `internal/cache/cache.go` `Cache`
Kind: D -/
structure Store where
  entries : FinMap Bytes Entry
  clock : Tape ℤ
  usage : ℤ
  maxmemory : ℤ
  evictPol : EvictionPolicy

/-- The store as an object. What the actions on the statistics, the sketch and the random source
answer is left open.
Source: `internal/cache/cache.go` `Cache`
Kind: D -/
def storeSpec : Spec Action Action.Answer Store where
  next x a _ :=
    match a with
    | .now => { x with clock := x.clock.tail }
    | .swap key e => { x with entries := x.entries.insert key e }
    | .delete key => { x with entries := x.entries.erase key }
    | .addUsage d => { x with usage := x.usage + d }
    | .storeMaxmemory bytes => { x with maxmemory := bytes }
    | .storeEvictPol p => { x with evictPol := p }
    | _ => x
  allows x a r :=
    match a, r with
    | .now, t => t = x.clock.head
    | .get key, found => found = x.entries.lookup key
    | .swap key _, old => old = x.entries.lookup key
    | .delete key, old => old = x.entries.lookup key
    | .loadUsage, n => n = x.usage
    | .loadMaxmemory, n => n = x.maxmemory
    | .loadEvictPol, p => p = x.evictPol
    | _, _ => True

/-- The cache stores the entries of the store and has its clock, counter and settings.
Source: none
Kind: D -/
structure World.Presents {S : Type} (w : World S) (x : Store) : Prop where
  represents : w.cache.m.Represents x.entries
  clock_eq : w.env.clock = x.clock
  usage_eq : w.cache.usage = x.usage
  maxmemory_eq : w.cache.maxmemory = x.maxmemory
  evictPol_eq : w.cache.evictPol = x.evictPol

/-- Every action of the engine is an action of the store.
Source: `internal/cache/cache.go` `Cache`
Kind: L -/
theorem exec_presents {S : Type} (fuel : ℕ) (a : Action) (w : World S) (x : Store) (r : a.Answer)
    (w' : World S) (h : w.Presents x) (hexec : exec fuel a w = .ok (r, w')) :
    storeSpec.allows x a r ∧ w'.Presents (storeSpec.next x a r) := by
  have hf := h.represents
  cases a with
  | now =>
      cases hexec
      exact ⟨congrArg Tape.head h.clock_eq, { h with clock_eq := congrArg Tape.tail h.clock_eq }⟩
  | get key =>
      obtain ⟨hr, hw'⟩ := (exec_get hf fuel key).of_ok hexec
      simp only at hr hw'
      subst hw'
      exact ⟨hr, h⟩
  | swap key e =>
      obtain ⟨hr, m, -, hm, hw'⟩ := (exec_swap hf fuel key e).of_ok hexec
      simp only at hr hw'
      subst hw'
      exact ⟨hr, { h with represents := hm }⟩
  | delete key =>
      obtain ⟨hr, m, -, hm, hw'⟩ := (exec_delete hf fuel key).of_ok hexec
      simp only at hr hw'
      subst hw'
      exact ⟨hr, { h with represents := hm }⟩
  | sample n =>
      obtain ⟨-, rand, -, hw'⟩ := (exec_sample hf fuel n).of_ok hexec
      simp only at hw'
      subst hw'
      exact ⟨trivial, { h with }⟩
  | range =>
      obtain ⟨-, hw'⟩ := (exec_range hf fuel).of_ok hexec
      simp only at hw'
      subst hw'
      exact ⟨trivial, h⟩
  | loadUsage =>
      cases hexec
      exact ⟨h.usage_eq, h⟩
  | loadMaxmemory =>
      cases hexec
      exact ⟨h.maxmemory_eq, h⟩
  | loadEvictPol =>
      cases hexec
      exact ⟨h.evictPol_eq, h⟩
  | addUsage d =>
      cases hexec
      exact ⟨trivial, { h with usage_eq := congrArg (· + d) h.usage_eq }⟩
  | storeMaxmemory bytes =>
      cases hexec
      exact ⟨trivial, { h with maxmemory_eq := rfl }⟩
  | storeEvictPol p =>
      cases hexec
      exact ⟨trivial, { h with evictPol_eq := rfl }⟩
  | _ =>
      cases hexec
      exact ⟨trivial, { h with }⟩

/-- The clock does not run backwards.
Source: `internal/cache/cache.go` `Clock`
Kind: D -/
def Forward (clock : Tape ℤ) : Prop := ∀ i j, i ≤ j → clock.read i ≤ clock.read j

section clocks

variable {ι α : Type}

/-- An event of a history of the engine, seen by clients whose calls return an `α`.
Source: none
Kind: D -/
abbrev CacheEvent (ι α : Type) := Found.Event ι Action Action.Answer α

/-- An event keeps the readings of the clock and does not go back in them.
Source: none
Kind: L -/
theorem nextEvent_clock (x : Store) (ev : CacheEvent ι α) :
    (storeSpec.nextEvent x ev).clock.read = x.clock.read ∧
      x.clock.pos ≤ (storeSpec.nextEvent x ev).clock.pos := by
  cases ev with
  | called i p => exact ⟨rfl, le_rfl⟩
  | returned i a => exact ⟨rfl, le_rfl⟩
  | done i a r =>
      cases a with
      | now => exact ⟨rfl, Nat.le_succ _⟩
      | _ => exact ⟨rfl, le_rfl⟩

/-- Nor does a whole log.
Source: none
Kind: L -/
theorem after_clock (log : List (CacheEvent ι α)) : ∀ x : Store,
    (storeSpec.after x log).clock.read = x.clock.read ∧
      x.clock.pos ≤ (storeSpec.after x log).clock.pos := by
  induction log with
  | nil => exact fun x => ⟨rfl, le_rfl⟩
  | cons ev log ih =>
      intro x
      obtain ⟨hread, hpos⟩ := ih (storeSpec.nextEvent x ev)
      obtain ⟨hread', hpos'⟩ := nextEvent_clock x ev
      exact ⟨hread.trans hread', hpos'.trans hpos⟩

/-- A clock that runs forward runs forward after any log.
Source: none
Kind: L -/
theorem forward_after {x : Store} (hclock : Forward x.clock) (log : List (CacheEvent ι α)) :
    Forward (storeSpec.after x log).clock := by
  unfold Forward
  rw [(after_clock log x).1]
  exact hclock

/-- Time passes.
Source: none
Kind: L -/
theorem head_le_after {x : Store} (hclock : Forward x.clock) (log : List (CacheEvent ι α)) :
    x.clock.head ≤ (storeSpec.after x log).clock.head := by
  obtain ⟨hread, hpos⟩ := after_clock log x
  unfold Tape.head
  rw [hread]
  exact hclock _ _ hpos

end clocks

/-- An entry that is live at a time was live before it.
Source: none
Kind: L -/
theorem Entry.deadAt_mono {e : Entry} {t t' : ℤ} (hle : t ≤ t') (h : e.deadAt t' = false) :
    e.deadAt t = false := by
  unfold Entry.deadAt at h ⊢
  by_cases hz : e.expiresAt = zeroTime
  · simp [hz]
  · have hlt : t' < e.expiresAt := by simpa [hz] using h
    simp [hz, lt_of_le_of_lt hle hlt]

/-! ### Points of a call -/

variable {ι α : Type} [DecidableEq ι]

/-- In the events of a call that began with store `x`, the client performs an action where the
store is `y`; `later` are the events after it.
Source: none
Kind: D -/
def Performs (i : ι) (x : Store) (post : List (CacheEvent ι α)) (a : Action) (r : a.Answer)
    (y : Store) (later : List (CacheEvent ι α)) : Prop :=
  ∃ before, post = before ++ .done i a r :: later ∧ y = storeSpec.after x before

/-- The client reads the clock and finds the entry expired.
Source: `internal/cache/cache.go` `expired`
Kind: D -/
def FindsExpired (i : ι) (x : Store) (post : List (CacheEvent ι α)) (e : Entry) : Prop :=
  ∃ y later, Performs i x post .now y.clock.head y later ∧ e.deadAt y.clock.head = true

/-- No action of the client changes the map or a setting.
Source: none
Kind: D -/
def OnlyReads (i : ι) (post : List (CacheEvent ι α)) : Prop := ReadOnly (actionsOf i post)

/-- All that the client changes is that it removes other keys.
Source: `internal/cache/evict.go` `evictUntilUnder`
Kind: D -/
def OnlyEvicts (i : ι) (key : Bytes) (post : List (CacheEvent ι α)) : Prop :=
  ∀ x ∈ actionsOf i post, x.1.writes = true → ∃ victim, x.1 = .delete victim ∧ victim ≠ key

/-- What a call on a key does, and why its reply is right. `x` is the store at its beginning, `post`
are the events from its call to its return.
Source: `internal/cache/cache.go` `Get`, `Set`, `Del`, `TTL`
Kind: D -/
inductive TakesEffect (i : ι) (x : Store) (post : List (CacheEvent ι α)) : Call → Reply → Prop where
  /-- The value that was stored and live when the map was read. -/
  | hit {key : Bytes} {e : Entry} {y : Store} {later : List (CacheEvent ι α)}
      (hat : Performs i x post (.get key) (some e) y later) (hreads : OnlyReads i post)
      (hstored : y.entries.lookup key = some e) (hlive : e.deadAt y.clock.head = false) :
      TakesEffect i x post (.get none key) (.value (.ok (some e.value)))
  /-- Nothing was stored when the map was read. -/
  | absent {key : Bytes} {y : Store} {later : List (CacheEvent ι α)}
      (hat : Performs i x post (.get key) none y later) (hreads : OnlyReads i post)
      (hstored : y.entries.lookup key = none) : TakesEffect i x post (.get none key) (.value (.ok none))
  /-- The entry that was stored when the map was read had expired when the clock was read. -/
  | lapsed {key : Bytes} {e : Entry} {y : Store} {later : List (CacheEvent ι α)}
      (hat : Performs i x post (.get key) (some e) y later) (hreads : OnlyReads i post)
      (hstored : y.entries.lookup key = some e) (hexpired : FindsExpired i y later e) :
      TakesEffect i x post (.get none key) (.value (.ok none))
  | ttlLasting {key : Bytes} {e : Entry} {y : Store} {later : List (CacheEvent ι α)}
      (hat : Performs i x post (.get key) (some e) y later) (hreads : OnlyReads i post)
      (hstored : y.entries.lookup key = some e) (hz : e.expiresAt = zeroTime) :
      TakesEffect i x post (.ttl none key) (.remaining (.ok (some (-1))))
  /-- The entry was live when the map was read, and what is left of it is as of a later point of the
  call. -/
  | ttlLeft {key : Bytes} {e : Entry} {y z : Store} {later : List (CacheEvent ι α)}
      (hat : Performs i x post (.get key) (some e) y later) (hreads : OnlyReads i post)
      (hstored : y.entries.lookup key = some e) (hlive : e.deadAt y.clock.head = false)
      (hz : e.expiresAt ≠ zeroTime) (hlater : ∃ l l', later = l ++ l' ∧ z = storeSpec.after y l)
      (hle : y.clock.head ≤ z.clock.head) :
      TakesEffect i x post (.ttl none key)
        (.remaining (.ok (some (timeSub e.expiresAt z.clock.head))))
  | ttlAbsent {key : Bytes} {y : Store} {later : List (CacheEvent ι α)}
      (hat : Performs i x post (.get key) none y later) (hreads : OnlyReads i post)
      (hstored : y.entries.lookup key = none) :
      TakesEffect i x post (.ttl none key) (.remaining (.ok none))
  | ttlLapsed {key : Bytes} {e : Entry} {y : Store} {later : List (CacheEvent ι α)}
      (hat : Performs i x post (.get key) (some e) y later) (hreads : OnlyReads i post)
      (hstored : y.entries.lookup key = some e) (hexpired : FindsExpired i y later e) :
      TakesEffect i x post (.ttl none key) (.remaining (.ok none))
  /-- The entry was removed where it was stored and live. -/
  | deleted {key : Bytes} {e : Entry} {y : Store} {before later : List (CacheEvent ι α)}
      (hpost : post = before ++ .done i (.delete key) (some e) :: later)
      (hat : y = storeSpec.after x before) (hbefore : OnlyReads i before)
      (hlater : OnlyReads i later) (hstored : y.entries.lookup key = some e)
      (hlive : e.deadAt y.clock.head = false) :
      TakesEffect i x post (.del none key) (.existed (.ok true))
  /-- Nothing was stored, or what was removed had expired when the clock was read. -/
  | notDeleted {key : Bytes} {found : Option Entry} {y : Store} {before later : List (CacheEvent ι α)}
      (hpost : post = before ++ .done i (.delete key) found :: later)
      (hat : y = storeSpec.after x before) (hbefore : OnlyReads i before)
      (hlater : OnlyReads i later) (hstored : y.entries.lookup key = found)
      (hexpired : ∀ e ∈ found, FindsExpired i (storeSpec.next y (.delete key) found) later e) :
      TakesEffect i x post (.del none key) (.existed (.ok false))
  /-- The entry was stored at one point, with an expiry counted from a point before it, and the
  call's own eviction removed other keys only. -/
  | stored {key value : Bytes} {ttl : ℤ} {e : Entry} {before later : List (CacheEvent ι α)}
      {old : Option Entry} (hpost : post = before ++ .done i (.swap key e) old :: later)
      (hvalue : e.value = value) (hbefore : OnlyReads i before)
      (hlasting : ttl ≤ 0 → e.expiresAt = zeroTime)
      (hdated : 0 < ttl → ∃ y between, Performs i x before .now y.clock.head y between ∧
        e.expiresAt = y.clock.head + ttl)
      (hlater : OnlyEvicts i key later) :
      TakesEffect i x post (.set none key value ttl) (.stored (.ok ()))
  /-- A refused write changed nothing. The ceiling, the policy, the entry to be replaced and the usage
  that it read one after the other refuse it. -/
  | refused {key value : Bytes} {ttl : ℤ} {y₁ y₂ y₃ y₄ : Store}
      {later₁ later₂ later₃ later₄ : List (CacheEvent ι α)} (hreads : OnlyReads i post)
      (hceiling : Performs i x post .loadMaxmemory y₁.maxmemory y₁ later₁)
      (hpolicy : Performs i y₁ later₁ .loadEvictPol y₂.evictPol y₂ later₂)
      (hold : Performs i y₂ later₂ (.get key) (y₃.entries.lookup key) y₃ later₃)
      (husage : Performs i y₃ later₃ .loadUsage y₄.usage y₄ later₄)
      (hpos : 0 < y₁.maxmemory) (hnoEviction : y₂.evictPol = .noEviction)
      (hgrows : 0 < costOf key value - Cache.foundCost key (y₃.entries.lookup key))
      (hfull : y₁.maxmemory <
        y₄.usage + (costOf key value - Cache.foundCost key (y₃.entries.lookup key))) :
      TakesEffect i x post (.set none key value ttl) (.stored (.error .oom))

/-- The calls on one key, made with a live context.
Source: `internal/cache/engine.go` `Engine`
Kind: D -/
def Call.onKey : Call → Bool
  | .get none _ => true
  | .set none _ _ _ => true
  | .del none _ => true
  | .ttl none _ => true
  | _ => false

section effects

variable {i : ι} {x : Store} {post : List (CacheEvent ι α)}

/-- A pass that spares the key changes nothing but that other keys are removed.
Source: `internal/cache/engine.go` `Engine`
Kind: L -/
theorem Passing.onlyEvicts {key : Bytes} (h : Passing (some key) (actionsOf i post)) :
    OnlyEvicts i key post := by
  rintro ⟨a, r⟩ hy hwrites
  rcases h.spares _ hy with hplain | hcount | ⟨victim, hvictim, hne⟩
  · exact absurd (hwrites.symm.trans (writes_of_plain hplain)) (by decide)
  · rw [hcount] at hwrites
    cases hwrites
  · refine ⟨victim, hvictim, ?_⟩
    rintro rfl
    exact hne rfl

/-- The first action of a call: what the store was there, and the rest of the call.
Source: none
Kind: L -/
theorem first_action {a : Action} {r : a.Answer} {rest : Acts}
    (hlegal : storeSpec.Legal x post) (hacts : actionsOf i post = ⟨a, r⟩ :: rest) :
    ∃ before later, post = before ++ .done i a r :: later ∧ actionsOf i before = [] ∧
      actionsOf i later = rest ∧ storeSpec.allows (storeSpec.after x before) a r ∧
      storeSpec.Legal (storeSpec.next (storeSpec.after x before) a r) later := by
  obtain ⟨before, later, rfl, hbefore, hlater⟩ := exists_of_actionsOf (show _ = [] ++ _ from hacts)
  obtain ⟨-, hallows, hrest⟩ := Spec.legal_append.mp hlegal
  exact ⟨before, later, rfl, hbefore, hlater, hallows, hrest⟩

/-- The check after a point: an entry found live was live at that point, and one found dead was
found expired later in the call.
Source: `internal/cache/cache.go` `expired`
Kind: L -/
theorem Judged.since {e : Entry} {l rest : Acts} {dead : Bool} {y : Store}
    (hclock : Forward y.clock) (hlegal : storeSpec.Legal y post)
    (hjudged : Judged e l dead) (hacts : actionsOf i post = l ++ rest) :
    (dead = false → e.deadAt y.clock.head = false) ∧ (dead = true → FindsExpired i y post e) := by
  cases hjudged with
  | lasting hz =>
      refine ⟨fun _ => ?_, fun hd => absurd hd (by decide)⟩
      simp [Entry.deadAt, hz]
  | read hz t hdead =>
      obtain ⟨before, later, rfl, -, -, hallows, -⟩ := first_action hlegal hacts
      have ht : t = (storeSpec.after y before).clock.head := hallows
      subst ht
      refine ⟨fun hd => ?_, fun hd => ?_⟩
      · exact Entry.deadAt_mono (head_le_after hclock before) (hdead.trans hd)
      · exact ⟨_, later, ⟨before, rfl, rfl⟩, hdead.trans hd⟩

/-- An entry found expired after a log is found expired from before it.
Source: `internal/cache/cache.go` `expired`
Kind: L -/
theorem FindsExpired.earlier {y : Store} {l l' : List (CacheEvent ι α)} {e : Entry}
    (h : FindsExpired i (storeSpec.after y l) l' e) : FindsExpired i y (l ++ l') e := by
  obtain ⟨z, later, ⟨before, rfl, rfl⟩, hdead⟩ := h
  refine ⟨_, later, ⟨l ++ before, ?_, (Spec.after_append before).symm⟩, hdead⟩
  rw [List.append_assoc]

/-- `Get` and `TTL` act when they read the map.
Source: `internal/cache/cache.go` `Get`
Kind: L -/
theorem GetPath.effect {key : Bytes} {v : Option Bytes} (hclock : Forward x.clock)
    (hlegal : storeSpec.Legal x post) (h : GetPath key (actionsOf i post) v) :
    TakesEffect i x post (.get none key) (.value (.ok v)) := by
  have hreads : OnlyReads i post := h.readOnly
  generalize hacts : actionsOf i post = l at h
  cases h with
  | absent =>
      obtain ⟨before, later, hpost, -, -, hallows, -⟩ := first_action hlegal hacts
      exact .absent ⟨before, hpost, rfl⟩ hreads (Eq.symm hallows)
  | dead e l hjudged =>
      obtain ⟨before, later, hpost, -, hlater, hallows, hrest⟩ := first_action hlegal hacts
      have hclock' := forward_after hclock before
      exact .lapsed ⟨before, hpost, rfl⟩ hreads (Eq.symm hallows)
        ((hjudged.since hclock' hrest hlater).2 rfl)
  | live e l hjudged =>
      obtain ⟨before, later, hpost, -, hlater, hallows, hrest⟩ := first_action hlegal hacts
      have hclock' := forward_after hclock before
      exact .hit ⟨before, hpost, rfl⟩ hreads (Eq.symm hallows)
        ((hjudged.since hclock' hrest hlater).1 rfl)

/-- `TTL` takes effect as its reply says.
Source: `internal/cache/cache.go` `TTL`
Kind: L -/
theorem TtlPath.effect {key : Bytes} {v : Option ℤ} (hclock : Forward x.clock)
    (hlegal : storeSpec.Legal x post) (h : TtlPath key (actionsOf i post) v) :
    TakesEffect i x post (.ttl none key) (.remaining (.ok v)) := by
  have hreads : OnlyReads i post := h.plain.readOnly
  generalize hacts : actionsOf i post = l at h
  cases h with
  | absent =>
      obtain ⟨before, later, hpost, -, -, hallows, -⟩ := first_action hlegal hacts
      exact .ttlAbsent ⟨before, hpost, rfl⟩ hreads (Eq.symm hallows)
  | dead e l hjudged =>
      obtain ⟨before, later, hpost, -, hlater, hallows, hrest⟩ := first_action hlegal hacts
      have hclock' := forward_after hclock before
      rw [← List.append_nil l] at hlater
      exact .ttlLapsed ⟨before, hpost, rfl⟩ hreads (Eq.symm hallows)
        ((hjudged.since hclock' hrest hlater).2 rfl)
  | lasting e hz =>
      obtain ⟨before, later, hpost, -, -, hallows, -⟩ := first_action hlegal hacts
      exact .ttlLasting ⟨before, hpost, rfl⟩ hreads (Eq.symm hallows) hz
  | left e hz t t' hlive =>
      obtain ⟨before, later, hpost, -, hlater, hallows, hrest⟩ := first_action hlegal hacts
      have hclock' := forward_after hclock before
      have hjudged : Judged e [⟨.now, t⟩] false := .read hz t hlive
      have hlive' := (hjudged.since hclock' hrest hlater).1 rfl
      -- The second reading is the store's clock at its own point.
      obtain ⟨before₁, later₁, hlater₁, -, hacts₁, -, hrest₁⟩ := first_action hrest hlater
      obtain ⟨before₂, later₂, hlater₂, -, -, hallows₂, -⟩ := first_action hrest₁ hacts₁
      have hpoint : ∃ l l', later = l ++ l' ∧
          storeSpec.after (storeSpec.next (storeSpec.after (storeSpec.after x before) before₁) .now t)
            before₂ = storeSpec.after (storeSpec.after x before) l := by
        refine ⟨before₁ ++ .done i .now t :: before₂, .done i .now t' :: later₂, ?_, ?_⟩
        · rw [hlater₁, hlater₂, List.append_assoc, List.cons_append]
        · rw [Spec.after_append]
          rfl
      obtain ⟨l, l', hl, hz'⟩ := hpoint
      rw [show t' = (storeSpec.after (storeSpec.after x before) l).clock.head from
        (show t' = _ from hallows₂).trans (congrArg (fun y : Store => y.clock.head) hz')]
      exact .ttlLeft ⟨before, hpost, rfl⟩ hreads (Eq.symm hallows) hlive' hz ⟨l, l', hl, rfl⟩
        (head_le_after hclock' l)

/-- `Del` acts when it removes the entry.
Source: `internal/cache/cache.go` `Del`
Kind: L -/
theorem DelPath.effect {key : Bytes} {b : Bool} (hclock : Forward x.clock)
    (hlegal : storeSpec.Legal x post) (h : DelPath key (actionsOf i post) b) :
    TakesEffect i x post (.del none key) (.existed (.ok b)) := by
  generalize hacts : actionsOf i post = l at h
  cases h with
  | absent =>
      obtain ⟨before, later, hpost, hbefore, hlater, hallows, -⟩ := first_action hlegal hacts
      refine .notDeleted hpost rfl ?_ ?_ (Eq.symm hallows) (fun e he => by cases he)
      · rw [OnlyReads, hbefore]
        exact plain_nil.readOnly
      · rw [OnlyReads, hlater]
        exact plain_nil.readOnly
  | present e l dead hjudged =>
      obtain ⟨before, later, hpost, hbefore, hlater, hallows, hrest⟩ := first_action hlegal hacts
      have hreads : OnlyReads i before := by
        rw [OnlyReads, hbefore]
        exact plain_nil.readOnly
      have hreads' : OnlyReads i later := by
        rw [OnlyReads, hlater]
        exact readOnly_cons rfl hjudged.plain.readOnly
      -- Between the removal and the check stands the accounting.
      obtain ⟨before₁, later₁, hlater₁, -, hacts₁, -, hrest₁⟩ := first_action hrest hlater
      have hsplit : later = (before₁ ++ [.done i (.addUsage (-costOf key e.value)) ()]) ++ later₁ := by
        rw [hlater₁, List.append_assoc, List.singleton_append]
      have hclock' : Forward (storeSpec.next (storeSpec.after x before) (.delete key)
          (some e)).clock := forward_after hclock before
      have hclock₁ : Forward (storeSpec.next (storeSpec.after (storeSpec.next
          (storeSpec.after x before) (.delete key) (some e)) before₁)
          (.addUsage (-costOf key e.value)) ()).clock := forward_after hclock' before₁
      rw [← List.append_nil l] at hacts₁
      obtain ⟨hlive, hexpired⟩ := hjudged.since hclock₁ hrest₁ hacts₁
      cases dead with
      | true =>
          refine .notDeleted hpost rfl hreads hreads' (Eq.symm hallows) fun e' he' => ?_
          obtain rfl := Option.some.inj he'
          rw [hsplit]
          apply FindsExpired.earlier
          rw [Spec.after_snoc]
          exact hexpired rfl
      | false =>
          refine .deleted hpost rfl hreads hreads' (Eq.symm hallows) ?_
          exact Entry.deadAt_mono (head_le_after hclock' before₁) (hlive rfl)

/-- The next action of a call after the actions `l`.
Source: none
Kind: L -/
theorem next_action {a : Action} {r : a.Answer} {l rest : Acts}
    (hlegal : storeSpec.Legal x post) (hacts : actionsOf i post = l ++ ⟨a, r⟩ :: rest) :
    ∃ y later, Performs i x post a r y later ∧ storeSpec.allows y a r ∧
      actionsOf i later = rest ∧ storeSpec.Legal (storeSpec.next y a r) later := by
  obtain ⟨before, later, rfl, -, hlater⟩ := exists_of_actionsOf hacts
  obtain ⟨-, hallows, hrest⟩ := Spec.legal_append.mp hlegal
  exact ⟨_, later, ⟨before, rfl, rfl⟩, hallows, hlater, hrest⟩

/-- What a refused `Set` read is what the store was at each of its readings.
Source: `internal/cache/cache.go` `Set`
Kind: L -/
theorem RefusedPath.effect {key value : Bytes} {ttl : ℤ} {l l' : Acts}
    (h : RefusedPath key value l') (hreads : OnlyReads i post) (hlegal : storeSpec.Legal x post)
    (hacts : actionsOf i post = l ++ l') :
    TakesEffect i x post (.set none key value ttl) (.stored (.error .oom)) := by
  cases h with
  | full ceiling usage old hpos hgrows hfull =>
      obtain ⟨y₁, later₁, hceiling, hallows₁, hacts₁, hlegal₁⟩ := next_action hlegal hacts
      obtain ⟨y₂, later₂, hpolicy, hallows₂, hacts₂, hlegal₂⟩ :=
        next_action (show storeSpec.Legal y₁ later₁ from hlegal₁) (show _ = [] ++ _ from hacts₁)
      obtain ⟨y₃, later₃, hold, hallows₃, hacts₃, hlegal₃⟩ :=
        next_action (show storeSpec.Legal y₂ later₂ from hlegal₂) (show _ = [] ++ _ from hacts₂)
      obtain ⟨y₄, later₄, husage, hallows₄, -, -⟩ :=
        next_action (show storeSpec.Legal y₃ later₃ from hlegal₃) (show _ = [] ++ _ from hacts₃)
      obtain rfl : ceiling = y₁.maxmemory := hallows₁
      obtain rfl : old = y₃.entries.lookup key := hallows₃
      obtain rfl : usage = y₄.usage := hallows₄
      have hnoEviction : EvictionPolicy.noEviction = y₂.evictPol := hallows₂
      rw [hnoEviction] at hpolicy
      exact .refused hreads hceiling hpolicy hold husage hpos hnoEviction.symm hgrows hfull

/-- `Set` acts when it swaps the entry in.
Source: `internal/cache/cache.go` `Set`
Kind: L -/
theorem SetPath.effect {key value : Bytes} {ttl : ℤ} {r : Except Err Unit}
    (hlegal : storeSpec.Legal x post) (h : SetPath key value ttl (actionsOf i post) r) :
    TakesEffect i x post (.set none key value ttl) (.stored r) := by
  generalize hacts : actionsOf i post = l at h
  cases h with
  | refused l l' expiresAt hdated hfull =>
      have hreads : OnlyReads i post := by
        rw [OnlyReads, hacts]
        exact (hdated.plain.append hfull.plain).readOnly
      exact hfull.effect hreads hlegal hacts
  | stored l l' l'' expiresAt old hdated hplain hpass =>
      rw [← List.append_assoc] at hacts
      obtain ⟨before, later, rfl, hbefore, hlater⟩ := exists_of_actionsOf hacts
      obtain ⟨hlegal', -⟩ := Spec.legal_append.mp hlegal
      refine .stored rfl rfl ?_ ?_ ?_ ?_
      · rw [OnlyReads, hbefore]
        exact hdated.plain.readOnly.append hplain.readOnly
      · intro hle
        cases hdated with
        | lasting => rfl
        | read hpos => exact absurd hpos (not_lt.mpr hle)
      · intro hpos
        cases hdated with
        | lasting hle => exact absurd hpos (not_lt.mpr hle)
        | read _ t =>
            obtain ⟨before₁, between, rfl, -, -, hallows, -⟩ := first_action hlegal' hbefore
            have ht : t = (storeSpec.after x before₁).clock.head := hallows
            subst ht
            exact ⟨_, between, ⟨before₁, rfl, rfl⟩, rfl⟩
      · apply Passing.onlyEvicts
        rw [hlater]
        exact hpass

/-- Every call on a key takes effect as its reply says.
Source: `internal/cache/cache.go` `Get`, `Set`, `Del`, `TTL`
Kind: L -/
theorem CallPath.effect {c : Call} {reply : Reply} (hclock : Forward x.clock)
    (hlegal : storeSpec.Legal x post) (hkey : c.onKey = true)
    (h : CallPath c (actionsOf i post) reply) : TakesEffect i x post c reply := by
  generalize hacts : actionsOf i post = l at h
  cases h with
  | get h =>
      rw [← hacts] at h
      exact h.effect hclock hlegal
  | set h =>
      rw [← hacts] at h
      exact h.effect hlegal
  | del h =>
      rw [← hacts] at h
      exact h.effect hclock hlegal
  | ttl h =>
      rw [← hacts] at h
      exact h.effect hclock hlegal
  | _ => cases hkey

end effects

/-- The store of a new cache: nothing is stored, and the settings are those of its options.
Source: `internal/cache/cache.go` `New`
Kind: D -/
def newStore {S : Type} (host : Host S) (hasher : S → Bytes → UInt64) (opts : List (CacheOpt S))
    (env : Env) : Store where
  entries := ∅
  clock := env.clock
  usage := (Cache.new host hasher opts).usage
  maxmemory := (Cache.new host hasher opts).maxmemory
  evictPol := (Cache.new host hasher opts).evictPol

/-- A new cache presents the empty store.
Source: `internal/cache/cache.go` `New`
Kind: L -/
theorem presents_new {S : Type} (host : Host S) (hasher : S → Bytes → UInt64)
    (opts : List (CacheOpt S)) (hhost : host.gomaxprocs * 4 ≤ 2 ^ 62)
    (hopts : ∀ n, CacheOpt.withShards n ∈ opts → n ≤ 2 ^ 62) (env : Env) :
    (⟨Cache.new host hasher opts, env⟩ : World S).Presents (newStore host hasher opts env) :=
  ⟨(holds_new host hasher opts hhost hopts).represents, rfl, rfl, rfl, rfl⟩

/-- **Calls that overlap.** Any number of clients call the engine and run eviction passes, interleaved
action by action, under a clock that does not run backwards. The whole history is a run of one
store, which the map represents at its end. Every `Get`, `Set`, `Del` and `TTL` that has returned
acted on this store at one point between its call and its return. A value, a removal and a remaining
lifetime are those of an entry that was stored and live at that point. A miss is a key that was
absent at that point, or an entry that was stored there and that a later reading of the clock in the
same call found expired; by then another client may have replaced it. A `Set` that succeeds stores
its entry once, and what else it removes are other keys. One that is refused changes nothing, and
what it read of the ceiling, the policy, the entry and the usage refuses it.
Source: `internal/cache/cache.go` `Get`, `Set`, `Del`, `TTL`
Kind: P
Fidelity: exact -/
theorem cacheCall_takes_effect {S : Type} (host : Host S) (hasher : S → Bytes → UInt64)
    (opts : List (CacheOpt S)) (hhost : host.gomaxprocs * 4 ≤ 2 ^ 62)
    (hopts : ∀ n, CacheOpt.withShards n ∈ opts → n ≤ 2 ^ 62) (env : Env)
    (hclock : Forward env.clock) (fuel fuel' : ℕ) (i : ι) (c : Call)
    (hkey : c.onKey = true) (reply : Reply) (pre post : List (CacheEvent ι Reply))
    (s : Pool ι Action Action.Answer Reply (World S)) (hrun : ∀ a, .returned i a ∉ post)
    (htrace : Pool.Trace (exec fuel) Startable ⟨⟨Cache.new host hasher opts, env⟩, fun _ => none⟩
      (pre ++ .called i (c.prog fuel') :: post ++ [.returned i reply]) s) :
    storeSpec.Legal (newStore host hasher opts env)
        (pre ++ .called i (c.prog fuel') :: post ++ [.returned i reply]) ∧
      s.world.cache.m.Represents (storeSpec.after (newStore host hasher opts env)
        (pre ++ .called i (c.prog fuel') :: post ++ [.returned i reply])).entries ∧
      TakesEffect i (storeSpec.after (newStore host hasher opts env) pre) post c reply := by
  obtain ⟨hlegal, hpresents⟩ := htrace.legal World.Presents (exec_presents fuel)
    (presents_new host hasher opts hhost hopts env)
  refine ⟨hlegal, hpresents.represents, ?_⟩
  have hpath : CallPath c (actionsOf i post) reply :=
    htrace.along_call (c.prog_walks fuel') hrun
  have hpost : storeSpec.Legal (storeSpec.after (newStore host hasher opts env) pre) post := by
    rw [List.append_assoc] at hlegal
    obtain ⟨-, -, hrest⟩ := Spec.legal_append.mp hlegal
    exact (Spec.legal_append.mp hrest).1
  exact hpath.effect (forward_after hclock pre) hpost hkey

/-- A `Get` that begins before a `Set` of its key has stored, and reads after it.
Source: `internal/cache/cache.go` `Get`, `Set`
Kind: C -/
theorem cacheCall_takes_effect_racing :
    ∃ s : Pool Bool Action Action.Answer Reply (World Unit),
      Pool.Trace (exec 9) Startable
        ⟨⟨Cache.new ⟨1, ()⟩ (fun _ _ => 0) [.withShards 1], stillEnv 0⟩, fun _ => none⟩
        ([.called false ((Call.set none [97] [1] 0).prog 9), .done false .loadMaxmemory (0 : ℤ),
            .done false .loadEvictPol EvictionPolicy.allKeysLFU] ++
          .called true ((Call.get none [97]).prog 9) ::
            [.done false (.swap [97] ⟨[1], zeroTime⟩) none,
              .done true (.get [97]) (some ⟨[1], zeroTime⟩), .done true .addHits (),
              .done true (.record [97]) ()] ++
          [.returned true (.value (.ok (some [1])))]) s ∧
      TakesEffect true (newStore ⟨1, ()⟩ (fun _ _ => 0) [.withShards 1] (stillEnv 0))
        ([.done false (.swap [97] ⟨[1], zeroTime⟩) none,
          .done true (.get [97]) (some ⟨[1], zeroTime⟩), .done true .addHits (),
          .done true (.record [97]) ()] : List (CacheEvent Bool Reply))
        (.get none [97]) (.value (.ok (some [1]))) := by
  have htrace : ∃ s : Pool Bool Action Action.Answer Reply (World Unit),
      Pool.Trace (exec 9) Startable
        ⟨⟨Cache.new ⟨1, ()⟩ (fun _ _ => 0) [.withShards 1], stillEnv 0⟩, fun _ => none⟩
        ([.called false ((Call.set none [97] [1] 0).prog 9), .done false .loadMaxmemory (0 : ℤ),
            .done false .loadEvictPol EvictionPolicy.allKeysLFU] ++
          .called true ((Call.get none [97]).prog 9) ::
            [.done false (.swap [97] ⟨[1], zeroTime⟩) none,
              .done true (.get [97]) (some ⟨[1], zeroTime⟩), .done true .addHits (),
              .done true (.record [97]) ()] ++
          [.returned true (.value (.ok (some [1])))]) s :=
    ⟨_, .cons (.called _ false _ rfl (.call 9 _)) <|
      .cons (.done _ false Action.loadMaxmemory _ _ _ _ rfl rfl) <|
      .cons (.done _ false Action.loadEvictPol _ _ _ _ rfl rfl) <|
      .cons (.called _ true _ rfl (.call 9 _)) <|
      .cons (.done _ false (Action.swap [97] ⟨[1], zeroTime⟩) _ _ _ _ rfl rfl) <|
      .cons (.done _ true (Action.get [97]) _ _ _ _ rfl rfl) <|
      .cons (.done _ true Action.addHits _ _ _ _ rfl rfl) <|
      .cons (.done _ true (Action.record [97]) _ _ _ _ rfl rfl) <|
      .cons (.returned _ true _ _ rfl) .nil⟩
  obtain ⟨s, hs⟩ := htrace
  refine ⟨s, hs, ?_⟩
  exact (cacheCall_takes_effect ⟨1, ()⟩ (fun _ _ => 0) [.withShards 1] (by decide) (by simp)
    (stillEnv 0) (fun _ _ _ => le_rfl) 9 9 true (.get none [97]) rfl _ _ _ s (by simp) hs).2.2

end CacheMoney.Engine
