import Mathlib.Data.Int.ConditionallyCompleteOrder
import CacheMoney.Engine.Lifetime
import CacheMoney.Server.Replies

/-!
# The time left of a key

`TTL` checks that an entry is live and then subtracts, with a clock reading for each. Its comment
says that the check excludes an elapsed remaining time; but the clock may reach the deadline between
the two readings, and the number is then zero or negative, which the commands take for the sentinel
of a key without expiry.

* `backend`: the cache as the engine of the server.
* `expiring_never_persistent_iff`: the time left of an expiring key is positive, and `-1` is replied
  only for a key without expiry, exactly when the two readings of the call are not on both sides of
  the deadline.
* `deadline_between_readings`: a run in which they are.
-/

set_option linter.unusedSectionVars false

namespace CacheMoney.Server

open CacheMoney.Found CacheMoney.Resp CacheMoney.Shardmap
open CacheMoney.Engine (World Env Did Turn LastSet Record Entry timeSub)

variable {S : Type}

/-! ### The cache as an engine -/

/-- Source: `internal/cache/policy.go` `ErrOOM`
Kind: D -/
def engineErr : Engine.Err → EngineErr
  | .ctx .canceled => ⟨false, text "context canceled"⟩
  | .ctx .deadlineExceeded => ⟨false, text "context deadline exceeded"⟩
  | .oom => ⟨true, text "cache: write rejected, used memory exceeds maxmemory (noeviction)"⟩

/-- What the handlers get from a `Cache`. The server and its cache read one clock.
Source: `internal/cache/cache.go` `Cache`; `internal/server/config.go` `Config`
Kind: D -/
def backend (fuel : ℕ) : (o : EngineOp) → World S → Outcome (o.Answer × World S)
  | .get key, w => do
      let (r, w) ← (Engine.Cache.get none key).run (Engine.exec fuel) w
      pure (r.mapError engineErr, w)
  | .set key value ttl, w => do
      let (r, w) ← (Engine.Cache.set fuel none key value ttl.toInt).run (Engine.exec fuel) w
      pure (r.mapError engineErr, w)
  | .del key, w => do
      let (r, w) ← (Engine.Cache.del none key).run (Engine.exec fuel) w
      pure (r.mapError engineErr, w)
  | .ttl key, w => do
      let (r, w) ← (Engine.Cache.ttl none key).run (Engine.exec fuel) w
      pure ((r.mapError engineErr).map (Option.map Int64.ofInt), w)
  | .now, w => Engine.exec fuel .now w
  | .maxMemory, w => pure (Int64.ofInt w.cache.maxmemory, w)
  | .setMaxMemory bytes, w => (Engine.Cache.setMaxMemory fuel bytes.toInt).run (Engine.exec fuel) w
  | .evictionPolicy, w => pure (w.cache.evictPol, w)
  | .setEvictionPolicy p, w => (Engine.Cache.setEvictionPolicy p).run (Engine.exec fuel) w

/-! ### The reply to `TTL` and `PTTL` -/

/-- A write changes the writer only.
Source: `internal/resp/writer.go` `Writer`
Kind: L -/
theorem runIn_write {W : Type} {exec : (o : EngineOp) → W → Outcome (o.Answer × W)} {c : Conn}
    {w : W} (f : Writer → Writer) :
    (write f).runIn exec c w = .ok ((f c.w).err.map .write, { c with w := f c.w }, w) := rfl

/-- The verb asks for the time left in this unit.
Source: `internal/server/dispatch.go` `commandTable`
Kind: D -/
def AsksTTL (verb : Bytes) (unit : TTLUnit) : Prop :=
  (asciiUpper verb = text "TTL" ∧ unit = .seconds) ∨
    (asciiUpper verb = text "PTTL" ∧ unit = .milliseconds)

/-- The number for what the engine answered is written.
Source: `internal/server/commands.go` `replyTTL`
Kind: L -/
theorem runIn_replyTTL {W : Type} {exec : (o : EngineOp) → W → Outcome (o.Answer × W)} {c : Conn}
    (hc : c.Ready) {key : Bytes} {w w' : W} {left : Option Int64}
    (hexec : exec (.ttl key) w = .ok (.ok left, w')) (unit : TTLUnit) :
    (replyTTL key unit).runIn exec c w =
      .ok (none, c.put (Value.int (ttlNumber unit left).toInt).encode, w') := by
  unfold replyTTL ask
  rw [Script.runIn_bind, Script.runIn_ask, hexec]
  simp only [ok_bind]
  rw [runIn_write, Writer.writeInt_of_none hc.err]
  simp only [Writer.append_err, hc.err, Option.map_none]
  rfl

/-- A command of the table with as many arguments as it takes.
Source: `internal/server/dispatch.go` `dispatch`
Kind: L -/
theorem runIn_dispatch {W : Type} {exec : (o : EngineOp) → W → Outcome (o.Answer × W)} {c : Conn}
    {w : W} {verb : Bytes} {rest : List Bytes} {cmd : Command}
    (hlook : lookupCommand (asciiUpper verb) = some cmd)
    (hrefuses : cmd.refuses (verb :: rest) = false) :
    (dispatch (verb :: rest)).runIn exec c w =
      (cmd.verb.handler (verb :: rest)).runIn exec c w >>= fun r => .ok (r.1.isSome, r.2) := by
  have hzero : index (verb :: rest) 0 = .ok verb := rfl
  unfold dispatch arg
  rw [if_neg (by simp), Script.runIn_bind, Script.runIn_lift, hzero, ok_bind, ok_bind, hlook]
  simp only [hrefuses, Bool.false_eq_true, if_false]
  rw [Script.runIn_bind]
  rfl

/-- `TTL` and `PTTL` reply with the number for what the engine answered.
Source: `internal/server/dispatch.go` `dispatch`
Kind: L -/
theorem runIn_dispatch_ttl {W : Type} {exec : (o : EngineOp) → W → Outcome (o.Answer × W)}
    {c : Conn} (hc : c.Ready) {verb key : Bytes} {unit : TTLUnit} (hverb : AsksTTL verb unit)
    {w w' : W} {left : Option Int64} (hexec : exec (.ttl key) w = .ok (.ok left, w')) :
    (dispatch [verb, key]).runIn exec c w =
      .ok (false, c.put (Value.int (ttlNumber unit left).toInt).encode, w') := by
  have hrow : ∃ cmd, lookupCommand (asciiUpper verb) = some cmd ∧
      cmd.refuses [verb, key] = false ∧
      cmd.verb.handler [verb, key] = arg [verb, key] 1 >>= fun key => replyTTL key unit := by
    rcases hverb with ⟨hverb, rfl⟩ | ⟨hverb, rfl⟩
    · rw [hverb]
      exact ⟨⟨text "TTL", 2, 2, .ttl⟩, rfl, rfl, rfl⟩
    · rw [hverb]
      exact ⟨⟨text "PTTL", 2, 2, .pttl⟩, rfl, rfl, rfl⟩
  obtain ⟨cmd, hlook, hrefuses, hhandler⟩ := hrow
  have hone : index [verb, key] 1 = .ok key := rfl
  unfold arg at hhandler
  rw [runIn_dispatch hlook hrefuses, hhandler, Script.runIn_bind, Script.runIn_lift, hone, ok_bind,
    ok_bind, runIn_replyTTL hc hexec]
  rfl

/-- A missing key gives -2.
Source: `internal/server/commands.go` `replyTTL`
Kind: L -/
theorem ttlNumber_none (unit : TTLUnit) : (ttlNumber unit none).toInt = -2 := by
  cases unit <;> decide

/-- The number replied for a time left that is not negative: whole milliseconds, or these rounded to
seconds.
Source: `internal/server/commands.go` `replyTTL`
Kind: L -/
theorem toInt_ttlNumber (unit : TTLUnit) {left : Int64} (h : 0 ≤ left.toInt) :
    (ttlNumber unit (some left)).toInt =
      if unit = .seconds then (left.toInt / 1000000 + 500) / 1000 else left.toInt / 1000000 := by
  have hnot : ¬left < 0 := by
    rw [Int64.lt_iff_toInt_lt]
    exact not_lt.mpr h
  have hmax := left.toInt_lt
  have hms : (left / 1000000).toInt = left.toInt / 1000000 := by
    rw [Int64.toInt_div_of_ne_right _ _ (by decide), Int.tdiv_eq_ediv_of_nonneg h]
    rfl
  have hsum : (left / 1000000 + 500).toInt = left.toInt / 1000000 + 500 := by
    rw [Int64.toInt_add, hms, show (500 : Int64).toInt = 500 from rfl]
    exact Int.bmod_eq_of_le (by omega) (by omega)
  unfold ttlNumber
  simp only [if_neg hnot]
  by_cases hunit : unit = .seconds
  · rw [if_pos hunit, if_pos hunit, Int64.toInt_div_of_ne_right _ _ (by decide), hsum,
      Int.tdiv_eq_ediv_of_nonneg (by omega)]
    rfl
  · rw [if_neg hunit, if_neg hunit, hms]

/-- A time left that is not negative is not replied as a sentinel.
Source: `internal/server/commands.go` `replyTTL`
Kind: L -/
theorem ttlNumber_nonneg (unit : TTLUnit) {left : Int64} (h : 0 ≤ left.toInt) :
    0 ≤ (ttlNumber unit (some left)).toInt := by
  rw [toInt_ttlNumber unit h]
  split_ifs
  · omega
  · omega

/-! ### Keys with and without an expiry -/

/-- The key is stored, and its last successful `Set` gave it the deadline `d`.
Source: `internal/cache/cache.go` `Set`
Kind: D -/
def Expiring (hist : List Did) (w : World S) (key : Bytes) (d : ℤ) : Prop :=
  (∃ e, (key, e) ∈ w.cache.m.contents) ∧ ∃ value, LastSet hist key ⟨value, some d⟩

/-- The key is stored, and its last successful `Set` gave it no expiry.
Source: `internal/cache/cache.go` `Set`
Kind: D -/
def Persistent (hist : List Did) (w : World S) (key : Bytes) : Prop :=
  (∃ e, (key, e) ∈ w.cache.m.contents) ∧ ∃ value, LastSet hist key ⟨value, none⟩

/-- `TTL` returns that the key is gone, or a positive time left.
Source: `internal/cache/cache.go` `TTL`
Kind: D -/
def PositiveTTL (w : World S) (key : Bytes) : Prop :=
  ∀ fuel ≥ 256, ∃ r w', (Engine.Cache.ttl none key).run (Engine.exec fuel) w = .ok (r, w') ∧
    (r = .ok none ∨ ∃ left, r = .ok (some left) ∧ 0 < left)

/-- The commands reply, and they reply `-1` only if the key satisfies `P`.
Source: `internal/server/commands.go` `replyTTL`
Kind: D -/
def MinusOneOnly (P : Prop) (w : World S) (key : Bytes) : Prop :=
  ∀ fuel ≥ 256, ∀ (c : Conn) verb unit, c.Ready → AsksTTL verb unit →
    ∃ c' w', (dispatch [verb, key]).runIn (backend fuel) c w = .ok (false, c', w') ∧
      (c'.w.out = c.w.out ++ (Value.int (-1)).encode → P)

section readings

variable {w : World S} {f : FinMap Bytes Entry} {hist : List Did} {key : Bytes}

/-- An entry of the contents is one that a lookup finds.
Source: none
Kind: L -/
theorem mem_contents_iff (h : w.cache.Holds f) {e : Entry} :
    (key, e) ∈ w.cache.m.contents ↔ f.lookup key = some e := by
  rw [h.represents.contents_eq, mem_pairs]

/-- A key is expiring exactly if its stored entry has that deadline.
Source: `internal/server/commands.go` `replyTTL`
Kind: L -/
theorem expiring_iff (h : w.cache.Holds f) (ht : Engine.Tracked hist f) {d : ℤ} :
    Expiring hist w key d ↔ ∃ e, f.lookup key = some e ∧ e.record.deadline = some d := by
  constructor
  · rintro ⟨⟨e, he⟩, value, hlast⟩
    have hlook := (mem_contents_iff h).mp he
    exact ⟨e, hlook, by rw [(ht key e hlook).unique hlast]⟩
  · rintro ⟨e, hlook, hd⟩
    refine ⟨⟨e, (mem_contents_iff h).mpr hlook⟩, e.record.value, ?_⟩
    rw [← hd]
    exact ht key e hlook

/-- A stored entry without a deadline is persistent.
Source: `internal/server/commands.go` `replyTTL`
Kind: L -/
theorem persistent_of_deadline (h : w.cache.Holds f) (ht : Engine.Tracked hist f) {e : Entry}
    (hlook : f.lookup key = some e) (hd : e.record.deadline = none) : Persistent hist w key := by
  refine ⟨⟨e, (mem_contents_iff h).mpr hlook⟩, e.record.value, ?_⟩
  rw [← hd]
  exact ht key e hlook

variable (key) in
/-- The engine's `TTL` gives the time left of a live entry.
Source: `internal/cache/cache.go` `TTL`
Kind: L -/
theorem backend_ttl (h : w.cache.Holds f) {fuel : ℕ} (hfuel : 256 ≤ fuel) :
    ∃ w', backend fuel (.ttl key) w = .ok (.ok (((f.lookup key).bind fun e =>
      e.record.timeLeft w.env.clock.head w.env.clock.tail.head).map Int64.ofInt), w') := by
  obtain ⟨⟨r, w'⟩, hrun, hr⟩ := Engine.ttl_returns h hfuel key
  simp only at hr
  subst hr
  refine ⟨w', ?_⟩
  change ((Engine.Cache.ttl none key).run (Engine.exec fuel) w >>= fun x =>
    pure ((x.1.mapError engineErr).map (Option.map Int64.ofInt), x.2)) = _
  rw [hrun]
  rfl

/-- The number replied for a record is `-1` only if it has no deadline, or if the deadline was
between the readings.
Source: `internal/server/commands.go` `replyTTL`
Kind: L -/
theorem timeLeft_of_minusOne {r : Record} {checked read : ℤ} {unit : TTLUnit}
    (h : (ttlNumber unit ((r.timeLeft checked read).map Int64.ofInt)).toInt = -1) :
    r.deadline = none ∨ ∃ d, r.deadline = some d ∧ checked < d ∧ d ≤ read := by
  cases hd : r.deadline with
  | none => exact Or.inl rfl
  | some d =>
      refine Or.inr ⟨d, rfl, ?_⟩
      unfold Record.timeLeft at h
      simp only [hd] at h
      by_cases hlive : checked < d
      · rw [if_pos hlive, Option.map_some] at h
        refine ⟨hlive, ?_⟩
        by_contra hlater
        have hpos := Engine.timeSub_pos_iff.mpr (not_le.mp hlater)
        have hint := Int64.toInt_ofInt_of_le (Engine.timeSub_bounds d read).1
          (Engine.timeSub_bounds d read).2
        have hnonneg : 0 ≤ (Int64.ofInt (timeSub d read)).toInt := by omega
        have := ttlNumber_nonneg unit hnonneg
        omega
      · rw [if_neg hlive, Option.map_none, ttlNumber_none] at h
        omega

end readings

/-- After every run with a clock that never shows a time before the epoch, and for every key: `TTL`
of an expiring key returns that it is gone or a positive time left, and the commands `TTL` and
`PTTL` reply `-1` only for a key without expiry, exactly when the key has no deadline that lies
after the first reading of the call and not after the second.
Source: `internal/cache/cache.go` `TTL`
Kind: P
Fidelity: exact -/
theorem expiring_never_persistent_iff (host : Host S) (hasher : S → Bytes → UInt64)
    (opts : List (Engine.CacheOpt S)) (hhost : host.gomaxprocs * 4 ≤ 2 ^ 62)
    (hopts : ∀ n, Engine.CacheOpt.withShards n ∈ opts → n ≤ 2 ^ 62) (env : Env) (turns : List Turn)
    (hepoch : ∀ t ∈ turns, ∀ i, 0 ≤ t.env.clock.read i) (fuel : ℕ) (hist : List Did) (w : World S)
    (hrun : Engine.run fuel ⟨Engine.Cache.new host hasher opts, env⟩ turns = .ok (hist, w))
    (now : Env) (key : Bytes) :
    ((∀ d, Expiring hist w key d → PositiveTTL { w with env := now } key) ∧
        MinusOneOnly (Persistent hist w key) { w with env := now } key) ↔
      ¬∃ d, Expiring hist w key d ∧ now.clock.head < d ∧ d ≤ now.clock.tail.head := by
  have hstart : Engine.Tracked [] (∅ : FinMap Bytes Entry) := fun k e he => by cases he
  obtain ⟨f, hf, htrack⟩ := (Engine.Tracked.run turns
    (Engine.holds_new host hasher opts hhost hopts) hstart hepoch).of_ok hrun
  rw [List.nil_append] at htrack
  have hf' : ({ w with env := now } : World S).cache.Holds f := hf
  constructor
  · rintro ⟨hpos, -⟩ ⟨d, hd, hlive, hpast⟩
    obtain ⟨e, hlook, hdead⟩ := (expiring_iff hf htrack).mp hd
    obtain ⟨r, w', hr, hpositive⟩ := hpos d hd 256 le_rfl
    obtain ⟨⟨r', w''⟩, hr', hval⟩ := Engine.ttl_returns hf' (le_refl 256) key
    cases hr.symm.trans hr'
    simp only [hlook, Option.bind_some, Record.timeLeft, hdead, if_pos hlive] at hval
    rcases hpositive with hnone | ⟨left, hleft, hgt⟩
    · rw [hval] at hnone
      cases hnone
    · rw [hval] at hleft
      cases hleft
      exact absurd (Engine.timeSub_pos_iff.mp hgt) (not_lt.mpr hpast)
  · intro hapart
    refine ⟨fun d hd fuel' hfuel' => ?_, fun fuel' hfuel' c verb unit hc hverb => ?_⟩
    · obtain ⟨e, hlook, hdead⟩ := (expiring_iff hf htrack).mp hd
      obtain ⟨⟨r, w'⟩, hr, hval⟩ := Engine.ttl_returns hf' hfuel' key
      refine ⟨r, w', hr, ?_⟩
      simp only [hlook, Option.bind_some, Record.timeLeft, hdead] at hval
      by_cases hlive : now.clock.head < d
      · rw [if_pos hlive] at hval
        refine Or.inr ⟨_, hval, Engine.timeSub_pos_iff.mpr ?_⟩
        by_contra hpast
        exact hapart ⟨d, hd, hlive, not_lt.mp hpast⟩
      · rw [if_neg hlive] at hval
        exact Or.inl hval
    · obtain ⟨w', hans⟩ := backend_ttl key hf' hfuel'
      refine ⟨_, w', runIn_dispatch_ttl hc hverb hans, ?_⟩
      intro hout
      have hminus := int_encode_injective (List.append_cancel_left hout)
      cases hlook : f.lookup key with
      | none =>
          rw [hlook, Option.bind_none, Option.map_none, ttlNumber_none] at hminus
          exact absurd hminus (by decide)
      | some e =>
          rw [hlook, Option.bind_some] at hminus
          rcases timeLeft_of_minusOne hminus with hnone | ⟨d, hd, hlive, hpast⟩
          · exact persistent_of_deadline hf htrack hlook hnone
          · exact absurd ⟨d, (expiring_iff hf htrack).mpr ⟨e, hlook, hd⟩, hlive, hpast⟩ hapart

/-- A clock that shows 0, then 9, then 11.
Source: none
Kind: D -/
def steps (i : ℕ) : ℤ := if i = 0 then 0 else if i = 1 then 9 else 11

/-- A clock, with draws and estimates that are all zero.
Source: none
Kind: D -/
def clocked (read : ℕ → ℤ) : Env := ⟨⟨read, 0⟩, ⟨fun _ => 0, 0⟩, ⟨fun _ => 0, 0⟩⟩

/-- A cache with one shard that stored `a` for 10 at time 0.
Source: none
Kind: D -/
def storedForTen : Outcome (List Did × World Unit) :=
  Engine.run 300 ⟨Engine.Cache.new ⟨1, ()⟩ (fun _ _ => 0) [.withShards 1], clocked steps⟩
    [⟨.set none (text "a") (text "x") 10, clocked steps⟩]

/-- A call at time 5, with a clock that stands still.
Source: `internal/cache/cache_test.go` `TestCache_ModelEquivalence`
Kind: C -/
theorem expiring_never_persistent_iff_still :
    ∃ hist w, storedForTen = .ok (hist, w) ∧ (∀ d, Expiring hist w (text "a") d →
      PositiveTTL { w with env := clocked fun _ => 5 } (text "a")) := by
  obtain ⟨hist, w, hrun⟩ : ∃ hist w, storedForTen = .ok (hist, w) := ⟨_, _, rfl⟩
  have hepoch : ∀ t ∈ [(⟨.set none (text "a") (text "x") 10, clocked steps⟩ : Turn)], ∀ i,
      0 ≤ t.env.clock.read i := by
    intro t ht i
    rw [List.mem_singleton.mp ht]
    change 0 ≤ steps i
    unfold steps
    split_ifs <;> decide
  refine ⟨hist, w, hrun, ((expiring_never_persistent_iff ⟨1, ()⟩ (fun _ _ => 0) [.withShards 1]
    (by decide) (by simp) (clocked steps) _ hepoch 300 hist w hrun _ (text "a")).mpr ?_).1⟩
  rintro ⟨d, -, hlive, hpast⟩
  exact absurd hlive (not_lt.mpr hpast)

/-- The clock goes on from the run and passes the deadline between the two readings of the call: the
time left of `a` is the sentinel of a key without expiry, and `PTTL` replies it.
Source: `internal/cache/cache.go` `TTL`
Kind: C -/
theorem deadline_between_readings :
    Monotone steps ∧ 0 ≤ steps 0 ∧ ∃ hist w, storedForTen = .ok (hist, w) ∧
      hist = [⟨0, .set none (text "a") (text "x") 10, .stored (.ok ())⟩] ∧
      w.env.clock = ⟨steps, 1⟩ ∧
      ((Engine.Cache.ttl none (text "a")).run (Engine.exec 256) w).map Prod.fst =
        .ok (.ok (some (-1))) ∧
      ((dispatch [text "PTTL", text "a"]).runIn (backend 256) (newConn ⟨[], true⟩ 1) w).map
        (fun r => r.2.1.w.out) = .ok (text ":-1\r\n") := by
  refine ⟨?_, by decide, _, _, rfl, rfl, rfl, rfl, ?_⟩
  · intro i j hij
    unfold steps
    split_ifs <;> omega
  · rfl

end CacheMoney.Server
