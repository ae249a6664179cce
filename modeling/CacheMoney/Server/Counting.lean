import CacheMoney.Engine.Rounds
import CacheMoney.Server.Deadlines

/-!
# Counting keys

`DEL` and `EXISTS` take any number of keys and ask the engine about one after the other.

* `Probes`: the answers to the keys, and the world after them. The reply is the number of positive
  ones (`Probes.runIn`).
* `exists_probes`: `EXISTS` changes nothing, so every position is answered from the same contents.
* `del_probes`: `DEL` takes every key out, so a key is counted at its first position only.
* `del_exists_count`: the result, from every state of a sequential run.
-/

set_option linter.unusedSectionVars false

namespace CacheMoney.Server

open CacheMoney.Found CacheMoney.Resp CacheMoney.Shardmap
open CacheMoney.Engine (World Env Entry Turn)

variable {S : Type} {c : Conn} {w : World S} {f : FinMap Bytes Entry} {now : ℤ}

/-! ### What is counted -/

/-- The key is stored with an entry that is live at this time.
Source: `internal/cache/cache.go` `Get`, `Del`
Kind: D -/
def isLive (cache : Engine.Cache S) (now : ℤ) (key : Bytes) : Bool :=
  decide (0 < cache.m.contents.countP fun e => e.1 = key ∧ e.2.deadAt now = false)

/-- A key is live in the cache if its stored entry is.
Source: `internal/cache/cache.go` `Get`, `Del`
Kind: L -/
theorem isLive_eq (h : w.cache.Holds f) (now : ℤ) (key : Bytes) :
    isLive w.cache now key = ((f.lookup key).bind (Engine.liveAt now)).isSome := by
  have hiff : (∃ e ∈ w.cache.m.contents, e.1 = key ∧ e.2.deadAt now = false) ↔
      ((f.lookup key).bind (Engine.liveAt now)).isSome = true := by
    rw [h.represents.contents_eq]
    constructor
    · rintro ⟨⟨k, e⟩, hmem, rfl, hlive⟩
      have hlook : f.lookup k = some e := mem_pairs.mp hmem
      rw [hlook, Option.bind_some, Engine.liveAt, hlive]
      rfl
    · intro hsome
      cases hlook : f.lookup key with
      | none =>
          rw [hlook] at hsome
          exact absurd hsome (by simp)
      | some e =>
          refine ⟨(key, e), mem_pairs.mpr hlook, rfl, ?_⟩
          rw [hlook, Option.bind_some, Engine.liveAt] at hsome
          by_contra hdead
          rw [if_pos (by simpa using hdead)] at hsome
          exact absurd hsome (by simp)
  unfold isLive
  rw [Bool.eq_iff_iff, decide_eq_true_eq, Multiset.countP_pos, hiff]

/-! ### The loop -/

/-- The answers to the keys, one after the other, on a connection that stays as it is.
Source: `internal/server/commands.go` `cmdDel`, `cmdExists`
Kind: D -/
inductive Probes {W : Type} (exec : (o : EngineOp) → W → Outcome (o.Answer × W))
    (probe : Bytes → CmdM (Except EngineErr Bool)) (c : Conn) :
    List Bytes → W → List Bool → W → Prop where
  | nil (w : W) : Probes exec probe c [] w [] w
  | cons {key : Bytes} {keys : List Bytes} {w w₁ w' : W} {b : Bool} {bs : List Bool}
      (hkey : (probe key).runIn exec c w = .ok (.ok b, c, w₁))
      (hkeys : Probes exec probe c keys w₁ bs w') : Probes exec probe c (key :: keys) w (b :: bs) w'

/-- The loop replies with the number of positive answers.
Source: `internal/server/commands.go` `cmdDel`, `cmdExists`
Kind: L -/
theorem Probes.runIn {W : Type} {exec : (o : EngineOp) → W → Outcome (o.Answer × W)}
    {probe : Bytes → CmdM (Except EngineErr Bool)} {keys : List Bytes} {w w' : W} {bs : List Bool}
    (h : Probes exec probe c keys w bs w') (hc : c.Ready) : ∀ n : Int64,
      (countKeys probe keys n).runIn exec c w =
        .ok (none, c.put (Value.int (n + Int64.ofNat (bs.count true)).toInt).encode, w') := by
  induction h with
  | nil w =>
      intro n
      have hzero : n + Int64.ofNat ([].count true) = n := by
        rw [List.count_nil]
        exact Int64.add_zero n
      rw [countKeys, hzero]
      exact runIn_write_value hc (Writer.writeInt_of_none hc.err n.toInt)
  | @cons key keys w w₁ w' b bs hkey hkeys ih =>
      intro n
      rw [countKeys, Script.runIn_bind, hkey, ok_bind]
      cases b with
      | false =>
          rw [List.count_cons_of_ne (by decide)]
          exact ih n
      | true =>
          have hnext : n + 1 + Int64.ofNat (bs.count true) =
              n + Int64.ofNat (bs.count true + 1) := by
            rw [Int64.ofNat_add, Int64.add_assoc, Int64.add_comm 1]
            rfl
          rw [List.count_cons_self, ← hnext]
          exact ih (n + 1)

/-! ### `EXISTS` -/

/-- Source: `internal/server/commands.go` `cmdExists`
Kind: D -/
def existsProbe (key : Bytes) : CmdM (Except EngineErr Bool) := do
  let answer ← ask (.get key)
  return (answer : Except EngineErr (Option Bytes)).map Option.isSome

/-- `EXISTS` is the loop over its keys.
Source: `internal/server/commands.go` `cmdExists`
Kind: L -/
theorem cmdExists_eq (args : List Bytes) :
    cmdExists args = argsFrom args 1 >>= fun keys => countKeys existsProbe keys 0 := rfl

/-- One key of `EXISTS`, at a time at which the clock stands still.
Source: `internal/server/commands.go` `cmdExists`
Kind: L -/
theorem existsProbe_runIn (h : w.cache.Holds f) {fuel : ℕ} (hfuel : 256 ≤ fuel)
    (hclock : ∀ i, w.env.clock.read i = now) (key : Bytes) :
    ∃ w', (existsProbe key).runIn (backend fuel) c w = .ok (.ok (isLive w.cache now key), c, w') ∧
      w.Kept w' := by
  obtain ⟨⟨r, w'⟩, hrun, hr, -, hkept⟩ :=
    (Engine.get_returns h hfuel key).and (Engine.get_spec h key)
  have hget : backend fuel (.get key) w = .ok (r.mapError engineErr, w') := by
    change ((Engine.Cache.get none key).run (Engine.exec fuel) w >>= fun x =>
      pure (x.1.mapError engineErr, x.2)) = _
    rw [hrun]
    rfl
  refine ⟨w', ?_, hkept⟩
  unfold existsProbe ask
  rw [Script.runIn_bind, Script.runIn_ask, hget, isLive_eq h, ← hclock w.env.clock.pos]
  simp only at hr
  rw [hr]
  change Except.ok (Except.ok (Option.isSome (Option.map _ _)), c, w') = _
  rw [Option.isSome_map]
  rfl

/-- `EXISTS` asks about every position, and nothing changes.
Source: `internal/server/commands.go` `cmdExists`
Kind: L -/
theorem exists_probes {fuel : ℕ} (hfuel : 256 ≤ fuel) (keys : List Bytes) :
    ∀ {w : World S}, w.cache.Holds f → (∀ i, w.env.clock.read i = now) →
      ∃ w', Probes (backend fuel) existsProbe c keys w (keys.map (isLive w.cache now)) w' ∧
        w.Kept w' := by
  induction keys with
  | nil =>
      intro w _ _
      exact ⟨w, .nil w, .rfl' w⟩
  | cons key keys ih =>
      intro w h hclock
      obtain ⟨w₁, hkey, hkept⟩ := existsProbe_runIn (c := c) h hfuel hclock key
      obtain ⟨w', hkeys, hkept'⟩ := ih (hkept.holds h) (by rw [hkept.clock_eq]; exact hclock)
      have hsame : isLive w₁.cache now = isLive w.cache now := by
        unfold isLive
        rw [hkept.m_eq]
      rw [hsame] at hkeys
      exact ⟨w', .cons hkey hkeys, hkept.trans hkept'⟩

/-! ### `DEL` -/

/-- The answers of `DEL`: a key is live for the first of its positions only.
Source: `internal/server/commands.go` `cmdDel`
Kind: D -/
def delAnswers (now : ℤ) : FinMap Bytes Entry → List Bytes → List Bool
  | _, [] => []
  | f, key :: keys =>
      ((f.lookup key).bind (Engine.liveAt now)).isSome :: delAnswers now (f.erase key) keys

/-- `DEL` asks about every position, and takes every key out.
Source: `internal/server/commands.go` `cmdDel`
Kind: L -/
theorem del_probes {cap fuel : ℕ} (hfuel : 2 * (cap + 4) + 256 ≤ fuel) (keys : List Bytes) :
    ∀ {w : World S} {f : FinMap Bytes Entry}, w.cache.Holds f → w.cache.m.Within cap →
      (∀ i, w.env.clock.read i = now) →
      ∃ w', Probes (backend fuel) (fun key => ask (.del key)) c keys w (delAnswers now f keys) w' ∧
        w'.cache.Holds (eraseAll f keys) := by
  induction keys with
  | nil =>
      intro w f h _ _
      exact ⟨w, .nil w, h⟩
  | cons key keys ih =>
      intro w f h hcap hclock
      obtain ⟨⟨r, w₁⟩, hrun, hcap₁, hr, h₁, -, -, hclock₁⟩ :=
        (Engine.del_returns h hcap hfuel key).and (Engine.del_spec h key)
      simp only at hr hcap₁ h₁ hclock₁
      have hdel : backend fuel (.del key) w = .ok (r.mapError engineErr, w₁) := by
        change ((Engine.Cache.del none key).run (Engine.exec fuel) w >>= fun x =>
          pure (x.1.mapError engineErr, x.2)) = _
        rw [hrun]
        rfl
      have hkey : (ask (.del key)).runIn (backend fuel) c w =
          .ok (.ok ((f.lookup key).bind (Engine.liveAt now)).isSome, c, w₁) := by
        unfold ask
        rw [Script.runIn_ask, hdel, hr, ← hclock w.env.clock.pos]
        rfl
      obtain ⟨w', hkeys, h'⟩ := ih h₁ hcap₁ (by rw [hclock₁]; exact hclock)
      exact ⟨w', .cons hkey hkeys, h'⟩

/-- The positive answers are as many as the distinct live keys.
Source: `internal/server/commands.go` `cmdDel`
Kind: L -/
theorem count_delAnswers (now : ℤ) (keys : List Bytes) : ∀ f : FinMap Bytes Entry,
    (delAnswers now f keys).count true = (keys.toFinset.filter fun key =>
      ((f.lookup key).bind (Engine.liveAt now)).isSome = true).card := by
  induction keys with
  | nil =>
      intro f
      rfl
  | cons key keys ih =>
      intro f
      have hrest : (keys.toFinset.filter fun k =>
          (((f.erase key).lookup k).bind (Engine.liveAt now)).isSome = true) =
          (keys.toFinset.filter fun k =>
            ((f.lookup k).bind (Engine.liveAt now)).isSome = true).erase key := by
        ext k
        rw [Finset.mem_erase, Finset.mem_filter, Finset.mem_filter]
        by_cases hk : k = key
        · subst hk
          rw [Finmap.lookup_erase]
          simp
        · rw [Finmap.lookup_erase_ne hk]
          simp [hk]
      rw [delAnswers, List.toFinset_cons, Finset.filter_insert]
      by_cases hlive : ((f.lookup key).bind (Engine.liveAt now)).isSome = true
      · rw [hlive, List.count_cons_self, ih, hrest, if_pos rfl, ← Finset.erase_insert_eq_erase,
          Finset.card_erase_add_one (Finset.mem_insert_self key _)]
      · rw [List.count_cons_of_ne hlive, ih, hrest, if_neg hlive, Finset.erase_eq_of_notMem]
        simp [hlive]

/-! ### The commands -/

/-- The count fits 64 bits.
Source: `internal/server/commands.go` `cmdDel`, `cmdExists`
Kind: L -/
theorem toInt_count {n : ℕ} (h : n < 2 ^ 63) : ((0 : Int64) + Int64.ofNat n).toInt = n := by
  rw [Int64.zero_add, Int64.toInt_ofNat_of_lt h]

/-- A command of the table that counts keys.
Source: `internal/server/dispatch.go` `dispatch`
Kind: L -/
theorem runIn_dispatch_count {exec : (o : EngineOp) → World S → Outcome (o.Answer × World S)}
    (hc : c.Ready) {verb name : Bytes} {v : Verb} {keys : List Bytes} (hkeys : keys ≠ [])
    (hlook : lookupCommand (asciiUpper verb) = some ⟨name, 2, -1, v⟩)
    {probe : Bytes → CmdM (Except EngineErr Bool)}
    (hhandler : v.handler (verb :: keys) =
      argsFrom (verb :: keys) 1 >>= fun keys => countKeys probe keys 0)
    {w w' : World S} {bs : List Bool} (h : Probes exec probe c keys w bs w')
    (hlen : bs.count true < 2 ^ 63) :
    (dispatch (verb :: keys)).runIn exec c w =
      .ok (false, c.put (Value.int (bs.count true)).encode, w') := by
  have hrefuses : (⟨name, 2, -1, v⟩ : Command).refuses (verb :: keys) = false := by
    have hpos := List.length_pos_of_ne_nil hkeys
    simp only [Command.refuses, List.length_cons, Bool.or_eq_false_iff, Bool.and_eq_false_iff,
      decide_eq_false_iff_not]
    omega
  have hargs : sliceFrom (verb :: keys) 1 = .ok keys :=
    sliceFrom_eq_ok (Nat.succ_le_succ (Nat.zero_le _))
  rw [runIn_dispatch hlook hrefuses, hhandler]
  unfold argsFrom
  rw [Script.runIn_bind, Script.runIn_lift, hargs, ok_bind, ok_bind, h.runIn hc, toInt_count hlen,
    ok_bind]
  rfl

/-- There are at most as many positive answers as keys.
Source: `internal/server/commands.go` `cmdDel`, `cmdExists`
Kind: L -/
theorem count_le_length_probes {W : Type} {exec : (o : EngineOp) → W → Outcome (o.Answer × W)}
    {probe : Bytes → CmdM (Except EngineErr Bool)} {keys : List Bytes} {w w' : W} {bs : List Bool}
    (h : Probes exec probe c keys w bs w') : bs.count true ≤ keys.length := by
  have hlen : bs.length = keys.length := by
    induction h with
    | nil w => rfl
    | cons hkey hkeys ih => rw [List.length_cons, List.length_cons, ih]
  rw [← hlen]
  exact List.count_le_length

/-- What `EXISTS` does at a fixed time: it replies the number of positions with a live key, and the
stored entries and the accounted usage stay.
Source: `internal/server/commands.go` `cmdExists`
Kind: D -/
structure Counted (now : ℤ) (keys : List Bytes) (c : Conn) (w : World S)
    (r : Bool × Conn × World S) : Prop where
  stays : r.1 = false
  reply : r.2.1 = c.put (Value.int (keys.countP (isLive w.cache now))).encode
  contents : r.2.2.cache.m.contents = w.cache.m.contents
  usage : r.2.2.cache.usage = w.cache.usage

/-- What `DEL` does at a fixed time: it replies the number of distinct live keys, exactly the
entries of the listed keys are gone, and the usage has dropped by their cost.
Source: `internal/server/commands.go` `cmdDel`
Kind: D -/
structure Removed (now : ℤ) (keys : List Bytes) (c : Conn) (w : World S)
    (r : Bool × Conn × World S) : Prop where
  stays : r.1 = false
  reply : r.2.1 =
    c.put (Value.int (keys.toFinset.filter fun key => isLive w.cache now key = true).card).encode
  contents : r.2.2.cache.m.contents = w.cache.m.contents.filter fun e => e.1 ∉ keys
  usage : r.2.2.cache.usage = w.cache.usage -
    ((w.cache.m.contents.filter fun e => e.1 ∈ keys).map fun e => Engine.costOf e.1 e.2.value).sum

/-- `EXISTS` replies with the number of its arguments that are live.
Source: `internal/server/commands.go` `cmdExists`
Kind: L -/
theorem exists_counted (hc : c.Ready) (h : w.cache.Holds f) {fuel : ℕ} (hfuel : 256 ≤ fuel)
    (hclock : ∀ i, w.env.clock.read i = now) {verb : Bytes}
    (hverb : asciiUpper verb = text "EXISTS") {keys : List Bytes} (hkeys : keys ≠ [])
    (hlen : keys.length < 2 ^ 63) :
    Returns ((dispatch (verb :: keys)).runIn (backend fuel) c w) (Counted now keys c w) := by
  obtain ⟨w', hprobes, hkept⟩ := exists_probes (c := c) hfuel keys h hclock
  have hlook : lookupCommand (asciiUpper verb) = some ⟨text "EXISTS", 2, -1, .exists⟩ := by
    rw [hverb]
    rfl
  have hle := count_le_length_probes hprobes
  have hrun := runIn_dispatch_count hc hkeys hlook (cmdExists_eq _) hprobes (by omega)
  refine ⟨_, hrun, rfl, ?_, ?_, hkept.usage_eq⟩
  · rw [List.count, List.countP_map]
    simp only [Function.comp_def, beq_true]
  · rw [hkept.m_eq]

/-- `DEL` removes its keys and replies with the number of those that were live.
Source: `internal/server/commands.go` `cmdDel`
Kind: L -/
theorem del_removed (hc : c.Ready) (h : w.cache.Holds f) {cap fuel : ℕ}
    (hcap : w.cache.m.Within cap) (hfuel : 2 * (cap + 4) + 256 ≤ fuel)
    (hclock : ∀ i, w.env.clock.read i = now) {verb : Bytes} (hverb : asciiUpper verb = text "DEL")
    {keys : List Bytes} (hkeys : keys ≠ []) (hlen : keys.length < 2 ^ 63) :
    Returns ((dispatch (verb :: keys)).runIn (backend fuel) c w) (Removed now keys c w) := by
  obtain ⟨w', hprobes, h'⟩ := del_probes (c := c) hfuel keys h hcap hclock
  have hlook : lookupCommand (asciiUpper verb) = some ⟨text "DEL", 2, -1, .del⟩ := by
    rw [hverb]
    rfl
  have hle := count_le_length_probes hprobes
  have hrun := runIn_dispatch_count hc hkeys hlook rfl hprobes (by omega)
  have hcontents : w'.cache.m.contents = w.cache.m.contents.filter fun e => e.1 ∉ keys := by
    rw [h'.represents.contents_eq, h.represents.contents_eq, pairs_eraseAll]
    congr!
  refine ⟨_, hrun, rfl, ?_, hcontents, ?_⟩
  · simp only [count_delAnswers, isLive_eq h]
  · have hsplit := Multiset.filter_add_not (fun e => e.1 ∈ keys) w.cache.m.contents
    have hafter := h'.usage_eq
    have hbefore := h.usage_eq
    rw [← Engine.storedCost_eq h'.represents, Engine.storedCost, hcontents] at hafter
    rw [← Engine.storedCost_eq h.represents, Engine.storedCost, ← hsplit, Multiset.map_add,
      Multiset.sum_add] at hbefore
    rw [hafter, hbefore]
    ring

/-- `DEL` does the same whatever the order of its keys.
Source: `internal/server/commands.go` `cmdDel`
Kind: L -/
theorem Removed.of_perm {keys keys' : List Bytes} (hperm : keys'.Perm keys)
    {r r' : Bool × Conn × World S} (h : Removed now keys c w r) (h' : Removed now keys' c w r') :
    r'.2.1 = r.2.1 ∧ r'.2.2.cache.m.contents = r.2.2.cache.m.contents := by
  have hsame : keys'.toFinset = keys.toFinset := List.toFinset_eq_of_perm _ _ hperm
  refine ⟨by rw [h'.reply, h.reply, hsame], ?_⟩
  rw [h'.contents, h.contents]
  exact Multiset.filter_congr fun e _ => not_congr hperm.mem_iff

/-- From every state of a sequential run, at any fixed time, on any connection that is ready, for
every list of keys: `EXISTS` replies the number of positions with a live key and leaves all stored
entries. `DEL` replies the number of distinct live keys, takes out exactly the entries of the listed
keys, dead ones included, and drops the usage by their cost. Its reply and the contents it leaves do
not depend on the order of the keys.
Source: `internal/server/commands.go` `cmdDel`, `cmdExists`; `internal/cache/cache.go` `Del`
Kind: P
Fidelity: exact -/
theorem del_exists_count (host : Host S) (hasher : S → Bytes → UInt64)
    (opts : List (Engine.CacheOpt S)) (hhost : host.gomaxprocs * 4 ≤ 2 ^ 62)
    (hopts : ∀ n, Engine.CacheOpt.withShards n ∈ opts → n ≤ 2 ^ 62) (env : Env)
    (turns : List Turn) (clock : ℕ) :
    Ensures (Engine.run clock ⟨Engine.Cache.new host hasher opts, env⟩ turns) fun x =>
      ∃ fuel₀, ∀ fuel, fuel₀ ≤ fuel → ∀ (now : ℤ) (env' : Env),
        (∀ i, env'.clock.read i = now) → ∀ (c : Conn), c.Ready → ∀ (verb : Bytes)
        (keys : List Bytes), keys ≠ [] → keys.length < 2 ^ 63 →
        (asciiUpper verb = text "EXISTS" →
          Returns ((dispatch (verb :: keys)).runIn (backend fuel) c ⟨x.2.cache, env'⟩)
            (Counted now keys c ⟨x.2.cache, env'⟩)) ∧
        (asciiUpper verb = text "DEL" →
          Returns ((dispatch (verb :: keys)).runIn (backend fuel) c ⟨x.2.cache, env'⟩) fun r =>
            Removed now keys c ⟨x.2.cache, env'⟩ r ∧
            ∀ keys', keys'.Perm keys →
              Returns ((dispatch (verb :: keys')).runIn (backend fuel) c ⟨x.2.cache, env'⟩)
                fun r' => r'.2.1 = r.2.1 ∧ r'.2.2.cache.m.contents = r.2.2.cache.m.contents) := by
  refine (Engine.Cache.Holds.run turns (Engine.holds_new host hasher opts hhost hopts)).mono ?_
  rintro x ⟨f, h⟩
  obtain ⟨cap, hcap⟩ := x.2.cache.m.exists_within
  refine ⟨2 * (cap + 4) + 256, ?_⟩
  intro fuel hfuel now env' hclock c hc verb keys hkeys hlen
  constructor
  · intro hverb
    exact exists_counted (w := ⟨x.2.cache, env'⟩) hc h (by omega) hclock hverb hkeys hlen
  · intro hverb
    obtain ⟨r, hrun, hr⟩ :=
      del_removed (w := ⟨x.2.cache, env'⟩) hc h hcap hfuel hclock hverb hkeys hlen
    refine ⟨r, hrun, hr, fun keys' hperm => ?_⟩
    have hkeys' : keys' ≠ [] := by
      rintro rfl
      exact hkeys hperm.nil_eq.symm
    refine (del_removed (w := ⟨x.2.cache, env'⟩) hc h hcap hfuel hclock hverb hkeys'
      (by rw [hperm.length_eq]; exact hlen)).mono fun r' hr' => ?_
    exact hr.of_perm hperm hr'

/-- One stored key, asked about twice and then deleted twice.
Source: `internal/server/commands_test.go` `TestExistsVariadicCountsPresentWithDuplicates`
Kind: C -/
theorem del_exists_count_twice :
    ∃ x, Engine.run 9 ⟨Engine.Cache.new ⟨1, ()⟩ (fun _ _ => 0) [.withShards 1], Engine.stillEnv 0⟩
        [⟨.set none [97] [1] 0, Engine.stillEnv 0⟩] = .ok x ∧
      ∃ fuel, Returns ((dispatch [text "EXISTS", [97], [97]]).runIn (backend fuel)
          (newConn ⟨[], true⟩ 1) ⟨x.2.cache, Engine.stillEnv 0⟩)
          (Counted 0 [[97], [97]] (newConn ⟨[], true⟩ 1) ⟨x.2.cache, Engine.stillEnv 0⟩) ∧
        Returns ((dispatch [text "DEL", [97], [97]]).runIn (backend fuel)
          (newConn ⟨[], true⟩ 1) ⟨x.2.cache, Engine.stillEnv 0⟩)
          (Removed 0 [[97], [97]] (newConn ⟨[], true⟩ 1) ⟨x.2.cache, Engine.stillEnv 0⟩) := by
  obtain ⟨x, hx, -⟩ := Engine.run_single
  obtain ⟨fuel₀, hcount⟩ := (del_exists_count ⟨1, ()⟩ (fun _ _ => 0) [.withShards 1]
    (by decide) (by simp) (Engine.stillEnv 0) [⟨.set none [97] [1] 0, Engine.stillEnv 0⟩]
    9).of_ok hx
  have hready : (newConn ⟨[], true⟩ 1).Ready := ⟨rfl, rfl, Or.inl rfl⟩
  have hall := fun verb => hcount fuel₀ le_rfl 0 (Engine.stillEnv 0) (fun _ => rfl) _ hready verb
    [[97], [97]] (by decide) (by decide)
  refine ⟨x, hx, fuel₀, (hall (text "EXISTS")).1 (by decide), ?_⟩
  exact ((hall (text "DEL")).2 (by decide)).mono fun r hr => hr.1

end CacheMoney.Server
