import CacheMoney.Found.Layers
import CacheMoney.Engine.Histories
import CacheMoney.Server.Expiry

/-!
# Connections that overlap

Every connection has its goroutine, and the goroutines share the cache: while one command runs, the
others do too, between any two atomic actions of the engine. So a command is no atomic step of the
server. What its client can rely on is the sum of what it asked of the engine.

* `engineProg`: what a handler asks of the engine, as a program over the atomic actions;
  `backend_eq` says that, alone, it does what `backend` does.
* `command`: one dispatched command down to the atomic actions; `command_alone` is its run alone.
* `Effect`: what one request of a handler does, at its own point between the other actions.
* `command_takes_effect`: in every interleaving, a command replies once, what its handler makes of
  the answers, and the requests it made took effect in turn between its arrival and its reply.
-/

namespace CacheMoney.Server

open CacheMoney.Found CacheMoney.Resp CacheMoney.Shardmap
open CacheMoney.Engine (Action World Env Store Acts CacheEvent storeSpec TakesEffect Performs
  OnlyReads Walks Plain Passing GetPath SetPath DelPath TtlPath)

variable {S : Type}

/-! ### Requests as programs -/

/-- What the engine does for a handler, action by action.
Source: `internal/cache/cache.go` `Cache`; `internal/server/config.go` `Config`
Kind: D -/
def engineProg (fuel : ℕ) : (o : EngineOp) → Prog Action Action.Answer o.Answer
  | .get key => do
      let r ← Engine.Cache.get none key
      pure (r.mapError engineErr)
  | .set key value ttl => do
      let r ← Engine.Cache.set fuel none key value ttl.toInt
      pure (r.mapError engineErr)
  | .del key => do
      let r ← Engine.Cache.del none key
      pure (r.mapError engineErr)
  | .ttl key => do
      let r ← Engine.Cache.ttl none key
      pure ((r.mapError engineErr).map (Option.map Int64.ofInt))
  | .now => Engine.ask .now
  | .maxMemory => do
      let bytes ← Engine.ask .loadMaxmemory
      pure (Int64.ofInt bytes)
  | .setMaxMemory bytes => Engine.Cache.setMaxMemory fuel bytes.toInt
  | .evictionPolicy => Engine.ask .loadEvictPol
  | .setEvictionPolicy p => Engine.Cache.setEvictionPolicy p

/-- Alone, a request is answered as by `backend`.
Source: `internal/cache/cache.go` `Cache`
Kind: L -/
theorem backend_eq (fuel : ℕ) (o : EngineOp) (w : World S) :
    (engineProg fuel o).run (Engine.exec fuel) w = backend fuel o w := by
  cases o with
  | get key => exact Prog.run_bind _ _ w
  | set key value ttl => exact Prog.run_bind _ _ w
  | del key => exact Prog.run_bind _ _ w
  | ttl key => exact Prog.run_bind _ _ w
  | now => exact Prog.run_perform _
  | maxMemory => rfl
  | setMaxMemory bytes => rfl
  | evictionPolicy => exact Prog.run_perform _
  | setEvictionPolicy p => rfl

/-- One command of a connection, down to the atomic actions of the engine.
Source: `internal/server/dispatch.go` `dispatch`
Kind: D -/
def command (fuel : ℕ) (args : List Bytes) (c : Conn) :
    Prog Action Action.Answer (Outcome (Bool × Conn)) :=
  (dispatch args c).run.implement (engineProg fuel)

/-- Alone, a command is the dispatch over the cache.
Source: `internal/server/dispatch.go` `dispatch`
Kind: P -/
theorem command_alone (fuel : ℕ) (args : List Bytes) (c : Conn) (w : World S) :
    (dispatch args).runIn (backend fuel) c w =
      (command fuel args c).run (Engine.exec fuel) w >>= fun r =>
        r.1 >>= fun x => pure (x.1, x.2, r.2) := by
  have hbackend : (fun o (w : World S) => (engineProg fuel o).run (Engine.exec fuel) w) =
      backend fuel := by
    funext o w
    exact backend_eq fuel o w
  unfold command
  rw [Prog.run_implement, hbackend]
  rfl

/-- What a goroutine of a connection runs: one command after another.
Source: `internal/server/conn.go` `serveConn`
Kind: D -/
inductive Serves : Prog Action Action.Answer (Outcome (Bool × Conn)) → Prop where
  | command (fuel : ℕ) (args : List Bytes) (c : Conn) : Serves (command fuel args c)

/-! ### The actions of a request -/

/-- The actions of a request, with its answer.
Source: `internal/cache/cache.go` `Cache`
Kind: D -/
def OpPath : (o : EngineOp) → Acts → o.Answer → Prop
  | .get key, l, r => ∃ v, r = .ok v ∧ GetPath key l v
  | .set key value ttl, l, r => ∃ r', r = Except.mapError engineErr r' ∧
      SetPath key value ttl.toInt l r'
  | .del key, l, r => ∃ b, r = .ok b ∧ DelPath key l b
  | .ttl key, l, r => ∃ left, r = .ok (Option.map Int64.ofInt left) ∧ TtlPath key l left
  | .now, l, t => l = [⟨.now, t⟩]
  | .maxMemory, l, r => ∃ bytes : ℤ, r = Int64.ofInt bytes ∧ l = [⟨.loadMaxmemory, bytes⟩]
  | .setMaxMemory bytes, l, _ =>
      ∃ l', l = ⟨.storeMaxmemory bytes.toInt, ()⟩ :: l' ∧ Passing none l'
  | .evictionPolicy, l, p => l = [⟨.loadEvictPol, p⟩]
  | .setEvictionPolicy p, l, _ => ∃ l', l = ⟨.storeEvictPol p, ()⟩ :: l' ∧ Plain l'

/-- Every request performs its actions.
Source: `internal/cache/cache.go` `Cache`
Kind: L -/
theorem engineProg_walks (fuel : ℕ) (o : EngineOp) : Walks (OpPath o) (engineProg fuel o) := by
  cases o with
  | get key =>
      refine (Engine.get_walks key).seq fun l r hl => ?_
      obtain ⟨v, rfl, hpath⟩ := hl
      refine Engine.walks_pure ?_
      rw [List.append_nil]
      exact ⟨v, rfl, hpath⟩
  | set key value ttl =>
      refine (Engine.set_walks fuel key value ttl.toInt).seq fun l r hpath => ?_
      refine Engine.walks_pure ?_
      rw [List.append_nil]
      exact ⟨r, rfl, hpath⟩
  | del key =>
      refine (Engine.del_walks key).seq fun l r hl => ?_
      obtain ⟨b, rfl, hpath⟩ := hl
      refine Engine.walks_pure ?_
      rw [List.append_nil]
      exact ⟨b, rfl, hpath⟩
  | ttl key =>
      refine (Engine.ttl_walks key).seq fun l r hl => ?_
      obtain ⟨left, rfl, hpath⟩ := hl
      refine Engine.walks_pure ?_
      rw [List.append_nil]
      exact ⟨left, rfl, hpath⟩
  | now => exact Engine.walks_tell fun _ => rfl
  | maxMemory => exact Engine.walks_ask fun bytes => ⟨bytes, rfl, rfl⟩
  | setMaxMemory bytes => exact Engine.setMaxMemory_walks fuel bytes.toInt
  | evictionPolicy => exact Engine.walks_tell fun _ => rfl
  | setEvictionPolicy p => exact Engine.setEvictionPolicy_walks p

/-! ### Requests in a history -/

section histories

variable {ι : Type} [DecidableEq ι]

/-- An event of the server, seen from the engine.
Source: none
Kind: D -/
abbrev ServerEvent (ι : Type) := CacheEvent ι (Outcome (Bool × Conn))

/-- All that the client changes is that it removes keys.
Source: `internal/cache/evict.go` `evictUntilUnder`
Kind: D -/
def OnlyDeletes (i : ι) (during : List (ServerEvent ι)) : Prop :=
  ∀ a ∈ actionsOf i during, a.1.writes = true → ∃ victim, a.1 = .delete victim

/-- What a request does among the actions of the others, and why it is answered as it is. `x` is the
store at its beginning, `during` are the events up to its answer. A setting is read at one point and
answered as it was there; it is stored at one point, and a lower ceiling then removes keys.
Source: `internal/cache/cache.go` `Cache`; `internal/server/config.go` `Config`
Kind: D -/
def Effect (i : ι) (x : Store) (during : List (ServerEvent ι)) : (Σ o : EngineOp, o.Answer) → Prop
  | ⟨.get key, r⟩ => ∃ v, r = .ok v ∧ TakesEffect i x during (.get none key) (.value (.ok v))
  | ⟨.set key value ttl, r⟩ => ∃ r', r = Except.mapError engineErr r' ∧
      TakesEffect i x during (.set none key value ttl.toInt) (.stored r')
  | ⟨.del key, r⟩ => ∃ b, r = .ok b ∧ TakesEffect i x during (.del none key) (.existed (.ok b))
  | ⟨.ttl key, r⟩ => ∃ left, r = .ok (Option.map Int64.ofInt left) ∧
      TakesEffect i x during (.ttl none key) (.remaining (.ok left))
  | ⟨.now, t⟩ => OnlyReads i during ∧
      ∃ y later, Performs i x during .now t y later ∧ t = y.clock.head
  | ⟨.maxMemory, r⟩ => OnlyReads i during ∧ ∃ y later,
      Performs i x during .loadMaxmemory y.maxmemory y later ∧ r = Int64.ofInt y.maxmemory
  | ⟨.evictionPolicy, p⟩ => OnlyReads i during ∧ ∃ y later,
      Performs i x during .loadEvictPol p y later ∧ p = y.evictPol
  | ⟨.setMaxMemory bytes, _⟩ => ∃ before later,
      during = before ++ .done i (.storeMaxmemory bytes.toInt) () :: later ∧
      OnlyReads i before ∧ OnlyDeletes i later
  | ⟨.setEvictionPolicy p, _⟩ => ∃ before later,
      during = before ++ .done i (.storeEvictPol p) () :: later ∧
      OnlyReads i before ∧ OnlyReads i later

/-- An eviction pass only removes keys.
Source: `internal/cache/evict.go` `evictUntilUnder`
Kind: L -/
theorem onlyDeletes_of_passing {i : ι} {during : List (ServerEvent ι)}
    (h : Passing none (actionsOf i during)) : OnlyDeletes i during := by
  intro a ha hwrites
  rcases h.spares a ha with hplain | hcount | ⟨victim, hvictim, -⟩
  · rw [Engine.writes_of_plain hplain] at hwrites
    cases hwrites
  · rw [hcount] at hwrites
    cases hwrites
  · exact ⟨victim, hvictim⟩

/-- A client that has done nothing has only read.
Source: none
Kind: L -/
theorem onlyReads_of_nil {i : ι} {during : List (ServerEvent ι)}
    (h : actionsOf i during = []) : OnlyReads i during := by
  rw [OnlyReads, h]
  exact Engine.plain_nil.readOnly

/-- A request that consists of one reading.
Source: none
Kind: L -/
theorem performs_of_single {i : ι} {x : Store} {during : List (ServerEvent ι)} {a : Action}
    {r : a.Answer} (ha : a.plain = true) (hlegal : storeSpec.Legal x during)
    (hacts : actionsOf i during = [⟨a, r⟩]) :
    OnlyReads i during ∧ ∃ y later, Performs i x during a r y later ∧ storeSpec.allows y a r := by
  obtain ⟨before, later, hduring, -, -, hallows, -⟩ := Engine.first_action hlegal hacts
  refine ⟨?_, _, later, ⟨before, hduring, rfl⟩, hallows⟩
  rw [OnlyReads, hacts]
  exact (Engine.plain_cons ha Engine.plain_nil).readOnly

/-- The actions of a request make its effect.
Source: `internal/cache/cache.go` `Cache`
Kind: L -/
theorem OpPath.effect {i : ι} {x : Store} {during : List (ServerEvent ι)} {o : EngineOp}
    {r : o.Answer} (hclock : Engine.Forward x.clock) (hlegal : storeSpec.Legal x during)
    (h : OpPath o (actionsOf i during) r) : Effect i x during ⟨o, r⟩ := by
  cases o with
  | get key =>
      obtain ⟨v, rfl, hpath⟩ := h
      exact ⟨v, rfl, hpath.effect hclock hlegal⟩
  | set key value ttl =>
      obtain ⟨r', rfl, hpath⟩ := h
      exact ⟨r', rfl, hpath.effect hlegal⟩
  | del key =>
      obtain ⟨b, rfl, hpath⟩ := h
      exact ⟨b, rfl, hpath.effect hclock hlegal⟩
  | ttl key =>
      obtain ⟨left, rfl, hpath⟩ := h
      exact ⟨left, rfl, hpath.effect hclock hlegal⟩
  | now => exact performs_of_single rfl hlegal h
  | maxMemory =>
      obtain ⟨bytes, rfl, hacts⟩ := h
      obtain ⟨hreads, y, later, hat, hallows⟩ := performs_of_single rfl hlegal hacts
      obtain rfl : bytes = y.maxmemory := hallows
      exact ⟨hreads, y, later, hat, rfl⟩
  | evictionPolicy => exact performs_of_single rfl hlegal h
  | setMaxMemory bytes =>
      obtain ⟨l', hacts, hpass⟩ := h
      obtain ⟨before, later, hduring, hbefore, hlater, -, -⟩ := Engine.first_action hlegal hacts
      refine ⟨before, later, hduring, onlyReads_of_nil hbefore, ?_⟩
      apply onlyDeletes_of_passing
      rw [hlater]
      exact hpass
  | setEvictionPolicy p =>
      obtain ⟨l', hacts, hplain⟩ := h
      obtain ⟨before, later, hduring, hbefore, hlater, -, -⟩ := Engine.first_action hlegal hacts
      refine ⟨before, later, hduring, onlyReads_of_nil hbefore, ?_⟩
      rw [OnlyReads, hlater]
      exact hplain.readOnly

/-- **A command among the others.** Any number of connections dispatch commands over one new cache,
interleaved at the atomic actions of the engine, under a clock that does not run backwards. The
whole history is a run of one store. A command that has returned did not panic and wrote exactly
the reply that its handler makes of the answers of the engine; and the requests it made of the
engine took effect one after another between its arrival and its reply, each at a point of its own.
What was read of the map and of the settings is what they were at that point; whether an entry had
expired is judged by a later reading of the clock in the same request.
Source: `internal/server/dispatch.go` `dispatch`; `internal/server/conn.go` `serveConn`;
`internal/cache/cache.go` `Get`, `Set`, `Del`, `TTL`
Kind: P
Fidelity: exact -/
theorem command_takes_effect (host : Host S) (hasher : S → Bytes → UInt64)
    (opts : List (Engine.CacheOpt S)) (hhost : host.gomaxprocs * 4 ≤ 2 ^ 62)
    (hopts : ∀ n, Engine.CacheOpt.withShards n ∈ opts → n ≤ 2 ^ 62) (env : Env)
    (hclock : Engine.Forward env.clock) (fuel fuel' : ℕ) (i : ι) (args : List Bytes) (c : Conn)
    (hc : c.Ready) (result : Outcome (Bool × Conn)) (pre post : List (ServerEvent ι))
    (s : Pool ι Action Action.Answer (Outcome (Bool × Conn)) (World S))
    (hrun : ∀ a, .returned i a ∉ post)
    (htrace : Pool.Trace (Engine.exec fuel) Serves
      ⟨⟨Engine.Cache.new host hasher opts, env⟩, fun _ => none⟩
      (pre ++ .called i (command fuel' args c) :: post ++ [.returned i result]) s) :
    storeSpec.Legal (Engine.newStore host hasher opts env)
        (pre ++ .called i (command fuel' args c) :: post ++ [.returned i result]) ∧
      ∃ close c' requests, result = .ok (close, c') ∧ Stepped args c close c' ∧
        (dispatch args c).run.Replays requests (.ok (close, c')) ∧
        InTurn storeSpec i (Effect i) (storeSpec.after (Engine.newStore host hasher opts env) pre) post
          requests := by
  obtain ⟨hlegal, -⟩ := htrace.legal World.Presents (Engine.exec_presents fuel)
    (Engine.presents_new host hasher opts hhost hopts env)
  refine ⟨hlegal, ?_⟩
  obtain ⟨requests, hreplays, hacts, hpaths⟩ :=
    htrace.along_call (Prog.along_implement (engineProg_walks fuel') _) hrun
  have hpost : storeSpec.Legal (storeSpec.after (Engine.newStore host hasher opts env) pre) post := by
    rw [List.append_assoc] at hlegal
    obtain ⟨-, -, hrest⟩ := Spec.legal_append.mp hlegal
    exact (Spec.legal_append.mp hrest).1
  -- The handler returns whatever is answered, and so it did on these answers.
  obtain ⟨⟨close, c'⟩, hresult, hstep⟩ :=
    Prog.Always.of_replays (dispatch_stepped hc args) hreplays
  subst hresult
  refine ⟨close, c', _, rfl, hstep, hreplays, ?_⟩
  refine inTurn_of_actions (I := fun x => Engine.Forward x.clock)
    (fun x log hx => Engine.forward_after hx log) ?_ (Engine.forward_after hclock pre) hpost hacts
  intro q hq x during hx hduring hown
  apply OpPath.effect hx hduring
  rw [hown]
  exact hpaths q hq

/-- A `GET` that arrives before a `SET` of its key has stored, and reads after it.
Source: `internal/server/commands.go` `cmdGet`, `cmdSet`
Kind: C -/
theorem command_takes_effect_racing :
    ∃ (result : Outcome (Bool × Conn)) (requests : List (Σ o : EngineOp, o.Answer))
      (s : Pool Bool Action Action.Answer (Outcome (Bool × Conn)) (World Unit)),
      Pool.Trace (Engine.exec 9) Serves
        ⟨⟨Engine.Cache.new ⟨1, ()⟩ (fun _ _ => 0) [.withShards 1], Engine.stillEnv 0⟩, fun _ => none⟩
        ([.called false (command 9 [text "SET", [97], [1]] (newConn ⟨[], true⟩ 1)),
            .done false .loadMaxmemory (0 : ℤ),
            .done false .loadEvictPol Engine.EvictionPolicy.allKeysLFU] ++
          .called true (command 9 [text "GET", [97]] (newConn ⟨[], true⟩ 2)) ::
            [.done false (.swap [97] ⟨[1], Engine.zeroTime⟩) none,
              .done true (.get [97]) (some ⟨[1], Engine.zeroTime⟩), .done true .addHits (),
              .done true (.record [97]) ()] ++
          [.returned true result]) s ∧
      (dispatch [text "GET", [97]] (newConn ⟨[], true⟩ 2)).run.Replays requests result ∧
      InTurn storeSpec true (Effect true)
        (Engine.newStore ⟨1, ()⟩ (fun _ _ => 0) [.withShards 1] (Engine.stillEnv 0))
        ([.done false (.swap [97] ⟨[1], Engine.zeroTime⟩) none,
          .done true (.get [97]) (some ⟨[1], Engine.zeroTime⟩), .done true .addHits (),
          .done true (.record [97]) ()] : List (ServerEvent Bool)) requests := by
  have htrace : ∃ (result : Outcome (Bool × Conn))
      (s : Pool Bool Action Action.Answer (Outcome (Bool × Conn)) (World Unit)),
      Pool.Trace (Engine.exec 9) Serves
        ⟨⟨Engine.Cache.new ⟨1, ()⟩ (fun _ _ => 0) [.withShards 1], Engine.stillEnv 0⟩, fun _ => none⟩
        ([.called false (command 9 [text "SET", [97], [1]] (newConn ⟨[], true⟩ 1)),
            .done false .loadMaxmemory (0 : ℤ),
            .done false .loadEvictPol Engine.EvictionPolicy.allKeysLFU] ++
          .called true (command 9 [text "GET", [97]] (newConn ⟨[], true⟩ 2)) ::
            [.done false (.swap [97] ⟨[1], Engine.zeroTime⟩) none,
              .done true (.get [97]) (some ⟨[1], Engine.zeroTime⟩), .done true .addHits (),
              .done true (.record [97]) ()] ++
          [.returned true result]) s :=
    ⟨_, _, .cons (.called _ false _ rfl (.command 9 _ _)) <|
      .cons (.done _ false Action.loadMaxmemory _ _ _ _ rfl rfl) <|
      .cons (.done _ false Action.loadEvictPol _ _ _ _ rfl rfl) <|
      .cons (.called _ true _ rfl (.command 9 _ _)) <|
      .cons (.done _ false (Action.swap [97] ⟨[1], Engine.zeroTime⟩) _ _ _ _ rfl rfl) <|
      .cons (.done _ true (Action.get [97]) _ _ _ _ rfl rfl) <|
      .cons (.done _ true Action.addHits _ _ _ _ rfl rfl) <|
      .cons (.done _ true (Action.record [97]) _ _ _ _ rfl rfl) <|
      .cons (.returned _ true _ _ rfl) .nil⟩
  obtain ⟨result, s, hs⟩ := htrace
  obtain ⟨-, close, c', requests, hresult, -, hreplays, hturn⟩ :=
    command_takes_effect ⟨1, ()⟩ (fun _ _ => 0) [.withShards 1] (by decide) (by simp)
      (Engine.stillEnv 0) (fun _ _ _ => le_rfl) 9 9 true [text "GET", [97]]
      (newConn ⟨[], true⟩ 2) ⟨rfl, rfl, Or.inl rfl⟩ result _ _ s (by simp) hs
  subst hresult
  exact ⟨_, requests, s, hs, hreplays, hturn⟩

end histories

end CacheMoney.Server
