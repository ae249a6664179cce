import CacheMoney.Server.Lifecycle

/-!
# What a clean shutdown guarantees

* `Guarded`: a connection whose goroutine runs is in the connection set, so `Shutdown` cannot see
  an empty set while one of them is past its check of the flag. Hence
  `nothing_dispatched_after_shutdown`, also for connections that are registered later.
* `Kept`: a connection that the server has closed has no command in hand. `serveConn` keeps it,
  and `closeIdleConns` keeps it if it closes only connections with no command in hand
  (`Clean`). Hence `replies_delivered`.
* `reply_dropped`: `closeIdleConns` takes a connection for idle whose command has just been read.
-/

namespace CacheMoney.Server.Lifecycle

open CacheMoney.Found

variable {maxConns : ℕ} {ok : State → ℕ → Prop} {s s' : State}

/-- The connections after one was put.
Source: none
Kind: L -/
theorem made_put {c c' : ℕ} {k k' : ConnState} (h : (s.put c k).made c' = some k') :
    (c' = c ∧ k' = k) ∨ (c' ≠ c ∧ s.made c' = some k') := by
  unfold State.put at h
  by_cases hc : c' = c
  · subst hc
    simp only [Function.update_self] at h
    exact .inl ⟨rfl, (Option.some.inj h).symm⟩
  · simp only [Function.update_of_ne hc] at h
    exact .inr ⟨hc, h⟩

/-- The connection that was put.
Source: none
Kind: L -/
theorem made_put_self (c : ℕ) (k : ConnState) : (s.put c k).made c = some k :=
  Function.update_self ..

/-- The other connections are as before.
Source: none
Kind: L -/
theorem made_put_ne {c c' : ℕ} (k : ConnState) (h : c' ≠ c) : (s.put c k).made c' = s.made c' :=
  Function.update_of_ne h ..

/-! ### Nothing is dispatched after a clean shutdown -/

/-- The goroutine is past its check of the flag and has not left the loop.
Source: `internal/server/conn.go` `serveConn`
Kind: D -/
def ServePC.serving : ServePC → Bool
  | .parking | .reading | .returned _ | .handling _ | .flushing _ => true
  | _ => false

/-- The goroutine runs and has not dropped its connection.
Source: `internal/server/conn.go` `serveConn`
Kind: D -/
def ServePC.running : ServePC → Bool
  | .starting | .releasing | .ended => false
  | _ => true

/-- What one step of `serveConn` does to where it stands: it runs before and after, it enters the
loop body only while the flag is down, and it dispatches only inside the loop body.
Source: `internal/server/conn.go` `serveConn`
Kind: L -/
theorem ServeStep.moves {flag : Bool} {k k' : ConnState} {e : Option (List Bytes)}
    (h : ServeStep flag k e k') : k.pc.running = true ∧
      (k'.pc.serving = true → k.pc.serving = true ∨ flag = false) ∧
      (e ≠ none → k.pc.serving = true) := by
  cases h with
  | goOn hpc hflag =>
      rw [hpc]
      exact ⟨rfl, fun _ => .inr hflag, fun he => absurd rfl he⟩
  | flush stop gone hpc hopen =>
      rw [hpc]
      exact ⟨rfl, fun _ => .inl rfl, fun he => absurd rfl he⟩
  | dispatch args stop hpc =>
      rw [hpc]
      exact ⟨rfl, fun _ => .inl rfl, fun _ => rfl⟩
  | stop hpc hflag =>
      rw [hpc]
      exact ⟨rfl, nofun, fun he => absurd rfl he⟩
  | close hpc =>
      rw [hpc]
      exact ⟨rfl, nofun, fun he => absurd rfl he⟩
  | fill cmds hpc hopen =>
      simp only
      rw [hpc]
      exact ⟨rfl, fun _ => .inl rfl, fun he => absurd rfl he⟩
  | park hpc | readCommand args rest hpc hbuf | readFail hpc hbuf | unpark r hpc | refuse hpc
  | flushFail stop hpc hclosed =>
      rw [hpc]
      exact ⟨rfl, fun _ => .inl rfl, fun he => absurd rfl he⟩

/-- The invariant of the connection set and the shutdown flag.
Source: `internal/server/server.go` `Serve`; `internal/server/shutdown.go` `Shutdown`
Kind: D -/
structure Guarded (s : State) : Prop where
  tracked : ∀ c k, s.made c = some k → k.pc.running = true → c ∈ s.conns
  pending : ∀ c, s.accept = .created c ∨ s.accept = .added c →
    ∃ k, s.made c = some k ∧ k.pc = .starting
  added : ∀ c, s.accept = .added c → c ∈ s.conns
  flag : s.shutdown ≠ .notCalled → s.inShutdown = true
  quiet : s.shutdown = .returned false → ∀ c k, s.made c = some k → k.pc.serving = false

/-- A step of one goroutine that does not start it and enters the loop body only before a clean
shutdown.
Source: `internal/server/conn.go` `serveConn`
Kind: L -/
theorem Guarded.put (h : Guarded s) {c : ℕ} {k : ConnState} (hk : s.made c = some k)
    (k' : ConnState)
    (hstart : k.pc = .starting → k'.pc = .starting)
    (hrun : k'.pc.running = true → k.pc.running = true)
    (hserve : k'.pc.serving = true → k.pc.serving = true ∨ s.inShutdown = false) :
    Guarded (s.put c k') := by
  refine ⟨?_, ?_, h.added, h.flag, ?_⟩
  · intro c' k'' hk'' hrun'
    rcases made_put hk'' with ⟨rfl, rfl⟩ | ⟨-, hold⟩
    · exact h.tracked c' k hk (hrun hrun')
    · exact h.tracked c' k'' hold hrun'
  · intro c' hc'
    obtain ⟨k₀, hk₀, hpc⟩ := h.pending c' hc'
    by_cases heq : c' = c
    · subst heq
      rw [hk] at hk₀
      cases hk₀
      exact ⟨k', made_put_self c' k', hstart hpc⟩
    · exact ⟨k₀, (made_put_ne k' heq).trans hk₀, hpc⟩
  · intro hret c' k'' hk''
    rcases made_put hk'' with ⟨rfl, rfl⟩ | ⟨-, hold⟩
    · have hflag : s.inShutdown = true := by
        apply h.flag
        rw [show s.shutdown = .returned false from hret]
        exact fun hne => ShutdownPC.noConfusion hne
      have hquiet := h.quiet hret c' k hk
      by_contra hserving
      rcases hserve (Bool.eq_true_of_not_eq_false hserving) with hs | hs
      · rw [hquiet] at hs
        cases hs
      · rw [hflag] at hs
        cases hs
    · exact h.quiet hret c' k'' hold

/-- A step of `Shutdown` that is not its clean return.
Source: `internal/server/shutdown.go` `Shutdown`
Kind: L -/
theorem Guarded.move (h : Guarded s) {pc : ShutdownPC} {lnClosed : Bool}
    (hcalled : s.shutdown ≠ .notCalled) (hret : pc ≠ .returned false) :
    Guarded { s with shutdown := pc, lnClosed := lnClosed } :=
  ⟨h.tracked, h.pending, h.added, fun _ => h.flag hcalled, fun hpc => absurd hpc hret⟩

/-- A step of the accept loop before a connection is made.
Source: `internal/server/server.go` `Serve`
Kind: L -/
theorem Guarded.turn (h : Guarded s) {pc : AcceptPC} {lnPublished lnClosed : Bool} {sem : ℕ}
    (hpc : ∀ c, pc ≠ .created c ∧ pc ≠ .added c) :
    Guarded { s with accept := pc, lnPublished := lnPublished, lnClosed := lnClosed, sem := sem } :=
  ⟨h.tracked, fun c hc => by rcases hc with hc | hc; exacts [absurd hc (hpc c).1, absurd hc (hpc c).2],
    fun c hc => absurd hc (hpc c).2, h.flag, h.quiet⟩

/-- A connection that is put where it is not serving yet, and runs only if it is in the set.
Source: `internal/server/server.go` `Serve`
Kind: L -/
theorem Guarded.enter (h : Guarded s) {c : ℕ} {k : ConnState}
    (hmem : k.pc.running = true → c ∈ s.conns) (hserving : k.pc.serving = false) :
    (∀ c' k', (s.put c k).made c' = some k' → k'.pc.running = true → c' ∈ s.conns) ∧
      (s.shutdown = .returned false →
        ∀ c' k', (s.put c k).made c' = some k' → k'.pc.serving = false) := by
  constructor
  · intro c' k' hk' hrun
    rcases made_put hk' with ⟨rfl, rfl⟩ | ⟨-, hold⟩
    · exact hmem hrun
    · exact h.tracked c' k' hold hrun
  · intro hret c' k' hk'
    rcases made_put hk' with ⟨rfl, rfl⟩ | ⟨-, hold⟩
    · exact hserving
    · exact h.quiet hret c' k' hold

/-- The accept loop does not wait for a connection that drops itself from the set.
Source: `internal/server/conn.go` `serveConn`
Kind: L -/
theorem Guarded.ne_of_added (h : Guarded s) {c c' : ℕ} {k : ConnState} (hk : s.made c = some k)
    (hpc : k.pc = .dropping) (hadded : s.accept = .added c') : c' ≠ c := by
  rintro rfl
  obtain ⟨k₀, hk₀, hstart⟩ := h.pending c' (.inr hadded)
  rw [hk] at hk₀
  cases hk₀
  rw [hpc] at hstart
  cases hstart

/-- With the set empty, no goroutine is past its check of the flag.
Source: `internal/server/shutdown.go` `Shutdown`
Kind: L -/
theorem Guarded.serving_of_empty (h : Guarded s) (hnone : s.conns = ∅) {c : ℕ} {k : ConnState}
    (hk : s.made c = some k) : k.pc.serving = false := by
  by_contra hserving
  have hrun : k.pc.running = true := by
    cases hk' : k.pc <;> rw [hk'] at hserving <;> first | rfl | exact absurd rfl hserving
  have hmem := h.tracked c k hk hrun
  rw [hnone] at hmem
  exact absurd hmem (Finset.notMem_empty c)

/-- One step keeps the connection set and the flag in order.
Source: `internal/server/server.go` `Serve`; `internal/server/shutdown.go` `Shutdown`
Kind: L -/
theorem Guarded.step (h : Guarded s) (hstep : Step maxConns ok s s') : Guarded s' := by
  have hcalled : ∀ {pc}, s.shutdown = pc → pc ≠ .notCalled → s.shutdown ≠ .notCalled := by
    rintro pc rfl hne
    exact hne
  cases hstep with
  | serve hpc => exact h.turn fun c => ⟨nofun, nofun⟩
  | serveRefused hpc hmu hflag => exact h.turn fun c => ⟨nofun, nofun⟩
  | publish hpc hmu hflag => exact h.turn fun c => ⟨nofun, nofun⟩
  | accept hpc hopen => exact h.turn fun c => ⟨nofun, nofun⟩
  | acceptFail hpc => exact h.turn fun c => ⟨nofun, nofun⟩
  | takeSlot hpc hfree => exact h.turn fun c => ⟨nofun, nofun⟩
  | rejectConn hpc hfull => exact h.turn fun c => ⟨nofun, nofun⟩
  | newConn hpc =>
      obtain ⟨htracked, hquiet⟩ := h.enter (c := s.nextID + 1) (k := {}) nofun rfl
      refine ⟨htracked, ?_, nofun, h.flag, hquiet⟩
      rintro c (hc | hc)
      · cases hc
        exact ⟨_, made_put_self _ _, rfl⟩
      · cases hc
  | addConn c hpc hmu =>
      refine ⟨?_, ?_, ?_, h.flag, h.quiet⟩
      · exact fun c' k hk hrun => Finset.mem_insert_of_mem (h.tracked c' k hk hrun)
      · rintro c' (hc | hc)
        · cases hc
        · cases hc
          exact h.pending c (.inl hpc)
      · intro c' hc
        cases hc
        exact Finset.mem_insert_self ..
  | spawn c k hpc hk =>
      obtain ⟨htracked, hquiet⟩ :=
        h.enter (k := { k with pc := .checking }) (fun _ => h.added c hpc) rfl
      refine ⟨htracked, ?_, nofun, h.flag, hquiet⟩
      rintro c' (hc | hc) <;> cases hc
  | conn c k k' e hk hserve =>
      obtain ⟨hrun, hserving, -⟩ := hserve.moves
      have hput := h.put hk k' (fun hpc => by rw [hpc] at hrun; cases hrun)
        (fun _ => hrun) hserving
      exact ⟨hput.tracked, hput.pending, hput.added, hput.flag, hput.quiet⟩
  | drop c k hk hpc hmu =>
      have hput := h.put hk { k with pc := .releasing } (fun hs => by rw [hpc] at hs; cases hs)
        (fun hr => by cases hr) (fun hs => by cases hs)
      refine ⟨?_, hput.pending, ?_, hput.flag, hput.quiet⟩
      · intro c' k' hk' hrun
        refine Finset.mem_erase.mpr ⟨?_, hput.tracked c' k' hk' hrun⟩
        rintro rfl
        rcases made_put hk' with ⟨-, rfl⟩ | ⟨hne, -⟩
        · cases hrun
        · exact hne rfl
      · intro c' hc'
        exact Finset.mem_erase.mpr ⟨h.ne_of_added hk hpc hc', h.added c' hc'⟩
  | release c k hk hpc =>
      have hput := h.put hk { k with pc := .ended } (fun hs => by rw [hpc] at hs; cases hs)
        (fun hr => by cases hr) (fun hs => by cases hs)
      exact ⟨hput.tracked, hput.pending, hput.added, hput.flag, hput.quiet⟩
  | shutdown hpc =>
      exact ⟨h.tracked, h.pending, h.added, fun _ => rfl, nofun⟩
  | closeLn ln hpc => exact h.move (hcalled hpc nofun) nofun
  | sweep hpc => exact h.move (hcalled hpc nofun) nofun
  | skipActive c k rest hpc hc hk hactive => exact h.move (hcalled hpc nofun) nofun
  | findIdle c k rest hpc hc hk hidle => exact h.move (hcalled hpc nofun) nofun
  | closeIdle c k rest hpc hk hok =>
      exact (h.put hk { k with closed := true } id id .inl).move (hcalled hpc nofun) nofun
  | swept hpc => exact h.move (hcalled hpc nofun) nofun
  | countNone hpc hnone =>
      exact ⟨h.tracked, h.pending, h.added, fun _ => h.flag (hcalled hpc nofun),
        fun _ _ _ hk => h.serving_of_empty hnone hk⟩
  | countSome hpc hsome => exact h.move (hcalled hpc nofun) nofun
  | tick hpc => exact h.move (hcalled hpc nofun) nofun
  | deadline hpc => exact h.move (hcalled hpc nofun) nofun
  | findAny c rest hpc hc => exact h.move (hcalled hpc nofun) nofun
  | closeAny c k rest hpc hk =>
      exact (h.put hk { k with closed := true } id id .inl).move (hcalled hpc nofun) nofun
  | sweptAll hpc => exact h.move (hcalled hpc nofun) nofun

/-- The start is guarded.
Source: `internal/server/server.go` `Serve`; `internal/server/shutdown.go` `Shutdown`
Kind: L -/
theorem guarded_start : Guarded {} := ⟨nofun, nofun, nofun, fun h => absurd rfl h, nofun⟩

/-- Every reachable state is guarded.
Source: `internal/server/server.go` `Serve`; `internal/server/shutdown.go` `Shutdown`
Kind: L -/
theorem Reachable.guarded (h : Reachable maxConns ok {} s) : Guarded s := by
  induction h with
  | refl => exact guarded_start
  | tail _ hstep ih => exact ih.step hstep

/-- After a clean return of `Shutdown` a step dispatches nothing.
Source: `internal/server/shutdown.go` `Shutdown`
Kind: L -/
theorem Guarded.log_step (h : Guarded s) (hret : s.shutdown = .returned false)
    (hstep : Step maxConns ok s s') : s'.shutdown = .returned false ∧ s'.log = s.log := by
  cases hstep with
  | conn c k k' e hk hserve =>
      refine ⟨hret, ?_⟩
      cases e with
      | none => exact List.append_nil _
      | some args =>
          have hserving := hserve.moves.2.2 nofun
          rw [h.quiet hret c k hk] at hserving
          cases hserving
  | shutdown hpc | closeLn _ hpc | sweep hpc | skipActive _ _ _ hpc _ _ _
  | findIdle _ _ _ hpc _ _ _ | closeIdle _ _ _ hpc _ _ | swept hpc | countNone hpc _
  | countSome hpc _ | tick hpc | deadline hpc | findAny _ _ hpc _ | closeAny _ _ _ hpc _
  | sweptAll hpc =>
      rw [hret] at hpc
      cases hpc
  | _ => exact ⟨hret, rfl⟩

/-- **Nothing is dispatched after a clean shutdown.** Whatever the accept loop, any number of
connection goroutines and `Shutdown` did before, and whatever they do afterwards: from the moment
at which `Shutdown` returns without a deadline error, no command is dispatched.
Source: `internal/server/shutdown.go` `Shutdown`; `cmd/cachemoney/main.go` `main`
Kind: P
Fidelity: exact -/
theorem nothing_dispatched_after_shutdown (maxConns : ℕ) (s s' : State)
    (hbefore : Reachable maxConns (fun _ _ => True) {} s) (hret : s.shutdown = .returned false)
    (hafter : Reachable maxConns (fun _ _ => True) s s') : s'.log = s.log := by
  have hkept : s'.shutdown = .returned false ∧ s'.log = s.log := by
    induction hafter with
    | refl => exact ⟨hret, rfl⟩
    | tail hprev hstep ih =>
        obtain ⟨hret', hlog⟩ := (Reachable.guarded (hbefore.trans hprev)).log_step ih.1 hstep
        exact ⟨hret', hlog.trans ih.2⟩
  exact hkept.2

/-- The bytes of `PING`.
Source: none
Kind: D -/
def ping : List Bytes := [[80, 73, 78, 71]]

/-- A clean shutdown with two clients. The first has had its command answered and is found idle; its
goroutine is about to give its slot back. The second was accepted just before, and the accept loop
has not registered it yet.
Source: `internal/server/shutdown.go` `Shutdown`; `internal/server/server.go` `Serve`
Kind: L -/
theorem clean_shutdown_run : ∃ (s : State) (k k' : ConnState),
    Reachable 10 (fun _ _ => True) {} s ∧ s.shutdown = .returned false ∧ s.inShutdown = true ∧
    s.made 1 = some k ∧ k.pc = .releasing ∧ s.accept = .created 2 ∧ s.made 2 = some k' ∧
    s.log = [(1, ping)] :=
  ⟨_, _, _, .head (.serve _ rfl) <| .head (.publish _ rfl rfl rfl) <| .head (.accept _ rfl rfl) <|
    .head (.takeSlot _ rfl (by decide)) <| .head (.newConn _ rfl) <| .head (.addConn _ 1 rfl rfl) <|
    .head (.spawn _ 1 _ rfl rfl) <| .head (.conn _ 1 _ _ _ rfl (.goOn _ rfl rfl)) <|
    .head (.conn _ 1 _ _ _ rfl (.park _ rfl)) <|
    .head (.conn _ 1 _ _ _ rfl (.fill _ [ping] rfl rfl)) <|
    .head (.conn _ 1 _ _ _ rfl (.readCommand _ ping [] rfl rfl)) <|
    .head (.conn _ 1 _ _ _ rfl (.unpark _ _ rfl)) <|
    .head (.conn _ 1 _ _ _ rfl (.dispatch _ _ false rfl)) <|
    .head (.conn _ 1 _ _ _ rfl (.flush _ false false rfl rfl)) <|
    .head (.conn _ 1 _ _ _ rfl (.goOn _ rfl rfl)) <|
    .head (.conn _ 1 _ _ _ rfl (.park _ rfl)) <| .head (.accept _ rfl rfl) <|
    .head (.takeSlot _ rfl (by decide)) <| .head (.newConn _ rfl) <|
    .head (.shutdown _ rfl) <| .head (.closeLn _ true rfl) <| .head (.sweep _ rfl) <|
    .head (.findIdle _ 1 _ _ rfl (by decide) rfl rfl) <|
    .head (.closeIdle _ 1 _ _ rfl rfl trivial) <| .head (.swept _ rfl) <|
    .head (.conn _ 1 _ _ _ rfl (.readFail _ rfl rfl)) <|
    .head (.conn _ 1 _ _ _ rfl (.unpark _ _ rfl)) <|
    .head (.conn _ 1 _ _ _ rfl (.refuse _ rfl)) <|
    .head (.conn _ 1 _ _ _ rfl (.close _ rfl)) <| .head (.drop _ 1 _ rfl rfl rfl) <|
    .head (.countNone _ rfl (by decide)) .refl, rfl, rfl, rfl, rfl, rfl, rfl, rfl⟩

/-- The second client of that run is registered and its goroutine started after the shutdown: the
goroutine sees the flag and leaves, and the log stays as it was.
Source: `internal/server/server.go` `Serve`; `internal/server/conn.go` `serveConn`
Kind: C -/
theorem nothing_dispatched_after_shutdown_late : ∃ (s s' : State) (k' : ConnState),
    Reachable 10 (fun _ _ => True) {} s ∧ s.shutdown = .returned false ∧ s.log = [(1, ping)] ∧
    Reachable 10 (fun _ _ => True) s s' ∧ s'.made 2 = some k' ∧ k'.pc = .closing ∧
    s'.log = s.log := by
  obtain ⟨s, -, k', hs, hret, hflag, -, -, hpc, hk', hlog⟩ := clean_shutdown_run
  have hafter : ∃ s' k'', Reachable 10 (fun _ _ => True) s s' ∧ s'.made 2 = some k'' ∧
      k''.pc = .closing :=
    ⟨_, _, .head (.addConn s 2 hpc (by rw [hret]; rfl)) <| .head (.spawn _ 2 k' rfl hk') <|
      .single (.conn _ 2 _ _ _ rfl (.stop _ rfl hflag)), rfl, rfl⟩
  obtain ⟨s', k'', hafter, hk'', hpc''⟩ := hafter
  exact ⟨s, s', k'', hs, hret, hlog, hafter, hk'', hpc'',
    nothing_dispatched_after_shutdown 10 s s' hs hret hafter⟩

/-! ### Replies -/

/-- The connection has a command that will be executed, or was executed and not yet answered.
Source: `internal/server/conn.go` `serveConn`
Kind: D -/
def ConnState.InHand (k : ConnState) : Prop :=
  match k.pc with
  | .parking => k.buffered ≠ []
  | .reading => k.buffered ≠ []
  | .returned r => r ≠ none
  | .handling r => r ≠ none
  | .flushing _ => True
  | _ => False

/-- `closeIdleConns` closes `c` when it has no command in hand.
Source: `internal/server/server.go` `closeIdleConns`
Kind: D -/
def Clean (s : State) (c : ℕ) : Prop := ∀ k, s.made c = some k → ¬k.InHand

/-- Replies that are due.
Source: `internal/server/conn.go` `serveConn`
Kind: D -/
def ServePC.due : ServePC → ℕ
  | .flushing _ => 1
  | _ => 0

/-- The goroutine is before its check of the flag.
Source: `internal/server/conn.go` `serveConn`
Kind: D -/
def ServePC.entering : ServePC → Bool
  | .starting | .checking => true
  | _ => false

/-- Every dispatched command was answered or is about to be, and a connection that the server has
closed has no command in hand and gets none.
Source: `internal/server/conn.go` `serveConn`
Kind: D -/
structure Kept (flag : Bool) (k : ConnState) : Prop where
  answered : k.dispatched = k.flushed + k.pc.due
  free : k.closed = true → ¬k.InHand
  last : k.closed = true → k.pc.entering = true → flag = true

/-- Raising the flag of the shutdown loses no answer.
Source: `internal/server/conn.go` `serveConn`
Kind: L -/
theorem Kept.raise {flag : Bool} {k : ConnState} (h : Kept flag k) : Kept true k :=
  ⟨h.answered, h.free, fun _ _ => rfl⟩

/-- `serveConn` answers what it dispatches.
Source: `internal/server/conn.go` `serveConn`
Kind: L -/
theorem Kept.step {flag : Bool} {k k' : ConnState} {e : Option (List Bytes)} (h : Kept flag k)
    (hstep : ServeStep flag k e k') : Kept flag k' := by
  have hans := h.answered
  have hfree := h.free
  unfold ConnState.InHand at hfree
  cases hstep with
  | goOn hpc hflag =>
      rw [hpc] at hans
      refine ⟨hans, fun hc => ?_, nofun⟩
      rw [h.last hc (by rw [hpc]; rfl)] at hflag
      cases hflag
  | stop hpc hflag =>
      rw [hpc] at hans
      exact ⟨hans, fun _ => id, nofun⟩
  | park hpc =>
      rw [hpc] at hans hfree
      exact ⟨hans, hfree, nofun⟩
  | fill cmds hpc hopen =>
      refine ⟨hans, fun hc => ?_, fun hc => ?_⟩ <;>
      · rw [hopen] at hc
        cases hc
  | readCommand args rest hpc hbuf =>
      rw [hpc] at hans hfree
      refine ⟨hans, fun hc => ?_, nofun⟩
      exact absurd (by rw [hbuf]; exact nofun) (hfree hc)
  | readFail hpc hbuf =>
      rw [hpc] at hans
      exact ⟨hans, fun _ hne => hne rfl, nofun⟩
  | unpark r hpc =>
      rw [hpc] at hans hfree
      exact ⟨hans, hfree, nofun⟩
  | refuse hpc =>
      rw [hpc] at hans
      exact ⟨hans, fun _ => id, nofun⟩
  | dispatch args stop hpc =>
      rw [hpc] at hans hfree
      exact ⟨congrArg (· + 1) hans, fun hc => absurd nofun (hfree hc), nofun⟩
  | flush stop gone hpc hopen =>
      rw [hpc] at hans
      refine ⟨?_, fun hc => ?_, fun hc => ?_⟩
      · cases stop <;> cases gone <;> exact hans
      all_goals
        rw [hopen] at hc
        cases hc
  | flushFail stop hpc hclosed =>
      rw [hpc] at hfree
      exact absurd trivial (hfree hclosed)
  | close hpc =>
      rw [hpc] at hans
      exact ⟨hans, fun _ => id, nofun⟩

/-- `Shutdown` has met its deadline.
Source: `internal/server/shutdown.go` `Shutdown`
Kind: D -/
def ShutdownPC.forced : ShutdownPC → Bool
  | .sweeping true _ => true
  | .closing true _ _ => true
  | .returned true => true
  | _ => false

/-- One step keeps all connections, unless the deadline has passed.
Source: `internal/server/shutdown.go` `Shutdown`
Kind: L -/
theorem kept_step (hg : Guarded s)
    (h : s.shutdown.forced = false → ∀ c k, s.made c = some k → Kept s.inShutdown k)
    (hstep : Step maxConns Clean s s') :
    s'.shutdown.forced = false → ∀ c k, s'.made c = some k → Kept s'.inShutdown k := by
  -- A connection is replaced by one that is kept; the others stay as they are.
  have hput : s.shutdown.forced = false → ∀ {c : ℕ} {k : ConnState}, Kept s.inShutdown k →
      ∀ c' k', (s.put c k).made c' = some k' → Kept s.inShutdown k' := by
    intro hf c k hk c' k' hk'
    rcases made_put hk' with ⟨rfl, rfl⟩ | ⟨-, hold⟩
    · exact hk
    · exact h hf c' k' hold
  cases hstep with
  | newConn hpc => exact fun hf => hput hf ⟨rfl, nofun, nofun⟩
  | spawn c k hpc hk =>
      intro hf
      obtain ⟨k₀, hk₀, hstart⟩ := hg.pending c (.inr hpc)
      rw [hk] at hk₀
      cases hk₀
      have hkept := h hf c k hk
      have hans := hkept.answered
      rw [hstart] at hans
      exact hput hf ⟨hans, fun _ => id, fun hc _ => hkept.last hc (by rw [hstart]; rfl)⟩
  | conn c k k' e hk hserve => exact fun hf => hput hf ((h hf c k hk).step hserve)
  | drop c k hk hpc hmu =>
      intro hf
      have hkept := h hf c k hk
      refine hput hf ⟨?_, fun _ => id, nofun⟩
      have hans := hkept.answered
      rw [hpc] at hans
      exact hans
  | release c k hk hpc =>
      intro hf
      have hans := (h hf c k hk).answered
      rw [hpc] at hans
      exact hput hf ⟨hans, fun _ => id, nofun⟩
  | shutdown hpc =>
      intro hf c k hk
      have hcalm : s.shutdown.forced = false := by rw [hpc]; rfl
      exact (h hcalm c k hk).raise
  | closeIdle c k rest hpc hk hok =>
      intro _
      have hcalm : s.shutdown.forced = false := by rw [hpc]; rfl
      have hflag : s.inShutdown = true := hg.flag (by rw [hpc]; exact nofun)
      exact hput hcalm ⟨(h hcalm c k hk).answered, fun _ => hok k hk, fun _ _ => hflag⟩
  | closeLn _ hpc | sweep hpc | skipActive _ _ _ hpc _ _ _ | findIdle _ _ _ hpc _ _ _
  | swept hpc | countNone hpc _ | countSome hpc _ | tick hpc =>
      exact fun _ => h (by rw [hpc]; rfl)
  | deadline hpc | findAny _ _ hpc _ | closeAny _ _ _ hpc _ | sweptAll hpc =>
      exact nofun
  | _ => exact h

/-- Without a forced end, every dispatched command was answered or is about to be.
Source: `internal/server/shutdown.go` `Shutdown`
Kind: L -/
theorem Reachable.kept (h : Reachable maxConns Clean {} s) (hf : s.shutdown.forced = false) :
    ∀ c k, s.made c = some k → Kept s.inShutdown k := by
  induction h with
  | refl => exact nofun
  | tail hprev hstep ih => exact kept_step (Reachable.guarded hprev) ih hstep hf

/-- **A clean shutdown drops no reply**, as long as `closeIdleConns` closes no connection that has
a command in hand: once `Shutdown` has returned without a deadline error, every command that was
dispatched on a connection had its reply flushed before the server closed the socket.
Source: `internal/server/server_test.go` `TestShutdownInFlightCompletes`
Kind: P
Fidelity: exact -/
theorem replies_delivered (maxConns : ℕ) (s : State) (hreach : Reachable maxConns Clean {} s)
    (hret : s.shutdown = .returned false) (c : ℕ) (k : ConnState) (hk : s.made c = some k) :
    k.flushed = k.dispatched := by
  have hquiet := hreach.guarded.quiet hret c k hk
  have hans := (hreach.kept (by rw [hret]; rfl) c k hk).answered
  cases hpc : k.pc <;> rw [hpc] at hquiet hans <;> first | exact hans.symm | cases hquiet

/-- One `PING` is served, then `Shutdown` closes the idle connection.
Source: `internal/server/server_test.go` `TestShutdownNoNewConnectionAccepted`
Kind: C -/
theorem replies_delivered_idle : ∃ (s : State) (k : ConnState), s.shutdown = .returned false ∧
    s.made 1 = some k ∧ k.dispatched = 1 ∧ k.flushed = k.dispatched := by
  have hrun : ∃ s k, Reachable 10 Clean {} s ∧ s.shutdown = .returned false ∧
      s.made 1 = some k ∧ k.dispatched = 1 := by
    refine ⟨_, _, .head (.serve _ rfl) <| .head (.publish _ rfl rfl rfl) <| .head (.accept _ rfl rfl) <|
      .head (.takeSlot _ rfl (by decide)) <| .head (.newConn _ rfl) <| .head (.addConn _ 1 rfl rfl) <|
      .head (.spawn _ 1 {} rfl rfl) <|
      .head (.conn _ 1 _ _ _ rfl (.goOn _ rfl rfl)) <| .head (.conn _ 1 _ _ _ rfl (.park _ rfl)) <|
      .head (.conn _ 1 _ _ _ rfl (.fill _ [ping] rfl rfl)) <|
      .head (.conn _ 1 _ _ _ rfl (.readCommand _ ping [] rfl rfl)) <|
      .head (.conn _ 1 _ _ _ rfl (.unpark _ _ rfl)) <|
      .head (.conn _ 1 _ _ _ rfl (.dispatch _ _ false rfl)) <|
      .head (.conn _ 1 _ _ _ rfl (.flush _ _ false rfl rfl)) <|
      .head (.conn _ 1 _ _ _ rfl (.goOn _ rfl rfl)) <| .head (.conn _ 1 _ _ _ rfl (.park _ rfl)) <|
      .head (.shutdown _ rfl) <| .head (.closeLn _ true rfl) <| .head (.sweep _ rfl) <|
      .head (.findIdle _ 1 _ _ rfl (by decide) rfl rfl) <| .head (.closeIdle _ 1 _ _ rfl rfl ?_) <|
      .head (.swept _ rfl) <| .head (.countSome _ rfl (by decide)) <|
      .head (.conn _ 1 _ _ _ rfl (.readFail _ rfl rfl)) <|
      .head (.conn _ 1 _ _ _ rfl (.unpark _ _ rfl)) <| .head (.conn _ 1 _ _ _ rfl (.refuse _ rfl)) <|
      .head (.conn _ 1 _ _ _ rfl (.close _ rfl)) <| .head (.drop _ 1 _ rfl rfl rfl) <|
      .head (.tick _ rfl) <| .head (.sweep _ rfl) <| .head (.swept _ rfl) <|
      .head (.countNone _ rfl rfl) .refl, rfl, rfl, rfl⟩
    intro k hk hinhand
    cases hk
    exact hinhand rfl
  obtain ⟨s, k, hreach, hret, hk, hdone⟩ := hrun
  exact ⟨s, k, hret, hk, hdone, replies_delivered 10 s hreach hret 1 k hk⟩

/-- `ReadCommand` has returned `PING` and the connection is not yet marked active when
`closeIdleConns` closes it as idle: the command is executed, its reply is lost, and `Shutdown`
returns without an error.
Source: `internal/server/server.go` `closeIdleConns`; `internal/server/conn.go` `serveConn`
Kind: C -/
theorem reply_dropped : ∃ s k, Reachable 10 (fun _ _ => True) {} s ∧
    s.shutdown = .returned false ∧ s.log = [(1, ping)] ∧ s.made 1 = some k ∧
    k.dispatched = 1 ∧ k.flushed = 0 := by
  exact ⟨_, _, .head (.serve _ rfl) <| .head (.publish _ rfl rfl rfl) <| .head (.accept _ rfl rfl) <|
    .head (.takeSlot _ rfl (by decide)) <| .head (.newConn _ rfl) <| .head (.addConn _ 1 rfl rfl) <|
    .head (.spawn _ 1 {} rfl rfl) <|
    .head (.conn _ 1 _ _ _ rfl (.goOn _ rfl rfl)) <| .head (.conn _ 1 _ _ _ rfl (.park _ rfl)) <|
    .head (.conn _ 1 _ _ _ rfl (.fill _ [ping] rfl rfl)) <|
    .head (.conn _ 1 _ _ _ rfl (.readCommand _ ping [] rfl rfl)) <|
    .head (.shutdown _ rfl) <| .head (.closeLn _ true rfl) <| .head (.sweep _ rfl) <|
    .head (.findIdle _ 1 _ _ rfl (by decide) rfl rfl) <|
    .head (.closeIdle _ 1 _ _ rfl rfl trivial) <|
    .head (.swept _ rfl) <| .head (.countSome _ rfl (by decide)) <|
    .head (.conn _ 1 _ _ _ rfl (.unpark _ _ rfl)) <|
    .head (.conn _ 1 _ _ _ rfl (.dispatch _ _ false rfl)) <|
    .head (.conn _ 1 _ _ _ rfl (.flushFail _ _ rfl rfl)) <|
    .head (.conn _ 1 _ _ _ rfl (.close _ rfl)) <| .head (.drop _ 1 _ rfl rfl rfl) <|
    .head (.tick _ rfl) <| .head (.sweep _ rfl) <| .head (.swept _ rfl) <|
    .head (.countNone _ rfl rfl) .refl, rfl, rfl, rfl, rfl, rfl⟩

end CacheMoney.Server.Lifecycle
