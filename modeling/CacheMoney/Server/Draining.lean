import CacheMoney.Found.Ranked
import CacheMoney.Server.Slots

/-!
# What is left when `Shutdown` has returned

`Shutdown` returns when the connection set is empty, or at its deadline after it has closed every
socket in the set. Goroutines may still run then, and the accept loop may be anywhere.

* `Cut`: the listener is closed once `Shutdown` is past it, and a goroutine in the loop body of
  `serveConn` has its socket closed or is still to be reached by `closeAllConns`.
* `shutdown_cuts_off`: after the return nothing is read from a socket and no reply goes out.
* `server_drains`: after the return the rest of the server ends by itself, and everything is given
  back.
* `shutdown_progresses`: nobody can stop `Shutdown`, and nobody can prolong a sweep.
-/

namespace CacheMoney.Server.Lifecycle

open CacheMoney.Found

variable {maxConns : ℕ} {ok : State → ℕ → Prop} {s s' : State}

/-! ### The listener and the sockets -/

/-- The accept loop has published its listener and has not returned.
Source: `internal/server/server.go` `Serve`
Kind: D -/
def AcceptPC.listening : AcceptPC → Bool
  | .accepting | .accepted | .slotted | .created _ | .added _ => true
  | _ => false

/-- `Shutdown` has closed the listener, if there was one.
Source: `internal/server/shutdown.go` `Shutdown`
Kind: D -/
def ShutdownPC.deaf : ShutdownPC → Bool
  | .notCalled | .closingLn _ => false
  | _ => true

/-- `Shutdown` has not come to its deadline, or `closeAllConns` has still to close the connection.
Source: `internal/server/server.go` `closeAllConns`
Kind: D -/
def ShutdownPC.mayClose : ShutdownPC → ℕ → Prop
  | .sweeping true rest, c => c ∈ rest
  | .closing true c' rest, c => c = c' ∨ c ∈ rest
  | .returned _, _ => False
  | _, _ => True

/-- The goroutine has closed its socket.
Source: `internal/server/server.go` `dropConn`
Kind: D -/
def ServePC.left : ServePC → Bool
  | .dropping | .releasing | .ended => true
  | _ => false

/-- The invariant of the listener and of the sockets.
Source: `internal/server/shutdown.go` `Shutdown`
Kind: D -/
structure Cut (s : State) : Prop where
  listening : s.accept.listening = true → s.lnPublished = true
  known : s.shutdown = .closingLn false → s.lnPublished = false
  deaf : s.shutdown.deaf = true → s.lnPublished = true → s.lnClosed = true
  closed : ∀ c k, s.made c = some k → k.pc.serving = true → k.closed = true ∨ s.shutdown.mayClose c
  left : ∀ c k, s.made c = some k → k.pc.left = true → k.closed = true

/-- A closed connection stays closed.
Source: `internal/server/conn.go` `serveConn`
Kind: L -/
theorem ServeStep.keeps_closed {flag : Bool} {k k' : ConnState} {e : Option (List Bytes)}
    (h : ServeStep flag k e k') (hclosed : k.closed = true) : k'.closed = true := by
  cases h with
  | close hpc => rfl
  | _ => exact hclosed

/-- A goroutine that leaves closes its connection.
Source: `internal/server/conn.go` `serveConn`
Kind: L -/
theorem ServeStep.closes {flag : Bool} {k k' : ConnState} {e : Option (List Bytes)}
    (h : ServeStep flag k e k') (hleft : k'.pc.left = true) : k'.closed = true := by
  cases h with
  | close hpc => rfl
  | fill cmds hpc hopen =>
      simp only at hleft
      rw [hpc] at hleft
      cases hleft
  | flush stop gone hpc hopen => cases stop <;> cases gone <;> cases hleft
  | _ => cases hleft

/-- A goroutine that serves is running.
Source: `internal/server/conn.go` `serveConn`
Kind: L -/
theorem ServePC.running_of_serving {pc : ServePC} (h : pc.serving = true) : pc.running = true := by
  cases pc <;> first | rfl | cases h

/-- A step of the accept loop.
Source: `internal/server/server.go` `Serve`
Kind: L -/
theorem Cut.turn (h : Cut s) {pc : AcceptPC} {lnClosed : Bool} {sem : ℕ}
    (hpc : pc.listening = true → s.accept.listening = true)
    (hclosed : s.lnClosed = true → lnClosed = true) :
    Cut { s with accept := pc, lnClosed := lnClosed, sem := sem } where
  listening hl := h.listening (hpc hl)
  known := h.known
  deaf hd hp := hclosed (h.deaf hd hp)
  closed := h.closed
  left := h.left

/-- A step on one connection.
Source: `internal/server/conn.go` `serveConn`
Kind: L -/
theorem Cut.put (h : Cut s) {c : ℕ} {k : ConnState}
    (hserve : k.pc.serving = true → k.closed = true ∨ s.shutdown.mayClose c)
    (hleft : k.pc.left = true → k.closed = true) : Cut (s.put c k) := by
  refine ⟨h.listening, h.known, h.deaf, ?_, ?_⟩ <;> intro c' k' hk' hpc
  · rcases made_put hk' with ⟨rfl, rfl⟩ | ⟨-, hold⟩
    · exact hserve hpc
    · exact h.closed c' k' hold hpc
  · rcases made_put hk' with ⟨rfl, rfl⟩ | ⟨-, hold⟩
    · exact hleft hpc
    · exact h.left c' k' hold hpc

/-- A step of `Shutdown` behind the listener.
Source: `internal/server/shutdown.go` `Shutdown`
Kind: L -/
theorem Cut.move (h : Cut s) {pc : ShutdownPC} (hdeaf : s.shutdown.deaf = true)
    (hpc : pc ≠ .closingLn false)
    (hclosed : ∀ c k, s.made c = some k → k.pc.serving = true → k.closed = true ∨ pc.mayClose c) :
    Cut { s with shutdown := pc } :=
  ⟨h.listening, fun hp => absurd hp hpc, fun _ => h.deaf hdeaf, hclosed, h.left⟩

/-- One step keeps the listener and the sockets in order.
Source: `internal/server/shutdown.go` `Shutdown`
Kind: L -/
theorem Cut.step (h : Cut s) (hg : Guarded s) (hstep : Step maxConns ok s s') : Cut s' := by
  have hat : ∀ {pc}, s.shutdown = pc → pc.deaf = true → s.shutdown.deaf = true := by
    rintro pc rfl hd
    exact hd
  have hearly : s.inShutdown = false → s.shutdown = .notCalled := by
    intro hflag
    by_contra hne
    rw [hg.flag hne] at hflag
    cases hflag
  cases hstep with
  | serve hpc => exact h.turn nofun id
  | serveRefused hpc hmu hflag => exact h.turn nofun fun _ => rfl
  | publish hpc hmu hflag =>
      have hcalled := hearly hflag
      refine ⟨fun _ => rfl, ?_, ?_, h.closed, h.left⟩
      · intro hp
        cases hcalled.symm.trans hp
      · intro hd
        rw [hcalled] at hd
        cases hd
  | accept hpc hopen => exact h.turn (fun _ => by rw [hpc]; rfl) id
  | acceptFail hpc => exact h.turn nofun id
  | takeSlot hpc hfree => exact h.turn (fun _ => by rw [hpc]; rfl) id
  | rejectConn hpc hfull => exact h.turn (fun _ => by rw [hpc]; rfl) id
  | newConn hpc =>
      have hput := h.put (c := s.nextID + 1) (k := {}) nofun nofun
      exact ⟨fun _ => h.listening (by rw [hpc]; rfl), h.known, h.deaf, hput.closed, hput.left⟩
  | addConn c hpc hmu =>
      exact ⟨fun _ => h.listening (by rw [hpc]; rfl), h.known, h.deaf, h.closed, h.left⟩
  | spawn c k hpc hk =>
      have hput := h.put (c := c) (k := { k with pc := .checking }) nofun nofun
      exact ⟨fun _ => h.listening (by rw [hpc]; rfl), h.known, h.deaf, hput.closed, hput.left⟩
  | conn c k k' e hk hserve =>
      have hput : Cut (s.put c k') := by
        refine h.put ?_ hserve.closes
        intro hserving
        rcases hserve.moves.2.1 hserving with hold | hflag
        · rcases h.closed c k hk hold with hclosed | hmay
          · exact .inl (hserve.keeps_closed hclosed)
          · exact .inr hmay
        · rw [hearly hflag]
          exact .inr trivial
      exact ⟨hput.listening, hput.known, hput.deaf, hput.closed, hput.left⟩
  | drop c k hk hpc hmu =>
      have hclosed : k.closed = true := h.left c k hk (by rw [hpc]; rfl)
      have hput := h.put (c := c) (k := { k with pc := .releasing }) nofun fun _ => hclosed
      exact ⟨hput.listening, hput.known, hput.deaf, hput.closed, hput.left⟩
  | release c k hk hpc =>
      have hclosed : k.closed = true := h.left c k hk (by rw [hpc]; rfl)
      have hput := h.put (c := c) (k := { k with pc := .ended }) nofun fun _ => hclosed
      exact ⟨hput.listening, hput.known, hput.deaf, hput.closed, hput.left⟩
  | shutdown hpc =>
      refine ⟨h.listening, ?_, nofun, fun _ _ _ _ => .inr trivial, h.left⟩
      intro hp
      exact ShutdownPC.closingLn.inj hp
  | closeLn ln hpc =>
      refine ⟨h.listening, nofun, ?_, fun _ _ _ _ => .inr trivial, h.left⟩
      intro _ hpub
      cases ln with
      | false =>
          rw [h.known hpc] at hpub
          cases hpub
      | true => exact Bool.or_true _
  | sweep hpc | swept hpc | countSome hpc hsome | tick hpc
  | skipActive c k rest hpc hc hk hactive | findIdle c k rest hpc hc hk hidle =>
      exact h.move (hat hpc rfl) nofun fun _ _ _ _ => .inr trivial
  | closeIdle c k rest hpc hk hok =>
      have hput := h.put (c := c) (k := { k with closed := true }) (fun _ => .inl rfl) fun _ => rfl
      exact hput.move (hat hpc rfl) nofun fun _ _ _ _ => .inr trivial
  | countNone hpc hnone =>
      refine h.move (hat hpc rfl) nofun ?_
      intro c k hk hserving
      rw [hg.serving_of_empty hnone hk] at hserving
      cases hserving
  | deadline hpc =>
      refine h.move (hat hpc rfl) nofun ?_
      intro c k hk hserving
      exact .inr (hg.tracked c k hk (ServePC.running_of_serving hserving))
  | findAny c rest hpc hc =>
      refine h.move (hat hpc rfl) nofun ?_
      intro c' k hk hserving
      rcases h.closed c' k hk hserving with hclosed | hmay
      · exact .inl hclosed
      · rw [hpc] at hmay
        by_cases heq : c' = c
        · exact .inr (.inl heq)
        · exact .inr (.inr (Finset.mem_erase.mpr ⟨heq, hmay⟩))
  | closeAny c k rest hpc hk =>
      have hput := h.put (c := c) (k := { k with closed := true }) (fun _ => .inl rfl) fun _ => rfl
      refine hput.move (hat hpc rfl) nofun ?_
      intro c' k' hk' hserving
      rcases made_put hk' with ⟨rfl, rfl⟩ | ⟨hne, hold⟩
      · exact .inl rfl
      · rcases h.closed c' k' hold hserving with hclosed | hmay
        · exact .inl hclosed
        · rw [hpc] at hmay
          exact .inr (hmay.resolve_left hne)
  | sweptAll hpc =>
      refine h.move (hat hpc rfl) nofun ?_
      intro c k hk hserving
      rcases h.closed c k hk hserving with hclosed | hmay
      · exact .inl hclosed
      · rw [hpc] at hmay
        exact absurd hmay (Finset.notMem_empty c)

/-- Every reachable state has the invariant of the listener and of the sockets.
Source: `internal/server/shutdown.go` `Shutdown`
Kind: L -/
theorem Reachable.cut (h : Reachable maxConns ok {} s) : Cut s := by
  induction h with
  | refl => exact ⟨nofun, nofun, nofun, nofun, nofun⟩
  | tail hprev hstep ih => exact ih.step (Reachable.guarded hprev) hstep

/-! ### Winding down -/

/-- The command that a goroutine may still dispatch before it comes to its check of the flag.
Source: `internal/server/conn.go` `serveConn`
Kind: D -/
def ServePC.room : ServePC → ℕ
  | .parking | .reading | .returned (some _) | .handling (some _) => 1
  | _ => 0

/-- The steps that a goroutine has before it when the flag is up and its socket is closed.
Source: `internal/server/conn.go` `serveConn`
Kind: D -/
def ServePC.rank : ServePC → ℕ
  | .ended => 0
  | .releasing => 1
  | .dropping => 2
  | .closing => 3
  | .checking => 4
  | .starting | .flushing _ => 5
  | .handling _ => 6
  | .returned _ => 7
  | .reading => 8
  | .parking => 9

/-- The steps that the accept loop has before it when the listener is closed, and those of the
connection that it may still make.
Source: `internal/server/server.go` `Serve`
Kind: D -/
def AcceptPC.rank : AcceptPC → ℕ
  | .returned => 0
  | .publishing | .accepting => 1
  | .notServing | .added _ => 2
  | .created _ => 3
  | .slotted => 9
  | .accepted => 10

/-- Source: none
Kind: D -/
def State.rank (s : State) : ℕ := (s.total fun k => k.pc.rank) + s.accept.rank

/-- What a connection does from `k` to `k'` once the server is shut: it flushes nothing, dispatches
at most the command it has at hand, and reads only what is buffered.
Source: `internal/server/conn.go` `serveConn`
Kind: D -/
structure Finishes (k k' : ConnState) : Prop where
  flushed : k'.flushed = k.flushed
  dispatched : k'.dispatched + k'.pc.room ≤ k.dispatched + k.pc.room
  buffered : k'.buffered <:+ k.buffered

/-- A connection that does not move finishes what it has begun.
Source: `internal/server/conn.go` `serveConn`
Kind: L -/
theorem Finishes.refl (k : ConnState) : Finishes k k := ⟨rfl, le_rfl, List.suffix_refl _⟩

/-- What is finished in two steps is finished.
Source: `internal/server/conn.go` `serveConn`
Kind: L -/
theorem Finishes.trans {k k' k'' : ConnState} (h : Finishes k k') (h' : Finishes k' k'') :
    Finishes k k'' :=
  ⟨h'.flushed.trans h.flushed, h'.dispatched.trans h.dispatched, h'.buffered.trans h.buffered⟩

/-- A step of `serveConn` with the flag up and the socket closed.
Source: `internal/server/conn.go` `serveConn`
Kind: L -/
theorem ServeStep.finishes {k k' : ConnState} {e : Option (List Bytes)} (h : ServeStep true k e k')
    (hclosed : k.pc.serving = true → k.closed = true) :
    Finishes k k' ∧ k'.pc.rank < k.pc.rank := by
  cases h with
  | goOn hpc hflag => cases hflag
  | fill cmds hpc hopen =>
      rw [hclosed (by rw [hpc]; rfl)] at hopen
      cases hopen
  | flush stop gone hpc hopen =>
      rw [hclosed (by rw [hpc]; rfl)] at hopen
      cases hopen
  | readCommand args rest hpc hbuf =>
      refine ⟨⟨rfl, ?_, ?_⟩, ?_⟩
      · rw [hpc]
        exact le_rfl
      · rw [hbuf]
        exact List.suffix_cons args rest
      · rw [hpc]
        exact Nat.lt_succ_self 7
  | stop hpc hflag | park hpc | readFail hpc hbuf | refuse hpc | flushFail stop hpc hshut
  | close hpc =>
      refine ⟨⟨rfl, ?_, List.suffix_refl _⟩, ?_⟩ <;> rw [hpc] <;> simp [ServePC.room, ServePC.rank]
  | unpark r hpc =>
      refine ⟨⟨rfl, ?_, List.suffix_refl _⟩, ?_⟩ <;> rw [hpc] <;> cases r <;>
        simp [ServePC.room, ServePC.rank]
  | dispatch args stop hpc =>
      refine ⟨⟨rfl, ?_, List.suffix_refl _⟩, ?_⟩ <;> rw [hpc] <;> simp [ServePC.room, ServePC.rank]

/-- `Shutdown` has returned, and all the invariants hold.
Source: `internal/server/shutdown.go` `Shutdown`
Kind: D -/
structure Stopped (maxConns : ℕ) (s : State) : Prop where
  guarded : Guarded s
  slots : Slots maxConns s
  cut : Cut s
  returned : ∃ deadline, s.shutdown = .returned deadline

/-- After `Shutdown` has returned the server is stopped.
Source: `internal/server/shutdown.go` `Shutdown`
Kind: L -/
theorem Reachable.stopped (h : Reachable maxConns ok {} s) {deadline : Bool}
    (hret : s.shutdown = .returned deadline) : Stopped maxConns s :=
  ⟨h.guarded, h.slots, h.cut, deadline, hret⟩

/-- A stopped server is in shutdown.
Source: `internal/server/shutdown.go` `Shutdown`
Kind: L -/
theorem Stopped.flag (h : Stopped maxConns s) : s.inShutdown = true := by
  obtain ⟨d, hret⟩ := h.returned
  exact h.guarded.flag (by rw [hret]; exact nofun)

/-- In a stopped server `Shutdown` holds no lock.
Source: `internal/server/shutdown.go` `Shutdown`
Kind: L -/
theorem Stopped.unlocked (h : Stopped maxConns s) : s.shutdown.locks = false := by
  obtain ⟨d, hret⟩ := h.returned
  rw [hret]
  rfl

/-- In a stopped server the connections that are served are closed.
Source: `internal/server/shutdown.go` `Shutdown`
Kind: L -/
theorem Stopped.closed (h : Stopped maxConns s) {c : ℕ} {k : ConnState} (hk : s.made c = some k)
    (hserving : k.pc.serving = true) : k.closed = true := by
  obtain ⟨d, hret⟩ := h.returned
  have hclosed := h.cut.closed c k hk hserving
  rw [hret] at hclosed
  exact hclosed.resolve_right id

/-- In a stopped server the listener is closed.
Source: `internal/server/shutdown.go` `Shutdown`
Kind: L -/
theorem Stopped.lnClosed (h : Stopped maxConns s) (hl : s.accept.listening = true) :
    s.lnClosed = true := by
  obtain ⟨d, hret⟩ := h.returned
  exact h.cut.deaf (by rw [hret]; rfl) (h.cut.listening hl)

/-- All that a step can do when `Shutdown` has returned: the accept loop moves on, or it makes the
one connection that it had accepted, or a connection finishes.
Source: `internal/server/server.go` `Serve`; `internal/server/conn.go` `serveConn`
Kind: D -/
inductive WindsDown (s s' : State) : Prop where
  | accept (hmade : s'.made = s.made) (hid : s'.nextID = s.nextID)
      (hrank : s'.accept.rank < s.accept.rank)
  | newConn (hmade : s'.made = (s.put (s.nextID + 1) {}).made) (hid : s'.nextID = s.nextID + 1)
      (hrank : s'.accept.rank + 5 < s.accept.rank)
  | conn (c : ℕ) (k k' : ConnState) (hk : s.made c = some k) (hmade : s'.made = (s.put c k').made)
      (hid : s'.nextID = s.nextID) (hfin : Finishes k k') (hrank : k'.pc.rank < k.pc.rank)
      (haccept : s'.accept.rank ≤ s.accept.rank)

/-- A stopped server only winds down.
Source: `internal/server/server.go` `Serve`; `internal/server/conn.go` `serveConn`
Kind: L -/
theorem Stopped.windsDown (h : Stopped maxConns s) (hstep : Step maxConns ok s s') :
    WindsDown s s' ∧ s'.shutdown = s.shutdown := by
  obtain ⟨d, hret⟩ := h.returned
  cases hstep with
  | serve hpc => exact ⟨.accept rfl rfl (by rw [hpc]; exact Nat.lt_succ_self 1), rfl⟩
  | serveRefused hpc hmu hflag => exact ⟨.accept rfl rfl (by rw [hpc]; exact Nat.zero_lt_one), rfl⟩
  | publish hpc hmu hflag =>
      rw [h.flag] at hflag
      cases hflag
  | accept hpc hopen =>
      rw [h.lnClosed (by rw [hpc]; rfl)] at hopen
      cases hopen
  | acceptFail hpc => exact ⟨.accept rfl rfl (by rw [hpc]; exact Nat.zero_lt_one), rfl⟩
  | takeSlot hpc hfree => exact ⟨.accept rfl rfl (by rw [hpc]; exact Nat.lt_succ_self 9), rfl⟩
  | rejectConn hpc hfull => exact ⟨.accept rfl rfl (by rw [hpc]; exact show 1 < 10 by decide), rfl⟩
  | newConn hpc => exact ⟨.newConn rfl rfl (by rw [hpc]; exact Nat.lt_succ_self 8), rfl⟩
  | addConn c hpc hmu => exact ⟨.accept rfl rfl (by rw [hpc]; exact Nat.lt_succ_self 2), rfl⟩
  | spawn c k hpc hk =>
      obtain ⟨k₀, hk₀, hstart⟩ := h.guarded.pending c (.inr hpc)
      obtain rfl : k₀ = k := Option.some.inj (hk₀.symm.trans hk)
      refine ⟨.conn c k₀ _ hk rfl rfl ⟨rfl, ?_, List.suffix_refl _⟩ ?_ ?_, rfl⟩
      · rw [hstart]
        exact le_rfl
      · rw [hstart]
        exact Nat.lt_succ_self 4
      · rw [hpc]
        exact Nat.le_succ 1
  | conn c k k' e hk hserve =>
      rw [h.flag] at hserve
      obtain ⟨hfin, hrank⟩ := hserve.finishes (h.closed hk)
      exact ⟨.conn c k k' hk rfl rfl hfin hrank le_rfl, rfl⟩
  | drop c k hk hpc hmu =>
      refine ⟨.conn c k _ hk rfl rfl ⟨rfl, ?_, List.suffix_refl _⟩ ?_ le_rfl, rfl⟩ <;> rw [hpc]
      · exact le_rfl
      · exact Nat.lt_succ_self 1
  | release c k hk hpc =>
      refine ⟨.conn c k _ hk rfl rfl ⟨rfl, ?_, List.suffix_refl _⟩ ?_ le_rfl, rfl⟩ <;> rw [hpc]
      · exact le_rfl
      · exact Nat.zero_lt_one
  | shutdown hpc | closeLn _ hpc | sweep hpc | skipActive _ _ _ hpc _ _ _
  | findIdle _ _ _ hpc _ _ _ | closeIdle _ _ _ hpc _ _ | swept hpc | countNone hpc _
  | countSome hpc _ | tick hpc | deadline hpc | findAny _ _ hpc _ | closeAny _ _ _ hpc _
  | sweptAll hpc =>
      rw [hret] at hpc
      cases hpc

/-- A total over the connections depends on the connections only.
Source: none
Kind: L -/
theorem State.total_congr (f : ConnState → ℕ) (hmade : s'.made = s.made)
    (hid : s'.nextID = s.nextID) : s'.total f = s.total f := by
  unfold State.total
  rw [hmade, hid]

/-- Winding down lowers the rank.
Source: `internal/server/server.go` `Serve`; `internal/server/conn.go` `serveConn`
Kind: L -/
theorem WindsDown.rank_lt (h : WindsDown s s') (hslots : Slots maxConns s) : s'.rank < s.rank := by
  unfold State.rank
  cases h with
  | accept hmade hid hrank =>
      rw [State.total_congr _ hmade hid]
      exact Nat.add_lt_add_left hrank _
  | newConn hmade hid hrank =>
      have hnew := @State.total_new s (fun k => k.pc.rank) {} s'.accept
      rw [State.total_congr _ (s := { s.put (s.nextID + 1) {} with
        nextID := s.nextID + 1, accept := s'.accept }) hmade hid, hnew]
      have hstart : (ConnState.pc {}).rank = 5 := rfl
      simp only [hstart]
      omega
  | conn c k k' hk hmade hid hfin hrank haccept =>
      have hput := State.total_put (fun k => k.pc.rank) hk (hslots.fresh c k hk) k'
      rw [State.total_congr _ (s := s.put c k') hmade hid]
      omega

/-- A step after the return brings the server nearer to its rest.
Source: `internal/server/shutdown.go` `Shutdown`
Kind: L -/
theorem Stopped.step (h : Stopped maxConns s) (hstep : Step maxConns ok s s') :
    Stopped maxConns s' ∧ s'.rank < s.rank := by
  obtain ⟨hwinds, hsame⟩ := h.windsDown hstep
  obtain ⟨d, hret⟩ := h.returned
  exact ⟨⟨h.guarded.step hstep, h.slots.step h.guarded hstep, h.cut.step h.guarded hstep, d,
    hsame.trans hret⟩, hwinds.rank_lt h.slots⟩

/-- What a run makes of every connection, also of those it makes itself.
Source: `internal/server/conn.go` `serveConn`
Kind: D -/
def State.Follows (s s' : State) : Prop :=
  ∀ c, (s'.made c = none → s.made c = none) ∧
    ∀ k', s'.made c = some k' → Finishes ((s.made c).getD {}) k'

/-- A state follows itself.
Source: `internal/server/conn.go` `serveConn`
Kind: L -/
theorem State.Follows.refl (s : State) : s.Follows s := by
  intro c
  refine ⟨id, fun k hk => ?_⟩
  rw [hk]
  exact .refl k

/-- Following is transitive.
Source: `internal/server/conn.go` `serveConn`
Kind: L -/
theorem State.Follows.trans {s'' : State} (h : s.Follows s') (h' : s'.Follows s'') :
    s.Follows s'' := by
  intro c
  refine ⟨fun hnone => (h c).1 ((h' c).1 hnone), fun k'' hk'' => ?_⟩
  have hlast := (h' c).2 k'' hk''
  cases hmade : s'.made c with
  | none =>
      rw [hmade] at hlast
      rw [(h c).1 hmade]
      exact hlast
  | some k' =>
      rw [hmade] at hlast
      exact ((h c).2 k' hmade).trans hlast

/-- A connection that finishes what it has begun leaves a state that follows.
Source: `internal/server/conn.go` `serveConn`
Kind: L -/
theorem State.follows_put {c : ℕ} {k : ConnState} (hmade : s'.made = (s.put c k).made)
    (hk : Finishes ((s.made c).getD {}) k) : s.Follows s' := by
  intro c'
  rw [hmade]
  by_cases heq : c' = c
  · subst heq
    rw [made_put_self]
    refine ⟨nofun, ?_⟩
    rintro k' ⟨⟩
    exact hk
  · rw [made_put_ne k heq]
    exact State.Follows.refl s c'

/-- Winding down finishes what every connection has begun.
Source: `internal/server/conn.go` `serveConn`
Kind: L -/
theorem WindsDown.follows (h : WindsDown s s') (hslots : Slots maxConns s) : s.Follows s' := by
  cases h with
  | accept hmade hid hrank =>
      unfold State.Follows
      rw [hmade]
      exact State.Follows.refl s
  | newConn hmade hid hrank =>
      apply State.follows_put hmade
      have hnone : s.made (s.nextID + 1) = none := by
        by_contra hne
        obtain ⟨k, hk⟩ := Option.ne_none_iff_exists'.mp hne
        exact absurd (hslots.fresh _ k hk) (Nat.not_succ_le_self _)
      rw [hnone]
      exact .refl _
  | conn c k k' hk hmade hid hfin hrank haccept =>
      apply State.follows_put hmade
      rw [hk]
      exact hfin

/-- A run after the return.
Source: `internal/server/shutdown.go` `Shutdown`
Kind: L -/
theorem Stopped.run (h : Stopped maxConns s) (hafter : Reachable maxConns ok s s') :
    Stopped maxConns s' ∧ s.Follows s' := by
  induction hafter with
  | refl => exact ⟨h, .refl s⟩
  | tail _ hstep ih =>
      obtain ⟨hstopped, hfollows⟩ := ih
      exact ⟨(hstopped.step hstep).1,
        hfollows.trans ((hstopped.windsDown hstep).1.follows hstopped.slots)⟩

/-- Where no step is possible, all is given back.
Source: `internal/server/server.go` `Serve`, `dropConn`
Kind: L -/
theorem Stopped.at_rest (h : Stopped maxConns s)
    (hrest : ∀ s', ¬Step maxConns (fun _ _ => True) s s') :
    s.accept = .returned ∧ s.conns = ∅ ∧ s.sem = 0 ∧
      ∀ c k, s.made c = some k → k.pc = .ended ∧ k.closed = true := by
  have haccept : s.accept = .returned := by
    cases hpc : s.accept with
    | notServing => exact absurd (.serve s hpc) (hrest _)
    | publishing => exact absurd (.serveRefused s hpc h.unlocked h.flag) (hrest _)
    | accepting => exact absurd (.acceptFail s hpc) (hrest _)
    | accepted =>
        by_cases hfree : s.sem < maxConns
        · exact absurd (.takeSlot s hpc hfree) (hrest _)
        · exact absurd (.rejectConn s hpc hfree) (hrest _)
    | slotted => exact absurd (.newConn s hpc) (hrest _)
    | created c => exact absurd (.addConn s c hpc h.unlocked) (hrest _)
    | added c =>
        obtain ⟨k, hk, -⟩ := h.guarded.pending c (.inr hpc)
        exact absurd (.spawn s c k hpc hk) (hrest _)
    | returned => rfl
  have hended : ∀ c k, s.made c = some k → k.pc = .ended := by
    intro c k hk
    have hserve : ∀ {e k'}, ¬ServeStep s.inShutdown k e k' :=
      fun hstep => hrest _ (.conn s c k _ _ hk hstep)
    cases hpc : k.pc with
    | starting =>
        rcases h.slots.waits c k hk hpc with hc | hc <;> rw [haccept] at hc <;> cases hc
    | checking => exact absurd (.stop k hpc h.flag) hserve
    | parking => exact absurd (.park k hpc) hserve
    | reading =>
        cases hbuf : k.buffered with
        | nil => exact absurd (.readFail k hpc hbuf) hserve
        | cons args rest => exact absurd (.readCommand k args rest hpc hbuf) hserve
    | returned r => exact absurd (.unpark k r hpc) hserve
    | handling r =>
        cases r with
        | none => exact absurd (.refuse k hpc) hserve
        | some args => exact absurd (.dispatch k args false hpc) hserve
    | flushing stop =>
        exact absurd (.flushFail k stop hpc (h.closed hk (by rw [hpc]; rfl))) hserve
    | closing => exact absurd (.close k hpc) hserve
    | dropping => exact absurd (.drop s c k hk hpc h.unlocked) (hrest _)
    | releasing => exact absurd (.release s c k hk hpc) (hrest _)
    | ended => rfl
  refine ⟨haccept, ?_, ?_, ?_⟩
  · apply Finset.eq_empty_of_forall_notMem
    intro c hc
    obtain ⟨k, hk, hlist⟩ := h.slots.listed c hc
    rw [hended c k hk] at hlist
    cases hlist
  · rw [h.slots.taken, haccept, show AcceptPC.returned.slot = 0 from rfl, Nat.add_zero]
    apply Finset.sum_eq_zero
    intro c _
    cases hk : s.made c with
    | none => rfl
    | some k =>
        show k.pc.slot = 0
        rw [hended c k hk]
        rfl
  · intro c k hk
    have hpc := hended c k hk
    exact ⟨hpc, h.cut.left c k hk (by rw [hpc]; rfl)⟩

/-- **The server drains by itself.** Once `Shutdown` has returned, cleanly or at its deadline, the
accept loop and the goroutines take at most `s.rank` more steps together, whatever their order and
whatever clients do. The run comes to a state where no step is possible, and in every such state
the accept loop has returned, every connection that was ever made has ended with its socket closed,
the connection set is empty and every slot of the semaphore is free.
Source: `internal/server/shutdown.go` `Shutdown`; `internal/server/server.go` `Serve`, `dropConn`;
`internal/server/conn.go` `serveConn`
Kind: P
Fidelity: exact -/
theorem server_drains (maxConns : ℕ) (s : State) (deadline : Bool)
    (hreach : Reachable maxConns (fun _ _ => True) {} s)
    (hret : s.shutdown = .returned deadline) :
    (∀ n (run : ℕ → State), run 0 = s →
      (∀ i < n, Step maxConns (fun _ _ => True) (run i) (run (i + 1))) → n ≤ s.rank) ∧
    (∃ s', Reachable maxConns (fun _ _ => True) s s' ∧
      ∀ s'', ¬Step maxConns (fun _ _ => True) s' s'') ∧
    ∀ s', Reachable maxConns (fun _ _ => True) s s' →
      (∀ s'', ¬Step maxConns (fun _ _ => True) s' s'') →
      s'.accept = .returned ∧ s'.conns = ∅ ∧ s'.sem = 0 ∧
        ∀ c k, s'.made c = some k → k.pc = .ended ∧ k.closed = true := by
  have hstopped := hreach.stopped hret
  have hdrops : ∀ a b, Stopped maxConns a → Step maxConns (fun _ _ => True) a b →
      Stopped maxConns b ∧ b.rank < a.rank := fun a b ha hstep => ha.step hstep
  refine ⟨?_, exists_rest hdrops hstopped, ?_⟩
  · rintro n run rfl hrun
    exact length_le_rank hdrops n run hstopped hrun
  · intro s' hafter hrest
    exact (hstopped.run hafter).1.at_rest hrest

/-- When `Shutdown` has returned, one goroutine is about to give its slot back and the accept loop is
about to register another connection. In the end both connections are over and both slots free.
Source: `internal/server/shutdown.go` `Shutdown`; `internal/server/server.go` `Serve`
Kind: C -/
theorem server_drains_late : ∃ (s s' : State) (k : ConnState),
    Reachable 10 (fun _ _ => True) {} s ∧ s.shutdown = .returned false ∧ s.made 1 = some k ∧
    k.pc = .releasing ∧ s.accept = .created 2 ∧ Reachable 10 (fun _ _ => True) s s' ∧
    s'.accept = .returned ∧ s'.conns = ∅ ∧ s'.sem = 0 ∧
    ∀ c k', s'.made c = some k' → k'.pc = .ended ∧ k'.closed = true := by
  obtain ⟨s, k, -, hs, hret, -, hk, hpc, haccept, -, -⟩ := clean_shutdown_run
  obtain ⟨-, ⟨s', hafter, hrest⟩, hdone⟩ := server_drains 10 s false hs hret
  exact ⟨s, s', k, hs, hret, hk, hpc, haccept, hafter, hdone s' hafter hrest⟩

/-- The steps that a sweep has before it.
Source: `internal/server/server.go` `closeIdleConns`, `closeAllConns`
Kind: D -/
def ShutdownPC.work : ShutdownPC → ℕ
  | .sweeping _ rest => 2 * rest.card + 1
  | .closing _ _ rest => 2 * rest.card + 2
  | _ => 0

/-- `Shutdown` can always take its next step.
Source: `internal/server/shutdown.go` `Shutdown`
Kind: L -/
theorem Slots.shutdown_moves (h : Slots maxConns s) (hcalled : s.shutdown ≠ .notCalled)
    (hruns : ∀ deadline, s.shutdown ≠ .returned deadline) :
    ∃ s', Step maxConns (fun _ _ => True) s s' ∧ s'.shutdown ≠ s.shutdown := by
  have hmade : ∀ {pc}, s.shutdown = pc → ∀ c ∈ pc.targets, ∃ k, s.made c = some k := by
    rintro pc rfl
    exact h.swept
  cases hpc : s.shutdown with
  | notCalled => exact absurd hpc hcalled
  | returned deadline => exact absurd hpc (hruns deadline)
  | closingLn ln => exact ⟨_, .closeLn s ln hpc, nofun⟩
  | looping => exact ⟨_, .sweep s hpc, nofun⟩
  | counting =>
      by_cases hnone : s.conns = ∅
      · exact ⟨_, .countNone s hpc hnone, nofun⟩
      · exact ⟨_, .countSome s hpc hnone, nofun⟩
  | waiting => exact ⟨_, .tick s hpc, nofun⟩
  | sweeping all rest =>
      rcases rest.eq_empty_or_nonempty with rfl | ⟨c, hc⟩
      · cases all with
        | false => exact ⟨_, .swept s hpc, nofun⟩
        | true => exact ⟨_, .sweptAll s hpc, nofun⟩
      · obtain ⟨k, hk⟩ := hmade hpc c hc
        cases all with
        | true => exact ⟨_, .findAny s c rest hpc hc, nofun⟩
        | false =>
            cases hactive : k.active with
            | false => exact ⟨_, .findIdle s c k rest hpc hc hk hactive, nofun⟩
            | true =>
                refine ⟨_, .skipActive s c k rest hpc hc hk hactive, ?_⟩
                intro heq
                have hrest : rest.erase c = rest := (ShutdownPC.sweeping.inj heq).2
                exact Finset.notMem_erase c rest (hrest.symm ▸ hc)
  | closing all c rest =>
      obtain ⟨k, hk⟩ := hmade hpc c (Finset.mem_insert_self c rest)
      cases all with
      | false => exact ⟨_, .closeIdle s c k rest hpc hk trivial, nofun⟩
      | true => exact ⟨_, .closeAny s c k rest hpc hk, nofun⟩

/-- A run in which `Shutdown` takes `n` steps, and the accept loop and the goroutines any number.
Every step of `Shutdown` changes where it stands, and no other step does.
Source: `internal/server/shutdown.go` `Shutdown`
Kind: D -/
inductive ShutdownRun (maxConns : ℕ) : ℕ → State → State → Prop where
  | refl (s : State) : ShutdownRun maxConns 0 s s
  | other {n : ℕ} {s s₁ s' : State} (hstep : Step maxConns (fun _ _ => True) s s₁)
      (hsame : s₁.shutdown = s.shutdown) (hrun : ShutdownRun maxConns n s₁ s') :
      ShutdownRun maxConns n s s'
  | own {n : ℕ} {s s₁ s' : State} (hstep : Step maxConns (fun _ _ => True) s s₁)
      (hmoved : s₁.shutdown ≠ s.shutdown) (hrun : ShutdownRun maxConns n s₁ s') :
      ShutdownRun maxConns (n + 1) s s'

/-- A step of `Shutdown` inside a sweep brings the end of the sweep nearer. In the forced sweep there
is no other way to the end than one step after the other.
Source: `internal/server/server.go` `closeIdleConns`, `closeAllConns`
Kind: L -/
theorem work_step (hstep : Step maxConns ok s s') (hlocks : s.shutdown.locks = true)
    (hmoved : s'.shutdown ≠ s.shutdown) :
    s'.shutdown.work < s.shutdown.work ∧
      (s.shutdown.forced = true →
        s'.shutdown.forced = true ∧ s'.shutdown.work + 1 = s.shutdown.work) := by
  cases hstep with
  | shutdown hpc | closeLn _ hpc | sweep hpc | countNone hpc _ | countSome hpc _ | tick hpc
  | deadline hpc =>
      rw [hpc] at hlocks
      cases hlocks
  | skipActive c k rest hpc hc hk hactive | findIdle c k rest hpc hc hk hidle =>
      have hcard := Finset.card_erase_add_one hc
      rw [hpc]
      refine ⟨?_, nofun⟩
      simp only [ShutdownPC.work]
      omega
  | findAny c rest hpc hc =>
      have hcard := Finset.card_erase_add_one hc
      rw [hpc]
      simp only [ShutdownPC.work]
      exact ⟨by omega, fun _ => ⟨rfl, by omega⟩⟩
  | closeIdle c k rest hpc hk hok =>
      rw [hpc]
      exact ⟨Nat.lt_succ_self _, nofun⟩
  | closeAny c k rest hpc hk =>
      rw [hpc]
      exact ⟨Nat.lt_succ_self _, fun _ => ⟨rfl, rfl⟩⟩
  | swept hpc =>
      rw [hpc]
      exact ⟨Nat.zero_lt_succ _, nofun⟩
  | sweptAll hpc =>
      rw [hpc]
      exact ⟨Nat.zero_lt_succ _, fun _ => ⟨rfl, rfl⟩⟩
  | _ => exact absurd rfl hmoved

/-- Past the deadline `Shutdown` is in its last sweep, with the mutex, or has returned.
Source: `internal/server/shutdown.go` `Shutdown`
Kind: L -/
theorem ShutdownPC.forced_cases {pc : ShutdownPC} (h : pc.forced = true) :
    pc = .returned true ∨ pc.locks = true ∧ 0 < pc.work := by
  cases pc with
  | returned deadline =>
      cases deadline with
      | true => exact .inl rfl
      | false => cases h
  | sweeping all rest => exact .inr ⟨rfl, Nat.zero_lt_succ _⟩
  | closing all c rest => exact .inr ⟨rfl, Nat.zero_lt_succ _⟩
  | _ => cases h

/-- Once `Shutdown` has returned it takes no further step.
Source: `internal/server/shutdown.go` `Shutdown`
Kind: L -/
theorem returned_stays (hstep : Step maxConns ok s s') {deadline : Bool}
    (hret : s.shutdown = .returned deadline) : s'.shutdown = s.shutdown := by
  cases hstep with
  | shutdown hpc | closeLn _ hpc | sweep hpc | countNone hpc _ | countSome hpc _ | tick hpc
  | deadline hpc | swept hpc | sweptAll hpc =>
      rw [hpc] at hret
      cases hret
  | skipActive c k rest hpc | findIdle c k rest hpc | findAny c rest hpc | closeIdle c k rest hpc
  | closeAny c k rest hpc =>
      rw [hpc] at hret
      cases hret
  | _ => rfl

/-- Over a whole run every sweep ends: after at most `work` steps of its own `Shutdown` has let the
mutex go, whatever the others did in between.
Source: `internal/server/server.go` `closeIdleConns`, `closeAllConns`
Kind: L -/
theorem ShutdownRun.releases {n : ℕ} (hrun : ShutdownRun maxConns n s s')
    (hwork : s.shutdown.work ≤ n) :
    ∃ k s₁, k ≤ s.shutdown.work ∧ ShutdownRun maxConns k s s₁ ∧
      ShutdownRun maxConns (n - k) s₁ s' ∧ s₁.shutdown.locks = false := by
  cases hlocks : s.shutdown.locks with
  | false => exact ⟨0, s, Nat.zero_le _, .refl s, hrun, hlocks⟩
  | true =>
      induction hrun with
      | refl s =>
          -- Without a step there is no work, and who has no work holds no mutex.
          have hzero := Nat.le_zero.mp hwork
          cases hpc : s.shutdown with
          | sweeping all rest => simp [hpc, ShutdownPC.work] at hzero
          | closing all c rest => simp [hpc, ShutdownPC.work] at hzero
          | _ => simp [hpc, ShutdownPC.locks] at hlocks
      | @other n s s₁ s' hstep hsame hrest ih =>
          rw [← hsame] at hwork hlocks
          obtain ⟨k, s₂, hk, hto, hfrom, hfree⟩ := ih hwork hlocks
          exact ⟨k, s₂, hsame ▸ hk, .other hstep hsame hto, hfrom, hfree⟩
      | @own n s s₁ s' hstep hmoved hrest ih =>
          have hless := (work_step hstep hlocks hmoved).1
          cases hlocks₁ : s₁.shutdown.locks with
          | false =>
              exact ⟨1, s₁, by omega, .own hstep hmoved (.refl s₁), hrest, hlocks₁⟩
          | true =>
              obtain ⟨k, s₂, hk, hto, hfrom, hfree⟩ := ih (by omega) hlocks₁
              refine ⟨k + 1, s₂, by omega, .own hstep hmoved hto, ?_, hfree⟩
              rwa [Nat.add_sub_add_right]

/-- Over a whole run past the deadline every step of `Shutdown` is one less to take.
Source: `internal/server/shutdown.go` `Shutdown`; `internal/server/server.go` `closeAllConns`
Kind: L -/
theorem ShutdownRun.forced {n : ℕ} (hrun : ShutdownRun maxConns n s s')
    (hforced : s.shutdown.forced = true) :
    s'.shutdown.forced = true ∧ s'.shutdown.work + n = s.shutdown.work := by
  induction hrun with
  | refl s => exact ⟨hforced, rfl⟩
  | other hstep hsame hrest ih =>
      rw [← hsame] at hforced ⊢
      exact ih hforced
  | own hstep hmoved hrest ih =>
      rcases ShutdownPC.forced_cases hforced with hret | ⟨hlocks, -⟩
      · exact absurd (returned_stays hstep hret) hmoved
      · obtain ⟨hforced₁, hone⟩ := (work_step hstep hlocks hmoved).2 hforced
        obtain ⟨hforced', hwork⟩ := ih hforced₁
        exact ⟨hforced', by omega⟩

/-- The deadline starts the last sweep, over all connections there are.
Source: `internal/server/shutdown.go` `Shutdown`
Kind: L -/
theorem work_deadline (hstep : Step maxConns ok s s') (hwaits : s.shutdown = .waiting)
    (hforced : s'.shutdown.forced = true) : s'.shutdown.work = 2 * s.conns.card + 1 := by
  cases hstep with
  | shutdown hpc | closeLn _ hpc | sweep hpc | countNone hpc _ | countSome hpc _ | swept hpc
  | sweptAll hpc =>
      rw [hpc] at hwaits
      cases hwaits
  | skipActive c k rest hpc | findIdle c k rest hpc | findAny c rest hpc | closeIdle c k rest hpc
  | closeAny c k rest hpc =>
      rw [hpc] at hwaits
      cases hwaits
  | deadline hpc => rfl
  | tick hpc => cases hforced
  | _ =>
      have hsame : s.shutdown.forced = true := hforced
      rw [hwaits] at hsame
      cases hsame

/-- **`Shutdown` cannot be stopped.** From its call to its return, `Shutdown` always has a step of
its own to take, whatever the accept loop and the goroutines are doing. In every run a sweep over
the connections lets the mutex go after at most `work` of its own steps, however many steps the
others take in between. And in every run that goes on from the expired deadline, with `n`
connections registered, `Shutdown` has returned exactly when it has taken `2 * n + 1` steps: no
connection can keep it from returning.
Source: `internal/server/shutdown.go` `Shutdown`; `internal/server/server.go` `closeIdleConns`,
`closeAllConns`
Kind: P
Fidelity: exact -/
theorem shutdown_progresses (maxConns : ℕ) (s : State)
    (hreach : Reachable maxConns (fun _ _ => True) {} s) (hcalled : s.shutdown ≠ .notCalled)
    (hruns : ∀ deadline, s.shutdown ≠ .returned deadline) :
    (∃ s', Step maxConns (fun _ _ => True) s s' ∧ s'.shutdown ≠ s.shutdown) ∧
    (∀ n s', ShutdownRun maxConns n s s' → s.shutdown.work ≤ n →
      ∃ k s₁, k ≤ s.shutdown.work ∧ ShutdownRun maxConns k s s₁ ∧
        ShutdownRun maxConns (n - k) s₁ s' ∧ s₁.shutdown.locks = false) ∧
    (s.shutdown = .waiting → ∀ s₁, Step maxConns (fun _ _ => True) s s₁ →
      s₁.shutdown.forced = true → ∀ n s', ShutdownRun maxConns n s₁ s' →
        n ≤ 2 * s.conns.card + 1 ∧
        (n = 2 * s.conns.card + 1 ↔ s'.shutdown = .returned true)) := by
  refine ⟨hreach.slots.shutdown_moves hcalled hruns, fun n s' hrun hwork => hrun.releases hwork, ?_⟩
  intro hwaits s₁ hstep hforced n s' hrun
  obtain ⟨hforced', hwork⟩ := hrun.forced hforced
  rw [work_deadline hstep hwaits hforced] at hwork
  refine ⟨by omega, ?_, ?_⟩
  · intro hn
    rcases ShutdownPC.forced_cases hforced' with hret | ⟨-, hpos⟩
    · exact hret
    · omega
  · intro hret
    rw [hret] at hwork
    simpa [ShutdownPC.work] using hwork

/-- One connection is busy with a command when the sweep finds it and when the deadline expires. The
client's reply goes out after the deadline, and `Shutdown` returns after three steps of its own.
Source: `internal/server/shutdown.go` `Shutdown`
Kind: C -/
theorem shutdown_progresses_busy : ∃ s s₁ s' : State,
    Reachable 10 (fun _ _ => True) {} s ∧ s.shutdown = .waiting ∧ s.conns.card = 1 ∧
    Step 10 (fun _ _ => True) s s₁ ∧ s₁.shutdown.forced = true ∧
    ShutdownRun 10 3 s₁ s' ∧ s'.shutdown = .returned true ∧
    ∃ k', s'.made 1 = some k' ∧ k'.flushed = 1 := by
  have hrun : ∃ s k, Reachable 10 (fun _ _ => True) {} s ∧ s.shutdown = .waiting ∧
      s.conns = {1} ∧ s.made 1 = some k ∧ k.pc = .flushing false ∧ k.flushed = 0 ∧
      k.closed = false :=
    ⟨_, _, .head (.serve _ rfl) <| .head (.publish _ rfl rfl rfl) <| .head (.accept _ rfl rfl) <|
      .head (.takeSlot _ rfl (by decide)) <| .head (.newConn _ rfl) <| .head (.addConn _ 1 rfl rfl) <|
      .head (.spawn _ 1 _ rfl rfl) <| .head (.conn _ 1 _ _ _ rfl (.goOn _ rfl rfl)) <|
      .head (.conn _ 1 _ _ _ rfl (.park _ rfl)) <|
      .head (.conn _ 1 _ _ _ rfl (.fill _ [ping] rfl rfl)) <|
      .head (.conn _ 1 _ _ _ rfl (.readCommand _ ping [] rfl rfl)) <|
      .head (.conn _ 1 _ _ _ rfl (.unpark _ _ rfl)) <|
      .head (.conn _ 1 _ _ _ rfl (.dispatch _ _ false rfl)) <|
      .head (.shutdown _ rfl) <| .head (.closeLn _ true rfl) <| .head (.sweep _ rfl) <|
      .head (.skipActive _ 1 _ _ rfl (by decide) rfl rfl) <| .head (.swept _ rfl) <|
      .head (.countSome _ rfl (by decide)) .refl, rfl, rfl, rfl, rfl, rfl, rfl⟩
  obtain ⟨s, k, hs, hwaits, hconns, hk, hpc, hflushed, hopen⟩ := hrun
  have hdeadline : Step 10 (fun _ _ => True) s _ := .deadline s hwaits
  have hend : ∃ s', ShutdownRun 10 3 { s with shutdown := .sweeping true s.conns } s' ∧
      ∃ k', s'.made 1 = some k' ∧ k'.flushed = 1 := by
    refine ⟨_, .other (.conn _ 1 k _ _ hk (.flush k false false hpc hopen)) rfl <|
      .own (.findAny _ 1 s.conns rfl (by simp [hconns])) nofun <|
      .own (.closeAny _ 1 _ _ rfl rfl) nofun <|
      .own (.sweptAll _ (by simp [hconns])) nofun (.refl _), _, rfl, ?_⟩
    simp [hflushed]
  obtain ⟨s', hrun', hreply⟩ := hend
  have hcard : s.conns.card = 1 := by rw [hconns, Finset.card_singleton]
  have hreturned := ((shutdown_progresses 10 s hs (by simp [hwaits]) (by simp [hwaits])).2.2 hwaits
    _ hdeadline rfl 3 s' hrun').2.mp (by rw [hcard])
  exact ⟨s, _, s', hs, hwaits, hcard, hdeadline, rfl, hrun', hreturned, hreply⟩

end CacheMoney.Server.Lifecycle
