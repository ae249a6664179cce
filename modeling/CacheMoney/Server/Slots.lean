import Mathlib.Algebra.Order.BigOperators.Group.Finset
import CacheMoney.Found.History
import CacheMoney.Server.Shutdown

/-!
# Connection slots

`Serve` takes a slot of the semaphore for every connection that it serves, and the goroutine of the
connection gives it back when it ends. Between the two lie the accept loop, `serveConn` and two
deferred calls, and the sweeps of `Shutdown` come in between anywhere.

* `State.total f`: the sum of `f` over all connections that were made.
* `Slots`: the semaphore counts the connections that have not ended and the slot that the accept
  loop has in hand. A connection leaves the set before it gives its slot back.
* `slots_exact`: what this means for the cap on connections.
-/

namespace CacheMoney.Server.Lifecycle

open CacheMoney.Found

variable {maxConns : ℕ} {ok : State → ℕ → Prop} {s s' : State}

/-! ### Sums over the connections -/

/-- The sum of `f` over the connections made so far.
Source: none
Kind: D -/
def State.total (s : State) (f : ConnState → ℕ) : ℕ :=
  ∑ c ∈ Finset.range (s.nextID + 1), (s.made c).elim 0 f

/-- A total over the connections changes by the connection that was put.
Source: none
Kind: L -/
theorem State.total_put (f : ConnState → ℕ) {c : ℕ} {k : ConnState} (hk : s.made c = some k)
    (hc : c ≤ s.nextID) (k' : ConnState) : (s.put c k').total f + f k = s.total f + f k' := by
  have hsum := sum_update (fun o : Option ConnState => o.elim 0 f) s.made
    (Finset.mem_range.mpr (Nat.lt_succ_of_le hc)) (some k')
  rw [hk] at hsum
  exact hsum

/-- A new connection adds its own part to a total.
Source: none
Kind: L -/
theorem State.total_new (f : ConnState → ℕ) (k : ConnState) {accept : AcceptPC} :
    State.total { s.put (s.nextID + 1) k with nextID := s.nextID + 1, accept := accept } f =
      s.total f + f k := by
  unfold State.total
  rw [Finset.sum_range_succ]
  congr 1
  · apply Finset.sum_congr rfl
    intro c hc
    have hne : c ≠ s.nextID + 1 := (Finset.mem_range.mp hc).ne
    exact congrArg (Option.elim · 0 f) (made_put_ne k hne)
  · exact congrArg (Option.elim · 0 f) (made_put_self _ k)

/-- One connection's part is at most the total.
Source: none
Kind: L -/
theorem State.le_total {f : ConnState → ℕ} {c : ℕ} {k : ConnState} (hk : s.made c = some k)
    (hc : c ≤ s.nextID) : f k ≤ s.total f := by
  have hle := Finset.single_le_sum (f := fun c => (s.made c).elim 0 f) (fun _ _ => Nat.zero_le _)
    (Finset.mem_range.mpr (Nat.lt_succ_of_le hc))
  rw [show (s.made c).elim 0 f = f k by rw [hk]; rfl] at hle
  exact hle

/-! ### The invariant -/

/-- The slot of a goroutine.
Source: `internal/server/server.go` `Serve`
Kind: D -/
def ServePC.slot : ServePC → ℕ
  | .ended => 0
  | _ => 1

/-- The slot that the accept loop has taken and not yet handed to a connection.
Source: `internal/server/server.go` `Serve`
Kind: D -/
def AcceptPC.slot : AcceptPC → ℕ
  | .slotted => 1
  | _ => 0

/-- The connection may be in the connection set.
Source: `internal/server/server.go` `addConn`, `dropConn`
Kind: D -/
def ServePC.listed : ServePC → Bool
  | .releasing | .ended => false
  | _ => true

/-- The connections that a sweep of `Shutdown` has still to look at or to close.
Source: `internal/server/server.go` `closeIdleConns`, `closeAllConns`
Kind: D -/
def ShutdownPC.targets : ShutdownPC → Finset ℕ
  | .sweeping _ rest => rest
  | .closing _ c rest => insert c rest
  | _ => ∅

/-- The invariant of the semaphore and of the connection set.
Source: `internal/server/server.go` `Serve`, `newConn`, `addConn`, `dropConn`
Kind: D -/
structure Slots (maxConns : ℕ) (s : State) : Prop where
  fresh : ∀ c k, s.made c = some k → c ≤ s.nextID
  taken : s.sem = s.total (fun k => k.pc.slot) + s.accept.slot
  bound : s.sem ≤ maxConns
  waits : ∀ c k, s.made c = some k → k.pc = .starting → s.accept = .created c ∨ s.accept = .added c
  listed : ∀ c ∈ s.conns, ∃ k, s.made c = some k ∧ k.pc.listed = true
  swept : ∀ c ∈ s.shutdown.targets, ∃ k, s.made c = some k

/-- A listed connection holds a slot.
Source: `internal/server/server.go` `Serve`
Kind: L -/
theorem ServePC.slot_of_listed {pc : ServePC} (h : pc.listed = true) : pc.slot = 1 := by
  cases pc <;> first | rfl | cases h

/-- A running connection is listed.
Source: `internal/server/server.go` `Serve`
Kind: L -/
theorem ServePC.listed_of_running {pc : ServePC} (h : pc.running = true) : pc.listed = true := by
  cases pc <;> first | rfl | cases h

/-- After a step of its own a connection is running.
Source: `internal/server/conn.go` `serveConn`
Kind: L -/
theorem ServeStep.runs {flag : Bool} {k k' : ConnState} {e : Option (List Bytes)}
    (h : ServeStep flag k e k') : k'.pc.running = true := by
  cases h with
  | fill cmds hpc hopen =>
      simp only
      rw [hpc]
      rfl
  | flush stop gone hpc hopen =>
      cases stop <;> cases gone <;> rfl
  | _ => rfl

/-- What is in the table of connections is listed.
Source: `internal/server/server.go` `Serve`, `newConn`, `addConn`, `dropConn`
Kind: L -/
theorem Slots.listed_of_mem (h : Slots maxConns s) {c : ℕ} {k : ConnState}
    (hk : s.made c = some k) (hc : c ∈ s.conns) : k.pc.listed = true := by
  obtain ⟨k₀, hk₀, hlist⟩ := h.listed c hc
  obtain rfl : k₀ = k := Option.some.inj (hk₀.symm.trans hk)
  exact hlist

/-- A goroutine that has not ended has a slot to give back.
Source: `internal/server/server.go` `Serve`
Kind: L -/
theorem Slots.sem_pos (h : Slots maxConns s) {c : ℕ} {k : ConnState} (hk : s.made c = some k)
    (hslot : k.pc.slot = 1) : 0 < s.sem := by
  have hle := State.le_total (f := fun k => k.pc.slot) hk (h.fresh c k hk)
  have htaken := h.taken
  omega

/-- A step of the accept loop while it has no connection in hand.
Source: `internal/server/server.go` `Serve`
Kind: L -/
theorem Slots.turn (h : Slots maxConns s) {pc : AcceptPC} {lnPublished lnClosed : Bool} {sem : ℕ}
    (hfree : ∀ c, s.accept ≠ .created c ∧ s.accept ≠ .added c)
    (hsem : sem + s.accept.slot = s.sem + pc.slot) (hbound : sem ≤ maxConns) :
    Slots maxConns
      { s with accept := pc, lnPublished := lnPublished, lnClosed := lnClosed, sem := sem } where
  fresh := h.fresh
  taken := by
    have htaken := h.taken
    show sem = s.total _ + pc.slot
    omega
  bound := hbound
  waits c k hk hpc := by
    rcases h.waits c k hk hpc with hc | hc
    · exact absurd hc (hfree c).1
    · exact absurd hc (hfree c).2
  listed := h.listed
  swept := h.swept

/-- A step on one connection.
Source: `internal/server/conn.go` `serveConn`; `internal/server/server.go` `dropConn`
Kind: L -/
theorem Slots.put (h : Slots maxConns s) {c : ℕ} {k : ConnState} (hk : s.made c = some k)
    (k' : ConnState) {sem : ℕ} {conns : Finset ℕ} {pc : ShutdownPC} {log : List (ℕ × List Bytes)}
    (hstart : k'.pc = .starting → k.pc = .starting) (hconns : conns ⊆ s.conns)
    (hlisted : c ∈ conns → k'.pc.listed = true) (hsem : sem + k.pc.slot = s.sem + k'.pc.slot)
    (hbound : sem ≤ s.sem) (hswept : pc.targets ⊆ s.shutdown.targets) :
    Slots maxConns { s.put c k' with sem := sem, conns := conns, shutdown := pc, log := log } where
  fresh c' k'' hk' := by
    rcases made_put hk' with ⟨rfl, rfl⟩ | ⟨-, hold⟩
    · exact h.fresh c' k hk
    · exact h.fresh c' k'' hold
  taken := by
    have htotal := State.total_put (fun k => k.pc.slot) hk (h.fresh c k hk) k'
    have htaken := h.taken
    show sem = (s.put c k').total _ + s.accept.slot
    omega
  bound := hbound.trans h.bound
  waits c' k'' hk' hpc := by
    rcases made_put hk' with ⟨rfl, rfl⟩ | ⟨-, hold⟩
    · exact h.waits c' k hk (hstart hpc)
    · exact h.waits c' k'' hold hpc
  listed c' hc' := by
    by_cases heq : c' = c
    · subst heq
      exact ⟨k', made_put_self c' k', hlisted hc'⟩
    · obtain ⟨k₀, hk₀, hlist⟩ := h.listed c' (hconns hc')
      exact ⟨k₀, (made_put_ne k' heq).trans hk₀, hlist⟩
  swept c' hc' := by
    by_cases heq : c' = c
    · subst heq
      exact ⟨k', made_put_self c' k'⟩
    · obtain ⟨k₀, hk₀⟩ := h.swept c' (hswept hc')
      exact ⟨k₀, (made_put_ne k' heq).trans hk₀⟩

/-- A step of `Shutdown` that touches no connection.
Source: `internal/server/shutdown.go` `Shutdown`
Kind: L -/
theorem Slots.move (h : Slots maxConns s) {pc : ShutdownPC} {inShutdown lnClosed : Bool}
    (hswept : ∀ c ∈ pc.targets, c ∈ s.conns ∨ c ∈ s.shutdown.targets) :
    Slots maxConns { s with shutdown := pc, inShutdown := inShutdown, lnClosed := lnClosed } where
  fresh := h.fresh
  taken := h.taken
  bound := h.bound
  waits := h.waits
  listed := h.listed
  swept c hc := by
    rcases hswept c hc with hc | hc
    · obtain ⟨k, hk, -⟩ := h.listed c hc
      exact ⟨k, hk⟩
    · exact h.swept c hc

/-- `newConn` makes a connection under a new id, which the accept loop then has in hand.
Source: `internal/server/server.go` `newConn`
Kind: L -/
theorem Slots.newConn (h : Slots maxConns s) (hpc : s.accept = .slotted) :
    Slots maxConns { s.put (s.nextID + 1) {} with
      accept := .created (s.nextID + 1), nextID := s.nextID + 1 } := by
  have hkeep : ∀ c k, s.made c = some k → c ≠ s.nextID + 1 := by
    intro c k hk
    exact (Nat.lt_succ_of_le (h.fresh c k hk)).ne
  refine ⟨?_, ?_, h.bound, ?_, ?_, ?_⟩
  · intro c k hk
    rcases made_put hk with ⟨rfl, rfl⟩ | ⟨-, hold⟩
    · exact le_rfl
    · exact (h.fresh c k hold).trans (Nat.le_succ _)
  · have htaken := h.taken
    rw [hpc] at htaken
    rw [State.total_new]
    exact htaken
  · intro c k hk hstart
    rcases made_put hk with ⟨rfl, -⟩ | ⟨-, hold⟩
    · exact .inl rfl
    · rcases h.waits c k hold hstart with hc | hc <;> rw [hpc] at hc <;> cases hc
  · intro c hc
    obtain ⟨k, hk, hlist⟩ := h.listed c hc
    exact ⟨k, (made_put_ne _ (hkeep c k hk)).trans hk, hlist⟩
  · intro c hc
    obtain ⟨k, hk⟩ := h.swept c hc
    exact ⟨k, (made_put_ne _ (hkeep c k hk)).trans hk⟩

/-- `addConn` lists a connection whose goroutine has not started.
Source: `internal/server/server.go` `addConn`
Kind: L -/
theorem Slots.addConn (h : Slots maxConns s) (hg : Guarded s) {c : ℕ}
    (hpc : s.accept = .created c) :
    Slots maxConns { s with accept := .added c, conns := insert c s.conns } := by
  refine ⟨h.fresh, ?_, h.bound, ?_, ?_, h.swept⟩
  · rw [show s.sem = _ from h.taken, hpc]
    rfl
  · intro c' k hk hstart
    rcases h.waits c' k hk hstart with hc | hc <;> rw [hpc] at hc <;> cases hc
    exact .inr rfl
  · intro c' hc'
    rcases Finset.mem_insert.mp hc' with rfl | hc'
    · obtain ⟨k, hk, hstart⟩ := hg.pending c' (.inl hpc)
      exact ⟨k, hk, by rw [hstart]; rfl⟩
    · exact h.listed c' hc'

/-- The start of the goroutine takes over the slot that the accept loop held for it.
Source: `internal/server/server.go` `Serve`
Kind: L -/
theorem Slots.spawn (h : Slots maxConns s) (hg : Guarded s) {c : ℕ} {k : ConnState}
    (hpc : s.accept = .added c) (hk : s.made c = some k) :
    Slots maxConns { s.put c { k with pc := .checking } with accept := .accepting } := by
  obtain ⟨k₀, hk₀, hstart⟩ := hg.pending c (.inr hpc)
  obtain rfl : k₀ = k := Option.some.inj (hk₀.symm.trans hk)
  have hput : Slots maxConns (s.put c { k₀ with pc := .checking }) :=
    h.put hk _ nofun (Finset.Subset.refl _) (fun _ => rfl) (by rw [hstart]; rfl) le_rfl
      (Finset.Subset.refl _)
  refine ⟨hput.fresh, ?_, h.bound, ?_, hput.listed, hput.swept⟩
  · have htaken := hput.taken
    rw [show (s.put c _).accept = .added c from hpc] at htaken
    exact htaken
  · intro c' k' hk' hstart'
    rcases made_put hk' with ⟨-, rfl⟩ | ⟨hne, hold⟩
    · cases hstart'
    · rcases h.waits c' k' hold hstart' with hc | hc <;> rw [hpc] at hc <;> cases hc
      exact absurd rfl hne

/-- One step keeps the semaphore and the connection set in order.
Source: `internal/server/server.go` `Serve`; `internal/server/shutdown.go` `Shutdown`
Kind: L -/
theorem Slots.step (h : Slots maxConns s) (hg : Guarded s) (hstep : Step maxConns ok s s') :
    Slots maxConns s' := by
  have hnot : ∀ {pc : AcceptPC}, s.accept = pc → (∀ c, pc ≠ .created c ∧ pc ≠ .added c) →
      ∀ c, s.accept ≠ .created c ∧ s.accept ≠ .added c := by
    rintro pc rfl hne
    exact hne
  cases hstep with
  | serve hpc => exact h.turn (hnot hpc fun c => ⟨nofun, nofun⟩) (by rw [hpc]; rfl) h.bound
  | serveRefused hpc hmu hflag =>
      exact h.turn (hnot hpc fun c => ⟨nofun, nofun⟩) (by rw [hpc]; rfl) h.bound
  | publish hpc hmu hflag =>
      exact h.turn (hnot hpc fun c => ⟨nofun, nofun⟩) (by rw [hpc]; rfl) h.bound
  | accept hpc hopen => exact h.turn (hnot hpc fun c => ⟨nofun, nofun⟩) (by rw [hpc]; rfl) h.bound
  | acceptFail hpc => exact h.turn (hnot hpc fun c => ⟨nofun, nofun⟩) (by rw [hpc]; rfl) h.bound
  | takeSlot hpc hfree =>
      exact h.turn (hnot hpc fun c => ⟨nofun, nofun⟩) (by rw [hpc]; rfl) hfree
  | rejectConn hpc hfull =>
      exact h.turn (hnot hpc fun c => ⟨nofun, nofun⟩) (by rw [hpc]; rfl) h.bound
  | newConn hpc => exact h.newConn hpc
  | addConn c hpc hmu => exact h.addConn hg hpc
  | spawn c k hpc hk => exact h.spawn hg hpc hk
  | conn c k k' e hk hserve =>
      have hrun := hserve.moves.1
      have hrun' := hserve.runs
      refine h.put hk k' (fun hpc => ?_) (Finset.Subset.refl _)
        (fun _ => ServePC.listed_of_running hrun') ?_ le_rfl (Finset.Subset.refl _)
      · rw [hpc] at hrun'
        cases hrun'
      · rw [ServePC.slot_of_listed (ServePC.listed_of_running hrun),
          ServePC.slot_of_listed (ServePC.listed_of_running hrun')]
        rfl
  | drop c k hk hpc hmu =>
      refine h.put hk { k with pc := .releasing } nofun (Finset.erase_subset _ _) ?_ ?_ le_rfl
        (Finset.Subset.refl _)
      · exact fun hc => absurd rfl (Finset.ne_of_mem_erase hc)
      · rw [hpc]
        rfl
  | release c k hk hpc =>
      have hpos : 1 ≤ s.sem := h.sem_pos hk (by rw [hpc]; rfl)
      refine h.put hk { k with pc := .ended } nofun (Finset.Subset.refl _) ?_ ?_ (Nat.sub_le _ _)
        (Finset.Subset.refl _)
      · intro hc
        have hlist := h.listed_of_mem hk hc
        rw [hpc] at hlist
        cases hlist
      · rw [hpc]
        exact Nat.sub_add_cancel hpos
  | shutdown hpc => exact h.move nofun
  | closeLn ln hpc => exact h.move nofun
  | sweep hpc => exact h.move fun c hc => .inl hc
  | skipActive c k rest hpc hc hk hactive =>
      apply h.move
      intro c' hc'
      rw [hpc]
      exact .inr (Finset.mem_of_mem_erase hc')
  | findIdle c k rest hpc hc hk hidle =>
      apply h.move
      intro c' hc'
      rw [hpc]
      exact .inr (Finset.insert_erase hc ▸ hc')
  | closeIdle c k rest hpc hk hok =>
      exact h.put hk { k with closed := true } id (Finset.Subset.refl _)
        (fun hc => (h.listed_of_mem hk hc : k.pc.listed = true)) rfl le_rfl
        (by rw [hpc]; exact Finset.subset_insert _ _)
  | swept hpc => exact h.move nofun
  | countNone hpc hnone => exact h.move nofun
  | countSome hpc hsome => exact h.move nofun
  | tick hpc => exact h.move nofun
  | deadline hpc => exact h.move fun c hc => .inl hc
  | findAny c rest hpc hc =>
      apply h.move
      intro c' hc'
      rw [hpc]
      exact .inr (Finset.insert_erase hc ▸ hc')
  | closeAny c k rest hpc hk =>
      exact h.put hk { k with closed := true } id (Finset.Subset.refl _)
        (fun hc => (h.listed_of_mem hk hc : k.pc.listed = true)) rfl le_rfl
        (by rw [hpc]; exact Finset.subset_insert _ _)
  | sweptAll hpc => exact h.move nofun

/-- At the start all slots are free.
Source: `internal/server/server.go` `Serve`; `internal/server/shutdown.go` `Shutdown`
Kind: L -/
theorem slots_start : Slots maxConns {} where
  fresh := nofun
  taken := rfl
  bound := Nat.zero_le _
  waits := nofun
  listed := nofun
  swept := nofun

/-- In every reachable state the slots are accounted for.
Source: `internal/server/server.go` `Serve`; `internal/server/shutdown.go` `Shutdown`
Kind: L -/
theorem Reachable.slots (h : Reachable maxConns ok {} s) : Slots maxConns s := by
  induction h with
  | refl => exact slots_start
  | tail hprev hstep ih => exact ih.step (Reachable.guarded hprev) hstep

/-! ### The cap on connections -/

/-- There are at most as many connections in the table as slots taken.
Source: `internal/server/server.go` `Serve`; `internal/server/shutdown.go` `Shutdown`
Kind: L -/
theorem Slots.card_conns (h : Slots maxConns s) :
    s.conns.card ≤ s.total fun k => k.pc.slot := by
  have hrange : s.conns ⊆ Finset.range (s.nextID + 1) := by
    intro c hc
    obtain ⟨k, hk, -⟩ := h.listed c hc
    exact Finset.mem_range.mpr (Nat.lt_succ_of_le (h.fresh c k hk))
  calc s.conns.card = ∑ c ∈ s.conns, (s.made c).elim 0 fun k => k.pc.slot := by
        rw [Finset.card_eq_sum_ones]
        apply Finset.sum_congr rfl
        intro c hc
        obtain ⟨k, hk, hlist⟩ := h.listed c hc
        rw [hk]
        exact (ServePC.slot_of_listed hlist).symm
    _ ≤ s.total fun k => k.pc.slot :=
        Finset.sum_le_sum_of_subset_of_nonneg hrange fun _ _ _ => Nat.zero_le _

/-- **The semaphore counts the connections.** Whatever the accept loop, the goroutines of the
connections and `Shutdown` do, and in any order: the slots taken are the connections whose goroutine
has not ended and the slot that the accept loop is about to use. So at most `maxConns` connections
are alive and the connection set never holds more; a client is turned away only while exactly
`maxConns` connections are alive; and a goroutine that gives its slot back finds one to give, so the
deferred receive never blocks. An id is used once.
Source: `internal/server/server.go` `Serve`, `newConn`, `addConn`, `dropConn`
Kind: P
Fidelity: exact -/
theorem slots_exact (maxConns : ℕ) (s : State) (h : Reachable maxConns (fun _ _ => True) {} s) :
    s.sem = (s.total fun k => k.pc.slot) + s.accept.slot ∧ s.sem ≤ maxConns ∧
    s.conns.card ≤ (s.total fun k => k.pc.slot) ∧
    (s.accept = .accepted → ¬s.sem < maxConns → (s.total fun k => k.pc.slot) = maxConns) ∧
    (∀ c k, s.made c = some k → k.pc = .releasing → 0 < s.sem) ∧
    s.made (s.nextID + 1) = none := by
  have hslots := h.slots
  refine ⟨hslots.taken, hslots.bound, hslots.card_conns, ?_, ?_, ?_⟩
  · intro hpc hfull
    have htaken := hslots.taken
    rw [hpc, show AcceptPC.accepted.slot = 0 from rfl] at htaken
    have hbound := hslots.bound
    omega
  · intro c k hk hpc
    exact hslots.sem_pos hk (by rw [hpc]; rfl)
  · cases hmade : s.made (s.nextID + 1) with
    | none => rfl
    | some k => exact absurd (hslots.fresh _ k hmade) (Nat.not_succ_le_self _)

/-- With a cap of one, a second client is turned away while the first is served.
Source: `internal/server/server_test.go` `TestMaxConnsRejectsBeyondCapAndFreesOnClose`
Kind: C -/
theorem slots_exact_full : ∃ s : State, s.accept = .accepted ∧ s.sem = 1 ∧
    (s.total fun k => k.pc.slot) = 1 := by
  have hrun : ∃ s, Reachable 1 (fun _ _ => True) {} s ∧ s.accept = .accepted ∧ s.sem = 1 := by
    refine ⟨_, .head (.serve _ rfl) <| .head (.publish _ rfl rfl rfl) <|
      .head (.accept _ rfl rfl) <| .head (.takeSlot _ rfl (by decide)) <|
      .head (.newConn _ rfl) <| .head (.addConn _ 1 rfl rfl) <| .head (.spawn _ 1 {} rfl rfl) <|
      .head (.accept _ rfl rfl) .refl, rfl, rfl⟩
  obtain ⟨s, hs, hpc, hsem⟩ := hrun
  refine ⟨s, hpc, hsem, (slots_exact 1 s hs).2.2.2.1 hpc ?_⟩
  rw [hsem]
  decide

end CacheMoney.Server.Lifecycle
