import CacheMoney.Server.Replies

/-!
# Dialect negotiation

A connection and its writer each hold a protocol version: one is reported, the other decides how
values are encoded. `HELLO` is the only command that sets them.

* `IsHello`: the vectors that reach `cmdHello`. Its row has no maximum, so none of them is refused
  for its length.
* `Negotiated`: what one command does to the two versions.
* `dialect_all_or_nothing`: the result, for every sequence of commands and every engine.
-/

namespace CacheMoney.Server

open CacheMoney.Found CacheMoney.Resp

/-- The command is `HELLO`, in any case.
Source: `internal/server/dispatch.go` `dispatch`
Kind: D -/
def IsHello (args : List Bytes) : Prop := args.head?.map asciiUpper = some (text "HELLO")

/-- The connection and its writer are set to the same one of the two dialects.
Source: `internal/server/conn.go` `conn`
Kind: D -/
def Conn.Agrees (c : Conn) : Prop := c.proto = c.w.proto ∧ (c.proto = 2 ∨ c.proto = 3)

/-- What one command does to the dialect.
Source: `internal/server/dispatch.go` `dispatch`
Kind: D -/
structure Negotiated (args : List Bytes) (c c' : Conn) : Prop where
  hello : IsHello args → HelloReply args.tail c c'
  other : ¬IsHello args → c'.proto = c.proto ∧ c'.w.proto = c.w.proto

/-- A ready connection and its writer speak the same dialect.
Source: `internal/server/conn.go` `conn`
Kind: L -/
theorem Conn.Ready.agrees {c : Conn} (h : c.Ready) : c.Agrees := ⟨h.proto.symm, h.known⟩

/-! ### One command -/

/-- `HELLO` is a command.
Source: `internal/server/dispatch.go` `commandTable`
Kind: L -/
theorem lookupCommand_hello :
    lookupCommand (text "HELLO") = some ⟨text "HELLO", 1, -1, .hello⟩ := rfl

/-- Every `HELLO` reaches its handler.
Source: `internal/server/dispatch.go` `dispatch`
Kind: L -/
theorem yields_dispatch_hello {c : Conn} {raw : Bytes} (h : asciiUpper raw = text "HELLO")
    (rest : List Bytes) {Q : Bool → Conn → Prop} :
    Yields (dispatch (raw :: rest)) c Q ↔
      Yields (cmdHello (raw :: rest)) c fun err c' => Q err.isSome c' := by
  have hrefuses : (⟨text "HELLO", 1, -1, .hello⟩ : Command).refuses (raw :: rest) = false := by
    simp [Command.refuses]
  unfold dispatch
  rw [if_neg (by simp), yields_bind, yields_arg (Nat.succ_pos _), List.getElem_cons_zero, h,
    lookupCommand_hello]
  simp only [hrefuses, Bool.false_eq_true, if_false, yields_bind, yields_pure, Verb.handler]

/-- Only a `HELLO` negotiates a dialect.
Source: `internal/server/handshake.go` `cmdHello`
Kind: L -/
theorem isHello_of_negotiates {args : List Bytes} {proto : ℤ} (h : Negotiates args proto) :
    IsHello args := by
  obtain ⟨raw, _, hraw, hname, -⟩ := h
  rw [IsHello, List.head?_eq_getElem?, hraw, Option.map_some, hname]

/-- A dispatch on a connection that is ready leaves it so.
Source: `internal/server/dispatch.go` `dispatch`
Kind: L -/
theorem dispatch_negotiated {c : Conn} (hc : c.Ready) (args : List Bytes) :
    Yields (dispatch args) c fun _ c' => c'.Ready ∧ Negotiated args c c' := by
  by_cases hello : IsHello args
  · obtain ⟨raw, hraw, hname⟩ := Option.map_eq_some_iff.mp hello
    obtain ⟨rest, rfl⟩ := List.head?_eq_some_iff.mp hraw
    apply (yields_dispatch_hello hname rest).mpr
    refine (cmdHello_yields hc raw rest).mono ?_
    rintro err c' ⟨-, hreply⟩
    exact ⟨hreply.ready hc, fun _ => hreply, fun hnot => absurd hello hnot⟩
  · refine (dispatch_stepped hc args).mono ?_
    intro close c' hstep
    refine ⟨(hstep.replied hc).1, fun h => absurd h hello, fun _ => ?_⟩
    by_cases hargs : args = []
    · rw [hstep.empty hargs]
      exact ⟨rfl, rfl⟩
    · obtain ⟨proto, v, rfl, -, -, hsame | hask⟩ := hstep.served hargs
      · rw [hsame, hc.tuned_self]
        exact ⟨rfl, rfl⟩
      · exact absurd (isHello_of_negotiates hask) hello

/-! ### Sequences of commands -/

/-- A connection is ready after any commands.
Source: `internal/server/dispatch.go` `dispatch`
Kind: L -/
theorem dispatchAll_ready (vectors : List (List Bytes)) :
    ∀ {c : Conn}, c.Ready → Yields (dispatchAll vectors) c fun _ c' => c'.Ready := by
  induction vectors with
  | nil =>
      intro c hc
      exact yields_pure.mpr hc
  | cons args more ih =>
      intro c hc
      refine yields_bind.mpr ((dispatch_negotiated hc args).mono ?_)
      rintro close c₁ ⟨hc₁, -⟩
      refine yields_bind.mpr (yields_get.mpr (yields_bind.mpr ((ih hc₁).mono ?_)))
      intro seen c₂ hc₂
      exact yields_pure.mpr hc₂

/-- On a new connection, whatever the engine is and answers: before and after every command of every
sequence, the connection and its writer hold the same version, 2 or 3. A `HELLO` with any arguments
writes one error and changes neither, or sets both to one version and writes the map of seven fields
that reports this version and is encoded in it. No other command changes them.
Source: `internal/server/handshake.go` `cmdHello`; `internal/server/dispatch.go` `dispatch`
Kind: P
Fidelity: exact -/
theorem dialect_all_or_nothing {W : Type} (engine : (o : EngineOp) → W → o.Answer × W) (world : W)
    (srv : Srv) (id : UInt64) (vectors : List (List Bytes)) (args : List Bytes) :
    ∃ seen c world₁ close c' world₂,
      (dispatchAll vectors).runIn (fun o w => .ok (engine o w)) (newConn srv id) world =
        .ok (seen, c, world₁) ∧
      (dispatch args).runIn (fun o w => .ok (engine o w)) c world₁ = .ok (close, c', world₂) ∧
      c.Agrees ∧ c'.Agrees ∧ Negotiated args c c' := by
  have hready : (newConn srv id).Ready := ⟨rfl, rfl, Or.inl rfl⟩
  obtain ⟨⟨seen, c, world₁⟩, hrun, hc⟩ :=
    (dispatchAll_ready vectors hready).runIn (fun o w => ⟨engine o w, rfl⟩) world
  obtain ⟨⟨close, c', world₂⟩, hrun', hc', hnegotiated⟩ :=
    (dispatch_negotiated hc args).runIn (fun o w => ⟨engine o w, rfl⟩) world₁
  exact ⟨seen, c, world₁, close, c', world₂, hrun, hrun', hc.agrees, hc'.agrees, hnegotiated⟩

end CacheMoney.Server
