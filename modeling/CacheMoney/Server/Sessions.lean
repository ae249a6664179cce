import CacheMoney.Engine.Clock
import CacheMoney.Server.Deadlines

/-!
# Sessions

The commands of any number of clients of one server, in any order, each with its own connection
(`attend`): over a new cache they all return.

* `dispatch_sets`: a command stores only keys that are among its arguments.
* `backend_converges`: with enough fuel each method of the cache returns, if the hash tells the keys
  apart.
* `sessions_return`: every session over a new cache runs to its end, with one reply for each command.
-/

namespace CacheMoney.Server

open CacheMoney.Found CacheMoney.Resp CacheMoney.Shardmap
open CacheMoney.Engine (World Env Tame)

variable {S ι : Type} [DecidableEq ι]

/-! ### What a command stores -/

/-- The action stores no key outside `keys`.
Source: none
Kind: D -/
def SetsIn (keys : Set Bytes) : EngineOp → Prop
  | .set key _ _ => key ∈ keys
  | _ => True

/-- A command stores only keys that are among its arguments.
Source: `internal/server/dispatch.go` `dispatch`
Kind: L -/
theorem dispatch_sets {args : List Bytes} {keys : Set Bytes} (hargs : ∀ k ∈ args, k ∈ keys) :
    Asks (SetsIn keys) (dispatch args) := by
  refine (dispatch_asks args).mono fun o ho => ?_
  cases o with
  | set key value ttl => exact hargs key (WritesKey.mem ho)
  | _ => trivial

/-- With enough fuel each method of the cache returns, and stores no key outside `keys`.
Source: `internal/cache/engine.go` `Engine`; `internal/cache/policy.go` `Tunable`
Kind: P -/
theorem backend_converges {keys : Set Bytes} (o : EngineOp) (ho : SetsIn keys o) (w : World S)
    (h : Tame keys w) : Converges (fun fuel => backend fuel o w) fun r => Tame keys r.2 := by
  cases o with
  | get key => exact (Engine.get_converges h key).bind fun _ hr => converges_ok hr
  | ttl key => exact (Engine.ttl_converges h key).bind fun _ hr => converges_ok hr
  | del key => exact (Engine.del_converges h key).bind fun _ hr => converges_ok hr
  | set key value ttl =>
      exact (Engine.set_converges h ho value ttl.toInt).bind fun _ hr => converges_ok hr
  | now => exact converges_ok ⟨h.holds, h.injOn⟩
  | maxMemory => exact converges_ok h
  | setMaxMemory bytes => exact Engine.setMaxMemory_converges h bytes.toInt
  | evictionPolicy => exact converges_ok h
  | setEvictionPolicy p => exact Engine.setEvictionPolicy_converges h p

/-! ### Replies -/

/-- On the connection `n` proper values were written, and it can be written on.
Source: none
Kind: D -/
def Wrote (n : ℕ) (c c' : Conn) : Prop :=
  c'.Ready ∧ ∃ replies : List Value, replies.length = n ∧
    (∀ v ∈ replies, Proper 2 v ∨ Proper 3 v) ∧ c'.w.out = c.w.out ++ replies.flatMap Value.encode

section wrote

variable {c c' c'' : Conn} {m n : ℕ}

/-- Nothing was written.
Source: none
Kind: L -/
theorem wrote_none (hc : c.Ready) : Wrote 0 c c := ⟨hc, [], rfl, nofun, (List.append_nil _).symm⟩

/-- What was written twice was written in sequence.
Source: none
Kind: L -/
theorem Wrote.trans (h : Wrote m c c') (h' : Wrote n c' c'') : Wrote (m + n) c c'' := by
  obtain ⟨-, vs, rfl, hproper, hout⟩ := h
  obtain ⟨hready, vs', rfl, hproper', hout'⟩ := h'
  refine ⟨hready, vs ++ vs', List.length_append, fun v hv => ?_, ?_⟩
  · exact (List.mem_append.mp hv).elim (hproper v) (hproper' v)
  · rw [hout', hout, List.append_assoc, List.flatMap_append]

/-- A command writes one reply, unless it is empty.
Source: `internal/server/dispatch.go` `dispatch`
Kind: L -/
theorem Stepped.wrote {args : List Bytes} {close : Bool} (hc : c.Ready)
    (h : Stepped args c close c') : Wrote (if args = [] then 0 else 1) c c' := by
  by_cases hargs : args = []
  · rw [h.empty hargs, if_pos hargs]
    exact wrote_none hc
  · obtain ⟨proto, v, rfl, hproto, hv, -⟩ := h.served hargs
    rw [if_neg hargs]
    refine ⟨(hc.tuned hproto).put _, [v], rfl, fun x hx => ?_, ?_⟩
    · rw [List.mem_singleton.mp hx]
      rcases hproto with rfl | rfl
      · exact Or.inl hv
      · exact Or.inr hv
    · rw [List.flatMap_singleton]
      rfl

end wrote

/-- The command is one of this client, and has to be answered.
Source: none
Kind: D -/
def Visit.owes (i : ι) (v : Visit ι) : Bool := decide (v.client = i ∧ v.args ≠ [])

/-- A client whose command was served, and the others.
Source: `internal/server/dispatch.go` `dispatch`
Kind: L -/
theorem Stepped.wrote_update {v : Visit ι} {conns : ι → Conn} {close : Bool} {c : Conn}
    (hready : ∀ i, (conns i).Ready) (h : Stepped v.args (conns v.client) close c) (i : ι) :
    Wrote (if v.owes i then 1 else 0) (conns i) (Function.update conns v.client c i) := by
  by_cases hi : v.client = i
  · subst hi
    rw [Function.update_self]
    have hwrote := h.wrote (hready _)
    by_cases hargs : v.args = []
    · simpa [Visit.owes, hargs] using hwrote
    · simpa [Visit.owes, hargs] using hwrote
  · rw [Function.update_of_ne (Ne.symm hi)]
    simpa [Visit.owes, hi] using wrote_none (hready i)

/-! ### Whole sessions -/

/-- The session runs to its end, whatever its commands are.
Source: `internal/server/dispatch.go` `dispatch`
Kind: L -/
theorem attend_converges {keys : Set Bytes} (visits : List (Visit ι)) : ∀ {w : World S},
    Tame keys w → (∀ v ∈ visits, ∀ k ∈ v.args, k ∈ keys) →
    ∀ {conns : ι → Conn}, (∀ i, (conns i).Ready) →
      Converges (fun fuel => attend (backend fuel) World.turn visits conns w) fun x =>
        (∀ i, Wrote (visits.countP (Visit.owes i)) (conns i) (x.1 i)) ∧ Tame keys x.2 := by
  induction visits with
  | nil => exact fun hw _ conns hready => converges_ok ⟨fun i => wrote_none (hready i), hw⟩
  | cons v visits ih =>
      intro w hw hkeys conns hready
      have hturn : Tame keys (World.turn v.env w) := ⟨hw.holds, hw.injOn⟩
      refine ((dispatch_stepped (hready v.client) v.args).converges
        (dispatch_sets (hkeys v List.mem_cons_self)) backend_converges hturn).bind ?_
      rintro ⟨close, c, w₁⟩ ⟨hstep, hw₁⟩
      have hwrote := hstep.wrote_update hready
      refine (ih hw₁ (fun v' hv' => hkeys v' (List.mem_cons_of_mem _ hv'))
        fun i => (hwrote i).1).mono ?_
      rintro x ⟨hx, hw'⟩
      refine ⟨fun i => ?_, hw'⟩
      rw [List.countP_cons, Nat.add_comm]
      exact (hwrote i).trans (hx i)

/-- **Every session runs to its end.** Over a new cache with any options, whatever the clients, their
commands, their order and what the engine reads meanwhile, if the hash tells the arguments apart:
with enough fuel the session returns, and what it returns does not depend on the fuel. Every client
got exactly one reply for each of its commands that is not empty, in order, and nothing else.
Source: `internal/server/dispatch.go` `dispatch`; `internal/cache/cache.go` `Get`, `Set`, `Del`,
`TTL`, `SetMaxMemory`, `SetEvictionPolicy`; `internal/shardmap/table.go` `set`, `grow`
Kind: P
Fidelity: exact -/
theorem sessions_return (host : Host S) (hasher : S → Bytes → UInt64)
    (opts : List (Engine.CacheOpt S)) (hhost : host.gomaxprocs * 4 ≤ 2 ^ 62)
    (hopts : ∀ n, Engine.CacheOpt.withShards n ∈ opts → n ≤ 2 ^ 62) (env : Env)
    (visits : List (Visit ι)) (conns : ι → Conn) (hready : ∀ i, (conns i).Ready)
    (hinj : Set.InjOn (Engine.Cache.new host hasher opts).m.hash
      {k | ∃ v ∈ visits, k ∈ v.args}) :
    ∃ x, (∃ fuel₀, ∀ fuel ≥ fuel₀, attend (backend fuel) World.turn visits conns
        ⟨Engine.Cache.new host hasher opts, env⟩ = .ok x) ∧
      ∀ i, Wrote (visits.countP (Visit.owes i)) (conns i) (x.1 i) := by
  have htame := Engine.tame_new host hasher opts hhost hopts env hinj
  obtain ⟨x, ⟨hwrote, -⟩, hrun⟩ :=
    attend_converges visits htame (fun v hv k hk => ⟨v, hv, hk⟩) hready
  exact ⟨x, hrun, hwrote⟩

/-- Two clients: one stores a key, the other asks whether it is there.
Source: `internal/server/commands.go` `cmdSet`, `cmdExists`
Kind: D -/
def twoVisits : List (Visit Bool) :=
  [⟨true, [text "SET", text "k", text "vv"], clocked fun _ => 0⟩,
    ⟨false, [text "EXISTS", text "k"], clocked fun _ => 1⟩]

/-- The lengths of the arguments tell them apart.
Source: none
Kind: L -/
theorem injOn_twoVisits :
    Set.InjOn (Engine.Cache.new ⟨1, ()⟩ (fun _ b => UInt64.ofNat b.length) []).m.hash
      {k | ∃ v ∈ twoVisits, k ∈ v.args} := by
  have hmem : ∀ k, (∃ v ∈ twoVisits, k ∈ v.args) → k ∈ twoVisits.flatMap Visit.args :=
    fun k hk => List.mem_flatMap.mpr hk
  have hlen : ∀ a ∈ twoVisits.flatMap Visit.args, ∀ b ∈ twoVisits.flatMap Visit.args,
      UInt64.ofNat a.length = UInt64.ofNat b.length → a = b := by
    decide
  exact fun a ha b hb hab => hlen a (hmem a ha) b (hmem b hb) hab

/-- The two clients on a new cache, with a hash that counts bytes.
Source: `internal/server/commands_test.go` `TestExistsVariadicCountsPresentWithDuplicates`
Kind: C -/
theorem sessions_return_two :
    ∃ x, (∃ fuel₀, ∀ fuel ≥ fuel₀, attend (backend fuel) World.turn twoVisits
        (fun _ => newConn ⟨[], true⟩ 1)
        ⟨Engine.Cache.new ⟨1, ()⟩ (fun _ b => UInt64.ofNat b.length) [], clocked fun _ => 0⟩ =
          .ok x) ∧
      Wrote 1 (newConn ⟨[], true⟩ 1) (x.1 true) ∧ Wrote 1 (newConn ⟨[], true⟩ 1) (x.1 false) := by
  obtain ⟨x, hrun, hwrote⟩ := sessions_return ⟨1, ()⟩ (fun _ b => UInt64.ofNat b.length) []
    (by decide) nofun (clocked fun _ => 0) twoVisits (fun _ => newConn ⟨[], true⟩ 1)
    (fun _ => ⟨rfl, rfl, Or.inl rfl⟩) injOn_twoVisits
  exact ⟨x, hrun, hwrote true, hwrote false⟩

end CacheMoney.Server
