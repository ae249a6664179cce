import CacheMoney.Resp.Value
import CacheMoney.Server.Commands

/-!
# Replies stay in step

Every dispatch of a non-empty argument vector writes one RESP value, whatever the arguments and
whatever the engine answers.

* `Proper proto v`: `v` is a sound value of the dialect, and its lines are `Vouched`: they consist of
  texts of the server and of sanitised text. All other bytes are the framing, numbers and the
  payloads of bulk strings.
* `Answers m c`: whatever the engine answers, the handler `m` returns without a panic and without an
  error, and all it does to the connection is to write one proper value.
* `InStep`: the output of a run, cut into one reply per non-empty vector.
* `replies_in_step`: every run is in step, and a client that reads the output as values counts as
  many of them as there were non-empty vectors.
-/

namespace CacheMoney.Server

open CacheMoney.Found CacheMoney.Resp

/-! ### Texts of the server -/

/-- The fixed texts that the server writes in lines.
Source: `internal/server/commands.go`, `internal/server/handshake.go`, `internal/server/reply.go`
Kind: D -/
def serverTexts : List Bytes :=
  [[], text "PONG", text "OK", errSyntax, errNotInteger, errInvalidExpire, errConfig, text "ERR ",
    text "ERR unknown command '", text "', with args beginning with: ",
    text "OOM command not allowed when used memory > 'maxmemory'",
    text "ERR Client sent AUTH, but no password is set",
    text "NOPROTO unsupported protocol version",
    text "ERR DB index is out of range",
    text "ERR Invalid argument '",
    text "' for CONFIG SET 'maxmemory'",
    text "' for CONFIG SET 'maxmemory-policy'",
    notSupported (text "maxmemory"), notSupported (text "maxmemory-policy"),
    text "ERR Unknown COMMAND subcommand or wrong number of arguments"] ++
    commandTable.map fun cmd => wrongArity cmd.name

/-- The text of an error line: sanitised text, if any, between texts of the server.
Source: `internal/server/reply.go` `sanitizeText`
Kind: D -/
def VouchedText (s : Bytes) : Prop :=
  ∃ front raw back, front ∈ serverTexts ∧ back ∈ serverTexts ∧
    s = front ++ sanitizeText raw ++ back

mutual

/-- The lines of the value hold nothing of the client but sanitised text in an error.
Source: `internal/server/reply.go` `sanitizeText`
Kind: D -/
def Vouched : Value → Prop
  | .simple s => s ∈ serverTexts
  | .error s => VouchedText s
  | .int _ => True
  | .bulk _ => True
  | .nullBulk => True
  | .null => True
  | .array vs => VouchedAll vs
  | .map kvs => VouchedAll kvs

/-- Source: `internal/server/reply.go` `sanitizeText`
Kind: D -/
def VouchedAll : List Value → Prop
  | [] => True
  | v :: vs => Vouched v ∧ VouchedAll vs

end

/-- Source: none
Kind: D -/
structure Proper (proto : ℤ) (v : Value) : Prop where
  sound : v.Sound
  dialect : v.In proto
  vouched : Vouched v

instance (s : Bytes) : Decidable (OneLine s) := inferInstanceAs (Decidable (13 ∉ s ∧ 10 ∉ s))

/-- The fixed texts of the server are single lines.
Source: `internal/server/reply.go` `replyWrongArity`
Kind: L -/
theorem oneLine_serverTexts : ∀ s ∈ serverTexts, OneLine s := by decide +kernel

/-- Two texts without line ends make one.
Source: none
Kind: L -/
theorem oneLine_append {s t : Bytes} (hs : OneLine s) (ht : OneLine t) : OneLine (s ++ t) := by
  unfold OneLine
  rw [List.mem_append, List.mem_append, not_or, not_or]
  exact ⟨⟨hs.1, ht.1⟩, hs.2, ht.2⟩

/-- Sanitised text has no line end.
Source: `internal/server/reply.go` `sanitizeText`
Kind: L -/
theorem oneLine_sanitizeText (b : Bytes) : OneLine (sanitizeText b) := by
  have hmem : ∀ c ∈ sanitizeText b, c = 63 ∨ ¬c < 0x20 := by
    intro c hc
    obtain ⟨ch, -, rfl⟩ := List.mem_map.mp hc
    by_cases h : ch < 0x20 ∨ ch = 0x7f
    · exact Or.inl (if_pos h)
    · rw [if_neg h]
      exact Or.inr fun hlt => h (Or.inl hlt)
  constructor
  · intro hc
    rcases hmem _ hc with h | h
    · exact absurd h (by decide)
    · exact h (by decide)
  · intro hc
    rcases hmem _ hc with h | h
    · exact absurd h (by decide)
    · exact h (by decide)

/-- A vouched text is a single line.
Source: `internal/server/reply.go` `sanitizeText`
Kind: L -/
theorem VouchedText.oneLine {s : Bytes} (h : VouchedText s) : OneLine s := by
  obtain ⟨front, raw, back, hfront, hback, rfl⟩ := h
  exact oneLine_append (oneLine_append (oneLine_serverTexts _ hfront) (oneLine_sanitizeText raw))
    (oneLine_serverTexts _ hback)

/-- The fixed texts are vouched for.
Source: `internal/server/reply.go` `sanitizeText`
Kind: L -/
theorem vouchedText_of_mem {s : Bytes} (h : s ∈ serverTexts) : VouchedText s :=
  ⟨s, [], [], h, List.mem_cons_self, by simp [sanitizeText]⟩

/-! ### Writing one value -/

/-- The connection with more output.
Source: `internal/resp/writer.go` `Writer`
Kind: D -/
def Conn.put (c : Conn) (b : Bytes) : Conn := { c with w := c.w.append b }

/-- The connection as every dispatch finds it: no write failed, and the connection and its writer
are set to the same one of the two dialects.
Source: `internal/server/conn.go` `conn`
Kind: D -/
structure Conn.Ready (c : Conn) : Prop where
  err : c.w.err = none
  proto : c.w.proto = c.proto
  known : c.proto = 2 ∨ c.proto = 3

/-- A connection is ready after a reply.
Source: `internal/server/conn.go` `conn`
Kind: L -/
theorem Conn.Ready.put {c : Conn} (h : c.Ready) (b : Bytes) : (c.put b).Ready :=
  ⟨h.err, h.proto, h.known⟩

/-- Whatever the engine answers, the script writes these bytes and does nothing else to the
connection.
Source: none
Kind: D -/
def Puts (m : CmdM (Option HandlerErr)) (c : Conn) (b : Bytes) : Prop :=
  Yields m c fun err c' => err = none ∧ c' = c.put b

/-- Whatever the engine answers, the handler writes one proper value and does nothing else to the
connection.
Source: none
Kind: D -/
def Answers (m : CmdM (Option HandlerErr)) (c : Conn) : Prop :=
  Yields m c fun err c' => err = none ∧ ∃ v, c' = c.put v.encode ∧ Proper c.w.proto v

section rules

variable {c : Conn}

/-- Rule for an argument inside the vector.
Source: none
Kind: L -/
theorem yields_arg {args : List Bytes} {i : ℕ} {Q : Bytes → Conn → Prop} (h : i < args.length) :
    Yields (arg args i) c Q ↔ Q args[i] c := by
  rw [arg, yields_lift, index_eq_ok h, returns_ok]

/-- Rule for the arguments from inside the vector.
Source: none
Kind: L -/
theorem yields_argsFrom {args : List Bytes} {i : ℕ} {Q : List Bytes → Conn → Prop}
    (h : i ≤ args.length) : Yields (argsFrom args i) c Q ↔ Q (args.drop i) c := by
  rw [argsFrom, yields_lift, sliceFrom_eq_ok h, returns_ok]

/-- A method of the writer that appends puts what it appends.
Source: none
Kind: L -/
theorem puts_write {f : Writer → Writer} {b : Bytes} (hf : f c.w = c.w.append b) (hc : c.Ready) :
    Puts (write f) c b := by
  have herr : (f c.w).err = none := by
    rw [hf]
    exact hc.err
  unfold Puts write
  rw [yields_bind, yields_modify, yields_bind, yields_get, yields_pure]
  simp only [herr, Option.map_none, true_and]
  rw [hf]
  rfl

/-- One write after another.
Source: none
Kind: L -/
theorem Puts.seq {m m' : CmdM (Option HandlerErr)} {b b' : Bytes} (h : Puts m c b)
    (h' : Puts m' (c.put b) b') : Puts (m >>= fun _ => m') c (b ++ b') := by
  refine yields_bind.mpr (Yields.mono h ?_)
  rintro err c' ⟨-, rfl⟩
  refine Yields.mono h' ?_
  rintro err c' ⟨rfl, rfl⟩
  exact ⟨rfl, by rw [Conn.put, Conn.put, Conn.put, Writer.append_append]⟩

/-- Putting a proper value answers.
Source: none
Kind: L -/
theorem Puts.answers {m : CmdM (Option HandlerErr)} {v : Value} (h : Puts m c v.encode)
    (hv : Proper c.w.proto v) : Answers m c := by
  refine Yields.mono h ?_
  rintro err c' ⟨rfl, rfl⟩
  exact ⟨rfl, v, rfl, hv⟩

/-- A bulk string is put as its encoding.
Source: none
Kind: L -/
theorem puts_bulk (hc : c.Ready) (b : Bytes) : Puts (write (·.writeBulk b)) c (Value.bulk b).encode :=
  puts_write (Writer.writeBulk_of_none hc.err b) hc

/-- An integer is put as its encoding.
Source: none
Kind: L -/
theorem puts_int (hc : c.Ready) (n : ℤ) : Puts (write (·.writeInt n)) c (Value.int n).encode :=
  puts_write (Writer.writeInt_of_none hc.err n) hc

/-- A fixed text answers as a simple string.
Source: none
Kind: L -/
theorem answers_simple (hc : c.Ready) {s : Bytes} (hs : s ∈ serverTexts) :
    Answers (write (·.writeSimpleString s)) c :=
  Puts.answers (v := .simple s) (puts_write (Writer.writeSimpleString_of_none hc.err s) hc)
    ⟨oneLine_serverTexts s hs, trivial, hs⟩

/-- An error is put as its encoding.
Source: none
Kind: L -/
theorem puts_error (hc : c.Ready) (s : Bytes) :
    Puts (write (·.writeError s)) c (Value.error s).encode :=
  puts_write (Writer.writeError_of_none hc.err s) hc

/-- A vouched text answers as an error.
Source: none
Kind: L -/
theorem answers_error (hc : c.Ready) {s : Bytes} (hs : VouchedText s) :
    Answers (write (·.writeError s)) c :=
  (puts_error hc s).answers ⟨hs.oneLine, trivial, hs⟩

/-- A fixed text answers as an error.
Source: none
Kind: L -/
theorem answers_errorText (hc : c.Ready) {s : Bytes} (hs : s ∈ serverTexts) :
    Answers (write (·.writeError s)) c :=
  answers_error hc (vouchedText_of_mem hs)

/-- A 64-bit integer answers.
Source: none
Kind: L -/
theorem answers_int (hc : c.Ready) (n : Int64) : Answers (write (·.writeInt n.toInt)) c :=
  (puts_int hc n.toInt).answers ⟨trivial, ⟨n.le_toInt, n.toInt_lt⟩, trivial⟩

/-- Any bytes answer as a bulk string.
Source: none
Kind: L -/
theorem answers_bulk (hc : c.Ready) (b : Bytes) : Answers (write (·.writeBulk b)) c :=
  (puts_bulk hc b).answers ⟨trivial, trivial, trivial⟩

/-- Null answers, in the dialect of the connection.
Source: none
Kind: L -/
theorem answers_null (hc : c.Ready) : Answers (write (·.writeNull)) c := by
  refine (puts_write (Writer.writeNull_of_none hc.err) hc).answers ?_
  rcases hc.known with h | h
  · rw [hc.proto, h]
    exact ⟨trivial, rfl, trivial⟩
  · rw [hc.proto, h]
    exact ⟨trivial, rfl, trivial⟩

/-- An array header is put as it is written.
Source: none
Kind: L -/
theorem puts_arrayHeader (hc : c.Ready) (n : ℕ) :
    Puts (write (·.writeArrayHeader n)) c (42 :: (numeral n ++ crlf)) := by
  apply puts_write _ hc
  rw [← signedNumeral_natCast]
  exact Writer.writeNumberLine_of_none hc.err 42 n

/-- The empty array answers.
Source: none
Kind: L -/
theorem answers_emptyArray (hc : c.Ready) : Answers (write (·.writeArrayHeader 0)) c :=
  Puts.answers (v := .array []) (puts_arrayHeader hc 0) ⟨trivial, trivial, trivial⟩

end rules

/-! ### Handlers -/

section handlers

variable {c : Conn} (hc : c.Ready) {args : List Bytes}

include hc

/-- An unknown command is answered.
Source: `internal/server/reply.go` `replyUnknownCommand`
Kind: L -/
theorem replyUnknownCommand_answers (raw : Bytes) : Answers (replyUnknownCommand raw) c :=
  answers_error hc ⟨_, raw, _, by simp [serverTexts], by simp [serverTexts], rfl⟩

/-- A wrong number of arguments is answered.
Source: `internal/server/reply.go` `replyWrongArity`
Kind: L -/
theorem replyWrongArity_answers {cmd : Command} (h : cmd ∈ commandTable) :
    Answers (replyWrongArity cmd.name) c :=
  answers_errorText hc (List.mem_append_right _ (List.mem_map_of_mem h))

/-- An error of the engine is answered.
Source: `internal/server/reply.go` `replyEngineErr`
Kind: L -/
theorem replyEngineErr_answers (e : EngineErr) : Answers (replyEngineErr e) c :=
  answers_error hc ⟨_, e.text, [], by simp [serverTexts], List.mem_cons_self, (List.append_nil _).symm⟩

/-- `PING` answers.
Source: `internal/server/commands.go` `cmdPing`
Kind: L -/
theorem cmdPing_answers : Answers (cmdPing args) c := by
  unfold cmdPing
  by_cases hlen : args.length = 2
  · rw [if_pos hlen]
    exact yields_bind.mpr ((yields_arg (by omega)).mpr (answers_bulk hc _))
  · rw [if_neg hlen]
    exact answers_simple hc (by simp [serverTexts])

/-- `GET` answers.
Source: `internal/server/commands.go` `cmdGet`
Kind: L -/
theorem cmdGet_answers (hlen : 1 < args.length) : Answers (cmdGet args) c := by
  refine yields_bind.mpr ((yields_arg hlen).mpr (yields_bind.mpr (yields_ask.mpr ?_)))
  intro answer
  match answer with
  | .error e => exact replyEngineErr_answers hc e
  | .ok none => exact answers_null hc
  | .ok (some v) => exact answers_bulk hc v

omit hc in
/-- Computing a lifetime leaves the connection.
Source: `internal/server/commands.go` `parseSetExpiry`
Kind: L -/
theorem lifetime_yields (unit : ExpireUnit) (n : Int64) :
    Yields (unit.lifetime n) c fun _ c' => c' = c := by
  cases unit with
  | ex => exact yields_pure.mpr rfl
  | px => exact yields_pure.mpr rfl
  | exat => exact yields_bind.mpr (yields_ask.mpr fun _ => yields_pure.mpr rfl)
  | pxat => exact yields_bind.mpr (yields_ask.mpr fun _ => yields_pure.mpr rfl)

omit hc in
/-- The options of `SET` give a lifetime or a text of the server, and leave the connection alone.
Source: `internal/server/commands.go` `parseSetExpiry`
Kind: L -/
theorem parseSetExpiry_yields (opts : List Bytes) :
    Yields (parseSetExpiry opts) c fun r c' =>
      c' = c ∧ ∀ msg, r = .error msg → msg ∈ serverTexts := by
  have hfail : ∀ msg ∈ serverTexts,
      Yields (pure (.error msg) : CmdM (Except Bytes Int64)) c fun r c' =>
        c' = c ∧ ∀ msg, r = .error msg → msg ∈ serverTexts := by
    intro msg hmsg
    refine yields_pure.mpr ⟨rfl, fun msg' h => ?_⟩
    cases h
    exact hmsg
  have hgood : ∀ ttl, Yields (pure (.ok ttl) : CmdM (Except Bytes Int64)) c fun r c' =>
      c' = c ∧ ∀ msg, r = .error msg → msg ∈ serverTexts := fun ttl =>
    yields_pure.mpr ⟨rfl, fun msg h => by cases h⟩
  unfold parseSetExpiry
  by_cases hnone : opts.length = 0
  · rw [if_pos hnone]
    exact hgood 0
  rw [if_neg hnone]
  by_cases htwo : opts.length ≠ 2
  · rw [if_pos htwo]
    exact hfail _ (by simp [serverTexts])
  rw [if_neg htwo]
  refine yields_bind.mpr ((yields_arg (by omega)).mpr ?_)
  cases expireUnit (asciiUpper opts[0]) with
  | none => exact hfail _ (by simp [serverTexts])
  | some unit =>
      refine yields_bind.mpr ((yields_arg (by omega)).mpr ?_)
      cases parseExpireInt opts[1] with
      | none => exact hfail _ (by simp [serverTexts])
      | some n =>
          simp only
          by_cases hrange : unit.limit < n ∨ n < -unit.limit
          · rw [if_pos hrange]
            exact hfail _ (by simp [serverTexts])
          rw [if_neg hrange]
          refine yields_bind.mpr ((lifetime_yields unit n).mono ?_)
          rintro ttl c' rfl
          by_cases hpast : ttl ≤ 0
          · rw [if_pos hpast]
            exact hfail _ (by simp [serverTexts])
          · rw [if_neg hpast]
            exact hgood ttl

/-- `SET` answers.
Source: `internal/server/commands.go` `cmdSet`
Kind: L -/
theorem cmdSet_answers (hlen : 2 < args.length) : Answers (cmdSet args) c := by
  refine yields_bind.mpr ((yields_argsFrom (by omega)).mpr (yields_bind.mpr ?_))
  refine (parseSetExpiry_yields _).mono ?_
  rintro r c' ⟨rfl, hmsg⟩
  cases r with
  | error msg => exact answers_errorText hc (hmsg msg rfl)
  | ok ttl =>
      refine yields_bind.mpr ((yields_arg (by omega)).mpr ?_)
      refine yields_bind.mpr ((yields_arg (by omega)).mpr (yields_bind.mpr (yields_ask.mpr ?_)))
      intro answer
      match answer with
      | .ok () => exact answers_simple hc (by simp [serverTexts])
      | .error e =>
          by_cases hoom : e.oom = true
          · simp only [if_pos hoom]
            exact answers_errorText hc (by simp [serverTexts])
          · simp only [if_neg hoom]
            exact replyEngineErr_answers hc e

/-- The loop over the keys writes at its end, or at the first error.
Source: `internal/server/commands.go` `cmdDel`, `cmdExists`
Kind: L -/
theorem countKeys_answers {probe : Bytes → CmdM (Except EngineErr Bool)}
    (hprobe : ∀ key, Yields (probe key) c fun _ c' => c' = c) (keys : List Bytes) :
    ∀ n, Answers (countKeys probe keys n) c := by
  induction keys with
  | nil =>
      intro n
      exact answers_int hc n
  | cons key keys ih =>
      intro n
      refine yields_bind.mpr ((hprobe key).mono ?_)
      rintro answer c' rfl
      match answer with
      | .error e => exact replyEngineErr_answers hc e
      | .ok true => exact ih (n + 1)
      | .ok false => exact ih n

/-- `DEL` answers.
Source: `internal/server/commands.go` `cmdDel`
Kind: L -/
theorem cmdDel_answers (hlen : 1 ≤ args.length) : Answers (cmdDel args) c := by
  refine yields_bind.mpr ((yields_argsFrom hlen).mpr (countKeys_answers hc ?_ _ 0))
  exact fun key => yields_ask.mpr fun _ => rfl

/-- `EXISTS` answers.
Source: `internal/server/commands.go` `cmdExists`
Kind: L -/
theorem cmdExists_answers (hlen : 1 ≤ args.length) : Answers (cmdExists args) c := by
  refine yields_bind.mpr ((yields_argsFrom hlen).mpr (countKeys_answers hc ?_ _ 0))
  exact fun key => yields_bind.mpr (yields_ask.mpr fun _ => yields_pure.mpr rfl)

/-- The time left is answered.
Source: `internal/server/commands.go` `replyTTL`
Kind: L -/
theorem replyTTL_answers (key : Bytes) (unit : TTLUnit) : Answers (replyTTL key unit) c := by
  refine yields_bind.mpr (yields_ask.mpr ?_)
  intro answer
  match answer with
  | .error e => exact replyEngineErr_answers hc e
  | .ok remaining => exact answers_int hc _

/-- `TTL` answers.
Source: `internal/server/commands.go` `cmdTTL`
Kind: L -/
theorem cmdTTL_answers (hlen : 1 < args.length) : Answers (cmdTTL args) c :=
  yields_bind.mpr ((yields_arg hlen).mpr (replyTTL_answers hc _ _))

/-- `PTTL` answers.
Source: `internal/server/commands.go` `cmdPTTL`
Kind: L -/
theorem cmdPTTL_answers (hlen : 1 < args.length) : Answers (cmdPTTL args) c :=
  yields_bind.mpr ((yields_arg hlen).mpr (replyTTL_answers hc _ _))

/-- `SELECT` answers.
Source: `internal/server/handshake.go` `cmdSelect`
Kind: L -/
theorem cmdSelect_answers (hlen : 1 < args.length) : Answers (cmdSelect args) c := by
  refine yields_bind.mpr ((yields_arg hlen).mpr ?_)
  cases atoi args[1] with
  | none => exact answers_errorText hc (by simp [serverTexts])
  | some n =>
      simp only
      by_cases hn : n ≠ 0
      · rw [if_pos hn]
        exact answers_errorText hc (by simp [serverTexts])
      · rw [if_neg hn]
        exact answers_simple hc (by simp [serverTexts])

/-- `COMMAND` answers.
Source: `internal/server/handshake.go` `cmdCommand`
Kind: L -/
theorem cmdCommand_answers (hlen : 1 ≤ args.length) : Answers (cmdCommand args) c := by
  unfold cmdCommand
  by_cases hone : args.length = 1
  · rw [if_pos hone]
    exact answers_emptyArray hc
  rw [if_neg hone]
  refine yields_bind.mpr ((yields_arg (by omega)).mpr ?_)
  by_cases hdocs : asciiUpper args[1] = text "DOCS"
  · rw [if_pos hdocs]
    exact answers_emptyArray hc
  rw [if_neg hdocs]
  by_cases hcount : asciiUpper args[1] = text "COUNT"
  · rw [if_pos hcount]
    exact answers_int hc 12
  · rw [if_neg hcount]
    exact answers_errorText hc (by simp [serverTexts])

/-! ### Configuration -/

/-- The pair is an array of two bulk strings.
Source: `internal/server/handshake.go` `writeConfigPair`
Kind: L -/
theorem writeConfigPair_answers (key value : Bytes) : Answers (writeConfigPair key value) c := by
  have hputs := (puts_arrayHeader hc 2).seq
    ((puts_bulk (hc.put _) key).seq (puts_bulk ((hc.put _).put _) value))
  refine Puts.answers (v := .array [.bulk key, .bulk value]) ?_
    ⟨⟨trivial, trivial, trivial⟩, ⟨trivial, trivial, trivial⟩, ⟨trivial, trivial, trivial⟩⟩
  rw [Value.encode, encodeAll, encodeAll, encodeAll, List.append_nil, ← List.append_assoc]
  exact hputs

/-- `CONFIG GET` answers.
Source: `internal/server/handshake.go` `configGet`
Kind: L -/
theorem configGet_answers (param : Bytes) : Answers (configGet param) c := by
  refine yields_bind.mpr (yields_get.mpr ?_)
  by_cases hmem : asciiUpper param = text "MAXMEMORY"
  · rw [if_pos hmem]
    cases c.srv.tunable with
    | true => exact yields_bind.mpr (yields_ask.mpr fun _ => writeConfigPair_answers hc _ _)
    | false => exact writeConfigPair_answers hc _ _
  rw [if_neg hmem]
  by_cases hpol : asciiUpper param = text "MAXMEMORY-POLICY"
  · rw [if_pos hpol]
    cases c.srv.tunable with
    | true => exact yields_bind.mpr (yields_ask.mpr fun _ => writeConfigPair_answers hc _ _)
    | false => exact writeConfigPair_answers hc _ _
  · rw [if_neg hpol]
    exact answers_emptyArray hc

/-- `CONFIG SET` answers.
Source: `internal/server/handshake.go` `configSet`
Kind: L -/
theorem configSet_answers (param val : Bytes) : Answers (configSet param val) c := by
  refine yields_bind.mpr (yields_get.mpr ?_)
  by_cases hmem : asciiUpper param = text "MAXMEMORY"
  · have hbad : Answers (write (·.writeError (invalidArgument val (text "maxmemory")))) c :=
      answers_error hc ⟨_, val, _, by simp [serverTexts], by decide +kernel, rfl⟩
    rw [if_pos hmem]
    cases c.srv.tunable with
    | false => exact answers_errorText hc (by simp [serverTexts])
    | true =>
        rw [if_pos rfl]
        cases atoi val with
        | none => exact hbad
        | some n =>
            simp only
            by_cases hneg : n < 0
            · rw [if_pos hneg]
              exact hbad
            · rw [if_neg hneg]
              exact yields_bind.mpr (yields_ask.mpr fun _ => answers_simple hc (by simp [serverTexts]))
  rw [if_neg hmem]
  by_cases hpol : asciiUpper param = text "MAXMEMORY-POLICY"
  · rw [if_pos hpol]
    cases c.srv.tunable with
    | false => exact answers_errorText hc (by simp [serverTexts])
    | true =>
        rw [if_pos rfl]
        cases parsePolicy (toLower val) with
        | none => exact answers_error hc ⟨_, val, _, by simp [serverTexts], by decide +kernel, rfl⟩
        | some p =>
            exact yields_bind.mpr (yields_ask.mpr fun _ => answers_simple hc (by simp [serverTexts]))
  · rw [if_neg hpol]
    exact answers_simple hc (by simp [serverTexts])

/-- `CONFIG` answers.
Source: `internal/server/handshake.go` `cmdConfig`
Kind: L -/
theorem cmdConfig_answers (hlen : 1 < args.length) : Answers (cmdConfig args) c := by
  refine yields_bind.mpr ((yields_arg hlen).mpr ?_)
  by_cases hget : asciiUpper args[1] = text "GET"
  · rw [if_pos hget]
    by_cases hthree : args.length ≠ 3
    · rw [if_pos hthree]
      exact answers_errorText hc (by simp [serverTexts])
    · rw [if_neg hthree]
      exact yields_bind.mpr ((yields_arg (by omega)).mpr (configGet_answers hc _))
  rw [if_neg hget]
  by_cases hset : asciiUpper args[1] = text "SET"
  · rw [if_pos hset]
    by_cases hfour : args.length ≠ 4
    · rw [if_pos hfour]
      exact answers_errorText hc (by simp [serverTexts])
    · rw [if_neg hfour]
      refine yields_bind.mpr ((yields_arg (by omega)).mpr ?_)
      exact yields_bind.mpr ((yields_arg (by omega)).mpr (configSet_answers hc _ _))
  · rw [if_neg hset]
    exact answers_errorText hc (by simp [serverTexts])

end handlers

/-! ### Handshake -/

/-- The script writes these values, whatever was written before.
Source: none
Kind: D -/
def Emits (m : CmdM (Option HandlerErr)) (vs : List Value) : Prop :=
  ∀ c : Conn, c.Ready → Puts m c (encodeAll vs)

/-- A bulk string is emitted.
Source: none
Kind: L -/
theorem emits_bulk (b : Bytes) : Emits (write (·.writeBulk b)) [.bulk b] := by
  intro c hc
  rw [encodeAll, encodeAll, List.append_nil]
  exact puts_bulk hc b

/-- An integer is emitted.
Source: none
Kind: L -/
theorem emits_int (n : ℤ) : Emits (write (·.writeInt n)) [.int n] := by
  intro c hc
  rw [encodeAll, encodeAll, List.append_nil]
  exact puts_int hc n

/-- The empty array is emitted.
Source: none
Kind: L -/
theorem emits_emptyArray : Emits (write (·.writeArrayHeader 0)) [.array []] := by
  intro c hc
  rw [encodeAll, encodeAll, List.append_nil]
  exact puts_arrayHeader hc 0

/-- Values in sequence are emitted in sequence.
Source: none
Kind: L -/
theorem Emits.cons {m m' : CmdM (Option HandlerErr)} {v : Value} {vs : List Value}
    (h : Emits m [v]) (h' : Emits m' vs) : Emits (m >>= fun _ => m') (v :: vs) := by
  intro c hc
  have hputs := (h c hc).seq (h' _ (hc.put _))
  rw [encodeAll, encodeAll, List.append_nil] at hputs
  exact hputs

/-- The seven fields of the server map.
Source: `internal/server/handshake.go` `writeHelloMap`
Kind: D -/
def helloFields (c : Conn) (proto : ℤ) : List Value :=
  [.bulk (text "server"), .bulk (text "cachemoney"), .bulk (text "version"), .bulk c.srv.version,
    .bulk (text "proto"), .int proto, .bulk (text "id"), .int c.id.toInt64.toInt,
    .bulk (text "mode"), .bulk (text "standalone"), .bulk (text "role"), .bulk (text "master"),
    .bulk (text "modules"), .array []]

/-- The reply to `HELLO` has seven pairs.
Source: `internal/server/handshake.go` `writeHelloMap`
Kind: L -/
theorem length_helloFields (c : Conn) (proto : ℤ) : (helloFields c proto).length = 14 := rfl

/-- The header in front of the fields, in the dialect of the writer.
Source: `internal/resp/writer.go` `WriteMapHeader`
Kind: D -/
def helloMap (c : Conn) (proto : ℤ) : Value :=
  if 3 ≤ c.w.proto then .map (helloFields c proto) else .array (helloFields c proto)

/-- The header of the reply to `HELLO`, in both dialects.
Source: `internal/resp/writer.go` `WriteMapHeader`
Kind: L -/
theorem puts_helloHeader {c : Conn} (hc : c.Ready) :
    Puts (write (·.writeMapHeader 7)) c
      (if 3 ≤ c.w.proto then 37 :: (numeral 7 ++ crlf) else 42 :: (numeral 14 ++ crlf)) := by
  apply puts_write _ hc
  unfold Writer.writeMapHeader
  by_cases hp : 3 ≤ c.w.proto
  · rw [if_pos hp, if_pos hp]
    exact Writer.writeNumberLine_of_none hc.err 37 7
  · rw [if_neg hp, if_neg hp]
    exact Writer.writeNumberLine_of_none hc.err 42 14

/-- The reply to `HELLO` is one value.
Source: `internal/server/handshake.go` `writeHelloMap`
Kind: L -/
theorem writeHelloMap_puts {c : Conn} (hc : c.Ready) (proto : ℤ) :
    Puts (writeHelloMap proto) c (helloMap c proto).encode := by
  have hfields := (emits_bulk (text "server")).cons <| (emits_bulk (text "cachemoney")).cons <|
    (emits_bulk (text "version")).cons <| (emits_bulk c.srv.version).cons <|
    (emits_bulk (text "proto")).cons <| (emits_int proto).cons <|
    (emits_bulk (text "id")).cons <| (emits_int c.id.toInt64.toInt).cons <|
    (emits_bulk (text "mode")).cons <| (emits_bulk (text "standalone")).cons <|
    (emits_bulk (text "role")).cons <| (emits_bulk (text "master")).cons <|
    (emits_bulk (text "modules")).cons emits_emptyArray
  have hputs := (puts_helloHeader hc).seq (hfields _ (hc.put _))
  have hbytes : (helloMap c proto).encode =
      (if 3 ≤ c.w.proto then 37 :: (numeral 7 ++ crlf) else 42 :: (numeral 14 ++ crlf)) ++
        encodeAll (helloFields c proto) := by
    unfold helloMap
    by_cases hp : 3 ≤ c.w.proto
    · rw [if_pos hp, if_pos hp, Value.encode, List.cons_append, List.append_assoc,
        length_helloFields]
    · rw [if_neg hp, if_neg hp, Value.encode, List.cons_append, List.append_assoc,
        length_helloFields]
  rw [hbytes]
  exact yields_bind.mpr (yields_get.mpr hputs)

/-- The reply to `HELLO` is proper in the dialect of the connection.
Source: `internal/server/handshake.go` `writeHelloMap`
Kind: L -/
theorem helloMap_proper {c : Conn} (hc : c.Ready) : Proper c.w.proto (helloMap c c.proto) := by
  have hsound : SoundAll (helloFields c c.proto) := by
    simp only [helloFields, SoundAll, Value.Sound, and_self]
  have hin : AllIn c.w.proto (helloFields c c.proto) := by
    have hproto : -2 ^ 63 ≤ c.proto ∧ c.proto < 2 ^ 63 := by
      rcases hc.known with h | h
      · rw [h]
        decide
      · rw [h]
        decide
    have hid := And.intro c.id.toInt64.le_toInt c.id.toInt64.toInt_lt
    simp only [helloFields, AllIn, Value.In, true_and, and_true]
    exact ⟨hproto, hid⟩
  have hvouched : VouchedAll (helloFields c c.proto) := by
    simp only [helloFields, VouchedAll, Vouched, and_self]
  unfold helloMap
  by_cases hp : 3 ≤ c.w.proto
  · rw [if_pos hp]
    have h3 : c.w.proto = 3 := by
      have := hc.proto
      rcases hc.known with h | h
      · omega
      · omega
    exact ⟨⟨⟨7, length_helloFields c c.proto⟩, hsound⟩, ⟨h3, hin⟩, hvouched⟩
  · rw [if_neg hp]
    exact ⟨hsound, hin, hvouched⟩

/-- The options give nothing or a text of the server.
Source: `internal/server/handshake.go` `cmdHello`
Kind: L -/
theorem helloOptions_yields (c : Conn) (rest : List Bytes) (fuel : ℕ) :
    ∀ i, i ≤ rest.length → rest.length < fuel + i → Yields (helloOptions rest fuel i) c fun r c' =>
      c' = c ∧ ∀ msg, r = some msg → msg ∈ serverTexts := by
  have hfail : ∀ msg ∈ serverTexts, Yields (pure (some msg) : CmdM (Option Bytes)) c fun r c' =>
      c' = c ∧ ∀ msg, r = some msg → msg ∈ serverTexts := by
    intro msg hmsg
    refine yields_pure.mpr ⟨rfl, fun msg' h => ?_⟩
    cases h
    exact hmsg
  induction fuel with
  | zero =>
      intro i hi hfuel
      omega
  | succ fuel ih =>
      intro i hi hfuel
      unfold helloOptions
      by_cases hend : rest.length ≤ i
      · rw [if_pos hend]
        exact yields_pure.mpr ⟨rfl, fun msg h => by cases h⟩
      rw [if_neg hend]
      refine yields_bind.mpr ((yields_arg (by omega)).mpr ?_)
      by_cases hauth : asciiUpper rest[i] = text "AUTH"
      · rw [if_pos hauth]
        exact hfail _ (by simp [serverTexts])
      rw [if_neg hauth]
      by_cases hname : asciiUpper rest[i] = text "SETNAME"
      · rw [if_pos hname]
        by_cases hlast : rest.length ≤ i + 1
        · rw [if_pos hlast]
          exact hfail _ (by simp [serverTexts])
        · rw [if_neg hlast]
          exact ih (i + 2) (by omega) (by omega)
      · rw [if_neg hname]
        exact hfail _ (by simp [serverTexts])

/-- The connection set to a dialect.
Source: `internal/server/handshake.go` `cmdHello`
Kind: D -/
def Conn.tuned (c : Conn) (proto : ℤ) : Conn :=
  { c with w := { c.w with proto := proto }, proto := proto }

/-- A connection is ready in either dialect.
Source: `internal/server/handshake.go` `cmdHello`
Kind: L -/
theorem Conn.Ready.tuned {c : Conn} (h : c.Ready) {proto : ℤ} (hp : proto = 2 ∨ proto = 3) :
    (c.tuned proto).Ready :=
  ⟨h.err, rfl, hp⟩

/-- A ready connection is already in its own dialect.
Source: `internal/server/handshake.go` `cmdHello`
Kind: L -/
theorem Conn.Ready.tuned_self {c : Conn} (h : c.Ready) : c.tuned c.proto = c := by
  obtain ⟨srv, w, proto, id⟩ := c
  obtain ⟨out, err, wproto⟩ := w
  have hproto : wproto = proto := h.proto
  subst hproto
  rfl

/-- The request negotiates the dialect.
Source: `internal/server/handshake.go` `cmdHello`
Kind: D -/
def Negotiates (args : List Bytes) (proto : ℤ) : Prop :=
  ∃ raw version, args[0]? = some raw ∧ asciiUpper raw = text "HELLO" ∧
    args[1]? = some version ∧ atoi version = some proto

/-- One proper value was written, after the connection may have been set to another dialect.
Source: none
Kind: D -/
def Served (args : List Bytes) (c c' : Conn) : Prop :=
  ∃ proto v, c' = (c.tuned proto).put v.encode ∧ (proto = 2 ∨ proto = 3) ∧ Proper proto v ∧
    (proto = c.proto ∨ Negotiates args proto)

/-- An answer serves the command.
Source: none
Kind: L -/
theorem Answers.served {m : CmdM (Option HandlerErr)} {c : Conn} (h : Answers m c) (hc : c.Ready)
    (args : List Bytes) : Yields m c fun err c' => err = none ∧ Served args c c' := by
  refine Yields.mono h ?_
  rintro err c' ⟨rfl, v, rfl, hv⟩
  rw [hc.proto] at hv
  exact ⟨rfl, c.proto, v, by rw [hc.tuned_self], hc.known, hv, Or.inl rfl⟩

/-- Setting the dialect of writer and connection.
Source: none
Kind: L -/
theorem setProto_tuned (c : Conn) {proto : ℤ} (hp : proto = 2 ∨ proto = 3) :
    { c with w := c.w.setProto proto, proto := proto } = c.tuned proto := by
  rcases hp with rfl | rfl
  · rfl
  · rfl

/-- What `HELLO` does: it writes one error and nothing else, or it sets the connection and its
writer to a dialect and writes the server map. The dialect is the one asked for, or the current one.
Source: `internal/server/handshake.go` `cmdHello`
Kind: D -/
inductive HelloReply (rest : List Bytes) (c : Conn) : Conn → Prop where
  | refused (msg : Bytes) (hmsg : msg ∈ serverTexts) :
      HelloReply rest c (c.put (Value.error msg).encode)
  | agreed (proto : ℤ) (hp : proto = 2 ∨ proto = 3)
      (hasked : rest = [] ∧ proto = c.proto ∨
        ∃ version more, rest = version :: more ∧ atoi version = some proto) :
      HelloReply rest c ((c.tuned proto).put (helloMap (c.tuned proto) proto).encode)

/-- The reply to `HELLO` serves it.
Source: `internal/server/handshake.go` `cmdHello`
Kind: L -/
theorem HelloReply.served {c c' : Conn} (hc : c.Ready) {raw : Bytes} {rest : List Bytes}
    (hraw : asciiUpper raw = text "HELLO") (h : HelloReply rest c c') :
    Served (raw :: rest) c c' := by
  cases h with
  | refused msg hmsg =>
      have hvouched := vouchedText_of_mem hmsg
      exact ⟨c.proto, .error msg, by rw [hc.tuned_self], hc.known,
        ⟨hvouched.oneLine, trivial, hvouched⟩, Or.inl rfl⟩
  | agreed proto hp hasked =>
      refine ⟨proto, _, rfl, hp, helloMap_proper (hc.tuned hp), ?_⟩
      rcases hasked with ⟨-, hsame⟩ | ⟨version, more, rfl, hv⟩
      · exact Or.inl hsame
      · exact Or.inr ⟨raw, version, rfl, hraw, rfl, hv⟩

/-- The reply to `HELLO` leaves a ready connection.
Source: `internal/server/handshake.go` `cmdHello`
Kind: L -/
theorem HelloReply.ready {c c' : Conn} (hc : c.Ready) {rest : List Bytes}
    (h : HelloReply rest c c') : c'.Ready := by
  cases h with
  | refused msg hmsg => exact hc.put _
  | agreed proto hp hasked => exact (hc.tuned hp).put _

/-- A `HELLO` that is refused is replied to with an error.
Source: `internal/server/handshake.go` `cmdHello`
Kind: L -/
theorem refused_yields {c : Conn} (hc : c.Ready) (rest : List Bytes) {msg : Bytes}
    (hmsg : msg ∈ serverTexts) :
    Yields (write (·.writeError msg)) c fun err c' => err = none ∧ HelloReply rest c c' := by
  refine Yields.mono (puts_error hc msg) ?_
  rintro err c' ⟨rfl, rfl⟩
  exact ⟨rfl, .refused msg hmsg⟩

/-- The end of `HELLO`: the dialect is set only when no option is at fault, and the map follows.
Source: `internal/server/handshake.go` `cmdHello`
Kind: L -/
theorem finishHello_yields {c : Conn} (hc : c.Ready) {proto : ℤ} {flip : Bool}
    (hp : proto = 2 ∨ proto = 3) (hflip : flip = false → proto = c.proto) (opts : List Bytes)
    {rest : List Bytes} (hasked : rest = [] ∧ proto = c.proto ∨
      ∃ version more, rest = version :: more ∧ atoi version = some proto) :
    Yields (finishHello proto flip opts) c fun err c' => err = none ∧ HelloReply rest c c' := by
  have hmap : Yields (writeHelloMap proto) (c.tuned proto) fun err c' =>
      err = none ∧ HelloReply rest c c' := by
    refine Yields.mono (writeHelloMap_puts (hc.tuned hp) proto) ?_
    rintro err c' ⟨rfl, rfl⟩
    exact ⟨rfl, .agreed proto hp hasked⟩
  refine yields_bind.mpr ((helloOptions_yields c opts _ 0 (Nat.zero_le _) (by omega)).mono ?_)
  rintro fault c' ⟨rfl, hmsg⟩
  cases fault with
  | some msg => exact refused_yields hc rest (hmsg msg rfl)
  | none =>
      cases flip with
      | true =>
          refine yields_bind.mpr (yields_modify.mpr ?_)
          rw [setProto_tuned _ hp]
          exact hmap
      | false =>
          have hsame := hflip rfl
          subst hsame
          rw [hc.tuned_self] at hmap
          exact hmap

/-- `HELLO` replies, and flips the dialect if it accepts a version.
Source: `internal/server/handshake.go` `cmdHello`
Kind: L -/
theorem cmdHello_yields {c : Conn} (hc : c.Ready) (raw : Bytes) (rest : List Bytes) :
    Yields (cmdHello (raw :: rest)) c fun err c' => err = none ∧ HelloReply rest c c' := by
  refine yields_bind.mpr (yields_get.mpr (yields_bind.mpr ?_))
  refine (yields_argsFrom (Nat.succ_le_succ (Nat.zero_le _))).mpr ?_
  rw [List.drop_one, List.tail_cons]
  cases rest with
  | nil => exact finishHello_yields hc hc.known (fun _ => rfl) [] (Or.inl ⟨rfl, rfl⟩)
  | cons version rest =>
      have hmsg : text "NOPROTO unsupported protocol version" ∈ serverTexts := by simp [serverTexts]
      have hnoproto := refused_yields hc (version :: rest) hmsg
      rw [if_pos (show 0 < (version :: rest).length from Nat.succ_pos _)]
      refine yields_bind.mpr ((yields_arg (Nat.succ_pos _)).mpr ?_)
      rw [List.getElem_cons_zero]
      cases hv : atoi version with
      | none => exact hnoproto
      | some v =>
          simp only
          by_cases hrange : v < 2 ∨ 3 < v
          · rw [if_pos hrange]
            exact hnoproto
          · rw [if_neg hrange]
            refine yields_bind.mpr ((yields_argsFrom (Nat.succ_le_succ (Nat.zero_le _))).mpr ?_)
            exact finishHello_yields hc (by omega) (fun h => absurd h (by decide)) _
              (Or.inr ⟨version, rest, rfl, hv⟩)

/-- `HELLO` is served.
Source: `internal/server/handshake.go` `cmdHello`
Kind: L -/
theorem cmdHello_served {c : Conn} (hc : c.Ready) {raw : Bytes} {rest : List Bytes}
    (hraw : asciiUpper raw = text "HELLO") :
    Yields (cmdHello (raw :: rest)) c fun err c' => err = none ∧ Served (raw :: rest) c c' := by
  refine (cmdHello_yields hc raw rest).mono ?_
  rintro err c' ⟨rfl, hreply⟩
  exact ⟨rfl, hreply.served hc hraw⟩

/-! ### Dispatch -/

/-- The one request that asks to close.
Source: `internal/server/commands.go` `cmdQuit`
Kind: D -/
def Quits (args : List Bytes) : Prop := ∃ raw, args = [raw] ∧ asciiUpper raw = text "QUIT"

/-- What one dispatch does: an empty vector is ignored, any other is answered with one value.
Source: `internal/server/dispatch.go` `dispatch`
Kind: D -/
structure Stepped (args : List Bytes) (c : Conn) (close : Bool) (c' : Conn) : Prop where
  empty : args = [] → c' = c
  served : args ≠ [] → Served args c c'
  close : close = true ↔ Quits args

/-- A command that is found is in the table under its name.
Source: `internal/server/dispatch.go` `dispatch`
Kind: L -/
theorem lookupCommand_eq_some {verb : Bytes} {cmd : Command} (h : lookupCommand verb = some cmd) :
    cmd ∈ commandTable ∧ cmd.name = verb := by
  have hname := List.find?_some h
  exact ⟨List.mem_of_find?_eq_some h, eq_of_beq hname⟩

/-- Arguments that are not refused are in the window of the command.
Source: `internal/server/dispatch.go` `dispatch`
Kind: L -/
theorem not_refuses {cmd : Command} {args : List Bytes} (h : cmd.refuses args = false) :
    cmd.minArgs ≤ args.length ∧ (0 ≤ cmd.maxArgs → (args.length : ℤ) ≤ cmd.maxArgs) := by
  simp only [Command.refuses, Bool.or_eq_false_iff, Bool.and_eq_false_iff, decide_eq_false_iff_not] at h
  omega

/-- `QUIT` is a command.
Source: `internal/server/dispatch.go` `commandTable`
Kind: L -/
theorem lookupCommand_quit : lookupCommand (text "QUIT") = some ⟨text "QUIT", 1, 1, .quit⟩ := rfl

/-- Two handlers run under the verbs of their names only.
Source: `internal/server/dispatch.go` `commandTable`
Kind: L -/
theorem name_of_verb : ∀ cmd ∈ commandTable, (cmd.verb = .quit → cmd.name = text "QUIT") ∧
    (cmd.verb = .hello → cmd.name = text "HELLO") := by
  decide +kernel

/-- Every other handler answers, if its arguments are in the window.
Source: `internal/server/dispatch.go` `dispatch`
Kind: L -/
theorem handler_answers {c : Conn} (hc : c.Ready) {cmd : Command} (hcmd : cmd ∈ commandTable)
    {args : List Bytes} (hmin : cmd.minArgs ≤ args.length) (hquit : cmd.verb ≠ .quit)
    (hhello : cmd.verb ≠ .hello) : Answers (cmd.verb.handler args) c := by
  simp only [commandTable, List.mem_cons, List.not_mem_nil, or_false] at hcmd
  rcases hcmd with rfl | rfl | rfl | rfl | rfl | rfl | rfl | rfl | rfl | rfl | rfl | rfl
  · exact cmdPing_answers hc
  · exact absurd rfl hquit
  · exact cmdGet_answers hc (by simp only at hmin; omega)
  · exact cmdSet_answers hc (by simp only at hmin; omega)
  · exact cmdDel_answers hc (by simp only at hmin; omega)
  · exact cmdExists_answers hc (by simp only at hmin; omega)
  · exact cmdTTL_answers hc (by simp only at hmin; omega)
  · exact cmdPTTL_answers hc (by simp only at hmin; omega)
  · exact absurd rfl hhello
  · exact cmdCommand_answers hc (by simp only at hmin; omega)
  · exact cmdConfig_answers hc (by simp only at hmin; omega)
  · exact cmdSelect_answers hc (by simp only at hmin; omega)

/-- The commands that quit are `QUIT` alone.
Source: `internal/server/dispatch.go` `dispatch`
Kind: L -/
theorem quits_cons {raw : Bytes} {rest : List Bytes} :
    Quits (raw :: rest) ↔ rest = [] ∧ asciiUpper raw = text "QUIT" := by
  constructor
  · rintro ⟨_, h, hraw⟩
    obtain ⟨rfl, rfl⟩ := List.cons.inj h
    exact ⟨rfl, hraw⟩
  · rintro ⟨rfl, hraw⟩
    exact ⟨raw, rfl, hraw⟩

/-- A handler that served the request and does not ask to close.
Source: none
Kind: L -/
theorem stepped_of_served {m : CmdM (Option HandlerErr)} {c : Conn} {args : List Bytes}
    (hargs : args ≠ []) (h : Yields m c fun err c' => err = none ∧ Served args c c')
    (hquit : ¬Quits args) {f : Option HandlerErr → Bool} (hf : f none = false) :
    Yields (m >>= fun err => pure (f err)) c (Stepped args c) := by
  refine yields_bind.mpr (Yields.mono h ?_)
  rintro err c' ⟨rfl, hserved⟩
  rw [hf]
  exact yields_pure.mpr ⟨fun he => absurd he hargs, fun _ => hserved, by simp [hquit]⟩

/-- `QUIT` replies and asks to close.
Source: `internal/server/commands.go` `cmdQuit`
Kind: L -/
theorem cmdQuit_stepped {c : Conn} (hc : c.Ready) {args : List Bytes} (h : Quits args) :
    Yields (cmdQuit args >>= fun err => pure err.isSome) c (Stepped args c) := by
  have hargs : args ≠ [] := by
    obtain ⟨raw, rfl, -⟩ := h
    exact List.cons_ne_nil _ _
  refine yields_bind.mpr (yields_bind.mpr ?_)
  refine Yields.mono ((answers_simple hc (by simp [serverTexts])).served hc args) ?_
  rintro err c' ⟨-, hserved⟩
  refine yields_pure.mpr (yields_pure.mpr ?_)
  exact ⟨fun he => absurd he hargs, fun _ => hserved, by simp [h]⟩

/-- Every dispatch on a connection that is ready.
Source: `internal/server/dispatch.go` `dispatch`
Kind: P -/
theorem dispatch_stepped {c : Conn} (hc : c.Ready) (args : List Bytes) :
    Yields (dispatch args) c (Stepped args c) := by
  unfold dispatch
  cases args with
  | nil =>
      rw [if_pos List.length_nil]
      exact yields_pure.mpr ⟨fun _ => rfl, fun h => absurd rfl h, by simp [Quits]⟩
  | cons raw rest =>
      have hne : raw :: rest ≠ [] := List.cons_ne_nil _ _
      rw [if_neg (by simp)]
      refine yields_bind.mpr ((yields_arg (Nat.succ_pos _)).mpr ?_)
      rw [List.getElem_cons_zero]
      cases hlook : lookupCommand (asciiUpper raw) with
      | none =>
          have hquit : ¬Quits (raw :: rest) := by
            intro h
            rw [(quits_cons.mp h).2, lookupCommand_quit] at hlook
            exact absurd hlook (by simp)
          exact stepped_of_served hne ((replyUnknownCommand_answers hc raw).served hc _) hquit rfl
      | some cmd =>
          obtain ⟨hcmd, hname⟩ := lookupCommand_eq_some hlook
          -- The row of `QUIT` is the only one whose handler returns an error.
          have hrow : asciiUpper raw = text "QUIT" → cmd = ⟨text "QUIT", 1, 1, .quit⟩ := by
            intro h
            rw [h, lookupCommand_quit] at hlook
            exact (Option.some.inj hlook).symm
          simp only
          cases hrefuses : cmd.refuses (raw :: rest) with
          | true =>
              have hquit : ¬Quits (raw :: rest) := by
                intro h
                obtain ⟨rfl, hraw⟩ := quits_cons.mp h
                rw [hrow hraw] at hrefuses
                exact absurd hrefuses (by simp [Command.refuses])
              exact stepped_of_served hne ((replyWrongArity_answers hc hcmd).served hc _) hquit rfl
          | false =>
              obtain ⟨hmin, hmax⟩ := not_refuses hrefuses
              rw [if_neg Bool.false_ne_true]
              by_cases hverb : cmd.verb = .quit
              · have hraw := hname.symm.trans ((name_of_verb cmd hcmd).1 hverb)
                rw [hrow hraw] at hmax ⊢
                have hrest : rest = [] := by
                  have := hmax (by decide)
                  rw [← List.length_eq_zero_iff]
                  simp only [List.length_cons] at this
                  omega
                exact cmdQuit_stepped hc (quits_cons.mpr ⟨hrest, hraw⟩)
              · have hquit : ¬Quits (raw :: rest) := by
                  intro h
                  rw [hrow (quits_cons.mp h).2] at hverb
                  exact hverb rfl
                by_cases hhello : cmd.verb = .hello
                · rw [hhello]
                  have hraw := hname.symm.trans ((name_of_verb cmd hcmd).2 hhello)
                  exact stepped_of_served hne (cmdHello_served hc hraw) hquit rfl
                · have hanswers := handler_answers hc hcmd hmin hverb hhello
                  exact stepped_of_served hne (hanswers.served hc _) hquit rfl

/-! ### Runs -/

/-- The bytes of the reply to one vector, seen from the outside: one proper value of the dialect
that was in force when it was written, or nothing for an empty vector. The dialect is the one before
unless the request negotiated it, and only `QUIT` closes the connection.
Source: `internal/server/dispatch.go` `dispatch`
Kind: D -/
structure Replied (proto : ℤ) (args : List Bytes) (seen : Dispatched) (reply : Bytes) : Prop where
  empty : args = [] → reply = []
  value : args ≠ [] → ∃ v, reply = v.encode ∧ Proper seen.dialect v
  dialect : seen.dialect = proto ∨ Negotiates args seen.dialect
  close : seen.close = true ↔ Quits args

/-- The output is one reply after another, in the order of the vectors.
Source: `internal/server/dispatch.go` `dispatch`
Kind: D -/
def InStep : ℤ → List (List Bytes) → List Dispatched → Bytes → Prop
  | _, [], [], out => out = []
  | proto, args :: more, seen :: rest, out =>
      ∃ reply out', out = reply ++ out' ∧ Replied proto args seen reply ∧
        InStep seen.dialect more rest out'
  | _, _, _, _ => False

/-- A step of the dispatcher writes one reply in the dialect it found.
Source: `internal/server/dispatch.go` `dispatch`
Kind: L -/
theorem Stepped.replied {args : List Bytes} {c c' : Conn} {close : Bool} (hc : c.Ready)
    (h : Stepped args c close c') : c'.Ready ∧ ∃ reply, c'.w.out = c.w.out ++ reply ∧
      Replied c.w.proto args ⟨close, c'.w.proto⟩ reply := by
  by_cases hargs : args = []
  · rw [h.empty hargs]
    exact ⟨hc, [], (List.append_nil _).symm,
      fun _ => rfl, fun hne => absurd hargs hne, Or.inl rfl, h.close⟩
  · obtain ⟨proto, v, rfl, hp, hv, hdialect⟩ := h.served hargs
    rw [hc.proto]
    exact ⟨(hc.tuned hp).put _, v.encode, rfl,
      fun he => absurd he hargs, fun _ => ⟨v, rfl, hv⟩, hdialect, h.close⟩

/-- Commands in sequence are replied to in step.
Source: `internal/server/dispatch.go` `dispatch`
Kind: L -/
theorem dispatchAll_inStep (vectors : List (List Bytes)) :
    ∀ {c : Conn}, c.Ready → Yields (dispatchAll vectors) c fun seen c' =>
      ∃ out, c'.w.out = c.w.out ++ out ∧ InStep c.w.proto vectors seen out := by
  induction vectors with
  | nil =>
      intro c _
      exact yields_pure.mpr ⟨[], (List.append_nil _).symm, rfl⟩
  | cons args more ih =>
      intro c hc
      refine yields_bind.mpr ((dispatch_stepped hc args).mono ?_)
      intro close c₁ hstep
      obtain ⟨hc₁, reply, hreply, hreplied⟩ := hstep.replied hc
      refine yields_bind.mpr (yields_get.mpr (yields_bind.mpr ((ih hc₁).mono ?_)))
      rintro seen c₂ ⟨out, hout, hrest⟩
      refine yields_pure.mpr ⟨reply ++ out, ?_, reply, out, rfl, hreplied, hrest⟩
      rw [hout, hreply, List.append_assoc]

/-- A run in step has one value per non-empty vector.
Source: none
Kind: L -/
theorem InStep.values {vectors : List (List Bytes)} : ∀ {proto : ℤ} {seen : List Dispatched}
    {out : Bytes}, InStep proto vectors seen out → ∃ vs, out = encodeAll vs ∧ SoundAll vs ∧
      vs.length = (vectors.filter (· ≠ [])).length := by
  induction vectors with
  | nil =>
      intro proto seen out h
      cases seen with
      | nil => exact ⟨[], h, trivial, rfl⟩
      | cons _ _ => exact h.elim
  | cons args more ih =>
      intro proto seen out h
      cases seen with
      | nil => exact h.elim
      | cons s rest =>
          obtain ⟨reply, out', rfl, hreplied, hrest⟩ := h
          obtain ⟨vs, rfl, hsound, hlen⟩ := ih hrest
          by_cases hargs : args = []
          · refine ⟨vs, ?_, hsound, ?_⟩
            · rw [hreplied.empty hargs, List.nil_append]
            · rw [hlen, hargs]
              rfl
          · obtain ⟨v, hv, hproper⟩ := hreplied.value hargs
            refine ⟨v :: vs, ?_, ⟨hproper.sound, hsound⟩, ?_⟩
            · rw [hv, encodeAll]
            · rw [List.filter_cons_of_pos (by simpa using hargs), List.length_cons,
                List.length_cons, hlen]

/-- On a new connection, whatever the engine is and answers, every sequence of argument vectors is
dispatched without a panic, and the output is in step with it: one proper value of the dialect in
force for every non-empty vector, nothing for an empty one. However the output is read as sound
values, there are as many of them as non-empty vectors.
Source: `internal/server/dispatch.go` `dispatch`
Kind: P
Fidelity: exact -/
theorem replies_in_step {W : Type} (engine : (o : EngineOp) → W → o.Answer × W) (world : W)
    (srv : Srv) (id : UInt64) (vectors : List (List Bytes)) :
    ∃ seen c world', (dispatchAll vectors).runIn (fun o w => .ok (engine o w)) (newConn srv id)
        world = .ok (seen, c, world') ∧
      InStep 2 vectors seen c.w.out ∧
      ∀ vs, SoundAll vs → encodeAll vs = c.w.out →
        vs.length = (vectors.filter (· ≠ [])).length := by
  have hready : (newConn srv id).Ready := ⟨rfl, rfl, Or.inl rfl⟩
  obtain ⟨⟨seen, c, world'⟩, hrun, out, hout, hstep⟩ :=
    (dispatchAll_inStep vectors hready).runIn (fun o w => ⟨engine o w, rfl⟩) world
  have hall : c.w.out = out := hout
  rw [← hall] at hstep
  refine ⟨seen, c, world', hrun, hstep, fun vs hsound hvs => ?_⟩
  obtain ⟨vs', hvs', hsound', hlen⟩ := hstep.values
  rw [encodeAll_injective hsound hsound' (hvs.trans hvs'), hlen]

end CacheMoney.Server
