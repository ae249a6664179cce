import CacheMoney.Resp.Scratch
import CacheMoney.Resp.Value

/-!
# Reply trees and how they are read back

The writer is a flat emitter: an aggregate is a header followed by the replies of its children.
`Reply` is the tree that the caller has in mind, `Reply.emit` the calls that write it.

* `Line`: a text without a line end, which is what simple strings and errors carry.
* `Reply.downgrade`: what the tree becomes under RESP2, which has no maps, booleans and big
  numbers.
* `decode`: a reader of one reply, for both dialects. It goes by the type byte and the announced
  lengths only.
* `decode_frame`: whatever follows, the reader finds the tree and stops right after it.
-/

set_option linter.unusedSectionVars false

namespace CacheMoney.Resp

open CacheMoney.Found

/-! ### Trees -/

/-- A text that fits in a line.
Source: `internal/resp/writer.go` `WriteSimpleString`, `WriteError`
Kind: D -/
abbrev Line := { s : Bytes // OneLine s }

/-- A reply, as the caller of the writer sees it.
Source: `internal/resp/writer.go` `Writer`
Kind: D -/
inductive Reply where
  | simple (s : Line)
  | error (msg : Line)
  | int (n : ℤ)
  | bulk (b : Bytes)
  | null
  | bool (b : Bool)
  | bigNumber (x : ℤ)
  | array (rs : List Reply)
  | map (kvs : List (Reply × Reply))

mutual

/-- The calls that write a reply: for an aggregate its header, then exactly the announced children.
Source: `internal/resp/writer.go` `WriteArrayHeader`, `WriteMapHeader`
Kind: D -/
def Reply.emit : Reply → ScratchWriter → ScratchWriter
  | .simple s, w => w.writeSimpleString s.1
  | .error msg, w => w.writeError msg.1
  | .int n, w => w.writeInt n
  | .bulk b, w => w.writeBulk b
  | .null, w => w.writeNull
  | .bool b, w => w.writeBool b
  | .bigNumber x, w => w.writeBigNumber x
  | .array rs, w => emitAll rs (w.writeArrayHeader rs.length)
  | .map kvs, w => emitPairs kvs (w.writeMapHeader kvs.length)

/-- Source: `internal/resp/writer.go` `WriteArrayHeader`
Kind: D -/
def emitAll : List Reply → ScratchWriter → ScratchWriter
  | [], w => w
  | r :: rs, w => emitAll rs (r.emit w)

/-- Source: `internal/resp/writer.go` `WriteMapHeader`
Kind: D -/
def emitPairs : List (Reply × Reply) → ScratchWriter → ScratchWriter
  | [], w => w
  | (k, v) :: kvs, w => emitPairs kvs (v.emit (k.emit w))

end

mutual

/-- The tree under RESP2: a map of `n` pairs is an array of `2n`, a boolean is `0` or `1`, a big
number is a bulk string.
Source: `internal/resp/writer.go` `WriteMapHeader`, `WriteBool`, `WriteBigNumber`
Kind: D -/
def Reply.downgrade : Reply → Reply
  | .simple s => .simple s
  | .error msg => .error msg
  | .int n => .int n
  | .bulk b => .bulk b
  | .null => .null
  | .bool b => .int (if b then 1 else 0)
  | .bigNumber x => .bulk (signedNumeral x)
  | .array rs => .array (downgradeAll rs)
  | .map kvs => .array (downgradePairs kvs)

/-- Source: `internal/resp/writer.go` `WriteArrayHeader`
Kind: D -/
def downgradeAll : List Reply → List Reply
  | [] => []
  | r :: rs => r.downgrade :: downgradeAll rs

/-- Source: `internal/resp/writer.go` `WriteMapHeader`
Kind: D -/
def downgradePairs : List (Reply × Reply) → List Reply
  | [] => []
  | (k, v) :: kvs => k.downgrade :: v.downgrade :: downgradePairs kvs

end

/-- What a client of the dialect sees of a tree.
Source: `internal/resp/writer.go` `SetProto`
Kind: D -/
def Reply.seen (proto : ℤ) (r : Reply) : Reply := if 3 ≤ proto then r else r.downgrade

mutual

/-- The bytes of a tree, given the bytes of the absent value.
Source: `internal/resp/writer.go` `Writer`
Kind: D -/
def Reply.encode (nul : Bytes) : Reply → Bytes
  | .simple s => 43 :: (s.1 ++ crlf)
  | .error msg => 45 :: (msg.1 ++ crlf)
  | .int n => 58 :: (signedNumeral n ++ crlf)
  | .bulk b => 36 :: (numeral b.length ++ (crlf ++ (b ++ crlf)))
  | .null => nul
  | .bool b => 35 :: (if b then 116 else 102) :: crlf
  | .bigNumber x => 40 :: (signedNumeral x ++ crlf)
  | .array rs => 42 :: (numeral rs.length ++ (crlf ++ encodeReplies nul rs))
  | .map kvs => 37 :: (numeral kvs.length ++ (crlf ++ encodePairs nul kvs))

/-- Source: `internal/resp/writer.go` `WriteArrayHeader`
Kind: D -/
def encodeReplies (nul : Bytes) : List Reply → Bytes
  | [] => []
  | r :: rs => r.encode nul ++ encodeReplies nul rs

/-- Source: `internal/resp/writer.go` `WriteMapHeader`
Kind: D -/
def encodePairs (nul : Bytes) : List (Reply × Reply) → Bytes
  | [] => []
  | (k, v) :: kvs => k.encode nul ++ (v.encode nul ++ encodePairs nul kvs)

end

/-- The absent value of a dialect.
Source: `internal/resp/writer.go` `WriteNull`
Kind: D -/
def nullBytes (proto : ℤ) : Bytes :=
  if 3 ≤ proto then 95 :: crlf else 36 :: 45 :: 49 :: crlf

/-! ### What is emitted -/

/-- A map becomes an array of twice as many elements.
Source: `internal/resp/writer.go` `WriteNull`
Kind: L -/
theorem length_downgradePairs (kvs : List (Reply × Reply)) :
    (downgradePairs kvs).length = 2 * kvs.length := by
  induction kvs with
  | nil => rfl
  | cons kv kvs ih =>
      rw [downgradePairs, List.length_cons, List.length_cons, List.length_cons, ih]
      omega

/-- A downgrade keeps the number of replies.
Source: `internal/resp/writer.go` `WriteNull`
Kind: L -/
theorem length_downgradeAll (rs : List Reply) : (downgradeAll rs).length = rs.length := by
  induction rs with
  | nil => rfl
  | cons r rs ih => rw [downgradeAll, List.length_cons, List.length_cons, ih]

namespace Writer

variable {w : Writer}

/-- Appending keeps the dialect.
Source: `internal/resp/writer.go` `WriteNull`
Kind: L -/
@[simp] theorem append_proto (b : Bytes) : (w.append b).proto = w.proto := rfl

/-- Appending nothing changes nothing.
Source: `internal/resp/writer.go` `WriteNull`
Kind: L -/
theorem append_nil : w.append [] = w := by simp [append]

/-- A header with a count.
Source: `internal/resp/writer.go` `WriteArrayHeader`, `WriteMapHeader`
Kind: L -/
theorem writeNumberLine_natCast (h : w.err = none) (type : UInt8) (n : ℕ) :
    w.writeNumberLine type n = w.append (type :: (numeral n ++ crlf)) := by
  rw [writeNumberLine_of_none h, signedNumeral_natCast]

end Writer

mutual

/-- Under RESP3 the tree is written as it is.
Source: `internal/resp/writer.go` `Writer`
Kind: L -/
theorem Reply.emit_resp3 : ∀ (r : Reply) {w : ScratchWriter}, w.plain.err = none →
    3 ≤ w.plain.proto → (r.emit w).plain = w.plain.append (r.encode (95 :: crlf))
  | .simple s, w, he, hp => by
      rw [Reply.emit, Reply.encode, ScratchWriter.plain_writeSimpleString]
      exact Writer.writeLine_of_none he 43 s.1
  | .error msg, w, he, hp => by
      rw [Reply.emit, Reply.encode, ScratchWriter.plain_writeError]
      exact Writer.writeLine_of_none he 45 msg.1
  | .int n, w, he, hp => by
      rw [Reply.emit, Reply.encode, ScratchWriter.plain_writeInt]
      exact Writer.writeNumberLine_of_none he 58 n
  | .bulk b, w, he, hp => by
      rw [Reply.emit, Reply.encode, ScratchWriter.plain_writeBulk]
      exact Writer.writeLenPrefixed_of_none he 36 b
  | .null, w, he, hp => by
      rw [Reply.emit, Reply.encode, ScratchWriter.plain_writeNull, Writer.writeNull, if_pos hp]
      exact Writer.writeBytes_of_none he _
  | .bool b, w, he, hp => by
      rw [Reply.emit, Reply.encode, ScratchWriter.plain_writeBool, Writer.writeBool]
      cases b with
      | true =>
          rw [if_pos ⟨hp, rfl⟩]
          exact Writer.writeBytes_of_none he _
      | false =>
          rw [if_neg (by simp), if_pos hp]
          exact Writer.writeBytes_of_none he _
  | .bigNumber x, w, he, hp => by
      rw [Reply.emit, Reply.encode, ScratchWriter.plain_writeBigNumber, Writer.writeBigNumber,
        if_pos hp]
      exact Writer.writeLine_of_none he 40 (signedNumeral x)
  | .array rs, w, he, hp => by
      have hhead : (w.writeArrayHeader rs.length).plain =
          w.plain.append (42 :: (numeral rs.length ++ crlf)) := by
        rw [ScratchWriter.plain_writeArrayHeader]
        exact Writer.writeNumberLine_natCast he 42 rs.length
      rw [Reply.emit, Reply.encode, emitAll_resp3 rs (by rw [hhead]; exact he)
        (by rw [hhead]; exact hp), hhead, Writer.append_append]
      simp
  | .map kvs, w, he, hp => by
      have hhead : (w.writeMapHeader kvs.length).plain =
          w.plain.append (37 :: (numeral kvs.length ++ crlf)) := by
        rw [ScratchWriter.plain_writeMapHeader, Writer.writeMapHeader, if_pos hp]
        exact Writer.writeNumberLine_natCast he 37 kvs.length
      rw [Reply.emit, Reply.encode, emitPairs_resp3 kvs (by rw [hhead]; exact he)
        (by rw [hhead]; exact hp), hhead, Writer.append_append]
      simp

/-- Replies in sequence are written as they are, from dialect 3 on.
Source: `internal/resp/writer.go` `Writer`
Kind: L -/
theorem emitAll_resp3 : ∀ (rs : List Reply) {w : ScratchWriter}, w.plain.err = none →
    3 ≤ w.plain.proto → (emitAll rs w).plain = w.plain.append (encodeReplies (95 :: crlf) rs)
  | [], w, he, hp => Writer.append_nil.symm
  | r :: rs, w, he, hp => by
      have hr := Reply.emit_resp3 r he hp
      rw [emitAll, encodeReplies, emitAll_resp3 rs (by rw [hr]; exact he) (by rw [hr]; exact hp),
        hr, Writer.append_append]

/-- The pairs of a map are written as they are, from dialect 3 on.
Source: `internal/resp/writer.go` `Writer`
Kind: L -/
theorem emitPairs_resp3 : ∀ (kvs : List (Reply × Reply)) {w : ScratchWriter},
    w.plain.err = none → 3 ≤ w.plain.proto →
      (emitPairs kvs w).plain = w.plain.append (encodePairs (95 :: crlf) kvs)
  | [], w, he, hp => Writer.append_nil.symm
  | (k, v) :: kvs, w, he, hp => by
      have hk := Reply.emit_resp3 k he hp
      have hv := Reply.emit_resp3 v (by rw [hk]; exact he) (by rw [hk]; exact hp)
      rw [hk, Writer.append_append] at hv
      rw [emitPairs, encodePairs, emitPairs_resp3 kvs (by rw [hv]; exact he)
        (by rw [hv]; exact hp), hv, Writer.append_append, List.append_assoc]

end

mutual

/-- Under RESP2 the downgraded tree is written.
Source: `internal/resp/writer.go` `Writer`
Kind: L -/
theorem Reply.emit_resp2 : ∀ (r : Reply) {w : ScratchWriter}, w.plain.err = none →
    ¬3 ≤ w.plain.proto →
      (r.emit w).plain = w.plain.append (r.downgrade.encode (36 :: 45 :: 49 :: crlf))
  | .simple s, w, he, hp => by
      rw [Reply.emit, Reply.downgrade, Reply.encode, ScratchWriter.plain_writeSimpleString]
      exact Writer.writeLine_of_none he 43 s.1
  | .error msg, w, he, hp => by
      rw [Reply.emit, Reply.downgrade, Reply.encode, ScratchWriter.plain_writeError]
      exact Writer.writeLine_of_none he 45 msg.1
  | .int n, w, he, hp => by
      rw [Reply.emit, Reply.downgrade, Reply.encode, ScratchWriter.plain_writeInt]
      exact Writer.writeNumberLine_of_none he 58 n
  | .bulk b, w, he, hp => by
      rw [Reply.emit, Reply.downgrade, Reply.encode, ScratchWriter.plain_writeBulk]
      exact Writer.writeLenPrefixed_of_none he 36 b
  | .null, w, he, hp => by
      rw [Reply.emit, Reply.downgrade, Reply.encode, ScratchWriter.plain_writeNull,
        Writer.writeNull, if_neg hp]
      exact Writer.writeBytes_of_none he _
  | .bool b, w, he, hp => by
      rw [Reply.emit, Reply.downgrade, Reply.encode, ScratchWriter.plain_writeBool,
        Writer.writeBool, if_neg fun h => hp h.1, if_neg hp]
      cases b with
      | true => exact Writer.writeBytes_of_none he _
      | false => exact Writer.writeBytes_of_none he _
  | .bigNumber x, w, he, hp => by
      rw [Reply.emit, Reply.downgrade, Reply.encode, ScratchWriter.plain_writeBigNumber,
        Writer.writeBigNumber, if_neg hp]
      exact Writer.writeLenPrefixed_of_none he 36 (signedNumeral x)
  | .array rs, w, he, hp => by
      have hhead : (w.writeArrayHeader rs.length).plain =
          w.plain.append (42 :: (numeral rs.length ++ crlf)) := by
        rw [ScratchWriter.plain_writeArrayHeader]
        exact Writer.writeNumberLine_natCast he 42 rs.length
      rw [Reply.emit, Reply.downgrade, Reply.encode, emitAll_resp2 rs (by rw [hhead]; exact he)
        (by rw [hhead]; exact hp), hhead, Writer.append_append, length_downgradeAll]
      simp
  | .map kvs, w, he, hp => by
      have hhead : (w.writeMapHeader kvs.length).plain =
          w.plain.append (42 :: (numeral (2 * kvs.length) ++ crlf)) := by
        rw [ScratchWriter.plain_writeMapHeader, Writer.writeMapHeader, if_neg hp]
        exact Writer.writeNumberLine_natCast he 42 (2 * kvs.length)
      rw [Reply.emit, Reply.downgrade, Reply.encode, emitPairs_resp2 kvs (by rw [hhead]; exact he)
        (by rw [hhead]; exact hp), hhead, Writer.append_append, length_downgradePairs]
      simp

/-- Replies in sequence are written downgraded, below dialect 3.
Source: `internal/resp/writer.go` `Writer`
Kind: L -/
theorem emitAll_resp2 : ∀ (rs : List Reply) {w : ScratchWriter}, w.plain.err = none →
    ¬3 ≤ w.plain.proto → (emitAll rs w).plain =
      w.plain.append (encodeReplies (36 :: 45 :: 49 :: crlf) (downgradeAll rs))
  | [], w, he, hp => Writer.append_nil.symm
  | r :: rs, w, he, hp => by
      have hr := Reply.emit_resp2 r he hp
      rw [emitAll, downgradeAll, encodeReplies, emitAll_resp2 rs (by rw [hr]; exact he)
        (by rw [hr]; exact hp), hr, Writer.append_append]

/-- The pairs of a map are written as the elements of an array, below dialect 3.
Source: `internal/resp/writer.go` `Writer`
Kind: L -/
theorem emitPairs_resp2 : ∀ (kvs : List (Reply × Reply)) {w : ScratchWriter},
    w.plain.err = none → ¬3 ≤ w.plain.proto → (emitPairs kvs w).plain =
      w.plain.append (encodeReplies (36 :: 45 :: 49 :: crlf) (downgradePairs kvs))
  | [], w, he, hp => Writer.append_nil.symm
  | (k, v) :: kvs, w, he, hp => by
      have hk := Reply.emit_resp2 k he hp
      have hv := Reply.emit_resp2 v (by rw [hk]; exact he) (by rw [hk]; exact hp)
      rw [hk, Writer.append_append] at hv
      rw [emitPairs, downgradePairs, encodeReplies, encodeReplies,
        emitPairs_resp2 kvs (by rw [hv]; exact he) (by rw [hv]; exact hp), hv,
        Writer.append_append, List.append_assoc]

end

/-- The bytes that a dialect writes for a tree.
Source: `internal/resp/writer.go` `SetProto`
Kind: D -/
def Reply.frame (proto : ℤ) (r : Reply) : Bytes := (r.seen proto).encode (nullBytes proto)

/-- A reply is appended to the output and changes nothing else but the scratch array.
Source: `internal/resp/writer.go` `Writer`
Kind: P -/
theorem Reply.plain_emit (r : Reply) {w : ScratchWriter} (he : w.plain.err = none) :
    (r.emit w).plain = w.plain.append (r.frame w.plain.proto) := by
  unfold Reply.frame Reply.seen nullBytes
  split_ifs with hp
  · exact r.emit_resp3 he hp
  · exact r.emit_resp2 he hp

/-! ### The reader -/

/-- What follows a carriage return.
Source: none
Kind: D -/
def scanFeed : Scanner Bytes
  | [] => .short
  | c :: r => if c = 10 then .done [] r else .malformed

/-- A line, which ends at its first carriage return.
Source: none
Kind: D -/
def scanLine : Scanner Bytes
  | [] => .short
  | c :: b => if c = 13 then scanFeed b else (scanLine b).bind fun l r => .done (c :: l) r

/-- A line is scanned up to its line end.
Source: none
Kind: L -/
theorem scanLine_line {s : Bytes} (hs : 13 ∉ s) (rest : Bytes) :
    scanLine (s ++ (crlf ++ rest)) = .done s rest := by
  induction s with
  | nil => rfl
  | cons c s ih =>
      have hc : c ≠ 13 := fun h => hs (h ▸ List.mem_cons_self)
      rw [List.cons_append, scanLine, if_neg hc, ih fun h => hs (List.mem_cons_of_mem _ h)]
      rfl

/-- A pair.
Source: none
Kind: D -/
def scanPair {α : Type} (s : Scanner α) : Scanner (α × α) :=
  s.bind fun k => s.bind fun v b => .done (k, v) b

/-- The text of a line, if it has no line feed either.
Source: none
Kind: D -/
def scanText (make : Line → Reply) (s : Bytes) : Scanner Reply := fun b =>
  if h : 13 ∉ s ∧ 10 ∉ s then .done (make ⟨s, h⟩) b else .malformed

/-- What a first line with type byte `c` and text `s` begins, given the reader of the children.
Source: none
Kind: D -/
def scanBody (child : Scanner Reply) (c : UInt8) (s : Bytes) : Scanner Reply :=
  if c = 43 then scanText .simple s
  else if c = 45 then scanText .error s
  else if c = 58 then fun b => .done (.int (signedValue s)) b
  else if c = 36 then
    if s = [45, 49] then fun b => .done .null b
    else (payload (valueFrom 0 s)).bind fun a b => .done (.bulk a) b
  else if c = 95 then fun b => .done .null b
  else if c = 35 then fun b => .done (.bool (s = [116])) b
  else if c = 40 then fun b => .done (.bigNumber (signedValue s)) b
  else if c = 42 then (child.times (valueFrom 0 s)).bind fun rs b => .done (.array rs) b
  else if c = 37 then
    ((scanPair child).times (valueFrom 0 s)).bind fun kvs b => .done (.map kvs) b
  else fun _ => .malformed

/-- A reply, with its nesting bounded by `depth`.
Source: none
Kind: D -/
def scanReply : ℕ → Scanner Reply
  | 0 => fun _ => .malformed
  | depth + 1 => scanLine.bind fun l =>
      match l with
      | [] => fun _ => .malformed
      | c :: s => scanBody (scanReply depth) c s

/-- The reader of one reply. A reply has more bytes than levels.
Source: none
Kind: D -/
def decode : Scanner Reply := fun b => scanReply b.length b

/-- A reply is scanned by its type byte and its first line.
Source: none
Kind: L -/
theorem scanReply_line {c : UInt8} {s : Bytes} (hc : c ≠ 13) (hs : 13 ∉ s) (depth : ℕ)
    (rest : Bytes) :
    scanReply (depth + 1) (c :: (s ++ (crlf ++ rest))) =
      scanBody (scanReply depth) c s rest := by
  have hline : scanLine (c :: s ++ (crlf ++ rest)) = .done (c :: s) rest :=
    scanLine_line (by simp [hs, hc.symm]) rest
  rw [scanReply, Scanner.bind, ← List.cons_append, hline]
  rfl

/-- A line of text is scanned back.
Source: none
Kind: L -/
theorem scanText_line (make : Line → Reply) (s : Line) (rest : Bytes) :
    scanText make s.1 rest = .done (make s) rest := dif_pos s.2

/-- A bulk string is no absent value.
Source: none
Kind: L -/
theorem numeral_ne_minusOne (n : ℕ) : numeral n ≠ [45, 49] := numeral_ne_minus n [49]

section reading

variable {nul : Bytes} (hnul : nul = 95 :: crlf ∨ nul = 36 :: 45 :: 49 :: crlf)

include hnul

/-- Both forms of null are scanned back.
Source: none
Kind: L -/
theorem scanReply_nul (depth : ℕ) (rest : Bytes) :
    scanReply (depth + 1) (nul ++ rest) = .done .null rest := by
  rcases hnul with rfl | rfl
  · exact scanReply_line (c := 95) (s := []) (by decide) (by simp) depth rest
  · exact scanReply_line (c := 36) (s := [45, 49]) (by decide) (by decide) depth rest

/-- A depth that bounds an encoding is not zero.
Source: none
Kind: L -/
theorem Reply.exists_depth (r : Reply) {depth : ℕ} (h : (r.encode nul).length ≤ depth) :
    ∃ d, depth = d + 1 := by
  refine Nat.exists_eq_succ_of_ne_zero ?_
  rintro rfl
  have hnil : r.encode nul = [] := List.eq_nil_of_length_eq_zero (Nat.le_zero.mp h)
  cases r with
  | null =>
      rw [Reply.encode] at hnil
      rcases hnul with rfl | rfl <;> exact List.cons_ne_nil _ _ hnil
  | _ =>
      rw [Reply.encode] at hnil
      exact List.cons_ne_nil _ _ hnil

mutual

/-- The reader finds an encoded tree in front of any bytes. The recursion is on the tree; a child
has fewer bytes than its parent, so the depth suffices for it.
Source: none
Kind: P -/
theorem scanReply_encode : ∀ (r : Reply) {depth : ℕ} {rest : Bytes},
    (r.encode nul).length ≤ depth → scanReply depth (r.encode nul ++ rest) = .done r rest
  | .simple s, depth, rest, h => by
      obtain ⟨d, rfl⟩ := Reply.exists_depth hnul _ h
      rw [Reply.encode, List.cons_append, List.append_assoc, scanReply_line (by decide) s.2.1]
      exact scanText_line .simple s rest
  | .error msg, depth, rest, h => by
      obtain ⟨d, rfl⟩ := Reply.exists_depth hnul _ h
      rw [Reply.encode, List.cons_append, List.append_assoc, scanReply_line (by decide) msg.2.1]
      exact scanText_line .error msg rest
  | .int n, depth, rest, h => by
      obtain ⟨d, rfl⟩ := Reply.exists_depth hnul _ h
      rw [Reply.encode, List.cons_append, List.append_assoc,
        scanReply_line (by decide) (cr_notMem_signedNumeral n)]
      show Verdict.done (Reply.int (signedValue (signedNumeral n))) rest = _
      rw [signedValue_signedNumeral]
  | .bulk b, depth, rest, h => by
      obtain ⟨d, rfl⟩ := Reply.exists_depth hnul _ h
      have hpay : payload (valueFrom 0 (numeral b.length)) (b ++ (crlf ++ rest)) =
          .done b rest := by
        rw [valueFrom_numeral]
        exact payload_eq_done.mpr ⟨rfl, rfl⟩
      rw [Reply.encode, List.cons_append, List.append_assoc, List.append_assoc, List.append_assoc,
        scanReply_line (by decide) (cr_notMem_numeral b.length)]
      show (if numeral b.length = [45, 49] then _ else
        (payload (valueFrom 0 (numeral b.length))).bind fun a r => .done (.bulk a) r :
          Scanner Reply) (b ++ (crlf ++ rest)) = _
      rw [if_neg (numeral_ne_minusOne _), Scanner.bind, hpay]
      rfl
  | .null, depth, rest, h => by
      obtain ⟨d, rfl⟩ := Reply.exists_depth hnul _ h
      rw [Reply.encode]
      exact scanReply_nul hnul d rest
  | .bool b, depth, rest, h => by
      obtain ⟨d, rfl⟩ := Reply.exists_depth hnul _ h
      rw [Reply.encode]
      cases b with
      | true => exact scanReply_line (c := 35) (s := [116]) (by decide) (by decide) d rest
      | false => exact scanReply_line (c := 35) (s := [102]) (by decide) (by decide) d rest
  | .bigNumber x, depth, rest, h => by
      obtain ⟨d, rfl⟩ := Reply.exists_depth hnul _ h
      rw [Reply.encode, List.cons_append, List.append_assoc,
        scanReply_line (by decide) (cr_notMem_signedNumeral x)]
      show Verdict.done (Reply.bigNumber (signedValue (signedNumeral x))) rest = _
      rw [signedValue_signedNumeral]
  | .array rs, depth, rest, h => by
      obtain ⟨d, rfl⟩ := Reply.exists_depth hnul _ h
      rw [Reply.encode, List.length_cons, List.length_append, List.length_append] at h
      rw [Reply.encode, List.cons_append, List.append_assoc, List.append_assoc,
        scanReply_line (by decide) (cr_notMem_numeral rs.length)]
      show ((scanReply d).times (valueFrom 0 (numeral rs.length))
        (encodeReplies nul rs ++ rest)).bind _ = _
      rw [valueFrom_numeral, scanReplies_encode rs (by omega)]
      rfl
  | .map kvs, depth, rest, h => by
      obtain ⟨d, rfl⟩ := Reply.exists_depth hnul _ h
      rw [Reply.encode, List.length_cons, List.length_append, List.length_append] at h
      rw [Reply.encode, List.cons_append, List.append_assoc, List.append_assoc,
        scanReply_line (by decide) (cr_notMem_numeral kvs.length)]
      show ((scanPair (scanReply d)).times (valueFrom 0 (numeral kvs.length))
        (encodePairs nul kvs ++ rest)).bind _ = _
      rw [valueFrom_numeral, scanPairs_encode kvs (by omega)]
      rfl

/-- Encoded replies in sequence are scanned back.
Source: none
Kind: L -/
theorem scanReplies_encode : ∀ (rs : List Reply) {depth : ℕ} {rest : Bytes},
    (encodeReplies nul rs).length ≤ depth →
      (scanReply depth).times rs.length (encodeReplies nul rs ++ rest) = .done rs rest
  | [], depth, rest, h => by
      rw [encodeReplies]
      rfl
  | r :: rs, depth, rest, h => by
      rw [encodeReplies, List.length_append] at h
      rw [encodeReplies, List.append_assoc, List.length_cons, Scanner.times_succ,
        scanReply_encode r (by omega)]
      show ((scanReply depth).times rs.length (encodeReplies nul rs ++ rest)).bind _ = _
      rw [scanReplies_encode rs (by omega)]
      rfl

/-- Encoded pairs are scanned back.
Source: none
Kind: L -/
theorem scanPairs_encode : ∀ (kvs : List (Reply × Reply)) {depth : ℕ} {rest : Bytes},
    (encodePairs nul kvs).length ≤ depth →
      (scanPair (scanReply depth)).times kvs.length (encodePairs nul kvs ++ rest) =
        .done kvs rest
  | [], depth, rest, h => by
      rw [encodePairs]
      rfl
  | (k, v) :: kvs, depth, rest, h => by
      rw [encodePairs, List.length_append, List.length_append] at h
      have hpair : scanPair (scanReply depth)
          (k.encode nul ++ (v.encode nul ++ (encodePairs nul kvs ++ rest))) =
            .done (k, v) (encodePairs nul kvs ++ rest) := by
        rw [scanPair, Scanner.bind, scanReply_encode k (by omega)]
        show (scanReply depth (v.encode nul ++ (encodePairs nul kvs ++ rest))).bind _ = _
        rw [scanReply_encode v (by omega)]
        rfl
      rw [encodePairs, List.append_assoc, List.append_assoc, List.length_cons, Scanner.times_succ,
        hpair]
      show ((scanPair (scanReply depth)).times kvs.length (encodePairs nul kvs ++ rest)).bind _ = _
      rw [scanPairs_encode kvs (by omega)]
      rfl

end

end reading

/-- Whatever follows, the reader finds what the dialect shows of the tree and stops right after it.
Source: `internal/resp/writer.go` `Writer`
Kind: P -/
theorem decode_frame (proto : ℤ) (r : Reply) (rest : Bytes) :
    decode (r.frame proto ++ rest) = .done (r.seen proto) rest := by
  have hnul : nullBytes proto = 95 :: crlf ∨ nullBytes proto = 36 :: 45 :: 49 :: crlf := by
    unfold nullBytes
    split_ifs
    · exact Or.inl rfl
    · exact Or.inr rfl
  refine scanReply_encode hnul (r.seen proto) ?_
  rw [List.length_append]
  exact Nat.le_add_right _ _

/-- A run of replies of one dialect has one reading.
Source: `internal/resp/writer_resp3_test.go` `TestDialectSwitchOracle`
Kind: P -/
theorem frames_injective (proto : ℤ) {rs : List Reply} : ∀ {rs' : List Reply},
    rs.flatMap (Reply.frame proto) = rs'.flatMap (Reply.frame proto) →
      rs.map (Reply.seen proto) = rs'.map (Reply.seen proto) := by
  have hne : ∀ (r : Reply) (rest : Bytes), r.frame proto ++ rest ≠ [] := by
    intro r rest hnil
    have hread := decode_frame proto r rest
    rw [hnil] at hread
    cases hread
  induction rs with
  | nil =>
      intro rs' h
      cases rs' with
      | nil => rfl
      | cons r' rs' => exact absurd h.symm (hne r' _)
  | cons r rs ih =>
      intro rs' h
      cases rs' with
      | nil => exact absurd h (hne r _)
      | cons r' rs' =>
          rw [List.flatMap_cons, List.flatMap_cons] at h
          have hread := decode_frame proto r (rs.flatMap (Reply.frame proto))
          rw [h, decode_frame] at hread
          obtain ⟨hr, hrest⟩ := Verdict.done.inj hread
          rw [List.map_cons, List.map_cons, hr, ih hrest.symm]

/-- Replies in sequence are written as their frames in the dialect of the writer.
Source: `internal/resp/writer.go` `Writer`
Kind: L -/
theorem plain_emitAll (rs : List Reply) : ∀ {w : ScratchWriter}, w.plain.err = none →
    (emitAll rs w).plain = w.plain.append (rs.flatMap (Reply.frame w.plain.proto)) := by
  induction rs with
  | nil => exact fun _ => Writer.append_nil.symm
  | cons r rs ih =>
      intro w he
      have hr := r.plain_emit he
      rw [emitAll, ih (by rw [hr]; exact he), hr, Writer.append_append]
      rfl

/-- **Replies can be read back.** Let a writer in either dialect, whatever it has written and left
in its scratch array before, write a reply tree. The bytes it appends, in front of any other
bytes, decode to what the dialect shows of the tree and exactly those other bytes: the tree itself
under RESP3, the downgraded tree under RESP2. And two runs of replies that append the same bytes
show the same trees.
Source: `internal/resp/writer.go` `Writer`
Kind: P
Fidelity: exact -/
theorem replies_recoverable (w : ScratchWriter) (he : w.plain.err = none) :
    (∀ r : Reply, ∃ frame : Bytes, (r.emit w).plain.out = w.plain.out ++ frame ∧
      (r.emit w).plain.err = none ∧ ∀ rest : Bytes, decode (frame ++ rest) =
        .done (if 3 ≤ w.plain.proto then r else r.downgrade) rest) ∧
    ∀ rs rs' : List Reply, (emitAll rs w).plain.out = (emitAll rs' w).plain.out →
      rs.map (Reply.seen w.plain.proto) = rs'.map (Reply.seen w.plain.proto) := by
  constructor
  · intro r
    refine ⟨r.frame w.plain.proto, ?_, ?_, fun rest => decode_frame _ r rest⟩
    · rw [r.plain_emit he]
      rfl
    · rw [r.plain_emit he]
      exact he
  · intro rs rs' h
    rw [plain_emitAll rs he, plain_emitAll rs' he] at h
    exact frames_injective _ (List.append_cancel_left h)

/-- A map with a big number in it, on a RESP2 connection.
Source: `internal/resp/writer_resp3_test.go` `TestDialectSwitchOracle`
Kind: C -/
theorem replies_recoverable_downgraded :
    ∃ frame : Bytes,
      ((Reply.map [(.bulk [13, 10], .bigNumber 12)]).emit newScratchWriter).plain.out = frame ∧
        decode (frame ++ [43]) = .done (.array [.bulk [13, 10], .bulk [49, 50]]) [43] := by
  obtain ⟨frame, hout, -, hread⟩ :=
    (replies_recoverable newScratchWriter rfl).1 (.map [(.bulk [13, 10], .bigNumber 12)])
  exact ⟨frame, hout, hread [43]⟩

end CacheMoney.Resp
