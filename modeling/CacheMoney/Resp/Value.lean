import CacheMoney.Resp.Writer

/-!
# RESP values

What a client reads back: one value after another, each of which says with its first byte what it
is and where it ends.

* `Value`: the values of both dialects, and `Value.encode`, their bytes.
* `Value.Sound`: no line has a line end inside, and a map has a value for every key.
* `Value.In proto`: the value is one of the dialect. The two dialects write the absent value
  differently, and only the third version has maps.
* `encodeAll_injective`: sound values one after another can be read back in one way only.
-/

namespace CacheMoney.Resp

open CacheMoney.Found

/-- A value. A map lists its keys and values in turn.
Source: `internal/resp/writer.go` `Writer`
Kind: D -/
inductive Value where
  | simple (s : Bytes)
  | error (s : Bytes)
  | int (n : ℤ)
  | bulk (b : Bytes)
  /-- The absent value of the second version, a bulk string of length `-1`. -/
  | nullBulk
  /-- The absent value of the third version. -/
  | null
  | array (vs : List Value)
  | map (kvs : List Value)

mutual

/-- The bytes of a value.
Source: `internal/resp/writer.go` `Writer`
Kind: D -/
def Value.encode : Value → Bytes
  | .simple s => 43 :: (s ++ crlf)
  | .error s => 45 :: (s ++ crlf)
  | .int n => 58 :: (signedNumeral n ++ crlf)
  | .bulk b => 36 :: (numeral b.length ++ (crlf ++ (b ++ crlf)))
  | .nullBulk => 36 :: 45 :: 49 :: crlf
  | .null => 95 :: crlf
  | .array vs => 42 :: (numeral vs.length ++ (crlf ++ encodeAll vs))
  | .map kvs => 37 :: (numeral (kvs.length / 2) ++ (crlf ++ encodeAll kvs))

/-- Values one after another.
Source: `internal/resp/writer.go` `Writer`
Kind: D -/
def encodeAll : List Value → Bytes
  | [] => []
  | v :: vs => v.encode ++ encodeAll vs

end

/-- A text that fits in a line.
Source: `internal/resp/writer.go` `WriteError`
Kind: D -/
def OneLine (s : Bytes) : Prop := 13 ∉ s ∧ 10 ∉ s

mutual

/-- Source: none
Kind: D -/
def Value.Sound : Value → Prop
  | .simple s => OneLine s
  | .error s => OneLine s
  | .int _ => True
  | .bulk _ => True
  | .nullBulk => True
  | .null => True
  | .array vs => SoundAll vs
  | .map kvs => 2 ∣ kvs.length ∧ SoundAll kvs

/-- Source: none
Kind: D -/
def SoundAll : List Value → Prop
  | [] => True
  | v :: vs => v.Sound ∧ SoundAll vs

end

mutual

/-- The value is one of the dialect; an integer has 64 bits in both.
Source: `internal/resp/writer.go` `SetProto`
Kind: D -/
def Value.In (proto : ℤ) : Value → Prop
  | .simple _ => True
  | .error _ => True
  | .int n => -2 ^ 63 ≤ n ∧ n < 2 ^ 63
  | .bulk _ => True
  | .nullBulk => proto = 2
  | .null => proto = 3
  | .array vs => AllIn proto vs
  | .map kvs => proto = 3 ∧ AllIn proto kvs

/-- Source: `internal/resp/writer.go` `SetProto`
Kind: D -/
def AllIn (proto : ℤ) : List Value → Prop
  | [] => True
  | v :: vs => v.In proto ∧ AllIn proto vs

end

/-! ### Reading back -/

/-- A signed numeral has no carriage return.
Source: none
Kind: L -/
theorem cr_notMem_signedNumeral (z : ℤ) : 13 ∉ signedNumeral z := by
  intro h
  rcases isDigit_or_minus_of_mem_signedNumeral h with h | h
  · exact absurd h (by decide)
  · exact absurd h (by decide)

/-- A numeral has no carriage return.
Source: none
Kind: L -/
theorem cr_notMem_numeral (n : ℕ) : 13 ∉ numeral n := by
  rw [← signedNumeral_natCast]
  exact cr_notMem_signedNumeral n

/-- A line ends at its first carriage return.
Source: none
Kind: L -/
theorem line_cancel {s s' : Bytes} :
    ∀ {r r' : Bytes}, 13 ∉ s → 13 ∉ s' → s ++ (crlf ++ r) = s' ++ (crlf ++ r') →
      s = s' ∧ r = r' := by
  induction s generalizing s' with
  | nil =>
      intro r r' _ hs' h
      cases s' with
      | nil => exact ⟨rfl, List.append_cancel_left h⟩
      | cons c s' =>
          obtain ⟨rfl, -⟩ := List.cons.inj h
          exact absurd List.mem_cons_self hs'
  | cons c s ih =>
      intro r r' hs hs' h
      cases s' with
      | nil =>
          obtain ⟨rfl, -⟩ := List.cons.inj h
          exact absurd List.mem_cons_self hs
      | cons c' s' =>
          obtain ⟨rfl, htail⟩ := List.cons.inj h
          obtain ⟨rfl, rfl⟩ := ih (fun hm => hs (List.mem_cons_of_mem _ hm))
            (fun hm => hs' (List.mem_cons_of_mem _ hm)) htail
          exact ⟨rfl, rfl⟩

/-- A line with a numeral tells the number and the rest.
Source: none
Kind: L -/
theorem numeral_line_cancel {m n : ℕ} {r r' : Bytes}
    (h : numeral m ++ (crlf ++ r) = numeral n ++ (crlf ++ r')) : m = n ∧ r = r' := by
  obtain ⟨hn, hr⟩ := line_cancel (cr_notMem_numeral m) (cr_notMem_numeral n) h
  exact ⟨numeral_injective hn, hr⟩

/-- The length of a bulk string is not the `-1` of the absent value.
Source: none
Kind: L -/
theorem bulk_ne_nullBulk {b r r' : Bytes} :
    (Value.bulk b).encode ++ r ≠ Value.nullBulk.encode ++ r' := by
  intro h
  rw [Value.encode, Value.encode, List.cons_append, List.cons_append, List.cons.injEq] at h
  cases hn : numeral b.length with
  | nil => exact numeral_ne_nil _ hn
  | cons c t =>
      rw [hn] at h
      obtain ⟨rfl, -⟩ := List.cons.inj h.2
      exact numeral_ne_minus _ _ hn

mutual

/-- A sound value ends where its first bytes say.
Source: none
Kind: L -/
theorem Value.encode_cancel : ∀ {v v' : Value} {r r' : Bytes}, v.Sound → v'.Sound →
    v.encode ++ r = v'.encode ++ r' → v = v' ∧ r = r'
  | .simple s, v', r, r', hs, hs', h => by
      cases v' with
      | simple s' =>
          rw [Value.encode, Value.encode] at h
          simp only [List.cons_append, List.append_assoc, List.cons.injEq, true_and] at h
          obtain ⟨rfl, rfl⟩ := line_cancel hs.1 hs'.1 h
          exact ⟨rfl, rfl⟩
      | _ => exact absurd (List.cons.inj h).1 (by decide)
  | .error s, v', r, r', hs, hs', h => by
      cases v' with
      | error s' =>
          rw [Value.encode, Value.encode] at h
          simp only [List.cons_append, List.append_assoc, List.cons.injEq, true_and] at h
          obtain ⟨rfl, rfl⟩ := line_cancel hs.1 hs'.1 h
          exact ⟨rfl, rfl⟩
      | _ => exact absurd (List.cons.inj h).1 (by decide)
  | .int n, v', r, r', hs, hs', h => by
      cases v' with
      | int n' =>
          rw [Value.encode, Value.encode] at h
          simp only [List.cons_append, List.append_assoc, List.cons.injEq, true_and] at h
          obtain ⟨hn, rfl⟩ := line_cancel (cr_notMem_signedNumeral n) (cr_notMem_signedNumeral n') h
          exact ⟨by rw [signedNumeral_injective hn], rfl⟩
      | _ => exact absurd (List.cons.inj h).1 (by decide)
  | .bulk b, v', r, r', hs, hs', h => by
      cases v' with
      | bulk b' =>
          rw [Value.encode, Value.encode] at h
          simp only [List.cons_append, List.append_assoc, List.cons.injEq, true_and] at h
          obtain ⟨hlen, h⟩ := numeral_line_cancel h
          obtain ⟨rfl, hend⟩ := List.append_inj h hlen
          exact ⟨rfl, List.append_cancel_left hend⟩
      | nullBulk => exact absurd h bulk_ne_nullBulk
      | _ => exact absurd (List.cons.inj h).1 (by decide)
  | .nullBulk, v', r, r', hs, hs', h => by
      cases v' with
      | nullBulk => exact ⟨rfl, List.append_cancel_left h⟩
      | bulk b => exact absurd h.symm bulk_ne_nullBulk
      | _ => exact absurd (List.cons.inj h).1 (by decide)
  | .null, v', r, r', hs, hs', h => by
      cases v' with
      | null => exact ⟨rfl, List.append_cancel_left h⟩
      | _ => exact absurd (List.cons.inj h).1 (by decide)
  | .array vs, v', r, r', hs, hs', h => by
      cases v' with
      | array vs' =>
          rw [Value.encode, Value.encode] at h
          simp only [List.cons_append, List.append_assoc, List.cons.injEq, true_and] at h
          obtain ⟨hlen, h⟩ := numeral_line_cancel h
          obtain ⟨rfl, rfl⟩ := encodeAll_cancel hs hs' hlen h
          exact ⟨rfl, rfl⟩
      | _ => exact absurd (List.cons.inj h).1 (by decide)
  | .map kvs, v', r, r', hs, hs', h => by
      cases v' with
      | map kvs' =>
          rw [Value.encode, Value.encode] at h
          simp only [List.cons_append, List.append_assoc, List.cons.injEq, true_and] at h
          obtain ⟨hlen, h⟩ := numeral_line_cancel h
          have heven := hs.1
          have heven' := hs'.1
          obtain ⟨rfl, rfl⟩ := encodeAll_cancel hs.2 hs'.2 (by omega) h
          exact ⟨rfl, rfl⟩
      | _ => exact absurd (List.cons.inj h).1 (by decide)

/-- Values of equal number are told by their encodings.
Source: none
Kind: L -/
theorem encodeAll_cancel : ∀ {vs vs' : List Value} {r r' : Bytes}, SoundAll vs → SoundAll vs' →
    vs.length = vs'.length → encodeAll vs ++ r = encodeAll vs' ++ r' → vs = vs' ∧ r = r'
  | [], [], _, _, _, _, _, h => ⟨rfl, h⟩
  | v :: vs, v' :: vs', r, r', hs, hs', hlen, h => by
      rw [encodeAll, encodeAll, List.append_assoc, List.append_assoc] at h
      obtain ⟨rfl, hrest⟩ := Value.encode_cancel hs.1 hs'.1 h
      obtain ⟨rfl, rfl⟩ := encodeAll_cancel hs.2 hs'.2 (Nat.succ.inj hlen) hrest
      exact ⟨rfl, rfl⟩

end

/-- An encoding has at least one byte.
Source: none
Kind: L -/
theorem Value.encode_ne_nil (v : Value) : v.encode ≠ [] := by
  cases v <;> rw [Value.encode] <;> exact List.cons_ne_nil _ _

/-- Sound values one after another have one reading only.
Source: none
Kind: P -/
theorem encodeAll_injective {vs : List Value} :
    ∀ {vs' : List Value}, SoundAll vs → SoundAll vs' → encodeAll vs = encodeAll vs' → vs = vs' := by
  induction vs with
  | nil =>
      intro vs' _ _ h
      cases vs' with
      | nil => rfl
      | cons v' vs' => exact absurd h.symm (List.append_ne_nil_of_left_ne_nil v'.encode_ne_nil _)
  | cons v vs ih =>
      intro vs' hs hs' h
      cases vs' with
      | nil => exact absurd h (List.append_ne_nil_of_left_ne_nil v.encode_ne_nil _)
      | cons v' vs' =>
          obtain ⟨rfl, hrest⟩ := Value.encode_cancel hs.1 hs'.1 h
          rw [ih hs.2 hs'.2 hrest]

/-- Different integers have different encodings.
Source: none
Kind: L -/
theorem int_encode_injective {m n : ℤ} (h : (Value.int m).encode = (Value.int n).encode) : m = n := by
  have hcancel : (Value.int m).encode ++ [] = (Value.int n).encode ++ [] := by rw [h]
  have hsound : ∀ k, (Value.int k).Sound := fun _ => trivial
  exact Value.int.inj (Value.encode_cancel (hsound m) (hsound n) hcancel).1

/-! ### What the writer writes -/

namespace Writer

variable {w : Writer} (h : w.err = none)

include h

/-- A writer without an error appends a simple string.
Source: `internal/resp/writer.go` `WriteSimpleString`
Kind: L -/
theorem writeSimpleString_of_none (s : Bytes) :
    w.writeSimpleString s = w.append (Value.simple s).encode := by
  rw [Value.encode]
  exact writeLine_of_none h 43 s

/-- A writer without an error appends an error reply.
Source: `internal/resp/writer.go` `WriteError`
Kind: L -/
theorem writeError_of_none (s : Bytes) : w.writeError s = w.append (Value.error s).encode := by
  rw [Value.encode]
  exact writeLine_of_none h 45 s

/-- A writer without an error appends an integer.
Source: `internal/resp/writer.go` `WriteInt`
Kind: L -/
theorem writeInt_of_none (n : ℤ) : w.writeInt n = w.append (Value.int n).encode := by
  rw [Value.encode]
  exact writeNumberLine_of_none h 58 n

/-- A writer without an error appends a bulk string.
Source: `internal/resp/writer.go` `WriteBulk`
Kind: L -/
theorem writeBulk_of_none (b : Bytes) : w.writeBulk b = w.append (Value.bulk b).encode := by
  rw [Value.encode]
  exact writeLenPrefixed_of_none h 36 b

/-- A writer without an error appends null in its dialect.
Source: `internal/resp/writer.go` `WriteNull`
Kind: L -/
theorem writeNull_of_none :
    w.writeNull = w.append (if 3 ≤ w.proto then Value.null else Value.nullBulk).encode := by
  unfold writeNull
  by_cases hp : 3 ≤ w.proto
  · rw [if_pos hp, if_pos hp, writeBytes_of_none h, Value.encode]
  · rw [if_neg hp, if_neg hp, writeBytes_of_none h, Value.encode]

end Writer

end CacheMoney.Resp
