import CacheMoney.Found.Decimal
import CacheMoney.Resp.Grammar

/-!
# The reply writer

`Writer` appends frames to its output in the dialect that it is set to. Its error is sticky: once
it is set nothing more is written. The sink accepts every write, so no method sets the error.

* Every method of the source returns the sticky error; here a method is a map of writers, and its
  result is the `err` of the writer it gives.
* `Writer.*_of_none`: what the methods append while the error is not set.
-/

namespace CacheMoney.Resp

open CacheMoney.Found

/-- The output so far, buffered or flushed, the sticky error and the dialect.
Source: `internal/resp/writer.go` `Writer`
Kind: D -/
structure Writer where
  out : Bytes
  err : Option ℕ
  proto : ℤ

/-- Source: `internal/resp/writer.go` `NewWriter`
Kind: D -/
def newWriter : Writer := ⟨[], none, 2⟩

namespace Writer

variable (w : Writer)

/-- Source: `internal/resp/writer.go` `SetProto`
Kind: D -/
def setProto (proto : ℤ) : Writer :=
  { w with proto := if proto < 2 then 2 else if 3 < proto then 3 else proto }

/-- The three primitives of the source, which write a string, a byte and a slice.
Source: `internal/resp/writer.go` `writeString`, `writeByte`, `writeBytes`
Kind: D -/
def writeBytes (b : Bytes) : Writer :=
  match w.err with
  | some _ => w
  | none => { w with out := w.out ++ b }

/-- Source: `internal/resp/writer.go` `writeNumber`
Kind: D -/
def writeNumber (n : ℤ) : Writer := w.writeBytes (signedNumeral n)

/-- Source: `internal/resp/writer.go` `writeLenPrefixed`
Kind: D -/
def writeLenPrefixed (type : UInt8) (body : Bytes) : Writer :=
  ((((w.writeBytes [type]).writeNumber body.length).writeBytes crlf).writeBytes body).writeBytes crlf

/-- A line: a type byte, a text and the line end.
Source: `internal/resp/writer.go` `WriteSimpleString`, `WriteError`
Kind: D -/
def writeLine (type : UInt8) (s : Bytes) : Writer :=
  ((w.writeBytes [type]).writeBytes s).writeBytes crlf

/-- A line with a number.
Source: `internal/resp/writer.go` `WriteInt`, `WriteArrayHeader`
Kind: D -/
def writeNumberLine (type : UInt8) (n : ℤ) : Writer :=
  ((w.writeBytes [type]).writeNumber n).writeBytes crlf

/-- Source: `internal/resp/writer.go` `WriteSimpleString`
Kind: D -/
def writeSimpleString (s : Bytes) : Writer := w.writeLine 43 s

/-- Source: `internal/resp/writer.go` `WriteError`
Kind: D -/
def writeError (msg : Bytes) : Writer := w.writeLine 45 msg

/-- Source: `internal/resp/writer.go` `WriteInt`
Kind: D -/
def writeInt (n : ℤ) : Writer := w.writeNumberLine 58 n

/-- Source: `internal/resp/writer.go` `WriteBulk`, `WriteBulkString`
Kind: D -/
def writeBulk (b : Bytes) : Writer := w.writeLenPrefixed 36 b

/-- Source: `internal/resp/writer.go` `WriteNull`
Kind: D -/
def writeNull : Writer :=
  if 3 ≤ w.proto then w.writeBytes (95 :: crlf) else w.writeBytes (36 :: 45 :: 49 :: crlf)

/-- Source: `internal/resp/writer.go` `WriteArrayHeader`
Kind: D -/
def writeArrayHeader (n : ℤ) : Writer := w.writeNumberLine 42 n

/-- Source: `internal/resp/writer.go` `WriteMapHeader`
Kind: D -/
def writeMapHeader (n : ℤ) : Writer :=
  if 3 ≤ w.proto then w.writeNumberLine 37 n else w.writeNumberLine 42 (2 * n)

/-- Source: `internal/resp/writer.go` `WriteBool`
Kind: D -/
def writeBool (b : Bool) : Writer :=
  if 3 ≤ w.proto ∧ b then w.writeBytes (35 :: 116 :: crlf)
  else if 3 ≤ w.proto then w.writeBytes (35 :: 102 :: crlf)
  else if b then w.writeBytes (58 :: 49 :: crlf)
  else w.writeBytes (58 :: 48 :: crlf)

/-- Source: `internal/resp/writer.go` `WriteBigNumber`
Kind: D -/
def writeBigNumber (x : ℤ) : Writer :=
  if 3 ≤ w.proto then w.writeLine 40 (signedNumeral x)
  else w.writeLenPrefixed 36 (signedNumeral x)

variable {w}

/-! ### What is appended -/

variable (w) in
/-- The writer with more output.
Source: none
Kind: D -/
def append (b : Bytes) : Writer := { w with out := w.out ++ b }

/-- What was written, and the new bytes.
Source: none
Kind: L -/
@[simp] theorem append_out (b : Bytes) : (w.append b).out = w.out ++ b := rfl

/-- Appending keeps the error.
Source: none
Kind: L -/
@[simp] theorem append_err (b : Bytes) : (w.append b).err = w.err := rfl

/-- Appending twice is appending at once.
Source: none
Kind: L -/
theorem append_append (b b' : Bytes) : (w.append b).append b' = w.append (b ++ b') := by
  simp [append]

/-- A writer without an error appends bytes.
Source: `internal/resp/writer.go` `Writer`
Kind: L -/
theorem writeBytes_of_none (h : w.err = none) (b : Bytes) : w.writeBytes b = w.append b := by
  unfold writeBytes append
  cases w
  subst h
  rfl

/-- A writer without an error appends a line.
Source: `internal/resp/writer.go` `Writer`
Kind: L -/
theorem writeLine_of_none (h : w.err = none) (type : UInt8) (s : Bytes) :
    w.writeLine type s = w.append (type :: (s ++ crlf)) := by
  simp only [writeLine, writeBytes_of_none, append_err, h, append_append,
    List.cons_append, List.nil_append]

/-- A writer without an error appends a line with a number.
Source: `internal/resp/writer.go` `Writer`
Kind: L -/
theorem writeNumberLine_of_none (h : w.err = none) (type : UInt8) (n : ℤ) :
    w.writeNumberLine type n = w.append (type :: (signedNumeral n ++ crlf)) :=
  writeLine_of_none h type (signedNumeral n)

/-- A writer without an error appends a length, the bytes and a line end.
Source: `internal/resp/writer.go` `writeLenPrefixed`
Kind: L -/
theorem writeLenPrefixed_of_none (h : w.err = none) (type : UInt8) (body : Bytes) :
    w.writeLenPrefixed type body =
      w.append (type :: (numeral body.length ++ (crlf ++ (body ++ crlf)))) := by
  have hnum : signedNumeral body.length = numeral body.length := by simp [signedNumeral]
  simp only [writeLenPrefixed, writeNumber, writeBytes_of_none, append_err, h, append_append, hnum,
    List.append_assoc, List.cons_append, List.nil_append]

end Writer

end CacheMoney.Resp
