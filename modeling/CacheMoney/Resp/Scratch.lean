import CacheMoney.Resp.Writer

/-!
# The writer and its scratch buffer

`Writer` leaves out where the digits of a number are made. The source makes them in a fixed array
of the writer, and a slice of that array changes when the next number is made there. Here the
array and the slices that share it are explicit.

* `ScratchWriter`: a writer and its scratch array, which always has `scratchLen` bytes.
* `Memory`: a slice, which is a part of the scratch array or has memory of its own.
* `ScratchWriter.plain_*`: every method appends what the method of `Writer` appends. For the big
  number this rests on the copy that the source makes before it writes the length.
-/

namespace CacheMoney.Resp

open CacheMoney.Found

/-- Source: `internal/resp/writer.go` `scratchLen`
Kind: D -/
def scratchLen : ℕ := 32

/-- A byte slice.
Source: `internal/resp/writer.go` `Writer`
Kind: D -/
inductive Memory where
  /-- The first bytes of the scratch array, shared with it. -/
  | scratch (len : ℕ)
  /-- Memory that nothing else writes. -/
  | own (b : Bytes)

/-- `len(m)`.
Source: `internal/resp/writer.go` `Writer`
Kind: D -/
def Memory.len : Memory → ℕ
  | .scratch n => n
  | .own b => b.length

/-- Source: `internal/resp/writer.go` `Writer`
Kind: D -/
structure ScratchWriter where
  plain : Writer
  scratch : Bytes
  length_scratch : scratch.length = scratchLen

/-- Source: `internal/resp/writer.go` `NewWriter`
Kind: D -/
def newScratchWriter : ScratchWriter := ⟨newWriter, List.replicate scratchLen 0, rfl⟩

namespace ScratchWriter

variable (w : ScratchWriter)

/-- Source: `internal/resp/writer.go` `SetProto`
Kind: D -/
def setProto (proto : ℤ) : ScratchWriter := { w with plain := w.plain.setProto proto }

/-- The bytes that a slice holds at this moment.
Source: `internal/resp/writer.go` `Writer`
Kind: D -/
def load : Memory → Bytes
  | .scratch n => w.scratch.take n
  | .own b => b

/-- `append(w.scratch[:0], b...)`: in the array if it has room, else in new memory. Both
`strconv.AppendInt` and `big.Int.Append` end in it.
Source: `internal/resp/writer.go` `writeNumber`, `WriteBigNumber`
Kind: D -/
def appendScratch (b : Bytes) : Memory × ScratchWriter :=
  if h : b.length ≤ scratchLen then
    (.scratch b.length,
      { w with
        scratch := b ++ w.scratch.drop b.length
        length_scratch := by
          rw [List.length_append, List.length_drop, w.length_scratch]
          omega })
  else (.own b, w)

/-- Source: `internal/resp/writer.go` `writeString`, `writeByte`, `writeBytes`
Kind: D -/
def writeBytes (m : Memory) : ScratchWriter := { w with plain := w.plain.writeBytes (w.load m) }

/-- Source: `internal/resp/writer.go` `writeNumber`
Kind: D -/
def writeNumber (n : ℤ) : ScratchWriter :=
  match w.plain.err with
  | some _ => w
  | none =>
      let (body, w) := w.appendScratch (signedNumeral n)
      w.writeBytes body

/-- Source: `internal/resp/writer.go` `writeLenPrefixed`
Kind: D -/
def writeLenPrefixed (type : UInt8) (body : Memory) : ScratchWriter :=
  ((((w.writeBytes (.own [type])).writeNumber body.len).writeBytes (.own crlf)).writeBytes
    body).writeBytes (.own crlf)

/-- Source: `internal/resp/writer.go` `WriteSimpleString`, `WriteError`
Kind: D -/
def writeLine (type : UInt8) (s : Memory) : ScratchWriter :=
  ((w.writeBytes (.own [type])).writeBytes s).writeBytes (.own crlf)

/-- Source: `internal/resp/writer.go` `WriteInt`, `WriteArrayHeader`
Kind: D -/
def writeNumberLine (type : UInt8) (n : ℤ) : ScratchWriter :=
  ((w.writeBytes (.own [type])).writeNumber n).writeBytes (.own crlf)

/-- Source: `internal/resp/writer.go` `WriteSimpleString`
Kind: D -/
def writeSimpleString (s : Bytes) : ScratchWriter := w.writeLine 43 (.own s)

/-- Source: `internal/resp/writer.go` `WriteError`
Kind: D -/
def writeError (msg : Bytes) : ScratchWriter := w.writeLine 45 (.own msg)

/-- Source: `internal/resp/writer.go` `WriteInt`
Kind: D -/
def writeInt (n : ℤ) : ScratchWriter := w.writeNumberLine 58 n

/-- Source: `internal/resp/writer.go` `WriteBulk`, `WriteBulkString`
Kind: D -/
def writeBulk (b : Bytes) : ScratchWriter := w.writeLenPrefixed 36 (.own b)

/-- Source: `internal/resp/writer.go` `WriteNull`
Kind: D -/
def writeNull : ScratchWriter :=
  if 3 ≤ w.plain.proto then w.writeBytes (.own (95 :: crlf))
  else w.writeBytes (.own (36 :: 45 :: 49 :: crlf))

/-- Source: `internal/resp/writer.go` `WriteArrayHeader`
Kind: D -/
def writeArrayHeader (n : ℤ) : ScratchWriter := w.writeNumberLine 42 n

/-- Source: `internal/resp/writer.go` `WriteMapHeader`
Kind: D -/
def writeMapHeader (n : ℤ) : ScratchWriter :=
  if 3 ≤ w.plain.proto then w.writeNumberLine 37 n else w.writeNumberLine 42 (2 * n)

/-- Source: `internal/resp/writer.go` `WriteBool`
Kind: D -/
def writeBool (b : Bool) : ScratchWriter :=
  if 3 ≤ w.plain.proto ∧ b then w.writeBytes (.own (35 :: 116 :: crlf))
  else if 3 ≤ w.plain.proto then w.writeBytes (.own (35 :: 102 :: crlf))
  else if b then w.writeBytes (.own (58 :: 49 :: crlf))
  else w.writeBytes (.own (58 :: 48 :: crlf))

/-- Source: `internal/resp/writer.go` `WriteBigNumber`
Kind: D -/
def writeBigNumber (x : ℤ) : ScratchWriter :=
  let (body, w) := w.appendScratch (signedNumeral x)
  if 3 ≤ w.plain.proto then w.writeLine 40 body
  else
    -- The copy: the length is made in the array that `body` shares.
    let buf : Memory := .own (w.load body)
    w.writeLenPrefixed 36 buf

variable {w}

/-! ### What the methods append -/

/-- Bytes are appended from wherever the slice points.
Source: `internal/resp/writer.go` `Writer`
Kind: L -/
@[simp] theorem plain_writeBytes (m : Memory) :
    (w.writeBytes m).plain = w.plain.writeBytes (w.load m) := rfl

/-- A slice with memory of its own keeps its bytes.
Source: `internal/resp/writer.go` `Writer`
Kind: L -/
@[simp] theorem load_own (b : Bytes) : w.load (.own b) = b := rfl

/-- Appending does not touch the scratch array.
Source: `internal/resp/writer.go` `Writer`
Kind: L -/
@[simp] theorem load_writeBytes (m m' : Memory) : (w.writeBytes m).load m' = w.load m' := by
  cases m' <;> rfl

/-- Making digits in the scratch array appends nothing.
Source: `internal/resp/writer.go` `Writer`
Kind: L -/
@[simp] theorem plain_appendScratch (b : Bytes) : (w.appendScratch b).2.plain = w.plain := by
  unfold appendScratch
  split_ifs <;> rfl

/-- Right after the append the slice holds what was appended.
Source: `internal/resp/writer.go` `writeNumber`, `WriteBigNumber`
Kind: L -/
@[simp] theorem load_appendScratch (b : Bytes) :
    (w.appendScratch b).2.load (w.appendScratch b).1 = b := by
  unfold appendScratch
  split_ifs with h
  · exact List.take_left
  · rfl

/-- A number is written as `Writer` writes it.
Source: `internal/resp/writer.go` `writeNumber`
Kind: L -/
@[simp] theorem plain_writeNumber (n : ℤ) :
    (w.writeNumber n).plain = w.plain.writeNumber n := by
  unfold writeNumber Writer.writeNumber
  cases herr : w.plain.err with
  | some e =>
      unfold Writer.writeBytes
      rw [herr]
  | none =>
      show ((w.appendScratch _).2.writeBytes (w.appendScratch _).1).plain = _
      rw [plain_writeBytes, load_appendScratch, plain_appendScratch]

/-- A line is written as `Writer` writes it.
Source: `internal/resp/writer.go` `Writer`
Kind: L -/
theorem plain_writeLine (type : UInt8) (m : Memory) :
    (w.writeLine type m).plain = w.plain.writeLine type (w.load m) := by
  simp [writeLine, Writer.writeLine]

/-- A line with a number is written as `Writer` writes it.
Source: `internal/resp/writer.go` `Writer`
Kind: L -/
theorem plain_writeNumberLine (type : UInt8) (n : ℤ) :
    (w.writeNumberLine type n).plain = w.plain.writeNumberLine type n := by
  simp [writeNumberLine, Writer.writeNumberLine]

/-- The number does not reach a body with memory of its own.
Source: `internal/resp/writer.go` `writeLenPrefixed`
Kind: L -/
theorem plain_writeLenPrefixed (type : UInt8) (b : Bytes) :
    (w.writeLenPrefixed type (.own b)).plain = w.plain.writeLenPrefixed type b := by
  simp [writeLenPrefixed, Writer.writeLenPrefixed, Memory.len]

/-- A simple string is written as `Writer` writes it.
Source: `internal/resp/writer.go` `WriteSimpleString`
Kind: L -/
theorem plain_writeSimpleString (s : Bytes) :
    (w.writeSimpleString s).plain = w.plain.writeSimpleString s := plain_writeLine 43 (.own s)

/-- An error is written as `Writer` writes it.
Source: `internal/resp/writer.go` `WriteError`
Kind: L -/
theorem plain_writeError (msg : Bytes) : (w.writeError msg).plain = w.plain.writeError msg :=
  plain_writeLine 45 (.own msg)

/-- An integer is written as `Writer` writes it.
Source: `internal/resp/writer.go` `WriteInt`
Kind: L -/
theorem plain_writeInt (n : ℤ) : (w.writeInt n).plain = w.plain.writeInt n :=
  plain_writeNumberLine 58 n

/-- A bulk string is written as `Writer` writes it.
Source: `internal/resp/writer.go` `WriteBulk`
Kind: L -/
theorem plain_writeBulk (b : Bytes) : (w.writeBulk b).plain = w.plain.writeBulk b :=
  plain_writeLenPrefixed 36 b

/-- An array header is written as `Writer` writes it.
Source: `internal/resp/writer.go` `WriteArrayHeader`
Kind: L -/
theorem plain_writeArrayHeader (n : ℤ) :
    (w.writeArrayHeader n).plain = w.plain.writeArrayHeader n := plain_writeNumberLine 42 n

/-- Null is written as `Writer` writes it.
Source: `internal/resp/writer.go` `WriteNull`
Kind: L -/
theorem plain_writeNull : w.writeNull.plain = w.plain.writeNull := by
  unfold writeNull Writer.writeNull
  split_ifs <;> rfl

/-- A map header is written as `Writer` writes it.
Source: `internal/resp/writer.go` `WriteMapHeader`
Kind: L -/
theorem plain_writeMapHeader (n : ℤ) :
    (w.writeMapHeader n).plain = w.plain.writeMapHeader n := by
  unfold writeMapHeader Writer.writeMapHeader
  split_ifs
  · exact plain_writeNumberLine 37 n
  · exact plain_writeNumberLine 42 (2 * n)

/-- A boolean is written as `Writer` writes it.
Source: `internal/resp/writer.go` `WriteBool`
Kind: L -/
theorem plain_writeBool (b : Bool) : (w.writeBool b).plain = w.plain.writeBool b := by
  unfold writeBool Writer.writeBool
  split_ifs <;> rfl

/-- The big number is written as if its digits had memory of their own.
Source: `internal/resp/writer.go` `WriteBigNumber`
Kind: P -/
theorem plain_writeBigNumber (x : ℤ) :
    (w.writeBigNumber x).plain = w.plain.writeBigNumber x := by
  unfold writeBigNumber Writer.writeBigNumber
  simp only [plain_appendScratch, load_appendScratch]
  split_ifs
  · rw [plain_writeLine, load_appendScratch, plain_appendScratch]
  · rw [plain_writeLenPrefixed, plain_appendScratch]

end ScratchWriter

end CacheMoney.Resp
