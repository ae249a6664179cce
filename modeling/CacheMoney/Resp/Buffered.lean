import CacheMoney.Found.Stateful
import CacheMoney.Resp.Reader

/-!
# The reader over a buffer

`Resp.Reader` reads from the bytes that are still to come. Here are the buffer and the source below
it, as `bufio.Reader` and `io.ReadFull` use them: the source hands the stream out in pieces, and a
piece may be empty; `ReadSlice` fills the buffer until it holds a line; `Read` copies out of the
buffer, takes one more piece when the buffer is empty, and goes past the buffer for a read that is
larger than it. An error of the source is kept until the bytes before it are handed out.

* `Bufio.readCommand`: the code of `ReadCommand` over the buffer.
* `ReaderOn.Simulates.readCommand`: over corresponding primitives the code returns the same.
* `readCommand_refines`: so on the buffer it does what `Reader.readCommand` does on the bytes of the
  buffer and the pieces to come, and the buffer is the only state a partial read leaves behind.

The source reports its end by itself, not together with bytes, and goes on to report it, as a
network connection does.
-/

namespace CacheMoney.Resp

open CacheMoney.Found

/-! ### The buffer -/

/-- Source: `internal/resp/reader.go` `Reader`
Kind: D -/
structure Bufio where
  limits : Limits
  /-- `len(b.buf)`. -/
  size : ℕ
  /-- `b.buf[b.r:b.w]`. -/
  pending : Bytes
  /-- `b.err`. -/
  err : Option StreamEnd
  /-- What the source's next reads give, and how it ends. -/
  pieces : List Bytes
  ending : StreamEnd

/-- `bufio.maxConsecutiveEmptyReads`.
Source: none
Kind: D -/
def maxConsecutiveEmptyReads : ℕ := 100

/-- `io.ErrNoProgress`.
Source: none
Kind: D -/
def errNoProgress : StreamEnd := .fault 0

/-- The pieces after a read of at most `n` bytes of `c`.
Source: none
Kind: D -/
def piecesAfter (n : ℕ) (c : Bytes) (cs : List Bytes) : List Bytes :=
  if c.length ≤ n then cs else c.drop n :: cs

/-- `bufio.Reader.fill`, with its remaining tries.
Source: none
Kind: D -/
def Bufio.fill : ℕ → Bufio → Bufio
  | 0, b => { b with err := some errNoProgress }
  | tries + 1, b =>
      match b.pieces with
      | [] => { b with err := some b.ending }
      | c :: cs =>
          let room := b.size - b.pending.length
          let b' := { b with pending := b.pending ++ c.take room, pieces := piecesAfter room c cs }
          if (c.take room).isEmpty then Bufio.fill tries b' else b'

/-- Source: none
Kind: D -/
abbrev BufM (α : Type) := EStateM ReadErr Bufio α

/-- `bufio.Reader.ReadSlice('\n')`. Every round but the last puts a byte into the buffer or ends
the source, so `size + 2` rounds are enough.
Source: none
Kind: D -/
def Bufio.readSliceLoop : ℕ → BufM Slice
  | 0, b => .ok .bufferFull b
  | rounds + 1, b =>
      match b.pending.idxOf? 10 with
      | some i =>
          .ok (.line (b.pending.take (i + 1))) { b with pending := b.pending.drop (i + 1) }
      | none =>
          match b.err with
          | some e => .ok (.ended b.pending e) { b with pending := [], err := none }
          | none =>
              if b.size ≤ b.pending.length then .ok .bufferFull { b with pending := [] }
              else Bufio.readSliceLoop rounds (b.fill maxConsecutiveEmptyReads)

/-- Source: none
Kind: D -/
def Bufio.readSlice : BufM Slice := fun b => Bufio.readSliceLoop (b.size + 2) b

/-- `bufio.Reader.Read` into a slice of `n` bytes: the bytes it gives, and its error.
Source: none
Kind: D -/
def Bufio.read (n : ℕ) (b : Bufio) : (Bytes × Option StreamEnd) × Bufio :=
  if n = 0 then
    if b.pending ≠ [] then (([], none), b) else (([], b.err), { b with err := none })
  else if b.pending ≠ [] then
    ((b.pending.take n, none), { b with pending := b.pending.drop n })
  else
    match b.err, b.pieces with
    | some e, _ => (([], some e), { b with err := none })
    | none, [] => (([], some b.ending), b)
    | none, c :: cs =>
        if b.size ≤ n then ((c.take n, none), { b with pieces := piecesAfter n c cs })
        else
          let got := c.take b.size
          ((got.take n, none),
            { b with pending := got.drop n, pieces := piecesAfter b.size c cs })

/-- `io.ReadFull` into a slice of `n` bytes. Every round gives a byte, uses up a piece or ends the
source.
Source: none
Kind: D -/
def Bufio.readFullLoop (n : ℕ) : ℕ → Bytes → BufM Bytes
  | 0, got, b => .ok got b
  | rounds + 1, got, b =>
      if n ≤ got.length then .ok got b
      else
        let r := b.read (n - got.length)
        match r.1.2 with
        | none => Bufio.readFullLoop n rounds (got ++ r.1.1) r.2
        | some e =>
            if n ≤ (got ++ r.1.1).length then .ok (got ++ r.1.1) r.2
            else
              match e with
              | .eof => .error (if got ++ r.1.1 = [] then .eof else .unexpectedEOF) r.2
              | .fault code => .error (.transport code) r.2

/-- Source: none
Kind: D -/
def Bufio.readFull (n : ℕ) : BufM Bytes := fun b =>
  Bufio.readFullLoop n (n + b.pieces.length + 2) [] b

/-- The reader on the buffer.
Source: `internal/resp/reader.go` `Reader`
Kind: D -/
abbrev Bufio.buffer (limits : Limits) : ReaderOn Bufio := ⟨limits, Bufio.readSlice, Bufio.readFull⟩

/-- Source: `internal/resp/reader.go` `ReadCommand`
Kind: D -/
def Bufio.readCommand : BufM (List Bytes) := fun b => (Bufio.buffer b.limits).readCommand b

/-! ### The buffer and the stream -/

/-- The source never gives nothing so often in a row that the buffer gives up on it.
Source: none
Kind: D -/
def Steady (pieces : List Bytes) : Prop :=
  ∀ l, l <:+: pieces → (∀ c ∈ l, c = []) → l.length < maxConsecutiveEmptyReads

/-- Between reads: the bytes `u` to come are those of the buffer and of the pieces.
Source: `internal/resp/reader.go` `Reader`
Kind: D -/
structure Buffers (r : Reader) (b : Bufio) (u : Bytes) : Prop where
  limits_eq : b.limits = r.limits
  size_eq : b.size = r.bufSize
  ending_eq : b.ending = r.ending
  err_eq : b.err = none
  pending_le : b.pending.length ≤ b.size
  steady : Steady b.pieces
  unread : u = b.pending ++ b.pieces.flatten

variable {r : Reader} {b : Bufio} {u : Bytes}

/-- A steady source is steady after its first piece.
Source: none
Kind: L -/
theorem Steady.of_cons {c : Bytes} {cs : List Bytes} (h : Steady (c :: cs)) : Steady cs :=
  fun l hl => h l (hl.trans (List.suffix_cons c cs).isInfix)

/-- A piece with bytes in it keeps a source steady.
Source: none
Kind: L -/
theorem Steady.cons {c : Bytes} {cs : List Bytes} (h : Steady cs) (hc : c ≠ []) :
    Steady (c :: cs) := by
  intro l hl hempty
  rcases List.infix_cons_iff.mp hl with hpre | hin
  · cases l with
    | nil => exact Nat.zero_lt_succ _
    | cons d l =>
        obtain ⟨rfl, -⟩ := List.cons_prefix_cons.mp hpre
        exact absurd (hempty d List.mem_cons_self) hc
  · exact h l hin hempty

/-- A source that was read from is as steady as before.
Source: none
Kind: L -/
theorem Steady.piecesAfter {c : Bytes} {cs : List Bytes} (h : Steady (c :: cs)) (n : ℕ) :
    Steady (piecesAfter n c cs) := by
  unfold Resp.piecesAfter
  split_ifs with hle
  · exact h.of_cons
  · apply h.of_cons.cons
    intro hnil
    exact hle (List.drop_eq_nil_iff.mp hnil)

/-- What was read and what is left make up the stream.
Source: none
Kind: L -/
theorem flatten_piecesAfter (n : ℕ) (c : Bytes) (cs : List Bytes) :
    c.take n ++ (piecesAfter n c cs).flatten = (c :: cs).flatten := by
  unfold piecesAfter
  split_ifs with hle
  · rw [List.take_of_length_le hle, List.flatten_cons]
  · rw [List.flatten_cons, List.flatten_cons, ← List.append_assoc, List.take_append_drop]

/-- Filling a buffer with room: more of the stream is in it, or the source has ended.
Source: none
Kind: L -/
theorem Buffers.fill (tries : ℕ) : ∀ {b : Bufio}, Buffers r b u → b.pending.length < b.size →
    (∀ l, l <+: b.pieces → (∀ c ∈ l, c = []) → l.length < tries) →
    (Buffers r (b.fill tries) u ∧ b.pending.length < (b.fill tries).pending.length) ∨
      (b.fill tries = { b with pieces := [], err := some b.ending } ∧ u = b.pending) := by
  induction tries with
  | zero =>
      intro b h hroom hempty
      exact absurd (hempty [] List.nil_prefix (by simp)) (Nat.not_lt_zero _)
  | succ tries ih =>
      intro b h hroom hempty
      unfold Bufio.fill
      cases hp : b.pieces with
      | nil =>
          refine Or.inr ⟨by simp only, ?_⟩
          have hu := h.unread
          rwa [hp, List.flatten_nil, List.append_nil] at hu
      | cons c cs =>
          have hsteady := h.steady
          have hu := h.unread
          rw [hp] at hsteady hu hempty
          -- The step of the loop keeps the stream, whether or not it put something in.
          have hstep : Buffers r { b with
              pending := b.pending ++ c.take (b.size - b.pending.length)
              pieces := piecesAfter (b.size - b.pending.length) c cs } u := by
            refine ⟨h.limits_eq, h.size_eq, h.ending_eq, h.err_eq, ?_, hsteady.piecesAfter _, ?_⟩
            · simp only [List.length_append, List.length_take]
              omega
            · rw [List.append_assoc, flatten_piecesAfter, hu]
          simp only
          split_ifs with hnone
          · -- Only an empty piece puts nothing into a buffer with room.
            have hc : c = [] := by
              rw [List.isEmpty_iff, List.take_eq_nil_iff] at hnone
              rcases hnone with hzero | hc
              · omega
              · exact hc
            subst hc
            have hsame : ({ b with
                pending := b.pending ++ ([] : Bytes).take (b.size - b.pending.length)
                pieces := piecesAfter (b.size - b.pending.length) [] cs } : Bufio) =
                { b with pieces := cs } := by
              simp [piecesAfter]
            rw [hsame] at hstep ⊢
            refine ih hstep hroom ?_
            intro l hl hall
            have hlong := hempty ([] :: l) (List.cons_prefix_cons.mpr ⟨rfl, hl⟩) (by simpa using hall)
            rw [List.length_cons] at hlong
            omega
          · refine Or.inl ⟨hstep, ?_⟩
            have hpos : 0 < (c.take (b.size - b.pending.length)).length := by
              rw [List.length_pos_iff]
              simpa using hnone
            simp only [List.length_append]
            omega

/-- What the stream hands out at once begins with the buffer.
Source: none
Kind: L -/
theorem Buffers.take_eq (h : Buffers r b u) : u.take r.bufSize =
    b.pending ++ b.pieces.flatten.take (r.bufSize - b.pending.length) := by
  rw [h.unread, List.take_append, List.take_of_length_le (h.size_eq ▸ h.pending_le)]

/-- A line that ends in the buffer is the next line of the stream.
Source: none
Kind: L -/
theorem Buffers.readSlice_line (h : Buffers r b u) {i : ℕ} (hat : b.pending.idxOf? 10 = some i) :
    readSlice r u = .ok (.line (b.pending.take (i + 1)))
      (b.pending.drop (i + 1) ++ b.pieces.flatten) := by
  have hi : i < b.pending.length := (List.idxOf?_eq_some_iff.mp hat).1
  have hstream : (u.take r.bufSize).idxOf? 10 = some i := by
    rw [h.take_eq]
    unfold List.idxOf? at hat ⊢
    rw [List.findIdx?_append, hat]
    rfl
  unfold readSlice
  rw [hstream]
  simp only
  rw [h.unread, List.take_append_of_le_length (by omega), List.drop_append_of_le_length (by omega)]

/-- A full buffer without a line is what the stream hands out as too much.
Source: none
Kind: L -/
theorem Buffers.readSlice_full (h : Buffers r b u) (hat : b.pending.idxOf? 10 = none)
    (hfull : b.size ≤ b.pending.length) : readSlice r u = .ok .bufferFull b.pieces.flatten := by
  have hlen : b.pending.length = r.bufSize := by
    rw [← h.size_eq]
    exact Nat.le_antisymm h.pending_le hfull
  unfold readSlice
  rw [h.take_eq, hlen, Nat.sub_self, List.take_zero, List.append_nil, hat]
  simp only
  rw [if_pos (by rw [h.unread, List.length_append]; omega), h.unread, ← hlen, List.drop_left]

/-- At the end of the source the buffer is all that the stream still has.
Source: none
Kind: L -/
theorem Buffers.readSlice_ended (h : Buffers r b u) (hat : b.pending.idxOf? 10 = none)
    (hroom : ¬b.size ≤ b.pending.length) (hu : u = b.pending) :
    readSlice r u = .ok (.ended b.pending b.ending) [] := by
  have habsent : 10 ∉ b.pending := List.idxOf?_eq_none_iff.mp hat
  have hnone : (b.pending.take r.bufSize).idxOf? 10 = none :=
    List.idxOf?_eq_none_iff.mpr fun hmem => habsent (List.mem_of_mem_take hmem)
  unfold readSlice
  rw [hu, hnone, h.ending_eq]
  simp only
  rw [if_neg (by rw [← h.size_eq]; exact hroom)]

/-- Reading a line over the buffer hands out what it hands out of the stream.
Source: none
Kind: L -/
theorem Buffers.readSliceLoop (rounds : ℕ) : ∀ {b : Bufio}, Buffers r b u →
    b.size - b.pending.length + 2 ≤ rounds →
    SameResult (Buffers r) (Bufio.readSliceLoop rounds b) (readSlice r u) := by
  induction rounds with
  | zero => exact fun h hrounds => absurd hrounds (Nat.not_succ_le_zero _)
  | succ rounds ih =>
      intro b h hrounds
      have hle := h.pending_le
      unfold Bufio.readSliceLoop
      cases hat : b.pending.idxOf? 10 with
      | some i =>
          rw [h.readSlice_line hat]
          refine ⟨rfl, h.limits_eq, h.size_eq, h.ending_eq, h.err_eq, ?_, h.steady, rfl⟩
          simp only [List.length_drop]
          omega
      | none =>
          simp only [h.err_eq]
          split_ifs with hfull
          · rw [h.readSlice_full hat hfull]
            exact ⟨rfl, h.limits_eq, h.size_eq, h.ending_eq, rfl, Nat.zero_le _, h.steady, rfl⟩
          · have hfew : ∀ l, l <+: b.pieces → (∀ c ∈ l, c = []) →
                l.length < maxConsecutiveEmptyReads := fun l hl => h.steady l hl.isInfix
            rcases h.fill maxConsecutiveEmptyReads (by omega) hfew with ⟨hgo, hgrew⟩ | ⟨hend, hu⟩
            · have hsize : (b.fill maxConsecutiveEmptyReads).size = b.size :=
                hgo.size_eq.trans h.size_eq.symm
              exact ih hgo (by omega)
            · -- The next round hands out what there is, with the error of the source.
              obtain ⟨rounds, rfl⟩ : ∃ k, rounds = k + 1 := ⟨rounds - 1, by omega⟩
              rw [hend, h.readSlice_ended hat hfull hu]
              unfold Bufio.readSliceLoop
              simp only [hat]
              refine ⟨rfl, h.limits_eq, h.size_eq, h.ending_eq, rfl, Nat.zero_le _, ?_, rfl⟩
              intro l hl hall
              rw [List.infix_nil.mp hl]
              exact Nat.zero_lt_succ _

/-- `ReadSlice` over the buffer does what it does on the stream.
Source: none
Kind: L -/
theorem refines_readSlice : Refines (Buffers r) Bufio.readSlice (Resp.readSlice r) :=
  fun b _ h => h.readSliceLoop (b.size + 2) (by omega)

/-- One read: bytes of the stream, at least one unless it only uses up an empty piece; or the end.
Source: none
Kind: L -/
theorem Buffers.read (h : Buffers r b u) {n : ℕ} (hn : 0 < n) :
    (u = [] ∧ b.read n = (([], some r.ending), b)) ∨
      ∃ got u', u = got ++ u' ∧ (b.read n).1 = (got, none) ∧ Buffers r (b.read n).2 u' ∧
        got.length ≤ n ∧ (n - got.length) + (b.read n).2.pieces.length < n + b.pieces.length := by
  have hu := h.unread
  unfold Bufio.read
  rw [if_neg (by omega)]
  by_cases hpending : b.pending ≠ []
  · -- Copy out of the buffer.
    rw [if_pos hpending]
    refine Or.inr ⟨b.pending.take n, b.pending.drop n ++ b.pieces.flatten, ?_, rfl, ?_, ?_, ?_⟩
    · rw [← List.append_assoc, List.take_append_drop, hu]
    · refine ⟨h.limits_eq, h.size_eq, h.ending_eq, h.err_eq, ?_, h.steady, rfl⟩
      have hle := h.pending_le
      simp only [List.length_drop]
      omega
    · exact List.length_take_le _ _
    · have hpos := List.length_pos_iff.mpr hpending
      simp only [List.length_take]
      omega
  · have hnil : b.pending = [] := not_not.mp hpending
    rw [hnil, List.nil_append] at hu
    rw [if_neg hpending, h.err_eq]
    cases hp : b.pieces with
    | nil =>
        rw [hp, List.flatten_nil] at hu
        refine Or.inl ⟨hu, ?_⟩
        rw [h.ending_eq]
    | cons c cs =>
        have hsteady := h.steady
        rw [hp] at hsteady hu
        simp only
        -- A piece is used up, or bytes are handed out.
        have hless : ∀ k got : ℕ, got ≤ n → (k < c.length → 0 < got) →
            (n - got) + (piecesAfter k c cs).length < n + (c :: cs).length := by
          intro k got hgot hpos
          unfold piecesAfter
          split_ifs with hle
          · rw [List.length_cons]
            omega
          · have := hpos (by omega)
            simp only [List.length_cons]
            omega
        by_cases hlarge : b.size ≤ n
        · -- Past the buffer.
          rw [if_pos hlarge]
          refine Or.inr ⟨c.take n, (piecesAfter n c cs).flatten, ?_, rfl, ?_,
            List.length_take_le _ _, ?_⟩
          · rw [flatten_piecesAfter, hu]
          · exact ⟨h.limits_eq, h.size_eq, h.ending_eq, rfl, h.pending_le,
              hsteady.piecesAfter n, by simp [hnil]⟩
          · apply hless
            · exact List.length_take_le _ _
            · intro hlt
              rw [List.length_take]
              omega
        · -- Through the buffer.
          rw [if_neg hlarge]
          refine Or.inr ⟨(c.take b.size).take n,
            (c.take b.size).drop n ++ (piecesAfter b.size c cs).flatten, ?_, rfl, ?_,
            List.length_take_le _ _, ?_⟩
          · rw [← List.append_assoc, List.take_append_drop, flatten_piecesAfter, hu]
          · refine ⟨h.limits_eq, h.size_eq, h.ending_eq, rfl, ?_, hsteady.piecesAfter _, rfl⟩
            simp only [List.length_drop, List.length_take]
            omega
          · apply hless
            · exact List.length_take_le _ _
            · intro hlt
              simp only [List.length_take]
              omega

/-- The error of a read that needs more bytes than there are.
Source: none
Kind: L -/
theorem readFull_short {n : ℕ} {got : Bytes} (hlt : (got ++ u).length < n) :
    Resp.readFull r n (got ++ u) =
      match r.ending with
      | .eof => .error (if got ++ u = [] then .eof else .unexpectedEOF) []
      | .fault code => .error (.transport code) [] := by
  unfold Resp.readFull
  refine (if_neg (by omega)).trans ?_
  cases r.ending <;> rfl

/-- The loop of `io.ReadFull` over the buffer, with `got` already read, does what one read of the
stream does.
Source: none
Kind: L -/
theorem Buffers.readFullLoop (n : ℕ) (rounds : ℕ) : ∀ {b : Bufio} {u got : Bytes},
    Buffers r b u → got.length ≤ n → (n - got.length) + b.pieces.length + 1 ≤ rounds →
    SameResult (Buffers r) (Bufio.readFullLoop n rounds got b) (Resp.readFull r n (got ++ u)) := by
  induction rounds with
  | zero => exact fun h _ hrounds => absurd hrounds (Nat.not_succ_le_zero _)
  | succ rounds ih =>
      intro b u got h hgot hrounds
      unfold Bufio.readFullLoop
      split_ifs with hdone
      · have hlen : got.length = n := by omega
        unfold Resp.readFull
        rw [if_pos (by rw [List.length_append]; omega), ← hlen, List.take_left, List.drop_left]
        exact ⟨rfl, h⟩
      · rcases h.read (n := n - got.length) (by omega) with
          ⟨rfl, hread⟩ | ⟨more, u', rfl, hread, hb', hmore, hless⟩
        · rw [hread]
          simp only [List.append_nil]
          rw [if_neg hdone]
          have hshort : Resp.readFull r n (got ++ []) = _ := readFull_short (by simpa using hdone)
          rw [List.append_nil] at hshort
          rw [hshort]
          cases r.ending with
          | eof => exact ⟨rfl, h⟩
          | fault code => exact ⟨rfl, h⟩
        · simp only [hread]
          rw [← List.append_assoc]
          refine ih hb' ?_ ?_
          · rw [List.length_append]
            omega
          · rw [List.length_append]
            omega

/-- `io.ReadFull` over the buffer does what it does on the stream.
Source: none
Kind: L -/
theorem refines_readFull (n : ℕ) : Refines (Buffers r) (Bufio.readFull n) (Resp.readFull r n) := by
  intro b u h
  exact h.readFullLoop n _ (Nat.zero_le _) (by simp)

/-! ### The reader and the stream -/

section simulation

variable {σ τ : Type} {ρ : σ → τ → Prop} {x : ReaderOn σ} {y : ReaderOn τ}

/-- Two readers with the same limits, one with more detailed primitives than the other.
Source: none
Kind: D -/
structure ReaderOn.Simulates (ρ : σ → τ → Prop) (x : ReaderOn σ) (y : ReaderOn τ) : Prop where
  limits_eq : x.limits = y.limits
  readSlice : Refines ρ x.readSlice y.readSlice
  readFull : ∀ n, Refines ρ (x.readFull n) (y.readFull n)

/-- Trimming a line does not touch the state below.
Source: `internal/resp/reader.go` `trimCRLF`
Kind: L -/
theorem refines_trimCRLF (line : Bytes) :
    Refines ρ (trimCRLF line : EStateM ReadErr σ Bytes) (trimCRLF line) := by
  unfold trimCRLF
  split_ifs
  · exact refines_throw _
  · exact refines_throw _
  · exact refines_pure _

/-- A header line over corresponding primitives.
Source: `internal/resp/reader.go` `readHeaderLine`
Kind: L -/
theorem ReaderOn.Simulates.readHeaderLine (h : x.Simulates ρ y) (atBoundary : Bool) :
    Refines ρ (x.readHeaderLine atBoundary) (y.readHeaderLine atBoundary) := by
  refine h.readSlice.bind fun slice => ?_
  cases slice with
  | line line => exact refines_trimCRLF line
  | bufferFull => exact refines_throw _
  | ended line err =>
      cases err with
      | eof =>
          simp only
          split_ifs
          · exact refines_throw _
          · exact refines_throw _
      | fault code => exact refines_throw _

/-- A length field over corresponding primitives.
Source: `internal/resp/reader.go` `ReadCommand`, `readBulkArg`
Kind: L -/
theorem ReaderOn.Simulates.readLength (h : x.Simulates ρ y) (atBoundary : Bool) (type : UInt8)
    (wrong : ErrKind) (limit : Int64) (tooLong : ErrKind) :
    Refines ρ (x.readLength atBoundary type wrong limit tooLong)
      (y.readLength atBoundary type wrong limit tooLong) := by
  refine (h.readHeaderLine atBoundary).bind fun header => ?_
  split_ifs with htype
  · exact refines_throw _
  · cases parseInt header.tail with
    | none => exact refines_throw _
    | some n =>
        simp only
        split_ifs
        · exact refines_throw _
        · exact refines_pure n

/-- An argument over corresponding primitives.
Source: `internal/resp/reader.go` `readBulkArg`
Kind: L -/
theorem ReaderOn.Simulates.readBulkArg (h : x.Simulates ρ y) :
    Refines ρ x.readBulkArg y.readBulkArg := by
  unfold ReaderOn.readBulkArg ReaderOn.readBulkHeader
  rw [h.limits_eq]
  refine (h.readLength _ _ _ _ _).bind fun n => ?_
  refine ((h.readFull _).adaptExcept normalizeEOF).bind fun buf => ?_
  refine ((h.readFull 2).adaptExcept normalizeEOF).bind fun ends => ?_
  split_ifs
  · exact refines_throw _
  · exact refines_pure buf

/-- The arguments of a request, one after another, over corresponding primitives.
Source: `internal/resp/reader.go` `ReadCommand`
Kind: L -/
theorem ReaderOn.Simulates.readBulkArgs (h : x.Simulates ρ y) (n : ℕ) :
    Refines ρ (x.readBulkArgs n) (y.readBulkArgs n) := by
  induction n with
  | zero => exact refines_pure []
  | succ n ih =>
      refine h.readBulkArg.bind fun arg => ?_
      exact ih.bind fun args => refines_pure (arg :: args)

/-- Over corresponding primitives `ReadCommand` returns the same, and leaves corresponding states.
Source: `internal/resp/reader.go` `ReadCommand`
Kind: L -/
theorem ReaderOn.Simulates.readCommand (h : x.Simulates ρ y) :
    Refines ρ x.readCommand y.readCommand := by
  unfold ReaderOn.readCommand ReaderOn.readArrayHeader
  rw [h.limits_eq]
  exact (h.readLength _ _ _ _ _).bind fun n => h.readBulkArgs n.toNatClampNeg

end simulation

/-- `ReadCommand` over the buffer does what it does on the stream.
Source: `internal/resp/reader.go` `ReadCommand`
Kind: P -/
theorem readCommand_refines : Refines (Buffers r) Bufio.readCommand r.readCommand := by
  have hsim : (Bufio.buffer r.limits).Simulates (Buffers r) r.stream :=
    ⟨rfl, refines_readSlice, refines_readFull⟩
  intro b u h
  unfold Bufio.readCommand
  rw [h.limits_eq]
  exact hsim.readCommand b u h

/-- Source: `internal/resp/reader.go` `NewReader`
Kind: D -/
def newBufio (pieces : List Bytes) (ending : StreamEnd) (opts : List ReaderOption) : Bufio :=
  let cfg := resolveConfig opts
  { limits := cfg.limits
    size := max 16 cfg.bufferSize.toNatClampNeg
    pending := []
    err := none
    pieces := pieces
    ending := ending }

/-- Whatever pieces a stream arrives in, the commands and errors that `ReadCommand` returns, call
after call, are those of the stream: partial frames resume, and pipelined ones come apart.
Source: `internal/resp/reader.go` `NewReader`, `ReadCommand`, `readBulkArg`, `readHeaderLine`
Kind: P
Fidelity: exact -/
theorem readCommand_pieces (opts : List ReaderOption) (ending : StreamEnd) {pieces : List Bytes}
    (hsteady : Steady pieces) (n : ℕ) :
    results Bufio.readCommand n (newBufio pieces ending opts) =
      results (newReader ending opts).readCommand n pieces.flatten := by
  refine readCommand_refines.results n ?_
  exact ⟨rfl, rfl, rfl, rfl, Nat.zero_le _, hsteady, rfl⟩

/-- A source with few pieces is steady.
Source: none
Kind: L -/
theorem steady_of_length_lt {pieces : List Bytes}
    (h : pieces.length < maxConsecutiveEmptyReads) : Steady pieces :=
  fun _ hl _ => lt_of_le_of_lt hl.length_le h

/-- A request in four pieces, one of them empty, and the beginning of another.
Source: `internal/resp/reader_test.go` `TestPipelineTrailingPartialResumes`
Kind: C -/
theorem readCommand_pieces_ping :
    results Bufio.readCommand 2
        (newBufio [text "*1\r", [], text "\n$4\r\nPI", text "NG\r\n*0"] .eof []) =
      results (newReader .eof []).readCommand 2
        [text "*1\r", [], text "\n$4\r\nPI", text "NG\r\n*0"].flatten :=
  readCommand_pieces [] .eof (steady_of_length_lt (by decide)) 2

end CacheMoney.Resp
