import CacheMoney.Resp.Canonical
import CacheMoney.Resp.Writer

/-!
# Requests round trip

`encode args` is what the writer emits for a request: an array header and one bulk string for each
argument. The reader succeeds on a stream exactly when the stream begins with such an encoding
whose sizes are within the limits, and then it leaves what follows it
(`readCommand_iff_encode`). A pipeline of encodings is read back one request after another.
-/

namespace CacheMoney.Resp

open CacheMoney.Found

/-! ### The encoding -/

/-- The bytes of a request.
Source: `internal/resp/writer.go` `WriteArrayHeader`, `WriteBulk`
Kind: D -/
def encode (args : List Bytes) : Bytes :=
  (args.foldl Writer.writeBulk (newWriter.writeArrayHeader args.length)).out

/-- The bytes of one argument.
Source: `internal/resp/writer.go` `WriteBulk`
Kind: D -/
def encodeBulk (a : Bytes) : Bytes := header .bulk (numeral a.length) (a ++ crlf)

/-- Arguments written one after another are their encodings in sequence.
Source: `internal/resp/writer.go` `WriteBulk`
Kind: L -/
theorem foldl_writeBulk {w : Writer} (h : w.err = none) (args : List Bytes) :
    args.foldl Writer.writeBulk w = w.append (args.flatMap encodeBulk) := by
  induction args generalizing w with
  | nil => simp [Writer.append]
  | cons a args ih =>
      rw [List.foldl_cons, Writer.writeBulk, Writer.writeLenPrefixed_of_none h,
        ih (by rw [Writer.append_err, h]), Writer.append_append, List.flatMap_cons]
      rfl

/-- An encoding is an array header and the arguments.
Source: `internal/resp/writer.go` `WriteBulk`
Kind: L -/
theorem encode_eq (args : List Bytes) :
    encode args = header .array (numeral args.length) (args.flatMap encodeBulk) := by
  have hnum : signedNumeral args.length = numeral args.length := by simp [signedNumeral]
  have hnew : newWriter.err = none := rfl
  unfold encode Writer.writeArrayHeader
  rw [Writer.writeNumberLine_of_none hnew, foldl_writeBulk (by rw [Writer.append_err, hnew]), hnum]
  simp [newWriter, header, Marker.byte]

/-! ### Within the limits -/

/-- The sizes that a reader accepts.
Source: `internal/resp/limits.go` `Limits`
Kind: D -/
structure Fits (limits : Limits) (args : List Bytes) : Prop where
  count : (args.length : ℤ) ≤ limits.maxMultibulkLen.toInt
  sizes : ∀ a ∈ args, (a.length : ℤ) ≤ limits.maxBulkLen.toInt

/-- The canonical arguments of a stream are encodings within the limit.
Source: `internal/resp/limits.go` `Limits`
Kind: L -/
theorem items_canonical_iff {r : Reader} {args : List Bytes} {rest : Bytes} : ∀ {b : Bytes},
    Items (canonical r) args b rest ↔
      b = args.flatMap encodeBulk ++ rest ∧
        ∀ a ∈ args, (a.length : ℤ) ≤ r.limits.maxBulkLen.toInt := by
  induction args with
  | nil =>
      intro b
      simp [Items]
  | cons a args ih =>
      intro b
      constructor
      · rintro ⟨ds, v, ⟨rfl, hsize⟩, rfl, hv⟩
        obtain ⟨rfl, hsizes⟩ := ih.mp hv
        refine ⟨by simp [encodeBulk, header], ?_⟩
        intro a' ha'
        rcases List.mem_cons.mp ha' with rfl | ha'
        · exact hsize
        · exact hsizes a' ha'
      · rintro ⟨rfl, hsizes⟩
        refine ⟨numeral a.length, args.flatMap encodeBulk ++ rest,
          ⟨rfl, hsizes a List.mem_cons_self⟩, by simp [encodeBulk, header], ?_⟩
        exact ih.mpr ⟨rfl, fun a' ha' => hsizes a' (List.mem_cons_of_mem a ha')⟩

/-- The canonical requests of a stream are encodings within the limits.
Source: `internal/resp/limits.go` `Limits`
Kind: L -/
theorem frame_canonical_iff {r : Reader} {args : List Bytes} {b rest : Bytes} :
    Frame (canonical r) b args rest ↔ b = encode args ++ rest ∧ Fits r.limits args := by
  constructor
  · rintro ⟨ds, v, ⟨rfl, hcount⟩, rfl, hitems⟩
    obtain ⟨rfl, hsizes⟩ := items_canonical_iff.mp hitems
    exact ⟨by simp [encode_eq, header], hcount, hsizes⟩
  · rintro ⟨rfl, hcount, hsizes⟩
    refine ⟨numeral args.length, args.flatMap encodeBulk ++ rest, ⟨rfl, hcount⟩,
      by simp [encode_eq, header], ?_⟩
    exact items_canonical_iff.mpr ⟨rfl, hsizes⟩

/-! ### Pipelines -/

/-- Requests one after another.
Source: `internal/server/conn.go` `serveConn`
Kind: D -/
def Reader.readCommands (r : Reader) : ℕ → ReadM (List (List Bytes))
  | 0 => pure []
  | n + 1 => do
      let args ← r.readCommand
      let more ← r.readCommands n
      pure (args :: more)

/-- A pipeline is read back request by request.
Source: `internal/server/conn.go` `serveConn`
Kind: L -/
theorem Reader.readCommands_encode (r : Reader) (hbuf : maxHeaderLine ≤ r.bufSize)
    (requests : List (List Bytes)) (hfits : ∀ args ∈ requests, Fits r.limits args) (rest : Bytes) :
    r.readCommands requests.length (requests.flatMap encode ++ rest) = .ok requests rest := by
  induction requests with
  | nil => rfl
  | cons args requests ih =>
      have hone : r.readCommand (encode args ++ (requests.flatMap encode ++ rest)) =
          .ok args (requests.flatMap encode ++ rest) :=
        (r.readCommand_eq_ok_iff hbuf).mpr
          (frame_canonical_iff.mpr ⟨rfl, hfits args List.mem_cons_self⟩)
      have hmore := ih fun args' h => hfits args' (List.mem_cons_of_mem args h)
      rw [List.flatMap_cons, List.append_assoc, List.length_cons, Reader.readCommands]
      simp only [bind, EStateM.bind, hone, hmore]
      rfl

/-- On the empty stream the reader reports a clean end.
Source: `internal/resp/reader.go` `ReadCommand`
Kind: L -/
theorem Reader.readCommand_nil (r : Reader) (hbuf : 0 < r.bufSize) (hend : r.ending = .eof) :
    r.readCommand [] = .error .eof [] := by
  have hslice : readSlice r [] = .ok (.ended [] r.ending) [] := by
    unfold readSlice
    rw [List.take_nil]
    simp only [List.idxOf?_nil, List.length_nil]
    rw [if_neg (by omega)]
  have hline : r.stream.readHeaderLine true [] = .error .eof [] := by
    unfold ReaderOn.readHeaderLine
    simp only [bind, EStateM.bind, hslice, hend]
    rfl
  unfold Reader.readCommand ReaderOn.readCommand ReaderOn.readArrayHeader ReaderOn.readLength
  simp only [bind, EStateM.bind, hline]

/-- The reader accepts the canonical encodings within its limits and nothing else, returns what was
encoded, leaves what follows, and reads a pipeline back in order up to the end of the stream.
Source: `internal/resp/reader.go` `ReadCommand`
Kind: P
Fidelity: exact -/
theorem readCommand_iff_encode (opts : List ReaderOption)
    (hbuf : (resolveConfig opts).bufferSize = defaultBufferSize) :
    (∀ ending s args rest, (newReader ending opts).readCommand s = .ok args rest ↔
        s = encode args ++ rest ∧ Fits (resolveConfig opts).limits args) ∧
      (∀ args args' rest rest', Fits (resolveConfig opts).limits args →
        Fits (resolveConfig opts).limits args' → encode args ++ rest = encode args' ++ rest' →
        args = args' ∧ rest = rest') ∧
      ∀ requests : List (List Bytes),
        (∀ args ∈ requests, Fits (resolveConfig opts).limits args) →
        (newReader .eof opts).readCommands requests.length (requests.flatMap encode) =
            .ok requests [] ∧
          (newReader .eof opts).readCommand [] = .error .eof [] := by
  have hsize : ∀ ending, (newReader ending opts).bufSize = 16384 := by
    intro ending
    simp only [newReader, hbuf]
    rfl
  have hline : ∀ ending, maxHeaderLine ≤ (newReader ending opts).bufSize := by
    intro ending
    rw [hsize]
    decide
  have hiff : ∀ ending s args rest, (newReader ending opts).readCommand s = .ok args rest ↔
      s = encode args ++ rest ∧ Fits (resolveConfig opts).limits args := by
    intro ending s args rest
    rw [Reader.readCommand_eq_ok_iff _ (hline ending), frame_canonical_iff]
    rfl
  refine ⟨hiff, ?_, ?_⟩
  · intro args args' rest rest' hfits hfits' heq
    have h := (hiff .eof _ args rest).mpr ⟨rfl, hfits⟩
    have h' := (hiff .eof _ args' rest').mpr ⟨heq, hfits'⟩
    rw [h] at h'
    cases h'
    exact ⟨rfl, rfl⟩
  · intro requests hfits
    refine ⟨?_, Reader.readCommand_nil _ (by rw [hsize]; decide) rfl⟩
    have h := (newReader .eof opts).readCommands_encode (hline .eof) requests hfits []
    rw [List.append_nil] at h
    exact h

/-- Two arguments, one of them with a line end and a type byte in it, under small limits.
Source: `internal/resp/reader.go` `ReadCommand`
Kind: C -/
theorem readCommand_iff_encode_binary :
    (newReader .eof [.withMaxBulkLen 4, .withMaxMultibulkLen 2]).readCommand
        (encode [[13, 10, 36], []] ++ [42]) = .ok [[13, 10, 36], []] [42] :=
  ((readCommand_iff_encode [.withMaxBulkLen 4, .withMaxMultibulkLen 2] rfl).1 .eof _ _ _).mpr
    ⟨rfl, by decide, by decide⟩

end CacheMoney.Resp
