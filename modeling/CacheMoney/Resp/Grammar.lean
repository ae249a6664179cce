import CacheMoney.Found.Scanner

/-!
# The grammar of requests

A request is an array of bulk strings: `*<count>` and then, `count` times, `$<length>`, the payload
and a line end. Two decoders of the server read this shape with different ideas of what a number
and what an unfinished header are.

* `Lexicon`: those two ideas. `Frame lx b args r` says that `b` is a request for `args` followed by
  `r`; `CutFrame lx b` says that `b` ends inside a request.
* `frame h`: the scanner that reads the shape with a given scanner of headers.
* `Reads.frame_done_iff`, `Reads.frame_short_iff`: if the headers are read by the lexicon, then so
  are the requests.
-/

namespace CacheMoney.Resp

open CacheMoney.Found

/-! ### Shape -/

/-- The line end.
Source: `internal/resp/reader.go` `trimCRLF`
Kind: D -/
def crlf : Bytes := [13, 10]

/-- The two kinds of header of a request.
Source: `internal/resp/reader.go` `typeArray`
Kind: D -/
inductive Marker where
  | array
  | bulk
  deriving DecidableEq, Repr

/-- The type byte: `*` or `$`.
Source: `internal/resp/reader.go` `typeArray`, `typeBulk`
Kind: D -/
def Marker.byte : Marker → UInt8
  | .array => 42
  | .bulk => 36

/-- What counts as a number after a type byte, and as a header that may still be completed.
Source: none
Kind: D -/
structure Lexicon where
  number : Marker → Bytes → ℕ → Prop
  pending : Marker → Bytes → Prop

/-- A header in front of `r`.
Source: none
Kind: D -/
def header (p : Marker) (ds r : Bytes) : Bytes := p.byte :: (ds ++ (crlf ++ r))

variable (lx : Lexicon)

/-- Bulk strings one after another, up to `r`.
Source: none
Kind: D -/
def Items : List Bytes → Bytes → Bytes → Prop
  | [], b, r => b = r
  | a :: args, b, r => ∃ ds v, lx.number .bulk ds a.length ∧
      b = header .bulk ds (a ++ (crlf ++ v)) ∧ Items args v r

/-- The bytes end inside a bulk string: inside its header, or inside its payload.
Source: none
Kind: D -/
def CutItem (b : Bytes) : Prop :=
  lx.pending .bulk b ∨ ∃ ds n v, lx.number .bulk ds n ∧ b = header .bulk ds v ∧ v.length < n + 2

/-- A request for `args`, followed by `r`.
Source: none
Kind: D -/
def Frame (b : Bytes) (args : List Bytes) (r : Bytes) : Prop :=
  ∃ ds v, lx.number .array ds args.length ∧ b = header .array ds v ∧ Items lx args v r

/-- The bytes end inside a request.
Source: none
Kind: D -/
def CutFrame (b : Bytes) : Prop :=
  lx.pending .array b ∨ ∃ ds n v args u, lx.number .array ds n ∧ b = header .array ds v ∧
    args.length < n ∧ Items lx args v u ∧ CutItem lx u

/-- Up to `m` bulk strings without a fault: each is there, or the bytes end inside it.
Source: none
Kind: D -/
def FaultlessItems : ℕ → Bytes → Prop
  | 0, _ => True
  | m + 1, b => CutItem lx b ∨ ∃ ds a v, lx.number .bulk ds a.length ∧
      b = header .bulk ds (a ++ (crlf ++ v)) ∧ FaultlessItems m v

/-- The bytes begin with a request, or end inside one.
Source: none
Kind: D -/
def Faultless (b : Bytes) : Prop :=
  lx.pending .array b ∨
    ∃ ds n v, lx.number .array ds n ∧ b = header .array ds v ∧ FaultlessItems lx n v

/-- Requests one after another, up to `r`.
Source: none
Kind: D -/
def Frames : List (List Bytes) → Bytes → Bytes → Prop
  | [], b, r => b = r
  | args :: more, b, r => ∃ v, Frame lx b args v ∧ Frames more v r

variable {lx}

variable (lx) in
/-- A header of kind `p` is due at `u`: at the start, or where fewer bulk strings have come than
were announced.
Source: none
Kind: D -/
def HeaderAt (b : Bytes) (p : Marker) (u : Bytes) : Prop :=
  match p with
  | .array => u = b
  | .bulk => ∃ ds n v args, lx.number .array ds n ∧ b = header .array ds v ∧ args.length < n ∧
      Items lx args v u

/-- Arguments of one lexicon are arguments of a larger one.
Source: none
Kind: L -/
theorem Items.mono {lx' : Lexicon} (hle : ∀ p ds n, lx.number p ds n → lx'.number p ds n)
    {args : List Bytes} {r : Bytes} : ∀ {b : Bytes}, Items lx args b r → Items lx' args b r := by
  induction args with
  | nil => exact fun h => h
  | cons a args ih =>
      intro b h
      obtain ⟨ds, v, hds, hb, hv⟩ := h
      exact ⟨ds, v, hle _ _ _ hds, hb, ih hv⟩

/-- A header of one lexicon is a header of a larger one.
Source: none
Kind: L -/
theorem HeaderAt.mono {lx' : Lexicon} (hle : ∀ p ds n, lx.number p ds n → lx'.number p ds n)
    {b u : Bytes} {p : Marker} (h : HeaderAt lx b p u) : HeaderAt lx' b p u := by
  cases p with
  | array => exact h
  | bulk =>
      obtain ⟨ds, n, v, args, hds, hb, hlen, hitems⟩ := h
      exact ⟨ds, n, v, args, hle _ _ _ hds, hb, hlen, hitems.mono hle⟩

/-- Bulk strings are a stretch of the buffer, whatever follows them.
Source: none
Kind: L -/
theorem Items.stretch {args : List Bytes} {r : Bytes} :
    ∀ {b : Bytes}, Items lx args b r → ∃ c, b = c ++ r ∧ ∀ r', Items lx args (c ++ r') r' := by
  induction args with
  | nil =>
      intro b h
      exact ⟨[], h, fun _ => rfl⟩
  | cons a args ih =>
      intro b h
      obtain ⟨ds, v, hds, rfl, hv⟩ := h
      obtain ⟨c, rfl, hc⟩ := ih hv
      refine ⟨header .bulk ds (a ++ (crlf ++ c)), by simp [header], fun r' => ?_⟩
      exact ⟨ds, c ++ r', hds, by simp [header], hc r'⟩

/-! ### Scanning the shape -/

/-- The payload of a bulk string and its line end.
Source: `internal/resp/reader.go` `readBulkArg`
Kind: D -/
def payload (n : ℕ) : Scanner Bytes := fun b =>
  if b.length < n + 2 then .short
  else if (b.drop n).take 2 = crlf then .done (b.take n) (b.drop (n + 2))
  else .malformed

/-- A payload falls short if it or its line end is cut.
Source: `internal/resp/reader.go` `readBulkArg`
Kind: L -/
theorem payload_eq_short {n : ℕ} {b : Bytes} : payload n b = .short ↔ b.length < n + 2 := by
  unfold payload
  split_ifs with hlen hend
  · simp [hlen]
  · simp [hlen]
  · simp [hlen]

/-- A payload is read back with its line end taken off.
Source: `internal/resp/reader.go` `readBulkArg`
Kind: L -/
theorem payload_eq_done {n : ℕ} {a b r : Bytes} :
    payload n b = .done a r ↔ a.length = n ∧ b = a ++ (crlf ++ r) := by
  constructor
  · intro h
    unfold payload at h
    split_ifs at h with hlen hend
    obtain ⟨rfl, rfl⟩ := Verdict.done.inj h
    refine ⟨List.length_take_of_le (by omega), ?_⟩
    rw [← hend, ← List.drop_drop, List.take_append_drop, List.take_append_drop]
  · rintro ⟨rfl, rfl⟩
    have hlen : ¬(a ++ (crlf ++ r)).length < a.length + 2 := by
      simp only [List.length_append, crlf, List.length_cons, List.length_nil]
      omega
    have hend : ((a ++ (crlf ++ r)).drop a.length).take 2 = crlf := by
      rw [List.drop_left]
      rfl
    have hrest : (a ++ (crlf ++ r)).drop (a.length + 2) = r := by
      rw [← List.drop_drop, List.drop_left]
      rfl
    rw [payload, if_neg hlen, if_pos hend, hrest, List.take_left]

/-- A bulk string.
Source: `internal/resp/reader.go` `readBulkArg`
Kind: D -/
def item (h : Marker → Scanner ℕ) : Scanner Bytes := (h .bulk).bind payload

/-- A request.
Source: `internal/resp/reader.go` `ReadCommand`
Kind: D -/
def frame (h : Marker → Scanner ℕ) : Scanner (List Bytes) := (h .array).bind (item h).times

/-- The headers are read by the lexicon.
Source: none
Kind: D -/
structure Reads (h : Marker → Scanner ℕ) (lx : Lexicon) : Prop where
  done_iff : ∀ p b n r, h p b = .done n r ↔ ∃ ds, lx.number p ds n ∧ b = header p ds r
  short_iff : ∀ p b, h p b = .short ↔ lx.pending p b

section reads

variable {h : Marker → Scanner ℕ} (hr : Reads h lx)

include hr

/-- An argument is a bulk header of its length, its bytes and a line end.
Source: none
Kind: L -/
theorem Reads.item_done_iff {b a r : Bytes} :
    item h b = .done a r ↔
      ∃ ds, lx.number .bulk ds a.length ∧ b = header .bulk ds (a ++ (crlf ++ r)) := by
  unfold item Scanner.bind
  rw [Verdict.bind_eq_done]
  constructor
  · rintro ⟨n, v, hn, hv⟩
    obtain ⟨rfl, rfl⟩ := payload_eq_done.mp hv
    exact (hr.done_iff _ _ _ _).mp hn
  · intro hds
    exact ⟨a.length, _, (hr.done_iff _ _ _ _).mpr hds, payload_eq_done.mpr ⟨rfl, rfl⟩⟩

/-- An argument falls short exactly if it is cut.
Source: none
Kind: L -/
theorem Reads.item_short_iff {b : Bytes} : item h b = .short ↔ CutItem lx b := by
  unfold item Scanner.bind CutItem
  rw [Verdict.bind_eq_short, hr.short_iff]
  constructor
  · rintro (hp | ⟨n, v, hn, hv⟩)
    · exact Or.inl hp
    · obtain ⟨ds, hds, hb⟩ := (hr.done_iff _ _ _ _).mp hn
      exact Or.inr ⟨ds, n, v, hds, hb, payload_eq_short.mp hv⟩
  · rintro (hp | ⟨ds, n, v, hds, hb, hv⟩)
    · exact Or.inl hp
    · exact Or.inr ⟨n, v, (hr.done_iff _ _ _ _).mpr ⟨ds, hds, hb⟩, payload_eq_short.mpr hv⟩

/-- Arguments in sequence, as the grammar has them.
Source: none
Kind: L -/
theorem Reads.items_done_iff {n : ℕ} {args : List Bytes} {r : Bytes} :
    ∀ {b : Bytes}, (item h).times n b = .done args r ↔ args.length = n ∧ Items lx args b r := by
  induction n generalizing args with
  | zero =>
      intro b
      rw [Scanner.times, Verdict.done.injEq]
      constructor
      · rintro ⟨rfl, rfl⟩
        exact ⟨rfl, rfl⟩
      · rintro ⟨hlen, hb⟩
        rw [List.length_eq_zero_iff] at hlen
        subst hlen
        exact ⟨rfl, hb⟩
  | succ n ih =>
      intro b
      simp only [Scanner.times, Scanner.bind, Verdict.bind_eq_done, Verdict.done.injEq]
      constructor
      · rintro ⟨a, v, ha, as, r', has, rfl, rfl⟩
        obtain ⟨hlen, hitems⟩ := ih.mp has
        obtain ⟨ds, hds, hb⟩ := hr.item_done_iff.mp ha
        exact ⟨by rw [List.length_cons, hlen], ds, v, hds, hb, hitems⟩
      · rintro ⟨hlen, hitems⟩
        cases args with
        | nil => exact absurd hlen (by simp)
        | cons a args =>
            obtain ⟨ds, v, hds, hb, hv⟩ := hitems
            exact ⟨a, v, hr.item_done_iff.mpr ⟨ds, hds, hb⟩, args, r,
              ih.mpr ⟨Nat.succ.inj hlen, hv⟩, rfl, rfl⟩

/-- Arguments in sequence fall short if one of them is cut.
Source: none
Kind: L -/
theorem Reads.items_short_iff {n : ℕ} :
    ∀ {b : Bytes}, (item h).times n b = .short ↔
      ∃ args u, args.length < n ∧ Items lx args b u ∧ CutItem lx u := by
  induction n with
  | zero =>
      intro b
      simp [Scanner.times]
  | succ n ih =>
      intro b
      simp only [Scanner.times, Scanner.bind, Verdict.bind_eq_short, hr.item_short_iff]
      constructor
      · rintro (hcut | ⟨a, v, ha, has⟩)
        · exact ⟨[], b, Nat.succ_pos n, rfl, hcut⟩
        · obtain ⟨ds, hds, hb⟩ := hr.item_done_iff.mp ha
          rcases has with has | ⟨_, _, _, hnot⟩
          · obtain ⟨args, u, hlen, hitems, hu⟩ := ih.mp has
            exact ⟨a :: args, u, Nat.succ_lt_succ hlen, ⟨ds, v, hds, hb, hitems⟩, hu⟩
          · exact absurd hnot (by simp)
      · rintro ⟨args, u, hlen, hitems, hu⟩
        cases args with
        | nil =>
            rw [show b = u from hitems]
            exact Or.inl hu
        | cons a args =>
            obtain ⟨ds, v, hds, hb, hv⟩ := hitems
            refine Or.inr ⟨a, v, hr.item_done_iff.mpr ⟨ds, hds, hb⟩, Or.inl ?_⟩
            exact ih.mpr ⟨args, u, Nat.lt_of_succ_lt_succ hlen, hv, hu⟩

/-- The scanner finds exactly the requests.
Source: none
Kind: L -/
theorem Reads.frame_done_iff {b : Bytes} {args : List Bytes} {r : Bytes} :
    frame h b = .done args r ↔ Frame lx b args r := by
  unfold frame Scanner.bind
  rw [Verdict.bind_eq_done]
  constructor
  · rintro ⟨n, v, hn, hv⟩
    obtain ⟨rfl, hitems⟩ := hr.items_done_iff.mp hv
    obtain ⟨ds, hds, hb⟩ := (hr.done_iff _ _ _ _).mp hn
    exact ⟨ds, v, hds, hb, hitems⟩
  · rintro ⟨ds, v, hds, hb, hitems⟩
    exact ⟨_, v, (hr.done_iff _ _ _ _).mpr ⟨ds, hds, hb⟩, hr.items_done_iff.mpr ⟨rfl, hitems⟩⟩

/-- The scanner waits exactly inside a request.
Source: none
Kind: L -/
theorem Reads.frame_short_iff {b : Bytes} : frame h b = .short ↔ CutFrame lx b := by
  unfold frame Scanner.bind CutFrame
  rw [Verdict.bind_eq_short, hr.short_iff]
  constructor
  · rintro (hp | ⟨n, v, hn, hv⟩)
    · exact Or.inl hp
    · obtain ⟨ds, hds, hb⟩ := (hr.done_iff _ _ _ _).mp hn
      obtain ⟨args, u, hlen, hitems, hu⟩ := hr.items_short_iff.mp hv
      exact Or.inr ⟨ds, n, v, args, u, hds, hb, hlen, hitems, hu⟩
  · rintro (hp | ⟨ds, n, v, args, u, hds, hb, hlen, hitems, hu⟩)
    · exact Or.inl hp
    · exact Or.inr ⟨n, v, (hr.done_iff _ _ _ _).mpr ⟨ds, hds, hb⟩,
        hr.items_short_iff.mpr ⟨args, u, hlen, hitems, hu⟩⟩

/-- Arguments in sequence are not malformed exactly if they have no fault.
Source: none
Kind: L -/
theorem Reads.items_ne_malformed_iff {m : ℕ} :
    ∀ {b : Bytes}, (item h).times m b ≠ .malformed ↔ FaultlessItems lx m b := by
  induction m with
  | zero =>
      intro b
      simp [Scanner.times, FaultlessItems]
  | succ m ih =>
      intro b
      rw [Scanner.times_succ, FaultlessItems, ← hr.item_short_iff]
      cases hitem : item h b with
      | short => simp [Verdict.bind]
      | malformed =>
          simp only [Verdict.bind, ne_eq, not_true_eq_false, reduceCtorEq, false_or, false_iff]
          rintro ⟨ds, a, v, hds, hb, -⟩
          rw [hr.item_done_iff.mpr ⟨ds, hds, hb⟩] at hitem
          exact absurd hitem (by simp)
      | done a v =>
          have hrest : ((item h).times m v).bind (fun as r => Verdict.done (a :: as) r) ≠ .malformed ↔
              FaultlessItems lx m v := by
            rw [← ih]
            cases (item h).times m v <;> simp [Verdict.bind]
          simp only [Verdict.bind, reduceCtorEq, false_or] at hrest ⊢
          rw [hrest]
          constructor
          · intro hv
            obtain ⟨ds, hds, hb⟩ := hr.item_done_iff.mp hitem
            exact ⟨ds, a, v, hds, hb, hv⟩
          · rintro ⟨ds, a', v', hds, hb, hv⟩
            rw [hr.item_done_iff.mpr ⟨ds, hds, hb⟩] at hitem
            obtain ⟨rfl, rfl⟩ := Verdict.done.inj hitem
            exact hv

/-- The scanner finds a fault exactly where there is one.
Source: none
Kind: L -/
theorem Reads.frame_ne_malformed_iff {b : Bytes} : frame h b ≠ .malformed ↔ Faultless lx b := by
  unfold frame Scanner.bind Faultless
  rw [← hr.short_iff]
  cases hhead : h .array b with
  | short => simp [Verdict.bind]
  | malformed =>
      simp only [Verdict.bind, ne_eq, not_true_eq_false, reduceCtorEq, false_or, false_iff]
      rintro ⟨ds, n, v, hds, hb, -⟩
      rw [(hr.done_iff _ _ _ _).mpr ⟨ds, hds, hb⟩] at hhead
      exact absurd hhead (by simp)
  | done n v =>
      simp only [Verdict.bind, reduceCtorEq, false_or]
      rw [hr.items_ne_malformed_iff]
      constructor
      · intro hv
        obtain ⟨ds, hds, hb⟩ := (hr.done_iff _ _ _ _).mp hhead
        exact ⟨ds, n, v, hds, hb, hv⟩
      · rintro ⟨ds, n', v', hds, hb, hv⟩
        rw [(hr.done_iff _ _ _ _).mpr ⟨ds, hds, hb⟩] at hhead
        obtain ⟨rfl, rfl⟩ := Verdict.done.inj hhead
        exact hv

/-- A malformed header after whole arguments makes the sequence malformed.
Source: none
Kind: L -/
theorem Reads.items_of_malformed {u : Bytes} (hu : h .bulk u = .malformed) {args : List Bytes} :
    ∀ {n : ℕ} {b : Bytes}, Items lx args b u → args.length < n →
      (item h).times n b = .malformed := by
  induction args with
  | nil =>
      intro n b hitems hlen
      obtain ⟨n, rfl⟩ := Nat.exists_eq_succ_of_ne_zero (Nat.ne_of_gt hlen)
      rw [show b = u from hitems, Scanner.times_succ, item, Scanner.bind, hu]
      rfl
  | cons a args ih =>
      intro n b hitems hlen
      obtain ⟨n, rfl⟩ := Nat.exists_eq_succ_of_ne_zero (Nat.ne_of_gt (Nat.zero_lt_of_lt hlen))
      obtain ⟨ds, v, hds, hb, hv⟩ := hitems
      rw [Scanner.times_succ, hr.item_done_iff.mpr ⟨ds, hds, hb⟩]
      simp only [Verdict.bind]
      rw [ih hv (Nat.lt_of_succ_lt_succ hlen)]

/-- A malformed header where one is due makes the request malformed.
Source: none
Kind: L -/
theorem Reads.frame_of_malformed {b u : Bytes} {p : Marker} (hat : HeaderAt lx b p u)
    (hu : h p u = .malformed) : frame h b = .malformed := by
  cases p with
  | array =>
      rw [← show u = b from hat, frame, Scanner.bind, hu]
      rfl
  | bulk =>
      obtain ⟨ds, n, v, args, hds, hb, hlen, hitems⟩ := hat
      rw [frame, Scanner.bind, (hr.done_iff _ _ _ _).mpr ⟨ds, hds, hb⟩]
      exact hr.items_of_malformed hu hitems hlen

/-- An unfinished header where one is due leaves the request unfinished.
Source: none
Kind: L -/
theorem Reads.frame_of_short {b u : Bytes} {p : Marker} (hat : HeaderAt lx b p u)
    (hu : h p u = .short) : frame h b = .short := by
  rw [hr.frame_short_iff]
  rw [hr.short_iff] at hu
  cases p with
  | array =>
      rw [← show u = b from hat]
      exact Or.inl hu
  | bulk =>
      obtain ⟨ds, n, v, args, hds, hb, hlen, hitems⟩ := hat
      exact Or.inr ⟨ds, n, v, args, u, hds, hb, hlen, hitems, Or.inl hu⟩

/-- A request depends only on its own bytes.
Source: none
Kind: L -/
theorem Reads.frame_local : (frame h).Local := by
  intro b args r hdone
  obtain ⟨ds, v, hds, rfl, hitems⟩ := hr.frame_done_iff.mp hdone
  obtain ⟨c, rfl, hc⟩ := hitems.stretch
  refine ⟨header .array ds c, List.cons_ne_nil _ _, by simp [header], fun r' => ?_⟩
  exact hr.frame_done_iff.mpr ⟨ds, c ++ r', hds, by simp [header], hc r'⟩

end reads

/-- Two scanners of one lexicon are the same.
Source: none
Kind: L -/
theorem Reads.unique {h₁ h₂ : Marker → Scanner ℕ} (r₁ : Reads h₁ lx)
    (r₂ : Reads h₂ lx) : h₁ = h₂ := by
  funext p b
  cases hb : h₁ p b with
  | done n v => exact ((r₂.done_iff p b n v).mpr ((r₁.done_iff p b n v).mp hb)).symm
  | short => exact ((r₂.short_iff p b).mpr ((r₁.short_iff p b).mp hb)).symm
  | malformed =>
      cases hb' : h₂ p b with
      | done n v =>
          have := (r₁.done_iff p b n v).mpr ((r₂.done_iff p b n v).mp hb')
          exact absurd (hb.symm.trans this) (by simp)
      | short =>
          have := (r₁.short_iff p b).mpr ((r₂.short_iff p b).mp hb')
          exact absurd (hb.symm.trans this) (by simp)
      | malformed => rfl

end CacheMoney.Resp
