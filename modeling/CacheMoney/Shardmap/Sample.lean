import CacheMoney.Found.Prog
import CacheMoney.Shardmap.Refinement

/-!
# Random sampling

`internal/shardmap/sample.go`: a bounded number of random shard draws, each followed by a random
occupied slot of that shard. The random source is a tape of 64-bit draws, read left to right.

* `Map.sample` is the source's `Sample`; its `seen` set is the set of keys of `out`.
* `Represents.sample`: whatever the draws, the result holds stored pairs with distinct keys, at
  most `n` of them, and no shard or slot index leaves its array.
-/

set_option linter.unusedSectionVars false

namespace CacheMoney.Shardmap

open CacheMoney.Found

/-! ### The source -/

/-- Source: `internal/shardmap/sample.go` `sampleDrawFactor`
Kind: D -/
def sampleDrawFactor : ℤ := 8

/-- Source: `internal/shardmap/sample.go` `sampleDrawFloor`
Kind: D -/
def sampleDrawFloor : ℤ := 16

/-- Source: `internal/shardmap/sample.go` `sampleSlotTries`
Kind: D -/
def sampleSlotTries : ℕ := 8

variable {S K V : Type} [DecidableEq K] [Inhabited K] [Inhabited V]

/-- The reject-sampling loop of `sampleSlot`: the first drawn slot that is occupied.
Source: `internal/shardmap/sample.go` `sampleSlot`
Kind: D -/
def Table.rejectSlot (t : Table K V) : ℕ → Tape UInt64 → Outcome (Option ℕ × Tape UInt64)
  | 0, rand => pure (none, rand)
  | tries + 1, rand => do
      let i := rand.head.toNat &&& t.capm1
      let s ← index t.slots i
      if s.metadata ≠ 0 then pure (some i, rand.tail) else t.rejectSlot tries rand.tail

/-- The forward scan of `sampleSlot` to the next occupied slot.
Source: `internal/shardmap/sample.go` `sampleSlot`
Kind: D -/
def Table.scanSlot (t : Table K V) : ℕ → ℕ → Outcome ℕ
  | 0, _ => throw .outOfFuel
  | fuel + 1, start => do
      let s ← index t.slots start
      if s.metadata ≠ 0 then pure start else t.scanSlot fuel (t.next start)

/-- Source: `internal/shardmap/sample.go` `sampleSlot`
Kind: D -/
def Table.sampleSlot (fuel : ℕ) (t : Table K V) (rand : Tape UInt64) :
    Outcome (ℕ × Tape UInt64) := do
  let (hit, rand) ← t.rejectSlot sampleSlotTries rand
  match hit with
  | some i => pure (i, rand)
  | none => do
      let i ← t.scanSlot fuel (rand.head.toNat &&& t.capm1)
      pure (i, rand.tail)

/-- Source: `internal/shardmap/sample.go` `sampleShard`
Kind: D -/
def sampleShard (fuel : ℕ) (t : Table K V) (rand : Tape UInt64) :
    Outcome (Option (K × V) × Tape UInt64) :=
  if t.count = 0 then pure (none, rand) else do
    let (i, rand) ← t.sampleSlot fuel rand
    let s ← index t.slots i
    pure (some (s.key, s.val), rand)

/-- The draw loop of `Sample`, with its remaining budget.
Source: `internal/shardmap/sample.go` `Sample`
Kind: D -/
def Map.sampleLoop (fuel : ℕ) (m : Map S K V) (n : ℤ) :
    ℕ → List (K × V) → Tape UInt64 → Outcome (List (K × V) × Tape UInt64)
  | 0, out, rand => pure (out, rand)
  | budget + 1, out, rand =>
      if (out.length : ℤ) < n then do
        let t ← index m.shards (rand.head.toNat &&& (m.shards.length - 1))
        let (e, rand) ← sampleShard fuel t rand.tail
        match e with
        | none => m.sampleLoop fuel n budget out rand
        | some e =>
            if e.1 ∈ out.map Prod.fst then m.sampleLoop fuel n budget out rand
            else m.sampleLoop fuel n budget (out ++ [e]) rand
      else pure (out, rand)

/-- Source: `internal/shardmap/sample.go` `Sample`
Kind: D -/
def Map.sample (fuel : ℕ) (m : Map S K V) (n : ℤ) (rand : Tape UInt64) :
    Outcome (List (K × V) × Tape UInt64) :=
  if n ≤ 0 then pure ([], rand)
  else m.sampleLoop fuel n (n * sampleDrawFactor + sampleDrawFloor).toNat [] rand

/-! ### Every draw is a stored pair -/

variable {m : Map S K V} {f : FinMap K V} {hf : K → UInt64} {t : Table K V}

/-- A masked draw is a slot of the table.
Source: `internal/shardmap/sample.go` `sampleSlot`
Kind: L -/
theorem Table.Laid.and_capm1_lt (h : t.Laid hf) (x : ℕ) : x &&& t.capm1 < t.slots.length := by
  rw [h.and_capm1]
  have h8 := h.eight_le_cap
  exact Nat.mod_lt _ (show 0 < t.cap by omega)

/-- The rejection loop returns an occupied slot or none.
Source: `internal/shardmap/sample.go` `sampleSlot`
Kind: L -/
theorem Table.Laid.rejectSlot (h : t.Laid hf) (tries : ℕ) (rand : Tape UInt64) :
    Ensures (t.rejectSlot tries rand) fun r => ∀ i, r.1 = some i →
      ∃ s, t.slots[i]? = some s ∧ s.Occupied := by
  induction tries generalizing rand with
  | zero =>
      intro i hi
      cases hi
  | succ tries ih =>
      have hlt := h.and_capm1_lt rand.head.toNat
      unfold Table.rejectSlot
      simp only [index_eq_ok hlt, ok_bind]
      split_ifs with hocc
      · intro i hi
        cases hi
        exact ⟨_, List.getElem?_eq_getElem hlt, hocc⟩
      · exact ih rand.tail

/-- The forward scan returns an occupied slot.
Source: `internal/shardmap/sample.go` `sampleSlot`
Kind: L -/
theorem Table.Laid.scanSlot (h : t.Laid hf) (fuel : ℕ) (start : ℕ)
    (hstart : start < t.slots.length) :
    Ensures (t.scanSlot fuel start) fun i => ∃ s, t.slots[i]? = some s ∧ s.Occupied := by
  induction fuel generalizing start with
  | zero => trivial
  | succ fuel ih =>
      unfold Table.scanSlot
      rw [index_eq_ok hstart, ok_bind]
      split_ifs with hocc
      · exact ⟨_, List.getElem?_eq_getElem hstart, hocc⟩
      · exact ih _ (h.next_lt start)

/-- Sampling a table returns an occupied slot.
Source: `internal/shardmap/sample.go` `sampleSlot`
Kind: L -/
theorem Table.Laid.sampleSlot (h : t.Laid hf) (fuel : ℕ) (rand : Tape UInt64) :
    Ensures (t.sampleSlot fuel rand) fun r => ∃ s, t.slots[r.1]? = some s ∧ s.Occupied := by
  unfold Table.sampleSlot
  refine (h.rejectSlot sampleSlotTries rand).bind ?_
  rintro ⟨hit, rand⟩ hhit
  cases hit with
  | some i => exact hhit i rfl
  | none =>
      refine (h.scanSlot fuel _ (h.and_capm1_lt _)).bind ?_
      exact fun i hi => hi

/-- Sampling a shard returns an entry of it, or none.
Source: `internal/shardmap/sample.go` `sampleShard`
Kind: L -/
theorem Table.Sound.sampleShard (h : t.Sound hf) (fuel : ℕ) (rand : Tape UInt64) :
    Ensures (sampleShard fuel t rand) fun r => ∀ e, r.1 = some e → e ∈ t.contents := by
  unfold Shardmap.sampleShard
  split_ifs with hcount
  · intro e he
    cases he
  · refine (h.toLaid.sampleSlot fuel rand).bind ?_
    rintro ⟨i, rand⟩ ⟨s, hs, hocc⟩
    simp only [index_eq_ok_iff.mpr hs, ok_bind, ensures_pure]
    intro e he
    cases he
    exact Table.mem_contents.mpr ⟨i, s, hs, hocc, rfl⟩

/-- What `Sample` may return.
Source: `internal/shardmap/sample.go` `Sample`
Kind: D -/
structure Drawn (f : FinMap K V) (n : ℤ) (out : List (K × V)) : Prop where
  stored : ∀ e ∈ out, f.lookup e.1 = some e.2
  distinct : (out.map Prod.fst).Nodup
  length_le : out.length ≤ n.toNat

/-- A stored entry under a new key may be added to what was drawn.
Source: `internal/shardmap/sample.go` `Sample`
Kind: L -/
theorem Drawn.snoc {n : ℤ} {out : List (K × V)} (h : Drawn f n out) {e : K × V}
    (he : f.lookup e.1 = some e.2) (hnew : e.1 ∉ out.map Prod.fst) (hlen : (out.length : ℤ) < n) :
    Drawn f n (out ++ [e]) := by
  refine ⟨?_, ?_, ?_⟩
  · intro e' he'
    rcases List.mem_append.mp he' with he' | he'
    · exact h.stored e' he'
    · rw [List.mem_singleton.mp he']
      exact he
  · rw [List.map_append, List.nodup_append]
    refine ⟨h.distinct, List.nodup_singleton _, ?_⟩
    rintro a ha b hb rfl
    exact hnew (List.mem_singleton.mp hb ▸ ha)
  · rw [List.length_append, List.length_singleton]
    omega

/-- A drawn shard index is inside the shard array.
Source: `internal/shardmap/sample.go` `Sample`
Kind: L -/
theorem Map.Sound.drawn_shard (h : m.Sound) (x : UInt64) :
    ∃ t, index m.shards (x.toNat &&& (m.shards.length - 1)) = .ok t ∧ t ∈ m.shards := by
  obtain ⟨p, -, hlen, -⟩ := h.shards_pow
  have hlt : x.toNat &&& (m.shards.length - 1) < m.shards.length := by
    rw [hlen, Nat.and_two_pow_sub_one_eq_mod]
    exact Nat.mod_lt _ (Nat.two_pow_pos p)
  exact ⟨_, index_eq_ok hlt, List.getElem_mem hlt⟩

/-- The draw loop keeps `Drawn`.
Source: `internal/shardmap/sample.go` `Sample`
Kind: L -/
theorem Map.Represents.sampleLoop (h : m.Represents f) (fuel : ℕ) (n : ℤ) (budget : ℕ) :
    ∀ (out : List (K × V)) (rand : Tape UInt64), Drawn f n out →
      Ensures (m.sampleLoop fuel n budget out rand) fun r => Drawn f n r.1 := by
  induction budget with
  | zero => exact fun out rand hout => hout
  | succ budget ih =>
      intro out rand hout
      unfold Map.sampleLoop
      split_ifs with hlen
      · obtain ⟨t, ht, htm⟩ := h.sound.drawn_shard rand.head
        rw [ht, ok_bind]
        refine ((h.sound.tables t htm).sampleShard fuel rand.tail).bind ?_
        rintro ⟨e, rand⟩ he
        cases e with
        | none => exact ih out rand hout
        | some e =>
            simp only
            split_ifs with hdup
            · exact ih out rand hout
            · refine ih (out ++ [e]) rand (hout.snoc ?_ hdup hlen)
              rw [← mem_pairs, ← h.contents_eq]
              exact mem_sum_contents.mpr ⟨t, htm, he e rfl⟩
      · exact hout

/-- `Sample` draws stored pairs with distinct keys, at most `n`, whatever the random source.
Source: `internal/shardmap/sample.go` `Sample`
Kind: P -/
theorem Map.Represents.sample (h : m.Represents f) (fuel : ℕ) (n : ℤ) (rand : Tape UInt64) :
    Ensures (m.sample fuel n rand) fun r => Drawn f n r.1 := by
  have hnil : Drawn f n [] := ⟨by simp, List.nodup_nil, Nat.zero_le _⟩
  unfold Map.sample
  split_ifs with hn
  · exact hnil
  · exact h.sampleLoop fuel n _ [] rand hnil

/-- From the reader on, every draw names a shard without entries.
Source: `internal/shardmap/sample.go` `Sample`
Kind: D -/
def EmptyAhead (m : Map S K V) (rand : Tape UInt64) : Prop :=
  ∀ i, rand.pos ≤ i →
    ∃ t, index m.shards ((rand.read i).toNat &&& (m.shards.length - 1)) = .ok t ∧ t.count = 0

/-- Then `Sample` spends its whole budget on them and returns nothing, whatever the other shards
hold.
Source: `internal/shardmap/sample.go` `Sample`
Kind: P -/
theorem EmptyAhead.sample {rand : Tape UInt64} (h : EmptyAhead m rand) (fuel : ℕ) (n : ℤ) :
    ∃ rand', m.sample fuel n rand = .ok ([], rand') ∧ rand'.read = rand.read ∧
      rand.pos ≤ rand'.pos := by
  have hloop : ∀ (budget : ℕ) (tape : Tape UInt64), tape.read = rand.read →
      rand.pos ≤ tape.pos → ∃ rand', m.sampleLoop fuel n budget [] tape = .ok ([], rand') ∧
        rand'.read = rand.read ∧ rand.pos ≤ rand'.pos := by
    intro budget
    induction budget with
    | zero => exact fun tape htape hpos => ⟨tape, rfl, htape, hpos⟩
    | succ budget ih =>
        intro tape htape hpos
        unfold Map.sampleLoop
        split_ifs with hlen
        · obtain ⟨t, ht, hcount⟩ := h tape.pos hpos
          rw [Tape.head, htape, ht, ok_bind, sampleShard, if_pos hcount]
          exact ih tape.tail htape (Nat.le_succ_of_le hpos)
        · exact ⟨tape, rfl, htape, hpos⟩
  unfold Map.sample
  split_ifs with hn
  · exact ⟨rand, rfl, rfl, le_rfl⟩
  · exact hloop _ rand rfl le_rfl

end CacheMoney.Shardmap
