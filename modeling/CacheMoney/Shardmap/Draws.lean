import CacheMoney.Shardmap.Sample
import CacheMoney.Shardmap.Termination

/-!
# What the draws of a sampling name

`Sample` makes attempts: a shard draw, then slot draws inside that shard. Which entry an attempt
lands on depends on the map and on the random source only, not on what was collected before.

* `Map.attempt`, `Map.attempts`: the attempts a random source describes.
* `Map.sampleTraced`: `Sample` with the attempts it made (`sample_eq_traced`).
* `sample_sound`: `Sample` returns within its budget, with stored entries under distinct keys, and
  with at least one if any shard it drew has one.
* `sample_complete_iff`: it returns `n` entries exactly if the attempts of its budget name `n`
  keys. The draws may name empty shards or the same entries again (`sample_incomplete`).
-/

set_option linter.unusedSectionVars false

namespace CacheMoney.Shardmap

open CacheMoney.Found CacheMoney.Found.RobinHood

variable {S K V : Type} [DecidableEq K] [Inhabited K] [Inhabited V] {m : Map S K V}
  {f : FinMap K V} {hf : K → UInt64} {t : Table K V}

/-! ### Sampling a shard returns -/

/-- The rejection loop always returns.
Source: `internal/shardmap/sample.go` `sampleSlot`
Kind: L -/
theorem Table.Laid.rejectSlot_returns (h : t.Laid hf) (tries : ℕ) (rand : Tape UInt64) :
    ∃ r, t.rejectSlot tries rand = .ok r := by
  induction tries generalizing rand with
  | zero => exact ⟨_, rfl⟩
  | succ tries ih =>
      unfold Table.rejectSlot
      simp only [index_eq_ok (h.and_capm1_lt rand.head.toNat), ok_bind]
      split_ifs with hocc
      · exact ⟨_, rfl⟩
      · exact ih rand.tail

/-- The forward scan ends: an occupied slot lies `k` steps ahead.
Source: `internal/shardmap/sample.go` `sampleSlot`
Kind: L -/
theorem Table.Laid.scanSlot_returns (h : t.Laid hf) (fuel : ℕ) :
    ∀ start k : ℕ, start < t.slots.length → t.dibAt ((start + k) % t.cap) ≠ none → k < fuel →
      ∃ i, t.scanSlot fuel start = .ok i := by
  induction fuel with
  | zero =>
      intro start k _ _ hk
      omega
  | succ fuel ih =>
      intro start k hstart hocc hk
      unfold Table.scanSlot
      rw [index_eq_ok hstart, ok_bind]
      split_ifs with hhit
      · exact ⟨_, rfl⟩
      · have hk0 : k ≠ 0 := by
          rintro rfl
          apply hocc
          rw [Nat.add_zero, Nat.mod_eq_of_lt (show start < t.cap from hstart),
            Table.dibAt_of_getElem? (List.getElem?_eq_getElem hstart),
            Slot.dib_of_empty (not_not.mp hhit)]
        obtain ⟨k, rfl⟩ := Nat.exists_eq_succ_of_ne_zero hk0
        refine ih (t.next start) k (h.next_lt start) ?_ (by omega)
        rw [h.next_eq, Nat.mod_add_mod, show start + 1 + k = start + k.succ by omega]
        exact hocc

/-- A shard that counts entries has an occupied slot.
Source: `internal/shardmap/sample.go` `sampleShard`
Kind: L -/
theorem Table.Sound.exists_occupied (h : t.Sound hf) (hcount : t.count ≠ 0) :
    ∃ j < t.cap, t.dibAt j ≠ none := by
  have hpos : 0 < t.contents.card := by
    rw [← h.count_eq]
    omega
  obtain ⟨e, he⟩ := Multiset.card_pos_iff_exists_mem.mp hpos
  obtain ⟨j, s, hs, hocc, -⟩ := Table.mem_contents.mp he
  refine ⟨j, (List.getElem?_eq_some_iff.mp hs).1, ?_⟩
  rw [Table.dibAt_of_getElem? hs, Slot.dib_of_occupied hocc]
  exact Option.some_ne_none _

/-- A shard sampling returns, with an entry unless the shard is empty.
Source: `internal/shardmap/sample.go` `sampleShard`, `sampleSlot`
Kind: P -/
theorem Table.Sound.sampleShard_returns (h : t.Sound hf) {fuel : ℕ} (hfuel : t.cap ≤ fuel)
    (rand : Tape UInt64) :
    Returns (Shardmap.sampleShard fuel t rand) fun r =>
      (r.1 = none ↔ t.count = 0) ∧ ∀ e, r.1 = some e → e ∈ t.contents := by
  refine Returns.and ?_ (h.sampleShard fuel rand)
  unfold Shardmap.sampleShard
  split_ifs with hcount
  · exact ⟨_, rfl, by simp [hcount]⟩
  · have hslot : ∃ r, t.sampleSlot fuel rand = .ok r := by
      unfold Table.sampleSlot
      obtain ⟨⟨hit, rand'⟩, hr⟩ := h.rejectSlot_returns sampleSlotTries rand
      rw [hr, ok_bind]
      cases hit with
      | some i => exact ⟨_, rfl⟩
      | none =>
          obtain ⟨j, hj, hocc⟩ := h.exists_occupied hcount
          obtain ⟨k, hk, hreach⟩ := exists_reach hj (rand'.head.toNat &&& t.capm1)
          obtain ⟨i, hi⟩ := h.scanSlot_returns fuel _ k (h.and_capm1_lt _)
            (by rw [hreach]; exact hocc) (by omega)
          simp only [hi, ok_bind]
          exact ⟨_, rfl⟩
    obtain ⟨⟨i, rand'⟩, hr⟩ := hslot
    obtain ⟨s, hs, -⟩ := (h.toLaid.sampleSlot fuel rand).of_ok hr
    simp only [hr, ok_bind, index_eq_ok_iff.mpr hs]
    exact ⟨_, rfl, by simp [hcount]⟩

/-! ### Attempts -/

/-- One attempt of `Sample`: the shard drawn, and the entry it landed on, if the shard has one.
Source: `internal/shardmap/sample.go` `Sample`
Kind: D -/
structure Attempt (K V : Type) where
  shard : ℕ
  landed : Option (K × V)

/-- Source: `internal/shardmap/sample.go` `Sample`
Kind: D -/
def Map.attempt (fuel : ℕ) (m : Map S K V) (rand : Tape UInt64) :
    Outcome (Attempt K V × Tape UInt64) := do
  let i := rand.head.toNat &&& (m.shards.length - 1)
  let t ← index m.shards i
  let (e, rand) ← sampleShard fuel t rand.tail
  pure (⟨i, e⟩, rand)

/-- The first attempts a random source describes.
Source: `internal/shardmap/sample.go` `Sample`
Kind: D -/
def Map.attempts (fuel : ℕ) (m : Map S K V) :
    ℕ → Tape UInt64 → Outcome (List (Attempt K V))
  | 0, _ => pure []
  | k + 1, rand => do
      let (a, rand) ← m.attempt fuel rand
      let rest ← Map.attempts fuel m k rand
      pure (a :: rest)

/-- What the draw loop does with an attempt.
Source: `internal/shardmap/sample.go` `Sample`
Kind: D -/
def Attempt.collect (a : Attempt K V) (out : List (K × V)) : List (K × V) :=
  match a.landed with
  | none => out
  | some e => if e.1 ∈ out.map Prod.fst then out else out ++ [e]

/-- The draw loop, with the attempts it made.
Source: `internal/shardmap/sample.go` `Sample`
Kind: D -/
def Map.sampleLoopTraced (fuel : ℕ) (m : Map S K V) (n : ℤ) :
    ℕ → List (K × V) → Tape UInt64 →
      Outcome (List (K × V) × List (Attempt K V) × Tape UInt64)
  | 0, out, rand => pure (out, [], rand)
  | budget + 1, out, rand =>
      if (out.length : ℤ) < n then do
        let (a, rand) ← m.attempt fuel rand
        let (out, made, rand) ← m.sampleLoopTraced fuel n budget (a.collect out) rand
        pure (out, a :: made, rand)
      else pure (out, [], rand)

/-- `Sample`, with the attempts it made.
Source: `internal/shardmap/sample.go` `Sample`
Kind: D -/
def Map.sampleTraced (fuel : ℕ) (m : Map S K V) (n : ℤ) (rand : Tape UInt64) :
    Outcome (List (K × V) × List (Attempt K V) × Tape UInt64) :=
  if n ≤ 0 then pure ([], [], rand)
  else m.sampleLoopTraced fuel n (n * sampleDrawFactor + sampleDrawFloor).toNat [] rand

/-- One turn of the draw loop is one attempt.
Source: `internal/shardmap/sample.go` `Sample`
Kind: L -/
theorem sampleLoop_succ (fuel : ℕ) (n : ℤ) (budget : ℕ) (out : List (K × V))
    (rand : Tape UInt64) :
    m.sampleLoop fuel n (budget + 1) out rand = if (out.length : ℤ) < n then
      m.attempt fuel rand >>= fun r => m.sampleLoop fuel n budget (r.1.collect out) r.2
      else pure (out, rand) := by
  unfold Map.attempt
  simp only [bind_assoc, pure_bind]
  rw [Map.sampleLoop]
  split_ifs with hlen
  · refine bind_congr fun t => bind_congr fun r => ?_
    obtain ⟨e, rand'⟩ := r
    cases e with
    | none => rfl
    | some e =>
        by_cases hdup : e.1 ∈ out.map Prod.fst
        · simp only [Attempt.collect, if_pos hdup]
        · simp only [Attempt.collect, if_neg hdup]
  · rfl

/-- Writing the attempts down does not change the loop.
Source: `internal/shardmap/sample.go` `Sample`
Kind: L -/
theorem sampleLoop_eq_traced (fuel : ℕ) (n : ℤ) (budget : ℕ) :
    ∀ (out : List (K × V)) (rand : Tape UInt64), m.sampleLoop fuel n budget out rand =
      (fun r => (r.1, r.2.2)) <$> m.sampleLoopTraced fuel n budget out rand := by
  induction budget with
  | zero => exact fun out rand => rfl
  | succ budget ih =>
      intro out rand
      rw [sampleLoop_succ, Map.sampleLoopTraced]
      split_ifs with hlen
      · simp only [map_bind, ih, map_pure]
        refine bind_congr fun r => ?_
        cases m.sampleLoopTraced fuel n budget (r.1.collect out) r.2 <;> rfl
      · rfl

/-- The traced draw is `Sample` with its attempts added.
Source: `internal/shardmap/sample.go` `Sample`
Kind: L -/
theorem sample_eq_traced (fuel : ℕ) (n : ℤ) (rand : Tape UInt64) :
    m.sample fuel n rand = (fun r => (r.1, r.2.2)) <$> m.sampleTraced fuel n rand := by
  unfold Map.sample Map.sampleTraced
  split_ifs with hn
  · rfl
  · exact sampleLoop_eq_traced fuel n _ [] rand

/-! ### How far an attempt reads -/

/-- The most draws one attempt makes: its shard, the slots it rejects, and where it starts to scan.
Source: `internal/shardmap/sample.go` `sampleSlotTries`
Kind: D -/
def attemptDraws : ℕ := sampleSlotTries + 2

/-- The rejecting loop makes at most as many draws as it has tries.
Source: `internal/shardmap/sample.go` `sampleSlot`
Kind: L -/
theorem Table.rejectSlot_advanced (tries : ℕ) {rand : Tape UInt64} {r : Option ℕ × Tape UInt64}
    (h : t.rejectSlot tries rand = .ok r) : rand.Advanced tries r.2 := by
  induction tries generalizing rand with
  | zero =>
      cases h
      exact .refl 0 rand
  | succ tries ih =>
      unfold Table.rejectSlot at h
      obtain ⟨s, -, h⟩ := bind_eq_ok_iff.mp h
      split_ifs at h with hocc
      · cases h
        exact rand.advanced_tail.mono (by omega)
      · exact (rand.advanced_tail.trans (ih h)).mono (by omega)

/-- A shard sampling makes at most one draw more.
Source: `internal/shardmap/sample.go` `sampleShard`, `sampleSlot`
Kind: L -/
theorem sampleShard_advanced {fuel : ℕ} {rand : Tape UInt64} {r : Option (K × V) × Tape UInt64}
    (h : sampleShard fuel t rand = .ok r) : rand.Advanced (sampleSlotTries + 1) r.2 := by
  unfold sampleShard at h
  split_ifs at h with hcount
  · cases h
    exact .refl _ rand
  · obtain ⟨⟨i, rand'⟩, hslot, h⟩ := bind_eq_ok_iff.mp h
    obtain ⟨s, -, h⟩ := bind_eq_ok_iff.mp h
    cases h
    unfold Table.sampleSlot at hslot
    obtain ⟨⟨hit, rand₁⟩, hreject, hslot⟩ := bind_eq_ok_iff.mp hslot
    have hadv := Table.rejectSlot_advanced sampleSlotTries hreject
    cases hit with
    | some i =>
        cases hslot
        exact hadv.mono (by omega)
    | none =>
        obtain ⟨i, -, hslot⟩ := bind_eq_ok_iff.mp hslot
        cases hslot
        exact hadv.trans rand₁.advanced_tail

/-- An attempt reads on, by at most `attemptDraws` draws.
Source: `internal/shardmap/sample.go` `Sample`
Kind: L -/
theorem Map.attempt_advanced {fuel : ℕ} {rand : Tape UInt64} {r : Attempt K V × Tape UInt64}
    (h : m.attempt fuel rand = .ok r) : rand.Advanced attemptDraws r.2 ∧ rand.pos < r.2.pos := by
  unfold Map.attempt at h
  obtain ⟨t, -, h⟩ := bind_eq_ok_iff.mp h
  obtain ⟨⟨e, rand'⟩, hshard, h⟩ := bind_eq_ok_iff.mp h
  cases h
  have hadv := sampleShard_advanced hshard
  exact ⟨(rand.advanced_tail.trans hadv).mono (by unfold attemptDraws; omega), hadv.pos_le⟩

/-- The draw loop reads at most `attemptDraws` draws for each attempt of its budget.
Source: `internal/shardmap/sample.go` `Sample`
Kind: L -/
theorem Map.sampleLoop_advanced {fuel : ℕ} {n : ℤ} (budget : ℕ) {out : List (K × V)}
    {rand : Tape UInt64} {r : List (K × V) × Tape UInt64}
    (h : m.sampleLoop fuel n budget out rand = .ok r) :
    rand.Advanced (budget * attemptDraws) r.2 := by
  induction budget generalizing out rand with
  | zero =>
      cases h
      exact .refl _ rand
  | succ budget ih =>
      rw [sampleLoop_succ] at h
      split_ifs at h with hlen
      · obtain ⟨⟨a, rand'⟩, ha, h⟩ := bind_eq_ok_iff.mp h
        refine ((Map.attempt_advanced ha).1.trans (ih h)).mono ?_
        rw [Nat.succ_mul]
        omega
      · cases h
        exact .refl _ rand

/-- The attempts `Sample` may make for `n` entries.
Source: `internal/shardmap/sample.go` `Sample`
Kind: D -/
def sampleBudget (n : ℤ) : ℕ := (n * sampleDrawFactor + sampleDrawFloor).toNat

/-- `Sample` of at least one entry reads on, within its budget.
Source: `internal/shardmap/sample.go` `Sample`
Kind: L -/
theorem Map.sample_advanced {fuel : ℕ} {n : ℤ} (hn : 0 < n) {rand rand' : Tape UInt64}
    {out : List (K × V)} (h : m.sample fuel n rand = .ok (out, rand')) :
    rand.Advanced (sampleBudget n * attemptDraws) rand' ∧ rand.pos < rand'.pos := by
  rw [Map.sample, if_neg (not_le.mpr hn)] at h
  refine ⟨Map.sampleLoop_advanced _ h, ?_⟩
  obtain ⟨budget, hbudget⟩ : ∃ budget, (n * sampleDrawFactor + sampleDrawFloor).toNat =
      budget + 1 := by
    refine Nat.exists_eq_succ_of_ne_zero ?_
    unfold sampleDrawFactor sampleDrawFloor
    omega
  rw [hbudget, sampleLoop_succ, if_pos (by simpa using hn)] at h
  obtain ⟨⟨a, rand₁⟩, ha, h⟩ := bind_eq_ok_iff.mp h
  exact (Map.attempt_advanced ha).2.trans_le (Map.sampleLoop_advanced budget h).pos_le

/-! ### A source that repeats itself -/

section constant

variable {c : UInt64} {rand rand₁ : Tape UInt64} (hc : rand.read = fun _ => c)
  (hc₁ : rand₁.read = fun _ => c)

include hc in
/-- A constant source gives its constant.
Source: none
Kind: L -/
theorem head_of_constant : rand.head = c := by
  rw [Tape.head, hc]

include hc hc₁

/-- The rejecting loop finds the same slot wherever it starts on a source that repeats one draw.
Source: `internal/shardmap/sample.go` `sampleSlot`
Kind: L -/
theorem Table.rejectSlot_constant (tries : ℕ) {hit : Option ℕ} {rand' : Tape UInt64}
    (h : t.rejectSlot tries rand = .ok (hit, rand')) :
    ∃ rand'', t.rejectSlot tries rand₁ = .ok (hit, rand'') ∧ rand'.read = (fun _ => c) ∧
      rand''.read = fun _ => c := by
  induction tries generalizing rand rand₁ with
  | zero =>
      cases h
      exact ⟨rand₁, rfl, hc, hc₁⟩
  | succ tries ih =>
      unfold Table.rejectSlot at h ⊢
      rw [head_of_constant hc] at h
      rw [head_of_constant hc₁]
      obtain ⟨s, hs, h⟩ := bind_eq_ok_iff.mp h
      simp only [hs, ok_bind]
      split_ifs at h ⊢ with hocc
      · cases h
        exact ⟨_, rfl, hc, hc₁⟩
      · exact @ih rand.tail rand₁.tail hc hc₁ h

/-- An attempt lands on the same entry wherever it starts on such a source.
Source: `internal/shardmap/sample.go` `Sample`
Kind: L -/
theorem Map.attempt_constant {fuel : ℕ} {a : Attempt K V} {rand' : Tape UInt64}
    (h : m.attempt fuel rand = .ok (a, rand')) :
    ∃ rand'', m.attempt fuel rand₁ = .ok (a, rand'') := by
  unfold Map.attempt at h ⊢
  rw [head_of_constant hc] at h
  rw [head_of_constant hc₁]
  obtain ⟨t, ht, h⟩ := bind_eq_ok_iff.mp h
  obtain ⟨⟨e, rand₂⟩, hshard, h⟩ := bind_eq_ok_iff.mp h
  cases h
  unfold sampleShard at hshard ⊢
  simp only [ht, ok_bind]
  split_ifs at hshard ⊢ with hcount
  · cases hshard
    exact ⟨_, rfl⟩
  · obtain ⟨⟨i, rand₃⟩, hslot, hshard⟩ := bind_eq_ok_iff.mp hshard
    obtain ⟨s, hs, hshard⟩ := bind_eq_ok_iff.mp hshard
    cases hshard
    unfold Table.sampleSlot at hslot ⊢
    obtain ⟨⟨hit, rand₄⟩, hreject, hslot⟩ := bind_eq_ok_iff.mp hslot
    obtain ⟨rand₅, hreject', hc₄, hc₅⟩ :=
      Table.rejectSlot_constant (show rand.tail.read = _ from hc)
        (show rand₁.tail.read = _ from hc₁) _ hreject
    simp only [hreject', ok_bind]
    cases hit with
    | some j =>
        cases hslot
        simp only [pure_bind, hs, ok_bind]
        exact ⟨_, rfl⟩
    | none =>
        obtain ⟨j, hscan, hslot⟩ := bind_eq_ok_iff.mp hslot
        cases hslot
        rw [head_of_constant hc₄] at hscan
        simp only [head_of_constant hc₅, hscan, ok_bind, pure_bind, hs]
        exact ⟨_, rfl⟩

end constant

/-! ### Soundness -/

/-- The attempt drew a shard that holds entries.
Source: `internal/shardmap/sample.go` `Sample`
Kind: D -/
def Attempt.Fruitful (m : Map S K V) (a : Attempt K V) : Prop :=
  ∃ t, m.shards[a.shard]? = some t ∧ 0 < t.count

/-- An attempt returns, draws a shard of the map, and lands on a stored entry if the shard has any.
Source: `internal/shardmap/sample.go` `Sample`
Kind: P -/
theorem Map.Represents.attempt_returns (h : m.Represents f) {c fuel : ℕ} (hc : m.Within c)
    (hfuel : c ≤ fuel) (rand : Tape UInt64) :
    Returns (m.attempt fuel rand) fun r => r.1.shard < m.shards.length ∧
      (∀ e, r.1.landed = some e → f.lookup e.1 = some e.2) ∧
      (r.1.Fruitful m → r.1.landed ≠ none) := by
  obtain ⟨t, hidx, htm⟩ := h.sound.drawn_shard rand.head
  unfold Map.attempt
  simp only [hidx, ok_bind]
  refine ((h.sound.tables t htm).sampleShard_returns ((hc t htm).trans hfuel) rand.tail).bind ?_
  rintro ⟨e, rand'⟩ ⟨hnone, hsome⟩
  have hget := index_eq_ok_iff.mp hidx
  refine ⟨_, rfl, (List.getElem?_eq_some_iff.mp hget).1, ?_, ?_⟩
  · intro e' he'
    rw [← mem_pairs, ← h.contents_eq]
    exact mem_sum_contents.mpr ⟨t, htm, hsome e' he'⟩
  · rintro ⟨t', ht', hpos⟩ hempty
    rw [hget] at ht'
    cases ht'
    have hzero := hnone.mp hempty
    omega

/-- Collecting an attempt keeps what was drawn stored and distinct.
Source: `internal/shardmap/sample.go` `Sample`
Kind: L -/
theorem Drawn.collect {n : ℤ} {out : List (K × V)} (h : Drawn f n out) {a : Attempt K V}
    (ha : ∀ e, a.landed = some e → f.lookup e.1 = some e.2) (hlen : (out.length : ℤ) < n) :
    Drawn f n (a.collect out) := by
  unfold Attempt.collect
  cases hl : a.landed with
  | none => exact h
  | some e =>
      simp only
      split_ifs with hdup
      · exact h
      · exact h.snoc (ha e hl) hdup hlen

/-- Collecting loses nothing, and an attempt that landed leaves something.
Source: `internal/shardmap/sample.go` `Sample`
Kind: L -/
theorem Attempt.collect_ne_nil {a : Attempt K V} {out : List (K × V)}
    (h : out ≠ [] ∨ a.landed ≠ none) : a.collect out ≠ [] := by
  unfold Attempt.collect
  cases hl : a.landed with
  | none => exact h.resolve_right (by simp [hl])
  | some e =>
      simp only
      split_ifs with hdup
      · rintro rfl
        simp at hdup
      · simp

/-- The draw loop, with the attempts it made.
Source: `internal/shardmap/sample.go` `Sample`
Kind: L -/
theorem Map.Represents.sampleLoopTraced (h : m.Represents f) {c fuel : ℕ} (hc : m.Within c)
    (hfuel : c ≤ fuel) (n : ℤ) (budget : ℕ) :
    ∀ (out : List (K × V)) (rand : Tape UInt64), Drawn f n out →
      Returns (m.sampleLoopTraced fuel n budget out rand) fun r =>
        Drawn f n r.1 ∧ r.2.1.length ≤ budget ∧ (∀ a ∈ r.2.1, a.shard < m.shards.length) ∧
        ((out ≠ [] ∨ ∃ a ∈ r.2.1, a.Fruitful m) → r.1 ≠ []) := by
  induction budget with
  | zero =>
      intro out rand hout
      exact ⟨_, rfl, hout, le_rfl, by simp, by simp⟩
  | succ budget ih =>
      intro out rand hout
      unfold Map.sampleLoopTraced
      split_ifs with hlen
      · refine (h.attempt_returns hc hfuel rand).bind ?_
        rintro ⟨a, rand'⟩ ⟨hshard, hlanded, hfruit⟩
        refine (ih (a.collect out) rand' (hout.collect hlanded hlen)).bind ?_
        rintro ⟨out', made, rand''⟩ ⟨hout', hmade, hin, hne⟩
        refine ⟨_, rfl, hout', by simpa using hmade, ?_, ?_⟩
        · intro b hb
          rcases List.mem_cons.mp hb with rfl | hb
          · exact hshard
          · exact hin b hb
        · rintro (hold | ⟨b, hb, hbf⟩)
          · exact hne (Or.inl (Attempt.collect_ne_nil (Or.inl hold)))
          · rcases List.mem_cons.mp hb with rfl | hb
            · exact hne (Or.inl (Attempt.collect_ne_nil (Or.inr (hfruit hbf))))
            · exact hne (Or.inr ⟨b, hb, hbf⟩)
      · exact ⟨_, rfl, hout, Nat.zero_le _, by simp, by simp⟩

/-- `Sample`, with the attempts it made.
Source: `internal/shardmap/sample.go` `Sample`
Kind: P -/
theorem Map.Represents.sampleTraced (h : m.Represents f) {c fuel : ℕ} (hc : m.Within c)
    (hfuel : c ≤ fuel) (n : ℤ) (rand : Tape UInt64) :
    Returns (m.sampleTraced fuel n rand) fun r =>
      Drawn f n r.1 ∧ (r.2.1.length : ℤ) ≤ max 0 (8 * n + 16) ∧
      (∀ a ∈ r.2.1, a.shard < m.shards.length) ∧ ((∃ a ∈ r.2.1, a.Fruitful m) → r.1 ≠ []) := by
  have hnil : Drawn f n [] := ⟨by simp, List.nodup_nil, Nat.zero_le _⟩
  unfold Map.sampleTraced
  split_ifs with hn
  · exact ⟨_, rfl, hnil, by simp, by simp, by simp⟩
  · refine (h.sampleLoopTraced hc hfuel n _ [] rand hnil).mono ?_
    rintro r ⟨hdrawn, hlen, hin, hne⟩
    refine ⟨hdrawn, ?_, hin, fun hf => hne (Or.inr hf)⟩
    unfold sampleDrawFactor sampleDrawFloor at hlen
    omega

/-- `Sample` returns, with stored entries under distinct keys.
Source: `internal/shardmap/sample.go` `Sample`
Kind: L -/
theorem Map.Represents.sample_returns (h : m.Represents f) {c fuel : ℕ} (hc : m.Within c)
    (hfuel : c ≤ fuel) (n : ℤ) (rand : Tape UInt64) :
    Returns (m.sample fuel n rand) fun r => Drawn f n r.1 := by
  obtain ⟨r, hr, hdrawn, -⟩ := h.sampleTraced hc hfuel n rand
  rw [sample_eq_traced, hr]
  exact ⟨_, rfl, hdrawn⟩

/-- What `Sample` returned, against the map.
Source: `internal/shardmap/sample_test.go` `TestSampleReturnsDistinctLiveEntries`
Kind: D -/
structure SoundSample (fuel : ℕ) (m : Map S K V) (n : ℤ) (rand : Tape UInt64)
    (out : List (K × V)) (made : List (Attempt K V)) (rand' : Tape UInt64) : Prop where
  returned : m.sample fuel n rand = .ok (out, rand')
  traced : m.sampleTraced fuel n rand = .ok (out, made, rand')
  draws_le : (made.length : ℤ) ≤ max 0 (8 * n + 16)
  in_range : ∀ a ∈ made, a.shard < m.shards.length
  stored : ∀ e ∈ out, m.get fuel e.1 = .ok (some e.2)
  distinct : (out.map Prod.fst).Nodup
  length_le : (out.length : ℤ) ≤ max n 0
  nonempty : 0 < n → (∃ a ∈ made, a.Fruitful m) → out ≠ []

/-- **`Sample` is sound.** Of every reachable map, for every `n` and every stream of draws, `Sample`
returns after at most `8n + 16` shard draws, every index in range, with stored entries under
distinct keys, at most `n` of them, and with one at least if any shard it drew holds an entry.
Source: `internal/shardmap/sample.go` `Sample`
Kind: P
Fidelity: exact -/
theorem sample_sound (host : Host S) (hasher : S → K → UInt64) (opts : List (Opt S))
    (hhost : host.gomaxprocs * 4 ≤ 2 ^ 62)
    (hopts : ∀ n, Opt.withShards n ∈ opts → n ≤ 2 ^ 62) (clock : ℕ) (ops : List (Op K V)) :
    Ensures ((Map.new host hasher opts : Map S K V).run clock ops) fun r =>
      ∃ fuel₀, ∀ fuel, fuel₀ ≤ fuel → ∀ (n : ℤ) (rand : Tape UInt64),
        ∃ out made rand', SoundSample fuel r.2 n rand out made rand' := by
  refine ((represents_new host hasher opts hhost hopts).run clock ops).mono ?_
  rintro ⟨outs, m⟩ ⟨-, h⟩
  obtain ⟨c, hc⟩ := m.exists_within
  refine ⟨c + 256, fun fuel hfuel n rand => ?_⟩
  obtain ⟨⟨out, made, rand'⟩, hr, hdrawn, hlen, hin, hne⟩ :=
    h.sampleTraced hc ((Nat.le_add_right c 256).trans hfuel) n rand
  refine ⟨out, made, rand', ?_, hr, hlen, hin, ?_, hdrawn.distinct, ?_, fun _ => hne⟩
  · show m.sample fuel n rand = _
    rw [sample_eq_traced, hr]
    rfl
  · intro e he
    show m.get fuel e.1 = _
    rw [h.get_returns (by omega) e.1, hdrawn.stored e he]
  · have hle : out.length ≤ n.toNat := hdrawn.length_le
    omega

/-- Two of three entries.
Source: `internal/shardmap/sample_test.go` `TestSampleReturnsDistinctLiveEntries`
Kind: C -/
theorem sample_sound_pair :
    ∃ r, (Map.new ⟨1, ()⟩ (fun _ k => UInt64.ofNat k) [.withShards 1] : Map Unit ℕ ℕ).run 9
        [.set 1 10, .set 2 20, .set 3 30] = .ok r ∧
      ∃ fuel₀, ∀ fuel, fuel₀ ≤ fuel → ∀ (n : ℤ) (rand : Tape UInt64),
        ∃ out made rand', SoundSample fuel r.2 n rand out made rand' := by
  have hrun : ∃ r, (Map.new ⟨1, ()⟩ (fun _ k => UInt64.ofNat k) [.withShards 1] :
      Map Unit ℕ ℕ).run 9 [.set 1 10, .set 2 20, .set 3 30] = .ok r := ⟨_, rfl⟩
  obtain ⟨r, hr⟩ := hrun
  exact ⟨r, hr, (sample_sound ⟨1, ()⟩ (fun _ k => UInt64.ofNat k) [.withShards 1] (by decide)
    (by simp) 9 [.set 1 10, .set 2 20, .set 3 30]).of_ok hr⟩

/-! ### Completeness -/

/-- The keys some attempts landed on.
Source: `internal/shardmap/sample.go` `Sample`
Kind: D -/
def namedKeys (made : List (Attempt K V)) : Finset K :=
  (made.filterMap fun a => a.landed.map Prod.fst).toFinset

/-- The keys collected and still to be named do not change when an attempt is collected.
Source: `internal/shardmap/sample.go` `Sample`
Kind: L -/
theorem keys_collect (a : Attempt K V) (out : List (K × V)) (rest : List (Attempt K V)) :
    ((a.collect out).map Prod.fst).toFinset ∪ namedKeys rest =
      (out.map Prod.fst).toFinset ∪ namedKeys (a :: rest) := by
  unfold Attempt.collect namedKeys
  rw [List.filterMap_cons]
  cases a.landed with
  | none => rfl
  | some e =>
      simp only [Option.map_some, List.toFinset_cons]
      split_ifs with hdup
      · rw [Finset.union_insert, Finset.insert_eq_of_mem]
        exact Finset.mem_union_left _ (List.mem_toFinset.mpr hdup)
      · rw [List.map_append, List.toFinset_append, Finset.union_assoc]
        rfl

/-- The first attempt names what it lands on.
Source: `internal/shardmap/sample.go` `Sample`
Kind: L -/
theorem Map.mem_namedKeys_of_attempt {fuel budget : ℕ} {rand rand' : Tape UInt64} {i : ℕ}
    {e : K × V} {made : List (Attempt K V)} (ha : m.attempt fuel rand = .ok (⟨i, some e⟩, rand'))
    (hmade : m.attempts fuel (budget + 1) rand = .ok made) : e.1 ∈ namedKeys made := by
  unfold Map.attempts at hmade
  simp only [ha, ok_bind] at hmade
  obtain ⟨rest, -, hrest⟩ := bind_eq_ok_iff.mp hmade
  cases hrest
  rw [namedKeys, List.mem_toFinset]
  exact List.mem_cons_self

/-- A draw loop that comes short of `n` made every attempt of its budget and collected every key
they name.
Source: `internal/shardmap/sample.go` `Sample`
Kind: L -/
theorem Map.sampleLoop_collects {fuel : ℕ} {n : ℤ} (budget : ℕ) {out : List (K × V)}
    {rand : Tape UInt64} {r : List (K × V) × Tape UInt64}
    (h : m.sampleLoop fuel n budget out rand = .ok r) (hshort : (r.1.length : ℤ) < n) :
    ∃ made, m.attempts fuel budget rand = .ok made ∧
      (r.1.map Prod.fst).toFinset = (out.map Prod.fst).toFinset ∪ namedKeys made := by
  induction budget generalizing out rand with
  | zero =>
      cases h
      exact ⟨[], rfl, (Finset.union_empty _).symm⟩
  | succ budget ih =>
      rw [sampleLoop_succ] at h
      split_ifs at h with hlen
      · obtain ⟨⟨a, rand'⟩, ha, h⟩ := bind_eq_ok_iff.mp h
        obtain ⟨rest, hrest, hkeys⟩ := ih h
        refine ⟨a :: rest, ?_, by rw [hkeys, keys_collect]⟩
        unfold Map.attempts
        simp only [ha, ok_bind, hrest]
        rfl
      · cases h
        exact absurd hshort hlen

/-- `Sample` that comes short of `n` found exactly the keys its attempts name.
Source: `internal/shardmap/sample.go` `Sample`
Kind: P -/
theorem Map.sample_collects {fuel : ℕ} {n : ℤ} (hn : 0 < n) {rand rand' : Tape UInt64}
    {out : List (K × V)} (h : m.sample fuel n rand = .ok (out, rand'))
    (hshort : (out.length : ℤ) < n) :
    ∃ made, m.attempts fuel (sampleBudget n) rand = .ok made ∧
      (out.map Prod.fst).toFinset = namedKeys made := by
  rw [Map.sample, if_neg (not_le.mpr hn)] at h
  obtain ⟨made, hmade, hkeys⟩ := Map.sampleLoop_collects _ h hshort
  exact ⟨made, hmade, by simpa using hkeys⟩

/-- Every number of attempts can be made.
Source: `internal/shardmap/sample.go` `Sample`
Kind: L -/
theorem Map.Represents.attempts_returns (h : m.Represents f) {c fuel : ℕ} (hc : m.Within c)
    (hfuel : c ≤ fuel) (k : ℕ) (rand : Tape UInt64) :
    ∃ made, m.attempts fuel k rand = .ok made := by
  induction k generalizing rand with
  | zero => exact ⟨_, rfl⟩
  | succ k ih =>
      obtain ⟨⟨a, rand'⟩, ha, -⟩ := h.attempt_returns hc hfuel rand
      obtain ⟨rest, hrest⟩ := ih rand'
      refine ⟨a :: rest, ?_⟩
      unfold Map.attempts
      simp only [ha, ok_bind, hrest]
      rfl

/-- The loop comes short of `n` exactly when what it has and what the attempts of its budget name
is short of `n`.
Source: `internal/shardmap/sample.go` `Sample`
Kind: P -/
theorem Map.Represents.sampleLoop_short_iff (h : m.Represents f) {c fuel : ℕ} (hc : m.Within c)
    (hfuel : c ≤ fuel) (n : ℤ) (budget : ℕ) :
    ∀ (out : List (K × V)) (rand : Tape UInt64), Drawn f n out →
      ∃ r made, m.sampleLoop fuel n budget out rand = .ok r ∧
        m.attempts fuel budget rand = .ok made ∧
        ((r.1.length : ℤ) < n ↔
          (((out.map Prod.fst).toFinset ∪ namedKeys made).card : ℤ) < n) := by
  induction budget with
  | zero =>
      intro out rand hout
      refine ⟨_, [], rfl, rfl, ?_⟩
      have hcard := List.toFinset_card_of_nodup hout.distinct
      rw [List.length_map] at hcard
      simp [namedKeys, hcard]
  | succ budget ih =>
      intro out rand hout
      rw [sampleLoop_succ]
      split_ifs with hlen
      · obtain ⟨⟨a, rand'⟩, ha, -, hlanded, -⟩ := h.attempt_returns hc hfuel rand
        obtain ⟨r, rest, hr, hrest, hiff⟩ := ih (a.collect out) rand' (hout.collect hlanded hlen)
        refine ⟨r, a :: rest, ?_, ?_, ?_⟩
        · rw [ha]
          exact hr
        · unfold Map.attempts
          simp only [ha, ok_bind, hrest]
          rfl
        · rw [hiff, keys_collect]
      · -- The loop has what it wants and leaves the rest of its budget.
        obtain ⟨made, hmade⟩ := h.attempts_returns hc hfuel (budget + 1) rand
        refine ⟨_, made, rfl, hmade, ?_⟩
        have hcard := List.toFinset_card_of_nodup hout.distinct
        rw [List.length_map] at hcard
        have hle : (out.map Prod.fst).toFinset.card ≤
            ((out.map Prod.fst).toFinset ∪ namedKeys made).card :=
          Finset.card_le_card Finset.subset_union_left
        constructor
        · exact fun hlt => absurd hlt hlen
        · intro hlt
          omega

/-- **When `Sample` is complete.** Of every reachable map, for every `n > 0` and every random
source: a result of fewer than `n` entries means that the map holds fewer, if and only if the map
does hold fewer or the first `8n + 16` attempts the source describes name at least `n` keys.
Source: `internal/shardmap/sample.go` `Sample`
Kind: P
Fidelity: exact -/
theorem sample_complete_iff (host : Host S) (hasher : S → K → UInt64) (opts : List (Opt S))
    (hhost : host.gomaxprocs * 4 ≤ 2 ^ 62)
    (hopts : ∀ n, Opt.withShards n ∈ opts → n ≤ 2 ^ 62) (clock : ℕ) (ops : List (Op K V)) :
    Ensures ((Map.new host hasher opts : Map S K V).run clock ops) fun r =>
      ∃ fuel₀, ∀ fuel, fuel₀ ≤ fuel → ∀ n : ℤ, 0 < n → ∀ rand : Tape UInt64,
        ∃ out rand' made, r.2.sample fuel n rand = .ok (out, rand') ∧
          r.2.attempts fuel (8 * n + 16).toNat rand = .ok made ∧
          (((out.length : ℤ) < n → (r.2.len : ℤ) < n) ↔
            ((r.2.len : ℤ) < n ∨ n ≤ (namedKeys made).card)) := by
  refine ((represents_new host hasher opts hhost hopts).run clock ops).mono ?_
  rintro ⟨outs, m⟩ ⟨-, h⟩
  obtain ⟨c, hc⟩ := m.exists_within
  refine ⟨c, fun fuel hfuel n hn rand => ?_⟩
  have hnil : Drawn (Reference.run ∅ ops).2 n [] := ⟨by simp, List.nodup_nil, Nat.zero_le _⟩
  have hbudget : n * sampleDrawFactor + sampleDrawFloor = 8 * n + 16 := by
    unfold sampleDrawFactor sampleDrawFloor
    omega
  obtain ⟨⟨out, rand'⟩, made, hr, hmade, hiff⟩ :=
    h.sampleLoop_short_iff hc hfuel n (8 * n + 16).toNat [] rand hnil
  refine ⟨out, rand', made, ?_, hmade, ?_⟩
  · show m.sample fuel n rand = _
    rw [Map.sample, if_neg (by omega), hbudget]
    exact hr
  · simp only [List.map_nil, List.toFinset_nil, Finset.empty_union] at hiff
    rw [hiff, ← not_lt]
    tauto

/-- Two shards, an entry in the first, and draws that always name the second: `Sample` of one comes
back empty.
Source: `internal/shardmap/sample.go` `Sample`
Kind: C -/
theorem sample_incomplete :
    ∃ r rand', (Map.new ⟨1, ()⟩ (fun _ _ => 0) [.withShards 2] : Map Unit ℕ ℕ).run 9
        [.set 1 10] = .ok r ∧ r.2.len = 1 ∧
      r.2.sample 9 1 ⟨fun _ => 1, 0⟩ = .ok ([], rand') := ⟨_, _, rfl, rfl, rfl⟩

/-- Three entries in two shards: a source that wanders over shards and slots collects all three; one
that always names the first shard collects its single entry, and the attempts name one key only.
Source: `internal/shardmap/sample_test.go` `TestSampleReturnsDistinctLiveEntries`
Kind: C -/
theorem sample_complete_iff_spread :
    ∃ r, (Map.new ⟨1, ()⟩ (fun _ k => UInt64.ofNat k <<< 63) [.withShards 2] : Map Unit ℕ ℕ).run 9
        [.set 1 10, .set 2 20, .set 3 30] = .ok r ∧ r.2.len = 3 ∧
      Returns (r.2.sample 9 3 ⟨fun i => UInt64.ofNat (i / 2), 0⟩) (fun x => x.1.length = 3) ∧
      Returns (r.2.sample 9 3 ⟨fun _ => 0, 0⟩) (fun x => x.1.length = 1) ∧
      Returns (r.2.attempts 9 40 ⟨fun _ => 0, 0⟩) (fun made => (namedKeys made).card = 1) ∧
      ∃ fuel₀, ∀ fuel, fuel₀ ≤ fuel → ∀ n : ℤ, 0 < n →
      ∀ rand : Tape UInt64, ∃ out rand' made, r.2.sample fuel n rand = .ok (out, rand') ∧
        r.2.attempts fuel (8 * n + 16).toNat rand = .ok made ∧
        (((out.length : ℤ) < n → (r.2.len : ℤ) < n) ↔
          ((r.2.len : ℤ) < n ∨ n ≤ (namedKeys made).card)) := by
  have hrun : Returns ((Map.new ⟨1, ()⟩ (fun _ k => UInt64.ofNat k <<< 63) [.withShards 2] :
      Map Unit ℕ ℕ).run 9 [.set 1 10, .set 2 20, .set 3 30]) fun r => r.2.len = 3 ∧
        Returns (r.2.sample 9 3 ⟨fun i => UInt64.ofNat (i / 2), 0⟩) (fun x => x.1.length = 3) ∧
        Returns (r.2.sample 9 3 ⟨fun _ => 0, 0⟩) (fun x => x.1.length = 1) ∧
        Returns (r.2.attempts 9 40 ⟨fun _ => 0, 0⟩) fun made => (namedKeys made).card = 1 := by
    decide +kernel
  obtain ⟨r, hr, hlen, hall, hone, hnamed⟩ := hrun
  exact ⟨r, hr, hlen, hall, hone, hnamed,
    (sample_complete_iff ⟨1, ()⟩ (fun _ k => UInt64.ofNat k <<< 63) [.withShards 2] (by decide)
      (by simp) 9 [.set 1 10, .set 2 20, .set 3 30]).of_ok hr⟩

end CacheMoney.Shardmap
