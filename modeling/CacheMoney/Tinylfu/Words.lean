import CacheMoney.Found.Stepwise
import CacheMoney.Tinylfu.Sketch

/-!
# The sketch, word by word

The rows of a sketch are slices of atomic words. `increment`, `halve` and `estimate` are programs
whose steps are the loads and stores of single words; the drainer runs the first two, and an
`Estimate` may load a word between any two of its steps.

* `Words.increment`, `Words.halve`, `Words.estimate`: the methods as programs over `Access`.
* `Ages e m m'`: the counters of `m'` are those of `m`, grown or halved, with at most `e` halvings of
  each word.
* `Sketch.Call.steps`: each step of a call ages the rows, a halving halves every word once, and the
  call as a whole is the call of the model `Sketch`.
-/

namespace CacheMoney.Tinylfu

open CacheMoney.Found

/-! ### Accesses -/

/-- An access to a word of a row.
Source: `internal/tinylfu/sketch.go` `sketch`
Kind: D -/
inductive Access (n : ℕ) where
  | load (row : Fin depth) (word : Fin n)
  | store (row : Fin depth) (word : Fin n) (val : UInt64)

/-- Source: none
Kind: D -/
@[reducible] def Access.Answer {n : ℕ} : Access n → Type
  | .load _ _ => UInt64
  | .store _ _ _ => PUnit

/-- The words of all rows.
Source: `internal/tinylfu/sketch.go` `sketch`
Kind: D -/
abbrev Rows (n : ℕ) : Type := Fin depth → Vector UInt64 n

/-- Source: none
Kind: D -/
def access {n : ℕ} : (e : Access n) → Rows n → Outcome (e.Answer × Rows n)
  | .load row word, m => .ok ((m row).get word, m)
  | .store row word val, m => .ok (⟨⟩, Function.update m row ((m row).set word val))

/-- The number of words in a row.
Source: `internal/tinylfu/sketch.go` `newSketch`
Kind: D -/
abbrev Sketch.words (s : Sketch) : ℕ := s.wd / nibblesPerWord

/-- The sketch with other contents.
Source: none
Kind: D -/
abbrev Sketch.holding (s : Sketch) (m : Rows s.words) : Sketch := { s with rows := m }

/-- Source: none
Kind: D -/
abbrev Words (s : Sketch) (α : Type) : Type := Prog (Access s.words) Access.Answer α

/-! ### The methods -/

namespace Words

/-- The word of a counter.
Source: `internal/tinylfu/sketch.go` `sketch.read`
Kind: D -/
def wordOf (s : Sketch) (idx : s.Index) : Fin s.words := ⟨(idx.1 >>> 4).toNat, s.word_lt idx⟩

/-- Source: `internal/tinylfu/sketch.go` `sketch.read`
Kind: D -/
def read (s : Sketch) (row : Fin depth) (idx : s.Index) : Words s UInt8 := do
  let word ← Prog.perform (Access.load row (wordOf s idx))
  let shift := (idx.1 &&& 15) * 4
  pure ((word >>> shift) &&& 15).toUInt8

/-- Source: `internal/tinylfu/sketch.go` `sketch.raise`
Kind: D -/
def raise (s : Sketch) (row : Fin depth) (idx : s.Index) : Words s PUnit := do
  let shift := (idx.1 &&& 15) * 4
  let w ← Prog.perform (Access.load row (wordOf s idx))
  Prog.perform (Access.store row (wordOf s idx) (w + ((1 : UInt64) <<< shift)))

/-- Source: `internal/tinylfu/sketch.go` `sketch.increment`
Kind: D -/
def increment (s : Sketch) (fp : UInt64) : Words s PUnit := do
  let r ← (List.finRange depth).foldlM (fun r i => do
    let v ← read s i (s.counterIndex fp i)
    pure (Function.update r.1 i v, if v < r.2 then v else r.2))
    ((fun _ => 0 : Fin depth → UInt8), nibbleMax)
  if r.2 ≥ nibbleMax then
    pure ⟨⟩
  else
    (List.finRange depth).forM fun i =>
      if r.1 i = r.2 then raise s i (s.counterIndex fp i) else pure ⟨⟩

/-- Source: `internal/tinylfu/sketch.go` `sketch.estimate`
Kind: D -/
def estimate (s : Sketch) (fp : UInt64) : Words s UInt8 :=
  (List.finRange depth).foldlM (fun lo i => do
    let v ← read s i (s.counterIndex fp i)
    pure (if v < lo then v else lo)) nibbleMax

/-- Source: `internal/tinylfu/sketch.go` `sketch.halve`
Kind: D -/
def halve (s : Sketch) : Words s PUnit :=
  (List.finRange depth).forM fun i => (List.finRange s.words).forM fun j => do
    let w ← Prog.perform (Access.load i j)
    Prog.perform (Access.store i j ((w >>> 1) &&& halfNibbles))

end Words

/-- What the drainer runs.
Source: `internal/tinylfu/policy.go` `Policy.drainOnce`
Kind: D -/
def Sketch.Call.prog (s : Sketch) : Sketch.Call → Words s PUnit
  | .increment fp => Words.increment s fp
  | .halve => Words.halve s

/-- How often the call halves each word.
Source: `internal/tinylfu/sketch.go` `sketch.halve`
Kind: D -/
def Sketch.Call.halvings : Sketch.Call → ℕ
  | .increment _ => 0
  | .halve => 1

/-! ### Counters that grow and are halved -/

/-- How often each word may be halved.
Source: none
Kind: D -/
abbrev Quota : Type := Fin depth → ℕ → ℕ

/-- From `m` to `m'` a counter has grown, apart from at most `e` halvings of its word. With one added
to a counter, a halving at most halves it.
Source: none
Kind: D -/
def Ages {n : ℕ} (e : Quota) (m m' : Rows n) : Prop :=
  ∀ i j, packed (m i) j + 1 ≤ 2 ^ e i (j / 16) * (packed (m' i) j + 1)

/-- The rows age, and the halvings are taken from the quota.
Source: none
Kind: D -/
def Spends {n : ℕ} (b : Quota) (m m' : Rows n) (b' : Quota) : Prop :=
  ∃ e, (∀ i w, b i w = e i w + b' i w) ∧ Ages e m m'

section ages

variable {n : ℕ} {m m' m'' : Rows n} {e e' b b' b'' : Quota}

/-- Rows have not aged against themselves.
Source: none
Kind: L -/
theorem Ages.refl (m : Rows n) : Ages (fun _ _ => 0) m m := by
  intro i j
  rw [Nat.pow_zero, Nat.one_mul]

/-- Ages add up.
Source: none
Kind: L -/
theorem Ages.trans (h : Ages e m m') (h' : Ages e' m' m'') :
    Ages (fun i w => e i w + e' i w) m m'' := by
  intro i j
  calc packed (m i) j + 1 ≤ 2 ^ e i (j / 16) * (packed (m' i) j + 1) := h i j
    _ ≤ 2 ^ e i (j / 16) * (2 ^ e' i (j / 16) * (packed (m'' i) j + 1)) :=
        Nat.mul_le_mul_left _ (h' i j)
    _ = 2 ^ (e i (j / 16) + e' i (j / 16)) * (packed (m'' i) j + 1) := by
        rw [Nat.pow_add, Nat.mul_assoc]

/-- Nothing is spent where nothing happens.
Source: none
Kind: L -/
theorem Spends.refl (b : Quota) (m : Rows n) : Spends b m m b :=
  ⟨fun _ _ => 0, fun _ _ => (Nat.zero_add _).symm, .refl m⟩

/-- What is spent twice is spent in sequence.
Source: none
Kind: L -/
theorem Spends.trans (h : Spends b m m' b') (h' : Spends b' m' m'' b'') : Spends b m m'' b'' := by
  obtain ⟨e, hb, hages⟩ := h
  obtain ⟨e', hb', hages'⟩ := h'
  refine ⟨_, ?_, hages.trans hages'⟩
  intro i w
  rw [hb, hb', Nat.add_assoc]

/-- Counters that only grow spend nothing.
Source: none
Kind: L -/
theorem Spends.of_le (h : ∀ i j, packed (m i) j ≤ packed (m' i) j) : Spends b m m' b := by
  refine ⟨fun _ _ => 0, fun _ _ => (Nat.zero_add _).symm, ?_⟩
  intro i j
  rw [Nat.pow_zero, Nat.one_mul]
  exact Nat.succ_le_succ (h i j)

/-- A word after a write to one of them.
Source: none
Kind: L -/
theorem get_set (v : Vector UInt64 n) (word j : Fin n) (val : UInt64) :
    (v.set word val).get j = if j = word then val else v.get j := by
  change (v.set word val)[j.1] = _
  rw [Vector.getElem_set]
  by_cases h : j = word
  · rw [if_pos h, if_pos (congrArg Fin.val h.symm)]
  · rw [if_neg h, if_neg fun hval => h (Fin.ext hval.symm)]
    rfl

/-- A write to one word keeps the counters of the others.
Source: none
Kind: L -/
theorem packed_set_of_ne {v : Vector UInt64 n} {word : Fin n} {val : UInt64} {j : ℕ}
    (h : j / 16 ≠ word) : packed (v.set word val) j = packed v j := by
  unfold packed
  rw [Vector.getElem?_set, if_neg (Ne.symm h)]

/-- Halving a word spends one of its halvings.
Source: `internal/tinylfu/sketch.go` `sketch.halve`
Kind: L -/
theorem Spends.halve {i : Fin depth} {word : Fin n} (hb : 0 < b i word) :
    Spends b m (Function.update m i ((m i).set word (((m i).get word >>> 1) &&& halfNibbles)))
      (fun i' w => if i' = i ∧ w = word then b i' w - 1 else b i' w) := by
  refine ⟨fun i' w => if i' = i ∧ w = word then 1 else 0, ?_, ?_⟩
  · intro i' w
    by_cases hw : i' = i ∧ w = word
    · obtain ⟨rfl, rfl⟩ := hw
      simp only [and_self, if_true]
      omega
    · simp only [if_neg hw, Nat.zero_add]
  · intro i' j
    beta_reduce
    by_cases hi : i' = i
    · subst hi
      rw [Function.update_self]
      by_cases hj : j / 16 = word
      · have hget : (m i')[j / 16]?.getD 0 = (m i').get word := by
          rw [hj, Vector.getElem?_eq_getElem word.2]
          rfl
        have hhalf : packed ((m i').set word (((m i').get word >>> 1) &&& halfNibbles)) j =
            packed (m i') j / 2 := by
          unfold packed
          rw [Vector.getElem?_set, if_pos hj.symm, hget]
          exact nibble_halve _ (Nat.mod_lt _ (by decide))
        rw [hhalf, if_pos ⟨rfl, hj⟩]
        omega
      · rw [packed_set_of_ne hj, if_neg fun h => hj h.2, Nat.pow_zero, Nat.one_mul]
    · rw [Function.update_of_ne hi, if_neg fun h => hi h.1, Nat.pow_zero, Nat.one_mul]

end ages

/-! ### The steps of a call -/

section steps

variable {s : Sketch} {m : Rows s.words} {b : Quota}

/-- Reading a counter word by word gives the counter.
Source: `internal/tinylfu/sketch.go` `sketch.estimate`
Kind: L -/
theorem Words.read_steps {Q : UInt8 → Quota → Rows s.words → Prop} {row : Fin depth}
    {idx : s.Index} (hQ : Q ((s.holding m).read row idx) b m) :
    (Words.read s row idx).Steps access Spends Q b m :=
  ⟨_, m, b, rfl, .refl b m, hQ⟩

/-- Raising a counter word by word raises it, if there is room.
Source: `internal/tinylfu/sketch.go` `sketch.increment`
Kind: L -/
theorem Words.raise_steps {Q : PUnit → Quota → Rows s.words → Prop} {row : Fin depth}
    {fp : UInt64} (hroom : (s.holding m).counter row (s.column row fp) < 15)
    (hQ : Q ⟨⟩ b (Function.update m row ((s.holding m).raise row (s.counterIndex fp row)))) :
    (Words.raise s row (s.counterIndex fp row)).Steps access Spends Q b m := by
  refine ⟨_, m, b, rfl, .refl b m, ⟨⟩, _, b, rfl, ?_, hQ⟩
  apply Spends.of_le
  intro i j
  by_cases hi : i = row
  · subst hi
    rw [Function.update_self]
    have hraise := Sketch.counter_raise (s := s.holding m) hroom j
    exact (Nat.le_add_right ..).trans hraise.ge
  · rw [Function.update_of_ne hi]

/-- The first loop of `increment` collects the counters and their minimum.
Source: `internal/tinylfu/sketch.go` `sketch.increment`
Kind: L -/
theorem scan_eq (x : Fin depth → UInt8) :
    (List.finRange depth).foldl
        (fun r i => (Function.update r.1 i (x i), if x i < r.2 then x i else r.2))
        ((fun _ => 0 : Fin depth → UInt8), nibbleMax) = (x, Sketch.lowest x) := by
  have hloop : ∀ (l : List (Fin depth)) (r : (Fin depth → UInt8) × UInt8),
      l.foldl (fun r i => (Function.update r.1 i (x i), if x i < r.2 then x i else r.2)) r =
        (fun i => if i ∈ l then x i else r.1 i,
          l.foldl (fun lo i => if x i < lo then x i else lo) r.2) := by
    intro l
    induction l with
    | nil =>
        intro r
        simp
    | cons k rest ih =>
        intro r
        rw [List.foldl_cons, ih]
        refine Prod.ext (funext fun i => ?_) rfl
        by_cases hi : i ∈ rest
        · simp [hi]
        · by_cases hk : i = k
          · subst hk
            simp [hi]
          · simp [hi, hk]
  rw [hloop]
  refine Prod.ext (funext fun i => ?_) rfl
  exact if_pos (List.mem_finRange i)

/-- Raising a counter depends on its row only.
Source: `internal/tinylfu/sketch.go` `sketch.increment`
Kind: L -/
theorem Sketch.raise_congr {m' : Rows s.words} {row : Fin depth} (h : m' row = m row)
    (idx : s.Index) : (s.holding m').raise row idx = (s.holding m).raise row idx := by
  unfold Sketch.raise
  simp only [h]

/-- The second loop of `increment`.
Source: `internal/tinylfu/sketch.go` `sketch.increment`
Kind: L -/
theorem Words.raises_steps {fp : UInt64} {val : Fin depth → UInt8} {lo : UInt8}
    (hval : val = fun i => (s.holding m).read i (s.counterIndex fp i))
    (hlo : lo = (s.holding m).estimate fp) (hroom : ¬nibbleMax ≤ lo) :
    ((List.finRange depth).forM fun i =>
      if val i = lo then Words.raise s i (s.counterIndex fp i) else pure ⟨⟩ :
        Words s PUnit).Steps access Spends
      (fun _ _ m' => s.holding m' = (s.holding m).increment fp) b m := by
  -- The rows that are left hold what they held at the scan.
  refine (Prog.Steps.forM (fun rest _ m' => rest.Nodup ∧ ∀ i, m' i =
    if i ∉ rest ∧ val i = lo then (s.holding m).raise i (s.counterIndex fp i) else m i) ?_
    ⟨List.nodup_finRange _, ?_⟩).mono ?_
  · rintro i rest b' m' ⟨hnodup, hrows⟩
    obtain ⟨hi, hrest⟩ := List.nodup_cons.mp hnodup
    have hrow : m' i = m i := by
      rw [hrows, if_neg fun h => h.1 List.mem_cons_self]
    by_cases hmin : val i = lo
    · rw [if_pos hmin]
      apply Words.raise_steps
      · have hread := (s.holding m).toNat_read i (s.counterIndex fp i)
        have hlt := UInt8.lt_iff_toNat_lt.mp (UInt8.not_le.mp hroom)
        rw [← hmin, hval] at hlt
        change packed (m' i) (s.column i fp) < 15
        rw [hrow]
        exact hread.symm.trans_lt hlt
      · refine ⟨hrest, fun i' => ?_⟩
        by_cases hi' : i' = i
        · subst hi'
          rw [Function.update_self, if_pos ⟨hi, hmin⟩, Sketch.raise_congr hrow]
        · rw [Function.update_of_ne hi', hrows]
          simp only [List.mem_cons, hi', false_or]
    · rw [if_neg hmin]
      refine ⟨hrest, fun i' => ?_⟩
      rw [hrows]
      by_cases hi' : i' = i
      · subst hi'
        rw [if_neg fun h => hmin h.2, if_neg fun h => hmin h.2]
      · simp only [List.mem_cons, hi', false_or]
  · intro i
    rw [if_neg fun h => h.1 (List.mem_finRange i)]
  · rintro _ _ m' ⟨-, hrows⟩
    subst hval hlo
    rw [Sketch.increment_of_not_full hroom]
    congr 1
    funext i
    rw [hrows]
    simp only [List.not_mem_nil, not_false_eq_true, true_and]
    rfl

/-- `increment` word by word.
Source: `internal/tinylfu/sketch.go` `sketch.increment`
Kind: L -/
theorem Words.increment_steps (s : Sketch) (m : Rows s.words) (fp : UInt64) (b : Quota) :
    (Words.increment s fp).Steps access Spends
      (fun _ _ m' => s.holding m' = (s.holding m).increment fp) b m := by
  have hscan : ((List.finRange depth).foldlM (fun r i => do
      let v ← Words.read s i (s.counterIndex fp i)
      pure (Function.update r.1 i v, if v < r.2 then v else r.2))
      ((fun _ => 0 : Fin depth → UInt8), nibbleMax) : Words s _).Steps access Spends
      (fun r b' m' => b' = b ∧ m' = m ∧
        r = (fun i => (s.holding m).read i (s.counterIndex fp i), (s.holding m).estimate fp)) b m := by
    refine (Prog.Steps.foldlM (fun rest r b' m' => b' = b ∧ m' = m ∧
      rest.foldl (fun r i => (Function.update r.1 i ((s.holding m).read i (s.counterIndex fp i)),
        if (s.holding m).read i (s.counterIndex fp i) < r.2
        then (s.holding m).read i (s.counterIndex fp i) else r.2)) r =
      (fun i => (s.holding m).read i (s.counterIndex fp i), (s.holding m).estimate fp))
      ?_ ⟨rfl, rfl, scan_eq _⟩).mono fun r b' m' h => h
    rintro i rest r b' m' ⟨rfl, rfl, hrest⟩
    rw [Prog.steps_bind_iff]
    exact Words.read_steps ⟨rfl, rfl, hrest⟩
  unfold Words.increment
  rw [Prog.steps_bind_iff]
  refine hscan.mono ?_
  rintro r b' m' ⟨rfl, rfl, hr⟩
  have hlo : r.2 = (s.holding m').estimate fp := congrArg Prod.snd hr
  by_cases hfull : nibbleMax ≤ r.2
  · rw [if_pos hfull]
    rw [hlo] at hfull
    exact (Sketch.increment_of_full hfull).symm
  · rw [if_neg hfull]
    exact Words.raises_steps (congrArg Prod.fst hr) hlo hfull

/-- The inner loop of `halve`.
Source: `internal/tinylfu/sketch.go` `sketch.halve`
Kind: L -/
theorem Words.halveRow_steps {i : Fin depth} (hb : ∀ w, b i w = 1) :
    ((List.finRange s.words).forM fun j => do
      let w ← Prog.perform (Access.load i j)
      Prog.perform (Access.store i j ((w >>> 1) &&& halfNibbles)) : Words s PUnit).Steps access
      Spends (fun _ b' m' =>
        (m' i = (m i).map fun word : UInt64 => (word >>> 1) &&& halfNibbles) ∧
        ∀ i', i' ≠ i → m' i' = m i' ∧ b' i' = b i') b m := by
  refine (Prog.Steps.forM (fun rest b' m' => rest.Nodup ∧
    (∀ j : Fin s.words, (m' i).get j =
      if j ∈ rest then (m i).get j else ((m i).get j >>> 1) &&& halfNibbles) ∧
    (∀ j ∈ rest, b' i j = 1) ∧ ∀ i', i' ≠ i → m' i' = m i' ∧ b' i' = b i') ?_
    ⟨List.nodup_finRange _, ?_, fun j _ => hb j, fun _ _ => ⟨rfl, rfl⟩⟩).mono ?_
  · rintro j rest b' m' ⟨hnodup, hrow, hleft, hother⟩
    obtain ⟨hj, hrest⟩ := List.nodup_cons.mp hnodup
    refine ⟨_, m', b', rfl, .refl b' m', ⟨⟩, _, _, rfl, Spends.halve ?_, hrest, ?_, ?_, ?_⟩
    · rw [hleft j List.mem_cons_self]
      exact Nat.one_pos
    · intro j'
      rw [Function.update_self, get_set]
      by_cases hj' : j' = j
      · subst hj'
        rw [if_pos rfl, if_neg hj, hrow, if_pos List.mem_cons_self]
      · rw [if_neg hj', hrow]
        simp only [List.mem_cons, hj', false_or]
    · intro j' hj'
      have hne : j' ≠ j := fun h => hj (h ▸ hj')
      beta_reduce
      rw [if_neg fun h => hne (Fin.ext h.2)]
      exact hleft j' (List.mem_cons_of_mem _ hj')
    · intro i' hi'
      refine ⟨(Function.update_of_ne hi' ..).trans (hother i' hi').1, ?_⟩
      funext w
      beta_reduce
      rw [if_neg fun h => hi' h.1, (hother i' hi').2]
  · intro j
    rw [if_pos (List.mem_finRange j)]
  · rintro _ b' m' ⟨-, hrow, -, hother⟩
    refine ⟨?_, hother⟩
    apply Vector.ext
    intro j hj
    rw [Vector.getElem_map]
    exact (hrow ⟨j, hj⟩).trans (if_neg List.not_mem_nil)

/-- `halve` word by word.
Source: `internal/tinylfu/sketch.go` `sketch.halve`
Kind: L -/
theorem Words.halve_steps (s : Sketch) (m : Rows s.words) :
    (Words.halve s).Steps access Spends
      (fun _ _ m' => s.holding m' = (s.holding m).halve) (fun _ _ => 1) m := by
  refine (Prog.Steps.forM (fun rest b' m' => rest.Nodup ∧
    (∀ i, m' i = if i ∈ rest then m i
      else (m i).map fun word : UInt64 => (word >>> 1) &&& halfNibbles) ∧
    ∀ i ∈ rest, ∀ w, b' i w = 1) ?_ ⟨List.nodup_finRange _, ?_, fun _ _ _ => rfl⟩).mono ?_
  · rintro i rest b' m' ⟨hnodup, hrows, hleft⟩
    obtain ⟨hi, hrest⟩ := List.nodup_cons.mp hnodup
    refine (Words.halveRow_steps (hleft i List.mem_cons_self)).mono ?_
    rintro _ b'' m'' ⟨hrow, hother⟩
    refine ⟨hrest, fun i' => ?_, fun i' hi' => ?_⟩
    · by_cases hi' : i' = i
      · subst hi'
        rw [hrow, if_neg hi, hrows, if_pos List.mem_cons_self]
      · rw [(hother i' hi').1, hrows]
        simp only [List.mem_cons, hi', false_or]
    · have hne : i' ≠ i := fun h => hi (h ▸ hi')
      rw [(hother i' hne).2]
      exact hleft i' (List.mem_cons_of_mem _ hi')
  · intro i
    rw [if_pos (List.mem_finRange i)]
  · rintro _ _ m' ⟨-, hrows, -⟩
    unfold Sketch.halve
    congr 1
    funext i
    rw [hrows, if_neg List.not_mem_nil]

/-- A call, run word by word by the only writer: every step ages the rows, a halving halves every
word once, and at the end the sketch is that of the whole call.
Source: `internal/tinylfu/sketch.go` `sketch.increment`, `sketch.halve`
Kind: L -/
theorem Sketch.Call.steps (s : Sketch) (m : Rows s.words) (c : Sketch.Call) :
    (c.prog s).Steps access Spends (fun _ _ m' => s.holding m' = (s.holding m).call c)
      (fun _ _ => c.halvings) m := by
  cases c with
  | increment fp => exact Words.increment_steps s m fp _
  | halve => exact Words.halve_steps s m

end steps

end CacheMoney.Tinylfu
