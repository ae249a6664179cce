import CacheMoney.Tinylfu.Words

/-!
# Estimates that race the drainer

One sketch, the drainer that runs `increment` and `halve` on it one call after the other, and any
number of readers in `Estimate`. Nobody takes a lock: a reader may load its four counters at four
different moments of four different calls of the drainer.

* `Shared.Step`: the loads and stores of the drainer and of the readers in any order. The drainer is
  the only one that stores.
* `Shared.Paid`: between its calls the drainer leaves the sketch of the whole calls; inside a call it
  is on its way to the next one, with a quota of halvings.
* `estimate_torn`: an estimate lies between the estimates of two sketches of whole calls, up to one
  halving for each `halve` that overlapped it.
-/

set_option linter.unusedSectionVars false

namespace CacheMoney.Tinylfu

open CacheMoney.Found

variable {s : Sketch} {ι : Type}

/-! ### The shared sketch -/

/-- A sketch in use.
Source: `internal/tinylfu/policy.go` `Policy`
Kind: D -/
structure Shared (s : Sketch) (ι : Type) where
  rows : Rows s.words
  /-- The call that the drainer is in, and the rest of its program. -/
  drainer : Option (Sketch.Call × Words s PUnit) := none
  /-- The rest of the program of each reader. -/
  readers : ι → Option (Words s UInt8) := fun _ => none
  /-- The calls that the drainer has completed. -/
  done : List Sketch.Call := []

/-- Source: none
Kind: D -/
inductive Shared.Event (ι : Type) where
  | began (c : Sketch.Call)
  | accessed
  | ended
  | called (r : ι) (fp : UInt64)
  | loaded (r : ι)
  | returned (r : ι) (v : UInt8)

variable [DecidableEq ι]

/-- Source: `internal/tinylfu/policy.go` `Policy.drainOnce`, `Policy.Estimate`
Kind: D -/
inductive Shared.Step : Shared s ι → Shared.Event ι → Shared s ι → Prop where
  | began (σ : Shared s ι) (c : Sketch.Call) (hd : σ.drainer = none) :
      Step σ (.began c) { σ with drainer := some (c, c.prog s) }
  | accessed (σ : Shared s ι) (c : Sketch.Call) (e : Access s.words)
      (next : e.Answer → Words s PUnit) (a : e.Answer) (m : Rows s.words)
      (hd : σ.drainer = some (c, .act e next)) (hexec : access e σ.rows = .ok (a, m)) :
      Step σ .accessed { σ with rows := m, drainer := some (c, next a) }
  | ended (σ : Shared s ι) (c : Sketch.Call) (hd : σ.drainer = some (c, .ret ⟨⟩)) :
      Step σ .ended { σ with drainer := none, done := σ.done ++ [c] }
  | called (σ : Shared s ι) (r : ι) (fp : UInt64) (hr : σ.readers r = none) :
      Step σ (.called r fp)
        { σ with readers := Function.update σ.readers r (some (Words.estimate s fp)) }
  | loaded (σ : Shared s ι) (r : ι) (e : Access s.words) (next : e.Answer → Words s UInt8)
      (a : e.Answer) (m : Rows s.words) (hr : σ.readers r = some (.act e next))
      (hexec : access e σ.rows = .ok (a, m)) :
      Step σ (.loaded r)
        { σ with rows := m, readers := Function.update σ.readers r (some (next a)) }
  | returned (σ : Shared s ι) (r : ι) (v : UInt8) (hr : σ.readers r = some (.ret v)) :
      Step σ (.returned r v) { σ with readers := Function.update σ.readers r none }

/-- Source: none
Kind: D -/
inductive Shared.Run (σ₀ : Shared s ι) : List (Shared.Event ι) → Shared s ι → Prop where
  | nil : Run σ₀ [] σ₀
  | snoc {log : List (Shared.Event ι)} {σ σ' : Shared s ι} {ev : Shared.Event ι} :
      Run σ₀ log σ → Shared.Step σ ev σ' → Run σ₀ (log ++ [ev]) σ'

/-- The calls that the drainer has begun.
Source: none
Kind: D -/
def Shared.begun (σ : Shared s ι) : List Sketch.Call :=
  σ.done ++ (σ.drainer.map Prod.fst).toList

/-- Source: none
Kind: D -/
def halvings (calls : List Sketch.Call) : ℕ := (calls.map Sketch.Call.halvings).sum

/-- The last call adds its halving.
Source: none
Kind: L -/
theorem halvings_snoc (calls : List Sketch.Call) (c : Sketch.Call) :
    halvings (calls ++ [c]) = halvings calls + c.halvings := by
  unfold halvings
  rw [List.map_append, List.sum_append, List.map_singleton, List.sum_singleton]

/-! ### Readers only load -/

/-- The loop of `estimate` over the rows that are left.
Source: `internal/tinylfu/sketch.go` `sketch.estimate`
Kind: D -/
def Words.estimateFrom (s : Sketch) (fp : UInt64) (rest : List (Fin depth)) (lo : UInt8) :
    Words s UInt8 :=
  rest.foldlM (fun lo i => do
    let v ← Words.read s i (s.counterIndex fp i)
    pure (if v < lo then v else lo)) lo

/-- Equation lemma: one row is loaded, then the rest.
Source: `internal/tinylfu/sketch.go` `sketch.estimate`
Kind: L -/
theorem Words.estimateFrom_cons (fp : UInt64) (i : Fin depth) (rest : List (Fin depth))
    (lo : UInt8) : Words.estimateFrom s fp (i :: rest) lo =
      .act (.load i (Words.wordOf s (s.counterIndex fp i))) fun word =>
        let v := ((word >>> (((s.counterIndex fp i).1 &&& 15) * 4)) &&& 15).toUInt8
        Words.estimateFrom s fp rest (if v < lo then v else lo) := rfl

/-- Every reader is in the loop of `estimate`.
Source: `internal/tinylfu/policy.go` `Policy.Estimate`
Kind: D -/
def Shared.Loading (σ : Shared s ι) : Prop :=
  ∀ r p, σ.readers r = some p → ∃ fp rest lo, p = Words.estimateFrom s fp rest lo

/-- What a reader does with its next step.
Source: `internal/tinylfu/sketch.go` `sketch.estimate`
Kind: L -/
theorem Words.estimateFrom_act {fp : UInt64} {rest : List (Fin depth)} {lo : UInt8}
    {e : Access s.words} {next : e.Answer → Words s UInt8} {a : e.Answer} {m m' : Rows s.words}
    (h : Words.estimateFrom s fp rest lo = .act e next) (hexec : access e m = .ok (a, m')) :
    m' = m ∧ ∃ i rest', rest = i :: rest' ∧ next a = Words.estimateFrom s fp rest'
      (if (s.holding m).read i (s.counterIndex fp i) < lo
        then (s.holding m).read i (s.counterIndex fp i) else lo) := by
  cases rest with
  | nil => cases h
  | cons i rest =>
      rw [Words.estimateFrom_cons] at h
      cases h
      cases hexec
      exact ⟨rfl, i, rest, rfl, rfl⟩

/-- Readers only ever load.
Source: `internal/tinylfu/sketch.go` `sketch.estimate`
Kind: L -/
theorem Shared.Loading.step {σ σ' : Shared s ι} {ev : Shared.Event ι} (h : σ.Loading)
    (hstep : Shared.Step σ ev σ') : σ'.Loading := by
  have hput : ∀ {r : ι} {q : Option (Words s UInt8)},
      (∀ p, q = some p → ∃ fp rest lo, p = Words.estimateFrom s fp rest lo) →
      ∀ r' p, Function.update σ.readers r q r' = some p →
        ∃ fp rest lo, p = Words.estimateFrom s fp rest lo := by
    intro r q hq r' p hp
    by_cases hr : r' = r
    · subst hr
      rw [Function.update_self] at hp
      exact hq p hp
    · rw [Function.update_of_ne hr] at hp
      exact h r' p hp
  cases hstep with
  | began c hd | accessed c e next a m hd hexec | ended c hd => exact h
  | called r fp hr =>
      refine hput ?_
      rintro p ⟨⟩
      exact ⟨fp, List.finRange depth, nibbleMax, rfl⟩
  | loaded r e next a m hr hexec =>
      obtain ⟨fp, rest, lo, heq⟩ := h r _ hr
      obtain ⟨-, i, rest', -, hnext⟩ := Words.estimateFrom_act heq.symm hexec
      refine hput ?_
      rintro p ⟨⟩
      exact ⟨fp, rest', _, hnext⟩
  | returned r v hr => exact hput nofun

/-- A load leaves the words as they are.
Source: `internal/tinylfu/sketch.go` `sketch.estimate`
Kind: L -/
theorem Shared.Loading.rows_eq {σ : Shared s ι} (h : σ.Loading) {r : ι} {e : Access s.words}
    {next : e.Answer → Words s UInt8} {a : e.Answer} {m : Rows s.words}
    (hr : σ.readers r = some (.act e next)) (hexec : access e σ.rows = .ok (a, m)) :
    m = σ.rows := by
  obtain ⟨fp, rest, lo, heq⟩ := h r _ hr
  exact (Words.estimateFrom_act heq.symm hexec).1

/-! ### The drainer on its way -/

/-- Between two calls the sketch is that of the calls so far. Inside a call, the drainer will make it
that of one call more, and halve each word at most as often as the quota says.
Source: `internal/tinylfu/policy.go` `Policy.drainOnce`
Kind: D -/
def Shared.Paid (σ : Shared s ι) (b : Quota) : Prop :=
  match σ.drainer with
  | none => (b = fun _ _ => 0) ∧ s.holding σ.rows = σ.done.foldl Sketch.call s
  | some (c, p) => p.Steps access Spends
      (fun _ _ m => s.holding m = (σ.done.foldl Sketch.call s).call c) b σ.rows

section paid

variable {σ σ' : Shared s ι} {ev : Shared.Event ι} {b : Quota}

/-- Between calls nothing is to be paid, and the sketch is that of the calls made.
Source: `internal/tinylfu/policy.go` `Policy.drainOnce`
Kind: L -/
theorem Shared.paid_idle (hd : σ.drainer = none) :
    σ.Paid b ↔ (b = fun _ _ => 0) ∧ s.holding σ.rows = σ.done.foldl Sketch.call s := by
  unfold Shared.Paid
  rw [hd]

/-- During a call the rest of its halvings is within the quota.
Source: `internal/tinylfu/policy.go` `Policy.drainOnce`
Kind: L -/
theorem Shared.paid_busy {c : Sketch.Call} {p : Words s PUnit} (hd : σ.drainer = some (c, p)) :
    σ.Paid b ↔ p.Steps access Spends
      (fun _ _ m => s.holding m = (σ.done.foldl Sketch.call s).call c) b σ.rows := by
  unfold Shared.Paid
  rw [hd]

/-- Between calls all begun calls are done.
Source: `internal/tinylfu/policy.go` `Policy.drainOnce`
Kind: L -/
theorem Shared.begun_idle (hd : σ.drainer = none) : σ.begun = σ.done := by
  unfold Shared.begun
  rw [hd]
  exact List.append_nil _

/-- During a call one more is begun than done.
Source: `internal/tinylfu/policy.go` `Policy.drainOnce`
Kind: L -/
theorem Shared.begun_busy {c : Sketch.Call} {p : Words s PUnit} (hd : σ.drainer = some (c, p)) :
    σ.begun = σ.done ++ [c] := by
  unfold Shared.begun
  rw [hd]
  rfl

/-- A call begins with a quota of one halving for each word, if it halves.
Source: `internal/tinylfu/policy.go` `Policy.drainOnce`
Kind: L -/
theorem Shared.Paid.began (h : σ.Paid b) (c : Sketch.Call) (hd : σ.drainer = none) :
    Shared.Paid { σ with drainer := some (c, c.prog s) } fun _ _ => c.halvings := by
  have hrows := ((Shared.paid_idle hd).mp h).2
  apply (Shared.paid_busy rfl).mpr
  change (c.prog s).Steps access Spends
    (fun _ _ m => s.holding m = (σ.done.foldl Sketch.call s).call c) _ σ.rows
  rw [← hrows]
  exact c.steps s σ.rows

/-- An access takes what it halves off the quota.
Source: `internal/tinylfu/policy.go` `Policy.drainOnce`
Kind: L -/
theorem Shared.Paid.accessed (h : σ.Paid b) {c : Sketch.Call} {e : Access s.words}
    {next : e.Answer → Words s PUnit} {a : e.Answer} {m : Rows s.words}
    (hd : σ.drainer = some (c, .act e next)) (hexec : access e σ.rows = .ok (a, m)) :
    ∃ b', Shared.Paid { σ with rows := m, drainer := some (c, next a) } b' ∧
      Spends b σ.rows m b' := by
  obtain ⟨a', m', b', hexec', hspends, hnext⟩ := (Shared.paid_busy hd).mp h
  rw [hexec] at hexec'
  cases hexec'
  exact ⟨b', (Shared.paid_busy rfl).mpr hnext, hspends⟩

/-- A call ends with nothing left to pay.
Source: `internal/tinylfu/policy.go` `Policy.drainOnce`
Kind: L -/
theorem Shared.Paid.ended (h : σ.Paid b) {c : Sketch.Call} (hd : σ.drainer = some (c, .ret ⟨⟩)) :
    Shared.Paid { σ with drainer := none, done := σ.done ++ [c] } fun _ _ => 0 := by
  have hrows := (Shared.paid_busy hd).mp h
  refine (Shared.paid_idle rfl).mpr ⟨rfl, ?_⟩
  rw [List.foldl_append]
  exact hrows

/-- What one step does to the words and to the quota.
Source: `internal/tinylfu/policy.go` `Policy.drainOnce`
Kind: L -/
theorem Shared.Paid.step (h : σ.Paid b) (hload : σ.Loading) (hstep : Shared.Step σ ev σ') :
    halvings σ.begun ≤ halvings σ'.begun ∧ ∃ b' e, σ'.Paid b' ∧ Ages e σ.rows σ'.rows ∧
      ∀ i w, e i w + b' i w + halvings σ.begun ≤ b i w + halvings σ'.begun := by
  cases hstep with
  | began c hd =>
      have hbegun : halvings (Shared.begun { σ with drainer := some (c, c.prog s) }) =
          halvings σ.begun + c.halvings := by
        rw [Shared.begun_busy rfl, Shared.begun_idle hd, halvings_snoc]
      rw [hbegun]
      refine ⟨Nat.le_add_right .., _, _, h.began c hd, .refl _, fun i w => ?_⟩
      omega
  | accessed c e next a m hd hexec =>
      obtain ⟨b', hpaid, e', hb, hages⟩ := h.accessed hd hexec
      have hbegun : Shared.begun { σ with rows := m, drainer := some (c, next a) } = σ.begun := by
        rw [Shared.begun_busy rfl, Shared.begun_busy hd]
      rw [hbegun]
      refine ⟨le_rfl, b', e', hpaid, hages, fun i w => ?_⟩
      rw [hb]
  | ended c hd =>
      have hbegun : Shared.begun { σ with drainer := none, done := σ.done ++ [c] } = σ.begun := by
        rw [Shared.begun_idle rfl, Shared.begun_busy hd]
      rw [hbegun]
      refine ⟨le_rfl, _, _, h.ended hd, .refl _, fun i w => ?_⟩
      omega
  | called r fp hr => exact ⟨le_rfl, b, _, h, .refl _, fun i w => by rw [Nat.zero_add]; rfl⟩
  | loaded r e next a m hr hexec =>
      obtain rfl := hload.rows_eq hr hexec
      exact ⟨le_rfl, b, _, h, .refl _, fun i w => by rw [Nat.zero_add]; rfl⟩
  | returned r v hr => exact ⟨le_rfl, b, _, h, .refl _, fun i w => by rw [Nat.zero_add]; rfl⟩

/-- The drainer ends the call it is in.
Source: `internal/tinylfu/policy.go` `Policy.drainOnce`
Kind: L -/
theorem Shared.Paid.finish (h : σ.Paid b) : ∃ m e, s.holding m = σ.begun.foldl Sketch.call s ∧
    Ages e σ.rows m ∧ ∀ i w, e i w ≤ b i w := by
  cases hd : σ.drainer with
  | none =>
      obtain ⟨rfl, hrows⟩ := (Shared.paid_idle hd).mp h
      rw [Shared.begun_idle hd]
      exact ⟨σ.rows, _, hrows, .refl _, fun _ _ => le_rfl⟩
  | some d =>
      obtain ⟨-, b', m, -, ⟨e, hb, hages⟩, hm⟩ :=
        ((Shared.paid_busy hd).mp h).finish Spends.refl Spends.trans
      rw [Shared.begun_busy hd, List.foldl_append]
      refine ⟨m, e, hm, hages, fun i w => ?_⟩
      rw [hb]
      exact Nat.le_add_right ..

end paid

/-- The sketch of the completed calls, and what has become of it in the call under way.
Source: `internal/tinylfu/policy.go` `Policy.drainOnce`
Kind: D -/
def Shared.Anchored (σ : Shared s ι) (m₀ : Rows s.words) (e b : Quota) : Prop :=
  s.holding m₀ = σ.done.foldl Sketch.call s ∧ Ages e m₀ σ.rows ∧ σ.Paid b ∧
    ∀ i w, e i w + b i w + halvings σ.done ≤ halvings σ.begun

/-- Every step keeps the sketch anchored at that of the completed calls.
Source: `internal/tinylfu/policy.go` `Policy.drainOnce`
Kind: L -/
theorem Shared.Anchored.step {σ σ' : Shared s ι} {ev : Shared.Event ι} {m₀ : Rows s.words}
    {e b : Quota} (h : σ.Anchored m₀ e b) (hload : σ.Loading) (hstep : Shared.Step σ ev σ') :
    ∃ m₀ e b, σ'.Anchored m₀ e b := by
  obtain ⟨hdone, hages, hpaid, hle⟩ := h
  cases hstep with
  | began c hd =>
      have hrows := ((Shared.paid_idle hd).mp hpaid).2
      refine ⟨σ.rows, _, _, hrows, .refl _, hpaid.began c hd, fun i w => ?_⟩
      rw [Shared.begun_busy rfl, halvings_snoc]
      exact (Nat.add_comm ..).le.trans (by omega)
  | accessed c e' next a m hd hexec =>
      obtain ⟨b', hpaid', e'', hb, hages'⟩ := hpaid.accessed hd hexec
      refine ⟨m₀, _, b', hdone, hages.trans hages', hpaid', fun i w => ?_⟩
      have hold := hle i w
      rw [Shared.begun_busy hd] at hold
      rw [Shared.begun_busy rfl]
      have hbudget := hb i w
      change e i w + e'' i w + b' i w + halvings σ.done ≤ halvings (σ.done ++ [c])
      omega
  | ended c hd =>
      have hpaid' := hpaid.ended hd
      have hrows := ((Shared.paid_idle rfl).mp hpaid').2
      refine ⟨σ.rows, _, _, hrows, .refl _, hpaid', fun i w => ?_⟩
      rw [Shared.begun_idle rfl]
      omega
  | called r fp hr => exact ⟨m₀, e, b, hdone, hages, hpaid, hle⟩
  | loaded r e' next a m hr hexec =>
      obtain rfl := hload.rows_eq hr hexec
      exact ⟨m₀, e, b, hdone, hages, hpaid, hle⟩
  | returned r v hr => exact ⟨m₀, e, b, hdone, hages, hpaid, hle⟩

/-- Along every run the sketch is anchored at that of the completed calls.
Source: `internal/tinylfu/policy.go` `Policy.drainOnce`
Kind: L -/
theorem Shared.Run.anchored {σ : Shared s ι} {log : List (Shared.Event ι)}
    (h : Shared.Run { rows := s.rows } log σ) : σ.Loading ∧ ∃ m₀ e b, σ.Anchored m₀ e b := by
  induction h with
  | nil =>
      refine ⟨nofun, s.rows, fun _ _ => 0, fun _ _ => 0, rfl, .refl _, ?_, fun _ _ => le_rfl⟩
      exact (Shared.paid_idle rfl).mpr ⟨rfl, rfl⟩
  | snoc _ hstep ih =>
      obtain ⟨hload, m₀, e, b, hanchored⟩ := ih
      exact ⟨hload.step hstep, hanchored.step hload hstep⟩

/-! ### One estimate -/

/-- An estimate is at most any counter it reads, with one added to both.
Source: `internal/tinylfu/sketch.go` `sketch.estimate`
Kind: L -/
theorem estimate_add_one_le {m : Rows s.words} {fp : UInt64} (i : Fin depth) :
    ((s.holding m).estimate fp).toNat + 1 ≤ packed (m i) (s.column i fp) + 1 := by
  rw [Sketch.estimate_eq]
  exact Nat.succ_le_succ (CountMin.estimate_le (s.holding m).column 15 (s.holding m).counter fp i)

/-- A bound on every counter, up to halvings, is a bound on the estimate.
Source: `internal/tinylfu/sketch.go` `sketch.estimate`
Kind: L -/
theorem add_one_le_estimate {m : Rows s.words} {fp : UInt64} {x H : ℕ} (hcap : x ≤ 15)
    (h : ∀ i, x + 1 ≤ 2 ^ H * (packed (m i) (s.column i fp) + 1)) :
    x + 1 ≤ 2 ^ H * (((s.holding m).estimate fp).toNat + 1) := by
  have hpos : 0 < 2 ^ H := Nat.pow_pos (by decide)
  have hdiv : ∀ y, x + 1 ≤ 2 ^ H * (y + 1) ↔ x / 2 ^ H ≤ y := by
    intro y
    rw [← Nat.lt_succ_iff (m := x / 2 ^ H), Nat.div_lt_iff_lt_mul hpos, Nat.mul_comm]
    exact Iff.rfl
  rw [hdiv, Sketch.estimate_eq, CountMin.le_estimate_iff]
  exact ⟨(Nat.div_le_self ..).trans hcap, fun i => (hdiv _).mp (h i)⟩

/-- An estimate under way: what is left of its program, with the minimum so far. `base` is the sketch
of the calls that were complete when it began, and `h₀` counts their halvings.
Source: `internal/tinylfu/sketch.go` `sketch.estimate`
Kind: D -/
structure Shared.Watched (base : Rows s.words) (h₀ : ℕ) (fp : UInt64) (σ : Shared s ι) (b : Quota)
    (rest : List (Fin depth)) (lo : UInt8) : Prop where
  since : ∃ e, Ages e base σ.rows ∧ ∀ i w, e i w + b i w + h₀ ≤ halvings σ.begun
  small : lo.toNat ≤ 15
  above : ((s.holding base).estimate fp).toNat + 1 ≤
    2 ^ (halvings σ.begun - h₀) * (lo.toNat + 1)
  below : ∀ i, i ∉ rest → ∃ e, lo.toNat + 1 ≤ 2 ^ e * (packed (σ.rows i) (s.column i fp) + 1) ∧
    e + b i (s.column i fp / 16) + h₀ ≤ halvings σ.begun

section watched

variable {σ σ' : Shared s ι} {base : Rows s.words} {h₀ : ℕ} {fp : UInt64} {b b' : Quota}
  {rest : List (Fin depth)} {lo : UInt8}

/-- A step that is not a load of this reader.
Source: `internal/tinylfu/policy.go` `Policy.drainOnce`
Kind: L -/
theorem Shared.Watched.later (h : Shared.Watched base h₀ fp σ b rest lo) {e : Quota}
    (hmono : halvings σ.begun ≤ halvings σ'.begun) (hages : Ages e σ.rows σ'.rows)
    (hle : ∀ i w, e i w + b' i w + halvings σ.begun ≤ b i w + halvings σ'.begun) :
    Shared.Watched base h₀ fp σ' b' rest lo where
  since := by
    obtain ⟨e₀, hages₀, hle₀⟩ := h.since
    refine ⟨_, hages₀.trans hages, fun i w => ?_⟩
    have hnew := hle i w
    have hold := hle₀ i w
    omega
  small := h.small
  above := by
    apply h.above.trans
    apply Nat.mul_le_mul_right
    exact Nat.pow_le_pow_right (by decide) (Nat.sub_le_sub_right hmono h₀)
  below i hi := by
    obtain ⟨e₀, hlo, hle₀⟩ := h.below i hi
    refine ⟨e₀ + e i (s.column i fp / 16), ?_, ?_⟩
    · calc lo.toNat + 1 ≤ 2 ^ e₀ * (packed (σ.rows i) (s.column i fp) + 1) := hlo
        _ ≤ 2 ^ e₀ * (2 ^ e i (s.column i fp / 16) *
              (packed (σ'.rows i) (s.column i fp) + 1)) := Nat.mul_le_mul_left _ (hages i _)
        _ = 2 ^ (e₀ + e i (s.column i fp / 16)) * (packed (σ'.rows i) (s.column i fp) + 1) := by
            rw [Nat.pow_add, Nat.mul_assoc]
    · have hnew := hle i (s.column i fp / 16)
      omega

/-- A load of this reader.
Source: `internal/tinylfu/sketch.go` `sketch.estimate`
Kind: L -/
theorem Shared.Watched.load {i : Fin depth} (h : Shared.Watched base h₀ fp σ b (i :: rest) lo) :
    Shared.Watched base h₀ fp σ b rest
      (if (s.holding σ.rows).read i (s.counterIndex fp i) < lo
        then (s.holding σ.rows).read i (s.counterIndex fp i) else lo) := by
  have hread : ((s.holding σ.rows).read i (s.counterIndex fp i)).toNat =
      packed (σ.rows i) (s.column i fp) := (s.holding σ.rows).toNat_read i _
  obtain ⟨e, hages, hle⟩ := h.since
  by_cases hlt : (s.holding σ.rows).read i (s.counterIndex fp i) < lo
  · -- The counter just read is the new minimum.
    rw [if_pos hlt]
    rw [UInt8.lt_iff_toNat_lt] at hlt
    refine ⟨⟨e, hages, hle⟩, hlt.le.trans h.small, ?_, fun i' hi' => ?_⟩
    · calc ((s.holding base).estimate fp).toNat + 1
          ≤ packed (base i) (s.column i fp) + 1 := estimate_add_one_le i
        _ ≤ 2 ^ e i (s.column i fp / 16) * (packed (σ.rows i) (s.column i fp) + 1) := hages i _
        _ ≤ 2 ^ (halvings σ.begun - h₀) *
              (((s.holding σ.rows).read i (s.counterIndex fp i)).toNat + 1) := by
            rw [hread]
            apply Nat.mul_le_mul_right
            apply Nat.pow_le_pow_right (by decide)
            have hcount := hle i (s.column i fp / 16)
            omega
    · by_cases hi : i' = i
      · subst hi
        refine ⟨0, by rw [hread, Nat.pow_zero, Nat.one_mul], ?_⟩
        have hcount := hle i' (s.column i' fp / 16)
        omega
      · obtain ⟨e', hlo, hle'⟩ := h.below i' fun hmem =>
          (List.mem_cons.mp hmem).elim hi hi'
        exact ⟨e', (Nat.succ_le_succ hlt.le).trans hlo, hle'⟩
  · rw [if_neg hlt]
    rw [UInt8.lt_iff_toNat_lt, Nat.not_lt] at hlt
    refine ⟨⟨e, hages, hle⟩, h.small, h.above, fun i' hi' => ?_⟩
    by_cases hi : i' = i
    · subst hi
      refine ⟨0, ?_, ?_⟩
      · rw [Nat.pow_zero, Nat.one_mul, ← hread]
        exact Nat.succ_le_succ hlt
      · have hcount := hle i' (s.column i' fp / 16)
        omega
    · exact h.below i' fun hmem => (List.mem_cons.mp hmem).elim hi hi'

end watched

/-- From the call of an estimate on, as long as it has not returned.
Source: `internal/tinylfu/policy.go` `Policy.Estimate`
Kind: L -/
theorem Shared.Run.watched {σ₁ σ : Shared s ι} {log : List (Shared.Event ι)} {r : ι} {fp : UInt64}
    {base : Rows s.words} {h₀ : ℕ} {b₁ : Quota} (hload : σ₁.Loading) (hpaid : σ₁.Paid b₁)
    (hr : σ₁.readers r = some (Words.estimateFrom s fp (List.finRange depth) nibbleMax))
    (hfirst : Shared.Watched base h₀ fp σ₁ b₁ (List.finRange depth) nibbleMax)
    (h : Shared.Run σ₁ log σ) (hruns : ∀ v, .returned r v ∉ log) :
    σ.Loading ∧ ∃ b rest lo, σ.Paid b ∧
      σ.readers r = some (Words.estimateFrom s fp rest lo) ∧
      Shared.Watched base h₀ fp σ b rest lo := by
  induction h with
  | nil => exact ⟨hload, b₁, _, _, hpaid, hr, hfirst⟩
  | @snoc log σ σ' ev _ hstep ih =>
      obtain ⟨hload, b, rest, lo, hpaid, hreader, hwatched⟩ :=
        ih fun v hv => hruns v (List.mem_append_left _ hv)
      have hev : ∀ v, ev ≠ .returned r v := by
        rintro v rfl
        exact hruns v (List.mem_append_right _ (List.mem_singleton.mpr rfl))
      refine ⟨hload.step hstep, ?_⟩
      -- Whatever step it is, its effect on the words is paid for.
      have hlater : σ'.readers r = σ.readers r → ∃ b rest lo, σ'.Paid b ∧
          σ'.readers r = some (Words.estimateFrom s fp rest lo) ∧
          Shared.Watched base h₀ fp σ' b rest lo := by
        intro hsame
        obtain ⟨hmono, b', e, hpaid', hages, hle⟩ := hpaid.step hload hstep
        exact ⟨b', rest, lo, hpaid', hsame.trans hreader, hwatched.later hmono hages hle⟩
      cases hstep with
      | began c hd | accessed c e next a m hd hexec | ended c hd => exact hlater rfl
      | called r' fp' hr' =>
          have hne : r ≠ r' := by
            rintro rfl
            rw [hreader] at hr'
            cases hr'
          exact hlater (Function.update_of_ne hne ..)
      | returned r' v hr' =>
          have hne : r ≠ r' := by
            rintro rfl
            exact hev v rfl
          exact hlater (Function.update_of_ne hne ..)
      | loaded r' e next a m hr' hexec =>
          by_cases hne : r = r'
          · subst hne
            have hprog := Option.some.inj (hreader.symm.trans hr')
            obtain ⟨rfl, i, rest', rfl, hnext⟩ := Words.estimateFrom_act hprog hexec
            have hnew := hwatched.load
            refine ⟨b, rest', _, hpaid, ?_, hnew.since, hnew.small, hnew.above, hnew.below⟩
            rw [← hnext]
            exact Function.update_self ..
          · exact hlater (Function.update_of_ne hne ..)

/-- **A torn estimate.** Readers take no lock, so the four counters of an `Estimate` may be loaded
between any two stores of the drainer. Let `H` be the number of calls of `halve` that overlapped the
estimate: begun when it returned and not complete when it was called. The value returned is at least
the estimate of the sketch of the calls that were complete when it was called, and at most that of
the sketch of the calls begun when it returned, up to `H` halvings; without one, it lies between the
two.
Source: `internal/tinylfu/policy.go` `Policy.Estimate`, `Policy.drainOnce`;
`internal/tinylfu/sketch.go` `sketch.estimate`, `sketch.increment`, `sketch.halve`
Kind: P
Fidelity: exact -/
theorem estimate_torn (s : Sketch) (ι : Type) [DecidableEq ι] (σ₁ σ₂ : Shared s ι)
    (before during : List (Shared.Event ι)) (r : ι) (fp : UInt64) (v : UInt8)
    (hbefore : Shared.Run { rows := s.rows } before σ₁)
    (hduring : Shared.Run
      { σ₁ with readers := Function.update σ₁.readers r (some (Words.estimate s fp)) } during σ₂)
    (hidle : σ₁.readers r = none) (hruns : ∀ v', .returned r v' ∉ during)
    (hreturns : σ₂.readers r = some (.ret v)) :
    let H := halvings σ₂.begun - halvings σ₁.done
    ((σ₁.done.foldl Sketch.call s).estimate fp).toNat + 1 ≤ 2 ^ H * (v.toNat + 1) ∧
      v.toNat + 1 ≤ 2 ^ H * (((σ₂.begun.foldl Sketch.call s).estimate fp).toNat + 1) := by
  obtain ⟨hload, base, e, b, hdone, hages, hpaid, hle⟩ := hbefore.anchored
  have hfirst : Shared.Watched base (halvings σ₁.done) fp
      { σ₁ with readers := Function.update σ₁.readers r (some (Words.estimate s fp)) } b
      (List.finRange depth) nibbleMax := by
    refine ⟨⟨e, hages, hle⟩, le_rfl, ?_, fun i hi => absurd (List.mem_finRange i) hi⟩
    rw [Sketch.estimate_eq]
    calc CountMin.estimate (s.holding base).column 15 (s.holding base).counter fp + 1
        ≤ nibbleMax.toNat + 1 := Nat.succ_le_succ (CountMin.estimate_le_cap ..)
      _ ≤ _ := Nat.le_mul_of_pos_left _ (Nat.pow_pos (by decide))
  obtain ⟨-, b', rest, lo, hpaid', hreader, hwatched⟩ := Shared.Run.watched
    (hload.step (.called σ₁ r fp hidle)) hpaid (Function.update_self ..) hfirst hduring hruns
  rw [hreader] at hreturns
  have hprog := Option.some.inj hreturns
  cases rest with
  | cons i rest => cases hprog
  | nil =>
      cases hprog
      refine ⟨?_, ?_⟩
      · rw [← hdone]
        exact hwatched.above
      · obtain ⟨m, e', hm, hages', hle'⟩ := hpaid'.finish
        rw [← hm]
        apply add_one_le_estimate hwatched.small
        intro i
        obtain ⟨e₀, hlo, hle₀⟩ := hwatched.below i List.not_mem_nil
        have hend := hle' i (s.column i fp / 16)
        calc v.toNat + 1 ≤ 2 ^ e₀ * (packed (σ₂.rows i) (s.column i fp) + 1) := hlo
          _ ≤ 2 ^ e₀ * (2 ^ e' i (s.column i fp / 16) * (packed (m i) (s.column i fp) + 1)) :=
              Nat.mul_le_mul_left _ (hages' i _)
          _ = 2 ^ (e₀ + e' i (s.column i fp / 16)) * (packed (m i) (s.column i fp) + 1) := by
              rw [Nat.pow_add, Nat.mul_assoc]
          _ ≤ 2 ^ (halvings σ₂.begun - halvings σ₁.done) * (packed (m i) (s.column i fp) + 1) :=
              Nat.mul_le_mul_right _ (Nat.pow_le_pow_right (by decide) (by omega))

set_option maxRecDepth 10000 in
/-- The drainer is inside its first `increment`. A reader loads the counter of the first row, then the
drainer stores that counter, and then the reader loads the others.
Source: `internal/tinylfu/policy.go` `Policy.Estimate`, `Policy.drainOnce`
Kind: C -/
theorem estimate_torn_between : ∃ (s : Sketch) (σ : Shared s Unit) (v : UInt8),
    newSketch 16 7 = .ok s ∧
    Shared.Run { rows := s.rows
                 readers := Function.update (fun _ => none) () (some (Words.estimate s 1)) }
      [.began (.increment 1), .accessed, .accessed, .accessed, .accessed, .loaded (), .accessed,
        .accessed, .loaded (), .loaded (), .loaded ()] σ ∧
    σ.rows ≠ s.rows ∧ σ.begun = [.increment 1] ∧ σ.done = [] ∧ σ.readers () = some (.ret v) ∧
    (s.estimate 1).toNat + 1 ≤ 2 ^ 0 * (v.toNat + 1) ∧
    v.toNat + 1 ≤
      2 ^ 0 * ((([Sketch.Call.increment 1].foldl Sketch.call s).estimate 1).toNat + 1) := by
  have hrun : ∃ (s : Sketch) (σ : Shared s Unit) (v : UInt8), newSketch 16 7 = .ok s ∧
      Shared.Run { rows := s.rows
                   readers := Function.update (fun _ => none) () (some (Words.estimate s 1)) }
        [.began (.increment 1), .accessed, .accessed, .accessed, .accessed, .loaded (), .accessed,
          .accessed, .loaded (), .loaded (), .loaded ()] σ ∧
      (σ.rows 0).toList ≠ (s.rows 0).toList ∧ σ.begun = [.increment 1] ∧ σ.done = [] ∧
      σ.readers () = some (.ret v) :=
    ⟨_, _, _, rfl, ((((((((((Shared.Run.nil.snoc (.began _ (.increment 1) rfl)).snoc
      (.accessed _ _ _ _ _ _ rfl rfl)).snoc (.accessed _ _ _ _ _ _ rfl rfl)).snoc
      (.accessed _ _ _ _ _ _ rfl rfl)).snoc (.accessed _ _ _ _ _ _ rfl rfl)).snoc
      (.loaded _ () _ _ _ _ rfl rfl)).snoc (.accessed _ _ _ _ _ _ rfl rfl)).snoc
      (.accessed _ _ _ _ _ _ rfl rfl)).snoc (.loaded _ () _ _ _ _ rfl rfl)).snoc
      (.loaded _ () _ _ _ _ rfl rfl)).snoc (.loaded _ () _ _ _ _ rfl rfl), by decide +kernel,
      rfl, rfl, rfl⟩
  obtain ⟨s, σ, v, hs, hrun, hstored, hbegun, hdone, hret⟩ := hrun
  obtain ⟨hlow, hup⟩ := estimate_torn s Unit { rows := s.rows } σ [] _ () 1 v .nil hrun rfl
    (by simp) hret
  rw [hbegun] at hlow hup
  exact ⟨s, σ, v, hs, hrun, fun heq => hstored (by rw [heq]), hbegun, hdone, hret, hlow, hup⟩

end CacheMoney.Tinylfu
