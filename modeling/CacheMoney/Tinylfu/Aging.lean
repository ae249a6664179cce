import CacheMoney.Tinylfu.Drainer

/-!
# Aging keeps the sketch from saturating

The drainer halves the sketch after `agingN` increments, a window as wide as a row. The counter of
increments is the drainer's own: it is not reset by a `Resize`, and it counts increments of a sketch
that is no longer installed. It still bounds the row sums of the installed sketch:

* a sketch that the drainer has not worked on is all zero, whatever the counter says;
* from its first aging on, a row of the sketch holds at most its width plus the counter.

`Budget` is that disjunction, with the one increment that is not in the counter yet while the
drainer stands between `sk.increment` and `p.incrs++`.
-/

set_option linter.unusedSectionVars false

namespace CacheMoney.Tinylfu

open CacheMoney.Found

/-! ### Row sums -/

/-- The sum of the counters of a row.
Source: none
Kind: D -/
def Sketch.rowSum (s : Sketch) (row : Fin depth) : ℕ := ∑ j ∈ Finset.range s.wd, s.counter row j

/-- A row has at least one counter.
Source: none
Kind: L -/
theorem Sketch.wd_pos (s : Sketch) : 0 < s.wd := by
  have := s.mask_succ
  omega

/-- An increment adds at most one to a row.
Source: `internal/tinylfu/sketch.go` `sketch.increment`
Kind: L -/
theorem Sketch.rowSum_increment (s : Sketch) (fp : UInt64) (row : Fin depth) :
    (s.increment fp).rowSum row ≤ s.rowSum row + 1 := by
  unfold rowSum
  rw [wd_increment, counter_increment]
  exact CountMin.sum_conservative_le ..

/-- Halving at least halves the sum of a row.
Source: `internal/tinylfu/sketch.go` `sketch.halve`
Kind: L -/
theorem Sketch.rowSum_halve (s : Sketch) (row : Fin depth) :
    2 * s.halve.rowSum row ≤ s.rowSum row := by
  unfold rowSum
  rw [counter_halve]
  exact CountMin.sum_halve_le ..

/-- A new sketch has rows of sum zero.
Source: `internal/tinylfu/sketch.go` `newSketch`
Kind: L -/
theorem Sketch.rowSum_new {width : Int64} {seed : UInt64} {s : Sketch}
    (h : newSketch width seed = .ok s) (row : Fin depth) : s.rowSum row = 0 := by
  unfold rowSum
  rw [counter_newSketch h]
  exact Finset.sum_const_zero

/-! ### The budget -/

/-- The rows of a sketch within what aging allows, with `extra` increments not counted yet.
Source: none
Kind: D -/
def Budget (extra incrs : ℕ) (sk : Sketch) : Prop :=
  (∀ row, sk.rowSum row ≤ extra) ∨
    (incrs < sk.wd ∧ ∀ row, sk.rowSum row ≤ sk.wd + incrs + extra)

/-- Within the budget the sum of a row is at most twice its width.
Source: none
Kind: L -/
theorem Budget.le {extra incrs : ℕ} {sk : Sketch} (h : Budget extra incrs sk) (hextra : extra ≤ 1)
    (row : Fin depth) : sk.rowSum row ≤ 2 * sk.wd := by
  have hpos := sk.wd_pos
  rcases h with hzero | ⟨hincrs, hrows⟩
  · have := hzero row
    omega
  · have := hrows row
    omega

/-- An increment that is not counted yet is one beyond the budget.
Source: none
Kind: L -/
theorem Budget.increment {incrs : ℕ} {sk : Sketch} (h : Budget 0 incrs sk) (fp : UInt64) :
    Budget 1 incrs (sk.increment fp) := by
  unfold Budget
  rw [sk.wd_increment]
  rcases h with hzero | ⟨hincrs, hrows⟩
  · refine Or.inl fun row => ?_
    have hrow := sk.rowSum_increment fp row
    have := hzero row
    omega
  · refine Or.inr ⟨hincrs, fun row => ?_⟩
    have hrow := sk.rowSum_increment fp row
    have := hrows row
    omega

/-- The aging step settles the increment that was not counted yet.
Source: `internal/tinylfu/policy.go` `Policy.drainOnce`
Kind: L -/
theorem Budget.age {f : Frequency} (h : Budget 1 f.incrs f.sk) :
    Budget 0 (f.age f.sk.wd).incrs (f.age f.sk.wd).sk := by
  have hpos := f.sk.wd_pos
  have hle := h.le (Nat.le_refl 1)
  unfold Frequency.age
  dsimp only
  split_ifs with hage
  · refine Or.inr ⟨hpos, fun row => ?_⟩
    have hhalf := f.sk.rowSum_halve row
    have := hle row
    change f.sk.halve.rowSum row ≤ f.sk.wd + 0 + 0
    omega
  · refine Or.inr ⟨Nat.not_le.mp hage, fun row => ?_⟩
    change f.sk.rowSum row ≤ f.sk.wd + (f.incrs + 1) + 0
    rcases h with hzero | ⟨-, hrows⟩
    · have := hzero row
      omega
    · have := hrows row
      omega

/-! ### The invariant -/

/-- The increments of sketch `sk` that the drainer has made and not counted yet.
Source: none
Kind: D -/
def Drainer.uncounted (sk : ℕ) : Drainer → ℕ
  | .counted pass _ _ => if pass.sk = sk then 1 else 0
  | _ => 0

/-- Between the increment and its counting, one is uncounted.
Source: none
Kind: L -/
theorem Drainer.uncounted_counted {pass : Pass} {sk : ℕ} (h : pass.sk = sk) (i : ℕ)
    (l : List UInt64) : (counted pass i l).uncounted sk = 1 := if_pos h

/-- At most one increment is uncounted at any time.
Source: none
Kind: L -/
theorem Drainer.uncounted_le (sk : ℕ) (d : Drainer) : d.uncounted sk ≤ 1 := by
  unfold uncounted
  split
  · split_ifs <;> omega
  · exact Nat.zero_le 1

/-- Source: none
Kind: D -/
structure Aged (sketches : Arena Sketch) (sk incrs : ℕ) (d : Drainer) : Prop where
  installed : sk < sketches.used
  held : ∀ p, d.sketch? = some p → p < sketches.used
  window : ∀ pass, d.pass? = some pass → pass.agingN = (sketches.read pass.sk).wd
  /-- A pass on another sketch has left the installed one alone. -/
  fresh : ∀ p, d.sketch? = some p → p ≠ sk → ∀ row, (sketches.read sk).rowSum row = 0
  budget : Budget (d.uncounted sk) incrs (sketches.read sk)

section steps

variable {sketches : Arena Sketch} {sk incrs : ℕ} {d : Drainer}

/-- The drainer moves without touching a sketch.
Source: none
Kind: L -/
theorem Aged.move (h : Aged sketches sk incrs d) {d' : Drainer}
    (hsketch : ∀ p, d'.sketch? = some p → d.sketch? = some p ∨ p = sk)
    (hpass : ∀ pass, d'.pass? = some pass → pass.agingN = (sketches.read pass.sk).wd)
    (hcounted : d'.uncounted sk = d.uncounted sk) : Aged sketches sk incrs d' := by
  refine ⟨h.installed, fun p hp => ?_, hpass, fun p hp hne => ?_, ?_⟩
  · rcases hsketch p hp with hp | rfl
    · exact h.held p hp
    · exact h.installed
  · rcases hsketch p hp with hp | rfl
    · exact h.fresh p hp hne
    · exact absurd rfl hne
  · rw [hcounted]
    exact h.budget

/-- `Resize` installs an empty sketch.
Source: `internal/tinylfu/policy.go` `Policy.Resize`
Kind: L -/
theorem Aged.resize (h : Aged sketches sk incrs d) {new : Sketch}
    (hnew : ∀ row, new.rowSum row = 0) :
    Aged (sketches.alloc new) sketches.used incrs d := by
  refine ⟨Nat.lt_succ_self _, fun p hp => Nat.lt_succ_of_lt (h.held p hp), ?_, ?_, ?_⟩
  · intro pass hpass
    rw [Arena.read_alloc_of_lt (h.held _ (Drainer.sketch?_of_pass? hpass))]
    exact h.window pass hpass
  · intro p hp hne row
    rw [Arena.read_alloc_self]
    exact hnew row
  · rw [Arena.read_alloc_self]
    exact Or.inl fun row => (hnew row).le.trans (Nat.zero_le _)

/-- The drainer writes the sketch of its pass. If that is not the installed sketch, the installed one
stays empty, and the budget holds whatever the counter says.
Source: `internal/tinylfu/policy.go` `Policy.drainOnce`
Kind: L -/
theorem Aged.write (h : Aged sketches sk incrs d) {pass : Pass} {new : Sketch} {incrs' : ℕ}
    {d' : Drainer} (hd : d.pass? = some pass) (hd' : d'.pass? = some pass)
    (hwd : new.wd = (sketches.read pass.sk).wd)
    (hbudget : pass.sk = sk → Budget (d'.uncounted sk) incrs' new) :
    Aged (sketches.write pass.sk new) sk incrs' d' := by
  have hold := Drainer.sketch?_of_pass? hd
  have hnew := Drainer.sketch?_of_pass? hd'
  refine ⟨h.installed, fun p hp => ?_, fun q hq => ?_, fun p hp hne row => ?_, ?_⟩
  · rw [hnew] at hp
    cases hp
    exact h.held _ hold
  · rw [hd'] at hq
    cases hq
    rw [Arena.read_write_self, hwd]
    exact h.window pass hd
  · rw [hnew] at hp
    cases hp
    rw [Arena.read_write_of_ne (Ne.symm hne)]
    exact h.fresh _ hold hne row
  · by_cases hsk : pass.sk = sk
    · rw [← hsk, Arena.read_write_self, hsk]
      exact hbudget hsk
    · rw [Arena.read_write_of_ne (Ne.symm hsk)]
      exact Or.inl fun row => (h.fresh _ hold hsk row).le.trans (Nat.zero_le _)

/-- An increment of the sketch of the pass.
Source: `internal/tinylfu/policy.go` `Policy.drainOnce`
Kind: L -/
theorem Aged.count {pass : Pass} {i : ℕ} {fp : UInt64} {rest : List UInt64}
    (h : Aged sketches sk incrs (.folding pass i (fp :: rest))) :
    Aged (sketches.write pass.sk ((sketches.read pass.sk).increment fp)) sk incrs
      (.counted pass i rest) := by
  refine h.write rfl rfl (Sketch.wd_increment ..) fun hsk => ?_
  have hbudget := h.budget
  subst hsk
  rw [Drainer.uncounted_counted rfl]
  exact hbudget.increment fp

/-- The window of the pass is the width of its sketch, so aging settles the increment.
Source: `internal/tinylfu/policy.go` `Policy.drainOnce`
Kind: L -/
theorem Aged.age {pass : Pass} {i : ℕ} {rest : List UInt64}
    (h : Aged sketches sk incrs (.counted pass i rest)) (dk : Doorkeeper) :
    Aged (sketches.write pass.sk
        (Frequency.age pass.agingN ⟨sketches.read pass.sk, dk, incrs⟩).sk) sk
      (Frequency.age pass.agingN ⟨sketches.read pass.sk, dk, incrs⟩).incrs
      (.folding pass i rest) := by
  refine h.write rfl rfl (Frequency.wd_age ..) fun hsk => ?_
  have hbudget := h.budget
  subst hsk
  rw [Drainer.uncounted_counted rfl] at hbudget
  rw [h.window pass rfl]
  exact Budget.age (f := ⟨sketches.read pass.sk, dk, incrs⟩) hbudget

end steps

variable {ι : Type} [DecidableEq ι]

/-- One step keeps the budget.
Source: `internal/tinylfu/policy.go` `Policy`
Kind: L -/
theorem Aged.step {s s' : State ι} (h : Aged s.sketches s.sk s.incrs s.drainer)
    (hstep : Step s s') : Aged s'.sketches s'.sk s'.incrs s'.drainer := by
  cases hstep with
  | resizeSketch cfg sk hnew => exact h.resize (Sketch.rowSum_new hnew)
  | again pass i fp rest hd hseen =>
      rw [hd] at h
      exact h.count
  | age pass i rest hd =>
      rw [hd] at h
      exact h.age (s.doorkeepers.read pass.dk)
  | woken hd hwake =>
      rw [hd] at h
      exact h.move nofun nofun rfl
  | ticked hd =>
      rw [hd] at h
      exact h.move nofun nofun rfl
  | closed hd hdone =>
      rw [hd] at h
      exact h.move nofun nofun rfl
  | loadSketch final hd =>
      rw [hd] at h
      refine h.move (fun p hp => Or.inr ?_) nofun rfl
      cases hp
      rfl
  | loadDoorkeeper final sk hd =>
      rw [hd] at h
      refine h.move (fun p hp => Or.inl hp) (fun pass hpass => ?_) rfl
      cases hpass
      exact Nat.one_mul _
  | take pass i buf hd hbuf =>
      rw [hd] at h
      exact h.move (fun p hp => Or.inl hp) (fun q hq => h.window q hq) rfl
  | first pass i fp rest hd hseen =>
      rw [hd] at h
      exact h.move (fun p hp => Or.inl hp) (fun q hq => h.window q hq) rfl
  | next pass i hd =>
      rw [hd] at h
      exact h.move (fun p hp => Or.inl hp) (fun q hq => h.window q hq) rfl
  | finish pass i hd hend =>
      rw [hd] at h
      cases hfinal : pass.final with
      | true => exact h.move nofun nofun rfl
      | false => exact h.move nofun nofun rfl
  | record => exact h
  | contended => exact h
  | push => exact h
  | fill => exact h
  | send => exact h
  | setActive => exact h
  | resizeDoorkeeper => exact h
  | close => exact h

/-- In every reachable state, every row of the installed sketch sums to at most twice its width.
Source: `internal/tinylfu/policy.go` `agingFactor`
Kind: P
Fidelity: exact -/
theorem rows_never_saturate (procs : Int64) (cfg : Config) (s₀ s : State ι)
    (hnew : newPolicy procs cfg = .ok s₀) (hreach : Reachable s₀ s) (row : Fin depth) :
    (s.sketches.read s.sk).rowSum row ≤ 2 * (s.sketches.read s.sk).width := by
  have hstart : Aged s₀.sketches s₀.sk s₀.incrs s₀.drainer := by
    unfold newPolicy newFrequency at hnew
    obtain ⟨f, hf, hs₀⟩ := bind_eq_ok_iff.mp hnew
    obtain ⟨sk, hsk, hf⟩ := bind_eq_ok_iff.mp hf
    cases hf
    cases hs₀
    exact ⟨Nat.zero_lt_one, nofun, nofun, nofun,
      Or.inl fun r => (Sketch.rowSum_new hsk r).le⟩
  have h : Aged s.sketches s.sk s.incrs s.drainer :=
    hreach.invariant (I := fun s => Aged s.sketches s.sk s.incrs s.drainer)
      (fun _ _ h hs => h.step hs) hstart
  exact h.budget.le (Drainer.uncounted_le ..) row

set_option maxRecDepth 10000 in
/-- A reader records one fingerprint twice; the drainer folds the two samples, and the second one
counts, in a sketch that a `Resize` has installed before the pass.
Source: `internal/tinylfu/policy.go` `Policy.Record`, `Policy.drainOnce`, `Policy.Resize`
Kind: C -/
theorem rows_never_saturate_counted :
    ∃ (s₀ s : State Unit), newPolicy 4 ⟨16, 1, 3, 7⟩ = .ok s₀ ∧ Reachable s₀ s ∧ s.sk = 1 ∧
      s.folded = [5, 5] ∧ (s.sketches.read s.sk).estimate 5 = 1 ∧
      ∀ row, (s.sketches.read s.sk).rowSum row ≤ 2 * (s.sketches.read s.sk).width := by
  obtain ⟨s₀, s, hnew, hrun, hsk, hfolded, hcounted⟩ : ∃ s₀ s : State Unit,
      newPolicy 4 ⟨16, 1, 3, 7⟩ = .ok s₀ ∧ Reachable s₀ s ∧ s.sk = 1 ∧ s.folded = [5, 5] ∧
      (s.sketches.read s.sk).estimate 5 = 1 :=
    ⟨_, _, rfl, .head (.setActive _ true) <|
      .head (.resizeSketch _ ⟨40, 1, 1, 7⟩ _ rfl) <|
      .head (.record _ () 5 rfl rfl) <| .head (.push _ () 5 _ rfl rfl) <|
      .head (.record _ () 5 rfl rfl) <| .head (.push _ () 5 _ rfl rfl) <|
      .head (.ticked _ rfl) <| .head (.loadSketch _ false rfl) <|
      .head (.loadDoorkeeper _ false _ rfl) <| .head (.take _ _ 0 _ rfl rfl) <|
      .head (.first _ _ 0 5 _ rfl rfl) <| .head (.again _ _ 0 5 _ rfl rfl) .refl, rfl, rfl, rfl⟩
  exact ⟨s₀, s, hnew, hrun, hsk, hfolded, hcounted, rows_never_saturate _ _ s₀ s hnew hrun⟩

end CacheMoney.Tinylfu
