import CacheMoney.Tinylfu.Doorkeeper

/-!
# The frequency pipeline

`drainOnce` folds fingerprints into the sketch through the doorkeeper: the first sighting of a
fingerprint only enters the doorkeeper, a later one increments the sketch. Every `agingN` increments
the sketch is halved and the doorkeeper reset.

* The model: `Frequency` is what the drainer alone writes, `sight` the callback of `drainOnce`.
* `Reference` keeps a set of fingerprints and exact counts, and ages when the pipeline ages. The
  moments of aging depend on the collisions of the pipeline, so the two run side by side.
* `never_underestimates`: an estimate is at least the reference count, after any passes.
-/

namespace CacheMoney.Tinylfu

open CacheMoney.Found

/-! ### The pipeline -/

/-- Source: `internal/tinylfu/policy.go` `defaultRingDepth`
Kind: D -/
def defaultRingDepth : Int64 := 128

/-- Source: `internal/tinylfu/policy.go` `agingFactor`
Kind: D -/
def agingFactor : ℕ := 1

/-- Source: `internal/tinylfu/policy.go` `Config`
Kind: D -/
structure Config where
  counters : Int64
  stripes : Int64
  ringDepth : Int64
  seed : UInt64

/-- What the drainer folds fingerprints into.
Source: `internal/tinylfu/policy.go` `Policy`
Kind: D -/
structure Frequency where
  sk : Sketch
  dk : Doorkeeper
  incrs : ℕ

namespace Frequency

/-- The bookkeeping after an increment.
Source: `internal/tinylfu/policy.go` `Policy.drainOnce`
Kind: D -/
def age (agingN : ℕ) (f : Frequency) : Frequency :=
  let incrs := f.incrs + 1
  if incrs ≥ agingN then
    ⟨f.sk.halve, f.dk.reset, 0⟩
  else
    { f with incrs := incrs }

/-- Aging keeps the width.
Source: `internal/tinylfu/policy.go` `Policy.drainOnce`
Kind: L -/
theorem wd_age (agingN : ℕ) (f : Frequency) : (f.age agingN).sk.wd = f.sk.wd := by
  unfold age
  dsimp only
  split_ifs
  · rfl
  · rfl

/-- One sighting.
Source: `internal/tinylfu/policy.go` `Policy.drainOnce`
Kind: D -/
def sight (agingN : ℕ) (f : Frequency) (fp : UInt64) : Frequency :=
  if (f.dk.putOrHas fp).1 then
    age agingN { f with sk := f.sk.increment fp, dk := (f.dk.putOrHas fp).2 }
  else
    { f with dk := (f.dk.putOrHas fp).2 }

/-- A fingerprint that the doorkeeper has seen is counted.
Source: `internal/tinylfu/policy.go` `Policy.drainOnce`
Kind: L -/
theorem sight_of_seen {sk : Sketch} {dk : Doorkeeper} {fp : UInt64}
    (h : (dk.putOrHas fp).1 = true) (agingN incrs : ℕ) :
    sight agingN ⟨sk, dk, incrs⟩ fp =
      age agingN ⟨sk.increment fp, (dk.putOrHas fp).2, incrs⟩ := if_pos h

/-- A fingerprint that the doorkeeper has not seen is only put there.
Source: `internal/tinylfu/policy.go` `Policy.drainOnce`
Kind: L -/
theorem sight_of_not_seen {sk : Sketch} {dk : Doorkeeper} {fp : UInt64}
    (h : (dk.putOrHas fp).1 = false) (agingN incrs : ℕ) :
    sight agingN ⟨sk, dk, incrs⟩ fp = ⟨sk, (dk.putOrHas fp).2, incrs⟩ :=
  if_neg (by rw [h]; exact Bool.false_ne_true)

/-- One pass over the fingerprints that the buffer hands over. A pass that has folded some of them
is the pass over those.
Source: `internal/tinylfu/policy.go` `Policy.drainOnce`
Kind: D -/
def drainOnce (f : Frequency) (fps : List UInt64) : Frequency :=
  fps.foldl (sight (agingFactor * f.sk.width)) f

/-- Source: `internal/tinylfu/policy.go` `Policy.Estimate`
Kind: D -/
def estimate (f : Frequency) (fp : UInt64) : UInt8 := f.sk.estimate fp

/-- The next increment ages the sketch.
Source: `internal/tinylfu/policy.go` `Policy.drainOnce`
Kind: D -/
def due (agingN incrs : ℕ) : Bool := decide (incrs + 1 ≥ agingN)

/-- The sighting ends with an aging.
Source: `internal/tinylfu/policy.go` `Policy.drainOnce`
Kind: D -/
def ages (agingN : ℕ) (f : Frequency) (fp : UInt64) : Bool :=
  (f.dk.putOrHas fp).1 && due agingN f.incrs

end Frequency

/-! ### The reference -/

/-- Exact bookkeeping: the fingerprints seen since the last aging, and how often each was seen again.
Source: none
Kind: D -/
structure Reference where
  seen : Finset UInt64
  count : UInt64 → ℕ

namespace Reference

/-- Source: none
Kind: D -/
def empty : Reference := ⟨∅, fun _ => 0⟩

/-- Source: none
Kind: D -/
def sight (r : Reference) (fp : UInt64) : Reference :=
  if fp ∈ r.seen then { r with count := CountMin.tally 15 r.count fp }
  else { r with seen := insert fp r.seen }

/-- Source: none
Kind: D -/
def age (r : Reference) : Reference := ⟨∅, fun fp => r.count fp / 2⟩

/-- The reference after a sighting, next to the pipeline before it.
Source: none
Kind: D -/
def follow (agingN : ℕ) (st : Frequency × Reference) (fp : UInt64) : Frequency × Reference :=
  (st.1.sight agingN fp,
    if st.1.ages agingN fp then (st.2.sight fp).age else st.2.sight fp)

/-- Source: none
Kind: D -/
def followPass (st : Frequency × Reference) (fps : List UInt64) : Frequency × Reference :=
  fps.foldl (follow (agingFactor * st.1.sk.width)) st

/-- The reference after some passes of a pipeline.
Source: none
Kind: D -/
def after (f : Frequency) (passes : List (List UInt64)) : Reference :=
  (passes.foldl followPass (f, empty)).2

/-- Following a pass is draining it.
Source: none
Kind: L -/
theorem fst_followPass (st : Frequency × Reference) (fps : List UInt64) :
    (followPass st fps).1 = st.1.drainOnce fps := by
  unfold followPass Frequency.drainOnce
  generalize agingFactor * st.1.sk.width = agingN
  induction fps generalizing st with
  | nil => rfl
  | cons fp rest ih => exact ih (follow agingN st fp)

/-- Following passes is draining them.
Source: none
Kind: L -/
theorem fst_followPasses (st : Frequency × Reference) (passes : List (List UInt64)) :
    (passes.foldl followPass st).1 = passes.foldl Frequency.drainOnce st.1 := by
  induction passes generalizing st with
  | nil => rfl
  | cons fps rest ih =>
      rw [List.foldl_cons, List.foldl_cons, ih, fst_followPass]

end Reference

/-! ### The pipeline never underestimates -/

/-- The doorkeeper holds every fingerprint of the reference's set, and the sketch covers its counts.
Source: none
Kind: D -/
structure Follows (f : Frequency) (r : Reference) : Prop where
  holds : ∀ fp ∈ r.seen, f.dk.Holds fp
  covers : CountMin.Covers f.sk.column 15 f.sk.counter r.count

/-- What it takes to follow the reference.
Source: none
Kind: L -/
theorem Follows.of {sk : Sketch} {dk : Doorkeeper} {incrs : ℕ} {seen : Finset UInt64}
    {count : UInt64 → ℕ} (holds : ∀ fp ∈ seen, dk.Holds fp)
    (covers : CountMin.Covers sk.column 15 sk.counter count) :
    Follows ⟨sk, dk, incrs⟩ ⟨seen, count⟩ := ⟨holds, covers⟩

/-- When the estimates are aged, so is the reference.
Source: none
Kind: L -/
theorem Follows.age {f : Frequency} {r : Reference} (h : Follows f r) (agingN : ℕ) :
    Follows (f.age agingN) (if Frequency.due agingN f.incrs then r.age else r) := by
  unfold Frequency.age Frequency.due
  simp only [decide_eq_true_eq]
  split_ifs with hage
  · refine ⟨fun fp hfp => absurd hfp (Finset.notMem_empty fp), ?_⟩
    change CountMin.Covers f.sk.halve.column 15 f.sk.halve.counter _
    rw [f.sk.column_halve, f.sk.counter_halve]
    exact h.covers.halve
  · exact ⟨h.holds, h.covers⟩

/-- The set grows by a fingerprint that the doorkeeper has just put.
Source: `internal/tinylfu/doorkeeper.go` `doorkeeper.putOrHas`
Kind: L -/
theorem Follows.holds_insert {f : Frequency} {r : Reference} (h : Follows f r) (fp : UInt64) :
    ∀ g ∈ insert fp r.seen, (f.dk.putOrHas fp).2.Holds g := by
  intro g hg
  rcases Finset.mem_insert.mp hg with rfl | hg
  · exact f.dk.holds_putOrHas g
  · exact (h.holds g hg).putOrHas fp

/-- One sighting, on both sides.
Source: `internal/tinylfu/policy.go` `Policy.drainOnce`
Kind: L -/
theorem Follows.follow {st : Frequency × Reference} (h : Follows st.1 st.2) (agingN : ℕ)
    (fp : UInt64) :
    Follows (Reference.follow agingN st fp).1 (Reference.follow agingN st fp).2 := by
  obtain ⟨f, r⟩ := st
  unfold Reference.follow Frequency.sight Frequency.ages
  dsimp only
  by_cases hseen : (f.dk.putOrHas fp).1 = true
  · -- The sketch counts the sighting. The reference does too, or it is a false positive.
    rw [if_pos hseen, hseen, Bool.true_and]
    have hsight : Follows { f with sk := f.sk.increment fp, dk := (f.dk.putOrHas fp).2 }
        (r.sight fp) := by
      unfold Reference.sight
      split_ifs with hmem
      · have hcovers : CountMin.Covers (f.sk.increment fp).column 15 (f.sk.increment fp).counter
            (CountMin.tally 15 r.count fp) := by
          rw [Sketch.column_increment, Sketch.counter_increment]
          exact h.covers.tally fp
        exact .of (fun g hg => (h.holds g hg).putOrHas fp) hcovers
      · have hcovers : CountMin.Covers (f.sk.increment fp).column 15 (f.sk.increment fp).counter
            r.count := by
          rw [Sketch.column_increment, Sketch.counter_increment]
          exact h.covers.conservative fp
        exact .of (h.holds_insert fp) hcovers
    exact hsight.age agingN
  · -- A first sighting: the doorkeeper has no false negatives, so it is one for the reference.
    have hmem : fp ∉ r.seen := fun hmem => hseen (h.holds fp hmem).putOrHas_fst
    rw [Bool.not_eq_true] at hseen
    rw [hseen, Bool.false_and, if_neg Bool.false_ne_true, if_neg Bool.false_ne_true]
    unfold Reference.sight
    rw [if_neg hmem]
    exact ⟨h.holds_insert fp, h.covers⟩

/-- A pass keeps the estimates above the reference.
Source: `internal/tinylfu/policy.go` `Policy.drainOnce`
Kind: L -/
theorem Follows.followPass {st : Frequency × Reference} (h : Follows st.1 st.2)
    (fps : List UInt64) :
    Follows (Reference.followPass st fps).1 (Reference.followPass st fps).2 := by
  unfold Reference.followPass
  generalize agingFactor * st.1.sk.width = agingN
  induction fps generalizing st with
  | nil => exact h
  | cons fp rest ih => exact ih (h.follow agingN fp)

/-- Passes in sequence keep the estimates above the reference.
Source: `internal/tinylfu/policy.go` `Policy.drainOnce`
Kind: L -/
theorem Follows.followPasses {st : Frequency × Reference} (h : Follows st.1 st.2)
    (passes : List (List UInt64)) :
    Follows (passes.foldl Reference.followPass st).1 (passes.foldl Reference.followPass st).2 := by
  induction passes generalizing st with
  | nil => exact h
  | cons fps rest ih => exact ih (h.followPass fps)

/-- Source: `internal/tinylfu/policy.go` `New`
Kind: D -/
def newFrequency (cfg : Config) : Outcome Frequency := do
  let sk ← newSketch cfg.counters cfg.seed
  pure ⟨sk, newDoorkeeper cfg.counters cfg.seed, 0⟩

/-- For any number of passes over any fingerprints, no estimate is below the reference count. The
pipeline may start anywhere, as `newFrequency` makes it for any configuration or from counts that
the reference does not know of.
Source: `internal/tinylfu/policy.go` `Policy.drainOnce`
Kind: P
Fidelity: exact -/
theorem never_underestimates (f : Frequency) (passes : List (List UInt64)) (fp : UInt64) :
    (Reference.after f passes).count fp ≤
      ((passes.foldl Frequency.drainOnce f).estimate fp).toNat := by
  have hstart : Follows (f, Reference.empty).1 (f, Reference.empty).2 :=
    ⟨fun g hg => absurd hg (Finset.notMem_empty g), fun g => Nat.zero_le _⟩
  have hend := (hstart.followPasses passes).covers fp
  rw [Reference.fst_followPasses] at hend
  unfold Frequency.estimate
  rw [Sketch.estimate_eq]
  exact hend

end CacheMoney.Tinylfu
