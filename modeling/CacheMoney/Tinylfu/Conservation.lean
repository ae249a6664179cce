import Mathlib.Data.Multiset.Count
import CacheMoney.Tinylfu.Drainer

/-!
# No accepted sample is lost or folded twice

A fingerprint that a push appended is in one of three places: handed to the callback, in the scratch
copy, or in its stripe. `Conserved` says so as a bag, and per stripe as lists: what was appended is
what was folded, then the scratch copy, then the stripe. The second form gives the order.

Only three kinds of steps move a sample: a push that is accepted (`Conserved.append`), the copy of a
stripe (`Conserved.take`) and the callback (`Conserved.fold`).
-/

namespace CacheMoney.Tinylfu

open CacheMoney.Found

/-- The fingerprints of a list that belong to a stripe.
Source: none
Kind: D -/
def AccessBuffer.ofStripe (b : AccessBuffer) (i : ℕ) (l : List UInt64) : List UInt64 :=
  l.filter fun fp => b.stripeOf fp = i

/-- A fingerprint belongs to the part of its stripe only.
Source: none
Kind: L -/
theorem AccessBuffer.ofStripe_append (b : AccessBuffer) (i : ℕ) (l : List UInt64) (fp : UInt64) :
    b.ofStripe i (l ++ [fp]) = b.ofStripe i l ++ if b.stripeOf fp = i then [fp] else [] := by
  unfold ofStripe
  rw [List.filter_append, List.filter_singleton, Bool.cond_decide]

/-- Source: none
Kind: D -/
structure Conserved (b : AccessBuffer) (appended folded : List UInt64) (d : Drainer) : Prop where
  depth_le : ∀ (i : ℕ) (lane : List UInt64), b.stripes[i]? = some lane → lane.length ≤ b.depth
  home : ∀ (i : ℕ) (lane : List UInt64), b.stripes[i]? = some lane → ∀ fp ∈ lane, b.stripeOf fp = i
  scratch_home : ∀ i, ∀ fp ∈ d.scratchOf i, b.stripeOf fp = i
  order : ∀ (i : ℕ) (lane : List UInt64), b.stripes[i]? = some lane →
    b.ofStripe i appended = b.ofStripe i folded ++ d.scratchOf i ++ lane
  bag : ∀ x, appended.count x = folded.count x + d.scratch.count x + b.stripes.flatten.count x

section steps

variable {b : AccessBuffer} {appended folded : List UInt64} {d : Drainer}

/-- A step of the drainer that keeps its scratch copy.
Source: none
Kind: L -/
theorem Conserved.redirect (h : Conserved b appended folded d) {d' : Drainer}
    (hof : ∀ i, d'.scratchOf i = d.scratchOf i) (hscratch : d'.scratch = d.scratch) :
    Conserved b appended folded d' := by
  refine ⟨h.depth_le, h.home, fun i => ?_, fun i lane hlane => ?_, fun x => ?_⟩
  · rw [hof]
    exact h.scratch_home i
  · rw [hof]
    exact h.order i lane hlane
  · rw [hscratch]
    exact h.bag x

/-- An accepted push.
Source: `internal/tinylfu/buffer.go` `accessBuffer.push`
Kind: L -/
theorem Conserved.append (h : Conserved b appended folded d) {fp : UInt64} {lane : List UInt64}
    (hlane : b.stripes[b.stripeOf fp]? = some lane) (hroom : lane.length < b.depth) :
    Conserved (b.put fp lane) (appended ++ [fp]) folded d := by
  refine ⟨?_, ?_, h.scratch_home, ?_, ?_⟩
  · intro i lane' hi
    rcases AccessBuffer.getElem?_set_cases hi with ⟨-, rfl⟩ | ⟨-, hi⟩
    · rw [List.length_append]
      exact hroom
    · exact h.depth_le i lane' hi
  · intro i lane' hi g hg
    rcases AccessBuffer.getElem?_set_cases hi with ⟨rfl, rfl⟩ | ⟨-, hi⟩
    · rcases List.mem_append.mp hg with hg | hg
      · exact h.home _ lane hlane g hg
      · rw [List.mem_singleton.mp hg]
        rfl
    · exact h.home i lane' hi g hg
  · intro i lane' hi
    change b.ofStripe i (appended ++ [fp]) = b.ofStripe i folded ++ d.scratchOf i ++ lane'
    rw [b.ofStripe_append]
    rcases AccessBuffer.getElem?_set_cases hi with ⟨rfl, rfl⟩ | ⟨hne, hi⟩
    · rw [if_pos rfl, h.order _ lane hlane, List.append_assoc _ lane]
    · rw [if_neg (Ne.symm hne), List.append_nil, h.order i lane' hi]
  · intro x
    rw [List.count_append, AccessBuffer.count_put hlane, h.bag x]
    omega

/-- The drainer copies and clears a stripe.
Source: `internal/tinylfu/buffer.go` `accessBuffer.drainInto`
Kind: L -/
theorem Conserved.take {pass : Pass} {i : ℕ} {lane : List UInt64}
    (h : Conserved b appended folded (.lane pass i)) (hlane : b.stripes[i]? = some lane) :
    Conserved (b.clear i) appended folded (.folding pass i lane) := by
  refine ⟨?_, ?_, ?_, ?_, ?_⟩
  · intro j lane' hj
    rcases AccessBuffer.getElem?_set_cases hj with ⟨-, rfl⟩ | ⟨-, hj⟩
    · exact Nat.zero_le _
    · exact h.depth_le j lane' hj
  · intro j lane' hj
    rcases AccessBuffer.getElem?_set_cases hj with ⟨-, rfl⟩ | ⟨-, hj⟩
    · exact fun g hg => absurd hg List.not_mem_nil
    · exact h.home j lane' hj
  · intro j g hg
    rw [Drainer.scratchOf_folding] at hg
    split_ifs at hg with hij
    · subst hij
      exact h.home i lane hlane g hg
    · exact absurd hg List.not_mem_nil
  · intro j lane' hj
    change b.ofStripe j appended = b.ofStripe j folded ++ (if i = j then lane else []) ++ lane'
    rcases AccessBuffer.getElem?_set_cases hj with ⟨rfl, rfl⟩ | ⟨hne, hj⟩
    · rw [if_pos rfl, List.append_nil, h.order j lane hlane]
      exact congrArg (· ++ lane) (List.append_nil _)
    · rw [if_neg (Ne.symm hne)]
      exact h.order j lane' hj
  · intro x
    have hclear := AccessBuffer.count_clear hlane x
    have hbag := h.bag x
    change appended.count x = folded.count x + lane.count x + _
    change appended.count x = folded.count x + 0 + _ at hbag
    omega

/-- The callback takes the next fingerprint of the scratch copy.
Source: `internal/tinylfu/policy.go` `Policy.drainOnce`
Kind: L -/
theorem Conserved.fold {pass : Pass} {i : ℕ} {fp : UInt64} {rest : List UInt64}
    (h : Conserved b appended folded (.folding pass i (fp :: rest))) :
    Conserved b appended (folded ++ [fp]) (.folding pass i rest) := by
  have hstripe : b.stripeOf fp = i := by
    refine h.scratch_home i fp ?_
    rw [Drainer.scratchOf_folding, if_pos rfl]
    exact List.mem_cons_self
  refine ⟨h.depth_le, h.home, ?_, ?_, ?_⟩
  · intro j g hg
    refine h.scratch_home j g ?_
    rw [Drainer.scratchOf_folding] at hg ⊢
    split_ifs at hg ⊢
    · exact List.mem_cons_of_mem fp hg
    · exact hg
  · intro j lane hj
    have horder := h.order j lane hj
    rw [Drainer.scratchOf_folding] at horder ⊢
    rw [horder, b.ofStripe_append, hstripe]
    split_ifs
    · simp only [List.append_assoc, List.singleton_append]
    · rw [List.append_nil, List.append_nil]
  · intro x
    have hbag := h.bag x
    change appended.count x = folded.count x + (fp :: rest).count x + _ at hbag
    change appended.count x = (folded ++ [fp]).count x + rest.count x + _
    rw [List.count_append, List.count_singleton]
    rw [List.count_cons] at hbag
    omega

end steps

/-! ### Every run -/

variable {ι : Type} [DecidableEq ι]

/-- A push that is accepted is appended, and one that is not is dropped.
Source: `internal/tinylfu/buffer.go` `accessBuffer.push`
Kind: L -/
theorem Conserved.push {b b' : AccessBuffer} {appended folded : List UInt64} {d : Drainer}
    (h : Conserved b appended folded d) {fp : UInt64} {full : Bool}
    (hpush : b.push fp = .ok (full, b')) :
    Conserved b' (if b.accepts fp then appended ++ [fp] else appended) folded d := by
  rcases AccessBuffer.push_spec hpush with ⟨haccepts, -, rfl⟩ | ⟨lane, hlane, hroom, haccepts, -, rfl⟩
  · rw [haccepts]
    exact h
  · rw [haccepts]
    exact h.append hlane hroom

/-- One step keeps every sample.
Source: `internal/tinylfu/policy.go` `Policy`
Kind: L -/
theorem Conserved.step {s s' : State ι} (h : Conserved s.buf s.appended s.folded s.drainer)
    (hstep : Step s s') : Conserved s'.buf s'.appended s'.folded s'.drainer := by
  cases hstep with
  | push r fp buf hr hpush => exact h.push hpush
  | fill r fp buf hr hpush => exact h.push hpush
  | take pass i buf hd hbuf =>
      rw [hd] at h
      exact h.take hbuf
  | first pass i fp rest hd hseen =>
      rw [hd] at h
      exact h.fold
  | again pass i fp rest hd hseen =>
      rw [hd] at h
      exact h.fold.redirect (fun _ => rfl) rfl
  | age pass i rest hd =>
      rw [hd] at h
      exact h.redirect (fun _ => rfl) rfl
  | next pass i hd =>
      rw [hd] at h
      refine h.redirect (fun j => ?_) rfl
      rw [Drainer.scratchOf_folding]
      split_ifs <;> rfl
  | finish pass i hd hend =>
      rw [hd] at h
      cases hfinal : pass.final with
      | true => exact h.redirect (fun _ => rfl) rfl
      | false => exact h.redirect (fun _ => rfl) rfl
  | woken hd hwake =>
      rw [hd] at h
      exact h.redirect (fun _ => rfl) rfl
  | ticked hd =>
      rw [hd] at h
      exact h.redirect (fun _ => rfl) rfl
  | closed hd hdone =>
      rw [hd] at h
      exact h.redirect (fun _ => rfl) rfl
  | loadSketch final hd =>
      rw [hd] at h
      exact h.redirect (fun _ => rfl) rfl
  | loadDoorkeeper final sk hd =>
      rw [hd] at h
      exact h.redirect (fun _ => rfl) rfl
  | record => exact h
  | contended => exact h
  | send => exact h
  | setActive => exact h
  | resizeSketch => exact h
  | resizeDoorkeeper => exact h
  | close => exact h

/-- At the beginning nothing is appended and nothing folded.
Source: `internal/tinylfu/policy.go` `Policy`
Kind: L -/
theorem conserved_start (stripes depth : Int64) :
    Conserved (newAccessBuffer stripes depth) [] [] .waiting := by
  have hnil : ∀ (i : ℕ) (lane : List UInt64),
      (newAccessBuffer stripes depth).stripes[i]? = some lane → lane = [] :=
    fun i lane hlane => AccessBuffer.eq_nil_of_newAccessBuffer hlane
  refine ⟨?_, ?_, fun i fp hfp => absurd hfp List.not_mem_nil, ?_, fun x => ?_⟩
  · intro i lane hlane
    rw [hnil i lane hlane]
    exact Nat.zero_le _
  · intro i lane hlane fp hfp
    rw [hnil i lane hlane] at hfp
    exact absurd hfp List.not_mem_nil
  · intro i lane hlane
    rw [hnil i lane hlane]
    rfl
  · have hempty : (newAccessBuffer stripes depth).stripes.flatten = [] := by
      unfold newAccessBuffer
      exact List.flatten_replicate_nil
    rw [hempty]
    rfl

/-- For any number of stripes and any depth, in every state that any number of readers and the
drainer can reach: the appended samples are, as a bag, those handed to the callback, those in the
scratch copy and those still buffered; the samples of a stripe are folded in the order in which they
were appended; and no stripe holds more than `depth` samples.
Source: `internal/tinylfu/buffer.go` `accessBuffer`
Kind: P
Fidelity: exact -/
theorem samples_conserved (stripes depth : Int64) (f : Frequency) (s : State ι)
    (hreach : Reachable (start (newAccessBuffer stripes depth) f) s) :
    (s.appended : Multiset UInt64) =
        s.folded + s.drainer.scratch + (s.buf.stripes.flatten : Multiset UInt64) ∧
      (∀ i < s.buf.stripes.length,
        (newAccessBuffer stripes depth).ofStripe i s.folded <+:
          (newAccessBuffer stripes depth).ofStripe i s.appended) ∧
      ∀ buf ∈ s.buf.stripes, buf.length ≤ (newAccessBuffer stripes depth).depth := by
  have h : Conserved s.buf s.appended s.folded s.drainer :=
    hreach.invariant (I := fun s => Conserved s.buf s.appended s.folded s.drainer)
      (fun _ _ h hs => h.step hs) (conserved_start stripes depth)
  obtain ⟨hmask, hdepth⟩ := hreach.shape
  refine ⟨?_, ?_, ?_⟩
  · refine Multiset.ext.mpr fun x => ?_
    simp only [Multiset.count_add, Multiset.coe_count]
    exact h.bag x
  · intro i hi
    have hsame : ∀ l, s.buf.ofStripe i l = (newAccessBuffer stripes depth).ofStripe i l := by
      intro l
      unfold AccessBuffer.ofStripe AccessBuffer.stripeOf
      rw [hmask]
      rfl
    have horder := h.order i _ (List.getElem?_eq_getElem hi)
    rw [hsame, hsame, List.append_assoc] at horder
    exact ⟨_, horder.symm⟩
  · intro buf hbuf
    obtain ⟨i, hi⟩ := List.mem_iff_getElem?.mp hbuf
    exact hdepth ▸ h.depth_le i buf hi

/-- One stripe of depth two: a reader pushes, the ticker starts a pass that copies the stripe.
Source: `internal/tinylfu/buffer.go` `accessBuffer`
Kind: C -/
theorem samples_conserved_copied :
    ∃ (f : Frequency) (s : State Unit), newFrequency ⟨16, 1, 2, 7⟩ = .ok f ∧
      Reachable (start (newAccessBuffer 1 2) f) s ∧
      s.appended = [5] ∧ s.drainer.scratch = [5] ∧
      (s.appended : Multiset UInt64) =
        s.folded + s.drainer.scratch + (s.buf.stripes.flatten : Multiset UInt64) := by
  obtain ⟨f, hf⟩ : ∃ f, newFrequency ⟨16, 1, 2, 7⟩ = .ok f := ⟨_, rfl⟩
  have hpush : (newAccessBuffer 1 2).push 5 = .ok (false, ⟨[[5]], 0, 2⟩) := rfl
  have haccepts : (newAccessBuffer 1 2).accepts 5 = true := rfl
  have hrun : Reachable (start (newAccessBuffer 1 2) f : State Unit) _ :=
    .head (.setActive _ true) <|
    .head (.record _ () 5 rfl rfl) <|
    .head (.push _ () 5 _ rfl hpush) <|
    .head (.ticked _ rfl) <|
    .head (.loadSketch _ false rfl) <|
    .head (.loadDoorkeeper _ false 0 rfl) <|
    .head (.take _ _ 0 [5] rfl rfl) .refl
  exact ⟨f, _, hf, hrun, if_pos haccepts, rfl, (samples_conserved 1 2 f _ hrun).1⟩

end CacheMoney.Tinylfu
