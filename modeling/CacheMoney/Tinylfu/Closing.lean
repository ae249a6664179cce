import CacheMoney.Found.Ranked
import CacheMoney.Tinylfu.Conservation

/-!
# `Close` flushes

`Close` closes `done` and waits for the drainer, which makes one more pass and returns. Readers and
`Resize` go on meanwhile.

* `Flushed`: how far the final pass has brought the samples that were buffered before `Close`.
* `close_flushes`: when the drainer has returned, every sample that was accepted before `Close` was
  handed to the callback, stripe by stripe in the order of the pushes.
* `drain_pass_ends`: a pass takes a bounded number of the drainer's own steps, whatever the readers
  do, and never blocks.
-/

set_option linter.unusedSectionVars false

namespace CacheMoney.Tinylfu

open CacheMoney.Found

variable {ι : Type} [DecidableEq ι]

/-! ### The shape of a run -/

/-- A push keeps the number of stripes.
Source: `internal/tinylfu/buffer.go` `accessBuffer.push`
Kind: L -/
theorem AccessBuffer.length_push {b b' : AccessBuffer} {fp : UInt64} {full : Bool}
    (h : b.push fp = .ok (full, b')) : b'.stripes.length = b.stripes.length := by
  rcases push_spec h with ⟨-, -, rfl⟩ | ⟨lane, -, -, -, -, rfl⟩
  · rfl
  · exact List.length_set

/-- Every step keeps the number of stripes.
Source: none
Kind: L -/
theorem Step.length_stripes {s s' : State ι} (hstep : Step s s') :
    s'.buf.stripes.length = s.buf.stripes.length := by
  cases hstep with
  | push r fp buf hr hpush => exact AccessBuffer.length_push hpush
  | fill r fp buf hr hpush => exact AccessBuffer.length_push hpush
  | take pass i buf hd hbuf => exact List.length_set
  | _ => rfl

/-- What a push does to the history.
Source: `internal/tinylfu/buffer.go` `accessBuffer.push`
Kind: L -/
theorem Step.appended_le {s s' : State ι} (hstep : Step s s') : s.appended <+: s'.appended := by
  have hpush : ∀ fp, s.appended <+: if s.buf.accepts fp then s.appended ++ [fp] else s.appended := by
    intro fp
    split_ifs
    · exact List.prefix_append _ _
    · exact List.prefix_rfl
  cases hstep with
  | push r fp buf hr h => exact hpush fp
  | fill r fp buf hr h => exact hpush fp
  | _ => exact List.prefix_rfl

/-- The drainer has taken the branch of `done`.
Source: `internal/tinylfu/policy.go` `Policy.drain`
Kind: D -/
def Drainer.Final : Drainer → Prop
  | .loading final | .loaded final _ => final = true
  | .lane pass _ | .folding pass _ _ | .counted pass _ _ => pass.final = true
  | .waiting => False
  | .exited => True

/-- It takes this branch only when `done` is closed, and keeps to it.
Source: `internal/tinylfu/policy.go` `Policy.drain`
Kind: L -/
theorem Step.final_iff {s s' : State ι} (hstep : Step s s') :
    s'.drainer.Final ↔ s.drainer.Final ∨ s.done = true ∧ s'.drainer = .loading true := by
  have hsame : ∀ {d d' : Drainer}, (d'.Final ↔ d.Final) → d' ≠ .loading true →
      (d'.Final ↔ d.Final ∨ s.done = true ∧ d' = .loading true) :=
    fun hiff hne => hiff.trans (or_iff_left fun h => hne h.2).symm
  have hkept : s.drainer.Final ↔ s.drainer.Final ∨ s.done = true ∧ s.drainer = .loading true := by
    refine (or_iff_left_of_imp fun h => ?_).symm
    rw [h.2]
    rfl
  cases hstep with
  | woken hd hwake =>
      rw [hd]
      exact ⟨nofun, by rintro (h | ⟨-, h⟩) <;> cases h⟩
  | ticked hd =>
      rw [hd]
      exact ⟨nofun, by rintro (h | ⟨-, h⟩) <;> cases h⟩
  | closed hd hdone => exact ⟨fun _ => Or.inr ⟨hdone, rfl⟩, fun _ => rfl⟩
  | loadSketch final hd =>
      rw [hd]
      exact hsame Iff.rfl nofun
  | loadDoorkeeper final sk hd =>
      rw [hd]
      exact hsame Iff.rfl nofun
  | take pass i buf hd hbuf =>
      rw [hd]
      exact hsame Iff.rfl nofun
  | first pass i fp rest hd hseen =>
      rw [hd]
      exact hsame Iff.rfl nofun
  | again pass i fp rest hd hseen =>
      rw [hd]
      exact hsame Iff.rfl nofun
  | age pass i rest hd =>
      rw [hd]
      exact hsame Iff.rfl nofun
  | next pass i hd =>
      rw [hd]
      exact hsame Iff.rfl nofun
  | finish pass i hd hend =>
      rw [hd]
      cases hfinal : pass.final with
      | true => exact hsame ⟨fun _ => hfinal, fun _ => trivial⟩ nofun
      | false => exact hsame ⟨nofun, fun h => absurd (hfinal.symm.trans h) (by decide)⟩ nofun
  | _ => exact hkept

/-- The last pass runs only after the policy is closed.
Source: `internal/tinylfu/policy.go` `Policy.drain`
Kind: L -/
theorem Step.final_done {s s' : State ι} (hstep : Step s s') (h : s.drainer.Final → s.done = true) :
    s'.drainer.Final → s'.done = true := by
  intro hfinal
  have hdone : s.done = true := (hstep.final_iff.mp hfinal).elim h And.left
  cases hstep with
  | close => rfl
  | _ => exact hdone

/-! ### The final pass -/

/-- How far the final pass has brought the samples `before`: those of the stripes behind it are
folded, and those of its stripe are folded or in the scratch copy.
Source: `internal/tinylfu/buffer.go` `accessBuffer.drainInto`
Kind: D -/
def Flushed (b : AccessBuffer) (before folded : List UInt64) : Drainer → Prop
  | .lane pass j => pass.final = true → ∀ i < j, b.ofStripe i before <+: b.ofStripe i folded
  | .folding pass j scratch | .counted pass j scratch => pass.final = true →
      (∀ i < j, b.ofStripe i before <+: b.ofStripe i folded) ∧
        b.ofStripe j before <+: b.ofStripe j folded ++ scratch
  | .exited => ∀ i < b.stripes.length, b.ofStripe i before <+: b.ofStripe i folded
  | _ => True

section steps

variable {b : AccessBuffer} {before appended folded : List UInt64} {pass : Pass} {i : ℕ}

/-- A longer history has a longer part of each stripe.
Source: `internal/tinylfu/buffer.go` `accessBuffer.drainInto`
Kind: L -/
theorem AccessBuffer.ofStripe_mono (b : AccessBuffer) (i : ℕ) {l l' : List UInt64}
    (h : l <+: l') : b.ofStripe i l <+: b.ofStripe i l' := h.filter _

/-- The stripe that is copied holds all of its samples that are not folded.
Source: `internal/tinylfu/buffer.go` `accessBuffer.drainInto`
Kind: L -/
theorem Flushed.take (h : Flushed b before folded (.lane pass i)) {lane : List UInt64}
    (hcons : Conserved b appended folded (.lane pass i)) (hbefore : before <+: appended)
    (hlane : b.stripes[i]? = some lane) :
    Flushed (b.clear i) before folded (.folding pass i lane) := by
  intro hfinal
  refine ⟨h hfinal, ?_⟩
  have horder : b.ofStripe i appended = b.ofStripe i folded ++ [] ++ lane :=
    hcons.order i lane hlane
  rw [List.append_nil] at horder
  have hprefix := b.ofStripe_mono i hbefore
  rw [horder] at hprefix
  exact hprefix

/-- The callback moves one sample from the scratch copy to the folded ones.
Source: `internal/tinylfu/policy.go` `Policy.drainOnce`
Kind: L -/
theorem Flushed.fold {fp : UInt64} {rest : List UInt64}
    (h : Flushed b before folded (.folding pass i (fp :: rest))) (hstripe : b.stripeOf fp = i) :
    Flushed b before (folded ++ [fp]) (.folding pass i rest) := by
  intro hfinal
  obtain ⟨hbehind, hown⟩ := h hfinal
  refine ⟨fun j hj => (hbehind j hj).trans (b.ofStripe_mono j (List.prefix_append _ _)), ?_⟩
  rw [b.ofStripe_append, if_pos hstripe, List.append_assoc]
  exact hown

/-- When a stripe is folded, the next one is taken.
Source: `internal/tinylfu/policy.go` `Policy.drainOnce`
Kind: L -/
theorem Flushed.next (h : Flushed b before folded (.folding pass i [])) :
    Flushed b before folded (.lane pass (i + 1)) := by
  intro hfinal j hj
  obtain ⟨hbehind, hown⟩ := h hfinal
  rcases Nat.lt_succ_iff_lt_or_eq.mp hj with hj | rfl
  · exact hbehind j hj
  · rw [List.append_nil] at hown
    exact hown

/-- Pushes change neither the stripe of a sample nor the number of stripes.
Source: `internal/tinylfu/buffer.go` `accessBuffer.push`
Kind: L -/
theorem Flushed.congr {b' : AccessBuffer} {d : Drainer} (h : Flushed b before folded d)
    (hmask : b'.mask = b.mask) (hlen : b'.stripes.length = b.stripes.length) :
    Flushed b' before folded d := by
  have hof : ∀ i l, b'.ofStripe i l = b.ofStripe i l := by
    intro i l
    unfold AccessBuffer.ofStripe AccessBuffer.stripeOf
    rw [hmask]
  cases d with
  | lane pass j =>
      intro hfinal i hi
      rw [hof, hof]
      exact h hfinal i hi
  | folding pass j scratch =>
      intro hfinal
      obtain ⟨hbehind, hown⟩ := h hfinal
      simp only [hof]
      exact ⟨hbehind, hown⟩
  | counted pass j scratch =>
      intro hfinal
      obtain ⟨hbehind, hown⟩ := h hfinal
      simp only [hof]
      exact ⟨hbehind, hown⟩
  | exited =>
      intro i hi
      rw [hof, hof]
      exact h i (hlen ▸ hi)
  | _ => trivial

end steps

/-- A fingerprint is folded from its own stripe.
Source: `internal/tinylfu/buffer.go` `accessBuffer.push`
Kind: L -/
theorem Conserved.stripeOf_head {b : AccessBuffer} {appended folded rest : List UInt64} {pass : Pass}
    {i : ℕ} {fp : UInt64} (h : Conserved b appended folded (.folding pass i (fp :: rest))) :
    b.stripeOf fp = i := by
  refine h.scratch_home i fp ?_
  rw [Drainer.scratchOf_folding, if_pos rfl]
  exact List.mem_cons_self

/-- One step of any goroutine.
Source: `internal/tinylfu/policy.go` `Policy`
Kind: L -/
theorem Flushed.step {s s' : State ι} {before : List UInt64}
    (h : Flushed s.buf before s.folded s.drainer)
    (hcons : Conserved s.buf s.appended s.folded s.drainer) (hbefore : before <+: s.appended)
    (hstep : Step s s') : Flushed s'.buf before s'.folded s'.drainer := by
  have hshape := hstep.shape.1
  have hlen := hstep.length_stripes
  cases hstep with
  | push r fp buf hr hpush => exact h.congr hshape hlen
  | fill r fp buf hr hpush => exact h.congr hshape hlen
  | loadDoorkeeper final sk hd => exact fun _ i hi => absurd hi (Nat.not_lt_zero i)
  | take pass i buf hd hbuf =>
      rw [hd] at h hcons
      exact h.take hcons hbefore hbuf
  | first pass i fp rest hd hseen =>
      rw [hd] at h hcons
      exact h.fold hcons.stripeOf_head
  | again pass i fp rest hd hseen =>
      rw [hd] at h hcons
      exact h.fold hcons.stripeOf_head
  | age pass i rest hd =>
      rw [hd] at h
      exact h
  | next pass i hd =>
      rw [hd] at h
      exact h.next
  | finish pass i hd hend =>
      rw [hd] at h
      cases hfinal : pass.final with
      | true => exact fun j hj => h hfinal j (hj.trans_le hend)
      | false => trivial
  | woken hd hwake => trivial
  | ticked hd => trivial
  | closed hd hdone => trivial
  | loadSketch final hd => trivial
  | _ => exact h

/-! ### The drainer's own steps -/

/-- What is left of a pass over `lanes` stripes.
Source: `internal/tinylfu/policy.go` `Policy.drainOnce`
Kind: D -/
def Drainer.rank (lanes depth : ℕ) : Drainer → ℕ
  | .waiting | .exited => 0
  | .loading _ => lanes * (2 * depth + 2) + 3
  | .loaded _ _ => lanes * (2 * depth + 2) + 2
  | .lane _ i => (lanes - i) * (2 * depth + 2) + 1
  | .folding _ i scratch => (lanes - (i + 1)) * (2 * depth + 2) + 2 + 2 * scratch.length
  | .counted _ i scratch => (lanes - (i + 1)) * (2 * depth + 2) + 3 + 2 * scratch.length

/-- Source: none
Kind: D -/
def State.rank (s : State ι) : ℕ := s.drainer.rank s.buf.stripes.length s.buf.depth

/-- The rank of a pass at a stripe that is still to be drained.
Source: none
Kind: L -/
theorem Drainer.rank_lane {lanes depth i : ℕ} (pass : Pass) (hi : i < lanes) :
    (Drainer.lane pass i).rank lanes depth =
      (lanes - (i + 1)) * (2 * depth + 2) + (2 * depth + 2) + 1 := by
  have hsub : lanes - i = (lanes - (i + 1)) + 1 := by omega
  rw [Drainer.rank, hsub, Nat.succ_mul]

/-- A step of the drainer inside its pass.
Source: `internal/tinylfu/policy.go` `Policy.drainOnce`
Kind: D -/
def OwnStep (s s' : State ι) : Prop :=
  Step s s' ∧ s.drainer ≠ .waiting ∧ s'.drainer ≠ s.drainer

/-- It brings the pass nearer to its end. A stripe holds at most `depth` samples, so its copy does
not depend on what the readers push meanwhile.
Source: `internal/tinylfu/policy.go` `Policy.drainOnce`
Kind: L -/
theorem OwnStep.rank_lt {s s' : State ι} (h : OwnStep s s')
    (hcons : Conserved s.buf s.appended s.folded s.drainer) : s'.rank < s.rank := by
  obtain ⟨hstep, hpass, hmove⟩ := h
  unfold State.rank
  rw [hstep.length_stripes, hstep.shape.2]
  cases hstep with
  | woken hd hwake => exact absurd hd hpass
  | ticked hd => exact absurd hd hpass
  | closed hd hdone => exact absurd hd hpass
  | loadSketch final hd =>
      rw [hd]
      exact Nat.lt_succ_self _
  | loadDoorkeeper final sk hd =>
      rw [hd]
      exact Nat.lt_succ_self _
  | take pass i buf hd hbuf =>
      have hlen := hcons.depth_le i buf hbuf
      rw [hd, Drainer.rank_lane pass (List.getElem?_eq_some_iff.mp hbuf).1]
      simp only [Drainer.rank]
      omega
  | first pass i fp rest hd hseen =>
      rw [hd]
      simp only [Drainer.rank, List.length_cons]
      omega
  | again pass i fp rest hd hseen =>
      rw [hd]
      simp only [Drainer.rank, List.length_cons]
      omega
  | age pass i rest hd =>
      rw [hd]
      simp only [Drainer.rank]
      omega
  | next pass i hd =>
      rw [hd]
      simp only [Drainer.rank, List.length_nil]
      omega
  | finish pass i hd hend =>
      rw [hd]
      cases hfinal : pass.final with
      | true => exact Nat.succ_pos _
      | false => exact Nat.succ_pos _
  | _ => exact absurd rfl hmove

/-- Inside its pass the drainer can always go on.
Source: `internal/tinylfu/policy.go` `Policy.drainOnce`
Kind: L -/
theorem exists_ownStep (s : State ι) (hwaiting : s.drainer ≠ .waiting)
    (hexited : s.drainer ≠ .exited) : ∃ s', OwnStep s s' := by
  cases hd : s.drainer with
  | waiting => exact absurd hd hwaiting
  | exited => exact absurd hd hexited
  | loading final => exact ⟨_, .loadSketch s final hd, hwaiting, by rw [hd]; nofun⟩
  | loaded final sk => exact ⟨_, .loadDoorkeeper s final sk hd, hwaiting, by rw [hd]; nofun⟩
  | lane pass i =>
      by_cases hi : i < s.buf.stripes.length
      · exact ⟨_, .take s pass i _ hd (List.getElem?_eq_getElem hi), hwaiting, by rw [hd]; nofun⟩
      · refine ⟨_, .finish s pass i hd (not_lt.mp hi), hwaiting, ?_⟩
        rw [hd]
        cases hfinal : pass.final with
        | true => nofun
        | false => nofun
  | folding pass i scratch =>
      cases scratch with
      | nil => exact ⟨_, .next s pass i hd, hwaiting, by rw [hd]; nofun⟩
      | cons fp rest =>
          cases hseen : ((s.doorkeepers.read pass.dk).putOrHas fp).1 with
          | true => exact ⟨_, .again s pass i fp rest hd hseen, hwaiting, by rw [hd]; nofun⟩
          | false =>
              refine ⟨_, .first s pass i fp rest hd hseen, hwaiting, ?_⟩
              rw [hd]
              intro heq
              injection heq with _ _ hrest
              exact absurd hrest.symm (List.cons_ne_self fp rest)
  | counted pass i rest => exact ⟨_, .age s pass i rest hd, hwaiting, by rw [hd]; nofun⟩

/-- Any run in which the drainer does not start a pass, with the number of its own steps.
Source: none
Kind: D -/
inductive Passing : State ι → ℕ → State ι → Prop where
  | refl (s : State ι) : Passing s 0 s
  | other {s s' s'' : State ι} {n : ℕ} (h : Passing s n s') (hstep : Step s' s'')
      (hd : s''.drainer = s'.drainer) : Passing s n s''
  | own {s s' s'' : State ι} {n : ℕ} (h : Passing s n s') (hstep : OwnStep s' s'') :
      Passing s (n + 1) s''

/-- Each step of a pass is paid for by its rank.
Source: none
Kind: L -/
theorem Passing.rank_le {s s' : State ι} {n : ℕ} (h : Passing s n s')
    (hcons : Conserved s.buf s.appended s.folded s.drainer) :
    Conserved s'.buf s'.appended s'.folded s'.drainer ∧ s'.rank + n ≤ s.rank := by
  induction h with
  | refl => exact ⟨hcons, le_rfl⟩
  | other _ hstep hd ih =>
      obtain ⟨hcons', hle⟩ := ih
      refine ⟨hcons'.step hstep, ?_⟩
      unfold State.rank at hle ⊢
      rw [hstep.length_stripes, hstep.shape.2, hd]
      exact hle
  | own _ hstep ih =>
      obtain ⟨hcons', hle⟩ := ih
      have hlt := hstep.rank_lt hcons'
      exact ⟨hcons'.step hstep.1, by omega⟩

/-- **A pass of the drainer ends.** In every run from the start of a pass, final or not, whatever the
readers and the calls of `Resize` do meanwhile, the drainer makes no more of its own steps than the
size of the buffer allows, and until it is back at the select or has returned it can make one.
Source: `internal/tinylfu/policy.go` `Policy.drain`, `Policy.drainOnce`
Kind: P
Fidelity: exact -/
theorem drain_pass_ends (stripes depth : Int64) (f : Frequency) (s s' : State ι) (final : Bool)
    (n : ℕ) (hreach : Reachable (start (newAccessBuffer stripes depth) f) s)
    (hd : s.drainer = .loading final) (hrun : Passing s n s') :
    n ≤ s.buf.stripes.length * (2 * s.buf.depth + 2) + 3 ∧
      (s'.drainer = .waiting ∨ s'.drainer = .exited ∨ ∃ s'', OwnStep s' s'') := by
  have hcons : Conserved s.buf s.appended s.folded s.drainer :=
    hreach.invariant (I := fun s => Conserved s.buf s.appended s.folded s.drainer)
      (fun _ _ h hs => h.step hs) (conserved_start stripes depth)
  have hrank : s.rank = s.buf.stripes.length * (2 * s.buf.depth + 2) + 3 := by
    unfold State.rank
    rw [hd, Drainer.rank]
  refine ⟨?_, ?_⟩
  · rw [← hrank]
    exact le_trans (Nat.le_add_left n _) (hrun.rank_le hcons).2
  · by_cases hwaiting : s'.drainer = .waiting
    · exact Or.inl hwaiting
    by_cases hexited : s'.drainer = .exited
    · exact Or.inr (Or.inl hexited)
    · exact Or.inr (Or.inr (exists_ownStep s' hwaiting hexited))

/-- The ticker starts a pass over two stripes of depth three.
Source: `internal/tinylfu/policy.go` `Policy.drain`
Kind: C -/
theorem drain_pass_ends_ticked :
    ∃ (f : Frequency) (s : State Unit), newFrequency ⟨16, 2, 3, 7⟩ = .ok f ∧
      Reachable (start (newAccessBuffer 2 3) f) s ∧ s.drainer = .loading false ∧
      ∀ n s', Passing s n s' → n ≤ 19 := by
  obtain ⟨f, hf⟩ : ∃ f, newFrequency ⟨16, 2, 3, 7⟩ = .ok f := ⟨_, rfl⟩
  have hrun : Reachable (start (newAccessBuffer 2 3) f : State Unit) _ :=
    .head (.ticked _ rfl) .refl
  exact ⟨f, _, hf, hrun, rfl, fun n s' h =>
    (drain_pass_ends 2 3 f _ s' false n hrun rfl h).1⟩

/-- The drainer can return once it has taken the branch of `done`.
Source: `internal/tinylfu/policy.go` `Policy.Close`
Kind: L -/
theorem exists_exit {s : State ι} (hcons : Conserved s.buf s.appended s.folded s.drainer)
    (hfinal : s.drainer.Final) : ∃ s', Reachable s s' ∧ s'.drainer = .exited := by
  have hstep : ∀ a b : State ι,
      (Conserved a.buf a.appended a.folded a.drainer ∧ a.drainer.Final) → OwnStep a b →
        (Conserved b.buf b.appended b.folded b.drainer ∧ b.drainer.Final) ∧ b.rank < a.rank := by
    rintro a b ⟨hcons, hfinal⟩ hown
    exact ⟨⟨hcons.step hown.1, hown.1.final_iff.mpr (Or.inl hfinal)⟩, hown.rank_lt hcons⟩
  obtain ⟨s', hrun, hrest⟩ := exists_rest hstep ⟨hcons, hfinal⟩
  have hreach : Reachable s s' := Relation.ReflTransGen.mono (fun _ _ h => h.1) s s' hrun
  have hfinal' : s'.drainer.Final :=
    hreach.invariant (I := fun s => s.drainer.Final)
      (fun _ _ h hs => hs.final_iff.mpr (Or.inl h)) hfinal
  refine ⟨s', hreach, ?_⟩
  by_contra hexited
  have hwaiting : s'.drainer ≠ .waiting := by
    intro hd
    rw [hd] at hfinal'
    exact hfinal'
  obtain ⟨s'', hown⟩ := exists_ownStep s' hwaiting hexited
  exact hrest s'' hown

/-! ### `Close` -/

/-- Every accepted sample has a stripe.
Source: `internal/tinylfu/buffer.go` `accessBuffer.push`
Kind: D -/
def Homed (s : State ι) : Prop := ∀ fp ∈ s.appended, s.buf.stripeOf fp < s.buf.stripes.length

/-- Every step keeps the fingerprints in their stripes.
Source: `internal/tinylfu/buffer.go` `accessBuffer.push`
Kind: L -/
theorem Homed.step {s s' : State ι} (h : Homed s) (hstep : Step s s') : Homed s' := by
  have hpush : ∀ {fp : UInt64} {full : Bool} {buf : AccessBuffer},
      s.buf.push fp = .ok (full, buf) →
        ∀ x ∈ if s.buf.accepts fp then s.appended ++ [fp] else s.appended,
          s.buf.stripeOf x < s.buf.stripes.length := by
    intro fp full buf hpush x hx
    rcases AccessBuffer.push_spec hpush with ⟨haccepts, -, -⟩ | ⟨lane, hlane, -, -, -, -⟩
    · rw [haccepts] at hx
      exact h x hx
    · split_ifs at hx
      · rcases List.mem_append.mp hx with hx | hx
        · exact h x hx
        · rw [List.mem_singleton.mp hx]
          exact (List.getElem?_eq_some_iff.mp hlane).1
      · exact h x hx
  have hmask := hstep.shape.1
  have hlen := hstep.length_stripes
  unfold Homed AccessBuffer.stripeOf at *
  rw [hmask, hlen]
  cases hstep with
  | push r fp buf hr h' => exact hpush h'
  | fill r fp buf hr h' => exact hpush h'
  | _ => exact h

/-- What the samples of each stripe tell about all of them.
Source: none
Kind: L -/
theorem AccessBuffer.count_ofStripe (b : AccessBuffer) (l : List UInt64) (x : UInt64) :
    (b.ofStripe (b.stripeOf x) l).count x = l.count x :=
  List.count_filter (decide_eq_true rfl)

/-- **`Close` loses no sample.** Whatever the readers and the calls of `Resize` do before, during and
after `Close`: when the drainer has returned, the samples that were accepted before `Close` are
folded, each as often as it was accepted, and those of one stripe in the order of their pushes and
before any later one.
Source: `internal/tinylfu/policy.go` `Policy.Close`, `Policy.drain`
Kind: P
Fidelity: exact -/
theorem close_flushes (stripes depth : Int64) (f : Frequency) (s₁ s₂ : State ι)
    (hreach : Reachable (start (newAccessBuffer stripes depth) f) s₁) (hopen : s₁.done = false)
    (hclose : Reachable { s₁ with done := true } s₂) (hexit : s₂.drainer = .exited) :
    (∀ x, s₁.appended.count x ≤ s₂.folded.count x) ∧
      ∀ i < s₂.buf.stripes.length,
        (newAccessBuffer stripes depth).ofStripe i s₁.appended <+:
          (newAccessBuffer stripes depth).ofStripe i s₂.folded := by
  have hstart : Conserved s₁.buf s₁.appended s₁.folded s₁.drainer ∧
      (s₁.drainer.Final → s₁.done = true) ∧ Homed s₁ := by
    refine hreach.invariant (I := fun s => Conserved s.buf s.appended s.folded s.drainer ∧
      (s.drainer.Final → s.done = true) ∧ Homed s) ?_ ?_
    · rintro s s' ⟨hcons, hfinal, hhomed⟩ hstep
      exact ⟨hcons.step hstep, hstep.final_done hfinal, hhomed.step hstep⟩
    · exact ⟨conserved_start stripes depth, nofun, nofun⟩
  obtain ⟨hcons₁, hfinal₁, hhomed₁⟩ := hstart
  have hnot : ¬s₁.drainer.Final := by
    intro hfinal
    rw [hfinal₁ hfinal] at hopen
    cases hopen
  -- Before `Close` no pass is the final one, so there is nothing to check.
  have hflushed₁ : Flushed s₁.buf s₁.appended s₁.folded s₁.drainer := by
    cases hd : s₁.drainer with
    | lane pass j => exact fun hfinal => absurd (hd ▸ hfinal) hnot
    | folding pass j scratch => exact fun hfinal => absurd (hd ▸ hfinal) hnot
    | counted pass j scratch => exact fun hfinal => absurd (hd ▸ hfinal) hnot
    | exited => exact absurd (hd ▸ trivial) hnot
    | _ => trivial
  have hend : Conserved s₂.buf s₂.appended s₂.folded s₂.drainer ∧ s₁.appended <+: s₂.appended ∧
      Flushed s₂.buf s₁.appended s₂.folded s₂.drainer ∧
      s₂.buf.stripes.length = s₁.buf.stripes.length := by
    refine hclose.invariant (I := fun s => Conserved s.buf s.appended s.folded s.drainer ∧
      s₁.appended <+: s.appended ∧ Flushed s.buf s₁.appended s.folded s.drainer ∧
      s.buf.stripes.length = s₁.buf.stripes.length) ?_ ?_
    · rintro s s' ⟨hcons, hbefore, hflushed, hlen⟩ hstep
      exact ⟨hcons.step hstep, hbefore.trans hstep.appended_le,
        hflushed.step hcons hbefore hstep, hstep.length_stripes.trans hlen⟩
    · exact ⟨hcons₁, List.prefix_rfl, hflushed₁, rfl⟩
  obtain ⟨-, -, hflushed, hlen⟩ := hend
  rw [hexit] at hflushed
  have hmask := hclose.shape.1
  refine ⟨fun x => ?_, fun i hi => ?_⟩
  · by_cases hx : x ∈ s₁.appended
    · have hhome := hhomed₁ x hx
      have hprefix := hflushed (s₂.buf.stripeOf x) (by
        rw [hlen]
        unfold AccessBuffer.stripeOf at hhome ⊢
        rw [hmask]
        exact hhome)
      rw [← s₂.buf.count_ofStripe s₁.appended x, ← s₂.buf.count_ofStripe s₂.folded x]
      exact hprefix.sublist.count_le x
    · rw [List.count_eq_zero.mpr hx]
      exact Nat.zero_le _
  · have hsame : ∀ l, s₂.buf.ofStripe i l = (newAccessBuffer stripes depth).ofStripe i l := by
      intro l
      unfold AccessBuffer.ofStripe AccessBuffer.stripeOf
      rw [hmask.trans hreach.shape.1]
      rfl
    rw [← hsame, ← hsame]
    exact hflushed i hi

/-- One stripe: a reader pushes, `Close` is called, the drainer makes its final pass and returns.
Source: `internal/tinylfu/policy.go` `Policy.Close`
Kind: C -/
theorem close_flushes_pushed :
    ∃ (f : Frequency) (s₁ s₂ : State Unit), newFrequency ⟨16, 1, 2, 7⟩ = .ok f ∧
      Reachable (start (newAccessBuffer 1 2) f) s₁ ∧ s₁.appended = [5] ∧
      Reachable { s₁ with done := true } s₂ ∧ s₂.drainer = .exited ∧
      s₁.appended.count 5 ≤ s₂.folded.count 5 := by
  obtain ⟨f, hf⟩ : ∃ f, newFrequency ⟨16, 1, 2, 7⟩ = .ok f := ⟨_, rfl⟩
  have hpush : (newAccessBuffer 1 2).push 5 = .ok (false, ⟨[[5]], 0, 2⟩) := rfl
  have haccepts : (newAccessBuffer 1 2).accepts 5 = true := rfl
  obtain ⟨s₁, hrun, hopen, happended, hwaiting⟩ : ∃ s₁ : State Unit,
      Reachable (start (newAccessBuffer 1 2) f) s₁ ∧ s₁.done = false ∧ s₁.appended = [5] ∧
        s₁.drainer = .waiting := by
    have hrun : Reachable (start (newAccessBuffer 1 2) f : State Unit) _ :=
      .head (.setActive _ true) <|
      .head (.record _ () 5 rfl rfl) <|
      .head (.push _ () 5 _ rfl hpush) .refl
    exact ⟨_, hrun, rfl, if_pos haccepts, rfl⟩
  have hcons := hrun.invariant (I := fun s => Conserved s.buf s.appended s.folded s.drainer)
    (fun _ _ h hs => h.step hs) (conserved_start 1 2)
  have hfinal := Step.closed { s₁ with done := true } hwaiting rfl
  obtain ⟨s₂, hrest, hexit⟩ := exists_exit (hcons.step (.close s₁) |>.step hfinal) rfl
  have hclose : Reachable { s₁ with done := true } s₂ := .head hfinal hrest
  exact ⟨f, s₁, s₂, hf, hrun, happended, hclose, hexit,
    (close_flushes 1 2 f s₁ s₂ hrun hopen hclose hexit).1 5⟩

end CacheMoney.Tinylfu
