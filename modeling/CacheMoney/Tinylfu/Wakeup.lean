import CacheMoney.Tinylfu.Drainer

/-!
# No wake-up is lost

A full stripe drops every further sample and does not signal again, and the send on `wake` is dropped
when the slot is taken. So for each full stripe something must already be on its way: a token in the
channel, the send of the push that filled it, or a pass that still has the stripe before it.

* `Roused`: that disjunction, for every full stripe.
* A token is consumed before the pass reads the first stripe, so the pass takes over from the token
  for every stripe; a stripe it empties is not full, and filling it again starts a new send.
-/

set_option linter.unusedSectionVars false

namespace CacheMoney.Tinylfu

open CacheMoney.Found

variable {ι : Type} [DecidableEq ι]

/-- Source: none
Kind: D -/
def Roused (b : AccessBuffer) (wake : Bool) (readers : ι → Reader) (fills : ℕ → ℕ) (d : Drainer) :
    Prop :=
  ∀ (i : ℕ) (buf : List UInt64), b.stripes[i]? = some buf → b.depth ≤ buf.length →
    wake = true ∨ (∃ r, readers r = .signalling i (fills i)) ∨ d.Due i

section steps

variable {b : AccessBuffer} {wake : Bool} {readers : ι → Reader} {fills : ℕ → ℕ} {d : Drainer}

/-- A reader that has no send before it moves.
Source: `internal/tinylfu/policy.go` `Policy.Record`
Kind: L -/
theorem Roused.move (h : Roused b wake readers fills d) {r : ι}
    (hr : ∀ i n, readers r ≠ .signalling i n) (x : Reader) :
    Roused b wake (Function.update readers r x) fills d := by
  intro i buf hi hfull
  rcases h i buf hi hfull with hwake | ⟨r', hr'⟩ | hdue
  · exact Or.inl hwake
  · refine Or.inr (Or.inl ⟨r', ?_⟩)
    have hne : r' ≠ r := by
      rintro rfl
      exact hr i (fills i) hr'
    rw [Function.update_of_ne hne]
    exact hr'
  · exact Or.inr (Or.inr hdue)

/-- The drainer moves on to a place where every stripe is due that was.
Source: `internal/tinylfu/policy.go` `Policy.drain`
Kind: L -/
theorem Roused.advance (h : Roused b wake readers fills d) {d' : Drainer}
    (hd : ∀ i < b.stripes.length, d.Due i → d'.Due i) : Roused b wake readers fills d' := by
  intro i buf hi hfull
  rcases h i buf hi hfull with hwake | hsend | hdue
  · exact Or.inl hwake
  · exact Or.inr (Or.inl hsend)
  · exact Or.inr (Or.inr (hd i (List.getElem?_eq_some_iff.mp hi).1 hdue))

/-- A push that did not fill its stripe makes no stripe full.
Source: `internal/tinylfu/buffer.go` `accessBuffer.push`
Kind: L -/
theorem Roused.push (h : Roused b wake readers fills d) {fp : UInt64} {b' : AccessBuffer}
    (hpush : b.push fp = .ok (false, b')) : Roused b' wake readers fills d := by
  rcases AccessBuffer.push_spec hpush with ⟨-, -, rfl⟩ | ⟨lane, -, -, -, hroom, rfl⟩
  · exact h
  · intro i buf hi hfull
    rcases AccessBuffer.getElem?_set_cases hi with ⟨-, rfl⟩ | ⟨-, hi⟩
    · -- Its own stripe still has room.
      rw [List.length_append] at hfull
      exact absurd hfull (of_decide_eq_false hroom.symm)
    · exact h i buf hi hfull

/-- A push that fills its stripe has its send before it.
Source: `internal/tinylfu/buffer.go` `accessBuffer.push`
Kind: L -/
theorem Roused.fill (h : Roused b wake readers fills d) {r : ι} {fp : UInt64} {b' : AccessBuffer}
    (hr : readers r = .pushing fp) (hpush : b.push fp = .ok (true, b')) :
    Roused b' wake
      (Function.update readers r (.signalling (b.stripeOf fp) (fills (b.stripeOf fp) + 1)))
      (Function.update fills (b.stripeOf fp) (fills (b.stripeOf fp) + 1)) d := by
  rcases AccessBuffer.push_spec hpush with ⟨-, hfalse, -⟩ | ⟨lane, -, -, -, -, rfl⟩
  · cases hfalse
  · intro i buf hi hfull
    rcases AccessBuffer.getElem?_set_cases hi with ⟨rfl, rfl⟩ | ⟨hne, hi⟩
    · refine Or.inr (Or.inl ⟨r, ?_⟩)
      rw [Function.update_self, Function.update_self]
    · have hother := h.move (r := r) (fun i n => by rw [hr]; nofun)
        (.signalling (b.stripeOf fp) (fills (b.stripeOf fp) + 1)) i buf hi hfull
      rw [Function.update_of_ne hne]
      exact hother

/-- Taking a stripe leaves room in it, so no wake-up is owed for it.
Source: `internal/tinylfu/buffer.go` `accessBuffer.drainInto`
Kind: L -/
theorem Roused.take (hdepth : 0 < b.depth) {pass : Pass} {i : ℕ} {lane : List UInt64}
    (h : Roused b wake readers fills (.lane pass i)) :
    Roused (b.clear i) wake readers fills (.folding pass i lane) := by
  intro j buf hj hfull
  rcases AccessBuffer.getElem?_set_cases hj with ⟨-, rfl⟩ | ⟨hne, hj⟩
  · exact absurd hfull (Nat.not_le.mpr hdepth)
  · rcases h j buf hj hfull with hwake | hsend | hdue
    · exact Or.inl hwake
    · exact Or.inr (Or.inl hsend)
    · exact Or.inr (Or.inr (Nat.lt_of_le_of_ne hdue (Ne.symm hne)))

end steps

/-- One step leaves no full stripe without a wake-up.
Source: `internal/tinylfu/policy.go` `Policy`
Kind: L -/
theorem Roused.step {s s' : State ι} (hdepth : 0 < s.buf.depth)
    (h : Roused s.buf s.wake s.readers s.fills s.drainer) (hstep : Step s s') :
    Roused s'.buf s'.wake s'.readers s'.fills s'.drainer := by
  cases hstep with
  | record r fp hr hactive => exact h.move (fun i n => by rw [hr]; nofun) _
  | contended r fp hr => exact h.move (fun i n => by rw [hr]; nofun) _
  | push r fp buf hr hpush => exact (h.push hpush).move (fun i n => by rw [hr]; nofun) _
  | fill r fp buf hr hpush => exact h.fill hr hpush
  | send r i n hr => exact fun _ _ _ _ => Or.inl rfl
  | woken hd hwake => exact fun _ _ _ _ => Or.inr (Or.inr trivial)
  | ticked hd => exact fun _ _ _ _ => Or.inr (Or.inr trivial)
  | closed hd hdone => exact fun _ _ _ _ => Or.inr (Or.inr trivial)
  | loadSketch final hd => exact fun _ _ _ _ => Or.inr (Or.inr trivial)
  | loadDoorkeeper final sk hd => exact fun i _ _ _ => Or.inr (Or.inr (Nat.zero_le i))
  | take pass i buf hd hbuf =>
      rw [hd] at h
      exact h.take hdepth
  | first pass i fp rest hd hseen =>
      rw [hd] at h
      exact h.advance fun _ _ hdue => hdue
  | again pass i fp rest hd hseen =>
      rw [hd] at h
      exact h.advance fun _ _ hdue => hdue
  | age pass i rest hd =>
      rw [hd] at h
      exact h.advance fun _ _ hdue => hdue
  | next pass i hd =>
      rw [hd] at h
      exact h.advance fun _ _ hdue => Nat.succ_le_of_lt hdue
  | finish pass i hd hend =>
      rw [hd] at h
      -- No stripe is left before the end of the pass.
      exact h.advance fun j hj hdue => absurd (hend.trans hdue) (Nat.not_le.mpr hj)
  | setActive => exact h
  | resizeSketch => exact h
  | resizeDoorkeeper => exact h
  | close => exact h

/-- In every reachable state with a full stripe, a token is in the wake channel, or the call to
`Record` whose push filled the stripe has not sent yet, or the drainer is inside a pass that has not
yet emptied the stripe. The runs include those in which the ticker never fires.
Source: `internal/tinylfu/policy.go` `Policy.Record`
Kind: P
Fidelity: exact -/
theorem no_wakeup_lost (stripes depth : Int64) (f : Frequency) (s : State ι)
    (hreach : Reachable (start (newAccessBuffer stripes depth) f) s) (i : ℕ) (buf : List UInt64)
    (hbuf : s.buf.stripes[i]? = some buf) (hfull : s.buf.depth ≤ buf.length) :
    s.wake = true ∨ (∃ r, s.readers r = .signalling i (s.fills i)) ∨ s.drainer.Due i := by
  have hpos := AccessBuffer.newAccessBuffer_depth_pos stripes depth
  have h : 0 < s.buf.depth ∧ Roused s.buf s.wake s.readers s.fills s.drainer := by
    refine hreach.invariant
      (I := fun s => 0 < s.buf.depth ∧ Roused s.buf s.wake s.readers s.fills s.drainer) ?_ ?_
    · rintro t t' ⟨hdepth, hroused⟩ hstep
      exact ⟨hstep.shape.2 ▸ hdepth, hroused.step hdepth hstep⟩
    · refine ⟨hpos, fun j lane hlane hlen => ?_⟩
      rw [AccessBuffer.eq_nil_of_newAccessBuffer hlane] at hlen
      exact absurd hlen (Nat.not_le.mpr hpos)
  exact h.2 i buf hbuf hfull

/-- A reader fills the only stripe and has not sent yet.
Source: `internal/tinylfu/policy.go` `Policy.Record`
Kind: C -/
theorem no_wakeup_lost_filled :
    ∃ (f : Frequency) (s : State Unit), newFrequency ⟨16, 1, 1, 7⟩ = .ok f ∧
      Reachable (start (newAccessBuffer 1 1) f) s ∧
      s.buf.stripes[0]? = some [5] ∧ s.buf.depth ≤ [5].length ∧
      (s.wake = true ∨ (∃ r, s.readers r = .signalling 0 (s.fills 0)) ∨ s.drainer.Due 0) := by
  obtain ⟨f, hf⟩ : ∃ f, newFrequency ⟨16, 1, 1, 7⟩ = .ok f := ⟨_, rfl⟩
  have hpush : (newAccessBuffer 1 1).push 5 = .ok (true, ⟨[[5]], 0, 1⟩) := rfl
  have hrun : Reachable (start (newAccessBuffer 1 1) f : State Unit) _ :=
    .head (.setActive _ true) <|
    .head (.record _ () 5 rfl rfl) <|
    .head (.fill _ () 5 _ rfl hpush) .refl
  exact ⟨f, _, hf, hrun, rfl, Nat.le_refl _,
    no_wakeup_lost 1 1 f _ hrun 0 [5] rfl (Nat.le_refl _)⟩

end CacheMoney.Tinylfu
