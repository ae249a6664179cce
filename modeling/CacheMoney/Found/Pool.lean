import Mathlib.Algebra.BigOperators.Group.Finset.Basic
import Mathlib.Data.Fintype.Basic
import Mathlib.Logic.Relation
import Mathlib.Tactic.Ring
import CacheMoney.Found.Prog

/-!
# Interleaved programs

Finitely many clients share a world. A client is idle or in the middle of a program; a step
starts a program, performs the next action of one client, or ends a program that has returned.
The actions are atomic and nothing else is: the steps of different clients come in any order.

* `Pool.Step`, `Pool.Reachable`: the interleaving semantics, with the last action of each client.
* `Pool.invariant`: an invariant of every step holds in every reachable state.
* The ledger: a counter that is settled after the fact. `incur e r` is the change an action makes
  to the measured total, `due e` the amount it adds to the counter. `Prog.Settles` says that a
  program pays every change with its very next action; then counter plus pending changes is
  the total, in every reachable state (`Pool.balanced`).
-/

set_option linter.unusedSectionVars false

namespace CacheMoney.Found

variable {E : Type} {R : E → Type} {α β W ι : Type}

/-! ### The pool -/

/-- A client in the middle of a program.
Source: none
Kind: D -/
structure Thread (E : Type) (R : E → Type) (α : Type) where
  prog : Prog E R α
  /-- The last action it completed in this program, with the answer. -/
  last : Option (Σ e, R e) := none

/-- Source: none
Kind: D -/
structure Pool (ι E : Type) (R : E → Type) (α W : Type) where
  world : W
  /-- `none` for an idle client. -/
  threads : ι → Option (Thread E R α)

variable [DecidableEq ι]

/-- One step of the pool. `calls` are the programs a client may start.
Source: none
Kind: D -/
inductive Pool.Step (exec : (e : E) → W → Outcome (R e × W)) (calls : Prog E R α → Prop) :
    Pool ι E R α W → Pool ι E R α W → Prop where
  | invoke (s : Pool ι E R α W) (i : ι) (p : Prog E R α) (hidle : s.threads i = none)
      (hp : calls p) :
      Step exec calls s { s with threads := Function.update s.threads i (some ⟨p, none⟩) }
  | act (s : Pool ι E R α W) (i : ι) (e : E) (next : R e → Prog E R α) (last : Option (Σ e, R e))
      (r : R e) (w : W) (hi : s.threads i = some ⟨.act e next, last⟩)
      (hexec : exec e s.world = .ok (r, w)) :
      Step exec calls s ⟨w, Function.update s.threads i (some ⟨next r, some ⟨e, r⟩⟩)⟩
  | finish (s : Pool ι E R α W) (i : ι) (a : α) (last : Option (Σ e, R e))
      (hi : s.threads i = some ⟨.ret a, last⟩) :
      Step exec calls s { s with threads := Function.update s.threads i none }

/-- Source: none
Kind: D -/
def Pool.Reachable (exec : (e : E) → W → Outcome (R e × W)) (calls : Prog E R α → Prop)
    (s₀ s : Pool ι E R α W) : Prop :=
  Relation.ReflTransGen (Pool.Step exec calls) s₀ s

/-- The invariant rule.
Source: none
Kind: L -/
theorem Pool.invariant {exec : (e : E) → W → Outcome (R e × W)} {calls : Prog E R α → Prop}
    {I : Pool ι E R α W → Prop} (hstep : ∀ s s', I s → Pool.Step exec calls s s' → I s')
    {s₀ s : Pool ι E R α W} (h₀ : I s₀) (hreach : Pool.Reachable exec calls s₀ s) : I s := by
  induction hreach with
  | refl => exact h₀
  | tail _ hs ih => exact hstep _ _ ih hs

/-! ### A ledger settled after the fact -/

section ledger

variable (due : E → ℤ) (incur : (e : E) → R e → ℤ)

/-- The program pays `owed` with its next action, and every change it makes with the action
right after it.
Source: none
Kind: D -/
def Prog.Settles : ℤ → Prog E R α → Prop
  | owed, .ret _ => owed = 0
  | owed, .stop => owed = 0
  | owed, .act e next => owed = due e ∧ ∀ r, (next r).Settles (incur e r)

/-- The change that the client's last action made and that it has not settled yet.
Source: none
Kind: D -/
def Thread.pending : Option (Thread E R α) → ℤ
  | some ⟨_, some ⟨e, r⟩⟩ => incur e r
  | _ => 0

variable {due incur}

/-- A program settles what is owed if its first part does, and the second settles its own.
Source: none
Kind: L -/
theorem Prog.Settles.bind {owed : ℤ} {p : Prog E R α} {f : α → Prog E R β}
    (hp : p.Settles due incur owed) (hf : ∀ a, (f a).Settles due incur 0) :
    (p >>= f).Settles due incur owed := by
  induction p generalizing owed with
  | ret a =>
      obtain rfl : owed = 0 := hp
      exact hf a
  | stop => exact hp
  | act e next ih => exact ⟨hp.1, fun r => ih r (hp.2 r)⟩

/-- Nothing is owed where no action pays or incurs anything.
Source: none
Kind: L -/
theorem Prog.Asks.settles {P : E → Prop} {p : Prog E R α} (h : p.Asks P)
    (hP : ∀ e, P e → due e = 0 ∧ ∀ r, incur e r = 0) : p.Settles due incur 0 := by
  induction p with
  | ret a => rfl
  | stop => rfl
  | act e next ih =>
      refine ⟨(hP e h.1).1.symm, fun r => ?_⟩
      rw [(hP e h.1).2 r]
      exact ih r (h.2 r)

variable [Fintype ι]

/-- What is pending in total changes by what the changed client owes.
Source: none
Kind: L -/
theorem sum_pending_update (threads : ι → Option (Thread E R α)) (i : ι)
    (x : Option (Thread E R α)) :
    ∑ j, Thread.pending incur (Function.update threads i x j) =
      ∑ j, Thread.pending incur (threads j) - Thread.pending incur (threads i) +
        Thread.pending incur x := by
  rw [← Finset.add_sum_erase Finset.univ _ (Finset.mem_univ i),
    ← Finset.add_sum_erase Finset.univ (fun j => Thread.pending incur (threads j))
      (Finset.mem_univ i), Function.update_self]
  have hrest : ∑ j ∈ Finset.univ.erase i, Thread.pending incur (Function.update threads i x j) =
      ∑ j ∈ Finset.univ.erase i, Thread.pending incur (threads j) := by
    apply Finset.sum_congr rfl
    intro j hj
    rw [Function.update_of_ne (Finset.ne_of_mem_erase hj)]
  rw [hrest]
  ring

/-- The counter plus what is pending is the total, and every client settles what it owes.
Source: none
Kind: D -/
structure Pool.Balanced (due : E → ℤ) (incur : (e : E) → R e → ℤ) (counter total : W → ℤ)
    (s : Pool ι E R α W) : Prop where
  settles : ∀ i th, s.threads i = some th →
    th.prog.Settles due incur (Thread.pending incur (some th))
  balance : counter s.world + ∑ i, Thread.pending incur (s.threads i) = total s.world

/-- One step keeps the balance.
Source: none
Kind: L -/
theorem Pool.Balanced.step {exec : (e : E) → W → Outcome (R e × W)}
    {calls : Prog E R α → Prop} {counter total : W → ℤ} {good : W → Prop}
    (hcalls : ∀ p, calls p → p.Settles due incur 0)
    (hexec : ∀ e w r w', good w → exec e w = .ok (r, w') → good w' ∧
      counter w' = counter w + due e ∧ total w' = total w + incur e r)
    {s s' : Pool ι E R α W} (hgood : good s.world) (h : s.Balanced due incur counter total)
    (hstep : Pool.Step exec calls s s') :
    good s'.world ∧ s'.Balanced due incur counter total := by
  have hupdate : ∀ (i : ι) (x : Option (Thread E R α)),
      (∀ th, x = some th → th.prog.Settles due incur (Thread.pending incur (some th))) →
      ∀ j th, Function.update s.threads i x j = some th →
        th.prog.Settles due incur (Thread.pending incur (some th)) := by
    intro i x hx j th hj
    by_cases hij : j = i
    · subst hij
      rw [Function.update_self] at hj
      exact hx th hj
    · rw [Function.update_of_ne hij] at hj
      exact h.settles j th hj
  cases hstep with
  | invoke i p hidle hp =>
      refine ⟨hgood, hupdate i _ ?_, ?_⟩
      · rintro th hth
        cases hth
        exact hcalls p hp
      · simp only [sum_pending_update, hidle]
        simpa [Thread.pending] using h.balance
  | act i e next last r w hi hexec' =>
      obtain ⟨hgood', hcounter, htotal⟩ := hexec e s.world r w hgood hexec'
      obtain ⟨howed, hnext⟩ := h.settles i _ hi
      refine ⟨hgood', hupdate i _ ?_, ?_⟩
      · rintro th hth
        cases hth
        exact hnext r
      · simp only [sum_pending_update, hi, howed]
        have hbal := h.balance
        rw [hcounter, htotal, ← hbal]
        simp only [Thread.pending]
        ring
  | finish i a last hi =>
      have howed : Thread.pending incur (some ⟨Prog.ret a, last⟩) = 0 := h.settles i _ hi
      refine ⟨hgood, hupdate i _ ?_, ?_⟩
      · rintro th hth
        cases hth
      · simp only [sum_pending_update, hi, howed]
        simpa [Thread.pending] using h.balance

/-- The ledger rule: from an idle, balanced pool every reachable state is balanced.
Source: none
Kind: L -/
theorem Pool.balanced {exec : (e : E) → W → Outcome (R e × W)} {calls : Prog E R α → Prop}
    (counter total : W → ℤ) (good : W → Prop) (hcalls : ∀ p, calls p → p.Settles due incur 0)
    (hexec : ∀ e w r w', good w → exec e w = .ok (r, w') → good w' ∧
      counter w' = counter w + due e ∧ total w' = total w + incur e r)
    {w : W} (hgood : good w) (hw : counter w = total w) {s : Pool ι E R α W}
    (hreach : Pool.Reachable exec calls ⟨w, fun _ => none⟩ s) :
    good s.world ∧ s.Balanced due incur counter total := by
  refine Pool.invariant
    (I := fun s => good s.world ∧ s.Balanced due incur counter total) ?_ ?_ hreach
  · rintro s s' ⟨hg, hb⟩ hs
    exact hb.step hcalls hexec hg hs
  · refine ⟨hgood, ?_, ?_⟩
    · rintro i th hth
      cases hth
    · simpa [Thread.pending] using hw

end ledger

end CacheMoney.Found
