import CacheMoney.Found.Script

/-!
# Fuel

A loop of unknown length runs on a fuel clock, and a run that leaves the clock does not return. The
clock is not part of the program: what a run returns must not depend on it.

* `Approx x y`: `y` returns what `x` returns. It passes through sequencing, folds and programs.
* `Grows x`: with more fuel, the same result.
* `Converges x Q`: from some fuel on the computation returns, always the same result, and that
  satisfies `Q`. For a computation that grows it is enough to return once (`Grows.converges`).
* `Yields.converges`: a script over actions that converge.
-/

namespace CacheMoney.Found

variable {α β : Type}

/-! ### More defined computations -/

/-- `y` returns what `x` returns.
Source: none
Kind: D -/
def Approx (x y : Outcome α) : Prop := ∀ a, x = .ok a → y = .ok a

section approx

variable {x y : Outcome α}

/-- Every outcome approximates itself.
Source: none
Kind: L -/
theorem Approx.refl (x : Outcome α) : Approx x x := fun _ h => h

/-- Approximation is transitive.
Source: none
Kind: L -/
theorem Approx.trans {z : Outcome α} (h : Approx x y) (h' : Approx y z) : Approx x z :=
  fun a ha => h' a (h a ha)

/-- Approximations compose.
Source: none
Kind: L -/
theorem Approx.bind {f g : α → Outcome β} (h : Approx x y) (hf : ∀ a, Approx (f a) (g a)) :
    Approx (x >>= f) (y >>= g) := by
  intro b hb
  obtain ⟨a, ha, hfa⟩ := bind_eq_ok_iff.mp hb
  exact bind_eq_ok_iff.mpr ⟨a, h a ha, hf a b hfa⟩

/-- What follows a common computation is approximated in place.
Source: none
Kind: L -/
theorem approx_bind (x : Outcome α) {f g : α → Outcome β} (hf : ∀ a, Approx (f a) (g a)) :
    Approx (x >>= f) (x >>= g) := (Approx.refl x).bind hf

/-- A choice is approximated branch by branch.
Source: none
Kind: L -/
theorem approx_ite {c : Prop} [Decidable c] {x' y' : Outcome α} (h : Approx x y)
    (h' : Approx x' y') : Approx (if c then x else x') (if c then y else y') := by
  split_ifs
  · exact h
  · exact h'

/-- A loop over a list is approximated by approximating its body.
Source: none
Kind: L -/
theorem Approx.foldlM {f g : β → α → Outcome β} (h : ∀ b a, Approx (f b a) (g b a)) (l : List α) :
    ∀ b, Approx (l.foldlM f b) (l.foldlM g b) := by
  induction l with
  | nil => exact fun b => Approx.refl _
  | cons a l ih =>
      intro b
      rw [List.foldlM_cons, List.foldlM_cons]
      exact (h b a).bind ih

end approx

/-! ### Programs -/

section programs

variable {E : Type} {R : E → Type} {W : Type} {exec exec' : (e : E) → W → Outcome (R e × W)}

/-- A program over more defined actions.
Source: none
Kind: L -/
theorem Prog.approx_run (h : ∀ e w, Approx (exec e w) (exec' e w)) (p : Prog E R α) :
    ∀ w, Approx (p.run exec w) (p.run exec' w) := by
  induction p with
  | ret a => exact fun w => Approx.refl _
  | stop => exact fun w => Approx.refl _
  | act e next ih =>
      intro w
      rw [Prog.run_act, Prog.run_act]
      exact (h e w).bind fun r => ih r.1 r.2

variable (exec exec') in
/-- Over the actions `exec'`, `q` returns what `p` returns over `exec`.
Source: none
Kind: D -/
def Prog.Approx (p q : Prog E R α) : Prop := ∀ w, Found.Approx (p.run exec w) (q.run exec' w)

/-- A program that stops approximates every program.
Source: none
Kind: L -/
theorem Prog.approx_stop (q : Prog E R α) : Prog.Approx exec exec' .stop q := fun _ => nofun

/-- Approximations of programs compose.
Source: none
Kind: L -/
theorem Prog.Approx.bind {p q : Prog E R α} {f g : α → Prog E R β} (h : p.Approx exec exec' q)
    (hf : ∀ a, (f a).Approx exec exec' (g a)) : (p >>= f).Approx exec exec' (q >>= g) := by
  intro w
  rw [Prog.run_bind, Prog.run_bind]
  exact (h w).bind fun r => hf r.1 r.2

/-- A choice between programs is approximated branch by branch.
Source: none
Kind: L -/
theorem Prog.Approx.ite {c : Prop} [Decidable c] {p q p' q' : Prog E R α}
    (h : p.Approx exec exec' q) (h' : p'.Approx exec exec' q') :
    (if c then p else p').Approx exec exec' (if c then q else q') := by
  split_ifs
  · exact h
  · exact h'

end programs

/-! ### Clocks -/

/-- With more fuel, the same result.
Source: none
Kind: D -/
def Grows (x : ℕ → Outcome α) : Prop := ∀ n, Approx (x n) (x (n + 1))

/-- From some fuel on the computation returns, always the same result, and it satisfies `Q`.
Source: none
Kind: D -/
def Converges (x : ℕ → Outcome α) (Q : α → Prop) : Prop := ∃ a, Q a ∧ ∃ n₀, ∀ n, n₀ ≤ n → x n = .ok a

section clocks

variable {x : ℕ → Outcome α} {Q : α → Prop}

/-- More fuel only completes the outcome.
Source: none
Kind: L -/
theorem Grows.le (h : Grows x) {m n : ℕ} (hmn : m ≤ n) : Approx (x m) (x n) := by
  induction hmn with
  | refl => exact Approx.refl _
  | step _ ih => exact ih.trans (h _)

/-- A result with some fuel is the result with more.
Source: none
Kind: L -/
theorem Grows.converges (h : Grows x) {n : ℕ} (hret : Returns (x n) Q) : Converges x Q := by
  obtain ⟨a, ha, hQ⟩ := hret
  exact ⟨a, hQ, n, fun m hm => h.le hm a ha⟩

/-- What returns without fuel converges.
Source: none
Kind: L -/
theorem converges_ok {a : α} (h : Q a) : Converges (fun _ => .ok a) Q := ⟨a, h, 0, fun _ _ => rfl⟩

/-- The postcondition may be weakened.
Source: none
Kind: L -/
theorem Converges.mono (h : Converges x Q) {Q' : α → Prop} (hQ : ∀ a, Q a → Q' a) : Converges x Q' := by
  obtain ⟨a, ha, hx⟩ := h
  exact ⟨a, hQ a ha, hx⟩

/-- What holds of every result holds of the one in the limit.
Source: none
Kind: L -/
theorem Converges.and (h : Converges x Q) {Q' : α → Prop} (hQ : ∀ n a, x n = .ok a → Q' a) :
    Converges x fun a => Q a ∧ Q' a := by
  obtain ⟨a, ha, n₀, hx⟩ := h
  exact ⟨a, ⟨ha, hQ n₀ a (hx n₀ (Nat.le_refl _))⟩, n₀, hx⟩

/-- Sequencing: the fuel of both parts is enough.
Source: none
Kind: L -/
theorem Converges.bind {f : ℕ → α → Outcome β} {Q' : β → Prop} (h : Converges x Q)
    (hf : ∀ a, Q a → Converges (fun n => f n a) Q') : Converges (fun n => x n >>= f n) Q' := by
  obtain ⟨a, ha, n₀, hx⟩ := h
  obtain ⟨b, hb, n₁, hfa⟩ := hf a ha
  refine ⟨b, hb, max n₀ n₁, fun n hn => ?_⟩
  beta_reduce
  rw [hx n (Nat.le_trans (Nat.le_max_left _ _) hn), ok_bind]
  exact hfa n (Nat.le_trans (Nat.le_max_right _ _) hn)

end clocks

/-! ### Programs over actions that converge -/

section scripts

variable {E : Type} {R : E → Type} {S W : Type} {exec : ℕ → (e : E) → W → Outcome (R e × W)}
  {P : E → Prop} {I : W → Prop}

/-- The same rule for programs run in a world.
Source: none
Kind: L -/
theorem Prog.converges_bind {p : ℕ → Prog E R α} {f : ℕ → α → Prog E R β} {w : W}
    {Q : α × W → Prop} {Q' : β × W → Prop} (h : Converges (fun n => (p n).run (exec n) w) Q)
    (hf : ∀ a w', Q (a, w') → Converges (fun n => (f n a).run (exec n) w') Q') :
    Converges (fun n => (p n >>= f n).run (exec n) w) Q' := by
  simp only [Prog.run_bind]
  exact h.bind fun r hr => hf r.1 r.2 hr

/-- An action and what follows it.
Source: none
Kind: L -/
theorem Prog.converges_perform_bind {e : E} {f : ℕ → R e → Prog E R β} {w : W}
    {Q : R e × W → Prop} {Q' : β × W → Prop} (h : Converges (fun n => exec n e w) Q)
    (hf : ∀ r w', Q (r, w') → Converges (fun n => (f n r).run (exec n) w') Q') :
    Converges (fun n => (Prog.perform e >>= f n).run (exec n) w) Q' := by
  refine Prog.converges_bind (p := fun _ => Prog.perform e) ?_ hf
  simp only [Prog.run_perform]
  exact h

/-- A program that always ends well converges if its actions do.
Source: none
Kind: L -/
theorem Prog.Always.converges {Q : α → Prop}
    (hexec : ∀ e, P e → ∀ w, I w → Converges (fun n => exec n e w) fun r => I r.2) {p : Prog E R α}
    (h : p.Always Q) (hP : p.Asks P) : ∀ {w : W}, I w →
      Converges (fun n => p.run (exec n) w) fun r => Q r.1 ∧ I r.2 := by
  induction p with
  | ret a => exact fun hw => converges_ok ⟨h, hw⟩
  | stop => exact h.elim
  | act e next ih =>
      intro w hw
      refine (hexec e hP.1 w hw).bind fun r hr => ?_
      exact ih r.1 (h r.1) (hP.2 r.1) hr

/-- A script that returns whatever is answered converges if its actions do, and an invariant of the
actions is one of the script.
Source: none
Kind: L -/
theorem Yields.converges {m : Script E R S α} {s : S} {Q : α → S → Prop} (h : Yields m s Q)
    (hP : Asks P m) (hexec : ∀ e, P e → ∀ w, I w → Converges (fun n => exec n e w) fun r => I r.2)
    {w : W} (hw : I w) :
    Converges (fun n => m.runIn (exec n) s w) fun r => Q r.1 r.2.1 ∧ I r.2.2 := by
  refine (Prog.Always.converges hexec h (hP s) hw).bind ?_
  rintro ⟨out, w'⟩ ⟨⟨⟨a, s'⟩, hout, hQ⟩, hI⟩
  simp only at hout
  subst hout
  exact converges_ok ⟨hQ, hI⟩

end scripts

end CacheMoney.Found
