import CacheMoney.Found.Outcome

/-!
# Programs over atomic actions

A `Prog E R α` is a program whose steps are atomic actions `e : E`, each answered with a value of
type `R e`. It is the text of the program only; what an action does is given by a handler
`exec : (e : E) → W → Outcome (R e × W)` on a world `W`. One text then has two readings: `run`
performs the actions one after the other, and `Found.Pool` interleaves the actions of several
programs.

* `stop` is where a loop leaves its fuel clock; it never returns.
* `Tape` is an infinite input: clock readings, random draws.
-/

namespace CacheMoney.Found

/-! ### Input tapes -/

/-- An infinite input and the position of its reader.
Source: none
Kind: D -/
structure Tape (α : Type) where
  read : ℕ → α
  pos : ℕ := 0

variable {α β : Type}

/-- The value under the reader.
Source: none
Kind: D -/
def Tape.head (t : Tape α) : α := t.read t.pos

/-- Source: none
Kind: D -/
def Tape.tail (t : Tape α) : Tape α := { t with pos := t.pos + 1 }

/-- `t'` is `t` with its reader moved on, by at most `k` readings.
Source: none
Kind: D -/
structure Tape.Advanced (k : ℕ) (t t' : Tape α) : Prop where
  read_eq : t'.read = t.read
  pos_le : t.pos ≤ t'.pos
  le_pos : t'.pos ≤ t.pos + k

/-- A reader that stands still has advanced by any bound.
Source: none
Kind: L -/
theorem Tape.Advanced.refl (k : ℕ) (t : Tape α) : t.Advanced k t :=
  ⟨rfl, Nat.le_refl _, Nat.le_add_right _ _⟩

/-- One reading.
Source: none
Kind: L -/
theorem Tape.advanced_tail (t : Tape α) : t.Advanced 1 t.tail :=
  ⟨rfl, Nat.le_succ _, Nat.le_refl _⟩

/-- The bounds of consecutive advances add up.
Source: none
Kind: L -/
theorem Tape.Advanced.trans {k l : ℕ} {t t' t'' : Tape α} (h : t.Advanced k t')
    (h' : t'.Advanced l t'') : t.Advanced (k + l) t'' := by
  refine ⟨h'.read_eq.trans h.read_eq, Nat.le_trans h.pos_le h'.pos_le, ?_⟩
  have hle := h.le_pos
  have hle' := h'.le_pos
  omega

/-- A larger bound holds as well.
Source: none
Kind: L -/
theorem Tape.Advanced.mono {k l : ℕ} {t t' : Tape α} (h : t.Advanced k t') (hkl : k ≤ l) :
    t.Advanced l t' :=
  ⟨h.read_eq, h.pos_le, Nat.le_trans h.le_pos (Nat.add_le_add_left hkl _)⟩

/-! ### Programs -/

/-- Source: none
Kind: D -/
inductive Prog (E : Type) (R : E → Type) (α : Type) : Type where
  /-- The program returned. -/
  | ret (a : α)
  /-- The clock of a loop ended. -/
  | stop
  /-- One atomic action, then the rest of the program, which depends on the answer. -/
  | act (e : E) (next : R e → Prog E R α)

variable {E : Type} {R : E → Type} {W : Type}

/-- Sequencing.
Source: none
Kind: D -/
def Prog.bind : Prog E R α → (α → Prog E R β) → Prog E R β
  | .ret a, f => f a
  | .stop, _ => .stop
  | .act e next, f => .act e fun r => (next r).bind f

instance : Monad (Prog E R) where
  pure := .ret
  bind := .bind

/-- The program of one action.
Source: none
Kind: D -/
def Prog.perform (e : E) : Prog E R (R e) := .act e .ret

/-- The program alone in its world.
Source: none
Kind: D -/
def Prog.run (exec : (e : E) → W → Outcome (R e × W)) : Prog E R α → W → Outcome (α × W)
  | .ret a, w => .ok (a, w)
  | .stop, _ => .error .outOfFuel
  | .act e next, w => exec e w >>= fun r => (next r.1).run exec r.2

/-! ### Rules -/

section rules

variable {exec : (e : E) → W → Outcome (R e × W)} {w w' : W}

/-- A program without actions runs to its result.
Source: none
Kind: L -/
@[simp] theorem Prog.run_pure (a : α) : (pure a : Prog E R α).run exec w = .ok (a, w) := rfl

/-- An action alone is run by executing it.
Source: none
Kind: L -/
@[simp] theorem Prog.run_perform (e : E) : (Prog.perform e : Prog E R _).run exec w = exec e w := by
  rw [Prog.perform, Prog.run]
  cases exec e w with
  | ok r => rfl
  | error f => rfl

/-- An action is executed, and what follows is run on its answer.
Source: none
Kind: L -/
theorem Prog.run_act (e : E) (next : R e → Prog E R α) :
    (Prog.act e next).run exec w = exec e w >>= fun r => (next r.1).run exec r.2 := rfl

/-- Sequencing runs the second program in the world the first one left.
Source: none
Kind: L -/
theorem Prog.run_bind (p : Prog E R α) (f : α → Prog E R β) (w : W) :
    (p >>= f).run exec w = p.run exec w >>= fun r => (f r.1).run exec r.2 := by
  induction p generalizing w with
  | ret a => rfl
  | stop => rfl
  | act e next ih =>
      change (exec e w >>= fun r => ((next r.1).bind f).run exec r.2) = _
      rw [Prog.run_act]
      cases exec e w with
      | ok r => exact ih r.1 r.2
      | error x => rfl

/-- Sequencing of specifications.
Source: none
Kind: L -/
theorem Prog.ensures_bind {p : Prog E R α} {f : α → Prog E R β} {Q : α × W → Prop}
    {Q' : β × W → Prop} (h : Ensures (p.run exec w) Q)
    (hf : ∀ a w', Q (a, w') → Ensures ((f a).run exec w') Q') :
    Ensures ((p >>= f).run exec w) Q' := by
  rw [Prog.run_bind]
  exact h.bind fun r hr => hf r.1 r.2 hr

/-- Sequencing of programs that return.
Source: none
Kind: L -/
theorem Prog.returns_bind {p : Prog E R α} {f : α → Prog E R β} {Q : α × W → Prop}
    {Q' : β × W → Prop} (h : Returns (p.run exec w) Q)
    (hf : ∀ a w', Q (a, w') → Returns ((f a).run exec w') Q') :
    Returns ((p >>= f).run exec w) Q' := by
  rw [Prog.run_bind]
  exact h.bind fun r hr => hf r.1 r.2 hr

end rules

/-! ### The actions of a program -/

/-- Whatever is answered, every action satisfies `P`.
Source: none
Kind: D -/
def Prog.Asks (P : E → Prop) : Prog E R α → Prop
  | .ret _ => True
  | .stop => True
  | .act e next => P e ∧ ∀ r, (next r).Asks P

section asks

variable {P : E → Prop}

/-- Rule for sequencing.
Source: none
Kind: L -/
theorem Prog.Asks.bind {p : Prog E R α} {f : α → Prog E R β} (h : p.Asks P)
    (hf : ∀ a, (f a).Asks P) : (p >>= f).Asks P := by
  induction p with
  | ret a => exact hf a
  | stop => trivial
  | act e next ih => exact ⟨h.1, fun r => ih r (h.2 r)⟩

/-- Where everything is allowed, every program asks for what is allowed.
Source: none
Kind: L -/
theorem Prog.Asks.of_forall {p : Prog E R α} (hP : ∀ e, P e) : p.Asks P := by
  induction p with
  | ret a => trivial
  | stop => trivial
  | act e next ih => exact ⟨hP e, ih⟩

/-- What asks only for some actions asks only for those of a larger set.
Source: none
Kind: L -/
theorem Prog.Asks.mono {Q : E → Prop} {p : Prog E R α} (h : p.Asks P) (hPQ : ∀ e, P e → Q e) :
    p.Asks Q := by
  induction p with
  | ret a => trivial
  | stop => trivial
  | act e next ih => exact ⟨hPQ e h.1, fun r => ih r (h.2 r)⟩

/-- The frame rule: what the allowed actions keep, the run keeps.
Source: none
Kind: L -/
theorem Prog.Asks.run {p : Prog E R α} (h : p.Asks P) {exec : (e : E) → W → Outcome (R e × W)}
    {I : W → Prop} (hI : ∀ e, P e → ∀ w r w', I w → exec e w = .ok (r, w') → I w') {w : W}
    (hw : I w) {a : α} {w' : W} (hrun : p.run exec w = .ok (a, w')) : I w' := by
  induction p generalizing w with
  | ret b =>
      cases hrun
      exact hw
  | stop => cases hrun
  | act e next ih =>
      rw [Prog.run_act] at hrun
      obtain ⟨⟨r, w₁⟩, hexec, hnext⟩ := bind_eq_ok_iff.mp hrun
      exact ih r (h.2 r) (hI e h.1 w r w₁ hw hexec) hnext

end asks

end CacheMoney.Found
