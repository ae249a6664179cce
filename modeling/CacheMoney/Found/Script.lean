import CacheMoney.Found.Prog

/-!
# Scripts: programs with a state of their own

A `Script E R S α` is a program over the actions `E` that also has a state of its own and may panic.
The world answers its actions; nothing is known about the answers.

* `Script.runIn exec m s w` runs the script in a world.
* `Yields m s Q`: whatever is answered, the script returns, and the result and the new state satisfy
  `Q`. The rules compute it along the script, one equivalence per construct.
* `Yields.runIn`: the run in any world that answers every action.
* `Asks P m`: every action of the script satisfies `P`. An invariant that these actions keep is kept
  by the run (`Asks.runIn`).
* `Script.simulates`: a world that answers every action as a simpler one does gives the same run.
-/

namespace CacheMoney.Found

variable {E : Type} {R : E → Type} {S W α β : Type}

/-! ### Demonic answers -/

/-- Whatever is answered, the program returns, with a result that satisfies `Q`.
Source: none
Kind: D -/
def Prog.Always (Q : α → Prop) : Prog E R α → Prop
  | .ret a => Q a
  | .stop => False
  | .act _ next => ∀ r, (next r).Always Q

/-- Rule for sequencing.
Source: none
Kind: L -/
theorem Prog.always_bind {p : Prog E R α} {f : α → Prog E R β} {Q : β → Prop} :
    (p >>= f).Always Q ↔ p.Always fun a => (f a).Always Q := by
  induction p with
  | ret a => exact Iff.rfl
  | stop => exact Iff.rfl
  | act e next ih => exact forall_congr' ih

/-- The postcondition may be weakened.
Source: none
Kind: L -/
theorem Prog.Always.mono {p : Prog E R α} {Q Q' : α → Prop} (h : p.Always Q)
    (hQ : ∀ a, Q a → Q' a) : p.Always Q' := by
  induction p with
  | ret a => exact hQ a h
  | stop => exact h
  | act e next ih => exact fun r => ih r (h r)

/-- A program that always ends well returns in every world that answers.
Source: none
Kind: L -/
theorem Prog.Always.run {p : Prog E R α} {Q : α → Prop} (h : p.Always Q)
    {exec : (e : E) → W → Outcome (R e × W)} (htotal : ∀ e w, ∃ r, exec e w = .ok r) (w : W) :
    Returns (p.run exec w) fun r => Q r.1 := by
  induction p generalizing w with
  | ret a => exact ⟨(a, w), rfl, h⟩
  | stop => exact h.elim
  | act e next ih =>
      obtain ⟨r, hr⟩ := htotal e w
      rw [Prog.run_act, hr]
      exact ih r.1 (h r.1) r.2

/-! ### Scripts -/

/-- Source: none
Kind: D -/
abbrev Script (E : Type) (R : E → Type) (S : Type) := StateT S (ExceptT Fault (Prog E R))

/-- One action.
Source: none
Kind: D -/
def Script.ask (e : E) : Script E R S (R e) := fun s =>
  ExceptT.mk (.act e fun r => .ret (.ok (r, s)))

/-- A computation that may panic.
Source: none
Kind: D -/
def Script.lift (x : Outcome α) : Script E R S α := fun s =>
  ExceptT.mk (.ret (x.map fun a => (a, s)))

/-- The script in its world.
Source: none
Kind: D -/
def Script.runIn (exec : (e : E) → W → Outcome (R e × W)) (m : Script E R S α) (s : S) (w : W) :
    Outcome (α × S × W) := do
  let (r, w) ← (m s).run.run exec w
  let (a, s) ← r
  pure (a, s, w)

/-- Whatever is answered, the script returns, and `Q` holds of the result and of the new state.
Source: none
Kind: D -/
def Yields (m : Script E R S α) (s : S) (Q : α → S → Prop) : Prop :=
  (m s).run.Always fun x : Outcome (α × S) => Returns x fun r => Q r.1 r.2

section rules

variable {s : S}

/-- Rule for a result.
Source: none
Kind: L -/
theorem returns_ok {a : α} {P : α → Prop} : Returns (.ok a) P ↔ P a := by
  constructor
  · rintro ⟨b, hb, h⟩
    cases hb
    exact h
  · exact fun h => ⟨a, rfl, h⟩

/-- A fault is no result.
Source: none
Kind: L -/
theorem not_returns_error {e : Fault} {P : α → Prop} : ¬Returns (.error e) P := by
  rintro ⟨b, hb, _⟩
  cases hb

/-- Rule for a value.
Source: none
Kind: L -/
@[simp] theorem yields_pure {a : α} {Q : α → S → Prop} :
    Yields (pure a : Script E R S α) s Q ↔ Q a s := returns_ok

/-- Rule for sequencing.
Source: none
Kind: L -/
@[simp] theorem yields_bind {m : Script E R S α} {f : α → Script E R S β} {Q : β → S → Prop} :
    Yields (m >>= f) s Q ↔ Yields m s fun a s' => Yields (f a) s' Q := by
  have hrun : ((m >>= f) s).run = Bind.bind (m s).run
      (ExceptT.bindCont fun r : α × S => f r.1 r.2) := rfl
  unfold Yields
  rw [hrun, Prog.always_bind]
  apply iff_of_eq
  congr 1
  funext x
  cases x with
  | ok r =>
      rw [returns_ok]
      rfl
  | error e =>
      apply propext
      constructor
      · exact fun h => absurd h not_returns_error
      · exact fun h => absurd h not_returns_error

/-- Rule for reading the state.
Source: none
Kind: L -/
@[simp] theorem yields_get {Q : S → S → Prop} : Yields (get : Script E R S S) s Q ↔ Q s s :=
  returns_ok

/-- Rule for changing the state.
Source: none
Kind: L -/
@[simp] theorem yields_modify {g : S → S} {Q : PUnit → S → Prop} :
    Yields (modify g : Script E R S PUnit) s Q ↔ Q ⟨⟩ (g s) := returns_ok

/-- Rule for an action: every answer has to do.
Source: none
Kind: L -/
@[simp] theorem yields_ask {e : E} {Q : R e → S → Prop} :
    Yields (Script.ask e : Script E R S (R e)) s Q ↔ ∀ r, Q r s :=
  forall_congr' fun _ => returns_ok

/-- Rule for a computation that may panic: it must not.
Source: none
Kind: L -/
theorem yields_lift {x : Outcome α} {Q : α → S → Prop} :
    Yields (Script.lift x : Script E R S α) s Q ↔ Returns x fun a => Q a s := by
  cases x with
  | ok a =>
      rw [returns_ok]
      exact returns_ok
  | error e =>
      exact ⟨fun h => absurd h not_returns_error, fun h => absurd h not_returns_error⟩

/-- Consequence.
Source: none
Kind: L -/
theorem Yields.mono {m : Script E R S α} {Q Q' : α → S → Prop} (h : Yields m s Q)
    (hQ : ∀ a s', Q a s' → Q' a s') : Yields m s Q' :=
  Prog.Always.mono h fun _ hx => hx.mono fun r hr => hQ r.1 r.2 hr

/-- The run in a world that answers every action.
Source: none
Kind: L -/
theorem Yields.runIn {m : Script E R S α} {Q : α → S → Prop} (h : Yields m s Q)
    {exec : (e : E) → W → Outcome (R e × W)} (htotal : ∀ e w, ∃ r, exec e w = .ok r) (w : W) :
    Returns (m.runIn exec s w) fun r => Q r.1 r.2.1 := by
  obtain ⟨⟨x, w'⟩, hrun, ⟨a, s'⟩, hx, hQ⟩ := Prog.Always.run h htotal w
  simp only at hx
  subst hx
  refine ⟨(a, s', w'), ?_, hQ⟩
  unfold Script.runIn
  rw [hrun]
  rfl

variable {exec : (e : E) → W → Outcome (R e × W)} {w : W}

/-- Sequencing threads the state and the world.
Source: none
Kind: L -/
theorem Script.runIn_bind (m : Script E R S α) (f : α → Script E R S β) :
    (m >>= f).runIn exec s w = m.runIn exec s w >>= fun r => (f r.1).runIn exec r.2.1 r.2.2 := by
  have hrun : ((m >>= f) s).run = Bind.bind (m s).run
      (ExceptT.bindCont fun r : α × S => f r.1 r.2) := rfl
  unfold Script.runIn
  rw [hrun, Prog.run_bind]
  cases (m s).run.run exec w with
  | error e => rfl
  | ok r =>
      obtain ⟨x, w'⟩ := r
      cases x with
      | error e => rfl
      | ok a => rfl

/-- An action is executed in the world and leaves the state.
Source: none
Kind: L -/
theorem Script.runIn_ask (e : E) :
    (Script.ask e : Script E R S (R e)).runIn exec s w =
      exec e w >>= fun r => .ok (r.1, s, r.2) := by
  have hrun : ((Script.ask e : Script E R S (R e)) s).run =
      Prog.act e fun r => .ret (.ok (r, s)) := rfl
  unfold Script.runIn
  rw [hrun, Prog.run_act]
  cases exec e w with
  | error e => rfl
  | ok r => rfl

/-- A computation that may panic leaves state and world.
Source: none
Kind: L -/
theorem Script.runIn_lift (x : Outcome α) :
    (Script.lift x : Script E R S α).runIn exec s w = x >>= fun a => .ok (a, s, w) := by
  cases x with
  | error e => rfl
  | ok a => rfl

end rules

/-! ### The actions of a script -/

/-- Source: none
Kind: D -/
def Asks (P : E → Prop) (m : Script E R S α) : Prop := ∀ s, (m s).run.Asks P

section asks

variable {P : E → Prop}

/-- A value asks for nothing.
Source: none
Kind: L -/
@[simp] theorem asks_pure (a : α) : Asks P (pure a : Script E R S α) := fun _ => trivial

/-- Reading the state asks for nothing.
Source: none
Kind: L -/
@[simp] theorem asks_get : Asks P (get : Script E R S S) := fun _ => trivial

/-- Changing the state asks for nothing.
Source: none
Kind: L -/
@[simp] theorem asks_modify (g : S → S) : Asks P (modify g : Script E R S PUnit) := fun _ => trivial

/-- A computation that may panic asks for nothing.
Source: none
Kind: L -/
@[simp] theorem asks_lift (x : Outcome α) : Asks P (Script.lift x : Script E R S α) :=
  fun _ => trivial

/-- An action asks for itself.
Source: none
Kind: L -/
theorem asks_ask {e : E} (h : P e) : Asks P (Script.ask e : Script E R S (R e)) :=
  fun _ => ⟨h, fun _ => trivial⟩

/-- Rule for sequencing.
Source: none
Kind: L -/
theorem Asks.bind {m : Script E R S α} {f : α → Script E R S β} (h : Asks P m)
    (hf : ∀ a, Asks P (f a)) : Asks P (m >>= f) := by
  intro s
  have hrun : ((m >>= f) s).run = Bind.bind (m s).run
      (ExceptT.bindCont fun r : α × S => f r.1 r.2) := rfl
  rw [hrun]
  refine (h s).bind fun x => ?_
  cases x with
  | error e => trivial
  | ok r => exact hf r.1 r.2

/-- What comes after a computation that may panic only has to be known for its result.
Source: none
Kind: L -/
theorem asks_lift_bind {x : Outcome α} {f : α → Script E R S β}
    (hf : ∀ a, x = .ok a → Asks P (f a)) : Asks P (Script.lift x >>= f) := by
  intro s
  cases x with
  | error e => trivial
  | ok a => exact hf a rfl s

/-- A script that asks only for some actions asks only for those of a larger set.
Source: none
Kind: L -/
theorem Asks.mono {Q : E → Prop} {m : Script E R S α} (h : Asks P m) (hPQ : ∀ e, P e → Q e) :
    Asks Q m := fun s => (h s).mono hPQ

/-- What the allowed actions keep, a run of the script keeps.
Source: none
Kind: L -/
theorem Asks.runIn {m : Script E R S α} (h : Asks P m) {exec : (e : E) → W → Outcome (R e × W)}
    {I : W → Prop} (hI : ∀ e, P e → ∀ w r w', I w → exec e w = .ok (r, w') → I w') {s : S} {w : W}
    (hw : I w) {x : α × S × W} (hrun : m.runIn exec s w = .ok x) : I x.2.2 := by
  unfold Script.runIn at hrun
  obtain ⟨⟨r, w'⟩, hprog, hrest⟩ := bind_eq_ok_iff.mp hrun
  obtain ⟨⟨a, s'⟩, -, hx⟩ := bind_eq_ok_iff.mp hrest
  cases hx
  exact (h s).run hI hw hprog

end asks

/-! ### Two worlds -/

section simulation

variable {X : Type} {exec : (e : E) → W → Outcome (R e × W)} {model : (e : E) → X → Outcome (R e × X)}
  {ρ : W → X → Prop}

/-- A world whose every action does what the action of the model does.
Source: none
Kind: L -/
theorem Prog.simulates
    (hsim : ∀ e w x r x', ρ w x → model e x = .ok (r, x') →
      Ensures (exec e w) fun y => y.1 = r ∧ ρ y.2 x')
    (p : Prog E R α) : ∀ {w : W} {x x' : X} {a : α}, ρ w x → p.run model x = .ok (a, x') →
      Ensures (p.run exec w) fun y => y.1 = a ∧ ρ y.2 x' := by
  induction p with
  | ret b =>
      intro w x x' a h hrun
      cases hrun
      exact ⟨rfl, h⟩
  | stop =>
      intro w x x' a h hrun
      cases hrun
  | act e next ih =>
      intro w x x' a h hrun
      rw [Prog.run_act] at hrun
      obtain ⟨⟨r, x₁⟩, hmodel, hnext⟩ := bind_eq_ok_iff.mp hrun
      rw [Prog.run_act]
      refine (hsim e w x r x₁ h hmodel).bind ?_
      rintro ⟨r', w₁⟩ ⟨rfl, h₁⟩
      exact ih r' h₁ hnext

/-- Two worlds that answer alike give a script the same result, and stay related.
Source: none
Kind: L -/
theorem Script.simulates
    (hsim : ∀ e w x r x', ρ w x → model e x = .ok (r, x') →
      Ensures (exec e w) fun y => y.1 = r ∧ ρ y.2 x')
    {m : Script E R S α} {s s' : S} {w : W} {x x' : X} {a : α} (h : ρ w x)
    (hrun : m.runIn model s x = .ok (a, s', x')) :
    Ensures (m.runIn exec s w) fun y => y.1 = a ∧ y.2.1 = s' ∧ ρ y.2.2 x' := by
  unfold Script.runIn at hrun ⊢
  obtain ⟨⟨out, x₁⟩, hprog, hrest⟩ := bind_eq_ok_iff.mp hrun
  obtain ⟨⟨a', s₁⟩, hout, hx⟩ := bind_eq_ok_iff.mp hrest
  cases hx
  refine (Prog.simulates hsim _ h hprog).bind ?_
  rintro ⟨out', w₁⟩ ⟨rfl, h₁⟩
  simp only at hout
  subst hout
  exact ⟨rfl, rfl, h₁⟩

end simulation

end CacheMoney.Found
