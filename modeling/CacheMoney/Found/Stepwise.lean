import CacheMoney.Found.Prog

/-!
# A program step by step

`Prog.Steps exec move Q p g w` describes a program alone in its world from the inside: from world
`w` every action of `p` is answered and changes the world by a `move`, and the program ends with
`Q`. The moves also change a ghost `g` that is not part of the world; it can hold what the program
is still allowed to do.

* The rules peel a program apart: `steps_bind_iff`, `Steps.forM`, `Steps.foldlM`.
* `Steps.finish`: for moves that compose, the whole run is a move.
-/

namespace CacheMoney.Found

variable {E : Type} {R : E → Type} {α β W G : Type}

/-- Source: none
Kind: D -/
def Prog.Steps (exec : (e : E) → W → Outcome (R e × W)) (move : G → W → W → G → Prop)
    (Q : α → G → W → Prop) : Prog E R α → G → W → Prop
  | .ret a, g, w => Q a g w
  | .stop, _, _ => False
  | .act e next, g, w => ∃ r w' g', exec e w = .ok (r, w') ∧ move g w w' g' ∧
      (next r).Steps exec move Q g' w'

namespace Prog

variable {exec : (e : E) → W → Outcome (R e × W)} {move : G → W → W → G → Prop}
  {Q : α → G → W → Prop} {g : G} {w : W}

/-- The postcondition may be weakened.
Source: none
Kind: L -/
theorem Steps.mono {Q' : α → G → W → Prop} {p : Prog E R α} (h : p.Steps exec move Q g w)
    (hQ : ∀ a g w, Q a g w → Q' a g w) : p.Steps exec move Q' g w := by
  induction p generalizing g w with
  | ret a => exact hQ a g w h
  | stop => exact h
  | act e next ih =>
      obtain ⟨r, w', g', hexec, hmove, hnext⟩ := h
      exact ⟨r, w', g', hexec, hmove, ih r hnext⟩

/-- Rule for sequencing.
Source: none
Kind: L -/
theorem steps_bind_iff {Q : β → G → W → Prop} {p : Prog E R α} {f : α → Prog E R β} :
    (p >>= f).Steps exec move Q g w ↔
      p.Steps exec move (fun a => (f a).Steps exec move Q) g w := by
  induction p generalizing g w with
  | ret a => exact Iff.rfl
  | stop => exact Iff.rfl
  | act e next ih =>
      constructor
      · rintro ⟨r, w', g', hexec, hmove, hnext⟩
        exact ⟨r, w', g', hexec, hmove, (ih r).mp hnext⟩
      · rintro ⟨r, w', g', hexec, hmove, hnext⟩
        exact ⟨r, w', g', hexec, hmove, (ih r).mpr hnext⟩

/-- A loop over a list. The invariant speaks about the elements that are left.
Source: none
Kind: L -/
theorem Steps.forM {f : β → Prog E R PUnit} (I : List β → G → W → Prop)
    (hstep : ∀ x rest g w, I (x :: rest) g w → (f x).Steps exec move (fun _ => I rest) g w)
    {l : List β} (h : I l g w) : (l.forM f).Steps exec move (fun _ => I []) g w := by
  induction l generalizing g w with
  | nil => exact h
  | cons x rest ih =>
      change (f x >>= fun _ => rest.forM f).Steps exec move (fun _ => I []) g w
      rw [steps_bind_iff]
      exact (hstep x rest g w h).mono fun _ g' w' h' => ih h'

/-- A loop with an accumulator.
Source: none
Kind: L -/
theorem Steps.foldlM {f : α → β → Prog E R α} (I : List β → α → G → W → Prop)
    (hstep : ∀ x rest a g w, I (x :: rest) a g w →
      (f a x).Steps exec move (fun a' => I rest a') g w)
    {l : List β} {a : α} (h : I l a g w) :
    (l.foldlM f a).Steps exec move (fun a' => I [] a') g w := by
  induction l generalizing a g w with
  | nil => exact h
  | cons x rest ih =>
      rw [List.foldlM_cons, steps_bind_iff]
      exact (hstep x rest a g w h).mono fun a' g' w' h' => ih h'

/-- The run as a whole.
Source: none
Kind: L -/
theorem Steps.finish {p : Prog E R α} (hrefl : ∀ g w, move g w w g)
    (htrans : ∀ {g w g' w' g'' w''}, move g w w' g' → move g' w' w'' g'' → move g w w'' g'')
    (h : p.Steps exec move Q g w) :
    ∃ a g' w', p.run exec w = .ok (a, w') ∧ move g w w' g' ∧ Q a g' w' := by
  induction p generalizing g w with
  | ret a => exact ⟨a, g, w, rfl, hrefl g w, h⟩
  | stop => exact h.elim
  | act e next ih =>
      obtain ⟨r, w', g', hexec, hmove, hnext⟩ := h
      obtain ⟨a, g'', w'', hrun, hrest, hQ⟩ := ih r hnext
      refine ⟨a, g'', w'', ?_, htrans hmove hrest, hQ⟩
      rw [Prog.run_act, hexec]
      exact hrun

end Prog

end CacheMoney.Found
