import CacheMoney.Found.Pool

/-!
# Interleavings that keep apart, and typestates

The clients of a pool read shared state and act later on what they read. `clash th e` names the
steps that would make such a reading stale: another client performs `e` while this one stands at
`th`. `Pool.ApartStep` interleaves freely except for those.

* `Prog.Follows`: a program goes through its actions as a `Typestate` allows. The mode records
  what the client has read and not used yet.
* `Pool.outline`: an invariant over the world and the modes of all clients, kept by every action
  that a mode allows and that clashes with nobody, holds in every state of such a run.
-/

set_option linter.unusedSectionVars false

namespace CacheMoney.Found

variable {E : Type} {R : E → Type} {α β W ι M : Type}

/-! ### Runs without clashes -/

/-- The action the client performs next.
Source: none
Kind: D -/
def Thread.next (th : Thread E R α) : Option E :=
  match th.prog with
  | .act e _ => some e
  | _ => none

variable [DecidableEq ι]

/-- One step of the pool in which no action clashes with where another client stands.
Source: none
Kind: D -/
inductive Pool.ApartStep (exec : (e : E) → W → Outcome (R e × W)) (calls : Prog E R α → Prop)
    (clash : Thread E R α → E → Prop) : Pool ι E R α W → Pool ι E R α W → Prop where
  | invoke (s : Pool ι E R α W) (i : ι) (p : Prog E R α) (hidle : s.threads i = none)
      (hp : calls p) :
      ApartStep exec calls clash s
        { s with threads := Function.update s.threads i (some ⟨p, none⟩) }
  | act (s : Pool ι E R α W) (i : ι) (e : E) (next : R e → Prog E R α) (last : Option (Σ e, R e))
      (r : R e) (w : W) (hi : s.threads i = some ⟨.act e next, last⟩)
      (hexec : exec e s.world = .ok (r, w))
      (hclear : ∀ j th, j ≠ i → s.threads j = some th → ¬clash th e) :
      ApartStep exec calls clash s ⟨w, Function.update s.threads i (some ⟨next r, some ⟨e, r⟩⟩)⟩
  | finish (s : Pool ι E R α W) (i : ι) (a : α) (last : Option (Σ e, R e))
      (hi : s.threads i = some ⟨.ret a, last⟩) :
      ApartStep exec calls clash s { s with threads := Function.update s.threads i none }

/-- Source: none
Kind: D -/
def Pool.ApartReachable (exec : (e : E) → W → Outcome (R e × W)) (calls : Prog E R α → Prop)
    (clash : Thread E R α → E → Prop) (s₀ s : Pool ι E R α W) : Prop :=
  Relation.ReflTransGen (Pool.ApartStep exec calls clash) s₀ s

/-- A run in which clashing calls stay apart is a run.
Source: none
Kind: L -/
theorem Pool.ApartReachable.reachable {exec : (e : E) → W → Outcome (R e × W)}
    {calls : Prog E R α → Prop} {clash : Thread E R α → E → Prop} {s₀ s : Pool ι E R α W}
    (h : Pool.ApartReachable exec calls clash s₀ s) : Pool.Reachable exec calls s₀ s := by
  induction h with
  | refl => exact .refl
  | tail _ hstep ih =>
      refine ih.tail ?_
      cases hstep with
      | invoke i p hidle hp => exact .invoke _ i p hidle hp
      | act i e next last r w hi hexec hclear => exact .act _ i e next last r w hi hexec
      | finish i a last hi => exact .finish _ i a last hi

/-- A client that stands at `p` may go on to the end of `p` while the others wait.
Source: none
Kind: L -/
theorem Pool.ApartReachable.alone {exec : (e : E) → W → Outcome (R e × W)}
    {calls : Prog E R α → Prop} {clash : Thread E R α → E → Prop} {i : ι} {a : α} {w' : W}
    (p : Prog E R α) {s : Pool ι E R α W} {last : Option (Σ e, R e)}
    (hi : s.threads i = some ⟨p, last⟩)
    (hclear : ∀ j th, j ≠ i → s.threads j = some th → ∀ e, ¬clash th e)
    (hrun : p.run exec s.world = .ok (a, w')) :
    Pool.ApartReachable exec calls clash s ⟨w', Function.update s.threads i none⟩ := by
  induction p generalizing s last with
  | ret b =>
      obtain ⟨-, rfl⟩ := Prod.mk.inj (Except.ok.inj hrun)
      exact .single (.finish s i b last hi)
  | stop => cases hrun
  | act e next ih =>
      obtain ⟨⟨r, w⟩, hexec, hrest⟩ := bind_eq_ok_iff.mp hrun
      refine .head (.act s i e next last r w hi hexec fun j th hj hth => hclear j th hj hth e) ?_
      have hgo := ih r (s := ⟨w, Function.update s.threads i (some ⟨next r, some ⟨e, r⟩⟩)⟩)
        (Function.update_self ..) ?_ hrest
      · rwa [Function.update_idem] at hgo
      · intro j th hj hth
        simp only [Function.update_of_ne hj] at hth
        exact hclear j th hj hth

/-- A client that goes on alone finishes its call as the call runs by itself.
Source: none
Kind: L -/
theorem Pool.Reachable.alone {exec : (e : E) → W → Outcome (R e × W)}
    {calls : Prog E R α → Prop} {i : ι} {a : α} {w' : W} (p : Prog E R α) {s : Pool ι E R α W}
    {last : Option (Σ e, R e)} (hi : s.threads i = some ⟨p, last⟩)
    (hrun : p.run exec s.world = .ok (a, w')) :
    Pool.Reachable exec calls s ⟨w', Function.update s.threads i none⟩ :=
  have hapart : Pool.ApartReachable exec calls (fun _ _ => False) s
      ⟨w', Function.update s.threads i none⟩ :=
    Pool.ApartReachable.alone p hi (fun _ _ _ _ _ => id) hrun
  hapart.reachable

/-! ### Typestates -/

/-- Modes of a client, and what it may do in each.
Source: none
Kind: D -/
structure Typestate (E : Type) (R : E → Type) (M : Type) where
  allowed : M → E → Prop
  after : M → (e : E) → R e → M
  /-- The answers that the world can give. -/
  answers : (e : E) → R e → Prop
  /-- The modes in which a loop may leave its clock. -/
  halts : M → Prop

/-- Started in a mode, the program does only what its mode allows, whatever the answers are, and
returns `a` in a mode with `rest a`.
Source: none
Kind: D -/
def Prog.Follows (T : Typestate E R M) (rest : α → M → Prop) : M → Prog E R α → Prop
  | m, .ret a => rest a m
  | m, .stop => T.halts m
  | m, .act e next => T.allowed m e ∧ ∀ r, T.answers e r → (next r).Follows T rest (T.after m e r)

/-- A program follows the typestate if its two parts do, one from where the other ends.
Source: none
Kind: L -/
theorem Prog.Follows.bind {T : Typestate E R M} {rest : α → M → Prop} {rest' : β → M → Prop}
    {m : M} {p : Prog E R α} {f : α → Prog E R β} (hp : p.Follows T rest m)
    (hf : ∀ a m, rest a m → (f a).Follows T rest' m) : (p >>= f).Follows T rest' m := by
  induction p generalizing m with
  | ret a => exact hf a m hp
  | stop => exact hp
  | act e next ih => exact ⟨hp.1, fun r hr => ih r (hp.2 r hr)⟩

/-- A program that asks only for actions that some modes allow and do not leave stays in them.
Source: none
Kind: L -/
theorem Prog.Asks.follows {T : Typestate E R M} {P : E → Prop} {I : M → Prop} {p : Prog E R α}
    (h : p.Asks P) (hhalts : ∀ m, I m → T.halts m) (hallowed : ∀ m, I m → ∀ e, P e → T.allowed m e)
    (hafter : ∀ m, I m → ∀ e r, P e → I (T.after m e r)) {m : M} (hm : I m) :
    p.Follows T (fun _ m => I m) m := by
  induction p generalizing m with
  | ret a => exact hm
  | stop => exact hhalts m hm
  | act e next ih =>
      exact ⟨hallowed m hm e h.1, fun r _ => ih r (h.2 r) (hafter m hm e r h.1)⟩

/-- Every client follows the typestate from its mode.
Source: none
Kind: D -/
structure Pool.Moded (T : Typestate E R M) (rest : α → M → Prop) (start : M) (μ : ι → M)
    (s : Pool ι E R α W) : Prop where
  follows : ∀ i th, s.threads i = some th → th.prog.Follows T rest (μ i)
  idle : ∀ i, s.threads i = none → μ i = start

section moded

variable {T : Typestate E R M} {rest : α → M → Prop} {start : M} {μ : ι → M} {s : Pool ι E R α W}

/-- A client that can neither end nor halt in its mode has a next action, one that the mode allows.
Source: none
Kind: L -/
theorem Pool.Moded.exists_next (h : s.Moded T rest start μ) {i : ι} {th : Thread E R α}
    (hi : s.threads i = some th) (hends : ∀ a, ¬rest a (μ i)) (hhalts : ¬T.halts (μ i)) :
    ∃ e, th.next = some e ∧ T.allowed (μ i) e := by
  have hth := h.follows i th hi
  obtain ⟨prog, last⟩ := th
  cases prog with
  | ret a => exact absurd hth (hends a)
  | stop => exact absurd hth hhalts
  | act e next => exact ⟨e, rfl, hth.1⟩

/-- The mode of one client and its thread change together; the others keep theirs.
Source: none
Kind: L -/
theorem Pool.Moded.update (h : s.Moded T rest start μ) (i : ι) (m : M) (w : W)
    (th : Option (Thread E R α)) (hsome : ∀ t, th = some t → t.prog.Follows T rest m)
    (hnone : th = none → m = start) :
    Pool.Moded T rest start (Function.update μ i m) ⟨w, Function.update s.threads i th⟩ := by
  constructor
  · intro j t hj
    simp only at hj
    by_cases hji : j = i
    · subst hji
      rw [Function.update_self] at hj ⊢
      exact hsome t hj
    · rw [Function.update_of_ne hji] at hj ⊢
      exact h.follows j t hj
  · intro j hj
    simp only at hj
    by_cases hji : j = i
    · subst hji
      rw [Function.update_self] at hj ⊢
      exact hnone hj
    · rw [Function.update_of_ne hji] at hj ⊢
      exact h.idle j hj

end moded

/-- The rule of noninterference. The invariant `I` is over the modes and the pool; it has to be
kept by each action that is allowed in its client's mode and clashes with no other client. What
else is known of reachable states may be used.
Source: none
Kind: L -/
theorem Pool.outline {exec : (e : E) → W → Outcome (R e × W)} {calls : Prog E R α → Prop}
    {clash : Thread E R α → E → Prop} (T : Typestate E R M) (rest : α → M → Prop) (start : M)
    (I : (ι → M) → Pool ι E R α W → Prop) {w₀ : W}
    (hcalls : ∀ p, calls p → p.Follows T rest start)
    (hinvoke : ∀ μ s i p, s.Moded T rest start μ → I μ s → s.threads i = none → calls p →
      I μ { s with threads := Function.update s.threads i (some ⟨p, none⟩) })
    (hact : ∀ μ s i e next last r w, Pool.ApartReachable exec calls clash ⟨w₀, fun _ => none⟩ s →
      s.Moded T rest start μ → I μ s → s.threads i = some ⟨.act e next, last⟩ →
      exec e s.world = .ok (r, w) → (∀ j th, j ≠ i → s.threads j = some th → ¬clash th e) →
      T.answers e r ∧ I (Function.update μ i (T.after (μ i) e r))
        ⟨w, Function.update s.threads i (some ⟨next r, some ⟨e, r⟩⟩)⟩)
    (hfinish : ∀ μ s i a, I μ s → rest a (μ i) →
      I (Function.update μ i start) { s with threads := Function.update s.threads i none })
    (hstart : I (fun _ => start) ⟨w₀, fun _ => none⟩) {s : Pool ι E R α W}
    (hreach : Pool.ApartReachable exec calls clash ⟨w₀, fun _ => none⟩ s) :
    ∃ μ, s.Moded T rest start μ ∧ I μ s := by
  induction hreach with
  | refl =>
      refine ⟨fun _ => start, ⟨?_, fun i _ => rfl⟩, hstart⟩
      intro i th hi
      cases hi
  | @tail s _ hprev hstep ih =>
      obtain ⟨μ, hμ, hI⟩ := ih
      cases hstep with
      | invoke i p hidle hp =>
          refine ⟨μ, ?_, hinvoke μ s i p hμ hI hidle hp⟩
          have hkept := hμ.update i (μ i) s.world (some ⟨p, none⟩)
            (fun t ht => by cases ht; rw [hμ.idle i hidle]; exact hcalls p hp) (fun h => by cases h)
          rwa [Function.update_eq_self] at hkept
      | act i e next last r w hi hexec hclear =>
          have hfol := hμ.follows i _ hi
          obtain ⟨hr, hI'⟩ := hact μ s i e next last r w hprev hμ hI hi hexec hclear
          exact ⟨_, hμ.update i _ w _ (fun t ht => by cases ht; exact hfol.2 r hr)
            (fun h => by cases h), hI'⟩
      | finish i a last hi =>
          exact ⟨_, hμ.update i start s.world none (fun t ht => by cases ht) (fun _ => rfl),
            hfinish μ s i a hI (hμ.follows i _ hi)⟩

end CacheMoney.Found
