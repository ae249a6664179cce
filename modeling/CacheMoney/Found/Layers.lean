import CacheMoney.Found.History
import CacheMoney.Found.Script

/-!
# Programs over programs

A program whose actions are carried out by programs over smaller actions. When several clients run
such programs at the level of the smaller actions, what one client does there is the work of its
larger actions, one after another.

* `Prog.implement`: every action replaced by the program that carries it out; `Prog.run_implement`
  is its meaning for a client alone.
* `Prog.Replays`: the program, given these answers, returns this result.
* `Prog.along_implement`: the smaller actions fall into those of the larger ones.
* `InTurn`: the larger actions take place one after another in the events of a history.
-/

namespace CacheMoney.Found

variable {E A : Type} {R : E → Type} {B : A → Type} {α W X ι : Type}

/-! ### Implementations -/

/-- The program with every action replaced by a program that answers it.
Source: none
Kind: D -/
def Prog.implement (impl : (e : E) → Prog A B (R e)) : Prog E R α → Prog A B α
  | .ret a => .ret a
  | .stop => .stop
  | .act e next => impl e >>= fun r => (next r).implement impl

/-- Alone, the implemented program runs as if each action were carried out in one go.
Source: none
Kind: L -/
theorem Prog.run_implement (impl : (e : E) → Prog A B (R e))
    (exec : (a : A) → W → Outcome (B a × W)) (p : Prog E R α) :
    ∀ w, (p.implement impl).run exec w = p.run (fun e w => (impl e).run exec w) w := by
  induction p with
  | ret a => exact fun _ => rfl
  | stop => exact fun _ => rfl
  | act e next ih =>
      intro w
      rw [Prog.implement, Prog.run_bind, Prog.run_act]
      congr 1
      funext r
      exact ih r.1 r.2

/-- Given these answers in turn, the program returns `a`.
Source: none
Kind: D -/
inductive Prog.Replays : Prog E R α → List (Σ e, R e) → α → Prop where
  | ret (a : α) : Replays (.ret a) [] a
  | act (e : E) (next : R e → Prog E R α) (r : R e) {l : List (Σ e, R e)} {a : α}
      (h : Replays (next r) l a) : Replays (.act e next) (⟨e, r⟩ :: l) a

/-- What a program always returns, it returned in any log of it.
Source: none
Kind: L -/
theorem Prog.Always.of_replays {Q : α → Prop} {p : Prog E R α} (h : p.Always Q)
    {l : List (Σ e, R e)} {a : α} (hreplays : p.Replays l a) : Q a := by
  induction hreplays with
  | ret a => exact h
  | act e next r _ ih => exact ih (h r)

/-- The smaller actions of an implemented program are those of its actions, one after another.
Source: none
Kind: L -/
theorem Prog.along_implement {impl : (e : E) → Prog A B (R e)}
    {P : (e : E) → List (Σ a, B a) → R e → Prop} (himpl : ∀ e, (impl e).Along (P e) [])
    (p : Prog E R α) : (p.implement impl).Along (fun l a =>
      ∃ calls : List ((Σ e, R e) × List (Σ a, B a)), p.Replays (calls.map Prod.fst) a ∧
        l = (calls.map Prod.snd).flatten ∧ ∀ c ∈ calls, P c.1.1 c.2 c.1.2) [] := by
  induction p with
  | ret a => exact ⟨[], .ret a, rfl, fun c hc => absurd hc List.not_mem_nil⟩
  | stop => trivial
  | act e next ih =>
      refine (himpl e).seq fun l r hl => (ih r).mono fun l' a h => ?_
      obtain ⟨calls, hreplays, rfl, hcalls⟩ := h
      refine ⟨(⟨e, r⟩, l) :: calls, .act e next r hreplays, ?_, ?_⟩
      · rw [List.map_cons, List.flatten_cons]
      · exact List.forall_mem_cons.mpr ⟨hl, hcalls⟩

/-! ### Histories -/

section histories

variable [DecidableEq ι] {i : ι}

/-- Where the actions of a client fall apart, so does the history.
Source: none
Kind: L -/
theorem split_of_actionsOf {l₁ l₂ : List (Σ a, B a)} : ∀ {log : List (Event ι A B α)},
    actionsOf i log = l₁ ++ l₂ →
      ∃ log₁ log₂, log = log₁ ++ log₂ ∧ actionsOf i log₁ = l₁ ∧ actionsOf i log₂ = l₂ := by
  induction l₁ with
  | nil => exact fun h => ⟨[], _, rfl, rfl, h⟩
  | cons x l₁ ih =>
      intro log h
      obtain ⟨before, later, rfl, hbefore, hlater⟩ :=
        exists_of_actionsOf (show actionsOf i log = [] ++ ⟨x.1, x.2⟩ :: (l₁ ++ l₂) from h)
      obtain ⟨log₁, log₂, rfl, h₁, h₂⟩ := ih hlater
      refine ⟨before ++ .done i x.1 x.2 :: log₁, log₂, by simp, ?_, h₂⟩
      rw [actionsOf_append, hbefore, List.nil_append, ← List.singleton_append, actionsOf_append,
        actionsOf_own, h₁, List.singleton_append]

/-- The calls of a client take place one after another: each in its own part of the events, which
begins where the object is as the parts before it have left it.
Source: none
Kind: D -/
inductive InTurn (spec : Spec A B X) (i : ι)
    (P : X → List (Event ι A B α) → (Σ e, R e) → Prop) :
    X → List (Event ι A B α) → List (Σ e, R e) → Prop where
  | nil {x : X} {rest : List (Event ι A B α)} (h : actionsOf i rest = []) :
      InTurn spec i P x rest []
  | cons {x : X} {during rest : List (Event ι A B α)} {c : Σ e, R e} {calls : List (Σ e, R e)}
      (h : P x during c) (hrest : InTurn spec i P (spec.after x during) rest calls) :
      InTurn spec i P x (during ++ rest) (c :: calls)

/-- What every call satisfies in any surroundings holds of calls in turn.
Source: none
Kind: L -/
theorem inTurn_of_actions {spec : Spec A B X} {I : X → Prop}
    (hI : ∀ x (log : List (Event ι A B α)), I x → I (spec.after x log))
    {P : X → List (Event ι A B α) → (Σ e, R e) → Prop}
    {calls : List ((Σ e, R e) × List (Σ a, B a))}
    (hP : ∀ c ∈ calls, ∀ x during, I x → spec.Legal x during → actionsOf i during = c.2 →
      P x during c.1) : ∀ {x : X} {post : List (Event ι A B α)}, I x → spec.Legal x post →
      actionsOf i post = (calls.map Prod.snd).flatten →
      InTurn spec i P x post (calls.map Prod.fst) := by
  induction calls with
  | nil => exact fun _ _ hacts => .nil hacts
  | cons c calls ih =>
      intro x post hx hlegal hacts
      rw [List.map_cons, List.flatten_cons] at hacts
      obtain ⟨during, rest, rfl, hduring, hrest⟩ := split_of_actionsOf hacts
      obtain ⟨hlegal₁, hlegal₂⟩ := Spec.legal_append.mp hlegal
      refine .cons (hP c List.mem_cons_self x during hx hlegal₁ hduring) ?_
      exact ih (fun c' hc' => hP c' (List.mem_cons_of_mem c hc')) (hI x during hx) hlegal₂ hrest

end histories

end CacheMoney.Found
