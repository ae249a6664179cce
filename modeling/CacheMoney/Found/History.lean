import CacheMoney.Found.Pool

/-!
# Histories of interleaved programs

The runs of a pool with what can be seen of them: who called which program, which action was
performed with which answer, and what was returned, in the order in which it happened. A call's
actions stand between its call and its return, so the order of the actions of a history respects
real time.

* `Pool.Trace`: a run and its history.
* `Spec`: an abstract object, with the answers it may give. `Spec.Legal` says that the actions of
  a history, taken one after the other, are a run of the object.
* `Pool.Trace.legal`: if the world simulates the object action by action, then every history is
  legal.
* `Pool.Trace.watch`: the view of one client. What its own actions establish and the actions of
  the others keep, holds at every point of its program.
* `Prog.Along`: what the actions of a program and its result have to do with each other, whatever
  the answers; `Pool.Trace.along_call` reads it off every call of a history.
* `Pool.Trace.composed`: the actions of a history are those of its calls.
-/

set_option linter.unusedSectionVars false

namespace CacheMoney.Found

variable {E : Type} {R : E → Type} {α W X ι : Type}

/-! ### Events -/

/-- What can be seen of a run.
Source: none
Kind: D -/
inductive Event (ι E : Type) (R : E → Type) (α : Type) where
  | called (i : ι) (p : Prog E R α)
  | done (i : ι) (e : E) (r : R e)
  | returned (i : ι) (a : α)

/-- Source: none
Kind: D -/
def Event.client : Event ι E R α → ι
  | .called i _ => i
  | .done i _ _ => i
  | .returned i _ => i

/-- An abstract object: the state after an action, and the answers the action may have.
Source: none
Kind: D -/
structure Spec (E : Type) (R : E → Type) (X : Type) where
  next : X → (e : E) → R e → X
  allows : X → (e : E) → R e → Prop

/-- Source: none
Kind: D -/
def Spec.nextEvent (spec : Spec E R X) (x : X) : Event ι E R α → X
  | .done _ e r => spec.next x e r
  | _ => x

/-- Source: none
Kind: D -/
def Spec.AllowsEvent (spec : Spec E R X) (x : X) : Event ι E R α → Prop
  | .done _ e r => spec.allows x e r
  | _ => True

/-- The object after the actions of a history.
Source: none
Kind: D -/
def Spec.after (spec : Spec E R X) (x : X) (log : List (Event ι E R α)) : X :=
  log.foldl spec.nextEvent x

/-- The actions of the history are a run of the object.
Source: none
Kind: D -/
def Spec.Legal (spec : Spec E R X) : X → List (Event ι E R α) → Prop
  | _, [] => True
  | x, ev :: log => spec.AllowsEvent x ev ∧ spec.Legal (spec.nextEvent x ev) log

/-- A cost of the changes of the object, summed over a history.
Source: none
Kind: D -/
def Spec.tally (spec : Spec E R X) (cost : X → X → ℕ) : X → List (Event ι E R α) → ℕ
  | _, [] => 0
  | x, ev :: log =>
      cost x (spec.nextEvent x ev) + spec.tally cost (spec.nextEvent x ev) log

section spec

variable {spec : Spec E R X} {x : X} {log : List (Event ι E R α)} {ev : Event ι E R α}

/-- Equation lemma: no event, no change.
Source: none
Kind: L -/
@[simp] theorem Spec.after_nil : spec.after x ([] : List (Event ι E R α)) = x := rfl

/-- Equation lemma: the last event changes the state last.
Source: none
Kind: L -/
theorem Spec.after_snoc : spec.after x (log ++ [ev]) = spec.nextEvent (spec.after x log) ev := by
  rw [Spec.after, List.foldl_append]
  rfl

/-- The state after two logs is reached through the state after the first.
Source: none
Kind: L -/
theorem Spec.after_append (log' : List (Event ι E R α)) :
    spec.after x (log ++ log') = spec.after (spec.after x log) log' := List.foldl_append

/-- A log is legal if its parts are, one after the other.
Source: none
Kind: L -/
theorem Spec.legal_append {log' : List (Event ι E R α)} :
    spec.Legal x (log ++ log') ↔ spec.Legal x log ∧ spec.Legal (spec.after x log) log' := by
  induction log generalizing x with
  | nil => simp [Spec.Legal]
  | cons ev' log ih =>
      rw [List.cons_append, Spec.Legal, Spec.Legal, ih, and_assoc]
      rfl

/-- One more event is legal if the state before it allows it.
Source: none
Kind: L -/
theorem Spec.legal_snoc :
    spec.Legal x (log ++ [ev]) ↔ spec.Legal x log ∧ spec.AllowsEvent (spec.after x log) ev := by
  rw [Spec.legal_append, Spec.Legal, Spec.Legal, and_true]

/-- The last event adds its cost.
Source: none
Kind: L -/
theorem Spec.tally_snoc (cost : X → X → ℕ) : spec.tally cost x (log ++ [ev]) =
    spec.tally cost x log + cost (spec.after x log) (spec.nextEvent (spec.after x log) ev) := by
  induction log generalizing x with
  | nil => simp [Spec.tally]
  | cons ev' log ih =>
      rw [List.cons_append, Spec.tally, Spec.tally, ih, Nat.add_assoc]
      rfl

/-- The object without a state, which allows every answer.
Source: none
Kind: D -/
def Spec.free : Spec E R Unit := ⟨fun x _ _ => x, fun _ _ _ => True⟩

/-- The specification that allows everything has only legal logs.
Source: none
Kind: L -/
theorem Spec.free_legal (log : List (Event ι E R α)) : Spec.free.Legal () log := by
  induction log with
  | nil => trivial
  | cons ev log ih =>
      refine ⟨?_, ih⟩
      cases ev <;> trivial

end spec

/-! ### Traces -/

variable [DecidableEq ι]

/-- One step of the pool, with what can be seen of it.
Source: none
Kind: D -/
inductive Pool.Move (exec : (e : E) → W → Outcome (R e × W)) (calls : Prog E R α → Prop) :
    Pool ι E R α W → Event ι E R α → Pool ι E R α W → Prop where
  | called (s : Pool ι E R α W) (i : ι) (p : Prog E R α) (hidle : s.threads i = none)
      (hp : calls p) :
      Move exec calls s (.called i p)
        { s with threads := Function.update s.threads i (some ⟨p, none⟩) }
  | done (s : Pool ι E R α W) (i : ι) (e : E) (next : R e → Prog E R α)
      (last : Option (Σ e, R e)) (r : R e) (w : W) (hi : s.threads i = some ⟨.act e next, last⟩)
      (hexec : exec e s.world = .ok (r, w)) :
      Move exec calls s (.done i e r)
        ⟨w, Function.update s.threads i (some ⟨next r, some ⟨e, r⟩⟩)⟩
  | returned (s : Pool ι E R α W) (i : ι) (a : α) (last : Option (Σ e, R e))
      (hi : s.threads i = some ⟨.ret a, last⟩) :
      Move exec calls s (.returned i a) { s with threads := Function.update s.threads i none }

/-- A run from `s₀`, with its history.
Source: none
Kind: D -/
inductive Pool.Trace (exec : (e : E) → W → Outcome (R e × W)) (calls : Prog E R α → Prop)
    (s₀ : Pool ι E R α W) : List (Event ι E R α) → Pool ι E R α W → Prop where
  | nil : Trace exec calls s₀ [] s₀
  | snoc {log : List (Event ι E R α)} {s s' : Pool ι E R α W} {ev : Event ι E R α} :
      Trace exec calls s₀ log s → Pool.Move exec calls s ev s' →
      Trace exec calls s₀ (log ++ [ev]) s'

section traces

variable {exec : (e : E) → W → Outcome (R e × W)} {calls : Prog E R α → Prop}
  {s₀ s s' : Pool ι E R α W} {log : List (Event ι E R α)} {ev : Event ι E R α}

/-- A world that simulates an object action by action gives legal histories only.
Source: none
Kind: L -/
theorem Pool.Trace.legal {spec : Spec E R X} (sim : W → X → Prop)
    (hexec : ∀ e w x r w', sim w x → exec e w = .ok (r, w') →
      spec.allows x e r ∧ sim w' (spec.next x e r))
    {x : X} (h₀ : sim s₀.world x) (h : Pool.Trace exec calls s₀ log s) :
    spec.Legal x log ∧ sim s.world (spec.after x log) := by
  induction h with
  | nil => exact ⟨trivial, h₀⟩
  | snoc _ hmove ih =>
      rw [Spec.legal_snoc, Spec.after_snoc]
      cases hmove with
      | called i p hidle hp => exact ⟨⟨ih.1, trivial⟩, ih.2⟩
      | done i e next last r w hi hact =>
          obtain ⟨hallows, hsim⟩ := hexec e _ _ r w ih.2 hact
          exact ⟨⟨ih.1, hallows⟩, hsim⟩
      | returned i a last hi => exact ⟨⟨ih.1, trivial⟩, ih.2⟩

/-- One step, seen by a client that does not end its program with it: either it performed the next
action of its program, or somebody else did something.
Source: none
Kind: L -/
theorem Pool.Move.seen {i : ι} {th : Thread E R α} (h : Pool.Move exec calls s ev s')
    (hi : s.threads i = some th) (hrun : ∀ a, ev ≠ .returned i a) :
    (∃ e next r, th.prog = .act e next ∧ ev = .done i e r ∧
      s'.threads i = some ⟨next r, some ⟨e, r⟩⟩) ∨
    (ev.client ≠ i ∧ s'.threads i = some th) := by
  have hother : ∀ (j : ι) (x : Option (Thread E R α)), j ≠ i →
      Function.update s.threads j x i = some th := by
    intro j x hj
    rw [Function.update_of_ne hj.symm]
    exact hi
  cases h with
  | called j p hidle hp =>
      have hj : j ≠ i := by
        rintro rfl
        rw [hidle] at hi
        cases hi
      exact Or.inr ⟨hj, hother j _ hj⟩
  | done j e next last r w hj hexec =>
      by_cases hij : j = i
      · subst hij
        obtain rfl := Option.some.inj (hj.symm.trans hi)
        exact Or.inl ⟨e, next, r, rfl, rfl, Function.update_self ..⟩
      · exact Or.inr ⟨hij, hother j _ hij⟩
  | returned j a last hj =>
      have hij : j ≠ i := by
        rintro rfl
        exact hrun a rfl
      exact Or.inr ⟨hij, hother j _ hij⟩

/-- The view of one client. `J log p` speaks about the history since the start and the rest of the
client's program; its own actions establish it and the others keep it, each with an answer that
the object allows at that point.
Source: none
Kind: L -/
theorem Pool.Trace.watch {spec : Spec E R X} {x : X} {i : ι}
    (J : List (Event ι E R α) → Prog E R α → Prop)
    (hown : ∀ log e next r, J log (.act e next) → spec.allows (spec.after x log) e r →
      J (log ++ [.done i e r]) (next r))
    (hother : ∀ log p ev, J log p → ev.client ≠ i → spec.AllowsEvent (spec.after x log) ev →
      J (log ++ [ev]) p)
    {th₀ : Thread E R α} (hi : s₀.threads i = some th₀) (h₀ : J [] th₀.prog)
    (h : Pool.Trace exec calls s₀ log s) (hlegal : spec.Legal x log)
    (hrun : ∀ a, .returned i a ∉ log) : ∃ th, s.threads i = some th ∧ J log th.prog := by
  induction h with
  | nil => exact ⟨th₀, hi, h₀⟩
  | @snoc log _ _ ev _ hmove ih =>
      obtain ⟨hlegal, hallows⟩ := Spec.legal_snoc.mp hlegal
      have hbefore : ∀ a, .returned i a ∉ log := fun a ha => hrun a (List.mem_append_left _ ha)
      have hev : ∀ a, ev ≠ .returned i a := fun a ha =>
        hrun a (List.mem_append_right _ (List.mem_singleton.mpr ha.symm))
      obtain ⟨th, hth, hJ⟩ := ih hlegal hbefore
      rcases hmove.seen hth hev with ⟨e, next, r, hprog, rfl, hth'⟩ | ⟨hclient, hth'⟩
      · rw [hprog] at hJ
        exact ⟨_, hth', hown _ e next r hJ hallows⟩
      · exact ⟨th, hth', hother _ _ _ hJ hclient hallows⟩

/-- Whatever the answers, the program returns after finitely many actions, all of them `ok`.
Source: none
Kind: D -/
def Prog.Ends (ok : E → Prop) : Prog E R α → Prop
  | .ret _ => True
  | .stop => False
  | .act e next => ok e ∧ ∀ r, (next r).Ends ok

/-- Every client in a call is in the middle of a program that ends well.
Source: none
Kind: L -/
theorem Pool.Trace.ends {ok : E → Prop} (hcalls : ∀ p, calls p → p.Ends ok)
    (h₀ : ∀ i th, s₀.threads i = some th → th.prog.Ends ok)
    (h : Pool.Trace exec calls s₀ log s) {i : ι} {th : Thread E R α}
    (hi : s.threads i = some th) : th.prog.Ends ok := by
  induction h generalizing i th with
  | nil => exact h₀ i th hi
  | snoc _ hmove ih =>
      cases hmove with
      | called j p hidle hp =>
          simp only [Function.update_apply] at hi
          split_ifs at hi with hij
          · obtain rfl := Option.some.inj hi
            exact hcalls p hp
          · exact ih hi
      | done j e next last r w hj hexec =>
          simp only [Function.update_apply] at hi
          split_ifs at hi with hij
          · obtain rfl := Option.some.inj hi
            exact (ih hj).2 r
          · exact ih hi
      | returned j a last hj =>
          simp only [Function.update_apply] at hi
          split_ifs at hi with hij
          exact ih hi

/-- A history has a state at each of its points.
Source: none
Kind: L -/
theorem Pool.Trace.split {log₁ log₂ : List (Event ι E R α)}
    (h : Pool.Trace exec calls s₀ (log₁ ++ log₂) s) :
    ∃ s₁, Pool.Trace exec calls s₀ log₁ s₁ ∧ Pool.Trace exec calls s₁ log₂ s := by
  generalize hlog : log₁ ++ log₂ = log at h
  induction h generalizing log₂ with
  | nil =>
      obtain ⟨rfl, rfl⟩ := List.append_eq_nil_iff.mp hlog
      exact ⟨s₀, .nil, .nil⟩
  | @snoc log s s' ev htrace hmove ih =>
      rcases List.eq_nil_or_concat log₂ with rfl | ⟨log₂, ev', rfl⟩
      · rw [List.append_nil] at hlog
        subst hlog
        exact ⟨s', htrace.snoc hmove, .nil⟩
      · rw [List.concat_eq_append, ← List.append_assoc] at hlog
        obtain ⟨rfl, hev⟩ := List.append_inj' hlog rfl
        obtain rfl := List.singleton_inj.mp hev
        obtain ⟨s₁, h₁, h₂⟩ := ih rfl
        refine ⟨s₁, h₁, ?_⟩
        rw [List.concat_eq_append]
        exact h₂.snoc hmove

/-- A trace with a last event is a trace and a move.
Source: none
Kind: L -/
theorem Pool.Trace.of_snoc (h : Pool.Trace exec calls s₀ (log ++ [ev]) s) :
    ∃ s₁, Pool.Trace exec calls s₀ log s₁ ∧ Pool.Move exec calls s₁ ev s := by
  generalize hlog : log ++ [ev] = log' at h
  cases h with
  | nil => exact absurd hlog (List.append_ne_nil_of_right_ne_nil _ (List.cons_ne_nil _ _))
  | snoc htrace hmove =>
      obtain ⟨rfl, hev⟩ := List.append_inj' hlog rfl
      obtain rfl := List.singleton_inj.mp hev
      exact ⟨_, htrace, hmove⟩

/-- A move before a trace.
Source: none
Kind: L -/
theorem Pool.Trace.cons {s₁ : Pool ι E R α W} (hmove : Pool.Move exec calls s₀ ev s₁)
    (h : Pool.Trace exec calls s₁ log s) : Pool.Trace exec calls s₀ (ev :: log) s := by
  induction h with
  | nil => exact .snoc .nil hmove
  | snoc _ hlast ih => exact .snoc ih hlast

/-- The view of one client over one call, from its call to its return.
Source: none
Kind: L -/
theorem Pool.Trace.watch_call {spec : Spec E R X} {x : X} {i : ι} {p : Prog E R α} {a : α}
    {pre post : List (Event ι E R α)} (J : List (Event ι E R α) → Prog E R α → Prop)
    (h₀ : J [] p)
    (hown : ∀ log e next r, J log (.act e next) →
      spec.allows (spec.after (spec.after x pre) log) e r → J (log ++ [.done i e r]) (next r))
    (hother : ∀ log p ev, J log p → ev.client ≠ i →
      spec.AllowsEvent (spec.after (spec.after x pre) log) ev → J (log ++ [ev]) p)
    (h : Pool.Trace exec calls s₀ (pre ++ .called i p :: post ++ [.returned i a]) s)
    (hlegal : spec.Legal x (pre ++ .called i p :: post ++ [.returned i a]))
    (hrun : ∀ a, .returned i a ∉ post) : J post (.ret a) := by
  obtain ⟨s₂, hbefore, hreturn⟩ := h.of_snoc
  rw [Spec.legal_append, show pre ++ .called i p :: post = pre ++ [.called i p] ++ post by simp,
    Spec.legal_append, Spec.after_snoc] at hlegal
  rw [show pre ++ .called i p :: post = pre ++ [.called i p] ++ post by simp] at hbefore
  obtain ⟨s₁, hpre, hpost⟩ := hbefore.split
  obtain ⟨s', -, hcall⟩ := hpre.of_snoc
  have hstart : s₁.threads i = some ⟨p, none⟩ := by
    cases hcall with
    | called _ _ hidle hp => exact Function.update_self ..
  have hend : ∃ last, s₂.threads i = some ⟨.ret a, last⟩ := by
    cases hreturn with
    | returned _ _ last hi => exact ⟨last, hi⟩
  obtain ⟨th, hth, hJ⟩ := Pool.Trace.watch J hown hother hstart h₀ hpost hlegal.1.2 hrun
  obtain ⟨last, hlast⟩ := hend
  rw [hlast] at hth
  obtain rfl := Option.some.inj hth
  exact hJ

/-! ### Calls and their own actions -/

/-- The actions of one client, in order.
Source: none
Kind: D -/
def actionsOf (i : ι) : List (Event ι E R α) → List (Σ e, R e)
  | [] => []
  | .done j e r :: log => if j = i then ⟨e, r⟩ :: actionsOf i log else actionsOf i log
  | _ :: log => actionsOf i log

/-- Whatever the answers, the actions of the program so far and to come, and what it returns, are
related.
Source: none
Kind: D -/
def Prog.Along (Q : List (Σ e, R e) → α → Prop) : List (Σ e, R e) → Prog E R α → Prop
  | l, .ret a => Q l a
  | _, .stop => True
  | l, .act e next => ∀ r, (next r).Along Q (l ++ [⟨e, r⟩])

/-- Sequencing: the second part goes on with the actions of the first.
Source: none
Kind: L -/
theorem Prog.Along.bind {β : Type} {Q : List (Σ e, R e) → β → Prop} {f : α → Prog E R β}
    {p : Prog E R α} {l : List (Σ e, R e)} (h : p.Along (fun l' a => (f a).Along Q l') l) :
    (p >>= f).Along Q l := by
  induction p generalizing l with
  | ret a => exact h
  | stop => trivial
  | act e next ih => exact fun r => ih r (h r)

/-- What is known of the actions and the result may be weakened.
Source: none
Kind: L -/
theorem Prog.Along.mono {Q Q' : List (Σ e, R e) → α → Prop} (hQ : ∀ l a, Q l a → Q' l a)
    {p : Prog E R α} {l : List (Σ e, R e)} (h : p.Along Q l) : p.Along Q' l := by
  induction p generalizing l with
  | ret a => exact hQ l a h
  | stop => trivial
  | act e next ih => exact fun r => ih r (h r)

/-- Actions before the program are put in front.
Source: none
Kind: L -/
theorem Prog.Along.shift {Q : List (Σ e, R e) → α → Prop} {p : Prog E R α}
    (l₀ : List (Σ e, R e)) : ∀ {l : List (Σ e, R e)},
      p.Along (fun l' a => Q (l₀ ++ l') a) l → p.Along Q (l₀ ++ l) := by
  induction p with
  | ret a => exact fun h => h
  | stop => exact fun _ => trivial
  | act e next ih =>
      intro l h r
      rw [List.append_assoc]
      exact ih r (h r)

/-- Sequencing, each program from its own start.
Source: none
Kind: L -/
theorem Prog.Along.seq {β : Type} {P : List (Σ e, R e) → α → Prop}
    {Q : List (Σ e, R e) → β → Prop} {p : Prog E R α} {f : α → Prog E R β} (hp : p.Along P [])
    (hf : ∀ l a, P l a → (f a).Along (fun l' b => Q (l ++ l') b) []) : (p >>= f).Along Q [] := by
  refine Prog.Along.bind (hp.mono fun l a hla => ?_)
  have hshift := Prog.Along.shift l (hf l a hla)
  rwa [List.append_nil] at hshift

/-- An action and what follows it.
Source: none
Kind: L -/
theorem Prog.Along.perform {Q : List (Σ e, R e) → α → Prop} {e : E} {next : R e → Prog E R α}
    (h : ∀ r, (next r).Along (fun l a => Q (⟨e, r⟩ :: l) a) []) :
    (Prog.perform e >>= next).Along Q [] :=
  fun r => Prog.Along.shift [⟨e, r⟩] (h r)

/-- The actions of a client in two logs, one after the other.
Source: none
Kind: L -/
theorem actionsOf_append (i : ι) (log log' : List (Event ι E R α)) :
    actionsOf i (log ++ log') = actionsOf i log ++ actionsOf i log' := by
  induction log with
  | nil => rfl
  | cons ev log ih =>
      cases ev with
      | called j p => exact ih
      | returned j a => exact ih
      | done j e r =>
          rw [List.cons_append, actionsOf, actionsOf]
          by_cases hj : j = i
          · rw [if_pos hj, if_pos hj, ih, List.cons_append]
          · rw [if_neg hj, if_neg hj, ih]

/-- An event of another client is no action of this one.
Source: none
Kind: L -/
theorem actionsOf_other {i : ι} {ev : Event ι E R α} (h : ev.client ≠ i) :
    actionsOf i [ev] = [] := by
  cases ev with
  | called j p => rfl
  | returned j a => rfl
  | done j e r => exact if_neg h

/-- An action of the client itself.
Source: none
Kind: L -/
theorem actionsOf_own (i : ι) (e : E) (r : R e) :
    actionsOf i [(.done i e r : Event ι E R α)] = [⟨e, r⟩] := if_pos rfl

/-- An action of a client has its place in the history.
Source: none
Kind: L -/
theorem exists_of_actionsOf {i : ι} {e : E} {r : R e} {l₁ l₂ : List (Σ e, R e)} :
    ∀ {log : List (Event ι E R α)}, actionsOf i log = l₁ ++ ⟨e, r⟩ :: l₂ →
      ∃ log₁ log₂, log = log₁ ++ .done i e r :: log₂ ∧ actionsOf i log₁ = l₁ ∧
        actionsOf i log₂ = l₂ := by
  intro log
  induction log generalizing l₁ with
  | nil => exact fun h => absurd h (by simp [actionsOf])
  | cons ev log ih =>
      intro h
      rw [← List.singleton_append, actionsOf_append] at h
      have hskip : actionsOf i [ev] = [] → ∃ log₁ log₂, ev :: log = log₁ ++ .done i e r :: log₂ ∧
          actionsOf i log₁ = l₁ ∧ actionsOf i log₂ = l₂ := by
        intro hnone
        rw [hnone, List.nil_append] at h
        obtain ⟨log₁, log₂, rfl, h₁, h₂⟩ := ih h
        refine ⟨ev :: log₁, log₂, rfl, ?_, h₂⟩
        rw [← List.singleton_append, actionsOf_append, hnone, List.nil_append, h₁]
      by_cases hev : ∃ e' r', ev = .done i e' r'
      · obtain ⟨e', r', rfl⟩ := hev
        rw [actionsOf_own, List.singleton_append] at h
        cases l₁ with
        | nil =>
            rw [List.nil_append] at h
            obtain ⟨heq, hrest⟩ := List.cons.inj h
            obtain ⟨rfl, hr⟩ := Sigma.mk.inj heq
            obtain rfl := eq_of_heq hr
            exact ⟨[], log, rfl, rfl, hrest⟩
        | cons y l₁ =>
            obtain ⟨rfl, hrest⟩ := List.cons.inj h
            obtain ⟨log₁, log₂, rfl, h₁, h₂⟩ := ih hrest
            refine ⟨.done i e' r' :: log₁, log₂, rfl, ?_, h₂⟩
            rw [← List.singleton_append, actionsOf_append, actionsOf_own, h₁, List.singleton_append]
      · apply hskip
        cases ev with
        | called j p => rfl
        | returned j a => rfl
        | done j e' r' =>
            apply actionsOf_other
            rintro rfl
            exact hev ⟨e', r', rfl⟩

/-- The actions of one call, from its call to its return, and what it returned.
Source: none
Kind: L -/
theorem Pool.Trace.along_call {Q : List (Σ e, R e) → α → Prop} {i : ι} {p : Prog E R α} {a : α}
    {pre post : List (Event ι E R α)} (hp : p.Along Q [])
    (h : Pool.Trace exec calls s₀ (pre ++ .called i p :: post ++ [.returned i a]) s)
    (hrun : ∀ a, .returned i a ∉ post) : Q (actionsOf i post) a := by
  refine Pool.Trace.watch_call (fun log p => p.Along Q (actionsOf i log)) hp ?_ ?_ h
    (Spec.free_legal _) hrun
  · intro log e next r hJ _
    rw [actionsOf_append, actionsOf_own]
    exact hJ r
  · intro log p ev hJ hclient _
    rw [actionsOf_append, actionsOf_other hclient, List.append_nil]
    exact hJ

/-! ### A history is made of calls -/

/-- Source: none
Kind: D -/
def Event.action? : Event ι E R α → Option (Σ e, R e)
  | .done _ e r => some ⟨e, r⟩
  | _ => none

/-- Source: none
Kind: D -/
def Event.reply? : Event ι E R α → Option α
  | .returned _ a => some a
  | _ => none

/-- A sum over clients changes by what the changed client contributes.
Source: none
Kind: L -/
theorem sum_update {M β : Type} [AddCommMonoid M] {t : Finset ι} (g : β → M) (f : ι → β) {i : ι}
    (hi : i ∈ t) (x : β) :
    ∑ j ∈ t, g (Function.update f i x j) + g (f i) = ∑ j ∈ t, g (f j) + g x := by
  rw [← Finset.add_sum_erase t _ hi, ← Finset.add_sum_erase t (fun j => g (f j)) hi,
    Function.update_self]
  have hrest : ∑ j ∈ t.erase i, g (Function.update f i x j) = ∑ j ∈ t.erase i, g (f j) := by
    apply Finset.sum_congr rfl
    intro j hj
    rw [Function.update_of_ne (Finset.ne_of_mem_erase hj)]
  rw [hrest, add_right_comm, add_comm (g x), add_right_comm]

/-- The calls of a history: those that returned, each with its actions and its reply, and those in
progress, each with its actions so far. Nothing else has acted.
Source: none
Kind: D -/
structure Composed [Fintype ι] (Q : List (Σ e, R e) → α → Prop)
    (threads : ι → Option (Thread E R α)) (log : List (Event ι E R α))
    (ended : List (List (Σ e, R e) × α)) (since : ι → List (Σ e, R e)) : Prop where
  ended_ok : ∀ c ∈ ended, Q c.1 c.2
  replies : log.filterMap Event.reply? = ended.map Prod.snd
  idle : ∀ i, threads i = none → since i = []
  busy : ∀ i th, threads i = some th → th.prog.Along Q (since i)
  actions : (log.filterMap Event.action? : Multiset (Σ e, R e)) =
    (ended.map fun c => (c.1 : Multiset (Σ e, R e))).sum + ∑ i, (since i : Multiset (Σ e, R e))

section composed

variable [Fintype ι] {Q : List (Σ e, R e) → α → Prop} {ended : List (List (Σ e, R e) × α)}
  {since : ι → List (Σ e, R e)}

/-- A call begins with no action taken.
Source: none
Kind: L -/
theorem Composed.called {i : ι} {p : Prog E R α} (h : Composed Q s.threads log ended since)
    (hidle : s.threads i = none) (hp : p.Along Q []) :
    Composed Q (Function.update s.threads i (some ⟨p, none⟩)) (log ++ [.called i p]) ended
      since where
  ended_ok := h.ended_ok
  replies := by
    rw [List.filterMap_append, h.replies]
    exact List.append_nil _
  idle j hj := by
    by_cases hij : j = i
    · rw [hij]
      exact h.idle i hidle
    · rw [Function.update_of_ne hij] at hj
      exact h.idle j hj
  busy j th hj := by
    by_cases hij : j = i
    · subst hij
      rw [Function.update_self] at hj
      obtain rfl := Option.some.inj hj
      rw [h.idle j hidle]
      exact hp
    · rw [Function.update_of_ne hij] at hj
      exact h.busy j th hj
  actions := by
    rw [List.filterMap_append, ← h.actions]
    exact congrArg _ (List.append_nil _)

/-- An action is added to the call its client is in.
Source: none
Kind: L -/
theorem Composed.done {i : ι} {e : E} {next : R e → Prog E R α} {last : Option (Σ e, R e)}
    (r : R e) (h : Composed Q s.threads log ended since)
    (hi : s.threads i = some ⟨.act e next, last⟩) :
    Composed Q (Function.update s.threads i (some ⟨next r, some ⟨e, r⟩⟩)) (log ++ [.done i e r])
      ended (Function.update since i (since i ++ [⟨e, r⟩])) where
  ended_ok := h.ended_ok
  replies := by
    rw [List.filterMap_append, h.replies]
    exact List.append_nil _
  idle j hj := by
    by_cases hij : j = i
    · subst hij
      rw [Function.update_self] at hj
      cases hj
    · rw [Function.update_of_ne hij] at hj ⊢
      exact h.idle j hj
  busy j th hj := by
    by_cases hij : j = i
    · subst hij
      rw [Function.update_self] at hj ⊢
      obtain rfl := Option.some.inj hj
      exact h.busy j _ hi r
    · rw [Function.update_of_ne hij] at hj ⊢
      exact h.busy j th hj
  actions := by
    have hsum := sum_update (fun l : List (Σ e, R e) => (l : Multiset (Σ e, R e))) since
      (Finset.mem_univ i) (since i ++ [⟨e, r⟩])
    rw [← Multiset.coe_add, ← add_assoc, add_right_comm] at hsum
    have hsum := add_right_cancel hsum
    rw [List.filterMap_append, ← Multiset.coe_add, h.actions, hsum, add_assoc]
    rfl

/-- A return moves the actions of the call to the calls that have ended.
Source: none
Kind: L -/
theorem Composed.returned {i : ι} {a : α} {last : Option (Σ e, R e)}
    (h : Composed Q s.threads log ended since) (hi : s.threads i = some ⟨.ret a, last⟩) :
    Composed Q (Function.update s.threads i none) (log ++ [.returned i a])
      (ended ++ [(since i, a)]) (Function.update since i []) where
  ended_ok c hc := by
    rcases List.mem_append.mp hc with hc | hc
    · exact h.ended_ok c hc
    · obtain rfl := List.mem_singleton.mp hc
      exact h.busy i _ hi
  replies := by
    rw [List.filterMap_append, h.replies, List.map_append]
    rfl
  idle j hj := by
    by_cases hij : j = i
    · rw [hij, Function.update_self]
    · rw [Function.update_of_ne hij] at hj ⊢
      exact h.idle j hj
  busy j th hj := by
    by_cases hij : j = i
    · subst hij
      rw [Function.update_self] at hj
      cases hj
    · rw [Function.update_of_ne hij] at hj ⊢
      exact h.busy j th hj
  actions := by
    have hsum := sum_update (fun l : List (Σ e, R e) => (l : Multiset (Σ e, R e))) since
      (Finset.mem_univ i) []
    rw [show ((([] : List (Σ e, R e)) : Multiset (Σ e, R e))) = 0 from rfl, add_zero] at hsum
    rw [List.filterMap_append, List.map_append, List.sum_append, List.map_singleton,
      List.sum_singleton, add_assoc, add_comm (since i : Multiset (Σ e, R e)), hsum, ← h.actions]
    exact congrArg _ (List.append_nil _)

/-- Every history is made of calls.
Source: none
Kind: L -/
theorem Pool.Trace.composed (hcalls : ∀ p, calls p → p.Along Q []) {w : W}
    (h : Pool.Trace exec calls ⟨w, fun _ : ι => none⟩ log s) :
    ∃ ended since, Composed Q s.threads log ended since := by
  induction h with
  | nil =>
      refine ⟨[], fun _ => [], ?_, rfl, fun _ _ => rfl, ?_, ?_⟩
      · exact fun c hc => absurd hc List.not_mem_nil
      · exact fun i th hi => absurd hi (by simp)
      · simp
  | snoc _ hmove ih =>
      obtain ⟨ended, since, hc⟩ := ih
      cases hmove with
      | called i p hidle hp => exact ⟨_, _, hc.called hidle (hcalls p hp)⟩
      | done i e next last r w hi hexec => exact ⟨_, _, hc.done r hi⟩
      | returned i a last hi => exact ⟨_, _, hc.returned hi⟩

/-- When nobody is in a call, what the actions of a history gain is what the calls gained.
Source: none
Kind: L -/
theorem Composed.gain_at_rest (h : Composed Q s.threads log ended since)
    (hrest : ∀ i, s.threads i = none) (gain : (Σ e, R e) → ℤ) :
    ((log.filterMap Event.action?).map gain).sum =
      (ended.map fun c => (c.1.map gain).sum).sum := by
  have hnone : ∑ i, (since i : Multiset (Σ e, R e)) = 0 :=
    Finset.sum_eq_zero fun i _ => by rw [h.idle i (hrest i)]; rfl
  have hsum : ∀ cs : List (List (Σ e, R e) × α),
      ((cs.map fun c => (c.1 : Multiset (Σ e, R e))).sum.map gain).sum =
        (cs.map fun c => (c.1.map gain).sum).sum := by
    intro cs
    induction cs with
    | nil => rfl
    | cons c cs ih =>
        rw [List.map_cons, List.map_cons, List.sum_cons, List.sum_cons, Multiset.map_add,
          Multiset.sum_add, ih, Multiset.map_coe, Multiset.sum_coe]
  rw [← hsum, ← Multiset.sum_coe, ← Multiset.map_coe, h.actions, hnone, add_zero]

/-- A quantity of the world that each action changes by its gain.
Source: none
Kind: L -/
theorem Pool.Trace.measured {good : W → Prop} (quantity : W → ℤ) (gain : (Σ e, R e) → ℤ)
    (hexec : ∀ e w r w', good w → exec e w = .ok (r, w') →
      good w' ∧ quantity w' = quantity w + gain ⟨e, r⟩)
    (hgood : good s₀.world) (h : Pool.Trace exec calls s₀ log s) :
    good s.world ∧ quantity s.world =
      quantity s₀.world + ((log.filterMap Event.action?).map gain).sum := by
  induction h with
  | nil => exact ⟨hgood, (add_zero _).symm⟩
  | snoc _ hmove ih =>
      rw [List.filterMap_append, List.map_append, List.sum_append, ← add_assoc, ← ih.2]
      cases hmove with
      | called i p hidle hp => exact ⟨ih.1, (add_zero _).symm⟩
      | returned i a last hi => exact ⟨ih.1, (add_zero _).symm⟩
      | done i e next last r w hi hact =>
          obtain ⟨hgood', hq⟩ := hexec e _ r w ih.1 hact
          refine ⟨hgood', hq.trans ?_⟩
          simp [Event.action?]

end composed

end traces

end CacheMoney.Found
