import CacheMoney.Found.History
import CacheMoney.Found.Script

/-!
# Charges that calls have to clear

A condition of the world that only some actions can bring about, and that some answers rule out. A
call that performed one of the former is charged until it gets one of the latter. So the condition
can only hold while a charged call is in progress, or because a call returned charged.

* `Charged`: the sequence of actions of a call leaves it charged.
* `Returned`, `Ongoing`: a call of a history with its actions.
* `Pool.Trace.charged`: in every history, the condition has a charged call to blame.
* `Pool.Trace.asks`: what the allowed actions keep, every history keeps.
-/

namespace CacheMoney.Found

variable {ι E : Type} {R : E → Type} {α W : Type} [DecidableEq ι]

/-! ### Charged sequences -/

/-- One of the actions raises, and none after it clears.
Source: none
Kind: D -/
def Charged (raises clears : (Σ e, R e) → Prop) : List (Σ e, R e) → Prop
  | [] => False
  | x :: l => (raises x ∧ ∀ y ∈ l, ¬clears y) ∨ Charged raises clears l

section sequences

variable {raises clears : (Σ e, R e) → Prop} {l l' : List (Σ e, R e)} {x : Σ e, R e}

/-- A charge stands after two logs if the second raises it, or the first does and the second does
not clear it.
Source: none
Kind: L -/
theorem charged_append : Charged raises clears (l ++ l') ↔
    Charged raises clears l ∧ (∀ y ∈ l', ¬clears y) ∨ Charged raises clears l' := by
  induction l with
  | nil =>
      rw [List.nil_append]
      exact ⟨Or.inr, fun h => h.elim (fun h => h.1.elim) id⟩
  | cons x l ih =>
      rw [List.cons_append, Charged, Charged, ih, List.forall_mem_append]
      constructor
      · rintro (⟨hx, hl, hl'⟩ | ⟨hl, hl'⟩ | hl')
        · exact Or.inl ⟨Or.inl ⟨hx, hl⟩, hl'⟩
        · exact Or.inl ⟨Or.inr hl, hl'⟩
        · exact Or.inr hl'
      · rintro (⟨⟨hx, hl⟩ | hl, hl'⟩ | hl')
        · exact Or.inl ⟨hx, hl, hl'⟩
        · exact Or.inr (Or.inl ⟨hl, hl'⟩)
        · exact Or.inr (Or.inr hl')

/-- Without anything that raises it there is no charge.
Source: none
Kind: L -/
theorem not_charged (h : ∀ y ∈ l, ¬raises y) : ¬Charged raises clears l := by
  induction l with
  | nil => exact id
  | cons x l ih =>
      rintro (⟨hx, -⟩ | hl)
      · exact h x List.mem_cons_self hx
      · exact ih (fun y hy => h y (List.mem_cons_of_mem x hy)) hl

/-- Another action, in a world in which the condition still holds.
Source: none
Kind: L -/
theorem Charged.snoc (h : Charged raises clears l ∨ raises x) (hx : ¬clears x) :
    Charged raises clears (l ++ [x]) := by
  refine charged_append.mpr (h.imp (fun h => ⟨h, ?_⟩) fun h => Or.inl ⟨h, nofun⟩)
  exact fun y hy => List.mem_singleton.mp hy ▸ hx

end sequences

/-! ### Programs -/

section programs

variable {P : E → Prop} {p : Prog E R α}

/-- Every action of a call is one that its program may ask for.
Source: none
Kind: L -/
theorem Prog.Asks.along (h : p.Asks P) : p.Along (fun l _ => ∀ x ∈ l, P x.1) [] := by
  have hfrom : ∀ l : List (Σ e, R e), (∀ x ∈ l, P x.1) →
      p.Along (fun l _ => ∀ x ∈ l, P x.1) l := by
    induction p with
    | ret a => exact fun l hl => hl
    | stop => exact fun _ _ => trivial
    | act e next ih =>
        intro l hl r
        refine ih r (h.2 r) _ fun x hx => ?_
        rcases List.mem_append.mp hx with hx | hx
        · exact hl x hx
        · obtain rfl := List.mem_singleton.mp hx
          exact h.1
  exact hfrom [] nofun

/-- Two facts about the actions of a call together.
Source: none
Kind: L -/
theorem Prog.Along.and {Q Q' : List (Σ e, R e) → α → Prop} {l : List (Σ e, R e)}
    (h : p.Along Q l) (h' : p.Along Q' l) : p.Along (fun l a => Q l a ∧ Q' l a) l := by
  induction p generalizing l with
  | ret a => exact ⟨h, h'⟩
  | stop => trivial
  | act e next ih => exact fun r => ih r (h r) (h' r)

/-- What holds of all actions and results holds along every call.
Source: none
Kind: L -/
theorem Prog.Along.of_forall {Q : List (Σ e, R e) → α → Prop} {l : List (Σ e, R e)}
    (hQ : ∀ l a, Q l a) : p.Along Q l := by
  induction p generalizing l with
  | ret a => exact hQ l a
  | stop => trivial
  | act e next ih => exact fun r => ih r

end programs

/-! ### Histories -/

section traces

variable {exec : (e : E) → W → Outcome (R e × W)} {calls : Prog E R α → Prop}
  {s : Pool ι E R α W} {log : List (Event ι E R α)}

/-- A call of the history that has returned, with its actions.
Source: none
Kind: D -/
def Returned (log : List (Event ι E R α)) (p : Prog E R α) (acts : List (Σ e, R e)) : Prop :=
  ∃ i a before during after, log = before ++ .called i p :: during ++ .returned i a :: after ∧
    (∀ a, .returned i a ∉ during) ∧ actionsOf i during = acts

/-- The last call of a client, not returned yet, with its actions.
Source: none
Kind: D -/
def Ongoing (i : ι) (log : List (Event ι E R α)) (acts : List (Σ e, R e)) : Prop :=
  ∃ p before during, log = before ++ .called i p :: during ∧ (∀ a, .returned i a ∉ during) ∧
    actionsOf i during = acts

/-- A call that has returned has returned in every longer log.
Source: none
Kind: L -/
theorem Returned.snoc {p : Prog E R α} {acts : List (Σ e, R e)} (h : Returned log p acts)
    (ev : Event ι E R α) : Returned (log ++ [ev]) p acts := by
  obtain ⟨i, a, before, during, after, rfl, hduring, hacts⟩ := h
  exact ⟨i, a, before, during, after ++ [ev], by simp, hduring, hacts⟩

/-- A call goes on with its client's next event, unless that is its return.
Source: none
Kind: L -/
theorem Ongoing.snoc {i : ι} {acts : List (Σ e, R e)} (h : Ongoing i log acts)
    {ev : Event ι E R α} (hev : ∀ a, ev ≠ .returned i a) :
    Ongoing i (log ++ [ev]) (acts ++ actionsOf i [ev]) := by
  obtain ⟨p, before, during, rfl, hduring, rfl⟩ := h
  refine ⟨p, before, during ++ [ev], by simp, fun a ha => ?_, actionsOf_append i during [ev]⟩
  rcases List.mem_append.mp ha with ha | ha
  · exact hduring a ha
  · exact hev a (List.mem_singleton.mp ha).symm

/-- Events of other clients leave a call where it is.
Source: none
Kind: L -/
theorem Ongoing.other {i : ι} {acts : List (Σ e, R e)} (h : Ongoing i log acts)
    {ev : Event ι E R α} (hev : ev.client ≠ i) : Ongoing i (log ++ [ev]) acts := by
  have hsnoc := h.snoc fun a (ha : ev = .returned i a) => hev (by rw [ha]; rfl)
  rwa [actionsOf_other hev, List.append_nil] at hsnoc

/-- Every client in the middle of a call has called.
Source: none
Kind: L -/
theorem Pool.Trace.ongoing {w : W} {i : ι} {th : Thread E R α}
    (h : Pool.Trace exec calls ⟨w, fun _ : ι => none⟩ log s) (hi : s.threads i = some th) :
    ∃ acts, Ongoing i log acts := by
  induction h generalizing th with
  | nil => exact absurd hi (by simp)
  | @snoc log s₁ s₂ ev _ hmove ih =>
      have hother : ∀ j (x : Option (Thread E R α)), j ≠ i →
          Function.update s₁.threads j x i = some th → s₁.threads i = some th := by
        intro j x hj h
        rwa [Function.update_of_ne hj.symm] at h
      cases hmove with
      | called j p hidle hp =>
          by_cases hj : j = i
          · subst hj
            exact ⟨[], p, log, [], rfl, nofun, rfl⟩
          · obtain ⟨acts, hacts⟩ := ih (hother j _ hj hi)
            exact ⟨acts, hacts.other hj⟩
      | done j e next last r w' hj hexec =>
          by_cases hij : j = i
          · subst hij
            obtain ⟨acts, hacts⟩ := ih hj
            exact ⟨_, hacts.snoc nofun⟩
          · obtain ⟨acts, hacts⟩ := ih (hother j _ hij hi)
            exact ⟨acts, hacts.other hij⟩
      | returned j a last hj =>
          by_cases hij : j = i
          · subst hij
            exact absurd hi (by simp)
          · obtain ⟨acts, hacts⟩ := ih (hother j _ hij hi)
            exact ⟨acts, hacts.other hij⟩

/-- Who is to blame for a condition: a call in progress or one that has returned, either charged.
Source: none
Kind: D -/
def Blamed (raises clears : (Σ e, R e) → Prop) (s : Pool ι E R α W)
    (log : List (Event ι E R α)) : Prop :=
  (∃ i th acts, s.threads i = some th ∧ Ongoing i log acts ∧ Charged raises clears acts) ∨
    ∃ p acts, Returned log p acts ∧ Charged raises clears acts

/-- In every history, a condition that holds has a charged call to blame.
Source: none
Kind: L -/
theorem Pool.Trace.charged {exceeds : W → Prop} {raises clears : (Σ e, R e) → Prop}
    (hraises : ∀ e w r w', exec e w = .ok (r, w') → exceeds w' → exceeds w ∨ raises ⟨e, r⟩)
    (hclears : ∀ e w r w', exec e w = .ok (r, w') → clears ⟨e, r⟩ → ¬exceeds w') {w : W}
    (hw : ¬exceeds w) (h : Pool.Trace exec calls ⟨w, fun _ : ι => none⟩ log s)
    (hover : exceeds s.world) : Blamed raises clears s log := by
  induction h with
  | nil => exact absurd hover hw
  | @snoc log s₁ s₂ ev htrace hmove ih =>
      have hother : ∀ i j (x : Option (Thread E R α)) th, s₁.threads j = some th → j ≠ i →
          Function.update s₁.threads i x j = some th := by
        intro i j x th hj hij
        rw [Function.update_of_ne hij]
        exact hj
      cases hmove with
      | called i p hidle hp =>
          rcases ih hover with ⟨j, th, acts, hj, hacts, hcharged⟩ | ⟨q, acts, hacts, hcharged⟩
          · have hij : j ≠ i := by
              rintro rfl
              rw [hidle] at hj
              cases hj
            exact Or.inl ⟨j, th, acts, hother i j _ th hj hij, hacts.other hij.symm, hcharged⟩
          · exact Or.inr ⟨q, acts, hacts.snoc _, hcharged⟩
      | done i e next last r w' hi hexec =>
          have hkept : ¬clears ⟨e, r⟩ := fun hclear => hclears e _ r w' hexec hclear hover
          have hown : ∀ acts, Ongoing i log acts →
              (Charged raises clears acts ∨ raises ⟨e, r⟩) →
              Blamed raises clears ⟨w', Function.update s₁.threads i
                (some ⟨next r, some ⟨e, r⟩⟩)⟩ (log ++ [.done i e r]) := by
            intro acts hacts hblame
            refine Or.inl ⟨i, _, _, Function.update_self .., hacts.snoc nofun, ?_⟩
            rw [actionsOf_own]
            exact Charged.snoc hblame hkept
          rcases hraises e _ r w' hexec hover with hover | hraise
          · rcases ih hover with ⟨j, th, acts, hj, hacts, hcharged⟩ | ⟨q, acts, hacts, hcharged⟩
            · by_cases hij : j = i
              · exact hown acts (hij ▸ hacts) (Or.inl hcharged)
              · exact Or.inl ⟨j, th, acts, hother i j _ th hj hij, hacts.other (Ne.symm hij),
                  hcharged⟩
            · exact Or.inr ⟨q, acts, hacts.snoc _, hcharged⟩
          · obtain ⟨acts, hacts⟩ := htrace.ongoing hi
            exact hown acts hacts (Or.inr hraise)
      | returned i a last hi =>
          rcases ih hover with ⟨j, th, acts, hj, hacts, hcharged⟩ | ⟨q, acts, hacts, hcharged⟩
          · by_cases hij : j = i
            · obtain ⟨p, before, during, rfl, hduring, rfl⟩ := hacts
              subst hij
              exact Or.inr ⟨p, _, ⟨j, a, before, during, [], by simp, hduring, rfl⟩, hcharged⟩
            · exact Or.inl ⟨j, th, acts, hother i j _ th hj hij, hacts.other (Ne.symm hij),
                hcharged⟩
          · exact Or.inr ⟨q, acts, hacts.snoc _, hcharged⟩

/-- A call that has returned was one that may be called, and its actions are those of its program.
Source: none
Kind: L -/
theorem Pool.Trace.of_returned {s₀ : Pool ι E R α W} {p : Prog E R α} {acts : List (Σ e, R e)}
    (h : Pool.Trace exec calls s₀ log s) (hreturned : Returned log p acts) :
    calls p ∧ ∀ Q : List (Σ e, R e) → α → Prop, p.Along Q [] → ∃ a, Q acts a := by
  obtain ⟨i, a, before, during, after, rfl, hduring, rfl⟩ := hreturned
  rw [show before ++ .called i p :: during ++ .returned i a :: after =
    (before ++ .called i p :: during ++ [.returned i a]) ++ after by simp] at h
  obtain ⟨s₁, hcall, -⟩ := h.split
  refine ⟨?_, fun Q hp => ⟨a, hcall.along_call hp hduring⟩⟩
  rw [show before ++ .called i p :: during ++ [.returned i a] =
    (before ++ [.called i p]) ++ (during ++ [.returned i a]) by simp] at hcall
  obtain ⟨s₂, hstart, -⟩ := hcall.split
  obtain ⟨s₃, -, hmove⟩ := hstart.of_snoc
  cases hmove with
  | called _ _ hidle hp => exact hp

/-- The actions of a client are actions of the log.
Source: none
Kind: L -/
theorem action_of_actionsOf {i : ι} {x : Σ e, R e} (h : x ∈ actionsOf i log) :
    x ∈ log.filterMap Event.action? := by
  obtain ⟨l₁, l₂, hl⟩ := List.append_of_mem h
  obtain ⟨log₁, log₂, rfl, -, -⟩ := exists_of_actionsOf hl
  rw [List.filterMap_append]
  exact List.mem_append_right _ List.mem_cons_self

/-- The actions of a returned call are actions of the log.
Source: none
Kind: L -/
theorem Returned.action {p : Prog E R α} {acts : List (Σ e, R e)} (h : Returned log p acts)
    {x : Σ e, R e} (hx : x ∈ acts) : x ∈ log.filterMap Event.action? := by
  obtain ⟨i, a, before, during, after, rfl, -, rfl⟩ := h
  rw [List.append_assoc, List.filterMap_append, List.cons_append, List.filterMap_cons]
  refine List.mem_append_right _ ?_
  rw [show Event.action? (.called i p : Event ι E R α) = none from rfl]
  rw [List.filterMap_append]
  exact List.mem_append_left _ (action_of_actionsOf hx)

/-- What the allowed actions keep, every history keeps, and what they answer then is good.
Source: none
Kind: L -/
theorem Pool.Trace.asks {P : E → Prop} {I : W → Prop} {good : (Σ e, R e) → Prop}
    (hcalls : ∀ p, calls p → p.Asks P)
    (hexec : ∀ e, P e → ∀ w r w', I w → exec e w = .ok (r, w') → I w' ∧ good ⟨e, r⟩) {w : W}
    (hw : I w) (h : Pool.Trace exec calls ⟨w, fun _ : ι => none⟩ log s) :
    I s.world ∧ (∀ i th, s.threads i = some th → th.prog.Asks P) ∧
      ∀ x ∈ log.filterMap Event.action?, good x := by
  induction h with
  | nil => exact ⟨hw, fun i th hi => absurd hi (by simp), fun x hx => absurd hx (by simp)⟩
  | @snoc log s₁ s₂ ev _ hmove ih =>
      obtain ⟨hI, hasks, hgood⟩ := ih
      have hset : ∀ i (x : Option (Thread E R α)), (∀ th, x = some th → th.prog.Asks P) →
          ∀ j th, Function.update s₁.threads i x j = some th → th.prog.Asks P := by
        intro i x hx j th hj
        by_cases hij : j = i
        · subst hij
          rw [Function.update_self] at hj
          exact hx th hj
        · rw [Function.update_of_ne hij] at hj
          exact hasks j th hj
      rw [List.filterMap_append]
      cases hmove with
      | called i p hidle hp =>
          refine ⟨hI, hset i _ fun th hth => ?_, fun x hx => hgood x (by simpa [Event.action?] using hx)⟩
          obtain rfl := Option.some.inj hth
          exact hcalls p hp
      | done i e next last r w' hi hact =>
          obtain ⟨hP, hnext⟩ := hasks i _ hi
          obtain ⟨hI', hgood'⟩ := hexec e hP _ r w' hI hact
          refine ⟨hI', hset i _ fun th hth => ?_, fun x hx => ?_⟩
          · obtain rfl := Option.some.inj hth
            exact hnext r
          · rcases List.mem_append.mp hx with hx | hx
            · exact hgood x hx
            · obtain rfl := List.mem_singleton.mp hx
              exact hgood'
      | returned i a last hi =>
          exact ⟨hI, hset i none fun th hth => absurd hth (by simp),
            fun x hx => hgood x (by simpa [Event.action?] using hx)⟩

/-- A history is a run.
Source: none
Kind: L -/
theorem Pool.Trace.reachable {calls' : Prog E R α → Prop} (hcalls : ∀ p, calls p → calls' p)
    {s₀ : Pool ι E R α W} (h : Pool.Trace exec calls s₀ log s) :
    Pool.Reachable exec calls' s₀ s := by
  induction h with
  | nil => exact .refl
  | snoc _ hmove ih =>
      refine ih.tail ?_
      cases hmove with
      | called i p hidle hp => exact .invoke _ i p hidle (hcalls p hp)
      | done i e next last r w hi hexec => exact .act _ i e next last r w hi hexec
      | returned i a last hi => exact .finish _ i a last hi

end traces

end CacheMoney.Found
