import CacheMoney.Found.Outcome

/-!
# Scanners of a byte stream, and how the stream is cut

A scanner looks at the bytes that have arrived and says one of three things: here is a value and
the bytes after it, these bytes are malformed, or they are too short to tell.

* `Scanner.bind`, `Scanner.times`: sequencing and repetition.
* `Scanner.Local s`: a value depends on the bytes it is made of, of which there is at least one.
* `Scanner.Firm s b`: no beginning of `b` is called malformed unless `b` is.
* `Drains`: the loop that scans and acts until it has to wait, is told to stop, or finds a fault.
  `Delivers` runs that loop after every delivery on what is not consumed yet.
* `insensitive_iff`: the actions and the fault do not depend on the cuts between deliveries
  exactly when every buffer that the loop reaches on the whole stream is firm.
* `alike_iff`: when a second scanner, run on the whole stream, leads to the same actions.
-/

namespace CacheMoney.Found

variable {α β : Type}

/-! ### Scanners -/

/-- What a scanner says about the bytes it has.
Source: none
Kind: D -/
inductive Verdict (α : Type) where
  /-- A value, and the bytes after it. -/
  | done (a : α) (rest : Bytes)
  /-- No continuation of these bytes holds a value. -/
  | malformed
  /-- More bytes are needed. -/
  | short
  deriving DecidableEq, Repr

/-- Go on with the bytes after a value.
Source: none
Kind: D -/
def Verdict.bind (v : Verdict α) (f : α → Bytes → Verdict β) : Verdict β :=
  match v with
  | .done a rest => f a rest
  | .malformed => .malformed
  | .short => .short

/-- A scanner.
Source: none
Kind: D -/
abbrev Scanner (α : Type) := Bytes → Verdict α

/-- One scanner after another.
Source: none
Kind: D -/
def Scanner.bind (s : Scanner α) (f : α → Scanner β) : Scanner β := fun b => (s b).bind f

/-- A scanner a given number of times.
Source: none
Kind: D -/
def Scanner.times (s : Scanner α) : ℕ → Scanner (List α)
  | 0 => fun b => .done [] b
  | n + 1 => s.bind fun a => (s.times n).bind fun as b => .done (a :: as) b

/-- Equation lemma: one item, then the rest.
Source: none
Kind: L -/
theorem Scanner.times_succ (s : Scanner α) (n : ℕ) (b : Bytes) :
    s.times (n + 1) b =
      (s b).bind fun a r => (s.times n r).bind fun as r' => .done (a :: as) r' := rfl

/-- Two scans in sequence are done if both are.
Source: none
Kind: L -/
theorem Verdict.bind_eq_done {v : Verdict α} {f : α → Bytes → Verdict β} {b : β} {r : Bytes} :
    v.bind f = .done b r ↔ ∃ a r', v = .done a r' ∧ f a r' = .done b r := by
  cases v <;> simp [Verdict.bind]

/-- Two scans in sequence fall short if the first does, or the second after it.
Source: none
Kind: L -/
theorem Verdict.bind_eq_short {v : Verdict α} {f : α → Bytes → Verdict β} :
    v.bind f = .short ↔ v = .short ∨ ∃ a r, v = .done a r ∧ f a r = .short := by
  cases v <;> simp [Verdict.bind]

/-- A value depends only on the bytes it is made of.
Source: none
Kind: D -/
def Scanner.Local (s : Scanner α) : Prop :=
  ∀ b a r, s b = .done a r → ∃ c, c ≠ [] ∧ b = c ++ r ∧ ∀ r', s (c ++ r') = .done a r'

/-- No beginning is condemned unless the whole is.
Source: none
Kind: D -/
def Scanner.Firm (s : Scanner α) (b : Bytes) : Prop :=
  ∀ b', b' <+: b → s b' = .malformed → s b = .malformed

/-! ### The loop over a buffer -/

/-- How the loop ends.
Source: none
Kind: D -/
inductive Ending where
  /-- The bytes left are too short. -/
  | waiting
  /-- An action asked to stop. -/
  | stopped
  /-- The bytes left are malformed. -/
  | faulted
  deriving DecidableEq, Repr

section deliveries

variable {σ : Type} (s : Scanner α) (act : σ → α → σ × Bool)

/-- The loop on a buffer: the values it acted on, the state and the bytes it leaves, its end.
Source: none
Kind: D -/
inductive Drains : σ → Bytes → List α → σ → Bytes → Ending → Prop where
  | wait {st : σ} {b : Bytes} (h : s b = .short) : Drains st b [] st b .waiting
  | fault {st : σ} {b : Bytes} (h : s b = .malformed) : Drains st b [] st b .faulted
  | stop {st st' : σ} {b r : Bytes} {a : α} (h : s b = .done a r)
      (hact : act st a = (st', true)) : Drains st b [a] st' r .stopped
  | go {st st' st'' : σ} {b r r' : Bytes} {a : α} {log : List α} {e : Ending}
      (h : s b = .done a r) (hact : act st a = (st', false))
      (hrest : Drains st' r log st'' r' e) : Drains st b (a :: log) st'' r' e

/-- Successive deliveries to a connection that holds `b` unconsumed: the values acted on and the
end. Nothing is done after a stop or a fault.
Source: none
Kind: D -/
inductive Delivers : σ → Bytes → List Bytes → List α → Ending → Prop where
  | nil {st : σ} {b : Bytes} : Delivers st b [] [] .waiting
  | closed {st st' : σ} {b b' d : Bytes} {ds : List Bytes} {log : List α} {e : Ending}
      (h : Drains s act st (b ++ d) log st' b' e) (he : e ≠ .waiting) :
      Delivers st b (d :: ds) log e
  | more {st st' : σ} {b b' d : Bytes} {ds : List Bytes} {log log' : List α} {e : Ending}
      (h : Drains s act st (b ++ d) log st' b' .waiting) (hmore : Delivers st' b' ds log' e) :
      Delivers st b (d :: ds) (log ++ log') e

/-- The buffers at which the loop scans.
Source: none
Kind: D -/
inductive Reached : σ → Bytes → σ → Bytes → Prop where
  | here {st : σ} {b : Bytes} : Reached st b st b
  | next {st st' st'' : σ} {b r t : Bytes} {a : α} (h : s b = .done a r)
      (hact : act st a = (st', false)) (hrest : Reached st' r st'' t) : Reached st b st'' t

variable {s} {act}

/-- A drain that waits left bytes on which the scanner falls short.
Source: none
Kind: L -/
theorem Drains.short_of_waiting {st st' : σ} {b b' : Bytes} {log : List α} {e : Ending}
    (h : Drains s act st b log st' b' e) (he : e = .waiting) : s b' = .short := by
  induction h with
  | wait h => exact h
  | fault h => exact absurd he (by decide)
  | stop h hact => exact absurd he (by decide)
  | go h hact hrest ih => exact ih he

/-- The loop has one result.
Source: none
Kind: L -/
theorem Drains.unique {st st₁ st₂ : σ} {b b₁ b₂ : Bytes} {log₁ log₂ : List α} {e₁ e₂ : Ending}
    (h₁ : Drains s act st b log₁ st₁ b₁ e₁) (h₂ : Drains s act st b log₂ st₂ b₂ e₂) :
    log₁ = log₂ ∧ e₁ = e₂ := by
  induction h₁ generalizing log₂ with
  | wait h =>
      cases h₂ with
      | wait => exact ⟨rfl, rfl⟩
      | fault h' => exact absurd (h.symm.trans h') (by simp)
      | stop h' => exact absurd (h.symm.trans h') (by simp)
      | go h' => exact absurd (h.symm.trans h') (by simp)
  | fault h =>
      cases h₂ with
      | wait h' => exact absurd (h.symm.trans h') (by simp)
      | fault => exact ⟨rfl, rfl⟩
      | stop h' => exact absurd (h.symm.trans h') (by simp)
      | go h' => exact absurd (h.symm.trans h') (by simp)
  | stop h hact =>
      cases h₂ with
      | wait h' => exact absurd (h.symm.trans h') (by simp)
      | fault h' => exact absurd (h.symm.trans h') (by simp)
      | stop h' hact' =>
          obtain ⟨rfl, rfl⟩ := Verdict.done.inj (h.symm.trans h')
          exact ⟨rfl, rfl⟩
      | go h' hact' =>
          obtain ⟨rfl, rfl⟩ := Verdict.done.inj (h.symm.trans h')
          exact absurd (Prod.mk.inj (hact.symm.trans hact')).2 (by decide)
  | go h hact hrest ih =>
      cases h₂ with
      | wait h' => exact absurd (h.symm.trans h') (by simp)
      | fault h' => exact absurd (h.symm.trans h') (by simp)
      | stop h' hact' =>
          obtain ⟨rfl, rfl⟩ := Verdict.done.inj (h.symm.trans h')
          exact absurd (Prod.mk.inj (hact.symm.trans hact')).2 (by decide)
      | go h' hact' hrest' =>
          obtain ⟨rfl, rfl⟩ := Verdict.done.inj (h.symm.trans h')
          obtain ⟨rfl, -⟩ := Prod.mk.inj (hact.symm.trans hact')
          obtain ⟨rfl, rfl⟩ := ih hrest'
          exact ⟨rfl, rfl⟩

variable (act) in
/-- The loop ends on every buffer, since every value uses up a byte.
Source: none
Kind: L -/
theorem exists_drains (hlocal : s.Local) (n : ℕ) :
    ∀ (st : σ) (b : Bytes), b.length ≤ n → ∃ log st' b' e, Drains s act st b log st' b' e := by
  induction n with
  | zero =>
      intro st b hb
      cases h : s b with
      | short => exact ⟨_, _, _, _, .wait h⟩
      | malformed => exact ⟨_, _, _, _, .fault h⟩
      | done a r =>
          obtain ⟨c, hc, rfl, -⟩ := hlocal b a r h
          have := List.length_pos_of_ne_nil hc
          rw [List.length_append] at hb
          omega
  | succ n ih =>
      intro st b hb
      cases h : s b with
      | short => exact ⟨_, _, _, _, .wait h⟩
      | malformed => exact ⟨_, _, _, _, .fault h⟩
      | done a r =>
          obtain ⟨c, hc, rfl, -⟩ := hlocal b a r h
          have := List.length_pos_of_ne_nil hc
          rw [List.length_append] at hb
          obtain ⟨st', stop, hact⟩ : ∃ st' stop, act st a = (st', stop) := ⟨_, _, rfl⟩
          cases stop with
          | true => exact ⟨_, _, _, _, .stop h hact⟩
          | false =>
              obtain ⟨log, st'', b', e, hrest⟩ := ih st' r (by omega)
              exact ⟨_, _, _, _, .go h hact hrest⟩

/-! ### Cuts -/

/-- What the loop does on the part that has arrived it also does on the whole.
Source: none
Kind: L -/
theorem Drains.extend (hlocal : s.Local) {st st₁ : σ} {b b₁ : Bytes} {log : List α} {e : Ending}
    (h : Drains s act st b log st₁ b₁ e) (x : Bytes)
    (hfirm : ∀ st' t, Reached s act st (b ++ x) st' t → s.Firm t) :
    (e ≠ .waiting → ∃ b₂, Drains s act st (b ++ x) log st₁ b₂ e) ∧
      (e = .waiting → (∀ st' t, Reached s act st₁ (b₁ ++ x) st' t → s.Firm t) ∧
        ∀ {log' st₂ b₂ e₂}, Drains s act st₁ (b₁ ++ x) log' st₂ b₂ e₂ →
          Drains s act st (b ++ x) (log ++ log') st₂ b₂ e₂) := by
  induction h with
  | wait h => exact ⟨fun hne => absurd rfl hne, fun _ => ⟨hfirm, fun h' => h'⟩⟩
  | @fault st b h =>
      have hbad := hfirm st (b ++ x) .here b (List.prefix_append b x) h
      exact ⟨fun _ => ⟨_, .fault hbad⟩, fun he => absurd he (by decide)⟩
  | @stop st st' b r a h hact =>
      obtain ⟨c, -, rfl, hc⟩ := hlocal b a r h
      have hx : s (c ++ r ++ x) = .done a (r ++ x) := by rw [List.append_assoc]; exact hc _
      exact ⟨fun _ => ⟨_, .stop hx hact⟩, fun he => absurd he (by decide)⟩
  | @go st st' st'' b r r' a log e h hact hrest ih =>
      obtain ⟨c, -, rfl, hc⟩ := hlocal b a r h
      have hx : s (c ++ r ++ x) = .done a (r ++ x) := by rw [List.append_assoc]; exact hc _
      obtain ⟨hclosed, hmore⟩ := ih fun st₂ t ht => hfirm st₂ t (.next hx hact ht)
      refine ⟨fun he => ?_, fun he => ?_⟩
      · obtain ⟨b₂, hb₂⟩ := hclosed he
        exact ⟨b₂, .go hx hact hb₂⟩
      · obtain ⟨hfirm', hgo⟩ := hmore he
        exact ⟨hfirm', fun h' => .go hx hact (hgo h')⟩

/-- Deliveries of a firm stream act as one delivery does.
Source: none
Kind: L -/
theorem Delivers.whole (hlocal : s.Local) {st : σ} {b : Bytes} {ds : List Bytes} {log : List α}
    {e : Ending} (h : Delivers s act st b ds log e) (hb : s b = .short)
    (hfirm : ∀ st' t, Reached s act st (b ++ ds.flatten) st' t → s.Firm t) :
    ∃ st' b', Drains s act st (b ++ ds.flatten) log st' b' e := by
  induction h with
  | nil => exact ⟨_, _, .wait (by rw [List.flatten_nil, List.append_nil]; exact hb)⟩
  | @closed st st' b b' d ds log e h he =>
      rw [List.flatten_cons, ← List.append_assoc] at hfirm ⊢
      obtain ⟨b₂, hb₂⟩ := (h.extend hlocal ds.flatten hfirm).1 he
      exact ⟨_, _, hb₂⟩
  | @more st st' b b' d ds log log' e h hmore ih =>
      rw [List.flatten_cons, ← List.append_assoc] at hfirm ⊢
      obtain ⟨hfirm', hgo⟩ := (h.extend hlocal ds.flatten hfirm).2 rfl
      obtain ⟨st₂, b₂, hrest⟩ := ih (h.short_of_waiting rfl) hfirm'
      exact ⟨_, _, hgo hrest⟩

/-- A reached buffer is a tail of the stream, and what was done before it does not depend on it.
Source: none
Kind: L -/
theorem Reached.replay (hlocal : s.Local) {st st' : σ} {b t : Bytes}
    (h : Reached s act st b st' t) : ∃ (c : Bytes) (log : List α), b = c ++ t ∧
      ∀ {r log' st₂ b₂ e}, Drains s act st' r log' st₂ b₂ e →
        Drains s act st (c ++ r) (log ++ log') st₂ b₂ e := by
  induction h with
  | here => exact ⟨[], [], rfl, fun h => h⟩
  | @next st st' st'' b r t a h hact hrest ih =>
      obtain ⟨c, -, rfl, hc⟩ := hlocal b a r h
      obtain ⟨c', log, rfl, hgo⟩ := ih
      refine ⟨c ++ c', a :: log, (List.append_assoc _ _ _).symm, fun {r'} _ _ _ _ h' => ?_⟩
      rw [List.append_assoc]
      exact .go (hc (c' ++ r')) hact (hgo h')

/-- What a connection does with a stream does not depend on the cuts exactly when the loop only
meets firm buffers on the whole stream.
Source: none
Kind: P -/
theorem insensitive_iff (hlocal : s.Local) (hnil : s [] = .short) (st : σ) (stream : Bytes) :
    (∀ ds ds' log log' e e', ds.flatten = stream → ds'.flatten = stream →
        Delivers s act st [] ds log e → Delivers s act st [] ds' log' e' →
        log = log' ∧ (e = .faulted ↔ e' = .faulted)) ↔
      ∀ st' t, Reached s act st stream st' t → s.Firm t := by
  constructor
  · intro hall st' t hreach t' ht' hbad
    obtain ⟨x, rfl⟩ := ht'
    obtain ⟨c, log, rfl, hgo⟩ := hreach.replay hlocal
    obtain ⟨log₁, st₁, b₁, e₁, hwhole⟩ := exists_drains act hlocal _ st' (t' ++ x) (Nat.le_refl _)
    -- Cut right after the condemned beginning, and not at all.
    have hcut : Delivers s act st [] [c ++ t', x] (log ++ []) .faulted :=
      .closed (hgo (.fault hbad)) (by decide)
    have hone : ∃ e, Delivers s act st [] [c ++ (t' ++ x)] (log ++ log₁) e ∧
        (e = .faulted ↔ e₁ = .faulted) := by
      by_cases he : e₁ = .waiting
      · subst he
        have h : Delivers s act st [] [c ++ (t' ++ x)] (log ++ log₁ ++ []) .waiting :=
          .more (hgo hwhole) .nil
        rw [List.append_nil] at h
        exact ⟨_, h, Iff.rfl⟩
      · exact ⟨e₁, .closed (hgo hwhole) he, Iff.rfl⟩
    obtain ⟨e, hone, he⟩ := hone
    obtain ⟨hlog, hfault⟩ := hall _ _ _ _ _ _ (by simp) (by simp) hcut hone
    have he₁ : e₁ = .faulted := he.mp (hfault.mp rfl)
    have hnone : log₁ = [] := (List.append_cancel_left hlog).symm
    subst he₁ hnone
    cases hwhole with
    | fault h => exact h
  · intro hfirm ds ds' log log' e e' hds hds' h h'
    subst hds
    obtain ⟨st₁, b₁, h₁⟩ := h.whole hlocal hnil hfirm
    rw [← hds'] at hfirm h₁
    obtain ⟨st₂, b₂, h₂⟩ := h'.whole hlocal hnil hfirm
    obtain ⟨hlog, he⟩ := h₁.unique h₂
    rw [he]
    exact ⟨hlog, Iff.rfl⟩

/-! ### Two scanners -/

section parting

variable {s' : Scanner α}

/-- The loop on a buffer depends on what the scanner says where the loop scans.
Source: none
Kind: L -/
theorem Drains.congr {st st₁ : σ} {b b₁ : Bytes} {log : List α} {e : Ending}
    (h : Drains s' act st b log st₁ b₁ e)
    (heq : ∀ st' t, Reached s act st b st' t → s' t = s t) : Drains s act st b log st₁ b₁ e := by
  induction h with
  | wait h => exact .wait ((heq _ _ .here).symm.trans h)
  | fault h => exact .fault ((heq _ _ .here).symm.trans h)
  | stop h hact => exact .stop ((heq _ _ .here).symm.trans h) hact
  | go h hact hrest ih =>
      have hs := (heq _ _ .here).symm.trans h
      exact .go hs hact (ih fun st' t ht => heq st' t (.next hs hact ht))

/-- Two drains part where their scanners first differ.
Source: none
Kind: L -/
theorem parts_here (hle : ∀ b a r, s' b = .done a r → s b = .done a r) {st st₁ st₂ : σ}
    {b b₁ b₂ : Bytes} {log log' : List α} {e e' : Ending} (hne : s' b ≠ s b)
    (h : Drains s act st b log st₁ b₁ e) (h' : Drains s' act st b log' st₂ b₂ e') :
    ¬(log = log' ∧ e = e') := by
  rintro ⟨hlog, he⟩
  cases h' with
  | stop hs' => exact hne (hs'.trans (hle _ _ _ hs').symm)
  | go hs' => exact hne (hs'.trans (hle _ _ _ hs').symm)
  | wait hs' =>
      cases h with
      | wait hs => exact hne (hs'.trans hs.symm)
      | fault hs => exact absurd he (by decide)
      | stop hs => exact absurd hlog (by simp)
      | go hs => exact absurd hlog (by simp)
  | fault hs' =>
      cases h with
      | wait hs => exact absurd he (by decide)
      | fault hs => exact hne (hs'.trans hs.symm)
      | stop hs => exact absurd hlog (by simp)
      | go hs => exact absurd hlog (by simp)

/-- Two scanners, of which one finds no value that the other does not find, act differently on a
stream if they differ where the loop of the other scans.
Source: none
Kind: L -/
theorem Reached.parts (hle : ∀ b a r, s' b = .done a r → s b = .done a r) {st st' : σ}
    {b t : Bytes} (hreach : Reached s act st b st' t) (hne : s' t ≠ s t) :
    ∀ {st₁ st₂ : σ} {b₁ b₂ : Bytes} {log log' : List α} {e e' : Ending},
      Drains s act st b log st₁ b₁ e → Drains s' act st b log' st₂ b₂ e' →
      ¬(log = log' ∧ e = e') := by
  induction hreach with
  | here => exact fun h h' => parts_here hle hne h h'
  | @next st st' st'' b r t a hs hact hrest ih =>
      intro st₁ st₂ b₁ b₂ log log' e e' h h'
      by_cases hhere : s' b = s b
      · -- Both act on the same value and go on.
        cases h with
        | wait hs₁ => exact absurd (hs₁.symm.trans hs) (by simp)
        | fault hs₁ => exact absurd (hs₁.symm.trans hs) (by simp)
        | stop hs₁ hact₁ =>
            obtain ⟨rfl, -⟩ := Verdict.done.inj (hs₁.symm.trans hs)
            exact absurd (Prod.mk.inj (hact₁.symm.trans hact)).2 (by decide)
        | go hs₁ hact₁ hrest₁ =>
            obtain ⟨rfl, rfl⟩ := Verdict.done.inj (hs₁.symm.trans hs)
            obtain ⟨rfl, -⟩ := Prod.mk.inj (hact₁.symm.trans hact)
            cases h' with
            | wait hs₂ => exact absurd (hs₂.symm.trans (hhere.trans hs)) (by simp)
            | fault hs₂ => exact absurd (hs₂.symm.trans (hhere.trans hs)) (by simp)
            | stop hs₂ hact₂ =>
                obtain ⟨rfl, -⟩ := Verdict.done.inj (hs₂.symm.trans (hhere.trans hs))
                exact absurd (Prod.mk.inj (hact₂.symm.trans hact)).2 (by decide)
            | go hs₂ hact₂ hrest₂ =>
                obtain ⟨rfl, rfl⟩ := Verdict.done.inj (hs₂.symm.trans (hhere.trans hs))
                obtain ⟨rfl, -⟩ := Prod.mk.inj (hact₂.symm.trans hact)
                rintro ⟨hlog, he⟩
                exact ih hne hrest₁ hrest₂ ⟨(List.cons.inj hlog).2, he⟩
      · exact parts_here hle hhere h h'

/-- One delivery of a whole stream.
Source: none
Kind: L -/
theorem Drains.delivers {st st' : σ} {b' stream : Bytes} {log : List α} {e : Ending}
    (h : Drains s act st stream log st' b' e) : Delivers s act st [] [stream] log e := by
  by_cases he : e = .waiting
  · subst he
    have hmore : Delivers s act st [] [stream] (log ++ []) .waiting := .more h .nil
    rwa [List.append_nil] at hmore
  · exact .closed h he

/-- One connection scans the whole stream, another one what has been delivered. They act alike for
all deliveries exactly when, wherever the second one scans in the stream, the scanners say the
same and the buffer is firm.
Source: none
Kind: P -/
theorem alike_iff (hlocal : s.Local) (hnil : s [] = .short)
    (hle : ∀ b a r, s' b = .done a r → s b = .done a r) {st st₁ : σ} {b₁ stream : Bytes}
    {log' : List α} {e' : Ending} (h' : Drains s' act st stream log' st₁ b₁ e') :
    (∀ ds log e, ds.flatten = stream → Delivers s act st [] ds log e →
        log = log' ∧ e = e') ↔
      ∀ st' t, Reached s act st stream st' t → s' t = s t ∧ s.Firm t := by
  constructor
  · intro hall st' t hreach
    refine ⟨?_, ?_⟩
    · by_contra hne
      obtain ⟨log, st₂, b₂, e, h⟩ := exists_drains act hlocal _ st stream (Nat.le_refl _)
      exact hreach.parts hle hne h h' (hall [stream] log e (by simp) h.delivers)
    · refine (insensitive_iff hlocal hnil st stream).mp ?_ st' t hreach
      intro ds₁ ds₂ log₁ log₂ e₁ e₂ hds₁ hds₂ h₁ h₂
      obtain ⟨rfl, rfl⟩ := hall ds₁ log₁ e₁ hds₁ h₁
      obtain ⟨rfl, rfl⟩ := hall ds₂ log₂ e₂ hds₂ h₂
      exact ⟨rfl, Iff.rfl⟩
  · intro hall ds log e hds h
    subst hds
    obtain ⟨st₂, b₂, hwhole⟩ := h.whole hlocal hnil fun st' t ht => (hall st' t ht).2
    exact hwhole.unique (h'.congr fun st' t ht => (hall st' t ht).1)

end parting

end deliveries

end CacheMoney.Found
