import Mathlib.Data.List.Basic

/-!
# Outcomes: computations that may panic or not return

A Go call either returns, panics (an index outside its slice), or never returns. An
`Outcome` is the result of such a call run with an explicit fuel clock: `.ok` for a return,
`panic` for a run-time panic, `outOfFuel` when the clock ended first.

* `Ensures x Q` is the partial-correctness reading used throughout: `x` does not panic, and
  if it returns then the result satisfies `Q`. A call that never returns runs out of every
  fuel and is the only way to escape `Q`.
* `Returns x Q` is total correctness: `x` returns, with a result that satisfies `Q`.
* `index` and `store` are bounds-checked reads and writes of a slice, and `exactly` is an operation
  on 64-bit integers that must not wrap around.
* The rules (`Ensures.bind`, `Ensures.mono`, `Ensures.foldlM`) peel a monadic definition
  apart, one loop invariant per loop.
-/

namespace CacheMoney.Found

variable {α β : Type}

/-- How a call can fail to return.
Source: none
Kind: D -/
inductive Fault where
  /-- An index or slice expression outside its bounds. -/
  | panic
  /-- The clock ended before the call returned. -/
  | outOfFuel
  deriving DecidableEq, Repr

/-- The largest allocation of the Go runtime on a 64-bit platform, in bytes. `make` panics when it
is asked for more. The models take `make` to succeed, and a statement that depends on it bounds what
is asked for.
Source: none
Kind: D -/
def maxAlloc : ℕ := 1 <<< 48

/-- The result of running a call for a bounded time.
Source: none
Kind: D -/
abbrev Outcome (α : Type) := Except Fault α

/-- Partial correctness: no panic, and every returned value satisfies `Q`.
Source: none
Kind: D -/
def Ensures (x : Outcome α) (Q : α → Prop) : Prop :=
  match x with
  | .ok a => Q a
  | .error .outOfFuel => True
  | .error .panic => False

/-- Total correctness: the call returns, with a value that satisfies `Q`.
Source: none
Kind: D -/
def Returns (x : Outcome α) (Q : α → Prop) : Prop := ∃ a, x = .ok a ∧ Q a

/-- Whether a call returns well can be found out by running it.
Source: none
Kind: D -/
instance Returns.instDecidable (x : Outcome α) (Q : α → Prop) [DecidablePred Q] :
    Decidable (Returns x Q) :=
  match x with
  | .ok a => decidable_of_iff (Q a)
      ⟨fun h => ⟨a, rfl, h⟩, fun ⟨_, hb, h⟩ => by cases hb; exact h⟩
  | .error _ => .isFalse fun ⟨_, hb, _⟩ => by cases hb

/-! ### Rules -/

/-- Rule for a result.
Source: none
Kind: L -/
@[simp] theorem ensures_ok (a : α) (Q : α → Prop) : Ensures (.ok a) Q ↔ Q a := Iff.rfl

/-- Rule for a result, in the monad's words.
Source: none
Kind: L -/
@[simp] theorem ensures_pure (a : α) (Q : α → Prop) :
    Ensures (pure a : Outcome α) Q ↔ Q a := Iff.rfl

/-- Running out of fuel ensures everything.
Source: none
Kind: L -/
@[simp] theorem ensures_outOfFuel (Q : α → Prop) :
    Ensures (throw .outOfFuel : Outcome α) Q ↔ True := Iff.rfl

/-- What follows a result is run on it.
Source: none
Kind: L -/
@[simp] theorem ok_bind (a : α) (f : α → Outcome β) : (Except.ok a >>= f) = f a := rfl

/-- Read a returned value off a specification.
Source: none
Kind: L -/
theorem Ensures.of_ok {x : Outcome α} {Q : α → Prop} {a : α} (h : Ensures x Q)
    (hx : x = .ok a) : Q a := by
  subst hx
  exact h

/-- A computation that does not return ensures anything else as well.
Source: none
Kind: L -/
theorem Ensures.of_error {e : Fault} {Q : α → Prop} {R : β → Prop}
    (h : Ensures (.error e : Outcome α) Q) : Ensures (.error e : Outcome β) R := by
  cases e with
  | outOfFuel => trivial
  | _ => exact h


/-- A specification leaves only two outcomes: a good return, or a run that did not end.
Source: none
Kind: L -/
theorem Ensures.ok_or_outOfFuel {x : Outcome α} {Q : α → Prop} (h : Ensures x Q) :
    (∃ a, x = .ok a ∧ Q a) ∨ x = .error .outOfFuel := by
  match x, h with
  | .ok a, h => exact Or.inl ⟨a, rfl, h⟩
  | .error .outOfFuel, _ => exact Or.inr rfl

/-- A specification may also speak about the computation that returned.
Source: none
Kind: L -/
theorem Ensures.eq_ok {x : Outcome α} {Q : α → Prop} (h : Ensures x Q) :
    Ensures x fun a => x = .ok a ∧ Q a := by
  match x, h with
  | .ok a, h => exact ⟨rfl, h⟩
  | .error .outOfFuel, _ => trivial

/-- Consequence.
Source: none
Kind: L -/
theorem Ensures.mono {x : Outcome α} {Q R : α → Prop} (h : Ensures x Q)
    (hQR : ∀ a, Q a → R a) : Ensures x R := by
  match x, h with
  | .ok a, h => exact hQR a h
  | .error .outOfFuel, _ => trivial

/-- Sequencing.
Source: none
Kind: L -/
theorem Ensures.bind {x : Outcome α} {f : α → Outcome β} {Q : α → Prop} {R : β → Prop}
    (h : Ensures x Q) (hf : ∀ a, Q a → Ensures (f a) R) : Ensures (x >>= f) R := by
  match x, h with
  | .ok a, h => exact hf a h
  | .error .outOfFuel, _ => trivial

/-- The postcondition may be weakened.
Source: none
Kind: L -/
theorem Returns.mono {x : Outcome α} {Q R : α → Prop} (h : Returns x Q)
    (hQR : ∀ a, Q a → R a) : Returns x R := by
  obtain ⟨a, hx, ha⟩ := h
  exact ⟨a, hx, hQR a ha⟩

/-- Sequencing of computations that return.
Source: none
Kind: L -/
theorem Returns.bind {x : Outcome α} {f : α → Outcome β} {Q : α → Prop} {R : β → Prop}
    (h : Returns x Q) (hf : ∀ a, Q a → Returns (f a) R) : Returns (x >>= f) R := by
  obtain ⟨a, rfl, ha⟩ := h
  exact hf a ha

/-- A successful sequence is two successful halves.
Source: none
Kind: L -/
theorem bind_eq_ok_iff {x : Outcome α} {f : α → Outcome β} {b : β} :
    (x >>= f) = .ok b ↔ ∃ a, x = .ok a ∧ f a = .ok b := by
  cases x with
  | ok a =>
      constructor
      · intro h
        exact ⟨a, rfl, h⟩
      · rintro ⟨_, ha, h⟩
        cases ha
        exact h
  | error e =>
      constructor
      · intro h
        cases h
      · rintro ⟨_, ha, _⟩
        cases ha

/-- A mapped outcome is a result if the outcome is.
Source: none
Kind: L -/
theorem map_eq_ok_iff {f : α → β} {x : Outcome α} {b : β} :
    f <$> x = .ok b ↔ ∃ a, x = .ok a ∧ f a = b := by
  cases x with
  | ok a =>
      change Except.ok (f a) = _ ↔ _
      simp
  | error e =>
      change Except.error e = _ ↔ _
      simp

/-- What is forgotten of a sequence can be forgotten half by half.
Source: none
Kind: L -/
theorem map_bind_of {γ δ : Type} {π : α → γ} {ρ : β → δ} {x : Outcome α} {f : α → Outcome β}
    {g : γ → Outcome δ} (h : ∀ a, ρ <$> f a = g (π a)) :
    ρ <$> (x >>= f) = (π <$> x) >>= g := by
  cases x with
  | ok a => exact h a
  | error e => rfl

/-- A map goes into what is sequenced.
Source: none
Kind: L -/
theorem map_bind_congr {δ : Type} {ρ : β → δ} {x : Outcome α} {f : α → Outcome β}
    {g : α → Outcome δ} (h : ∀ a, ρ <$> f a = g a) : ρ <$> (x >>= f) = x >>= g := by
  cases x with
  | ok a => exact h a
  | error e => rfl

/-- A map after a last pure step is a map of what came before it.
Source: none
Kind: L -/
theorem map_bind_pure {γ : Type} {π : α → γ} {ρ : β → γ} {x : Outcome α} {g : α → β}
    (h : ∀ a, ρ (g a) = π a) : ρ <$> (x >>= fun a => pure (g a)) = π <$> x := by
  cases x with
  | ok a => exact congrArg Except.ok (h a)
  | error e => rfl

/-- A loop under a map is the loop of the mapped body.
Source: none
Kind: L -/
theorem map_foldlM_of {γ : Type} {π : α → γ} {f : α → β → Outcome α} {g : γ → β → Outcome γ}
    (h : ∀ a b, π <$> f a b = g (π a) b) (l : List β) (a : α) :
    π <$> l.foldlM f a = l.foldlM g (π a) := by
  induction l generalizing a with
  | nil => rfl
  | cons b l ih =>
      rw [List.foldlM_cons, List.foldlM_cons, ← h]
      exact map_bind_of fun a => ih a

/-- The loop rule: an invariant over the consumed prefix carries through a monadic fold.
Source: none
Kind: L -/
theorem Ensures.foldlM {f : α → β → Outcome α} (I : List β → α → Prop) (l : List β) {a : α}
    (h0 : I [] a)
    (hstep : ∀ done b rest acc, l = done ++ b :: rest → I done acc →
      Ensures (f acc b) (I (done ++ [b]))) :
    Ensures (l.foldlM f a) (I l) := by
  suffices H : ∀ rest done acc, l = done ++ rest → I done acc →
      Ensures (rest.foldlM f acc) (I l) from H l [] a rfl h0
  intro rest
  induction rest with
  | nil =>
      intro done acc hl hI
      rw [List.append_nil] at hl
      subst hl
      exact hI
  | cons b rest ih =>
      intro done acc hl hI
      rw [List.foldlM_cons]
      refine (hstep done b rest acc hl hI).bind fun acc' hI' => ?_
      exact ih (done ++ [b]) acc' (by simpa using hl) hI'

/-- The loop rule for total correctness.
Source: none
Kind: L -/
theorem Returns.foldlM {f : α → β → Outcome α} (I : List β → α → Prop) (l : List β) {a : α}
    (h0 : I [] a)
    (hstep : ∀ done b rest acc, l = done ++ b :: rest → I done acc →
      Returns (f acc b) (I (done ++ [b]))) :
    Returns (l.foldlM f a) (I l) := by
  suffices H : ∀ rest done acc, l = done ++ rest → I done acc →
      Returns (rest.foldlM f acc) (I l) from H l [] a rfl h0
  intro rest
  induction rest with
  | nil =>
      intro done acc hl hI
      rw [List.append_nil] at hl
      subst hl
      exact ⟨acc, rfl, hI⟩
  | cons b rest ih =>
      intro done acc hl hI
      rw [List.foldlM_cons]
      refine (hstep done b rest acc hl hI).bind fun acc' hI' => ?_
      exact ih (done ++ [b]) acc' (by simpa using hl) hI'

/-- The loop rule for a fold that is known to return: a relation between a state and the final one,
proved backwards from the end.
Source: none
Kind: L -/
theorem foldlM_rel {f : α → β → Outcome α} {r : α} (R : α → Prop) (hend : R r)
    (hstep : ∀ a b a', f a b = .ok a' → R a' → R a) (l : List β) {a : α}
    (h : l.foldlM f a = .ok r) : R a := by
  induction l generalizing a with
  | nil =>
      cases h
      exact hend
  | cons b l ih =>
      rw [List.foldlM_cons] at h
      obtain ⟨a', ha', h⟩ := bind_eq_ok_iff.mp h
      exact hstep a b a' ha' (ih h)

/-- What returns well ensures as much.
Source: none
Kind: L -/
theorem Returns.ensures {x : Outcome α} {Q : α → Prop} (h : Returns x Q) : Ensures x Q := by
  obtain ⟨a, rfl, ha⟩ := h
  exact ha

/-- A call that returns meets its partial specification.
Source: none
Kind: L -/
theorem Returns.and {x : Outcome α} {Q R : α → Prop} (h : Returns x Q) (hR : Ensures x R) :
    Returns x fun a => Q a ∧ R a := by
  obtain ⟨a, hx, ha⟩ := h
  exact ⟨a, hx, ha, hR.of_ok hx⟩

/-! ### Bounds-checked slices -/

/-- A byte slice or a string, as a value.
Source: none
Kind: D -/
abbrev Bytes := List UInt8

/-- The bytes of a string constant.
Source: none
Kind: D -/
def text (s : String) : Bytes := s.toUTF8.data.toList

/-- `xs[i]`, which panics outside the slice.
Source: none
Kind: D -/
def index (xs : List α) (i : ℕ) : Outcome α :=
  match xs[i]? with
  | some a => .ok a
  | none => .error .panic

/-- `xs[i] = a`, which panics outside the slice.
Source: none
Kind: D -/
def store (xs : List α) (i : ℕ) (a : α) : Outcome (List α) :=
  if i < xs.length then .ok (xs.set i a) else .error .panic

/-- `xs[i:]`, which panics if it begins after the end.
Source: none
Kind: D -/
def sliceFrom (xs : List α) (i : ℕ) : Outcome (List α) :=
  if i ≤ xs.length then .ok (xs.drop i) else .error .panic

/-- A slice from inside the list.
Source: none
Kind: L -/
theorem sliceFrom_eq_ok {xs : List α} {i : ℕ} (h : i ≤ xs.length) :
    sliceFrom xs i = .ok (xs.drop i) := if_pos h

/-- A read inside the list.
Source: none
Kind: L -/
theorem index_eq_ok {xs : List α} {i : ℕ} (h : i < xs.length) : index xs i = .ok xs[i] := by
  unfold index
  rw [List.getElem?_eq_getElem h]

/-- A read succeeds with the element at its index.
Source: none
Kind: L -/
theorem index_eq_ok_iff {xs : List α} {i : ℕ} {a : α} :
    index xs i = .ok a ↔ xs[i]? = some a := by
  unfold index
  cases h : xs[i]? <;> simp

/-- A write inside the list.
Source: none
Kind: L -/
theorem store_eq_ok {xs : List α} {i : ℕ} (a : α) (h : i < xs.length) :
    store xs i a = .ok (xs.set i a) := by
  unfold store
  rw [if_pos h]

/-- A write keeps the length.
Source: none
Kind: L -/
theorem length_of_store {xs ys : List α} {i : ℕ} {a : α} (h : store xs i a = .ok ys) :
    ys.length = xs.length := by
  unfold store at h
  split_ifs at h
  cases h
  exact List.length_set

/-- A slice around one of its elements, and what a write there does.
Source: none
Kind: L -/
theorem exists_split_of_getElem? {xs : List α} {i : ℕ} {a : α} (h : xs[i]? = some a) :
    ∃ l r, xs = l ++ a :: r ∧ l.length = i ∧ ∀ b, xs.set i b = l ++ b :: r := by
  obtain ⟨hi, rfl⟩ := List.getElem?_eq_some_iff.mp h
  refine ⟨xs.take i, xs.drop (i + 1), ?_, ?_, fun b => ?_⟩
  · rw [← List.drop_eq_getElem_cons hi, List.take_append_drop]
  · rw [List.length_take, Nat.min_eq_left (Nat.le_of_lt hi)]
  · rw [List.set_eq_take_append_cons_drop, if_pos hi]

/-! ### Exact arithmetic -/

/-- The result of a 64-bit operation whose exact value is `z`; a result that wrapped around is a
fault.
Source: none
Kind: D -/
def exactly (x : Int64) (z : Int) : Outcome Int64 :=
  if x.toInt = z then .ok x else .error .panic

/-- A checked operation that did not wrap around.
Source: none
Kind: L -/
theorem exactly_eq_ok {x : Int64} {z : Int} (h : x.toInt = z) : exactly x z = .ok x := if_pos h

end CacheMoney.Found
