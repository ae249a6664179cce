import Mathlib.Data.Finset.Basic
import CacheMoney.Found.History

/-!
# Reader-writer locks make sections atomic

A memory of cells, each behind its own reader-writer lock. A client takes one lock at a time,
touches the cell of that lock step by step, and lets the lock go. The touches of different clients
interleave freely; only the locks keep them apart. A lock is taken shared or alone. A client that
wants it alone first announces itself, which holds new readers back, and enters when the last
reader has left.

* `Section`: one critical section, with its code over the touches of a cell. The code of a shared
  section changes nothing, as a field. `Section.perform` is its meaning as one atomic action.
* `Locked.Move`, `Locked.Trace`: the interleaving of the touches, with the history of the calls,
  the sections (at their unlock) and the returns.
* `Locked.Disciplined`: who is inside and who has announced itself, against the lock words.
* `Locked.Trace.atomic`: every run has a run of atomic sections with the same history; and
  conversely (`Pool.Trace.locked`).
* `Locked.Disciplined.progress`: no client waits for ever because of the locks alone; if somebody is
  busy, somebody can move.
-/

set_option linter.unusedSectionVars false

namespace CacheMoney.Found

variable {E : Type} {R : E → Type} {A : Type} {T : A → Type} {σ α β ι : Type}

/-! ### Sections -/

/-- The code leaves the cell as it is.
Source: none
Kind: D -/
def Prog.ReadsOnly (touch : (a : A) → σ → Outcome (T a × σ)) : Prog A T β → Prop
  | .ret _ => True
  | .stop => True
  | .act a next =>
      (∀ t r t', touch a t = .ok (r, t') → t' = t) ∧ ∀ r, (next r).ReadsOnly touch

/-- A critical section.
Source: none
Kind: D -/
structure Section (touch : (a : A) → σ → Outcome (T a × σ)) (β : Type) where
  /-- The cell, which is also the name of its lock. -/
  cell : ℕ
  /-- The lock is taken shared. -/
  shared : Bool
  code : Prog A T β
  readsOnly : shared = true → code.ReadsOnly touch

variable {touch : (a : A) → σ → Outcome (T a × σ)}

/-- The section as one action.
Source: none
Kind: D -/
def Section.perform (c : Section touch β) (mem : List σ) : Outcome (β × List σ) := do
  let t ← index mem c.cell
  let (b, t) ← c.code.run touch t
  let mem ← store mem c.cell t
  pure (b, mem)

/-- A section whose code returns has performed on its cell.
Source: none
Kind: L -/
theorem Section.perform_eq_ok {c : Section touch β} {mem : List σ} {t t' : σ} {b : β}
    (ht : mem[c.cell]? = some t) (hrun : c.code.run touch t = .ok (b, t')) :
    c.perform mem = .ok (b, mem.set c.cell t') := by
  have hlt := (List.getElem?_eq_some_iff.mp ht).1
  unfold Section.perform
  rw [index_eq_ok_iff.mpr ht, ok_bind, hrun, ok_bind]
  simp only [store_eq_ok _ hlt, ok_bind]
  rfl

/-! ### Clients and locks -/

/-- Where a busy client stands.
Source: none
Kind: D -/
inductive Client (E : Type) (R : E → Type) (A : Type) (T : A → Type) (α : Type) where
  /-- Outside every lock. -/
  | between (p : Prog E R α)
  /-- It has announced itself as the next writer and waits for the readers to leave. -/
  | announced (e : E) (next : R e → Prog E R α)
  /-- It holds the lock, with the rest of the section's code. -/
  | inside (e : E) (next : R e → Prog E R α) (rest : Prog A T (R e))

/-- The program of the client, with the section it is in still to be done.
Source: none
Kind: D -/
def Client.prog : Client E R A T α → Prog E R α
  | .between p => p
  | .announced e next => .act e next
  | .inside e next _ => .act e next

/-- Source: none
Kind: D -/
structure Locked (ι E : Type) (R : E → Type) (A : Type) (T : A → Type) (α σ : Type) where
  mem : List σ
  /-- The holders of each lock that share it. -/
  readers : ℕ → Finset ι
  /-- The client that has announced itself, until it unlocks. -/
  writer : ℕ → Option ι
  /-- `none` for an idle client. -/
  clients : ι → Option (Client E R A T α)

variable [DecidableEq ι]

/-- Source: none
Kind: D -/
def Locked.idle (mem : List σ) : Locked ι E R A T α σ :=
  ⟨mem, fun _ => ∅, fun _ => none, fun _ => none⟩

/-- The client is somewhere else now.
Source: none
Kind: D -/
def Locked.goes (s : Locked ι E R A T α σ) (i : ι) (c : Option (Client E R A T α)) :
    Locked ι E R A T α σ :=
  { s with clients := Function.update s.clients i c }

section goes

variable (s : Locked ι E R A T α σ) (i : ι) (c : Option (Client E R A T α))

/-- A client that goes on leaves the cells.
Source: none
Kind: L -/
@[simp] theorem Locked.goes_mem : (s.goes i c).mem = s.mem := rfl

/-- A client that goes on leaves the readers of the locks.
Source: none
Kind: L -/
@[simp] theorem Locked.goes_readers : (s.goes i c).readers = s.readers := rfl

/-- A client that goes on leaves the writers of the locks.
Source: none
Kind: L -/
@[simp] theorem Locked.goes_writer : (s.goes i c).writer = s.writer := rfl

end goes

/-- One step. Only calls, unlocks and returns are seen.
Source: none
Kind: D -/
inductive Locked.Move (plan : (e : E) → Section touch (R e)) (calls : Prog E R α → Prop) :
    Locked ι E R A T α σ → Option (Event ι E R α) → Locked ι E R A T α σ → Prop where
  | called (s : Locked ι E R A T α σ) (i : ι) (p : Prog E R α) (hidle : s.clients i = none)
      (hp : calls p) :
      Move plan calls s (some (.called i p)) (s.goes i (some (.between p)))
  | rlock (s : Locked ι E R A T α σ) (i : ι) (e : E) (next : R e → Prog E R α)
      (hi : s.clients i = some (.between (.act e next))) (hshared : (plan e).shared = true)
      (hcell : (plan e).cell < s.mem.length) (hfree : s.writer (plan e).cell = none) :
      Move plan calls s none
        { s.goes i (some (.inside e next (plan e).code)) with
          readers := Function.update s.readers (plan e).cell
            (insert i (s.readers (plan e).cell)) }
  | announce (s : Locked ι E R A T α σ) (i : ι) (e : E) (next : R e → Prog E R α)
      (hi : s.clients i = some (.between (.act e next))) (halone : (plan e).shared = false)
      (hcell : (plan e).cell < s.mem.length) (hfree : s.writer (plan e).cell = none) :
      Move plan calls s none
        { s.goes i (some (.announced e next)) with
          writer := Function.update s.writer (plan e).cell (some i) }
  | lock (s : Locked ι E R A T α σ) (i : ι) (e : E) (next : R e → Prog E R α)
      (hi : s.clients i = some (.announced e next)) (hfree : s.readers (plan e).cell = ∅) :
      Move plan calls s none (s.goes i (some (.inside e next (plan e).code)))
  | touch (s : Locked ι E R A T α σ) (i : ι) (e : E) (next : R e → Prog E R α) (a : A)
      (rest : T a → Prog A T (R e)) (t t' : σ) (r : T a)
      (hi : s.clients i = some (.inside e next (.act a rest)))
      (ht : s.mem[(plan e).cell]? = some t) (htouch : touch a t = .ok (r, t')) :
      Move plan calls s none
        { s.goes i (some (.inside e next (rest r))) with mem := s.mem.set (plan e).cell t' }
  | runlock (s : Locked ι E R A T α σ) (i : ι) (e : E) (next : R e → Prog E R α) (r : R e)
      (hi : s.clients i = some (.inside e next (.ret r))) (hshared : (plan e).shared = true) :
      Move plan calls s (some (.done i e r))
        { s.goes i (some (.between (next r))) with
          readers := Function.update s.readers (plan e).cell
            ((s.readers (plan e).cell).erase i) }
  | unlock (s : Locked ι E R A T α σ) (i : ι) (e : E) (next : R e → Prog E R α) (r : R e)
      (hi : s.clients i = some (.inside e next (.ret r))) (halone : (plan e).shared = false) :
      Move plan calls s (some (.done i e r))
        { s.goes i (some (.between (next r))) with
          writer := Function.update s.writer (plan e).cell none }
  | returned (s : Locked ι E R A T α σ) (i : ι) (a : α)
      (hi : s.clients i = some (.between (.ret a))) :
      Move plan calls s (some (.returned i a)) (s.goes i none)

/-- A run from `s₀`, with its history.
Source: none
Kind: D -/
inductive Locked.Trace (plan : (e : E) → Section touch (R e)) (calls : Prog E R α → Prop)
    (s₀ : Locked ι E R A T α σ) : List (Event ι E R α) → Locked ι E R A T α σ → Prop where
  | nil : Trace plan calls s₀ [] s₀
  | snoc {log : List (Event ι E R α)} {s s' : Locked ι E R A T α σ}
      {ev : Option (Event ι E R α)} :
      Trace plan calls s₀ log s → Locked.Move plan calls s ev s' →
      Trace plan calls s₀ (log ++ ev.toList) s'

/-! ### The lock discipline -/

/-- The client is inside, sharing the lock `k`.
Source: none
Kind: D -/
def Client.Reads (plan : (e : E) → Section touch (R e)) (k : ℕ) :
    Option (Client E R A T α) → Prop
  | some (.inside e _ _) => (plan e).shared = true ∧ (plan e).cell = k
  | _ => False

/-- The client is inside and holds the lock `k` alone.
Source: none
Kind: D -/
def Client.Writes (plan : (e : E) → Section touch (R e)) (k : ℕ) :
    Option (Client E R A T α) → Prop
  | some (.inside e _ _) => (plan e).shared = false ∧ (plan e).cell = k
  | _ => False

/-- The client has announced itself at the lock `k`.
Source: none
Kind: D -/
def Client.Awaits (plan : (e : E) → Section touch (R e)) (k : ℕ) :
    Option (Client E R A T α) → Prop
  | some (.announced e _) => (plan e).shared = false ∧ (plan e).cell = k
  | _ => False

section clients

variable (plan : (e : E) → Section touch (R e)) (k : ℕ) (p : Prog E R α) (e : E)
  (next : R e → Prog E R α) (rest : Prog A T (R e))

/-- An idle client holds no read lock.
Source: none
Kind: L -/
@[simp] theorem Client.reads_none : Client.Reads plan k (none : Option (Client E R A T α)) ↔ False :=
  Iff.rfl

/-- A client between sections holds no read lock.
Source: none
Kind: L -/
@[simp] theorem Client.reads_between :
    Client.Reads plan k (some (.between p : Client E R A T α)) ↔ False := Iff.rfl

/-- A client at a lock does not hold it for reading.
Source: none
Kind: L -/
@[simp] theorem Client.reads_announced :
    Client.Reads plan k (some (.announced e next : Client E R A T α)) ↔ False := Iff.rfl

/-- Inside a section, the read lock is held if the section shares its cell.
Source: none
Kind: L -/
@[simp] theorem Client.reads_inside : Client.Reads plan k (some (.inside e next rest)) ↔
    (plan e).shared = true ∧ (plan e).cell = k := Iff.rfl

/-- An idle client holds no write lock.
Source: none
Kind: L -/
@[simp] theorem Client.writes_none :
    Client.Writes plan k (none : Option (Client E R A T α)) ↔ False := Iff.rfl

/-- A client between sections holds no write lock.
Source: none
Kind: L -/
@[simp] theorem Client.writes_between :
    Client.Writes plan k (some (.between p : Client E R A T α)) ↔ False := Iff.rfl

/-- A client at a lock does not hold it for writing.
Source: none
Kind: L -/
@[simp] theorem Client.writes_announced :
    Client.Writes plan k (some (.announced e next : Client E R A T α)) ↔ False := Iff.rfl

/-- Inside a section, the write lock is held unless the section shares its cell.
Source: none
Kind: L -/
@[simp] theorem Client.writes_inside : Client.Writes plan k (some (.inside e next rest)) ↔
    (plan e).shared = false ∧ (plan e).cell = k := Iff.rfl

/-- An idle client waits for no lock.
Source: none
Kind: L -/
@[simp] theorem Client.awaits_none :
    Client.Awaits plan k (none : Option (Client E R A T α)) ↔ False := Iff.rfl

/-- A client between sections waits for no lock.
Source: none
Kind: L -/
@[simp] theorem Client.awaits_between :
    Client.Awaits plan k (some (.between p : Client E R A T α)) ↔ False := Iff.rfl

/-- A client at a lock waits for it if its section writes.
Source: none
Kind: L -/
@[simp] theorem Client.awaits_announced :
    Client.Awaits plan k (some (.announced e next : Client E R A T α)) ↔
      (plan e).shared = false ∧ (plan e).cell = k := Iff.rfl

/-- A client inside a section waits for no lock.
Source: none
Kind: L -/
@[simp] theorem Client.awaits_inside :
    Client.Awaits plan k (some (.inside e next rest)) ↔ False := Iff.rfl

/-- No client holds a lock in both ways.
Source: none
Kind: L -/
theorem Client.not_reads_of_writes {x : Option (Client E R A T α)} (h : Client.Writes plan k x) :
    ¬Client.Reads plan k x := by
  intro hr
  match x, h, hr with
  | some (.inside e _ _), h, hr => exact absurd (h.1.symm.trans hr.1) (by decide)

end clients

/-- The lock words say who is inside and who has announced itself, and a client that is inside
alone is alone.
Source: none
Kind: D -/
structure Locked.Disciplined (plan : (e : E) → Section touch (R e))
    (s : Locked ι E R A T α σ) : Prop where
  readers_iff : ∀ i k, i ∈ s.readers k ↔ Client.Reads plan k (s.clients i)
  writer_iff : ∀ i k, s.writer k = some i ↔
    Client.Awaits plan k (s.clients i) ∨ Client.Writes plan k (s.clients i)
  alone : ∀ i k, Client.Writes plan k (s.clients i) → s.readers k = ∅
  announced : ∀ i e next, s.clients i = some (.announced e next) → (plan e).shared = false
  cell_lt : ∀ i k, Client.Awaits plan k (s.clients i) ∨ Client.Reads plan k (s.clients i) ∨
    Client.Writes plan k (s.clients i) → k < s.mem.length

section discipline

variable {plan : (e : E) → Section touch (R e)} {calls : Prog E R α → Prop}
  {s s' s₀ : Locked ι E R A T α σ} {ev : Option (Event ι E R α)}

/-- Without clients the locks are free, as they should be.
Source: none
Kind: L -/
theorem Locked.disciplined_idle (mem : List σ) :
    (Locked.idle mem : Locked ι E R A T α σ).Disciplined plan := by
  refine ⟨?_, ?_, ?_, ?_, ?_⟩ <;> simp [Locked.idle]

/-- One client moves and the lock words follow it.
Source: none
Kind: L -/
theorem Locked.Disciplined.goes (h : s.Disciplined plan) {i : ι} {x : Option (Client E R A T α)}
    {mem : List σ} {readers : ℕ → Finset ι} {writer : ℕ → Option ι}
    (hmem : mem.length = s.mem.length)
    (hreaders : ∀ j k, j ∈ readers k ↔ if j = i then Client.Reads plan k x else j ∈ s.readers k)
    (hwriter : ∀ j k, writer k = some j ↔
      if j = i then Client.Awaits plan k x ∨ Client.Writes plan k x else s.writer k = some j)
    (halone : ∀ k, Client.Writes plan k x → ∀ j, j ≠ i → j ∉ s.readers k)
    (hfree : ∀ k, Client.Reads plan k x → ∀ j, j ≠ i → ¬Client.Writes plan k (s.clients j))
    (hannounced : ∀ e next, x = some (.announced e next) → (plan e).shared = false)
    (hcell : ∀ k, Client.Awaits plan k x ∨ Client.Reads plan k x ∨ Client.Writes plan k x →
      k < s.mem.length) :
    (⟨mem, readers, writer, Function.update s.clients i x⟩ :
      Locked ι E R A T α σ).Disciplined plan := by
  refine ⟨?_, ?_, ?_, ?_, ?_⟩
  · intro j k
    simp only [hreaders, Function.update_apply]
    split_ifs
    · rfl
    · exact h.readers_iff j k
  · intro j k
    simp only [hwriter, Function.update_apply]
    split_ifs
    · rfl
    · exact h.writer_iff j k
  · intro j k hw
    simp only [Function.update_apply] at hw
    rw [Finset.eq_empty_iff_forall_notMem]
    intro j' hj'
    rw [hreaders] at hj'
    split_ifs at hw hj' with hj hj'i hj'i
    · exact Client.not_reads_of_writes plan k hw hj'
    · exact halone k hw j' hj'i hj'
    · exact hfree k hj' j hj hw
    · rw [h.alone j k hw] at hj'
      exact absurd hj' (Finset.notMem_empty j')
  · intro j e next hc
    simp only [Function.update_apply] at hc
    split_ifs at hc with hj
    · exact hannounced e next hc
    · exact h.announced j e next hc
  · intro j k hat
    simp only [Function.update_apply] at hat
    rw [hmem]
    split_ifs at hat
    · exact hcell k hat
    · exact h.cell_lt j k hat

/-- A client that moves without touching a lock word.
Source: none
Kind: L -/
theorem Locked.Disciplined.stays (h : s.Disciplined plan) {i : ι} {x : Option (Client E R A T α)}
    {mem : List σ} (hmem : mem.length = s.mem.length)
    (hreads : ∀ k, Client.Reads plan k x ↔ Client.Reads plan k (s.clients i))
    (hawaits : ∀ k, Client.Awaits plan k x ↔ Client.Awaits plan k (s.clients i))
    (hwrites : ∀ k, Client.Writes plan k x ↔ Client.Writes plan k (s.clients i))
    (hannounced : ∀ e next, x = some (.announced e next) → (plan e).shared = false) :
    (⟨mem, s.readers, s.writer, Function.update s.clients i x⟩ :
      Locked ι E R A T α σ).Disciplined plan := by
  refine h.goes hmem ?_ ?_ ?_ ?_ hannounced ?_
  · intro j k
    split_ifs with hj
    · rw [hj, h.readers_iff, hreads]
    · rfl
  · intro j k
    split_ifs with hj
    · rw [hj, h.writer_iff, hawaits, hwrites]
    · rfl
  · intro k hw j hj
    rw [h.alone i k ((hwrites k).mp hw)]
    exact Finset.notMem_empty j
  · intro k hr j hj hw
    have hmem := (h.readers_iff i k).mpr ((hreads k).mp hr)
    rw [h.alone j k hw] at hmem
    exact absurd hmem (Finset.notMem_empty i)
  · intro k hat
    rw [hawaits, hreads, hwrites] at hat
    exact h.cell_lt i k hat

/-- The members of one set of a family after an update.
Source: none
Kind: L -/
theorem mem_update_iff {f : ℕ → Finset ι} {k k' : ℕ} {S : Finset ι} {j : ι} :
    j ∈ Function.update f k S k' ↔ if k' = k then j ∈ S else j ∈ f k' := by
  rw [Function.update_apply]
  split_ifs <;> rfl

/-- One step keeps the discipline.
Source: none
Kind: L -/
theorem Locked.Disciplined.step (h : s.Disciplined plan) (hmove : Locked.Move plan calls s ev s') :
    s'.Disciplined plan := by
  cases hmove with
  | called i p hidle hp => apply h.stays rfl <;> simp [hidle]
  | rlock i e next hi hshared hcell hfree =>
      refine h.goes rfl ?_ ?_ ?_ ?_ (by simp) (by simp [hshared, hcell])
      · intro j k
        have hout := h.readers_iff i k
        rw [hi, Client.reads_between, iff_false] at hout
        rw [mem_update_iff, Client.reads_inside]
        by_cases hj : j = i <;> by_cases hk : k = (plan e).cell
        · simp [hj, hk, hshared]
        · simp [hj, hk, hout, Ne.symm hk]
        · simp [hj, hk]
        · simp [hj, hk]
      · intro j k
        split_ifs with hj
        · simp [hj, h.writer_iff, hi, hshared]
        · rfl
      · simp [hshared]
      · rintro k ⟨-, rfl⟩ j hj hw
        have hwriter := (h.writer_iff j _).mpr (Or.inr hw)
        rw [hfree] at hwriter
        cases hwriter
  | announce i e next hi halone hcell hfree =>
      refine h.goes rfl ?_ ?_ (by simp) (by simp) ?_ (by simp [hcell])
      · intro j k
        split_ifs with hj
        · simp [hj, h.readers_iff, hi]
        · rfl
      · intro j k
        have hout := h.writer_iff i k
        rw [hi, Client.awaits_between, Client.writes_between, or_self, iff_false] at hout
        rw [Function.update_apply, Client.awaits_announced, Client.writes_announced, or_false]
        by_cases hj : j = i <;> by_cases hk : k = (plan e).cell
        · simp [hj, hk, halone]
        · simp [hj, hk, hout, Ne.symm hk]
        · simp [hj, hk, hfree, Ne.symm hj]
        · simp [hj, hk]
      · rintro e' next' heq
        cases heq
        exact halone
  | lock i e next hi hfree =>
      have halone := h.announced i e next hi
      refine h.goes rfl ?_ ?_ ?_ (by simp [halone]) (by simp) ?_
      · intro j k
        split_ifs with hj
        · simp [hj, h.readers_iff, hi, halone]
        · rfl
      · intro j k
        split_ifs with hj
        · simp [hj, h.writer_iff, hi]
        · rfl
      · rintro k ⟨-, rfl⟩ j hj
        rw [hfree]
        exact Finset.notMem_empty j
      · intro k hat
        apply h.cell_lt i k
        simpa [hi, halone] using hat
  | touch i e next a rest t t' r hi ht htouch =>
      apply h.stays (List.length_set ..) <;> simp [hi]
  | runlock i e next r hi hshared =>
      refine h.goes rfl ?_ ?_ (by simp) (by simp) (by simp) (by simp)
      · intro j k
        have hin := h.readers_iff i k
        rw [hi, Client.reads_inside] at hin
        rw [mem_update_iff, Client.reads_between]
        by_cases hj : j = i <;> by_cases hk : k = (plan e).cell
        · simp [hj, hk]
        · simp [hj, hk, hin, Ne.symm hk]
        · simp [hj, hk]
        · simp [hj, hk]
      · intro j k
        split_ifs with hj
        · simp [hj, h.writer_iff, hi, hshared]
        · rfl
  | unlock i e next r hi halone =>
      refine h.goes rfl ?_ ?_ (by simp) (by simp) (by simp) (by simp)
      · intro j k
        split_ifs with hj
        · simp [hj, h.readers_iff, hi, halone]
        · rfl
      · intro j k
        have hin := h.writer_iff i k
        rw [hi, Client.awaits_inside, Client.writes_inside, false_or] at hin
        rw [Function.update_apply, Client.awaits_between, Client.writes_between, or_self]
        by_cases hj : j = i <;> by_cases hk : k = (plan e).cell
        · simp [hj, hk]
        · simp [hj, hk, hin, Ne.symm hk]
        · have hheld := hin.mpr ⟨halone, hk.symm⟩
          rw [hk] at hheld
          simp [hj, hk, hheld, Ne.symm hj]
        · simp [hj, hk]
  | returned i a hi => apply h.stays rfl <;> simp [hi]

/-- A client inside a section shares its lock or holds it alone.
Source: none
Kind: L -/
theorem Client.reads_or_writes {x : Option (Client E R A T α)} {e : E} {next : R e → Prog E R α}
    {rest : Prog A T (R e)} (h : x = some (.inside e next rest)) :
    Client.Reads plan (plan e).cell x ∨ Client.Writes plan (plan e).cell x := by
  subst h
  cases hshared : (plan e).shared with
  | true => exact Or.inl ⟨hshared, rfl⟩
  | false => exact Or.inr ⟨hshared, rfl⟩

/-- Two clients inside the same lock, one of them alone, are the same client.
Source: none
Kind: L -/
theorem Locked.Disciplined.exclusive (h : s.Disciplined plan) {i j : ι} {k : ℕ}
    (hi : Client.Writes plan k (s.clients i))
    (hj : Client.Reads plan k (s.clients j) ∨ Client.Writes plan k (s.clients j)) : i = j := by
  rcases hj with hj | hj
  · have hmem := (h.readers_iff j k).mpr hj
    rw [h.alone i k hi] at hmem
    exact absurd hmem (Finset.notMem_empty j)
  · have hwi := (h.writer_iff i k).mpr (Or.inr hi)
    have hwj := (h.writer_iff j k).mpr (Or.inr hj)
    exact Option.some.inj (hwi.symm.trans hwj)

/-! ### Atomicity -/

/-- The atomic run that stands for a run of touches. A cell has its value in both, unless somebody
is in the middle of changing it; the code of a section, run on the value the cell had when the
section began, ends as the rest of it will on the present one.
Source: none
Kind: D -/
structure Locked.Simulates (plan : (e : E) → Section touch (R e)) (s : Locked ι E R A T α σ)
    (a : Pool ι E R α (List σ)) : Prop where
  disciplined : s.Disciplined plan
  progs : ∀ i, (s.clients i).map Client.prog = (a.threads i).map Thread.prog
  length_eq : a.world.length = s.mem.length
  settled : ∀ k, (∀ i, ¬Client.Writes plan k (s.clients i)) → a.world[k]? = s.mem[k]?
  readsOnly : ∀ i e next rest, s.clients i = some (.inside e next rest) →
    (plan e).shared = true → rest.ReadsOnly touch
  running : ∀ i e next rest t t', s.clients i = some (.inside e next rest) →
    a.world[(plan e).cell]? = some t → s.mem[(plan e).cell]? = some t' →
    (plan e).code.run touch t = rest.run touch t'

variable {a : Pool ι E R α (List σ)}

/-- A client of the locked machine is a thread of the atomic one.
Source: none
Kind: L -/
theorem Locked.Simulates.thread (h : s.Simulates plan a) {i : ι} {c : Client E R A T α}
    (hi : s.clients i = some c) : ∃ last, a.threads i = some ⟨c.prog, last⟩ := by
  have hprog := h.progs i
  rw [hi, Option.map_some] at hprog
  obtain ⟨⟨p, last⟩, hth, hp⟩ := Option.map_eq_some_iff.mp hprog.symm
  simp only at hp
  subst hp
  exact ⟨last, hth⟩

/-- Two families that agree under two maps agree after updates that agree.
Source: none
Kind: L -/
theorem map_update_eq {β γ δ : Type} {f : β → δ} {g : γ → δ} {u : ι → Option β}
    {v : ι → Option γ} (h : ∀ i, (u i).map f = (v i).map g) {i : ι} {x : Option β}
    {y : Option γ} (hxy : x.map f = y.map g) (j : ι) :
    (Function.update u i x j).map f = (Function.update v i y j).map g := by
  rw [Function.update_apply, Function.update_apply]
  split_ifs
  · exact hxy
  · exact h j

/-- A step that changes neither the memory nor who changes it, and whose client has its program
still to do, is matched by no step.
Source: none
Kind: L -/
theorem Locked.Simulates.enters (h : s.Simulates plan a) {i : ι} {c x : Client E R A T α}
    {readers : ℕ → Finset ι} {writer : ℕ → Option ι} (hi : s.clients i = some c)
    (hprog : x.prog = c.prog) (hout : ∀ k, ¬Client.Writes plan k (some c))
    (hcode : ∀ e next rest, x = .inside e next rest → rest = (plan e).code)
    (hwrites : ∀ k, Client.Writes plan k (some x) → ∀ j, ¬Client.Writes plan k (s.clients j))
    (hreads : ∀ k, Client.Reads plan k (some x) → ∀ j, ¬Client.Writes plan k (s.clients j))
    (hdisc : (⟨s.mem, readers, writer, Function.update s.clients i (some x)⟩ :
      Locked ι E R A T α σ).Disciplined plan) :
    (⟨s.mem, readers, writer, Function.update s.clients i (some x)⟩ :
      Locked ι E R A T α σ).Simulates plan a := by
  have hnone : ∀ k, (∀ j, ¬Client.Writes plan k (Function.update s.clients i (some x) j)) →
      ∀ j, ¬Client.Writes plan k (s.clients j) := by
    intro k hk j hw
    by_cases hj : j = i
    · subst hj
      rw [hi] at hw
      exact hout k hw
    · apply hk j
      rwa [Function.update_of_ne hj]
  refine ⟨hdisc, ?_, h.length_eq, fun k hk => h.settled k (hnone k hk), ?_, ?_⟩
  · intro j
    have hsame : a.threads = Function.update a.threads i (a.threads i) :=
      (Function.update_eq_self i a.threads).symm
    rw [hsame]
    apply map_update_eq h.progs
    rw [← h.progs i, hi, Option.map_some, Option.map_some, hprog]
  · intro j e next rest hj hshared
    simp only [Function.update_apply] at hj
    split_ifs at hj with hji
    · cases hcode e next rest (Option.some.inj hj)
      exact (plan e).readsOnly hshared
    · exact h.readsOnly j e next rest hj hshared
  · intro j e next rest t t' hj ht ht'
    simp only [Function.update_apply] at hj
    split_ifs at hj with hji
    · cases hcode e next rest (Option.some.inj hj)
      have hfree : ∀ j, ¬Client.Writes plan (plan e).cell (s.clients j) := by
        cases hshared : (plan e).shared with
        | true =>
            apply hreads
            rw [Option.some.inj hj]
            exact ⟨hshared, rfl⟩
        | false =>
            apply hwrites
            rw [Option.some.inj hj]
            exact ⟨hshared, rfl⟩
      rw [h.settled _ hfree, ht'] at ht
      rw [Option.some.inj ht]
    · exact h.running j e next rest t t' hj ht ht'

/-- A client that is outside every lock after its step, and the atomic step that matches it.
Source: none
Kind: L -/
theorem Locked.Simulates.outside (h : s.Simulates plan a) {i : ι}
    {x : Option (Client E R A T α)} {y : Option (Thread E R α)} {w : List σ}
    {readers : ℕ → Finset ι} {writer : ℕ → Option ι}
    (hx : ∀ e next rest, x ≠ some (.inside e next rest))
    (hxy : x.map Client.prog = y.map Thread.prog) (hlen : w.length = a.world.length)
    (hsettled : ∀ k, (∀ j, j ≠ i → ¬Client.Writes plan k (s.clients j)) → w[k]? = s.mem[k]?)
    (hothers : ∀ j e next rest, j ≠ i → s.clients j = some (.inside e next rest) →
      w[(plan e).cell]? = a.world[(plan e).cell]?)
    (hdisc : (⟨s.mem, readers, writer, Function.update s.clients i x⟩ :
      Locked ι E R A T α σ).Disciplined plan) :
    (⟨s.mem, readers, writer, Function.update s.clients i x⟩ :
      Locked ι E R A T α σ).Simulates plan ⟨w, Function.update a.threads i y⟩ := by
  refine ⟨hdisc, map_update_eq h.progs hxy, hlen.trans h.length_eq, ?_, ?_, ?_⟩
  · intro k hk
    dsimp only at hk
    apply hsettled
    intro j hj hw
    apply hk j
    rwa [Function.update_of_ne hj]
  · intro j e next rest hj hshared
    simp only [Function.update_apply] at hj
    split_ifs at hj with hji
    · exact absurd hj (hx e next rest)
    · exact h.readsOnly j e next rest hj hshared
  · intro j e next rest t t' hj ht ht'
    simp only [Function.update_apply] at hj
    split_ifs at hj with hji
    · exact absurd hj (hx e next rest)
    · rw [hothers j e next rest hji hj] at ht
      exact h.running j e next rest t t' hj ht ht'

/-- The end of a section is the atomic section.
Source: none
Kind: L -/
theorem Locked.Simulates.perform (h : s.Simulates plan a) {i : ι} {e : E}
    {next : R e → Prog E R α} {r : R e} (hi : s.clients i = some (.inside e next (.ret r)))
    {readers : ℕ → Finset ι} {writer : ℕ → Option ι}
    (hdisc : (⟨s.mem, readers, writer, Function.update s.clients i (some (.between (next r)))⟩ :
      Locked ι E R A T α σ).Disciplined plan) :
    ∃ a', Pool.Move (fun e => (plan e).perform) calls a (.done i e r) a' ∧
      (⟨s.mem, readers, writer, Function.update s.clients i (some (.between (next r)))⟩ :
        Locked ι E R A T α σ).Simulates plan a' := by
  have hlt : (plan e).cell < s.mem.length :=
    h.disciplined.cell_lt i _ (Or.inr (Client.reads_or_writes hi))
  have hlt' : (plan e).cell < a.world.length := h.length_eq ▸ hlt
  obtain ⟨t, ht⟩ : ∃ t, a.world[(plan e).cell]? = some t := ⟨_, List.getElem?_eq_getElem hlt'⟩
  obtain ⟨t', ht'⟩ : ∃ t', s.mem[(plan e).cell]? = some t' := ⟨_, List.getElem?_eq_getElem hlt⟩
  have hrun : (plan e).code.run touch t = .ok (r, t') := h.running i e next _ t t' hi ht ht'
  obtain ⟨last, hth⟩ := h.thread hi
  refine ⟨_, .done a i e next last r _ hth (Section.perform_eq_ok ht hrun), ?_⟩
  -- In the atomic memory the cell gets, all at once, the value that the touches gave it.
  have hself : (a.world.set (plan e).cell t')[(plan e).cell]? = s.mem[(plan e).cell]? := by
    rw [List.getElem?_set_self hlt', ht']
  refine h.outside (by simp) rfl List.length_set ?_ ?_ hdisc
  · intro k hk
    by_cases hkc : (plan e).cell = k
    · subst hkc
      exact hself
    · rw [List.getElem?_set_ne hkc]
      apply h.settled
      intro j hw
      by_cases hj : j = i
      · subst hj
        rw [hi] at hw
        exact hkc hw.2
      · exact hk j hj hw
  · intro j e' next' rest' hj hj'
    by_cases hcell : (plan e).cell = (plan e').cell
    · -- Both are inside, so both share the lock and nobody has changed the cell.
      have hin : Client.Reads plan _ _ ∨ Client.Writes plan _ _ := Client.reads_or_writes hj'
      rw [← hcell] at hin ⊢
      rw [hself]
      symm
      apply h.settled
      intro l hw
      have hlj := h.disciplined.exclusive hw hin
      have hli := h.disciplined.exclusive hw (Client.reads_or_writes hi)
      exact hj (hlj.symm.trans hli)
    · rw [List.getElem?_set_ne hcell]

/-- One touch is matched by no step.
Source: none
Kind: L -/
theorem Locked.Simulates.touched (h : s.Simulates plan a) {i : ι} {e : E}
    {next : R e → Prog E R α} {b : A} {rest : T b → Prog A T (R e)} {t t' : σ} {r : T b}
    (hi : s.clients i = some (.inside e next (.act b rest)))
    (ht : s.mem[(plan e).cell]? = some t) (htouch : touch b t = .ok (r, t'))
    (hdisc : (⟨s.mem.set (plan e).cell t', s.readers, s.writer,
      Function.update s.clients i (some (.inside e next (rest r)))⟩ :
      Locked ι E R A T α σ).Disciplined plan) :
    (⟨s.mem.set (plan e).cell t', s.readers, s.writer,
      Function.update s.clients i (some (.inside e next (rest r)))⟩ :
      Locked ι E R A T α σ).Simulates plan a := by
  have hlt := (List.getElem?_eq_some_iff.mp ht).1
  -- A cell that somebody else is inside of is not the one touched, or the touch changed nothing.
  have hsame : ∀ k, (∃ j, j ≠ i ∧ (Client.Reads plan k (s.clients j) ∨
      Client.Writes plan k (s.clients j))) ∨ (∀ j, ¬Client.Writes plan k
        (Function.update s.clients i (some (.inside e next (rest r))) j)) →
      (s.mem.set (plan e).cell t')[k]? = s.mem[k]? := by
    intro k hk
    by_cases hkc : (plan e).cell = k
    · subst hkc
      cases hshared : (plan e).shared with
      | true =>
          rw [(h.readsOnly i e next _ hi hshared).1 t r t' htouch, List.getElem?_set_self hlt, ht]
      | false =>
          exfalso
          rcases hk with ⟨j, hj, hin⟩ | hk
          · refine hj (h.disciplined.exclusive ?_ hin).symm
            rw [hi]
            exact ⟨hshared, rfl⟩
          · apply hk i
            rw [Function.update_self]
            exact ⟨hshared, rfl⟩
    · rw [List.getElem?_set_ne hkc]
  refine ⟨hdisc, ?_, ?_, ?_, ?_, ?_⟩
  · intro j
    have hthreads : a.threads = Function.update a.threads i (a.threads i) :=
      (Function.update_eq_self i a.threads).symm
    rw [hthreads]
    apply map_update_eq h.progs
    rw [← h.progs i, hi]
    rfl
  · rw [List.length_set]
    exact h.length_eq
  · intro k hk
    dsimp only at hk
    rw [hsame k (Or.inr hk)]
    apply h.settled
    intro j hw
    by_cases hj : j = i
    · subst hj
      rw [hi] at hw
      apply hk j
      rw [Function.update_self]
      exact hw
    · apply hk j
      rwa [Function.update_of_ne hj]
  · intro j e' next' rest' hj hshared
    simp only [Function.update_apply] at hj
    split_ifs at hj with hji
    · cases hj
      exact (h.readsOnly i e next _ hi hshared).2 r
    · exact h.readsOnly j e' next' rest' hj hshared
  · intro j e' next' rest' u u' hj hu hu'
    simp only [Function.update_apply] at hj
    split_ifs at hj with hji
    · cases hj
      rw [h.running i e next _ u t hi hu ht, Prog.run_act, htouch, ok_bind]
      rw [List.getElem?_set_self hlt] at hu'
      rw [Option.some.inj hu']
    · refine h.running j e' next' rest' u u' hj hu ?_
      rw [← hsame _ (Or.inl ⟨j, hji, Client.reads_or_writes hj⟩)]
      exact hu'

/-- One step is matched by the atomic step with the same event, or by none if nothing is seen.
Source: none
Kind: L -/
theorem Locked.Simulates.step (h : s.Simulates plan a) (hmove : Locked.Move plan calls s ev s') :
    (ev = none ∧ s'.Simulates plan a) ∨
      ∃ ev' a', ev = some ev' ∧ Pool.Move (fun e => (plan e).perform) calls a ev' a' ∧
        s'.Simulates plan a' := by
  have hdisc := h.disciplined.step hmove
  have hout : ∀ {i : ι} {x : Option (Client E R A T α)} (_ : s.clients i = x)
      (_ : ∀ k, ¬Client.Writes plan k x) (k : ℕ),
      (∀ j, j ≠ i → ¬Client.Writes plan k (s.clients j)) → a.world[k]? = s.mem[k]? := by
    rintro i x hi hx k hk
    apply h.settled
    intro j hw
    by_cases hj : j = i
    · rw [hj, hi] at hw
      exact hx k hw
    · exact hk j hj hw
  cases hmove with
  | called i p hidle hp =>
      have hnone : a.threads i = none := by
        have hprog := h.progs i
        rw [hidle, Option.map_none] at hprog
        exact Option.map_eq_none_iff.mp hprog.symm
      refine Or.inr ⟨_, _, rfl, .called a i p hnone hp, ?_⟩
      exact h.outside (by simp) rfl rfl (hout hidle (by simp)) (fun _ _ _ _ _ _ => rfl) hdisc
  | rlock i e next hi hshared hcell hfree =>
      refine Or.inl ⟨rfl, h.enters hi rfl (by simp) ?_ (by simp [hshared]) ?_ hdisc⟩
      · rintro e' next' rest' heq
        cases heq
        rfl
      · rintro k ⟨-, rfl⟩ j hw
        have hwriter := (h.disciplined.writer_iff j _).mpr (Or.inr hw)
        rw [hfree] at hwriter
        cases hwriter
  | announce i e next hi halone hcell hfree =>
      exact Or.inl ⟨rfl, h.enters hi rfl (by simp) (by simp) (by simp) (by simp) hdisc⟩
  | lock i e next hi hfree =>
      have halone := h.disciplined.announced i e next hi
      refine Or.inl ⟨rfl, h.enters hi rfl (by simp) ?_ ?_ (by simp [halone]) hdisc⟩
      · rintro e' next' rest' heq
        cases heq
        rfl
      · rintro k ⟨-, rfl⟩ j hw
        have hwi := (h.disciplined.writer_iff i (plan e).cell).mpr (Or.inl (by simp [hi, halone]))
        have hwj := (h.disciplined.writer_iff j _).mpr (Or.inr hw)
        obtain rfl := Option.some.inj (hwi.symm.trans hwj)
        rw [hi] at hw
        exact hw
  | touch i e next b rest t t' r hi ht htouch =>
      exact Or.inl ⟨rfl, h.touched hi ht htouch hdisc⟩
  | runlock i e next r hi hshared =>
      obtain ⟨a', hmove, hsim⟩ := h.perform hi hdisc
      exact Or.inr ⟨_, a', rfl, hmove, hsim⟩
  | unlock i e next r hi halone =>
      obtain ⟨a', hmove, hsim⟩ := h.perform hi hdisc
      exact Or.inr ⟨_, a', rfl, hmove, hsim⟩
  | returned i b hi =>
      obtain ⟨last, hth⟩ := h.thread hi
      refine Or.inr ⟨_, _, rfl, .returned a i b last hth, ?_⟩
      exact h.outside (by simp) rfl rfl (hout hi (by simp)) (fun _ _ _ _ _ _ => rfl) hdisc

/-- Every run of touches has an atomic run with the same history.
Source: none
Kind: P -/
theorem Locked.Trace.atomic {mem : List σ} {log : List (Event ι E R α)}
    (h : Locked.Trace plan calls (Locked.idle mem) log s) :
    ∃ a, Pool.Trace (fun e => (plan e).perform) calls ⟨mem, fun _ => none⟩ log a ∧
      s.Simulates plan a := by
  induction h with
  | nil =>
      refine ⟨_, .nil, Locked.disciplined_idle mem, ?_, rfl, ?_, ?_, ?_⟩
      · exact fun i => rfl
      · exact fun k _ => rfl
      all_goals simp [Locked.idle]
  | snoc _ hmove ih =>
      obtain ⟨a, htrace, hsim⟩ := ih
      rcases hsim.step hmove with ⟨rfl, hsim'⟩ | ⟨ev', a', rfl, hatomic, hsim'⟩
      · rw [Option.toList_none, List.append_nil]
        exact ⟨a, htrace, hsim'⟩
      · exact ⟨a', htrace.snoc hatomic, hsim'⟩

/-! ### Progress -/

/-- A client inside a section whose code will return can move.
Source: none
Kind: L -/
theorem Locked.Disciplined.inside_moves (h : s.Disciplined plan) {i : ι} {e : E}
    {next : R e → Prog E R α} {rest : Prog A T (R e)}
    (hi : s.clients i = some (.inside e next rest))
    (hruns : ∀ t, s.mem[(plan e).cell]? = some t → ∃ out, rest.run touch t = .ok out) :
    ∃ ev s', Locked.Move plan calls s ev s' := by
  have hlt := h.cell_lt i _ (Or.inr (Client.reads_or_writes hi))
  obtain ⟨t, ht⟩ : ∃ t, s.mem[(plan e).cell]? = some t := ⟨_, List.getElem?_eq_getElem hlt⟩
  obtain ⟨out, hout⟩ := hruns t ht
  cases rest with
  | ret r =>
      cases hshared : (plan e).shared with
      | true => exact ⟨_, _, .runlock s i e next r hi hshared⟩
      | false => exact ⟨_, _, .unlock s i e next r hi hshared⟩
  | stop => cases hout
  | act b rest =>
      obtain ⟨⟨r, t'⟩, htouch, -⟩ := bind_eq_ok_iff.mp hout
      exact ⟨_, _, .touch s i e next b rest t t' r hi ht htouch⟩

/-- If somebody is busy, somebody can move: a client that waits for a lock waits for one that is
inside it, and that one can go on.
Source: none
Kind: P -/
theorem Locked.Disciplined.progress (h : s.Disciplined plan)
    (hstop : ∀ i, s.clients i ≠ some (.between .stop))
    (hcell : ∀ i e next, s.clients i = some (.between (.act e next)) →
      (plan e).cell < s.mem.length)
    (hruns : ∀ i e next rest t, s.clients i = some (.inside e next rest) →
      s.mem[(plan e).cell]? = some t → ∃ out, rest.run touch t = .ok out)
    {i : ι} (hbusy : s.clients i ≠ none) : ∃ ev s', Locked.Move plan calls s ev s' := by
  have hinside : ∀ j k, Client.Reads plan k (s.clients j) ∨ Client.Writes plan k (s.clients j) →
      ∃ ev s', Locked.Move plan calls s ev s' := by
    intro j k hj
    cases hc : s.clients j with
    | none => simp [hc] at hj
    | some c =>
        cases c with
        | inside e next rest => exact h.inside_moves hc fun t ht => hruns j e next rest t hc ht
        | _ => simp [hc] at hj
  have hannounced : ∀ j e next, s.clients j = some (.announced e next) →
      ∃ ev s', Locked.Move plan calls s ev s' := by
    intro j e next hj
    by_cases hempty : s.readers (plan e).cell = ∅
    · exact ⟨_, _, .lock s j e next hj hempty⟩
    · obtain ⟨l, hl⟩ := Finset.nonempty_iff_ne_empty.mpr hempty
      exact hinside l _ (Or.inl ((h.readers_iff l _).mp hl))
  have hwriter : ∀ j k, s.writer k = some j → ∃ ev s', Locked.Move plan calls s ev s' := by
    intro j k hj
    rcases (h.writer_iff j k).mp hj with hj | hj
    · cases hc : s.clients j with
      | none => simp [hc] at hj
      | some c =>
          cases c with
          | announced e next => exact hannounced j e next hc
          | _ => simp [hc] at hj
    · exact hinside j k (Or.inr hj)
  obtain ⟨c, hc⟩ := Option.ne_none_iff_exists'.mp hbusy
  cases c with
  | announced e next => exact hannounced i e next hc
  | inside e next rest => exact h.inside_moves hc fun t ht => hruns i e next rest t hc ht
  | between p =>
      cases p with
      | ret b => exact ⟨_, _, .returned s i b hc⟩
      | stop => exact absurd hc (hstop i)
      | act e next =>
          cases hw : s.writer (plan e).cell with
          | some j => exact hwriter j _ hw
          | none =>
              have hlt := hcell i e next hc
              cases hshared : (plan e).shared with
              | true => exact ⟨_, _, .rlock s i e next hc hshared hlt hw⟩
              | false => exact ⟨_, _, .announce s i e next hc hshared hlt hw⟩

/-! ### Atomic runs are runs -/

variable {log : List (Event ι E R α)} {mem : List σ} {i : ι}

/-- The clients of an atomic run, with every lock free.
Source: none
Kind: D -/
def Locked.resting (a : Pool ι E R α (List σ)) : Locked ι E R A T α σ :=
  ⟨a.world, fun _ => ∅, fun _ => none, fun i => (a.threads i).map fun th => .between th.prog⟩

/-- Changing one thread moves one client.
Source: none
Kind: L -/
theorem Locked.resting_update (a : Pool ι E R α (List σ)) (mem : List σ)
    (th : Option (Thread E R α)) :
    (Locked.resting ⟨mem, Function.update a.threads i th⟩ : Locked ι E R A T α σ) =
      { (Locked.resting a).goes i (th.map fun th => .between th.prog) with mem := mem } := by
  unfold Locked.resting Locked.goes
  congr 1
  funext j
  simp only [Function.update_apply]
  split_ifs <;> rfl

/-- A client inside its lock runs the rest of the section, touch by touch.
Source: none
Kind: L -/
theorem Locked.Trace.touches {e : E} {next : R e → Prog E R α} {r : R e} (rest : Prog A T (R e))
    {t t' : σ} (h : Locked.Trace plan calls s₀ log s)
    (hi : s.clients i = some (.inside e next rest)) (ht : s.mem[(plan e).cell]? = some t)
    (hrun : rest.run touch t = .ok (r, t')) :
    Locked.Trace plan calls s₀ log
      { s.goes i (some (.inside e next (.ret r))) with mem := s.mem.set (plan e).cell t' } := by
  induction rest generalizing s t with
  | ret r' =>
      obtain ⟨rfl, rfl⟩ := Prod.mk.inj (Except.ok.inj hrun)
      obtain ⟨hlt, rfl⟩ := List.getElem?_eq_some_iff.mp ht
      rwa [List.set_getElem_self hlt, show s.goes i (some (.inside e next (.ret r'))) = s by
        unfold Locked.goes
        rw [← hi, Function.update_eq_self]]
  | stop => cases hrun
  | act b rest ih =>
      obtain ⟨⟨r', t₁⟩, htouch, hrun⟩ := bind_eq_ok_iff.mp hrun
      have hlt := (List.getElem?_eq_some_iff.mp ht).1
      have hstep := h.snoc (.touch s i e next b rest t t₁ r' hi ht htouch)
      rw [Option.toList_none, List.append_nil] at hstep
      have hgo := ih r' hstep (Function.update_self ..) (List.getElem?_set_self hlt) hrun
      simpa [Locked.goes] using hgo

/-- While every lock is free, a client can perform its next section, from the lock to the unlock.
Source: none
Kind: L -/
theorem Locked.Trace.performs {a : Pool ι E R α (List σ)} {e : E} {next : R e → Prog E R α}
    {last : Option (Σ e, R e)} {r : R e} {mem : List σ}
    (h : Locked.Trace plan calls s₀ log (Locked.resting a))
    (hi : a.threads i = some ⟨.act e next, last⟩)
    (hperform : (plan e).perform a.world = .ok (r, mem)) :
    Locked.Trace plan calls s₀ (log ++ [.done i e r])
      (Locked.resting ⟨mem, Function.update a.threads i (some ⟨next r, some ⟨e, r⟩⟩)⟩) := by
  obtain ⟨t, hidx, hperform⟩ := bind_eq_ok_iff.mp hperform
  obtain ⟨⟨r', t'⟩, hrun, hperform⟩ := bind_eq_ok_iff.mp hperform
  obtain ⟨mem', hstore, hperform⟩ := bind_eq_ok_iff.mp hperform
  obtain ⟨rfl, rfl⟩ := Prod.mk.inj (Except.ok.inj hperform)
  have ht := index_eq_ok_iff.mp hidx
  have hlt := (List.getElem?_eq_some_iff.mp ht).1
  rw [store_eq_ok _ hlt] at hstore
  obtain rfl := Except.ok.inj hstore
  rw [Locked.resting_update]
  have hi' : (Locked.resting a : Locked ι E R A T α σ).clients i =
      some (.between (.act e next)) := by simp [Locked.resting, hi]
  cases hshared : (plan e).shared with
  | true =>
      have hin := h.snoc (.rlock _ i e next hi' hshared hlt rfl)
      rw [Option.toList_none, List.append_nil] at hin
      have hend := hin.touches (plan e).code (Function.update_self ..) ht hrun
      have hout := hend.snoc (.runlock _ i e next r' (Function.update_self ..) hshared)
      simpa [Locked.goes, Locked.resting] using hout
  | false =>
      have hannounced := h.snoc (.announce _ i e next hi' hshared hlt rfl)
      have hin := hannounced.snoc (.lock _ i e next (Function.update_self ..) rfl)
      simp only [Option.toList_none, List.append_nil] at hin
      have hend := hin.touches (plan e).code (Function.update_self ..) ht hrun
      have hout := hend.snoc (.unlock _ i e next r' (Function.update_self ..) hshared)
      simpa [Locked.goes, Locked.resting] using hout

/-- Every atomic run is the history of a run through the locks.
Source: none
Kind: P -/
theorem Pool.Trace.locked {a : Pool ι E R α (List σ)}
    (h : Pool.Trace (fun e => (plan e).perform) calls ⟨mem, fun _ => none⟩ log a) :
    Locked.Trace plan calls (Locked.idle mem) log (Locked.resting a) := by
  induction h with
  | nil => exact .nil
  | @snoc log s s' ev _ hmove ih =>
      cases hmove with
      | called i p hidle hp =>
          rw [Locked.resting_update]
          exact ih.snoc (.called _ i p (by simp [Locked.resting, hidle]) hp)
      | done i e next last r w hi hexec => exact ih.performs hi hexec
      | returned i b last hi =>
          rw [Locked.resting_update]
          exact ih.snoc (.returned _ i b (by simp [Locked.resting, hi]))

end discipline

end CacheMoney.Found
