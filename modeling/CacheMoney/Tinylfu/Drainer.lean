import Mathlib.Logic.Relation
import CacheMoney.Tinylfu.Buffer
import CacheMoney.Tinylfu.Policy

/-!
# The policy with its drainer

Readers push fingerprints into the stripes and wake the drainer; the drainer folds them into the
sketch and the doorkeeper it loaded at the start of its pass; `Resize` publishes new ones at any
time. Every step below is one atomic action of the source: a critical section, a channel operation,
an atomic load or store, or drainer-local work.

* `Reader`, `Drainer`: program counters, with the data each goroutine holds.
* `Arena`: the sketches and doorkeepers by pointer. A pass keeps writing to the ones it loaded.
* `Step`: the interleavings, for any number of readers and of `Resize` calls.
* `appended`, `folded`, `fills` are history: nothing reads them.
-/

namespace CacheMoney.Tinylfu

open CacheMoney.Found

/-! ### Pointers -/

/-- Cells that are allocated one after the other and never freed.
Source: none
Kind: D -/
structure Arena (α : Type) where
  read : ℕ → α
  used : ℕ

namespace Arena

variable {α : Type}

/-- Source: none
Kind: D -/
def alloc (a : Arena α) (x : α) : Arena α := ⟨Function.update a.read a.used x, a.used + 1⟩

/-- Source: none
Kind: D -/
def write (a : Arena α) (p : ℕ) (x : α) : Arena α := { a with read := Function.update a.read p x }

/-- A new cell holds its value.
Source: none
Kind: L -/
@[simp] theorem read_alloc_self (a : Arena α) (x : α) : (a.alloc x).read a.used = x :=
  Function.update_self ..

/-- An allocation leaves the older cells.
Source: none
Kind: L -/
theorem read_alloc_of_lt {a : Arena α} {p : ℕ} (h : p < a.used) (x : α) :
    (a.alloc x).read p = a.read p :=
  Function.update_of_ne (Nat.ne_of_lt h) ..

/-- A written cell holds its value.
Source: none
Kind: L -/
@[simp] theorem read_write_self (a : Arena α) (p : ℕ) (x : α) : (a.write p x).read p = x :=
  Function.update_self ..

/-- A write leaves the other cells.
Source: none
Kind: L -/
theorem read_write_of_ne {a : Arena α} {p q : ℕ} (h : q ≠ p) (x : α) :
    (a.write p x).read q = a.read q :=
  Function.update_of_ne h ..

end Arena

/-! ### The state -/

/-- A goroutine that calls `Record`.
Source: `internal/tinylfu/policy.go` `Policy.Record`
Kind: D -/
inductive Reader where
  | idle
  /-- It saw the policy active; `push` is next. -/
  | pushing (fp : UInt64)
  /-- Its push was the `n`-th to fill stripe `i`; the send on `wake` is next. -/
  | signalling (i n : ℕ)
  deriving DecidableEq

/-- What `drainOnce` loads before it drains.
Source: `internal/tinylfu/policy.go` `Policy.drainOnce`
Kind: D -/
structure Pass where
  sk : ℕ
  dk : ℕ
  agingN : ℕ
  /-- The pass after `done` was closed. -/
  final : Bool

/-- Source: `internal/tinylfu/policy.go` `Policy.drain`
Kind: D -/
inductive Drainer where
  /-- At the select. -/
  | waiting
  /-- In `drainOnce`, before `sk.Load`. -/
  | loading (final : Bool)
  /-- Before `dk.Load`. -/
  | loaded (final : Bool) (sk : ℕ)
  /-- In `drainInto`, before the lock of stripe `i`. -/
  | lane (pass : Pass) (i : ℕ)
  /-- With the rest of the scratch copy of stripe `i` to fold. -/
  | folding (pass : Pass) (i : ℕ) (scratch : List UInt64)
  /-- In the callback, after `sk.increment`. -/
  | counted (pass : Pass) (i : ℕ) (scratch : List UInt64)
  | exited

/-- The policy and its goroutines.
Source: `internal/tinylfu/policy.go` `Policy`
Kind: D -/
structure State (ι : Type) where
  active : Bool
  buf : AccessBuffer
  sk : ℕ
  dk : ℕ
  incrs : ℕ
  /-- A token is in the wake channel. -/
  wake : Bool
  /-- The done channel is closed. -/
  done : Bool
  sketches : Arena Sketch
  doorkeepers : Arena Doorkeeper
  readers : ι → Reader
  /-- The calls to `Resize` between their two stores. -/
  resizing : List Config
  drainer : Drainer
  /-- The fingerprints that pushes appended, in order. -/
  appended : List UInt64
  /-- The fingerprints handed to the callback of `drainOnce`, in order. -/
  folded : List UInt64
  /-- How often each stripe was filled. -/
  fills : ℕ → ℕ

variable {ι : Type}

/-- Source: `internal/tinylfu/policy.go` `New`
Kind: D -/
def start (buf : AccessBuffer) (f : Frequency) : State ι where
  active := false
  buf := buf
  sk := 0
  dk := 0
  incrs := f.incrs
  wake := false
  done := false
  sketches := ⟨fun _ => f.sk, 1⟩
  doorkeepers := ⟨fun _ => f.dk, 1⟩
  readers := fun _ => .idle
  resizing := []
  drainer := .waiting
  appended := []
  folded := []
  fills := fun _ => 0

/-- `procs` is the answer of `runtime.GOMAXPROCS`.
Source: `internal/tinylfu/policy.go` `New`
Kind: D -/
def newPolicy (procs : Int64) (cfg : Config) : Outcome (State ι) := do
  let stripes := if cfg.stripes ≤ 0 then procs else cfg.stripes
  let depthRing := if cfg.ringDepth ≤ 0 then defaultRingDepth else cfg.ringDepth
  let f ← newFrequency cfg
  pure (start (newAccessBuffer stripes depthRing) f)

/-- What the drainer's pass folds into.
Source: `internal/tinylfu/policy.go` `Policy.drainOnce`
Kind: D -/
def State.frequency (s : State ι) (sk dk : ℕ) : Frequency :=
  ⟨s.sketches.read sk, s.doorkeepers.read dk, s.incrs⟩

/-- Source: `internal/tinylfu/policy.go` `Policy.Estimate`
Kind: D -/
def State.estimate (s : State ι) (fp : UInt64) : UInt8 := (s.sketches.read s.sk).estimate fp

/-! ### The steps -/

variable [DecidableEq ι]

/-- Source: `internal/tinylfu/policy.go` `Policy`
Kind: D -/
inductive Step : State ι → State ι → Prop where
  /-- `Record`, on an active policy. -/
  | record (s : State ι) (r : ι) (fp : UInt64) (hr : s.readers r = .idle)
      (hactive : s.active = true) :
      Step s { s with readers := Function.update s.readers r (.pushing fp) }
  /-- `TryLock` fails: the sample is dropped. -/
  | contended (s : State ι) (r : ι) (fp : UInt64) (hr : s.readers r = .pushing fp) :
      Step s { s with readers := Function.update s.readers r .idle }
  /-- The push did not fill its stripe. -/
  | push (s : State ι) (r : ι) (fp : UInt64) (buf : AccessBuffer)
      (hr : s.readers r = .pushing fp) (hpush : s.buf.push fp = .ok (false, buf)) :
      Step s { s with
        buf := buf
        readers := Function.update s.readers r .idle
        appended := if s.buf.accepts fp then s.appended ++ [fp] else s.appended }
  /-- The push filled its stripe. -/
  | fill (s : State ι) (r : ι) (fp : UInt64) (buf : AccessBuffer)
      (hr : s.readers r = .pushing fp) (hpush : s.buf.push fp = .ok (true, buf)) :
      Step s { s with
        buf := buf
        readers := Function.update s.readers r
          (.signalling (s.buf.stripeOf fp) (s.fills (s.buf.stripeOf fp) + 1))
        appended := if s.buf.accepts fp then s.appended ++ [fp] else s.appended
        fills := Function.update s.fills (s.buf.stripeOf fp) (s.fills (s.buf.stripeOf fp) + 1) }
  /-- The send on `wake`, which does nothing if the slot is taken. -/
  | send (s : State ι) (r : ι) (i n : ℕ) (hr : s.readers r = .signalling i n) :
      Step s { s with wake := true, readers := Function.update s.readers r .idle }
  | setActive (s : State ι) (on : Bool) : Step s { s with active := on }
  /-- The first store of `Resize`. -/
  | resizeSketch (s : State ι) (cfg : Config) (sk : Sketch)
      (hnew : newSketch cfg.counters cfg.seed = .ok sk) :
      Step s { s with
        sketches := s.sketches.alloc sk
        sk := s.sketches.used
        resizing := cfg :: s.resizing }
  /-- The second store of `Resize`. -/
  | resizeDoorkeeper (s : State ι) (before after : List Config) (cfg : Config)
      (hcfg : s.resizing = before ++ cfg :: after) :
      Step s { s with
        doorkeepers := s.doorkeepers.alloc (newDoorkeeper cfg.counters cfg.seed)
        dk := s.doorkeepers.used
        resizing := before ++ after }
  | close (s : State ι) : Step s { s with done := true }
  /-- The drainer receives from `wake`. -/
  | woken (s : State ι) (hd : s.drainer = .waiting) (hwake : s.wake = true) :
      Step s { s with wake := false, drainer := .loading false }
  | ticked (s : State ι) (hd : s.drainer = .waiting) :
      Step s { s with drainer := .loading false }
  | closed (s : State ι) (hd : s.drainer = .waiting) (hdone : s.done = true) :
      Step s { s with drainer := .loading true }
  | loadSketch (s : State ι) (final : Bool) (hd : s.drainer = .loading final) :
      Step s { s with drainer := .loaded final s.sk }
  | loadDoorkeeper (s : State ι) (final : Bool) (sk : ℕ) (hd : s.drainer = .loaded final sk) :
      Step s { s with
        drainer := .lane ⟨sk, s.dk, agingFactor * (s.sketches.read sk).width, final⟩ 0 }
  /-- The copy of a stripe to scratch and its clearing, under the lock. -/
  | take (s : State ι) (pass : Pass) (i : ℕ) (buf : List UInt64) (hd : s.drainer = .lane pass i)
      (hbuf : s.buf.stripes[i]? = some buf) :
      Step s { s with buf := s.buf.clear i, drainer := .folding pass i buf }
  /-- The callback, on a first sighting. -/
  | first (s : State ι) (pass : Pass) (i : ℕ) (fp : UInt64) (rest : List UInt64)
      (hd : s.drainer = .folding pass i (fp :: rest))
      (hseen : ((s.doorkeepers.read pass.dk).putOrHas fp).1 = false) :
      Step s { s with
        doorkeepers :=
          s.doorkeepers.write pass.dk ((s.doorkeepers.read pass.dk).putOrHas fp).2
        drainer := .folding pass i rest
        folded := s.folded ++ [fp] }
  /-- The callback up to the increment of the sketch. -/
  | again (s : State ι) (pass : Pass) (i : ℕ) (fp : UInt64) (rest : List UInt64)
      (hd : s.drainer = .folding pass i (fp :: rest))
      (hseen : ((s.doorkeepers.read pass.dk).putOrHas fp).1 = true) :
      Step s { s with
        sketches := s.sketches.write pass.sk ((s.sketches.read pass.sk).increment fp)
        doorkeepers :=
          s.doorkeepers.write pass.dk ((s.doorkeepers.read pass.dk).putOrHas fp).2
        drainer := .counted pass i rest
        folded := s.folded ++ [fp] }
  /-- The rest of the callback. -/
  | age (s : State ι) (pass : Pass) (i : ℕ) (rest : List UInt64)
      (hd : s.drainer = .counted pass i rest) :
      Step s { s with
        sketches :=
          s.sketches.write pass.sk ((s.frequency pass.sk pass.dk).age pass.agingN).sk
        doorkeepers :=
          s.doorkeepers.write pass.dk ((s.frequency pass.sk pass.dk).age pass.agingN).dk
        incrs := ((s.frequency pass.sk pass.dk).age pass.agingN).incrs
        drainer := .folding pass i rest }
  | next (s : State ι) (pass : Pass) (i : ℕ) (hd : s.drainer = .folding pass i []) :
      Step s { s with drainer := .lane pass (i + 1) }
  /-- Past the last stripe the pass is over, and after the final pass the drainer returns. -/
  | finish (s : State ι) (pass : Pass) (i : ℕ) (hd : s.drainer = .lane pass i)
      (hend : s.buf.stripes.length ≤ i) :
      Step s { s with drainer := if pass.final then .exited else .waiting }

/-- Source: none
Kind: D -/
def Reachable (s₀ s : State ι) : Prop := Relation.ReflTransGen Step s₀ s

/-- The invariant rule.
Source: none
Kind: L -/
theorem Reachable.invariant {I : State ι → Prop} (hstep : ∀ s s', I s → Step s s' → I s')
    {s₀ s : State ι} (h₀ : I s₀) (hreach : Reachable s₀ s) : I s := by
  induction hreach with
  | refl => exact h₀
  | tail _ hs ih => exact hstep _ _ ih hs

/-- The mask and the depth of the buffer never change.
Source: `internal/tinylfu/buffer.go` `accessBuffer`
Kind: L -/
theorem Step.shape {s s' : State ι} (hstep : Step s s') :
    s'.buf.mask = s.buf.mask ∧ s'.buf.depth = s.buf.depth := by
  have hpush : ∀ {fp : UInt64} {full : Bool} {buf : AccessBuffer},
      s.buf.push fp = .ok (full, buf) → buf.mask = s.buf.mask ∧ buf.depth = s.buf.depth := by
    intro fp full buf h
    rcases AccessBuffer.push_spec h with ⟨-, -, rfl⟩ | ⟨_, -, -, -, -, rfl⟩
    · exact ⟨rfl, rfl⟩
    · exact ⟨rfl, rfl⟩
  cases hstep with
  | push r fp buf hr h => exact hpush h
  | fill r fp buf hr h => exact hpush h
  | _ => exact ⟨rfl, rfl⟩

/-- Mask and depth of the buffer never change.
Source: `internal/tinylfu/buffer.go` `accessBuffer`
Kind: L -/
theorem Reachable.shape {s₀ s : State ι} (hreach : Reachable s₀ s) :
    s.buf.mask = s₀.buf.mask ∧ s.buf.depth = s₀.buf.depth :=
  hreach.invariant (I := fun s => s.buf.mask = s₀.buf.mask ∧ s.buf.depth = s₀.buf.depth)
    (fun _ _ h hs => ⟨hs.shape.1.trans h.1, hs.shape.2.trans h.2⟩) ⟨rfl, rfl⟩

/-! ### What the drainer holds -/

namespace Drainer

/-- The sketch that the pass works on, once it is loaded.
Source: none
Kind: D -/
def sketch? : Drainer → Option ℕ
  | .loaded _ sk => some sk
  | .lane pass _ | .folding pass _ _ | .counted pass _ _ => some pass.sk
  | _ => none

/-- Source: none
Kind: D -/
def pass? : Drainer → Option Pass
  | .lane pass _ | .folding pass _ _ | .counted pass _ _ => some pass
  | _ => none

/-- A pass holds its sketch.
Source: none
Kind: L -/
theorem sketch?_of_pass? {d : Drainer} {pass : Pass} (h : d.pass? = some pass) :
    d.sketch? = some pass.sk := by
  cases d with
  | lane p i =>
      cases h
      rfl
  | folding p i scratch =>
      cases h
      rfl
  | counted p i scratch =>
      cases h
      rfl
  | _ => cases h

/-- Copied to scratch and not folded yet.
Source: none
Kind: D -/
def scratch : Drainer → List UInt64
  | .folding _ _ scratch | .counted _ _ scratch => scratch
  | _ => []

/-- The part of the scratch copy that came from stripe `i`.
Source: none
Kind: D -/
def scratchOf (i : ℕ) : Drainer → List UInt64
  | .folding _ j scratch | .counted _ j scratch => if j = i then scratch else []
  | _ => []

/-- A fold has taken the fingerprints of its own stripe only.
Source: none
Kind: L -/
theorem scratchOf_folding (pass : Pass) (i j : ℕ) (l : List UInt64) :
    (folding pass j l).scratchOf i = if j = i then l else [] := rfl

/-- Inside a pass that has not yet emptied stripe `i`.
Source: none
Kind: D -/
def Due (i : ℕ) : Drainer → Prop
  | .loading _ | .loaded _ _ => True
  | .lane _ j => j ≤ i
  | .folding _ j _ | .counted _ j _ => j < i
  | .waiting | .exited => False

end Drainer

end CacheMoney.Tinylfu
