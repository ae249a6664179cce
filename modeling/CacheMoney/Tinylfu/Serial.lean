import CacheMoney.Tinylfu.Drainer

/-!
# The serial reading of the drainer

The steps of the drainer are interleaved with the readers, and a callback is two of them. Without a
`Resize` this makes no difference to the frequencies: they are `Frequency.drainOnce` of the
fingerprints handed to the callback, so what is proved of the serial pipeline holds of every run.
-/

namespace CacheMoney.Tinylfu

open CacheMoney.Found

variable {ι : Type} [DecidableEq ι]

/-- A run without a `Resize`: no step stores to the published pointers.
Source: none
Kind: D -/
def Undisturbed (s₀ s : State ι) : Prop :=
  Relation.ReflTransGen (fun s s' => Step s s' ∧ s'.sk = s.sk ∧ s'.dk = s.dk) s₀ s

/-- The frequencies once the callback in progress has returned.
Source: none
Kind: D -/
def Drainer.settled (f : Frequency) : Drainer → Frequency
  | .counted pass _ _ => f.age pass.agingN
  | _ => f

/-- After counting, what is left of a sighting is the aging.
Source: none
Kind: L -/
theorem Drainer.settled_counted (f : Frequency) (pass : Pass) (i : ℕ) (l : List UInt64) :
    (counted pass i l).settled f = f.age pass.agingN := rfl

/-- Between sightings nothing is left to do.
Source: none
Kind: L -/
theorem Drainer.settled_folding (f : Frequency) (pass : Pass) (i : ℕ) (l : List UInt64) :
    (folding pass i l).settled f = f := rfl

/-- There is one sketch and one doorkeeper, and what the drainer has made of them is the fold of the
fingerprints it was handed.
Source: none
Kind: D -/
structure Serial (f : Frequency) (sketches : Arena Sketch) (doorkeepers : Arena Doorkeeper)
    (incrs : ℕ) (d : Drainer) (folded : List UInt64) : Prop where
  used : sketches.used = 1 ∧ doorkeepers.used = 1
  held : ∀ p, d.sketch? = some p → p = 0
  pass : ∀ pass, d.pass? = some pass → pass.dk = 0 ∧ pass.agingN = agingFactor * f.sk.width
  width : (sketches.read 0).width = f.sk.width
  settled : d.settled ⟨sketches.read 0, doorkeepers.read 0, incrs⟩ = f.drainOnce folded

section steps

variable {f : Frequency} {sketches : Arena Sketch} {doorkeepers : Arena Doorkeeper} {incrs : ℕ}
  {d : Drainer} {folded : List UInt64}

/-- A step of the drainer that touches no estimate.
Source: none
Kind: L -/
theorem Serial.move (h : Serial f sketches doorkeepers incrs d folded) {d' : Drainer}
    (hheld : ∀ p, d'.sketch? = some p → p = 0)
    (hpass : ∀ pass, d'.pass? = some pass → pass.dk = 0 ∧ pass.agingN = agingFactor * f.sk.width)
    (hsettled : ∀ g, d'.settled g = d.settled g) :
    Serial f sketches doorkeepers incrs d' folded := by
  refine ⟨h.used, hheld, hpass, h.width, ?_⟩
  rw [hsettled]
  exact h.settled

/-- One fingerprint more is one sighting more.
Source: `internal/tinylfu/policy.go` `Policy.drainOnce`
Kind: L -/
theorem Frequency.drainOnce_append (f : Frequency) (fps : List UInt64) (fp : UInt64) :
    f.drainOnce (fps ++ [fp]) = (f.drainOnce fps).sight (agingFactor * f.sk.width) fp := by
  unfold drainOnce
  rw [List.foldl_append]
  rfl

/-- Both pointers of a pass are the first.
Source: none
Kind: L -/
theorem Serial.pointers (h : Serial f sketches doorkeepers incrs d folded) (pass : Pass)
    (hpass : d.pass? = some pass) : pass.sk = 0 ∧ pass.dk = 0 :=
  ⟨h.held _ (Drainer.sketch?_of_pass? hpass), (h.pass pass hpass).1⟩

/-- The sighting of a fingerprint that the doorkeeper has not seen.
Source: none
Kind: L -/
theorem Serial.first {pass : Pass} {i : ℕ} {fp : UInt64} {rest : List UInt64}
    (h : Serial f sketches doorkeepers incrs (.folding pass i (fp :: rest)) folded)
    (hseen : ((doorkeepers.read pass.dk).putOrHas fp).1 = false) :
    Serial f sketches
      (doorkeepers.write pass.dk ((doorkeepers.read pass.dk).putOrHas fp).2) incrs
      (.folding pass i rest) (folded ++ [fp]) := by
  obtain ⟨-, hdk⟩ := h.pointers pass rfl
  have hsettled := h.settled
  rw [Drainer.settled_folding] at hsettled
  rw [hdk] at hseen ⊢
  refine ⟨h.used, h.held, h.pass, h.width, ?_⟩
  rw [Drainer.settled_folding, Arena.read_write_self, f.drainOnce_append, ← hsettled,
    Frequency.sight_of_not_seen hseen]

/-- The sighting of a fingerprint that the doorkeeper has seen.
Source: none
Kind: L -/
theorem Serial.again {pass : Pass} {i : ℕ} {fp : UInt64} {rest : List UInt64}
    (h : Serial f sketches doorkeepers incrs (.folding pass i (fp :: rest)) folded)
    (hseen : ((doorkeepers.read pass.dk).putOrHas fp).1 = true) :
    Serial f (sketches.write pass.sk ((sketches.read pass.sk).increment fp))
      (doorkeepers.write pass.dk ((doorkeepers.read pass.dk).putOrHas fp).2) incrs
      (.counted pass i rest) (folded ++ [fp]) := by
  obtain ⟨hsk, hdk⟩ := h.pointers pass rfl
  have hsettled := h.settled
  rw [Drainer.settled_folding] at hsettled
  rw [hdk] at hseen ⊢
  rw [hsk]
  refine ⟨h.used, h.held, h.pass, ?_, ?_⟩
  · rw [Arena.read_write_self, Sketch.width_increment]
    exact h.width
  · rw [Drainer.settled_counted, Arena.read_write_self, Arena.read_write_self, f.drainOnce_append,
      ← hsettled, (h.pass pass rfl).2, Frequency.sight_of_seen hseen]

/-- The end of a sighting: the estimates are aged if that is due.
Source: none
Kind: L -/
theorem Serial.age {pass : Pass} {i : ℕ} {rest : List UInt64}
    (h : Serial f sketches doorkeepers incrs (.counted pass i rest) folded) {g : Frequency}
    (hg : g = ⟨sketches.read pass.sk, doorkeepers.read pass.dk, incrs⟩) :
    Serial f (sketches.write pass.sk (g.age pass.agingN).sk)
      (doorkeepers.write pass.dk (g.age pass.agingN).dk) (g.age pass.agingN).incrs
      (.folding pass i rest) folded := by
  obtain ⟨hsk, hdk⟩ := h.pointers pass rfl
  rw [hsk, hdk] at hg ⊢
  have hsettled := h.settled
  rw [Drainer.settled_counted, ← hg] at hsettled
  refine ⟨h.used, h.held, h.pass, ?_, ?_⟩
  · rw [Arena.read_write_self]
    refine (Frequency.wd_age ..).trans ?_
    rw [hg]
    exact h.width
  · rw [Drainer.settled_folding, Arena.read_write_self, Arena.read_write_self]
    exact hsettled

end steps

/-- One step of an undisturbed run.
Source: `internal/tinylfu/policy.go` `Policy`
Kind: L -/
theorem Serial.step {f : Frequency} {s s' : State ι}
    (h : Serial f s.sketches s.doorkeepers s.incrs s.drainer s.folded) (hsk : s.sk = 0)
    (hdk : s.dk = 0) (hstep : Step s s') (hsk' : s'.sk = s.sk) (hdk' : s'.dk = s.dk) :
    Serial f s'.sketches s'.doorkeepers s'.incrs s'.drainer s'.folded := by
  cases hstep with
  | resizeSketch cfg sk hnew =>
      -- The new sketch would have the pointer of the old one.
      have hused : s.sketches.used = s.sk := hsk'
      rw [h.used.1, hsk] at hused
      cases hused
  | resizeDoorkeeper before after cfg hcfg =>
      have hused : s.doorkeepers.used = s.dk := hdk'
      rw [h.used.2, hdk] at hused
      cases hused
  | first pass i fp rest hd hseen =>
      rw [hd] at h
      exact h.first hseen
  | again pass i fp rest hd hseen =>
      rw [hd] at h
      exact h.again hseen
  | age pass i rest hd =>
      rw [hd] at h
      exact h.age rfl
  | woken hd hwake =>
      rw [hd] at h
      exact h.move nofun nofun fun _ => rfl
  | ticked hd =>
      rw [hd] at h
      exact h.move nofun nofun fun _ => rfl
  | closed hd hdone =>
      rw [hd] at h
      exact h.move nofun nofun fun _ => rfl
  | loadSketch final hd =>
      rw [hd] at h
      refine h.move (fun p hp => ?_) nofun fun _ => rfl
      cases hp
      exact hsk
  | loadDoorkeeper final sk hd =>
      rw [hd] at h
      have hzero : sk = 0 := h.held sk rfl
      refine h.move h.held (fun pass hpass => ?_) fun _ => rfl
      cases hpass
      refine ⟨hdk, ?_⟩
      change agingFactor * (s.sketches.read sk).width = _
      rw [hzero, h.width]
  | take pass i buf hd hbuf =>
      rw [hd] at h
      exact h.move h.held h.pass fun _ => rfl
  | next pass i hd =>
      rw [hd] at h
      exact h.move h.held h.pass fun _ => rfl
  | finish pass i hd hend =>
      rw [hd] at h
      cases hfinal : pass.final with
      | true => exact h.move nofun nofun fun _ => rfl
      | false => exact h.move nofun nofun fun _ => rfl
  | record => exact h
  | contended => exact h
  | push => exact h
  | fill => exact h
  | send => exact h
  | setActive => exact h
  | close => exact h

/-- In every run without a `Resize`, the frequencies are those of one serial pass over the
fingerprints handed to the callback.
Source: `internal/tinylfu/policy.go` `Policy.drainOnce`
Kind: P -/
theorem drained_serially {buf : AccessBuffer} {f : Frequency} {s : State ι}
    (hrun : Undisturbed (start buf f) s) :
    s.drainer.settled (s.frequency s.sk s.dk) = f.drainOnce s.folded := by
  have h : s.sk = 0 ∧ s.dk = 0 ∧
      Serial f s.sketches s.doorkeepers s.incrs s.drainer s.folded := by
    induction hrun with
    | refl => exact ⟨rfl, rfl, ⟨rfl, rfl⟩, nofun, nofun, rfl, rfl⟩
    | tail _ hstep ih =>
        obtain ⟨hsk, hdk, hserial⟩ := ih
        exact ⟨hstep.2.1.trans hsk, hstep.2.2.trans hdk,
          hserial.step hsk hdk hstep.1 hstep.2.1 hstep.2.2⟩
  obtain ⟨hsk, hdk, hserial⟩ := h
  rw [hsk, hdk]
  exact hserial.settled

end CacheMoney.Tinylfu
