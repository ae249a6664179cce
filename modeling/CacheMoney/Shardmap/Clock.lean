import CacheMoney.Found.Fuel
import CacheMoney.Shardmap.Draws

/-!
# The fuel clock of the map

The loops of the table run on a fuel clock. A call that returned returns the same with more fuel, so
the clock is not part of what a call does.

* `Table.writes_grow`: `set`, its loop, `grow` and `resize`, which call each other.
* `Map.get_grows`, `Map.swap_grows`, `Map.delete_grows`, `Map.sample_grows`.
* `Map.swap_hash`, `Map.delete_hash`: the writes keep the hash of the map.
-/

set_option linter.unusedSectionVars false

namespace CacheMoney.Shardmap

open CacheMoney.Found

variable {S K V : Type} [DecidableEq K] [Inhabited K] [Inhabited V]

/-! ### Tables -/

/-- The four mutual loops of the writes give the same result with more fuel.
Source: `internal/shardmap/table.go` `set`, `grow`, `resize`
Kind: L -/
theorem Table.writes_grow (fuel : ℕ) :
    (∀ (t : Table K V) hash key value,
      Approx (Table.set fuel t hash key value) (Table.set (fuel + 1) t hash key value)) ∧
    (∀ (t : Table K V) c, Approx (Table.setLoop fuel t c) (Table.setLoop (fuel + 1) t c)) ∧
    (∀ t : Table K V, Approx (Table.grow fuel t) (Table.grow (fuel + 1) t)) ∧
    ∀ (t : Table K V) newCap,
      Approx (Table.resize fuel t newCap) (Table.resize (fuel + 1) t newCap) := by
  induction fuel with
  | zero => exact ⟨fun _ _ _ _ => nofun, fun _ _ => nofun, fun _ => nofun, fun _ _ => nofun⟩
  | succ fuel ih =>
      obtain ⟨hset, hloop, hgrow, hresize⟩ := ih
      refine ⟨fun t hash key value => ?_, fun t c => ?_, fun t => ?_, fun t newCap => ?_⟩
      · rw [Table.set, Table.set]
        exact hloop _ _
      · rw [Table.setLoop, Table.setLoop]
        refine approx_ite ?_ (approx_bind _ fun s => ?_)
        · exact (hgrow t).bind fun t => hset t _ _ _
        refine approx_ite (Approx.refl _) (approx_ite (Approx.refl _) (approx_ite ?_ ?_))
        · exact approx_bind _ fun slots => hloop _ _
        · exact hloop _ _
      · rw [Table.grow, Table.grow]
        exact hresize _ _
      · rw [Table.resize, Table.resize]
        refine Approx.foldlM (fun t s => ?_) _ _
        exact approx_ite (hset t _ _ _) (Approx.refl _)

/-- An insertion gives the same result with more fuel.
Source: `internal/shardmap/table.go` `insert`
Kind: L -/
theorem Table.insert_grows (t : Table K V) (hash : UInt64) (key : K) (value : V) :
    Grows fun fuel => t.insert fuel hash key value := by
  intro fuel
  obtain ⟨hset, -, hgrow, -⟩ := Table.writes_grow (K := K) (V := V) fuel
  refine approx_ite ((hgrow t).bind fun t => hset t _ _ _) ?_
  exact approx_bind _ fun t => hset t _ _ _

/-- A probe gives the same result with more fuel.
Source: `internal/shardmap/table.go` `lookup`
Kind: L -/
theorem Table.probe_grows (t : Table K V) (frag : UInt16) (key : K) (fuel : ℕ) :
    ∀ i dib, Approx (t.probe frag key fuel i dib) (t.probe frag key (fuel + 1) i dib) := by
  induction fuel with
  | zero => exact fun _ _ => nofun
  | succ fuel ih =>
      intro i dib
      rw [Table.probe, Table.probe]
      refine approx_bind _ fun s => ?_
      refine approx_ite (Approx.refl _) (approx_ite (Approx.refl _) (approx_ite (Approx.refl _) ?_))
      exact ih _ _

/-- A lookup gives the same result with more fuel.
Source: `internal/shardmap/table.go` `lookup`
Kind: L -/
theorem Table.lookup_grows (t : Table K V) (hash : UInt64) (key : K) :
    Grows fun fuel => t.lookup fuel hash key :=
  fun fuel => (t.probe_grows _ key fuel _ _).bind fun _ => Approx.refl _

/-- Shifting back gives the same result with more fuel.
Source: `internal/shardmap/table.go` `delete`
Kind: L -/
theorem Table.shiftBack_grows (fuel : ℕ) : ∀ (t : Table K V) i j,
    Approx (Table.shiftBack fuel t i j) (Table.shiftBack (fuel + 1) t i j) := by
  induction fuel with
  | zero => exact fun _ _ _ => nofun
  | succ fuel ih =>
      intro t i j
      rw [Table.shiftBack, Table.shiftBack]
      refine approx_bind _ fun s => approx_ite ?_ (Approx.refl _)
      exact approx_bind _ fun slots => ih _ _ _

/-- Shrinking gives the same result with more fuel.
Source: `internal/shardmap/table.go` `shrink`
Kind: L -/
theorem Table.shrink_grows (t : Table K V) : Grows fun fuel => Table.shrink fuel t := by
  intro fuel
  refine approx_ite (Approx.refl _) (approx_ite (Approx.refl _) ?_)
  exact (Table.writes_grow fuel).2.2.2 t _

/-- A deletion gives the same result with more fuel.
Source: `internal/shardmap/table.go` `delete`
Kind: L -/
theorem Table.delete_grows (t : Table K V) (hash : UInt64) (key : K) :
    Grows fun fuel => t.delete fuel hash key := by
  intro fuel
  refine (t.probe_grows _ key fuel _ _).bind fun found => ?_
  cases found with
  | none => exact Approx.refl _
  | some i =>
      refine approx_bind _ fun removed => (Table.shiftBack_grows fuel t i _).bind fun r => ?_
      refine approx_bind _ fun slots => ?_
      exact (Table.shrink_grows _ fuel).bind fun _ => Approx.refl _

/-- The forward scan gives the same result with more fuel.
Source: `internal/shardmap/sample.go` `sampleSlot`
Kind: L -/
theorem Table.scanSlot_grows (t : Table K V) (fuel : ℕ) :
    ∀ start, Approx (t.scanSlot fuel start) (t.scanSlot (fuel + 1) start) := by
  induction fuel with
  | zero => exact fun _ => nofun
  | succ fuel ih =>
      intro start
      rw [Table.scanSlot, Table.scanSlot]
      exact approx_bind _ fun s => approx_ite (Approx.refl _) (ih _)

/-- Sampling a shard gives the same result with more fuel.
Source: `internal/shardmap/sample.go` `sampleShard`
Kind: L -/
theorem sampleShard_grows (t : Table K V) (rand : Tape UInt64) :
    Grows fun fuel => sampleShard fuel t rand := by
  intro fuel
  refine approx_ite (Approx.refl _) (Approx.bind (approx_bind _ fun r => ?_) fun _ => Approx.refl _)
  obtain ⟨hit, rand⟩ := r
  cases hit with
  | some i => exact Approx.refl _
  | none => exact (t.scanSlot_grows fuel _).bind fun _ => Approx.refl _

/-! ### Maps -/

variable (m : Map S K V)

/-- `Get` gives the same result with more fuel.
Source: `internal/shardmap/map.go` `Get`
Kind: L -/
theorem Map.get_grows (key : K) : Grows fun fuel => m.get fuel key :=
  fun fuel => approx_bind _ fun t => t.lookup_grows _ key fuel

/-- `Swap` gives the same result with more fuel.
Source: `internal/shardmap/map.go` `Swap`
Kind: L -/
theorem Map.swap_grows (key : K) (value : V) : Grows fun fuel => m.swap fuel key value := by
  intro fuel
  refine approx_bind _ fun t => (t.lookup_grows _ key fuel).bind fun old => ?_
  exact (t.insert_grows _ key value fuel).bind fun _ => Approx.refl _

/-- `Delete` gives the same result with more fuel.
Source: `internal/shardmap/map.go` `Delete`
Kind: L -/
theorem Map.delete_grows (key : K) : Grows fun fuel => m.delete fuel key := by
  intro fuel
  refine approx_bind _ fun t => ?_
  exact (t.delete_grows _ key fuel).bind fun _ => Approx.refl _

/-- The draw loop gives the same result with more fuel.
Source: `internal/shardmap/sample.go` `Sample`
Kind: L -/
theorem Map.sampleLoop_grows (n : ℤ) (fuel budget : ℕ) : ∀ out rand,
    Approx (m.sampleLoop fuel n budget out rand) (m.sampleLoop (fuel + 1) n budget out rand) := by
  induction budget with
  | zero => exact fun _ _ => Approx.refl _
  | succ budget ih =>
      intro out rand
      rw [Map.sampleLoop, Map.sampleLoop]
      refine approx_ite (approx_bind _ fun t => ?_) (Approx.refl _)
      refine (sampleShard_grows t _ fuel).bind fun r => ?_
      obtain ⟨e, rand⟩ := r
      cases e with
      | none => exact ih _ _
      | some e => exact approx_ite (ih _ _) (ih _ _)

/-- `Sample` gives the same result with more fuel.
Source: `internal/shardmap/sample.go` `Sample`
Kind: L -/
theorem Map.sample_grows (n : ℤ) (rand : Tape UInt64) : Grows fun fuel => m.sample fuel n rand :=
  fun fuel => approx_ite (Approx.refl _) (m.sampleLoop_grows n fuel _ _ _)

/-! ### The hash -/

variable {m} {fuel : ℕ} {key : K}

/-- `Swap` keeps the hash of the map.
Source: `internal/shardmap/map.go` `Swap`
Kind: L -/
theorem Map.swap_hash {value : V} {r : Option V × Map S K V}
    (h : m.swap fuel key value = .ok r) : r.2.hash = m.hash := by
  obtain ⟨t, -, h⟩ := bind_eq_ok_iff.mp h
  obtain ⟨old, -, h⟩ := bind_eq_ok_iff.mp h
  obtain ⟨t', -, h⟩ := bind_eq_ok_iff.mp h
  obtain ⟨shards, -, h⟩ := bind_eq_ok_iff.mp h
  cases h
  rfl

/-- `Delete` keeps the hash of the map.
Source: `internal/shardmap/map.go` `Delete`
Kind: L -/
theorem Map.delete_hash {r : Option V × Map S K V} (h : m.delete fuel key = .ok r) :
    r.2.hash = m.hash := by
  obtain ⟨t, -, h⟩ := bind_eq_ok_iff.mp h
  obtain ⟨⟨removed, t'⟩, -, h⟩ := bind_eq_ok_iff.mp h
  obtain ⟨shards, -, h⟩ := bind_eq_ok_iff.mp h
  cases h
  rfl

end CacheMoney.Shardmap
