import CacheMoney.Tinylfu.Sketch

/-!
# The access buffer

A fingerprint selects one of the stripes by its low bits; a stripe holds at most `depth` of them and
drops what does not fit. `push` and `clear` are the critical sections of a reader and of the drainer.

* `push_spec`: the two ways a push returns.
* `count_clear`, `count_put`: what the critical sections do to the contents as a bag.
-/

namespace CacheMoney.Tinylfu

open CacheMoney.Found

/-! ### The buffer -/

/-- Source: `internal/tinylfu/buffer.go` `accessBuffer`
Kind: D -/
structure AccessBuffer where
  stripes : List (List UInt64)
  mask : UInt64
  depth : ℕ

/-- Source: `internal/tinylfu/buffer.go` `newAccessBuffer`
Kind: D -/
def newAccessBuffer (stripes depth : Int64) : AccessBuffer :=
  let count := nextPow2 stripes.toUInt64
  let depth := if depth < 1 then 1 else depth
  ⟨List.replicate count.toNat [], count - 1, depth.toNatClampNeg⟩

namespace AccessBuffer

/-- The stripe of a fingerprint.
Source: `internal/tinylfu/buffer.go` `accessBuffer.push`
Kind: D -/
def stripeOf (b : AccessBuffer) (fp : UInt64) : ℕ := (fp &&& b.mask).toNat

/-- The critical section of a push whose `TryLock` succeeds. It answers whether the push filled the
stripe.
Source: `internal/tinylfu/buffer.go` `accessBuffer.push`
Kind: D -/
def push (b : AccessBuffer) (fp : UInt64) : Outcome (Bool × AccessBuffer) := do
  let buf ← index b.stripes (b.stripeOf fp)
  if buf.length ≥ b.depth then
    pure (false, b)
  else
    let buf := buf ++ [fp]
    let stripes ← store b.stripes (b.stripeOf fp) buf
    let full := decide (buf.length ≥ b.depth)
    pure (full, { b with stripes := stripes })

/-- The push appends the fingerprint.
Source: `internal/tinylfu/buffer.go` `accessBuffer.push`
Kind: D -/
def accepts (b : AccessBuffer) (fp : UInt64) : Bool :=
  match b.stripes[b.stripeOf fp]? with
  | some buf => decide (buf.length < b.depth)
  | none => false

/-- The drainer's critical section on one stripe, after the copy.
Source: `internal/tinylfu/buffer.go` `accessBuffer.drainInto`
Kind: D -/
def clear (b : AccessBuffer) (i : ℕ) : AccessBuffer := { b with stripes := b.stripes.set i [] }

/-- The stripe of `fp` with the fingerprint appended.
Source: none
Kind: D -/
def put (b : AccessBuffer) (fp : UInt64) (lane : List UInt64) : AccessBuffer :=
  { b with stripes := b.stripes.set (b.stripeOf fp) (lane ++ [fp]) }

/-- A push is dropped by a full stripe, or it appends to one that has room.
Source: `internal/tinylfu/buffer.go` `accessBuffer.push`
Kind: L -/
theorem push_spec {b b' : AccessBuffer} {fp : UInt64} {full : Bool}
    (h : b.push fp = .ok (full, b')) :
    (b.accepts fp = false ∧ full = false ∧ b' = b) ∨
      ∃ lane, b.stripes[b.stripeOf fp]? = some lane ∧ lane.length < b.depth ∧
        b.accepts fp = true ∧ full = decide (lane.length + 1 ≥ b.depth) ∧ b' = b.put fp lane := by
  unfold push at h
  obtain ⟨lane, hlane, h⟩ := bind_eq_ok_iff.mp h
  rw [index_eq_ok_iff] at hlane
  unfold accepts
  rw [hlane]
  split_ifs at h with hfull
  · cases h
    exact Or.inl ⟨decide_eq_false (Nat.not_lt.mpr hfull), rfl, rfl⟩
  · obtain ⟨stripes, hstore, h⟩ := bind_eq_ok_iff.mp h
    have hlt : b.stripeOf fp < b.stripes.length := (List.getElem?_eq_some_iff.mp hlane).1
    rw [store_eq_ok _ hlt] at hstore
    cases hstore
    cases h
    refine Or.inr ⟨lane, rfl, Nat.not_le.mp hfull, decide_eq_true (Nat.not_le.mp hfull), ?_, rfl⟩
    rw [List.length_append]
    rfl

/-! ### The contents as a bag -/

/-- Replacing one stripe changes the counts by the difference.
Source: none
Kind: L -/
theorem count_flatten_set {xs : List (List UInt64)} {i : ℕ} {a : List UInt64}
    (h : xs[i]? = some a) (b : List UInt64) (x : UInt64) :
    (xs.set i b).flatten.count x + a.count x = xs.flatten.count x + b.count x := by
  obtain ⟨l, r, hxs, -, hset⟩ := exists_split_of_getElem? h
  rw [hset, hxs]
  simp only [List.flatten_append, List.flatten_cons, List.count_append]
  omega

/-- Putting a fingerprint into its stripe adds it once.
Source: `internal/tinylfu/buffer.go` `accessBuffer.push`
Kind: L -/
theorem count_put {b : AccessBuffer} {fp : UInt64} {lane : List UInt64}
    (h : b.stripes[b.stripeOf fp]? = some lane) (x : UInt64) :
    (b.put fp lane).stripes.flatten.count x = b.stripes.flatten.count x + [fp].count x := by
  have hset := count_flatten_set h (lane ++ [fp]) x
  rw [List.count_append] at hset
  change (b.stripes.set _ _).flatten.count x = _
  omega

/-- Clearing a stripe takes its fingerprints off.
Source: `internal/tinylfu/buffer.go` `accessBuffer.drainInto`
Kind: L -/
theorem count_clear {b : AccessBuffer} {i : ℕ} {lane : List UInt64}
    (h : b.stripes[i]? = some lane) (x : UInt64) :
    (b.clear i).stripes.flatten.count x + lane.count x = b.stripes.flatten.count x := by
  have hset := count_flatten_set h [] x
  rw [List.count_nil] at hset
  exact hset

/-- A stripe after one of them is replaced.
Source: none
Kind: L -/
theorem getElem?_set_cases {xs : List (List UInt64)} {i j : ℕ} {a b : List UInt64}
    (h : (xs.set i b)[j]? = some a) : (j = i ∧ a = b) ∨ (j ≠ i ∧ xs[j]? = some a) := by
  rw [List.getElem?_set] at h
  split_ifs at h with hij hlt
  · cases h
    exact Or.inl ⟨hij.symm, rfl⟩
  · exact Or.inr ⟨Ne.symm hij, h⟩

/-- Stripes have room for at least one fingerprint.
Source: `internal/tinylfu/buffer.go` `newAccessBuffer`
Kind: L -/
theorem newAccessBuffer_depth_pos (stripes depth : Int64) :
    0 < (newAccessBuffer stripes depth).depth := by
  unfold newAccessBuffer
  dsimp only
  split_ifs with hdepth
  · decide
  · rw [Int64.lt_iff_toInt_lt] at hdepth
    have hone : (1 : Int64).toInt = 1 := rfl
    unfold Int64.toNatClampNeg
    omega

/-- The stripes of a new buffer are empty.
Source: `internal/tinylfu/buffer.go` `newAccessBuffer`
Kind: L -/
theorem eq_nil_of_newAccessBuffer {stripes depth : Int64} {i : ℕ} {lane : List UInt64}
    (h : (newAccessBuffer stripes depth).stripes[i]? = some lane) : lane = [] :=
  List.eq_of_mem_replicate (List.mem_of_getElem? h)

end AccessBuffer

end CacheMoney.Tinylfu
