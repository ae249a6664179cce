import CacheMoney.Found.Locking
import CacheMoney.Shardmap.Sample

/-!
# The map under concurrent calls

`internal/shardmap/map.go`, `internal/shardmap/sample.go` with their locks. Every shard has a
`sync.RWMutex`; a method is a sequence of critical sections, one shard each: one section for `Get`,
`Set`, `Swap` and `Delete`, one per shard for `Len` and `Range`, one per draw for `Sample`. Inside
a section the table is read and written step by step while the other goroutines go on.

* `Visit`: a critical section, and `Visit.onTable` what it does to the table of its shard.
* `Implementation`: any way to split those table functions into memory accesses. The results hold
  for each of them.
* `MapCall.prog`: the methods, as programs over sections; `MapCall.alone_*` says that a method
  called alone is the sequential one.
* `Map.Represents.visit`: a section, against the finite map (`shardSpec`).

`Range`'s callback is a function of the pairs it has been given so far; it must not call the map
back, as the source says.
-/

set_option linter.unusedSectionVars false

namespace CacheMoney.Shardmap

open CacheMoney.Found

variable {S K V : Type} [DecidableEq K] [Inhabited K] [Inhabited V]

/-! ### Critical sections -/

/-- A critical section of a method.
Source: `internal/shardmap/map.go` `Get`, `Set`, `Swap`, `Delete`, `Len`, `rangeShard`;
`internal/shardmap/sample.go` `sampleShard`
Kind: D -/
inductive Visit (K V : Type) where
  | get (key : K)
  | set (key : K) (value : V)
  | swap (key : K) (value : V)
  | delete (key : K)
  /-- `s.t.count` of shard `i`. -/
  | count (i : ℕ)
  /-- `rangeShard` of shard `i`, after the pairs `seen`. -/
  | walk (i : ℕ) (fn : List (K × V) → Bool) (seen : List (K × V))
  /-- `sampleShard` of shard `i`. -/
  | draw (i : ℕ) (rand : Tape UInt64)

/-- Source: `internal/shardmap/map.go` `Get`, `Set`, `Swap`, `Delete`, `Len`, `rangeShard`;
`internal/shardmap/sample.go` `sampleShard`
Kind: D -/
@[reducible] def Visit.Answer : Visit K V → Type
  | .get _ => Option V
  | .set _ _ => Unit
  | .swap _ _ => Option V
  | .delete _ => Option V
  | .count _ => ℕ
  | .walk _ _ _ => List (K × V) × Bool
  | .draw _ _ => Option (K × V) × Tape UInt64

/-- `RLock` rather than `Lock`.
Source: `internal/shardmap/map.go` `Get`, `Set`, `Swap`, `Delete`, `Len`, `rangeShard`;
`internal/shardmap/sample.go` `sampleShard`
Kind: D -/
def Visit.shared : Visit K V → Bool
  | .set _ _ => false
  | .swap _ _ => false
  | .delete _ => false
  | _ => true

/-- The shard a key is routed to.
Source: `internal/shardmap/map.go` `Get`, `Set`, `Swap`, `Delete`
Kind: D -/
def Map.shardOf (m : Map S K V) (key : K) : ℕ := shardIndex (m.hasher m.seed key) m.shardShift

/-- The shard of a section.
Source: `internal/shardmap/map.go` `Get`, `Set`, `Swap`, `Delete`, `Len`, `Range`;
`internal/shardmap/sample.go` `Sample`
Kind: D -/
def Visit.cell (m : Map S K V) : Visit K V → ℕ
  | .get key => m.shardOf key
  | .set key _ => m.shardOf key
  | .swap key _ => m.shardOf key
  | .delete key => m.shardOf key
  | .count i => i
  | .walk i _ _ => i
  | .draw i _ => i

/-- What is done to the table between the lock and the unlock.
Source: `internal/shardmap/map.go` `Get`, `Set`, `Swap`, `Delete`, `Len`, `rangeShard`;
`internal/shardmap/sample.go` `sampleShard`
Kind: D -/
def Visit.onTable (fuel : ℕ) (hf : K → UInt64) :
    (e : Visit K V) → Table K V → Outcome (e.Answer × Table K V)
  | .get key, t => do
      let v ← t.lookup fuel (hf key) key
      pure (v, t)
  | .set key value, t => do
      let t ← t.insert fuel (hf key) key value
      pure ((), t)
  | .swap key value, t => do
      let old ← t.lookup fuel (hf key) key
      let t ← t.insert fuel (hf key) key value
      pure (old, t)
  | .delete key, t => t.delete fuel (hf key) key
  | .count _, t => pure (t.count, t)
  | .walk _ fn seen, t => do
      let r ← rangeShard (fun l k v => (l ++ [(k, v)], fn (l ++ [(k, v)]))) t seen
      pure (r, t)
  | .draw _ rand, t => do
      let r ← sampleShard fuel t rand
      pure (r, t)

/-- A way to split the sections into accesses to the memory of a shard. Under the read lock nothing
is written.
Source: none
Kind: D -/
structure Implementation (fuel : ℕ) (hf : K → UInt64) {A : Type} {T : A → Type}
    (touch : (a : A) → Table K V → Outcome (T a × Table K V)) where
  code : (e : Visit K V) → Prog A T e.Answer
  readsOnly : ∀ e : Visit K V, e.shared = true → (code e).ReadsOnly touch
  run_iff : ∀ (e : Visit K V) (t : Table K V) (out : e.Answer × Table K V),
    (code e).run touch t = .ok out ↔ e.onTable fuel hf t = .ok out

/-! ### Methods -/

/-- A call of a method, with its random source if it has one.
Source: `internal/shardmap/map.go` `Get`, `Set`, `Swap`, `Delete`, `Len`, `Range`;
`internal/shardmap/sample.go` `Sample`
Kind: D -/
inductive MapCall (K V : Type) where
  | get (key : K)
  | set (key : K) (value : V)
  | swap (key : K) (value : V)
  | delete (key : K)
  | len
  | range (fn : List (K × V) → Bool)
  | sample (n : ℤ) (rand : Tape UInt64)

/-- What a call returned. For `Range` this is what the callback was given.
Source: `internal/shardmap/map.go` `Get`, `Set`, `Swap`, `Delete`, `Len`, `Range`;
`internal/shardmap/sample.go` `Sample`
Kind: D -/
inductive MapReply (K V : Type) where
  | value (old : Option V)
  | done
  | size (n : ℕ)
  | visited (seen : List (K × V))
  | sampled (out : List (K × V))

/-- Source: none
Kind: D -/
abbrev MapProg (K V : Type) := Prog (Visit K V) Visit.Answer (MapReply K V)

/-- The loop of `Len` from shard `i` on.
Source: `internal/shardmap/map.go` `Len`
Kind: D -/
def lenLoop : ℕ → ℕ → ℕ → MapProg K V
  | 0, _, n => .ret (.size n)
  | rounds + 1, i, n => .act (.count i) fun (c : ℕ) => lenLoop rounds (i + 1) (n + c)

/-- The loop of `Range` from shard `i` on.
Source: `internal/shardmap/map.go` `Range`
Kind: D -/
def walkLoop (fn : List (K × V) → Bool) : ℕ → ℕ → List (K × V) → MapProg K V
  | 0, _, seen => .ret (.visited seen)
  | rounds + 1, i, seen => .act (.walk i fn seen) fun (r : List (K × V) × Bool) =>
      if !r.2 then .ret (.visited r.1) else walkLoop fn rounds (i + 1) r.1

/-- The loop of `Sample` with its remaining budget.
Source: `internal/shardmap/sample.go` `Sample`
Kind: D -/
def drawLoop (numShards : ℕ) (n : ℤ) : ℕ → List (K × V) → Tape UInt64 → MapProg K V
  | 0, out, _ => .ret (.sampled out)
  | budget + 1, out, rand =>
      if (out.length : ℤ) < n then
        .act (.draw (rand.head.toNat &&& (numShards - 1)) rand.tail)
            fun (r : Option (K × V) × Tape UInt64) =>
          match r.1 with
          | none => drawLoop numShards n budget out r.2
          | some e =>
              if e.1 ∈ out.map Prod.fst then drawLoop numShards n budget out r.2
              else drawLoop numShards n budget (out ++ [e]) r.2
      else .ret (.sampled out)

/-- Source: `internal/shardmap/map.go` `Get`, `Set`, `Swap`, `Delete`, `Len`, `Range`;
`internal/shardmap/sample.go` `Sample`
Kind: D -/
def MapCall.prog (numShards : ℕ) : MapCall K V → MapProg K V
  | .get key => .act (.get key) fun v => .ret (.value v)
  | .set key value => .act (.set key value) fun _ => .ret .done
  | .swap key value => .act (.swap key value) fun old => .ret (.value old)
  | .delete key => .act (.delete key) fun v => .ret (.value v)
  | .len => lenLoop numShards 0 0
  | .range fn => walkLoop fn numShards 0 []
  | .sample n rand =>
      if n ≤ 0 then .ret (.sampled [])
      else drawLoop numShards n (n * sampleDrawFactor + sampleDrawFloor).toNat [] rand

/-! ### A method alone -/

/-- A section as one action on the shards.
Source: none
Kind: D -/
def Visit.exec (fuel : ℕ) (m : Map S K V) (e : Visit K V) (mem : List (Table K V)) :
    Outcome (e.Answer × List (Table K V)) := do
  let t ← index mem (e.cell m)
  let (r, t) ← e.onTable fuel m.hash t
  let mem ← store mem (e.cell m) t
  pure (r, mem)

/-- A critical section changes the table of its shard only.
Source: none
Kind: L -/
theorem Visit.exec_eq {fuel : ℕ} {m : Map S K V} {e : Visit K V} {mem : List (Table K V)}
    {t : Table K V} (ht : mem[e.cell m]? = some t) :
    e.exec fuel m mem =
      e.onTable fuel m.hash t >>= fun r => pure (r.1, mem.set (e.cell m) r.2) := by
  unfold Visit.exec
  rw [index_eq_ok_iff.mpr ht, ok_bind]
  simp only [store_eq_ok _ (List.getElem?_eq_some_iff.mp ht).1, ok_bind]

/-- Writing back what was read changes nothing.
Source: none
Kind: L -/
theorem set_of_getElem? {α : Type} {xs : List α} {i : ℕ} {a : α} (h : xs[i]? = some a) :
    xs.set i a = xs := by
  obtain ⟨hlt, rfl⟩ := List.getElem?_eq_some_iff.mp h
  exact List.set_getElem_self hlt

section alone

variable (fuel : ℕ) {m : Map S K V}

/-- The shard a key is routed to.
Source: `internal/shardmap/map.go` `Get`
Kind: L -/
theorem Map.Sound.shard (h : m.Sound) (key : K) : ∃ t, m.shards[m.shardOf key]? = some t :=
  ⟨_, List.getElem?_eq_getElem (h.shardIndex_lt (m.hasher m.seed key))⟩

/-- `Get` as critical sections, run alone, is `Get`.
Source: `internal/shardmap/map.go` `Get`
Kind: L -/
theorem MapCall.alone_get (h : m.Sound) (key : K) :
    ((MapCall.get key : MapCall K V).prog m.shards.length).run (Visit.exec fuel m) m.shards =
      m.get fuel key >>= fun v => pure (.value v, m.shards) := by
  obtain ⟨t, ht⟩ := h.shard key
  have hidx : index m.shards (shardIndex (m.hasher m.seed key) m.shardShift) = .ok t :=
    index_eq_ok_iff.mpr ht
  rw [MapCall.prog, Prog.run_act, Visit.exec_eq ht, Map.get, hidx, ok_bind]
  simp only [Visit.onTable, bind_assoc, pure_bind, Visit.cell, set_of_getElem? ht]
  rfl

/-- `Set` as critical sections, run alone, is `Set`.
Source: `internal/shardmap/map.go` `Set`
Kind: L -/
theorem MapCall.alone_set (h : m.Sound) (key : K) (value : V) :
    ((MapCall.set key value).prog m.shards.length).run (Visit.exec fuel m) m.shards =
      m.set fuel key value >>= fun m' => pure (.done, m'.shards) := by
  obtain ⟨t, ht⟩ := h.shard key
  have hlt := (List.getElem?_eq_some_iff.mp ht).1
  have hidx : index m.shards (shardIndex (m.hasher m.seed key) m.shardShift) = .ok t :=
    index_eq_ok_iff.mpr ht
  rw [MapCall.prog, Prog.run_act, Visit.exec_eq ht, Map.set, hidx, ok_bind]
  simp only [Visit.onTable, bind_assoc, pure_bind, Visit.cell]
  congr 1
  funext t'
  rw [show store m.shards (shardIndex (m.hasher m.seed key) m.shardShift) t' =
    .ok (m.shards.set (m.shardOf key) t') from store_eq_ok t' hlt]
  rfl

/-- `Swap` as critical sections, run alone, is `Swap`.
Source: `internal/shardmap/map.go` `Swap`
Kind: L -/
theorem MapCall.alone_swap (h : m.Sound) (key : K) (value : V) :
    ((MapCall.swap key value).prog m.shards.length).run (Visit.exec fuel m) m.shards =
      m.swap fuel key value >>= fun r => pure (.value r.1, r.2.shards) := by
  obtain ⟨t, ht⟩ := h.shard key
  have hlt := (List.getElem?_eq_some_iff.mp ht).1
  have hidx : index m.shards (shardIndex (m.hasher m.seed key) m.shardShift) = .ok t :=
    index_eq_ok_iff.mpr ht
  rw [MapCall.prog, Prog.run_act, Visit.exec_eq ht, Map.swap, hidx, ok_bind]
  simp only [Visit.onTable, bind_assoc, pure_bind, Visit.cell]
  congr 1
  funext old
  congr 1
  funext t'
  rw [show store m.shards (shardIndex (m.hasher m.seed key) m.shardShift) t' =
    .ok (m.shards.set (m.shardOf key) t') from store_eq_ok t' hlt]
  rfl

/-- `Delete` as critical sections, run alone, is `Delete`.
Source: `internal/shardmap/map.go` `Delete`
Kind: L -/
theorem MapCall.alone_delete (h : m.Sound) (key : K) :
    ((MapCall.delete key : MapCall K V).prog m.shards.length).run (Visit.exec fuel m) m.shards =
      m.delete fuel key >>= fun r => pure (.value r.1, r.2.shards) := by
  obtain ⟨t, ht⟩ := h.shard key
  have hlt := (List.getElem?_eq_some_iff.mp ht).1
  have hidx : index m.shards (shardIndex (m.hasher m.seed key) m.shardShift) = .ok t :=
    index_eq_ok_iff.mpr ht
  rw [MapCall.prog, Prog.run_act, Visit.exec_eq ht, Map.delete, hidx, ok_bind]
  simp only [Visit.onTable, bind_assoc, pure_bind, Visit.cell]
  congr 1
  funext r
  rw [show store m.shards (shardIndex (m.hasher m.seed key) m.shardShift) r.2 =
    .ok (m.shards.set (m.shardOf key) r.2) from store_eq_ok r.2 hlt]
  rfl

/-- `Len` as critical sections, run alone, is `Len`.
Source: `internal/shardmap/map.go` `Len`
Kind: L -/
theorem MapCall.alone_len :
    ((MapCall.len : MapCall K V).prog m.shards.length).run (Visit.exec fuel m) m.shards =
      .ok (.size m.len, m.shards) := by
  have hloop : ∀ (rounds i n : ℕ), i + rounds = m.shards.length →
      (lenLoop rounds i n : MapProg K V).run (Visit.exec fuel m) m.shards =
        .ok (.size ((m.shards.drop i).foldl (fun n s => n + s.count) n), m.shards) := by
    intro rounds
    induction rounds with
    | zero =>
        intro i n hi
        rw [List.drop_eq_nil_of_le (by omega)]
        rfl
    | succ rounds ih =>
        intro i n hi
        have hlt : i < m.shards.length := by omega
        have ht : m.shards[i]? = some m.shards[i] := List.getElem?_eq_getElem hlt
        rw [lenLoop, Prog.run_act, Visit.exec_eq (e := .count i) ht,
          List.drop_eq_getElem_cons hlt, List.foldl_cons]
        simp only [Visit.onTable, pure_bind, Visit.cell, set_of_getElem? ht]
        exact ih (i + 1) _ (by omega)
  have h0 := hloop m.shards.length 0 0 (Nat.zero_add _)
  rw [List.drop_zero] at h0
  exact h0

/-- `Range` as critical sections, run alone, is `Range`.
Source: `internal/shardmap/map.go` `Range`
Kind: L -/
theorem MapCall.alone_range (fn : List (K × V) → Bool) :
    ((MapCall.range fn).prog m.shards.length).run (Visit.exec fuel m) m.shards =
      m.range (fun l k v => (l ++ [(k, v)], fn (l ++ [(k, v)]))) [] >>= fun seen =>
        pure (.visited seen, m.shards) := by
  have hloop : ∀ (rounds i : ℕ) (seen : List (K × V)), i + rounds = m.shards.length →
      (walkLoop fn rounds i seen).run (Visit.exec fuel m) m.shards =
        rangeShards (fun l k v => (l ++ [(k, v)], fn (l ++ [(k, v)]))) (m.shards.drop i) seen >>=
          fun seen => pure (.visited seen, m.shards) := by
    intro rounds
    induction rounds with
    | zero =>
        intro i seen hi
        rw [List.drop_eq_nil_of_le (by omega)]
        rfl
    | succ rounds ih =>
        intro i seen hi
        have hlt : i < m.shards.length := by omega
        have ht : m.shards[i]? = some m.shards[i] := List.getElem?_eq_getElem hlt
        rw [walkLoop, Prog.run_act, Visit.exec_eq (e := .walk i fn seen) ht,
          List.drop_eq_getElem_cons hlt, rangeShards]
        simp only [Visit.onTable, bind_assoc, pure_bind, Visit.cell, set_of_getElem? ht]
        congr 1
        funext r
        split_ifs
        · rfl
        · exact ih (i + 1) r.1 (by omega)
  exact hloop m.shards.length 0 [] (Nat.zero_add _)

/-- `Sample` as critical sections, run alone, is `Sample`.
Source: `internal/shardmap/sample.go` `Sample`
Kind: L -/
theorem MapCall.alone_sample (h : m.Sound) (n : ℤ) (rand : Tape UInt64) :
    ((MapCall.sample n rand : MapCall K V).prog m.shards.length).run (Visit.exec fuel m) m.shards =
      m.sample fuel n rand >>= fun r => pure (.sampled r.1, m.shards) := by
  have hloop : ∀ (budget : ℕ) (out : List (K × V)) (rand : Tape UInt64),
      (drawLoop m.shards.length n budget out rand).run (Visit.exec fuel m) m.shards =
        m.sampleLoop fuel n budget out rand >>= fun r => pure (.sampled r.1, m.shards) := by
    intro budget
    induction budget with
    | zero => exact fun out rand => rfl
    | succ budget ih =>
        intro out rand
        obtain ⟨t, hidx, -⟩ := h.drawn_shard rand.head
        have ht := index_eq_ok_iff.mp hidx
        rw [drawLoop, Map.sampleLoop]
        split_ifs with hlen
        · rw [Prog.run_act, Visit.exec_eq (e := .draw _ rand.tail) ht, hidx, ok_bind]
          simp only [Visit.onTable, bind_assoc, pure_bind, Visit.cell, set_of_getElem? ht]
          congr 1
          funext r
          obtain ⟨e, rand'⟩ := r
          cases e with
          | none => exact ih out rand'
          | some e =>
              simp only
              split_ifs
              · exact ih out rand'
              · exact ih (out ++ [e]) rand'
        · rfl
  rw [MapCall.prog, Map.sample]
  split_ifs
  · rfl
  · exact hloop _ [] rand

end alone

/-! ### A section against the finite map -/

/-- The finite map after a section.
Source: none
Kind: D -/
def Visit.next (f : FinMap K V) : Visit K V → FinMap K V
  | .set key value => f.insert key value
  | .swap key value => f.insert key value
  | .delete key => f.erase key
  | _ => f

/-- What a walk over one shard gives the callback: entries of that shard, each key once; all of
them unless the callback stopped.
Source: `internal/shardmap/map.go` `rangeShard`
Kind: D -/
structure Walked (route : K → ℕ) (f : FinMap K V) (i : ℕ) (fn : List (K × V) → Bool)
    (seen : List (K × V)) (r : List (K × V) × Bool) : Prop where
  extends_seen : seen <+: r.1
  stored : ∀ e ∈ r.1.drop seen.length, route e.1 = i ∧ f.lookup e.1 = some e.2
  distinct : ((r.1.drop seen.length).map Prod.fst).Nodup
  all : r.2 = true → ∀ k v, f.lookup k = some v → route k = i → (k, v) ∈ r.1
  stopped : r.2 = false → r.1 ≠ [] ∧ fn r.1 = false

/-- The answers a section may have on the finite map.
Source: none
Kind: D -/
def Visit.Allows (route : K → ℕ) (f : FinMap K V) : (e : Visit K V) → e.Answer → Prop
  | .get key, r => r = f.lookup key
  | .set _ _, _ => True
  | .swap key _, r => r = f.lookup key
  | .delete key, r => r = f.lookup key
  | .count i, n => n = (f.keys.filter fun k => route k = i).card
  | .walk i fn seen, r => Walked route f i fn seen r
  | .draw i _, r => ∀ e, r.1 = some e → route e.1 = i ∧ f.lookup e.1 = some e.2

/-- The map as an abstract object.
Source: none
Kind: D -/
def shardSpec (route : K → ℕ) : Spec (Visit K V) Visit.Answer (FinMap K V) where
  next f e _ := e.next f
  allows f e r := e.Allows route f r

section visits

variable {m : Map S K V} {f : FinMap K V}

/-- A shard holds the entries that are routed to it.
Source: `internal/shardmap/map.go` `Map`
Kind: L -/
theorem Map.Represents.mem_shard (h : m.Represents f) {i : ℕ} {t : Table K V}
    (ht : m.shards[i]? = some t) {e : K × V} :
    e ∈ t.contents ↔ f.lookup e.1 = some e.2 ∧ m.shardOf e.1 = i := by
  rw [← mem_pairs, ← h.contents_eq, Map.contents, mem_sum_contents]
  constructor
  · intro he
    exact ⟨⟨t, List.mem_of_getElem? ht, he⟩,
      h.sound.routed i t ht e.1 (Multiset.mem_map_of_mem Prod.fst he)⟩
  · rintro ⟨⟨u, hu, he⟩, hroute⟩
    obtain ⟨j, hj⟩ := List.mem_iff_getElem?.mp hu
    have hij : m.shardOf e.1 = j :=
      h.sound.routed j u hj e.1 (Multiset.mem_map_of_mem Prod.fst he)
    rw [← hroute, hij, hj] at ht
    exact Option.some.inj ht ▸ he

/-- A shard counts the keys that are routed to it.
Source: `internal/shardmap/map.go` `Len`
Kind: L -/
theorem Map.Represents.count_shard (h : m.Represents f) {i : ℕ} {t : Table K V}
    (ht : m.shards[i]? = some t) : t.count = (f.keys.filter fun k => m.shardOf k = i).card := by
  have hsound := h.sound.tables t (List.mem_of_getElem? ht)
  have hkeys : t.keys = (f.keys.filter fun k => m.shardOf k = i).val := by
    apply (hsound.nodup.ext (Finset.nodup _)).mpr
    intro k
    rw [Table.keys, Multiset.mem_map, Finset.mem_val, Finset.mem_filter, Finmap.mem_keys]
    constructor
    · rintro ⟨e, he, rfl⟩
      obtain ⟨hlook, hroute⟩ := (h.mem_shard ht).mp he
      exact ⟨Finmap.mem_of_lookup_eq_some hlook, hroute⟩
    · rintro ⟨hmem, hroute⟩
      obtain ⟨v, hv⟩ := Finmap.mem_iff.mp hmem
      exact ⟨(k, v), (h.mem_shard ht).mpr ⟨hv, hroute⟩, rfl⟩
  rw [hsound.count_eq, ← Finset.card_val, ← hkeys, Table.keys, Multiset.card_map]

/-- The slot loop gives the callback the occupied slots in order, up to where it stops.
Source: `internal/shardmap/map.go` `rangeShard`
Kind: L -/
theorem rangeLoop_recorded (fn : List (K × V) → Bool) (t : Table K V) (rounds : ℕ) :
    ∀ (i : ℕ) (seen : List (K × V)), i + rounds = t.slots.length →
      ∃ l more, rangeLoop (fun l k v => (l ++ [(k, v)], fn (l ++ [(k, v)]))) t rounds i seen =
          .ok (seen ++ l, more) ∧ l <+: occupiedPairs (t.slots.drop i) ∧
        (more = true → l = occupiedPairs (t.slots.drop i)) ∧
        (more = false → seen ++ l ≠ [] ∧ fn (seen ++ l) = false) := by
  induction rounds with
  | zero =>
      intro i seen hi
      refine ⟨[], true, ?_, List.nil_prefix, ?_, by simp⟩
      · rw [rangeLoop, List.append_nil]
        rfl
      · intro _
        rw [List.drop_eq_nil_of_le (by omega)]
        rfl
  | succ rounds ih =>
      intro i seen hi
      have hlt : i < t.slots.length := by omega
      rw [rangeLoop, index_eq_ok hlt, ok_bind, List.drop_eq_getElem_cons hlt]
      by_cases hz : t.slots[i].metadata = 0
      · rw [if_pos hz, occupiedPairs_cons_of_empty hz]
        exact ih (i + 1) seen (by omega)
      · rw [if_neg hz, occupiedPairs_cons_of_occupied hz]
        split_ifs with hstop
        · refine ⟨[(t.slots[i].key, t.slots[i].val)], false, rfl, ?_, by simp, ?_⟩
          · exact List.prefix_append [_] _
          · exact fun _ => ⟨by simp, by simpa using hstop⟩
        · obtain ⟨l, more, hrun, hpre, hall, hend⟩ :=
            ih (i + 1) (seen ++ [(t.slots[i].key, t.slots[i].val)]) (by omega)
          refine ⟨(t.slots[i].key, t.slots[i].val) :: l, more, ?_, ?_, ?_, ?_⟩
          · rw [hrun, List.append_assoc]
            rfl
          · exact List.cons_prefix_cons.mpr ⟨rfl, hpre⟩
          · exact fun hm => by rw [hall hm]
          · intro hm
            have hf := hend hm
            rwa [List.append_assoc] at hf

/-- The walk of a shard visits its entries, until it is told to stop.
Source: `internal/shardmap/map.go` `rangeShard`
Kind: L -/
theorem Map.Represents.walked (h : m.Represents f) {i : ℕ} {t : Table K V}
    (ht : m.shards[i]? = some t) (fn : List (K × V) → Bool) (seen : List (K × V)) :
    ∃ r, rangeShard (fun l k v => (l ++ [(k, v)], fn (l ++ [(k, v)]))) t seen = .ok r ∧
      Walked m.shardOf f i fn seen r := by
  have hsound := h.sound.tables t (List.mem_of_getElem? ht)
  have hcap : 0 + (t.capm1 + 1) = t.slots.length := by
    have h8 := hsound.eight_le_cap
    rw [hsound.capm1_eq]
    unfold Table.cap at *
    omega
  obtain ⟨l, more, hrun, hpre, hall, hend⟩ := rangeLoop_recorded fn t _ 0 seen hcap
  rw [List.drop_zero] at hpre hall
  have hmem : ∀ e, e ∈ occupiedPairs t.slots ↔ e ∈ t.contents := by
    intro e
    rw [← Multiset.mem_coe, coe_occupiedPairs]
    rfl
  refine ⟨(seen ++ l, more), hrun, ?_, ?_, ?_, ?_, hend⟩
  · exact List.prefix_append seen l
  · intro e he
    rw [List.drop_left] at he
    exact ((h.mem_shard ht).mp ((hmem e).mp (hpre.subset he))).symm
  · rw [List.drop_left]
    have hnodup : ((occupiedPairs t.slots).map Prod.fst).Nodup := by
      rw [← Multiset.coe_nodup, ← Multiset.map_coe, coe_occupiedPairs]
      exact hsound.nodup
    exact hnodup.sublist (hpre.sublist.map Prod.fst)
  · intro hm k v hlook hroute
    apply List.mem_append_right
    rw [hall hm, hmem]
    exact (h.mem_shard ht).mpr ⟨hlook, hroute⟩

/-- A section does to the finite map what it should and answers as it should.
Source: `internal/shardmap/map.go` `Get`, `Set`, `Swap`, `Delete`, `Len`, `rangeShard`;
`internal/shardmap/sample.go` `sampleShard`
Kind: P -/
theorem Map.Represents.visit (h : m.Represents f) {fuel : ℕ} {e : Visit K V} {t t' : Table K V}
    {r : e.Answer} (ht : m.shards[e.cell m]? = some t)
    (hrun : e.onTable fuel m.hash t = .ok (r, t')) :
    e.Allows m.shardOf f r ∧
      ({ m with shards := m.shards.set (e.cell m) t' } : Map S K V).Represents (e.next f) := by
  have hlt := (List.getElem?_eq_some_iff.mp ht).1
  have hidx := index_eq_ok_iff.mpr ht
  cases e with
  | get key =>
      obtain ⟨v, hv, hret⟩ := bind_eq_ok_iff.mp hrun
      obtain ⟨rfl, rfl⟩ := Prod.mk.inj (Except.ok.inj hret)
      rw [set_of_getElem? ht]
      refine ⟨(h.get fuel key).of_ok ?_, h⟩
      exact bind_eq_ok_iff.mpr ⟨t, hidx, hv⟩
  | set key value =>
      obtain ⟨t'', hins, hret⟩ := bind_eq_ok_iff.mp hrun
      obtain ⟨rfl, rfl⟩ := Prod.mk.inj (Except.ok.inj hret)
      refine ⟨trivial, (h.set fuel key value).of_ok ?_⟩
      exact bind_eq_ok_iff.mpr ⟨t, hidx, bind_eq_ok_iff.mpr ⟨t'', hins,
        bind_eq_ok_iff.mpr ⟨_, store_eq_ok t'' hlt, rfl⟩⟩⟩
  | swap key value =>
      obtain ⟨old, hold, hret⟩ := bind_eq_ok_iff.mp hrun
      obtain ⟨t'', hins, hret⟩ := bind_eq_ok_iff.mp hret
      obtain ⟨rfl, rfl⟩ := Prod.mk.inj (Except.ok.inj hret)
      refine (h.swap fuel key value).of_ok (a := (old, _)) ?_
      exact bind_eq_ok_iff.mpr ⟨t, hidx, bind_eq_ok_iff.mpr ⟨old, hold, bind_eq_ok_iff.mpr
        ⟨t'', hins, bind_eq_ok_iff.mpr ⟨_, store_eq_ok t'' hlt, rfl⟩⟩⟩⟩
  | delete key =>
      refine (h.delete fuel key).of_ok (a := (r, _)) ?_
      exact bind_eq_ok_iff.mpr ⟨t, hidx, bind_eq_ok_iff.mpr ⟨(r, t'), hrun,
        bind_eq_ok_iff.mpr ⟨_, store_eq_ok t' hlt, rfl⟩⟩⟩
  | count i =>
      obtain ⟨rfl, rfl⟩ := Prod.mk.inj (Except.ok.inj hrun)
      rw [set_of_getElem? ht]
      exact ⟨h.count_shard ht, h⟩
  | walk i fn seen =>
      obtain ⟨r', hr', hret⟩ := bind_eq_ok_iff.mp hrun
      obtain ⟨rfl, rfl⟩ := Prod.mk.inj (Except.ok.inj hret)
      rw [set_of_getElem? ht]
      obtain ⟨r'', hr'', hwalked⟩ := h.walked ht fn seen
      obtain rfl := Except.ok.inj (hr'.symm.trans hr'')
      exact ⟨hwalked, h⟩
  | draw i rand =>
      obtain ⟨r', hr', hret⟩ := bind_eq_ok_iff.mp hrun
      obtain ⟨rfl, rfl⟩ := Prod.mk.inj (Except.ok.inj hret)
      rw [set_of_getElem? ht]
      refine ⟨fun e he => ?_, h⟩
      have hsound := h.sound.tables t (List.mem_of_getElem? ht)
      have hin := (hsound.sampleShard fuel rand).of_ok hr' e he
      exact ((h.mem_shard ht).mp hin).symm

/-- A section never panics.
Source: `internal/shardmap/map.go` `Get`, `Set`, `Swap`, `Delete`, `Len`, `rangeShard`;
`internal/shardmap/sample.go` `sampleShard`
Kind: L -/
theorem Map.Represents.onTable_ensures (h : m.Represents f) (fuel : ℕ) {e : Visit K V}
    {t : Table K V} (ht : m.shards[e.cell m]? = some t) :
    Ensures (e.onTable fuel m.hash t) fun _ => True := by
  have hsound := h.sound.tables t (List.mem_of_getElem? ht)
  cases e with
  | get key => exact (Table.lookup_correct hsound.toArranged fuel key).bind fun _ _ => trivial
  | set key value => exact (hsound.insert fuel key value).bind fun _ _ => trivial
  | swap key value =>
      refine (Table.lookup_correct hsound.toArranged fuel key).bind fun _ _ => ?_
      exact (hsound.insert fuel key value).bind fun _ _ => trivial
  | delete key => exact (hsound.delete fuel key).mono fun _ _ => trivial
  | count i => trivial
  | walk i fn seen =>
      obtain ⟨r, hr, -⟩ := h.walked ht fn seen
      rw [Visit.onTable, hr]
      trivial
  | draw i rand => exact (hsound.sampleShard fuel rand).bind fun _ _ => trivial

end visits

/-! ### The coarsest implementation -/

/-- Accesses to a shard as a whole.
Source: none
Kind: D -/
inductive Whole (K V : Type) where
  | load
  | save (t : Table K V)

/-- Source: none
Kind: D -/
@[reducible] def Whole.Answer : Whole K V → Type
  | .load => Table K V
  | .save _ => Unit

/-- Source: none
Kind: D -/
def Whole.touch : (a : Whole K V) → Table K V → Outcome (a.Answer × Table K V)
  | .load, t => .ok (t, t)
  | .save t', _ => .ok ((), t')

/-- Under the read lock the table stays as it is.
Source: `internal/shardmap/map.go` `Get`, `Len`, `rangeShard`; `internal/shardmap/sample.go`
`sampleShard`
Kind: L -/
theorem Visit.onTable_shared {fuel : ℕ} {hf : K → UInt64} {e : Visit K V} (he : e.shared = true)
    {t t' : Table K V} {r : e.Answer} (h : e.onTable fuel hf t = .ok (r, t')) : t' = t := by
  cases e with
  | get key =>
      obtain ⟨v, -, h⟩ := bind_eq_ok_iff.mp h
      exact (Prod.mk.inj (Except.ok.inj h)).2.symm
  | set key value => cases he
  | swap key value => cases he
  | delete key => cases he
  | count i => exact (Prod.mk.inj (Except.ok.inj h)).2.symm
  | walk i fn seen =>
      obtain ⟨v, -, h⟩ := bind_eq_ok_iff.mp h
      exact (Prod.mk.inj (Except.ok.inj h)).2.symm
  | draw i rand =>
      obtain ⟨v, -, h⟩ := bind_eq_ok_iff.mp h
      exact (Prod.mk.inj (Except.ok.inj h)).2.symm

/-- The end of a section, with its result computed.
Source: none
Kind: D -/
def Visit.conclude (e : Visit K V) :
    Outcome (e.Answer × Table K V) → Prog (Whole K V) Whole.Answer e.Answer
  | .ok (r, t) => if e.shared = true then .ret r else .act (.save t) fun _ => .ret r
  | .error _ => .stop

/-- Load the table, compute, and under the write lock save it. Without the locks two of these could
lose an update.
Source: none
Kind: D -/
def wholesale (fuel : ℕ) (hf : K → UInt64) :
    Implementation fuel hf (Whole.touch : (a : Whole K V) → _) where
  code e := .act .load fun (t : Table K V) => e.conclude (e.onTable fuel hf t)
  readsOnly := by
    intro e he
    refine ⟨fun t r t' h => (Prod.mk.inj (Except.ok.inj h)).2.symm, fun t => ?_⟩
    change (e.conclude (e.onTable fuel hf t)).ReadsOnly Whole.touch
    cases e.onTable fuel hf t with
    | ok out => simp [Visit.conclude, he, Prog.ReadsOnly]
    | error x => trivial
  run_iff := by
    intro e t out
    change (e.conclude (e.onTable fuel hf t)).run Whole.touch t = _ ↔ _
    cases hrun : e.onTable fuel hf t with
    | error x => simp [Visit.conclude, Prog.run]
    | ok r =>
        obtain ⟨r, t'⟩ := r
        by_cases he : e.shared = true
        · obtain rfl := Visit.onTable_shared he hrun
          simp [Visit.conclude, he, Prog.run]
        · simp [Visit.conclude, he, Prog.run, Whole.touch]

end CacheMoney.Shardmap
