import CacheMoney.Shardmap.Locks

/-!
# Histories of the map

Any number of goroutines call the methods of one map; inside and outside the shard locks their
steps come in any order. The history of such a run lists the calls, the critical sections in the
order of their unlocks, and the returns.

* `Map.Represents.history`: the sections of every history are a run of the finite map.
* `pointCall_linearizes`: `Get`, `Set`, `Swap` and `Delete` are linearizable.
* `lockedMap_progresses`: the locks never deadlock.
-/

set_option linter.unusedSectionVars false

namespace CacheMoney.Shardmap

open CacheMoney.Found

variable {S K V : Type} [DecidableEq K] [Inhabited K] [Inhabited V]

/-! ### Histories -/

section histories

variable {m : Map S K V} {f : FinMap K V} {fuel : ℕ} {A : Type} {T : A → Type}
  {touch : (a : A) → Table K V → Outcome (T a × Table K V)} {ι : Type} [DecidableEq ι]

/-- The sections of the map's methods.
Source: `internal/shardmap/map.go` `Get`, `Set`, `Swap`, `Delete`, `Len`, `rangeShard`;
`internal/shardmap/sample.go` `sampleShard`
Kind: D -/
def Implementation.plan (impl : Implementation fuel m.hash touch) (e : Visit K V) :
    Section touch e.Answer where
  cell := e.cell m
  shared := e.shared
  code := impl.code e
  readsOnly := impl.readsOnly e

/-- A goroutine calls any method, with any arguments.
Source: `internal/shardmap/map.go` `Get`, `Set`, `Swap`, `Delete`, `Len`, `Range`;
`internal/shardmap/sample.go` `Sample`
Kind: D -/
def Map.Calls (m : Map S K V) (p : MapProg K V) : Prop :=
  ∃ c : MapCall K V, p = c.prog m.shards.length

/-- Source: none
Kind: D -/
abbrev MapEvent (ι K V : Type) := Event ι (Visit K V) Visit.Answer (MapReply K V)

/-- The shard of a critical section does not depend on what the shards hold.
Source: none
Kind: L -/
theorem Visit.cell_with (e : Visit K V) (mem : List (Table K V)) :
    e.cell ({ m with shards := mem } : Map S K V) = e.cell m := by
  cases e <;> rfl

/-- A critical section performs what its implementation does to the table of its shard.
Source: none
Kind: L -/
theorem Implementation.perform_iff (impl : Implementation fuel m.hash touch) {e : Visit K V}
    {mem mem' : List (Table K V)} {r : e.Answer} :
    (impl.plan e).perform mem = .ok (r, mem') ↔ ∃ t t', mem[e.cell m]? = some t ∧
      e.onTable fuel m.hash t = .ok (r, t') ∧ mem' = mem.set (e.cell m) t' := by
  constructor
  · intro h
    obtain ⟨t, ht, h⟩ := bind_eq_ok_iff.mp h
    obtain ⟨⟨r', t'⟩, hrun, h⟩ := bind_eq_ok_iff.mp h
    obtain ⟨mem'', hstore, h⟩ := bind_eq_ok_iff.mp h
    obtain ⟨rfl, rfl⟩ := Prod.mk.inj (Except.ok.inj h)
    have hget := index_eq_ok_iff.mp ht
    rw [store_eq_ok _ (List.getElem?_eq_some_iff.mp hget).1] at hstore
    exact ⟨t, t', hget, (impl.run_iff e t _).mp hrun, (Except.ok.inj hstore).symm⟩
  · rintro ⟨t, t', ht, hrun, rfl⟩
    exact Section.perform_eq_ok ht ((impl.run_iff e t _).mpr hrun)

/-- Every run of the locked map has an atomic run with the same history, which is a run of the
finite map.
Source: `internal/shardmap/map.go` `Map`
Kind: P -/
theorem Map.Represents.history (h : m.Represents f) (impl : Implementation fuel m.hash touch)
    {log : List (MapEvent ι K V)} {s : Locked ι (Visit K V) Visit.Answer A T (MapReply K V) _}
    (htrace : Locked.Trace impl.plan m.Calls (Locked.idle m.shards) log s) :
    ∃ a, Pool.Trace (fun e => (impl.plan e).perform) m.Calls ⟨m.shards, fun _ => none⟩ log a ∧
      s.Simulates impl.plan a ∧ (shardSpec m.shardOf).Legal f log ∧
      ({ m with shards := a.world } : Map S K V).Represents
        ((shardSpec m.shardOf).after f log) := by
  obtain ⟨a, hatomic, hsim⟩ := htrace.atomic
  refine ⟨a, hatomic, hsim, ?_⟩
  refine hatomic.legal (fun mem g => ({ m with shards := mem } : Map S K V).Represents g) ?_ h
  intro e mem g r mem' hmem hperform
  obtain ⟨t, t', ht, hrun, rfl⟩ := impl.perform_iff.mp hperform
  have hvisit := hmem.visit (e := e) (r := r) (by rw [Visit.cell_with]; exact ht) hrun
  rw [Visit.cell_with] at hvisit
  exact hvisit

/-! ### One section: `Get`, `Set`, `Swap`, `Delete` -/

/-- The methods with one section.
Source: `internal/shardmap/map.go` `Get`, `Set`, `Swap`, `Delete`
Kind: D -/
def MapCall.pointwise : MapCall K V → Bool
  | .get _ => true
  | .set _ _ => true
  | .swap _ _ => true
  | .delete _ => true
  | _ => false

/-- What such a call does to a finite map, in one step.
Source: `internal/shardmap/map.go` `Get`, `Set`, `Swap`, `Delete`
Kind: D -/
def MapCall.TakesEffect (f : FinMap K V) : MapCall K V → MapReply K V → FinMap K V → Prop
  | .get key, a, g => a = .value (f.lookup key) ∧ g = f
  | .set key value, a, g => a = .done ∧ g = f.insert key value
  | .swap key value, a, g => a = .value (f.lookup key) ∧ g = f.insert key value
  | .delete key, a, g => a = .value (f.lookup key) ∧ g = f.erase key
  | _, _, _ => False

/-- The section of such a call.
Source: `internal/shardmap/map.go` `Get`, `Set`, `Swap`, `Delete`
Kind: L -/
theorem MapCall.prog_of_pointwise {c : MapCall K V} (hc : c.pointwise = true) (numShards : ℕ) :
    ∃ (e : Visit K V) (reply : e.Answer → MapReply K V),
      c.prog numShards = .act e (fun r => .ret (reply r)) ∧
      ∀ (route : K → ℕ) (g : FinMap K V) (r : e.Answer), e.Allows route g r →
        c.TakesEffect g (reply r) (e.next g) := by
  cases c with
  | get key => exact ⟨.get key, _, rfl, fun route g r hr => ⟨congrArg _ hr, rfl⟩⟩
  | set key value => exact ⟨.set key value, _, rfl, fun route g r hr => ⟨rfl, rfl⟩⟩
  | swap key value => exact ⟨.swap key value, _, rfl, fun route g r hr => ⟨congrArg _ hr, rfl⟩⟩
  | delete key => exact ⟨.delete key, _, rfl, fun route g r hr => ⟨congrArg _ hr, rfl⟩⟩
  | len => cases hc
  | range fn => cases hc
  | sample n rand => cases hc

/-- `Get`, `Set`, `Swap` and `Delete` are linearizable. However the goroutines interleave inside and
outside the locks, a call takes effect on the finite map at one event between its call and its
return, and at no other.
Source: `internal/shardmap/map.go` `Get`, `Set`, `Swap`, `Delete`
Kind: P
Fidelity: exact -/
theorem pointCall_linearizes (h : m.Represents f) (impl : Implementation fuel m.hash touch)
    {s : Locked ι (Visit K V) Visit.Answer A T (MapReply K V) (Table K V)} {i : ι}
    {c : MapCall K V} (hc : c.pointwise = true) {a : MapReply K V}
    {pre post : List (MapEvent ι K V)}
    (htrace : Locked.Trace impl.plan m.Calls (Locked.idle m.shards)
      (pre ++ .called i (c.prog m.shards.length) :: post ++ [.returned i a]) s)
    (hrun : ∀ a, .returned i a ∉ post) :
    ∃ before ev after, post = before ++ ev :: after ∧ ev.client = i ∧
      (∀ ev' ∈ before ++ after, ev'.client ≠ i) ∧
      c.TakesEffect ((shardSpec m.shardOf).after f (pre ++ before)) a
        ((shardSpec m.shardOf).after f (pre ++ before ++ [ev])) := by
  obtain ⟨w, hatomic, -, hlegal, -⟩ := h.history impl htrace
  obtain ⟨e, reply, hprog, heffect⟩ := MapCall.prog_of_pointwise hc m.shards.length
  -- Before its section the client has done nothing; after it, only the return is left.
  let J : List (MapEvent ι K V) → MapProg K V → Prop := fun log p =>
    (p = .act e (fun r => .ret (reply r)) ∧ ∀ ev ∈ log, ev.client ≠ i) ∨
      ∃ before ev after b, log = before ++ ev :: after ∧ ev.client = i ∧
        (∀ ev' ∈ before ++ after, ev'.client ≠ i) ∧ p = .ret b ∧
        c.TakesEffect ((shardSpec m.shardOf).after f (pre ++ before)) b
          ((shardSpec m.shardOf).after f (pre ++ before ++ [ev]))
  have hJ : J post (.ret a) := by
    refine Pool.Trace.watch_call J ?_ ?_ ?_ hatomic hlegal hrun
    · exact Or.inl ⟨hprog, by simp⟩
    · rintro log e' next r (⟨hact, hquiet⟩ | ⟨before, ev, after, b, -, -, -, hret, -⟩) hallows
      · cases hact
        refine Or.inr ⟨log, .done i e r, [], reply r, rfl, rfl, by simpa using hquiet, rfl, ?_⟩
        rw [← Spec.after_append] at hallows
        rw [Spec.after_snoc]
        exact heffect m.shardOf _ r hallows
      · cases hret
    · rintro log p ev (⟨rfl, hquiet⟩ | ⟨before, ev', after, b, rfl, hev', hquiet, rfl, heff⟩) hev -
      · refine Or.inl ⟨rfl, ?_⟩
        intro ev' hev'
        rcases List.mem_append.mp hev' with hev' | hev'
        · exact hquiet ev' hev'
        · rw [List.mem_singleton.mp hev']
          exact hev
      · refine Or.inr ⟨before, ev', after ++ [ev], b, by simp, hev', ?_, rfl, heff⟩
        intro ev'' hev''
        rw [← List.append_assoc, List.mem_append] at hev''
        rcases hev'' with hev'' | hev''
        · exact hquiet ev'' hev''
        · rw [List.mem_singleton.mp hev'']
          exact hev
  rcases hJ with ⟨hact, -⟩ | ⟨before, ev, after, b, hpost, hev, hquiet, hret, heff⟩
  · cases hact
  · cases hret
    exact ⟨before, ev, after, hpost, hev, hquiet, heff⟩

/-- Two shards, one for each key.
Source: none
Kind: D -/
def twoShards : Map Unit Bool ℕ :=
  Map.new ⟨1, ()⟩ (fun _ k => if k then 0x8000000000000000 else 0) [.withShards 2]

/-- The map of two shards is empty.
Source: none
Kind: L -/
theorem represents_twoShards : twoShards.Represents ∅ :=
  represents_new _ _ _ (by decide) (by simp)

/-- Goroutine `false` reads the key `true` while goroutine `true` wants to swap it: the writer has
announced itself and waits for the reader inside. The reader leaves, then the writer gets in, and
both return.
Source: `internal/shardmap/map.go` `Get`, `Swap`
Kind: L -/
theorem swap_waits_for_get :
    ∃ s₁ s₂ : Locked Bool (Visit Bool ℕ) Visit.Answer (Whole Bool ℕ) Whole.Answer
        (MapReply Bool ℕ) _,
      Locked.Trace (wholesale 256 twoShards.hash).plan twoShards.Calls
        (Locked.idle twoShards.shards)
        [.called false ((MapCall.get true).prog twoShards.shards.length),
          .called true ((MapCall.swap true 7).prog twoShards.shards.length)] s₁ ∧
      (∃ next rest, s₁.clients false = some (.inside (.get true) next rest)) ∧
      (∃ next, s₁.clients true = some (.announced (.swap true 7) next)) ∧
      Locked.Trace (wholesale 256 twoShards.hash).plan twoShards.Calls
        (Locked.idle twoShards.shards)
        ([.called false ((MapCall.get true).prog twoShards.shards.length)] ++
          .called true ((MapCall.swap true 7).prog twoShards.shards.length) ::
            [.done false (.get true) none, .done true (.swap true 7) none,
              .returned false (.value none)] ++ [.returned true (.value none)]) s₂ := by
  have hidle : Locked.Trace (wholesale 256 twoShards.hash).plan twoShards.Calls
    (Locked.idle twoShards.shards) ([] : List (MapEvent Bool Bool ℕ)) _ := .nil
  have hwaits := (((hidle.snoc
    (.called _ false _ rfl ⟨.get true, rfl⟩)).snoc
    (.rlock _ false (.get true) _ rfl rfl (by decide) rfl)).snoc
    (.called _ true _ rfl ⟨.swap true 7, rfl⟩)).snoc
    (.announce _ true (.swap true 7) _ rfl rfl (by decide) rfl)
  have hreturns := (((((((hwaits.snoc
    (.touch _ false (.get true) _ .load _ _ _ _ rfl rfl rfl)).snoc
    (.runlock _ false (.get true) _ none rfl rfl)).snoc
    (.lock _ true (.swap true 7) _ rfl rfl)).snoc
    (.touch _ true (.swap true 7) _ .load _ _ _ _ rfl rfl rfl)).snoc
    (.touch _ true (.swap true 7) _ (.save _) _ _ _ _ rfl rfl rfl)).snoc
    (.unlock _ true (.swap true 7) _ none rfl rfl)).snoc
    (.returned _ false (.value none) rfl)).snoc
    (.returned _ true (.value none) rfl)
  exact ⟨_, _, hwaits, ⟨_, _, rfl⟩, ⟨_, rfl⟩, hreturns⟩

/-- The swap that waited takes effect once, between its call and its return, while the read it
waited for ends.
Source: `internal/shardmap/map.go` `Get`, `Swap`
Kind: C -/
theorem pointCall_linearizes_waiting :
    ∃ s : Locked Bool (Visit Bool ℕ) Visit.Answer (Whole Bool ℕ) Whole.Answer (MapReply Bool ℕ) _,
      Locked.Trace (wholesale 256 twoShards.hash).plan twoShards.Calls
        (Locked.idle twoShards.shards)
        ([.called false ((MapCall.get true).prog twoShards.shards.length)] ++
          .called true ((MapCall.swap true 7).prog twoShards.shards.length) ::
            [.done false (.get true) none, .done true (.swap true 7) none,
              .returned false (.value none)] ++ [.returned true (.value none)]) s ∧
      ∃ before ev after,
        ([.done false (.get true) none, .done true (.swap true 7) none,
          .returned false (.value none)] : List (MapEvent Bool Bool ℕ)) = before ++ ev :: after ∧
        ev.client = true ∧ (∀ ev' ∈ before ++ after, ev'.client ≠ true) ∧
        (MapCall.swap true 7).TakesEffect
          ((shardSpec twoShards.shardOf).after ∅
            ([.called false ((MapCall.get true).prog twoShards.shards.length)] ++ before))
          (.value none)
          ((shardSpec twoShards.shardOf).after ∅
            ([.called false ((MapCall.get true).prog twoShards.shards.length)] ++ before ++
              [ev])) := by
  obtain ⟨-, s, -, -, -, htrace⟩ := swap_waits_for_get
  exact ⟨s, htrace, pointCall_linearizes represents_twoShards _ rfl htrace (by simp)⟩

/-! ### No deadlock -/

/-- The number of shards is fixed by the shift.
Source: `internal/shardmap/map.go` `New`
Kind: L -/
theorem Map.Sound.length_eq (h : m.Sound) : m.shards.length = 2 ^ (64 - m.shardShift) := by
  obtain ⟨p, hp, hlen, hshift⟩ := h.shards_pow
  rw [hlen, hshift, show 64 - (64 - p) = p by omega]

/-- The sections of the methods are inside the shard array.
Source: `internal/shardmap/map.go` `shardIndex`, `Len`, `Range`; `internal/shardmap/sample.go`
`Sample`
Kind: L -/
theorem Map.Sound.calls_end (h : m.Sound) {p : MapProg K V} (hp : m.Calls p) :
    p.Ends fun e => e.cell m < m.shards.length := by
  obtain ⟨c, rfl⟩ := hp
  have hpoint : ∀ key, m.shardOf key < m.shards.length := fun key => h.shardIndex_lt _
  have hlen : ∀ rounds i n, i + rounds = m.shards.length →
      (lenLoop rounds i n : MapProg K V).Ends fun e => e.cell m < m.shards.length := by
    intro rounds
    induction rounds with
    | zero => exact fun i n hi => trivial
    | succ rounds ih =>
        intro i n hi
        exact ⟨show i < m.shards.length by omega, fun c => ih (i + 1) _ (by omega)⟩
  have hwalk : ∀ fn rounds i seen, i + rounds = m.shards.length →
      (walkLoop fn rounds i seen).Ends fun e => e.cell m < m.shards.length := by
    intro fn rounds
    induction rounds with
    | zero => exact fun i n hi => trivial
    | succ rounds ih =>
        intro i seen hi
        refine ⟨show i < m.shards.length by omega, fun r => ?_⟩
        simp only
        split_ifs
        · trivial
        · exact ih (i + 1) r.1 (by omega)
  have hdraw : ∀ n budget out rand,
      (drawLoop m.shards.length n budget out rand : MapProg K V).Ends
        fun e => e.cell m < m.shards.length := by
    intro n budget
    induction budget with
    | zero => exact fun out rand => trivial
    | succ budget ih =>
        intro out rand
        rw [drawLoop]
        split_ifs
        · obtain ⟨t, hidx, -⟩ := h.drawn_shard rand.head
          refine ⟨(List.getElem?_eq_some_iff.mp (index_eq_ok_iff.mp hidx)).1, fun r => ?_⟩
          obtain ⟨e, rand'⟩ := r
          cases e with
          | none => exact ih out rand'
          | some e =>
              simp only
              split_ifs
              · exact ih out rand'
              · exact ih (out ++ [e]) rand'
        · trivial
  cases c with
  | get key => exact ⟨hpoint key, fun _ => trivial⟩
  | set key value => exact ⟨hpoint key, fun _ => trivial⟩
  | swap key value => exact ⟨hpoint key, fun _ => trivial⟩
  | delete key => exact ⟨hpoint key, fun _ => trivial⟩
  | len => exact hlen _ 0 0 (Nat.zero_add _)
  | range fn => exact hwalk fn _ 0 [] (Nat.zero_add _)
  | sample n rand =>
      rw [MapCall.prog]
      split_ifs
      · trivial
      · exact hdraw n _ [] rand

/-- The locks never deadlock: while a call is running, some goroutine can take a step, unless one is
inside a table function that runs out of `fuel` by itself on the table it was given.
Source: `internal/shardmap/map.go` `Get`, `Set`, `Swap`, `Delete`, `Len`, `Range`;
`internal/shardmap/sample.go` `Sample`
Kind: P
Fidelity: exact -/
theorem lockedMap_progresses (h : m.Represents f) (impl : Implementation fuel m.hash touch)
    {s : Locked ι (Visit K V) Visit.Answer A T (MapReply K V) (Table K V)}
    {log : List (MapEvent ι K V)}
    (htrace : Locked.Trace impl.plan m.Calls (Locked.idle m.shards) log s)
    {i : ι} (hbusy : s.clients i ≠ none) :
    (∃ ev s', Locked.Move impl.plan m.Calls s ev s') ∨
      ∃ (j : ι) (e : Visit K V) (next : _) (rest : _) (mem : List (Table K V)) (t : Table K V),
        s.clients j = some (.inside e next rest) ∧
        ({ m with shards := mem } : Map S K V).Represents ((shardSpec m.shardOf).after f log) ∧
        mem[e.cell m]? = some t ∧ e.onTable fuel m.hash t = .error .outOfFuel := by
  obtain ⟨a, hatomic, hsim, -, hrep⟩ := h.history impl htrace
  have hends : ∀ {j : ι} {c : Client (Visit K V) Visit.Answer A T (MapReply K V)},
      s.clients j = some c → c.prog.Ends fun e => e.cell m < m.shards.length := by
    intro j c hj
    obtain ⟨last, hth⟩ := hsim.thread hj
    exact hatomic.ends (fun p hp => h.sound.calls_end hp) (by simp) hth
  have hlen : s.mem.length = m.shards.length := by
    rw [← hsim.length_eq, h.sound.length_eq]
    exact hrep.sound.length_eq
  by_cases hruns : ∀ j e next rest t, s.clients j = some (.inside e next rest) →
      s.mem[e.cell m]? = some t → ∃ out, rest.run touch t = .ok out
  · refine Or.inl (hsim.disciplined.progress ?_ ?_ hruns hbusy)
    · exact fun j hj => hends hj
    · intro j e next hj
      rw [hlen]
      exact (hends hj).1
  · push Not at hruns
    obtain ⟨j, e, next, rest, t', hj, ht', hnot⟩ := hruns
    have hlt : e.cell m < a.world.length := by
      rw [hsim.length_eq]
      exact (List.getElem?_eq_some_iff.mp ht').1
    obtain ⟨t, ht⟩ : ∃ t, a.world[e.cell m]? = some t := ⟨_, List.getElem?_eq_getElem hlt⟩
    refine Or.inr ⟨j, e, next, rest, a.world, t, hj, hrep, ht, ?_⟩
    have hrun := hsim.running j e next rest t t' hj ht ht'
    have hens := hrep.onTable_ensures fuel (e := e) (t := t) (by rw [Visit.cell_with]; exact ht)
    rcases hens.ok_or_outOfFuel with ⟨out, hout, -⟩ | hout
    · exact absurd (hrun.symm.trans ((impl.run_iff e t out).mpr hout)) (hnot out)
    · exact hout

/-- While the swap waits at the lock for the read, somebody can take a step.
Source: `internal/shardmap/map.go` `Get`, `Swap`
Kind: C -/
theorem lockedMap_progresses_waiting :
    ∃ s : Locked Bool (Visit Bool ℕ) Visit.Answer (Whole Bool ℕ) Whole.Answer (MapReply Bool ℕ) _,
      Locked.Trace (wholesale 256 twoShards.hash).plan twoShards.Calls
        (Locked.idle twoShards.shards)
        [.called false ((MapCall.get true).prog twoShards.shards.length),
          .called true ((MapCall.swap true 7).prog twoShards.shards.length)] s ∧
      (∃ next rest, s.clients false = some (.inside (.get true) next rest)) ∧
      (∃ next, s.clients true = some (.announced (.swap true 7) next)) ∧
      ((∃ ev s', Locked.Move (wholesale 256 twoShards.hash).plan twoShards.Calls s ev s') ∨
        ∃ (j : Bool) (e : Visit Bool ℕ) (next : _) (rest : _) (mem : List (Table Bool ℕ))
          (t : Table Bool ℕ), s.clients j = some (.inside e next rest) ∧
          ({ twoShards with shards := mem } : Map Unit Bool ℕ).Represents
            ((shardSpec twoShards.shardOf).after ∅
              ([.called false ((MapCall.get true).prog twoShards.shards.length),
                .called true ((MapCall.swap true 7).prog twoShards.shards.length)] :
                List (MapEvent Bool Bool ℕ))) ∧
          mem[e.cell twoShards]? = some t ∧
          e.onTable 256 twoShards.hash t = .error .outOfFuel) := by
  obtain ⟨s, -, htrace, hinside, ⟨next, hwaits⟩, -⟩ := swap_waits_for_get
  have hbusy : s.clients true ≠ none := by
    rw [hwaits]
    exact Option.some_ne_none _
  exact ⟨s, htrace, hinside, ⟨next, hwaits⟩,
    lockedMap_progresses represents_twoShards _ htrace hbusy⟩

end histories

end CacheMoney.Shardmap
