import CacheMoney.Shardmap.Linearizable

/-!
# `Len`, `Range` and `Sample` among writers

These methods visit one shard after the other and hold no lock in between, so writers get in. What
their results still mean is stated against the finite map at the call and the part `post` of the
history between the call and the return.

* `len_brackets`: `Len` misses the size at the call by at most what was inserted and removed
  meanwhile.
* `range_consistent`: `Range` visits no key twice, only entries stored at some moment of the call,
  and, unless its callback stops it, every entry of a key that nobody wrote.
* `sample_consistent`: `Sample` draws no key twice and only entries stored at some moment of the
  call.
-/

set_option linter.unusedSectionVars false

namespace CacheMoney.Shardmap

open CacheMoney.Found

variable {S K V : Type} [DecidableEq K] [Inhabited K] [Inhabited V]

section snapshots

variable {m : Map S K V} {f : FinMap K V} {fuel : ℕ} {A : Type} {T : A → Type}
  {touch : (a : A) → Table K V → Outcome (T a × Table K V)} {ι : Type} [DecidableEq ι]
  {s : Locked ι (Visit K V) Visit.Answer A T (MapReply K V) (Table K V)} {i : ι}
  {pre post : List (MapEvent ι K V)}

/-! ### Writers -/

/-- The key a section writes.
Source: `internal/shardmap/map.go` `Set`, `Swap`, `Delete`
Kind: D -/
def Visit.written : Visit K V → Option K
  | .set key _ => some key
  | .swap key _ => some key
  | .delete key => some key
  | _ => none

/-- The event writes the key.
Source: none
Kind: D -/
def WritesKey (k : K) : MapEvent ι K V → Prop
  | .done _ e _ => e.written = some k
  | _ => False

/-- Nobody writes during the history.
Source: none
Kind: D -/
def Unwritten (log : List (MapEvent ι K V)) : Prop := ∀ ev ∈ log, ∀ k, ¬WritesKey k ev

/-- An event that writes no key leaves the map as it is.
Source: none
Kind: L -/
theorem nextEvent_of_unwritten {route : K → ℕ} (g : FinMap K V) {ev : MapEvent ι K V}
    (h : ∀ k, ¬WritesKey k ev) : (shardSpec route).nextEvent g ev = g := by
  cases ev with
  | called j p => rfl
  | returned j a => rfl
  | done j e r =>
      cases e with
      | set key value => exact absurd rfl (h key)
      | swap key value => exact absurd rfl (h key)
      | delete key => exact absurd rfl (h key)
      | _ => rfl

/-- Without writers nothing is gained and nothing is lost.
Source: none
Kind: L -/
theorem tally_of_unwritten {route : K → ℕ} {cost : FinMap K V → FinMap K V → ℕ}
    (hcost : ∀ g, cost g g = 0) (g : FinMap K V) {log : List (MapEvent ι K V)}
    (h : Unwritten log) : (shardSpec route).tally cost g log = 0 := by
  induction log with
  | nil => rfl
  | cons ev log ih =>
      rw [Spec.tally, nextEvent_of_unwritten g (h ev List.mem_cons_self), hcost, Nat.zero_add]
      exact ih fun ev' hev' => h ev' (List.mem_cons_of_mem _ hev')

/-! ### `Len` -/

/-- The keys that were not there before.
Source: none
Kind: D -/
def keysGained (f g : FinMap K V) : ℕ := (g.keys \ f.keys).card

/-- The keys that are not there any more.
Source: none
Kind: D -/
def keysLost (f g : FinMap K V) : ℕ := (f.keys \ g.keys).card

/-- The entries of the shards from `j` on.
Source: `internal/shardmap/map.go` `Len`
Kind: D -/
def uncounted (route : K → ℕ) (f : FinMap K V) (j : ℕ) : ℕ :=
  (f.keys.filter fun k => j ≤ route k).card

/-- Counting one shard takes its keys off what is uncounted.
Source: `internal/shardmap/map.go` `Len`
Kind: L -/
theorem uncounted_succ (route : K → ℕ) (f : FinMap K V) (j : ℕ) :
    uncounted route f j =
      (f.keys.filter fun k => route k = j).card + uncounted route f (j + 1) := by
  unfold uncounted
  rw [← Finset.card_union_of_disjoint]
  · congr 1
    ext k
    simp only [Finset.mem_filter, Finset.mem_union]
    constructor
    · rintro ⟨hk, hj⟩
      rcases Nat.eq_or_lt_of_le hj with hj | hj
      · exact Or.inl ⟨hk, hj.symm⟩
      · exact Or.inr ⟨hk, hj⟩
    · rintro (⟨hk, rfl⟩ | ⟨hk, hj⟩)
      · exact ⟨hk, le_rfl⟩
      · exact ⟨hk, Nat.le_of_succ_le hj⟩
  · rw [Finset.disjoint_left]
    intro k hk hk'
    have h1 := (Finset.mem_filter.mp hk).2
    have h2 := (Finset.mem_filter.mp hk').2
    omega

/-- What is uncounted grows by the keys gained, at most.
Source: `internal/shardmap/map.go` `Len`
Kind: L -/
theorem uncounted_le (route : K → ℕ) (f g : FinMap K V) (j : ℕ) :
    uncounted route g j ≤ uncounted route f j + keysGained f g := by
  refine le_trans (Finset.card_le_card ?_) (Finset.card_union_le _ _)
  intro k hk
  obtain ⟨hk, hj⟩ := Finset.mem_filter.mp hk
  by_cases hf : k ∈ f.keys
  · exact Finset.mem_union_left _ (Finset.mem_filter.mpr ⟨hf, hj⟩)
  · exact Finset.mem_union_right _ (Finset.mem_sdiff.mpr ⟨hk, hf⟩)

/-- Source: `internal/shardmap/map.go` `Len`
Kind: D -/
structure Counting (route : K → ℕ) (f : FinMap K V) (log : List (MapEvent ι K V)) (j n : ℕ) :
    Prop where
  upper : n + uncounted route ((shardSpec route).after f log) j ≤
    f.keys.card + (shardSpec route).tally keysGained f log
  lower : f.keys.card ≤ n + uncounted route ((shardSpec route).after f log) j +
    (shardSpec route).tally keysLost f log

/-- At the beginning nothing is counted.
Source: `internal/shardmap/map.go` `Len`
Kind: L -/
theorem Counting.start (route : K → ℕ) (f : FinMap K V) :
    Counting route f ([] : List (MapEvent ι K V)) 0 0 := by
  have hall : uncounted route f 0 = f.keys.card := by
    unfold uncounted
    congr 1
    exact Finset.filter_true_of_mem fun k _ => Nat.zero_le _
  constructor <;> simp [Spec.tally, hall]

/-- An event of any client keeps the count within its bounds.
Source: `internal/shardmap/map.go` `Len`
Kind: L -/
theorem Counting.snoc {route : K → ℕ} {log : List (MapEvent ι K V)} {j n : ℕ}
    (h : Counting route f log j n) (ev : MapEvent ι K V) :
    Counting route f (log ++ [ev]) j n := by
  have hup := h.upper
  have hlow := h.lower
  generalize hg : (shardSpec route).after f log = g at hup hlow
  have hgain := uncounted_le route g ((shardSpec route).nextEvent g ev) j
  have hloss := uncounted_le route ((shardSpec route).nextEvent g ev) g j
  constructor
  · rw [Spec.after_snoc, Spec.tally_snoc, hg]
    omega
  · rw [Spec.after_snoc, Spec.tally_snoc, hg]
    change _ ≤ _ + (_ + (g.keys \ ((shardSpec route).nextEvent g ev).keys).card)
    unfold keysGained at hloss
    omega

/-- The shard that was counted leaves the uncounted ones, and the map stays as it is.
Source: `internal/shardmap/map.go` `Len`
Kind: L -/
theorem Counting.counted {route : K → ℕ} {log : List (MapEvent ι K V)} {j n c : ℕ}
    (h : Counting route f log j n) (i : ι)
    (hc : c = (((shardSpec route).after f log).keys.filter fun k => route k = j).card) :
    Counting route f (log ++ [.done i (.count j) c]) (j + 1) (n + c) := by
  have hsplit := uncounted_succ route ((shardSpec route).after f log) j
  have hsame : (shardSpec route).after f (log ++ [.done i (.count j) c]) =
      (shardSpec route).after f log := by
    rw [Spec.after_snoc]
    rfl
  obtain ⟨hup, hlow⟩ := h.snoc (.done i (.count j) c)
  constructor
  · rw [hsame] at hup ⊢
    omega
  · rw [hsame] at hlow ⊢
    omega

/-- `Len` misses the size of the map at its call by at most what was inserted and removed until its
return; if nobody writes in between it is exact.
Source: `internal/shardmap/map.go` `Len`
Kind: P
Fidelity: exact -/
theorem len_brackets (h : m.Represents f) (impl : Implementation fuel m.hash touch)
    {a : MapReply K V}
    (htrace : Locked.Trace impl.plan m.Calls (Locked.idle m.shards)
      (pre ++ .called i (MapCall.len.prog m.shards.length) :: post ++ [.returned i a]) s)
    (hrun : ∀ a, .returned i a ∉ post) :
    ∃ n, a = .size n ∧
      n ≤ ((shardSpec m.shardOf).after f pre).keys.card +
        (shardSpec m.shardOf).tally keysGained ((shardSpec m.shardOf).after f pre) post ∧
      ((shardSpec m.shardOf).after f pre).keys.card ≤ n +
        (shardSpec m.shardOf).tally keysLost ((shardSpec m.shardOf).after f pre) post ∧
      (Unwritten post → n = ((shardSpec m.shardOf).after f pre).keys.card) := by
  obtain ⟨w, hatomic, -, hlegal, -⟩ := h.history impl htrace
  let g := (shardSpec m.shardOf).after f pre
  let J : List (MapEvent ι K V) → MapProg K V → Prop := fun log p =>
    ∃ rounds j n, p = lenLoop rounds j n ∧ j + rounds = m.shards.length ∧
      Counting m.shardOf g log j n
  have hJ : J post (.ret a) := by
    refine Pool.Trace.watch_call J ?_ ?_ ?_ hatomic hlegal hrun
    · exact ⟨_, 0, 0, rfl, Nat.zero_add _, Counting.start _ _⟩
    · rintro log e next r ⟨rounds, j, n, hp, hj, hcount⟩ hallows
      cases rounds with
      | zero => cases hp
      | succ rounds =>
          cases hp
          exact ⟨rounds, j + 1, n + r, rfl, by omega, hcount.counted i hallows⟩
    · rintro log p ev ⟨rounds, j, n, hp, hj, hcount⟩ - -
      exact ⟨rounds, j, n, hp, hj, hcount.snoc ev⟩
  obtain ⟨rounds, j, n, hp, hj, hup, hlow⟩ := hJ
  cases rounds with
  | succ rounds => cases hp
  | zero =>
      cases hp
      have hnone : uncounted m.shardOf ((shardSpec m.shardOf).after g post) j = 0 := by
        rw [uncounted, Finset.card_eq_zero, Finset.filter_eq_empty_iff]
        intro k _
        have hlt : m.shardOf k < m.shards.length := h.sound.shardIndex_lt _
        omega
      rw [hnone] at hup hlow
      refine ⟨n, rfl, hup, hlow, fun hquiet => ?_⟩
      rw [tally_of_unwritten (fun g => by simp [keysGained]) g hquiet] at hup
      rw [tally_of_unwritten (fun g => by simp [keysLost]) g hquiet] at hlow
      exact le_antisymm hup hlow

/-- What goroutine `true` has done before the calls below: it stored one entry, in the first shard.
Source: none
Kind: D -/
def storedFirst : List (MapEvent Bool Bool ℕ) :=
  [.called true ((MapCall.set false 1).prog 2), .done true (.set false 1) (),
    .returned true .done]

/-- `Len` of goroutine `false` counts the first shard, then goroutine `true` stores an entry in the
second, then `Len` counts it too.
Source: `internal/shardmap/map.go` `Len`, `Set`
Kind: D -/
def duringLen : List (MapEvent Bool Bool ℕ) :=
  [.done false (.count 0) (1 : ℕ), .called true ((MapCall.set true 2).prog 2),
    .done true (.set true 2) (), .done false (.count 1) (1 : ℕ)]

/-- `Len` returns one more than the size at its call.
Source: `internal/shardmap/map.go` `Len`, `Set`
Kind: C -/
theorem len_brackets_overtaken :
    ∃ s, Locked.Trace (wholesale 256 twoShards.hash).plan twoShards.Calls
        (Locked.idle twoShards.shards)
        (storedFirst ++ .called false (MapCall.len.prog 2) :: duringLen ++
          [.returned false (.size 2)]) s ∧
      ∃ n, (.size 2 : MapReply Bool ℕ) = .size n ∧
        n ≤ ((shardSpec twoShards.shardOf).after ∅ storedFirst).keys.card +
          (shardSpec twoShards.shardOf).tally keysGained
            ((shardSpec twoShards.shardOf).after ∅ storedFirst) duringLen ∧
        ((shardSpec twoShards.shardOf).after ∅ storedFirst).keys.card ≤ n +
          (shardSpec twoShards.shardOf).tally keysLost
            ((shardSpec twoShards.shardOf).after ∅ storedFirst) duringLen ∧
        (Unwritten duringLen →
          n = ((shardSpec twoShards.shardOf).after ∅ storedFirst).keys.card) := by
  have hatomic : ∃ a, Pool.Trace (fun e => ((wholesale 256 twoShards.hash).plan e).perform)
      twoShards.Calls ⟨twoShards.shards, fun _ => none⟩
      (storedFirst ++ .called false (MapCall.len.prog 2) :: duringLen ++
        [.returned false (.size 2)]) a :=
    ⟨_, .cons (.called _ true _ rfl ⟨.set false 1, rfl⟩) <|
      .cons (.done _ true (Visit.set false 1) _ _ _ _ rfl rfl) <|
      .cons (.returned _ true _ _ rfl) <|
      .cons (.called _ false _ rfl ⟨.len, rfl⟩) <|
      .cons (.done _ false (Visit.count 0) _ _ _ _ rfl rfl) <|
      .cons (.called _ true _ rfl ⟨.set true 2, rfl⟩) <|
      .cons (.done _ true (Visit.set true 2) _ _ _ _ rfl rfl) <|
      .cons (.done _ false (Visit.count 1) _ _ _ _ rfl rfl) <|
      .cons (.returned _ false _ _ rfl) .nil⟩
  obtain ⟨a, ha⟩ := hatomic
  exact ⟨_, ha.locked, len_brackets represents_twoShards _ ha.locked (by simp [duringLen])⟩

/-! ### Moments of a call -/

/-- The entry is stored at some moment of the history.
Source: none
Kind: D -/
def StoredDuring (route : K → ℕ) (g : FinMap K V) (log : List (MapEvent ι K V)) (e : K × V) :
    Prop :=
  ∃ part, part <+: log ∧ ((shardSpec route).after g part).lookup e.1 = some e.2

/-- An entry that was stored during a log was so during a longer one.
Source: none
Kind: L -/
theorem StoredDuring.snoc {route : K → ℕ} {g : FinMap K V} {log : List (MapEvent ι K V)}
    {e : K × V} (h : StoredDuring route g log e) (ev : MapEvent ι K V) :
    StoredDuring route g (log ++ [ev]) e := by
  obtain ⟨part, hpart, he⟩ := h
  exact ⟨part, hpart.trans (List.prefix_append log [ev]), he⟩

/-- An entry that is stored now is stored during the log.
Source: none
Kind: L -/
theorem StoredDuring.now {route : K → ℕ} {g : FinMap K V} {log : List (MapEvent ι K V)}
    {e : K × V} (h : ((shardSpec route).after g log).lookup e.1 = some e.2) (ev : MapEvent ι K V) :
    StoredDuring route g (log ++ [ev]) e :=
  ⟨log, List.prefix_append log [ev], h⟩

/-- A key that nobody writes keeps its entry.
Source: none
Kind: L -/
theorem lookup_after_of_unwritten {route : K → ℕ} {k : K} (g : FinMap K V)
    {log : List (MapEvent ι K V)} (h : ∀ ev ∈ log, ¬WritesKey k ev) :
    ((shardSpec route).after g log).lookup k = g.lookup k := by
  induction log generalizing g with
  | nil => rfl
  | cons ev log ih =>
      have hstep : ((shardSpec route).nextEvent g ev).lookup k = g.lookup k := by
        have hev := h ev List.mem_cons_self
        cases ev with
        | called j p => rfl
        | returned j a => rfl
        | done j e r =>
            have hne : ∀ key, e.written = some key → k ≠ key := by
              rintro key hkey rfl
              exact hev hkey
            cases e with
            | set key value => exact Finmap.lookup_insert_of_ne _ (hne key rfl)
            | swap key value => exact Finmap.lookup_insert_of_ne _ (hne key rfl)
            | delete key => exact Finmap.lookup_erase_ne (hne key rfl)
            | _ => rfl
      rw [← hstep]
      exact ih _ fun ev' hev' => h ev' (List.mem_cons_of_mem _ hev')

/-! ### `Range` -/

/-- What a walk has given its callback when it comes to shard `j`.
Source: `internal/shardmap/map.go` `Range`
Kind: D -/
structure Walking (route : K → ℕ) (g : FinMap K V) (log : List (MapEvent ι K V)) (j : ℕ)
    (seen : List (K × V)) : Prop where
  distinct : (seen.map Prod.fst).Nodup
  behind : ∀ e ∈ seen, route e.1 < j
  stored : ∀ e ∈ seen, StoredDuring route g log e
  kept : ∀ k v, (∀ ev ∈ log, ¬WritesKey k ev) → g.lookup k = some v → route k < j → (k, v) ∈ seen

/-- An event of any client keeps what a walk has seen right.
Source: `internal/shardmap/map.go` `Range`
Kind: L -/
theorem Walking.snoc {route : K → ℕ} {g : FinMap K V} {log : List (MapEvent ι K V)} {j : ℕ}
    {seen : List (K × V)} (h : Walking route g log j seen) (ev : MapEvent ι K V) :
    Walking route g (log ++ [ev]) j seen :=
  ⟨h.distinct, h.behind, fun e he => (h.stored e he).snoc ev,
    fun k v hquiet => h.kept k v fun ev' hev' => hquiet ev' (List.mem_append_left _ hev')⟩

/-- One shard more. If the callback stops the walk inside the shard, the entries given so far are
still distinct and stored.
Source: `internal/shardmap/map.go` `rangeShard`
Kind: L -/
theorem Walking.walked {route : K → ℕ} {g : FinMap K V} {log : List (MapEvent ι K V)} {j : ℕ}
    {seen : List (K × V)} {fn : List (K × V) → Bool} {r : List (K × V) × Bool}
    (h : Walking route g log j seen)
    (hr : Walked route ((shardSpec route).after g log) j fn seen r) (ev : MapEvent ι K V) :
    (r.1.map Prod.fst).Nodup ∧ (∀ e ∈ r.1, StoredDuring route g (log ++ [ev]) e) ∧
      (r.2 = true → Walking route g (log ++ [ev]) (j + 1) r.1) := by
  obtain ⟨l, hl⟩ := hr.extends_seen
  have hstored := hr.stored
  have hnew := hr.distinct
  have hall := hr.all
  rw [← hl, List.drop_left] at hstored hnew
  rw [← hl] at hall ⊢
  have hdistinct : ((seen ++ l).map Prod.fst).Nodup := by
    rw [List.map_append, List.nodup_append]
    refine ⟨h.distinct, hnew, ?_⟩
    rintro k hk k' hk' rfl
    obtain ⟨e, he, rfl⟩ := List.mem_map.mp hk
    obtain ⟨e', he', hkey⟩ := List.mem_map.mp hk'
    have hlt := h.behind e he
    have heq := (hstored e' he').1
    rw [hkey] at heq
    omega
  have hmoments : ∀ e ∈ seen ++ l, StoredDuring route g (log ++ [ev]) e := by
    intro e he
    rcases List.mem_append.mp he with he | he
    · exact (h.stored e he).snoc ev
    · exact .now (hstored e he).2 ev
  refine ⟨hdistinct, hmoments, fun hmore => ⟨hdistinct, ?_, hmoments, ?_⟩⟩
  · intro e he
    rcases List.mem_append.mp he with he | he
    · exact Nat.lt_succ_of_lt (h.behind e he)
    · rw [(hstored e he).1]
      exact Nat.lt_succ_self j
  · intro k v hquiet hlook hlt
    have hquiet' : ∀ ev' ∈ log, ¬WritesKey k ev' := fun ev' hev' =>
      hquiet ev' (List.mem_append_left _ hev')
    rcases Nat.lt_succ_iff_lt_or_eq.mp hlt with hlt | heq
    · exact List.mem_append_left _ (h.kept k v hquiet' hlook hlt)
    · refine hall hmore k v ?_ heq
      rw [lookup_after_of_unwritten g hquiet']
      exact hlook

/-- What `Range` gives its callback, whatever the writers do meanwhile: no key twice, only entries
that were stored at some moment between the call and the return, and, unless the callback stopped
it by answering `false` to the last pair, for every key that nobody wrote its entry or none, as at
the call.
Source: `internal/shardmap/map.go` `Range`, `rangeShard`
Kind: P
Fidelity: exact -/
theorem range_consistent (h : m.Represents f) (impl : Implementation fuel m.hash touch)
    {a : MapReply K V} (fn : List (K × V) → Bool)
    (htrace : Locked.Trace impl.plan m.Calls (Locked.idle m.shards)
      (pre ++ .called i ((MapCall.range fn).prog m.shards.length) :: post ++ [.returned i a]) s)
    (hrun : ∀ a, .returned i a ∉ post) :
    ∃ seen, a = .visited seen ∧ (seen.map Prod.fst).Nodup ∧
      (∀ e ∈ seen, StoredDuring m.shardOf ((shardSpec m.shardOf).after f pre) post e) ∧
      ((seen ≠ [] → fn seen = true) → ∀ k v, (∀ ev ∈ post, ¬WritesKey k ev) →
        ((k, v) ∈ seen ↔ ((shardSpec m.shardOf).after f pre).lookup k = some v)) := by
  obtain ⟨w, hatomic, -, hlegal, -⟩ := h.history impl htrace
  let g := (shardSpec m.shardOf).after f pre
  let J : List (MapEvent ι K V) → MapProg K V → Prop := fun log p =>
    (∃ rounds j seen, p = walkLoop fn rounds j seen ∧ j + rounds = m.shards.length ∧
      Walking m.shardOf g log j seen) ∨
    ∃ seen, p = .ret (.visited seen) ∧ (seen ≠ [] ∧ fn seen = false) ∧ (seen.map Prod.fst).Nodup ∧
      ∀ e ∈ seen, StoredDuring m.shardOf g log e
  have hJ : J post (.ret a) := by
    refine Pool.Trace.watch_call J ?_ ?_ ?_ hatomic hlegal hrun
    · exact Or.inl ⟨_, 0, [], rfl, Nat.zero_add _, by simp, by simp, by simp, by simp⟩
    · rintro log e next r (⟨rounds, j, seen, hp, hj, hwalk⟩ | ⟨seen, hp, -⟩) hallows
      · cases rounds with
        | zero => cases hp
        | succ rounds =>
            cases hp
            obtain ⟨hdistinct, hstored, hmore⟩ := hwalk.walked hallows (.done i (.walk j fn seen) r)
            cases hgo : r.2 with
            | true =>
                refine Or.inl ⟨rounds, j + 1, r.1, ?_, by omega, hmore hgo⟩
                simp [hgo]
            | false =>
                refine Or.inr ⟨r.1, ?_, hallows.stopped hgo, hdistinct, hstored⟩
                simp [hgo]
      · cases hp
    · rintro log p ev (⟨rounds, j, seen, hp, hj, hwalk⟩ | ⟨seen, hp, hstop, hd, hst⟩) - -
      · exact Or.inl ⟨rounds, j, seen, hp, hj, hwalk.snoc ev⟩
      · exact Or.inr ⟨seen, hp, hstop, hd, fun e he => (hst e he).snoc ev⟩
  rcases hJ with ⟨rounds, j, seen, hp, hj, hwalk⟩ | ⟨seen, hp, hstop, hd, hst⟩
  · cases rounds with
    | succ rounds => cases hp
    | zero =>
        cases hp
        refine ⟨seen, rfl, hwalk.distinct, hwalk.stored, fun _ k v hquiet => ⟨?_, ?_⟩⟩
        · intro hmem
          obtain ⟨part, hpart, hlook⟩ := hwalk.stored _ hmem
          rw [← hlook]
          exact (lookup_after_of_unwritten g fun ev hev => hquiet ev (hpart.subset hev)).symm
        · intro hlook
          have hlt : m.shardOf k < m.shards.length := h.sound.shardIndex_lt _
          exact hwalk.kept k v hquiet hlook (by omega)
  · cases hp
    refine ⟨seen, rfl, hd, hst, fun hgo => ?_⟩
    exact absurd (hgo hstop.1) (by simp [hstop.2])

/-- `Range` of goroutine `false` walks over the first shard, then goroutine `true` stores an entry in
the second, which `Range` then shows too.
Source: `internal/shardmap/map.go` `Range`, `Set`
Kind: D -/
def duringRange : List (MapEvent Bool Bool ℕ) :=
  [.done false (.walk 0 (fun _ => true) []) ([(false, 1)], true),
    .called true ((MapCall.set true 2).prog 2), .done true (.set true 2) (),
    .done false (.walk 1 (fun _ => true) [(false, 1)]) ([(false, 1), (true, 2)], true)]

/-- `Range` shows the entry stored at its call and the one stored meanwhile.
Source: `internal/shardmap/map.go` `Range`, `Set`
Kind: C -/
theorem range_consistent_overtaken :
    ∃ s, Locked.Trace (wholesale 256 twoShards.hash).plan twoShards.Calls
        (Locked.idle twoShards.shards)
        (storedFirst ++ .called false ((MapCall.range fun _ => true).prog 2) :: duringRange ++
          [.returned false (.visited [(false, 1), (true, 2)])]) s ∧
      ∃ seen, (.visited [(false, 1), (true, 2)] : MapReply Bool ℕ) = .visited seen ∧
        (seen.map Prod.fst).Nodup ∧
        (∀ e ∈ seen, StoredDuring twoShards.shardOf
          ((shardSpec twoShards.shardOf).after ∅ storedFirst) duringRange e) ∧
        ((seen ≠ [] → (fun _ => true) seen = true) → ∀ k v,
          (∀ ev ∈ duringRange, ¬WritesKey k ev) →
          ((k, v) ∈ seen ↔
            ((shardSpec twoShards.shardOf).after ∅ storedFirst).lookup k = some v)) := by
  have hatomic : ∃ a, Pool.Trace (fun e => ((wholesale 256 twoShards.hash).plan e).perform)
      twoShards.Calls ⟨twoShards.shards, fun _ => none⟩
      (storedFirst ++ .called false ((MapCall.range fun _ => true).prog 2) :: duringRange ++
        [.returned false (.visited [(false, 1), (true, 2)])]) a :=
    ⟨_, .cons (.called _ true _ rfl ⟨.set false 1, rfl⟩) <|
      .cons (.done _ true (Visit.set false 1) _ _ _ _ rfl rfl) <|
      .cons (.returned _ true _ _ rfl) <|
      .cons (.called _ false _ rfl ⟨.range fun _ => true, rfl⟩) <|
      .cons (.done _ false (Visit.walk 0 (fun _ => true) []) _ _ _ _ rfl rfl) <|
      .cons (.called _ true _ rfl ⟨.set true 2, rfl⟩) <|
      .cons (.done _ true (Visit.set true 2) _ _ _ _ rfl rfl) <|
      .cons (.done _ false (Visit.walk 1 (fun _ => true) [(false, 1)]) _ _ _ _ rfl rfl) <|
      .cons (.returned _ false _ _ rfl) .nil⟩
  obtain ⟨a, ha⟩ := hatomic
  exact ⟨_, ha.locked,
    range_consistent represents_twoShards _ (fun _ => true) ha.locked (by simp [duringRange])⟩

/-! ### `Sample` -/

/-- What `Sample` returns, whatever the writers do meanwhile: at most `n` entries, no key twice,
each stored at some moment between the call and the return.
Source: `internal/shardmap/sample.go` `Sample`, `sampleShard`
Kind: P
Fidelity: exact -/
theorem sample_consistent (h : m.Represents f) (impl : Implementation fuel m.hash touch)
    {a : MapReply K V} (n : ℤ) (rand : Tape UInt64)
    (htrace : Locked.Trace impl.plan m.Calls (Locked.idle m.shards)
      (pre ++ .called i ((MapCall.sample n rand).prog m.shards.length) :: post ++
        [.returned i a]) s)
    (hrun : ∀ a, .returned i a ∉ post) :
    ∃ out, a = .sampled out ∧ out.length ≤ n.toNat ∧ (out.map Prod.fst).Nodup ∧
      ∀ e ∈ out, StoredDuring m.shardOf ((shardSpec m.shardOf).after f pre) post e := by
  obtain ⟨w, hatomic, -, hlegal, -⟩ := h.history impl htrace
  let g := (shardSpec m.shardOf).after f pre
  let J : List (MapEvent ι K V) → MapProg K V → Prop := fun log p =>
    ∃ out, (p = .ret (.sampled out) ∨ ∃ budget rand, p = drawLoop m.shards.length n budget out rand) ∧
      out.length ≤ n.toNat ∧ (out.map Prod.fst).Nodup ∧
      ∀ e ∈ out, StoredDuring m.shardOf g log e
  have hJ : J post (.ret a) := by
    refine Pool.Trace.watch_call J ?_ ?_ ?_ hatomic hlegal hrun
    · refine ⟨[], ?_, Nat.zero_le _, List.nodup_nil, by simp⟩
      rw [MapCall.prog]
      split_ifs
      · exact Or.inl rfl
      · exact Or.inr ⟨_, rand, rfl⟩
    · rintro log e next r ⟨out, hp | ⟨budget, rand, hp⟩, hlen, hd, hst⟩ hallows
      · cases hp
      · cases budget with
        | zero => cases hp
        | succ budget =>
            rw [drawLoop] at hp
            split_ifs at hp with hmore
            cases hp
            obtain ⟨drawn, rand'⟩ := r
            have hold : ∀ ev, ∀ e ∈ out, StoredDuring m.shardOf g (log ++ [ev]) e :=
              fun ev e he => (hst e he).snoc ev
            cases drawn with
            | none => exact ⟨out, Or.inr ⟨budget, rand', rfl⟩, hlen, hd, hold _⟩
            | some e =>
                simp only
                split_ifs with hdup
                · exact ⟨out, Or.inr ⟨budget, rand', rfl⟩, hlen, hd, hold _⟩
                · refine ⟨out ++ [e], Or.inr ⟨budget, rand', rfl⟩, ?_, ?_, ?_⟩
                  · rw [List.length_append, List.length_singleton]
                    omega
                  · rw [List.map_append, List.nodup_append]
                    refine ⟨hd, List.nodup_singleton _, ?_⟩
                    rintro k hk k' hk' rfl
                    exact hdup (List.mem_singleton.mp hk' ▸ hk)
                  · intro e' he'
                    rcases List.mem_append.mp he' with he' | he'
                    · exact hold _ e' he'
                    · rw [List.mem_singleton.mp he']
                      exact .now (hallows e rfl).2 _
    · rintro log p ev ⟨out, hp, hlen, hd, hst⟩ - -
      exact ⟨out, hp, hlen, hd, fun e he => (hst e he).snoc ev⟩
  obtain ⟨out, hp, hlen, hd, hst⟩ := hJ
  have hout : a = .sampled out := by
    rcases hp with hp | ⟨budget, rand, hp⟩
    · cases hp
      rfl
    · cases budget with
      | zero =>
          cases hp
          rfl
      | succ budget =>
          rw [drawLoop] at hp
          split_ifs at hp
          cases hp
          rfl
  exact ⟨out, hout, hlen, hd, hst⟩

/-- A random source that draws the first slot of the first shard, then the first slot of the second.
Source: none
Kind: D -/
def twoDraws : Tape UInt64 := ⟨fun n => if n = 2 then 1 else 0, 0⟩

/-- `Sample` of goroutine `false` draws from the first shard, then goroutine `true` stores an entry in
the second, which `Sample` then draws.
Source: `internal/shardmap/sample.go` `Sample`; `internal/shardmap/map.go` `Set`
Kind: D -/
def duringSample : List (MapEvent Bool Bool ℕ) :=
  [.done false (.draw 0 twoDraws.tail) (some (false, 1), twoDraws.tail.tail),
    .called true ((MapCall.set true 2).prog 2), .done true (.set true 2) (),
    .done false (.draw 1 twoDraws.tail.tail.tail)
      (some (true, 2), twoDraws.tail.tail.tail.tail)]

/-- `Sample` returns the entry stored at its call and the one stored meanwhile.
Source: `internal/shardmap/sample.go` `Sample`; `internal/shardmap/map.go` `Set`
Kind: C -/
theorem sample_consistent_overtaken :
    ∃ s, Locked.Trace (wholesale 256 twoShards.hash).plan twoShards.Calls
        (Locked.idle twoShards.shards)
        (storedFirst ++ .called false ((MapCall.sample 2 twoDraws).prog 2) :: duringSample ++
          [.returned false (.sampled [(false, 1), (true, 2)])]) s ∧
      ∃ out, (.sampled [(false, 1), (true, 2)] : MapReply Bool ℕ) = .sampled out ∧
        out.length ≤ (2 : ℤ).toNat ∧ (out.map Prod.fst).Nodup ∧
        ∀ e ∈ out, StoredDuring twoShards.shardOf
          ((shardSpec twoShards.shardOf).after ∅ storedFirst) duringSample e := by
  have hatomic : ∃ a, Pool.Trace (fun e => ((wholesale 256 twoShards.hash).plan e).perform)
      twoShards.Calls ⟨twoShards.shards, fun _ => none⟩
      (storedFirst ++ .called false ((MapCall.sample 2 twoDraws).prog 2) :: duringSample ++
        [.returned false (.sampled [(false, 1), (true, 2)])]) a :=
    ⟨_, .cons (.called _ true _ rfl ⟨.set false 1, rfl⟩) <|
      .cons (.done _ true (Visit.set false 1) _ _ _ _ rfl rfl) <|
      .cons (.returned _ true _ _ rfl) <|
      .cons (.called _ false _ rfl ⟨.sample 2 twoDraws, rfl⟩) <|
      .cons (.done _ false (Visit.draw 0 twoDraws.tail) _ _ _ _ rfl rfl) <|
      .cons (.called _ true _ rfl ⟨.set true 2, rfl⟩) <|
      .cons (.done _ true (Visit.set true 2) _ _ _ _ rfl rfl) <|
      .cons (.done _ false (Visit.draw 1 twoDraws.tail.tail.tail) _ _ _ _ rfl rfl) <|
      .cons (.returned _ false _ _ rfl) .nil⟩
  obtain ⟨a, ha⟩ := hatomic
  exact ⟨_, ha.locked,
    sample_consistent represents_twoShards _ 2 twoDraws ha.locked (by simp [duringSample])⟩

end snapshots

end CacheMoney.Shardmap
