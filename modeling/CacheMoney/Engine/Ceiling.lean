import CacheMoney.Engine.Rounds

/-!
# The memory ceiling under an eviction policy

`evictUntilUnder` gives up after `maxEvictMisses + 1` samplings without a removable candidate. The
comment beside the constant takes this for "no removable victim remains"; but the samplings are
random, and the count runs over the whole pass.

* `runTraced`: sequential runs with the worlds before and after every call.
* `ceiling_held`: a call that must respect the ceiling does so if, for the map before its pass, at
  most `maxEvictMisses` positions of the random source are in vain.
* `ceiling_missed`: with two shards and draws that always name the empty one, the pass gives up
  with a removable entry stored.
-/

set_option linter.unusedSectionVars false

namespace CacheMoney.Engine

open CacheMoney.Found CacheMoney.Shardmap

variable {S : Type} {w : World S} {f : FinMap Bytes Entry} {fuel : ℕ}

/-! ### Runs with their calls -/

/-- A call of a run, with its reply and the worlds before and after.
Source: none
Kind: D -/
structure Passed (S : Type) where
  call : Call
  reply : Reply
  before : World S
  after : World S

/-- A sequential run, with its calls.
Source: `internal/cache/evict_test.go` `TestEvictionBoundsSustainedWrites`
Kind: D -/
def runTraced (fuel : ℕ) (w : World S) : List Turn → Outcome (List (Passed S) × World S)
  | [] => pure ([], w)
  | t :: ts => do
      let (out, w') ← call fuel { w with env := t.env } t.call
      let (rest, w'') ← runTraced fuel w' ts
      pure (⟨t.call, out, { w with env := t.env }, w'⟩ :: rest, w'')

/-- What holds of one call from any state that holds a finite map holds of every call of a run.
Source: none
Kind: L -/
theorem ensures_runTraced {P : Passed S → Prop}
    (hP : ∀ (w : World S) (f : FinMap Bytes Entry) (c : Call), w.cache.Holds f →
      Ensures (call fuel w c) fun r => P ⟨c, r.1, w, r.2⟩)
    (turns : List Turn) : ∀ {w : World S} {f : FinMap Bytes Entry}, w.cache.Holds f →
      Ensures (runTraced fuel w turns) fun x => ∀ p ∈ x.1, P p := by
  induction turns with
  | nil =>
      intro w f _ p hp
      cases hp
  | cons t turns ih =>
      intro w f h
      have h' : ({ w with env := t.env } : World S).cache.Holds f := h
      unfold runTraced
      refine (hP _ f t.call h').eq_ok.bind ?_
      rintro ⟨out, w'⟩ ⟨hcall, hp⟩
      obtain ⟨f', hf'⟩ := (h'.call t.call).of_ok hcall
      refine (ih hf').bind ?_
      rintro ⟨rest, w''⟩ hrest
      exact List.forall_mem_cons.mpr ⟨hp, hrest⟩

/-! ### The ceiling -/

/-- A call that must leave the stored bytes under a ceiling: a successful `Set` or a
`SetMaxMemory` with a positive ceiling and an eviction policy.
Source: `internal/cache/cache.go` `Set`, `SetMaxMemory`
Kind: D -/
def Passed.Governed (p : Passed S) : Prop :=
  match p.call with
  | .set none _ _ _ => p.reply = .stored (.ok ()) ∧ 0 < p.before.cache.maxmemory ∧
      p.before.cache.evictPol ≠ .noEviction
  | .setMaxMemory bytes => 0 < bytes ∧ p.before.cache.evictPol ≠ .noEviction
  | _ => False

/-- The call left the counter under the ceiling, or the key it wrote is all that is stored.
Source: `internal/cache/cache.go` `Set`, `SetMaxMemory`
Kind: D -/
def Passed.Bounded (p : Passed S) : Prop :=
  match p.call with
  | .set _ key _ _ => p.after.cache.usage ≤ p.before.cache.maxmemory ∨
      p.after.cache.m.contents.map Prod.fst = {key}
  | .setMaxMemory bytes => p.after.cache.usage ≤ bytes
  | _ => True

/-- The random source serves the map before the eviction pass of the call: at most
`maxEvictMisses` of its positions are in vain. Before the pass of a `Set` the map stores the new
entry already; the draws are those before the call, as nothing else of the call draws.
Source: `internal/cache/evict.go` `maxEvictMisses`
Kind: D -/
def Passed.Served (fuel : ℕ) (p : Passed S) : Prop :=
  match p.call with
  | .set _ key value ttl => ∀ old m, p.before.cache.m.swap fuel key
        ⟨value, expiryAt p.before.env.clock.head ttl⟩ = .ok (old, m) →
      Engine.Served Cache.maxEvictMisses fuel key true p.before.cache.maxmemory m p.before.env.rand
  | .setMaxMemory bytes =>
      Engine.Served Cache.maxEvictMisses fuel [] false bytes p.before.cache.m p.before.env.rand
  | _ => True

/-- After a `Set`, nothing removable means that its key is all that is stored.
Source: `internal/cache/evict.go` `maxEvictMisses`
Kind: L -/
theorem only_key_iff {c : Cache S} (h : c.Holds f) {key : Bytes} (hkey : key ∈ f) :
    c.m.contents.map Prod.fst = {key} ↔ ¬Removable key true f := by
  rw [h.represents.contents_eq, map_fst_pairs, ← Finset.singleton_val, Finset.val_inj]
  constructor
  · rintro heq ⟨k, hk, hne⟩
    apply hne
    have hk' : k ∈ f.keys := hk
    rw [heq, Finset.mem_singleton] at hk'
    exact ⟨rfl, hk'⟩
  · intro hnone
    apply Finset.eq_singleton_iff_unique_mem.mpr
    refine ⟨hkey, ?_⟩
    intro k hk
    by_contra hne
    exact hnone ⟨k, hk, fun hex => hne hex.2⟩

/-- One call, from any state that holds a finite map.
Source: `internal/cache/cache.go` `Set`, `SetMaxMemory`
Kind: L -/
theorem bounded_of_served (w : World S) (f : FinMap Bytes Entry) (c : Call)
    (h : w.cache.Holds f) :
    Ensures (call fuel w c) fun r => (⟨c, r.1, w, r.2⟩ : Passed S).Governed →
      (⟨c, r.1, w, r.2⟩ : Passed S).Served fuel → (⟨c, r.1, w, r.2⟩ : Passed S).Bounded := by
  have hany : (∀ p : Passed S, p.call = c → ¬p.Governed) →
      Ensures (call fuel w c) fun r => (⟨c, r.1, w, r.2⟩ : Passed S).Governed →
        (⟨c, r.1, w, r.2⟩ : Passed S).Served fuel → (⟨c, r.1, w, r.2⟩ : Passed S).Bounded :=
    fun hnot => (h.call c).mono fun r _ hg => absurd hg (hnot _ rfl)
  cases c with
  | set ctx key value ttl =>
      cases ctx with
      | some e => exact fun hg => absurd hg (by simp [Passed.Governed])
      | none =>
          refine Prog.ensures_bind (set_spec h fuel key value ttl) ?_
          rintro out w' (⟨hout, -⟩ | ⟨-, -, f', hw⟩)
          · rintro ⟨hreply, -⟩
            simp only at hout
            rw [hout] at hreply
            cases hreply
          · rintro ⟨-, hpos, hpol⟩ hserved
            obtain ⟨R, hR, htrim⟩ := hw.trimmed
            have hkey : key ∈ f' := by
              rw [← Finmap.lookup_isSome, htrim key, if_neg hR, Finmap.lookup_insert]
              rfl
            have hend := hw.bounded hpos hpol hserved
            rw [← only_key_iff hw.holds hkey] at hend
            exact hend
  | setMaxMemory bytes =>
      refine Prog.ensures_bind (setMaxMemory_spec h fuel bytes) ?_
      rintro _ w' ⟨f', ht⟩
      rintro ⟨hpos, hpol⟩ hserved
      rcases ht.bounded hpos hpol hserved with hunder | hnone
      · exact hunder
      · -- With no key excluded, nothing removable means that nothing is stored.
        have hf' : f' = ∅ := by
          apply Finmap.ext_lookup
          intro k
          rw [Finmap.lookup_empty, Finmap.lookup_eq_none]
          exact fun hk => hnone ⟨k, hk, by simp⟩
        show w'.cache.usage ≤ bytes
        rw [ht.holds.usage_eq, hf']
        exact hpos.le
  | get ctx key => exact hany fun p hp => by simp [Passed.Governed, hp]
  | del ctx key => exact hany fun p hp => by simp [Passed.Governed, hp]
  | ttl ctx key => exact hany fun p hp => by simp [Passed.Governed, hp]
  | len ctx => exact hany fun p hp => by simp [Passed.Governed, hp]
  | setEvictionPolicy p => exact hany fun p hp => by simp [Passed.Governed, hp]

/-- **When the ceiling is held.** In every sequential run, for every shard count and random source,
a call that must respect the ceiling leaves the counter under it, or the written key alone in
the cache, provided that at most `maxEvictMisses` positions of the random source are in vain for
the map before its pass.
Source: `internal/cache/evict.go` `maxEvictMisses`, `evictUntilUnder`
Kind: P
Fidelity: exact -/
theorem ceiling_held (host : Host S) (hasher : S → Bytes → UInt64) (opts : List (CacheOpt S))
    (hhost : host.gomaxprocs * 4 ≤ 2 ^ 62)
    (hopts : ∀ n, CacheOpt.withShards n ∈ opts → n ≤ 2 ^ 62) (env : Env) (turns : List Turn)
    (fuel : ℕ) :
    Ensures (runTraced fuel ⟨Cache.new host hasher opts, env⟩ turns) fun x =>
      ∀ p ∈ x.1, p.Governed → p.Served fuel → p.Bounded :=
  ensures_runTraced bounded_of_served turns (holds_new host hasher opts hhost hopts)

/-! ### A source that serves -/

/-- A cache of one shard with room for two entries of 66 bytes.
Source: `internal/cache/evict_test.go` `TestEvictionBoundsSustainedWrites`
Kind: D -/
def smallWorld : World Unit :=
  ⟨Cache.new ⟨1, ()⟩ firstByte [.withShards 1, .withMaxMemory 140], onesEnv⟩

set_option maxRecDepth 10000 in
/-- Three writes of 66 bytes each under a ceiling of 140: the third evicts the first entry, and no
position of its random source is in vain.
Source: `internal/cache/evict_test.go` `TestEvictionBoundsSustainedWrites`
Kind: C -/
theorem ceiling_held_evicting :
    ∃ x, runTraced 9 smallWorld [⟨.set none [1] [1] 0, onesEnv⟩, ⟨.set none [2] [1] 0, onesEnv⟩,
        ⟨.set none [3] [1] 0, onesEnv⟩] = .ok x ∧
      ∃ p ∈ x.1, p.Governed ∧ p.Served 9 ∧ p.Bounded ∧ p.before.cache.m.len = 2 ∧
        p.after.cache.evictions = 1 := by
  have hrun : ∃ o₁ w₁ o₂ w₂, call 9 { smallWorld with env := onesEnv } (.set none [1] [1] 0) =
        .ok (o₁, w₁) ∧
      call 9 { w₁ with env := onesEnv } (.set none [2] [1] 0) = .ok (o₂, w₂) ∧
      w₂.cache.maxmemory = 140 ∧ w₂.cache.evictPol = .allKeysLFU ∧ w₂.cache.m.len = 2 ∧
      Returns (w₂.cache.m.swap 9 [3] ⟨[1], expiryAt 0 0⟩) (fun r => mapCost r.2 = 198 ∧
        Returns (r.2.attempt 9 ⟨fun _ => 1, 0⟩) fun a => a.1.landed.map Prod.fst = some [1]) ∧
      Returns (call 9 { w₂ with env := onesEnv } (.set none [3] [1] 0)) fun r =>
        r.1 = .stored (.ok ()) ∧ r.2.cache.evictions = 1 :=
    ⟨_, _, _, _, rfl, rfl, rfl, rfl, rfl, by decide +kernel, by decide +kernel⟩
  obtain ⟨o₁, w₁, o₂, w₂, h₁, h₂, hmm, hpol, hlen, ⟨⟨old, m⟩, hswap, hcost, ⟨⟨i, landed⟩, rand'⟩,
    hatt, hland⟩, ⟨o₃, w₃⟩, h₃, ho₃, hevict⟩ := hrun
  simp only at hcost hatt hland ho₃ hevict
  obtain ⟨e, rfl, he⟩ := Option.map_eq_some_iff.mp hland
  have hx : runTraced 9 smallWorld [⟨.set none [1] [1] 0, onesEnv⟩,
      ⟨.set none [2] [1] 0, onesEnv⟩, ⟨.set none [3] [1] 0, onesEnv⟩] =
      .ok ([⟨.set none [1] [1] 0, o₁, { smallWorld with env := onesEnv }, w₁⟩,
        ⟨.set none [2] [1] 0, o₂, { w₁ with env := onesEnv }, w₂⟩,
        ⟨.set none [3] [1] 0, o₃, { w₂ with env := onesEnv }, w₃⟩], w₃) := by
    simp only [runTraced, h₁, ok_bind, h₂, h₃]
    rfl
  have hserved : (⟨.set none [3] [1] 0, o₃, { w₂ with env := onesEnv }, w₃⟩ : Passed Unit).Served
      9 := by
    intro old' m' hswap'
    obtain ⟨rfl, rfl⟩ := Prod.mk.inj (Except.ok.inj (hswap.symm.trans hswap'))
    refine ⟨∅, Nat.zero_le _, ?_⟩
    rintro p ⟨-, -, m', hpart, hover, -, hnot⟩
    -- Without one of its entries the map is under the ceiling, and all of it names the first.
    obtain ⟨f, h⟩ : ∃ f, w₂.cache.Holds f := by
      have hnew : smallWorld.cache.Holds ∅ := holds_new ⟨1, ()⟩ firstByte
        [.withShards 1, .withMaxMemory 140] (by decide) (by simp)
      obtain ⟨f₁, hf₁⟩ := (Cache.Holds.call (w := { smallWorld with env := onesEnv }) hnew _).of_ok
        h₁
      exact (Cache.Holds.call (w := { w₁ with env := onesEnv }) hf₁ _).of_ok h₂
    obtain ⟨-, hm⟩ := (h.represents.swap 9 [3] _).of_ok hswap
    obtain ⟨-, -, -, rfl | ⟨-, -, -, -, hle⟩⟩ := hpart.inv hm
    · apply absurd ?_ hnot
      intro made hmade
      obtain ⟨rand'', hatt'⟩ := Map.attempt_constant
        (rfl : (⟨fun _ => 1, 0⟩ : Tape UInt64).read = fun _ => 1)
        (rfl : (⟨fun _ => 1, p⟩ : Tape UInt64).read = fun _ => 1) hatt
      refine ⟨e.1, Map.mem_namedKeys_of_attempt hatt' hmade, ?_⟩
      rw [he]
      decide
    · have hover' : w₂.cache.maxmemory < mapCost m' := hover
      have hle' : mapCost m' + 64 ≤ mapCost m := hle
      omega
  have hgov : (⟨.set none [3] [1] 0, o₃, { w₂ with env := onesEnv }, w₃⟩ : Passed Unit).Governed :=
    ⟨ho₃, by rw [hmm]; decide, by rw [hpol]; decide⟩
  refine ⟨_, hx, _, List.mem_cons_of_mem _ (List.mem_cons_of_mem _ List.mem_cons_self), hgov,
    hserved, ?_, hlen, hevict⟩
  exact (ceiling_held ⟨1, ()⟩ firstByte [.withShards 1, .withMaxMemory 140] (by decide) (by simp)
    onesEnv _ 9).of_ok hx _ (List.mem_cons_of_mem _ (List.mem_cons_of_mem _ List.mem_cons_self))
    hgov hserved

/-! ### Draws that only meet empty shards -/

variable (fuel) in
/-- Lowering the ceiling below the usage frees nothing if the draws only meet empty shards.
Source: `internal/cache/cache.go` `SetMaxMemory`
Kind: L -/
theorem setMaxMemory_of_emptyAhead (bytes : ℤ) (hahead : EmptyAhead w.cache.m w.env.rand)
    (hpos : 0 < bytes) (hover : bytes < w.cache.usage) (hpol : w.cache.evictPol ≠ .noEviction)
    (hfuel : Cache.maxEvictMisses < fuel) :
    Returns ((Cache.setMaxMemory fuel bytes).run (exec fuel) w) fun r =>
      r.2.cache.usage = w.cache.usage := by
  unfold Cache.setMaxMemory
  refine Prog.returns_bind (p := ask (.storeMaxmemory bytes)) (Q := fun r =>
    r.2 = { w with cache := { w.cache with maxmemory := bytes } }) ⟨_, rfl, rfl⟩ ?_
  rintro _ w₁ hw₁
  simp only at hw₁
  refine Prog.returns_bind (p := ask .loadMaxmemory) (Q := fun r => r.2 = w₁) ⟨_, rfl, rfl⟩ ?_
  rintro mm w₂ hw₂
  simp only at hw₂
  subst hw₂
  refine Prog.returns_bind (p := ask (.swapPolicyCounters (countersFor mm)))
    (Q := fun r => w₂.Kept r.2) ⟨_, rfl, rfl, rfl, rfl, rfl, rfl, rfl⟩ ?_
  rintro old w₃ h₃
  refine Prog.returns_bind (resizePolicy_returns (countersFor mm) old) ?_
  rintro _ w₄ h₄
  refine Prog.returns_bind refreshActive_returns ?_
  rintro _ w₅ h₅
  have h := (h₃.trans h₄).trans h₅
  have hm : w₅.cache.m = w.cache.m := by rw [h.m_eq, hw₁]
  have hrand : w₅.env.rand = w.env.rand := by rw [h.rand_eq, hw₁]
  have husage : w₅.cache.usage = w.cache.usage := by rw [h.usage_eq, hw₁]
  have hpol₅ : w₅.cache.evictPol = w.cache.evictPol := by rw [h.evictPol_eq, hw₁]
  unfold Cache.evictDown
  rw [if_pos hpos]
  refine Prog.returns_bind (p := ask .loadEvictPol)
    (Q := fun r => r.1 = w₅.cache.evictPol ∧ r.2 = w₅) ⟨_, rfl, rfl, rfl⟩ ?_
  rintro pol w₆ ⟨hpol₆, hw₆⟩
  simp only at hpol₆ hw₆
  subst hw₆
  unfold Cache.evictIfOver
  rw [if_pos ⟨hpos, by rw [hpol₆, hpol₅]; exact hpol⟩]
  refine Prog.returns_bind (p := ask .loadUsage)
    (Q := fun r => r.1 = w₆.cache.usage ∧ r.2 = w₆) ⟨_, rfl, rfl, rfl⟩ ?_
  rintro usage w₇ ⟨husage₇, hw₇⟩
  simp only at husage₇ hw₇
  subst hw₇
  rw [if_pos (by rw [husage₇, husage]; exact hover)]
  obtain ⟨rs, w₈, hrun, hcache, -⟩ := evictRounds_of_emptyAhead fuel bytes pol [] false fuel 0 w₇
    (Nat.zero_le _) hfuel (by rw [hm, hrand]; exact hahead) (by rw [husage]; exact hover)
  refine ⟨((), w₈), ?_, (congrArg Cache.usage hcache).trans husage⟩
  rw [Cache.evictUntilUnder, run_evictLoop, hrun]
  rfl

/-- Two shards, one entry of 66 bytes in the first, and draws that always name the second: the
ceiling is lowered to 50 and the entry stays.
Source: `internal/cache/evict.go` `maxEvictMisses`
Kind: C -/
theorem ceiling_missed :
    ∃ x, runTraced 101 ⟨Cache.new ⟨1, ()⟩ (fun _ _ => 0) [.withShards 2], onesEnv⟩
        [⟨.set none [97] [1] 0, onesEnv⟩, ⟨.setMaxMemory 50, onesEnv⟩] = .ok x ∧
      ∃ p ∈ x.1, p.Governed ∧ ¬p.Bounded := by
  have hset : ∃ out w₁, call 101 ⟨Cache.new ⟨1, ()⟩ (fun _ _ => 0) [.withShards 2], onesEnv⟩
      (.set none [97] [1] 0) = .ok (out, w₁) ∧
      w₁.cache.usage = 66 ∧ w₁.cache.evictPol = .allKeysLFU ∧ w₁.cache.m.shards.length = 2 ∧
      index w₁.cache.m.shards 1 = .ok (newTable 0) := ⟨_, _, rfl, rfl, rfl, rfl, rfl⟩
  obtain ⟨out, w₁, hset, husage, hpol, hlen, hempty⟩ := hset
  have hahead : EmptyAhead w₁.cache.m onesEnv.rand := by
    intro i _
    refine ⟨newTable 0, ?_, rfl⟩
    rw [hlen, show onesEnv.rand.read i = 1 from rfl,
      show (1 : UInt64).toNat &&& (2 - 1) = 1 from rfl]
    exact hempty
  obtain ⟨⟨_, w₂⟩, htune, husage₂⟩ := setMaxMemory_of_emptyAhead 101 50
    (w := { w₁ with env := onesEnv }) hahead (by decide) (by rw [husage]; decide)
    (by rw [hpol]; decide) (by decide)
  have htune' : call 101 { w₁ with env := onesEnv } (.setMaxMemory 50) = .ok (.done, w₂) := by
    unfold call Call.prog
    rw [Prog.run_bind, htune]
    rfl
  refine ⟨([⟨.set none [97] [1] 0, out,
    ⟨Cache.new ⟨1, ()⟩ (fun _ _ => 0) [.withShards 2], onesEnv⟩, w₁⟩,
    ⟨.setMaxMemory 50, .done, { w₁ with env := onesEnv }, w₂⟩], w₂), ?_, _,
    List.mem_cons_of_mem _ List.mem_cons_self, ⟨by decide, by rw [hpol]; decide⟩, ?_⟩
  · simp only [runTraced, hset, ok_bind, htune']
    rfl
  · intro hbounded
    have hle : w₂.cache.usage ≤ 50 := hbounded
    rw [husage₂, husage] at hle
    exact absurd hle (by decide)

end CacheMoney.Engine
