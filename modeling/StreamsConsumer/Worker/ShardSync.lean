import StreamsConsumer.Conc.Issues
import StreamsConsumer.Worker.Lineage

/-!
# What the shard sync publishes

`leader_shard_sync` creates lease rows on three paths: the one-time seed, the
children of a completed parent, and the full listing when the CHILD_SHARDS call
fails. `issues_leaderShardSync` says exactly which rows it asks for, whatever
the listings contain; the gate and the start position of each path follow.
-/

namespace StreamsConsumer
open Conc

structure Listings where
  shards : List ShardMeta → Prop
  children : ShardId → List ShardMeta → Prop

def Stream.listings (st : Stream) : Listings := ⟨(· = st.describe), fun p cs => cs = st.children p⟩

/-- The answers to a worker with memory `m`: any call may fail, a listing that succeeds is one of `T`. -/
def Told (T : Listings) (m : Memory) : (r : Req) → Resp r → Prop
  | @Req.mem _ f, a => a = (f m).1
  | .describeShards, a => ∀ ms, a = .ok ms → T.shards ms
  | .describeChildShards p, a => ∀ cs, a = .ok cs → T.children p cs
  | _, _ => True

/-- The parents whose children a seeded sync looks for: completed, not synced, without a published child. -/
def discovers (rows : List Lease) (sync : SyncState) (p : ShardId) : Bool :=
  (completedKeys rows).contains p && !(sync.childSynced ++ rows.flatMap Lease.parents).contains p

inductive Publication (F : Fleet) (rows : List Lease) (m : Memory) (T : Listings) :
    ShardMeta → Option SequenceNumber → Prop where
  | seed {ms : List ShardMeta} {x : ShardMeta} (hs : m.syncState.seeded = false) (hl : T.shards ms) (hx : x ∈ ms)
      (hp : publishable (completedKeys rows) (rows.map Lease.leaseKey) x = true) :
      Publication F rows m T x F.config.initialPosition.seedCheckpoint
  | child {p : ShardId} {cs : List ShardMeta} {c : ShardMeta} (hs : m.syncState.seeded = true)
      (hp : discovers rows m.syncState p = true) (hl : T.children p cs) (hc : c ∈ cs)
      (hn : c.id ∉ rows.map Lease.leaseKey) : Publication F rows m T c (childCp rows c.parents)
  | fallback {p : ShardId} {ms : List ShardMeta} {x : ShardMeta} (hs : m.syncState.seeded = true)
      (hd : discovers rows m.syncState p = true) (hl : T.shards ms) (hx : x ∈ ms)
      (hp : publishable (completedKeys rows) (rows.map Lease.leaseKey) x = true) :
      Publication F rows m T x (childCp rows x.parents)

section
variable {F : Fleet} {rows : List Lease} {m : Memory} {T : Listings} {k : ShardId} {ps : List ShardId}
  {cp : Option SequenceNumber} {ok : (r : Req) → Resp r → Prop} {q : Req}

/-! ## The parts of the sync -/

theorem issues_createShardLease {x : ShardId} {xs : List ShardId} {c : Option SequenceNumber} :
    Issues ok (dynamoDbLeaseStore.createShardLease x xs c) q ↔ q = .db x (.createShardLease xs c) := by
  unfold dynamoDbLeaseStore boxLease
  simp only [issues_bind, not_issues_ret, and_false, exists_false, or_false]
  refine issues_bind.trans ((or_congr_left issues_req).trans (or_iff_left ?_))
  intro h
  obtain ⟨r, _, h⟩ := h
  cases r with
  | ok a => exact not_issues_ret h
  | error e =>
    simp only at h
    split at h <;> exact not_issues_ret h

theorem returns_createShardLease {x : ShardId} {xs : List ShardId} {c : Option SequenceNumber}
    (h : ok (.db x (.createShardLease xs c)) (.ok 0)) :
    Returns ok (dynamoDbLeaseStore.createShardLease x xs c) (.ok ()) := by
  refine returns_bind.mpr ⟨.ok (), ?_, returns_ret.mpr rfl⟩
  exact returns_bind.mpr ⟨.ok 0, returns_req.mpr h, returns_ret.mpr rfl⟩

theorem issues_attempt {α β ε : Type} {p : Fx (Except ε α)} {f : α → Fx (Except ε β)} :
    Issues ok (attempt p f) q ↔ Issues ok p q ∨ ∃ a, Returns ok p (.ok a) ∧ Issues ok (f a) q := by
  unfold attempt
  rw [issues_bind]
  refine or_congr_right ⟨?_, ?_⟩
  · intro h
    obtain ⟨r, hr, h⟩ := h
    match r, hr, h with
    | .error e, _, h => exact absurd h not_issues_ret
    | .ok a, hr, h => exact ⟨a, hr, h⟩
  · intro h
    obtain ⟨a, ha, h⟩ := h
    exact ⟨.ok a, ha, h⟩

theorem issues_publish (hF : F.leases = dynamoDbLeaseStore) {x : ShardMeta} {c : Option SequenceNumber} :
    Issues (Told T m) (publish F x c) (.db k (.createShardLease ps cp)) ↔ x = ⟨k, ps⟩ ∧ c = cp := by
  unfold publish
  rw [hF]
  refine issues_bind.trans ?_
  simp only [Prog.pure_eq, not_issues_ret, and_false, exists_false, or_false, issues_createShardLease]
  constructor
  · intro h
    cases h
    exact ⟨rfl, rfl⟩
  · intro h
    obtain ⟨rfl, rfl⟩ := h
    rfl

theorem returns_publish (hF : F.leases = dynamoDbLeaseStore) (x : ShardMeta) (c : Option SequenceNumber) :
    Returns (Told T m) (publish F x c) () := by
  unfold publish
  rw [hF]
  exact returns_bind.mpr ⟨_, returns_createShardLease trivial, returns_ret.mpr rfl⟩

theorem issues_publishEach (hF : F.leases = dynamoDbLeaseStore) {xs : List ShardMeta} {f : ShardMeta → Fx Unit}
    {g : ShardMeta → Prop} {c : ShardMeta → Option SequenceNumber}
    (hf : ∀ x, (g x ∧ f x = publish F x (c x)) ∨ (¬ g x ∧ f x = .ret ())) :
    (Issues (Told T m) (Prog.each f xs) (.db k (.createShardLease ps cp)) ↔
      ∃ x ∈ xs, g x ∧ x = ⟨k, ps⟩ ∧ c x = cp) ∧ Returns (Told T m) (Prog.each f xs) () := by
  have hret : ∀ x ∈ xs, Returns (Told T m) (f x) () := by
    intro x _
    rcases hf x with ⟨_, e⟩ | ⟨_, e⟩
    · rw [e]
      exact returns_publish hF x _
    · rw [e]
      exact .ret ()
  refine ⟨?_, returns_each hret⟩
  rw [issues_each hret]
  refine exists_congr fun x => and_congr_right fun _ => ?_
  rcases hf x with ⟨hg, e⟩ | ⟨hg, e⟩
  · rw [e, issues_publish hF]
    simp [hg]
  · rw [e]
    simp [hg]

theorem issues_describeShards : ¬ Issues ok contractSource.describeShards (.db k (.createShardLease ps cp)) := by
  intro h
  rcases issues_bind.mp h with h | ⟨_, _, h⟩
  · cases issues_req.mp h
  · exact not_issues_ret h

theorem returns_describeShards {ms : List ShardMeta} :
    Returns (Told T m) contractSource.describeShards (.ok ms) ↔ T.shards ms := by
  constructor
  · intro h
    obtain ⟨r, hr, h⟩ := returns_bind.mp h
    exact returns_req.mp hr ms (mapError_eq_ok (returns_ret.mp h).symm)
  · intro h
    refine returns_bind.mpr ⟨.ok ms, returns_req.mpr ?_, returns_ret.mpr rfl⟩
    intro ms' e
    cases e
    exact h

theorem fails_describeShards : ∃ e, Returns (Told T m) contractSource.describeShards (.error e) :=
  ⟨_, returns_bind.mpr ⟨.error ⟨none⟩, returns_req.mpr nofun, returns_ret.mpr rfl⟩⟩

theorem issues_describeChildShards {p : ShardId} :
    ¬ Issues ok (contractSource.describeChildShards p) (.db k (.createShardLease ps cp)) := by
  intro h
  rcases issues_bind.mp h with h | ⟨_, _, h⟩
  · cases issues_req.mp h
  · exact not_issues_ret h

theorem returns_describeChildShards {p : ShardId} {cs : List ShardMeta} :
    Returns (Told T m) (contractSource.describeChildShards p) (.ok cs) ↔ T.children p cs := by
  constructor
  · intro h
    obtain ⟨r, hr, h⟩ := returns_bind.mp h
    exact returns_req.mp hr cs (mapError_eq_ok (returns_ret.mp h).symm)
  · intro h
    refine returns_bind.mpr ⟨.ok cs, returns_req.mpr ?_, returns_ret.mpr rfl⟩
    intro cs' e
    cases e
    exact h

theorem fails_describeChildShards {p : ShardId} :
    ∃ e, Returns (Told T m) (contractSource.describeChildShards p) (.error e) :=
  ⟨_, returns_bind.mpr ⟨.error ⟨none⟩, returns_req.mpr nofun, returns_ret.mpr rfl⟩⟩

/-- What the discovery of one parent publishes: its children, or in their place the full listing. -/
inductive Discovery (rows : List Lease) (T : Listings) (p : ShardId) : ShardMeta → Prop where
  | child {cs : List ShardMeta} {c : ShardMeta} (hl : T.children p cs) (hc : c ∈ cs)
      (hn : c.id ∉ rows.map Lease.leaseKey) : Discovery rows T p c
  | fallback {ms : List ShardMeta} {x : ShardMeta} (hl : T.shards ms) (hx : x ∈ ms)
      (hp : publishable (completedKeys rows) (rows.map Lease.leaseKey) x = true) : Discovery rows T p x

theorem issues_metric {x : Metric} : ¬ Issues ok (metric x) (.db k (.createShardLease ps cp)) := by
  intro h
  cases issues_req.mp h

theorem returns_metric (x : Metric) : Returns (Told T m) (metric x) () := returns_req.mpr trivial

theorem issues_publishChildren (hF : F.leases = dynamoDbLeaseStore) {existing : List ShardId} {cs : List ShardMeta} :
    (Issues (Told T m) (publishChildren F rows existing cs) (.db k (.createShardLease ps cp)) ↔
      ∃ x ∈ cs, x.id ∉ existing ∧ x = ⟨k, ps⟩ ∧ childCp rows x.parents = cp) ∧
      Returns (Told T m) (publishChildren F rows existing cs) () := by
  refine issues_publishEach hF fun x => ?_
  by_cases h : x.id ∈ existing
  · exact Or.inr ⟨by simp [h], by simp [h]⟩
  · exact Or.inl ⟨h, by simp [h]⟩

theorem issues_publishFallback (hF : F.leases = dynamoDbLeaseStore) {completed existing : List ShardId}
    {ms : List ShardMeta} :
    (Issues (Told T m) (publishFallback F rows completed existing ms) (.db k (.createShardLease ps cp)) ↔
      ∃ x ∈ ms, publishable completed existing x = true ∧ x = ⟨k, ps⟩ ∧ childCp rows x.parents = cp) ∧
      Returns (Told T m) (publishFallback F rows completed existing ms) () := by
  refine issues_publishEach hF fun x => ?_
  by_cases h : publishable completed existing x = true
  · exact Or.inl ⟨h, by simp [h]⟩
  · exact Or.inr ⟨h, by simp [h]⟩

theorem issues_seedRoots (hF : F.leases = dynamoDbLeaseStore) {completed existing : List ShardId}
    {ms : List ShardMeta} :
    (Issues (Told T m) (seedRoots F completed existing ms) (.db k (.createShardLease ps cp)) ↔
      ∃ x ∈ ms, publishable completed existing x = true ∧ x = ⟨k, ps⟩ ∧
        F.config.initialPosition.seedCheckpoint = cp) ∧
      Returns (Told T m) (seedRoots F completed existing ms) () := by
  refine issues_publishEach hF fun x => ?_
  by_cases h : publishable completed existing x = true
  · exact Or.inl ⟨h, by simp [h]⟩
  · exact Or.inr ⟨h, by simp [h]⟩

theorem issues_syncParent (hF : F.leases = dynamoDbLeaseStore) (hS : F.source = contractSource) {p : ShardId} :
    Issues (Told T m) (syncParent F rows (completedKeys rows) (rows.map Lease.leaseKey) p)
      (.db k (.createShardLease ps cp)) ↔ Discovery rows T p ⟨k, ps⟩ ∧ childCp rows ps = cp := by
  unfold syncParent
  rw [hS]
  constructor
  · intro h
    rcases issues_bind.mp h with h | ⟨_, _, h⟩
    · exact absurd h issues_metric
    rcases issues_bind.mp h with h | ⟨r, hr, h⟩
    · exact absurd h issues_describeChildShards
    match r, hr, h with
    | .ok cs, hr, h =>
      rcases issues_bind.mp h with h | ⟨_, _, h⟩
      · obtain ⟨x, hx, hn, rfl, hc⟩ := (issues_publishChildren hF).1.mp h
        exact ⟨.child (returns_describeChildShards.mp hr) hx hn, hc⟩
      · exact absurd h not_issues_ret
    | .error e, _, h =>
      rcases issues_bind.mp h with h | ⟨_, _, h⟩
      · exact absurd h issues_metric
      rcases issues_bind.mp h with h | ⟨r, hr, h⟩
      · exact absurd h issues_describeShards
      match r, hr, h with
      | .error e, _, h => exact absurd h not_issues_ret
      | .ok ms, hr, h =>
        rcases issues_bind.mp h with h | ⟨_, _, h⟩
        · obtain ⟨x, hx, hp, rfl, hc⟩ := (issues_publishFallback hF).1.mp h
          exact ⟨.fallback (returns_describeShards.mp hr) hx hp, hc⟩
        · exact absurd h not_issues_ret
  · intro h
    obtain ⟨hd, hc⟩ := h
    refine .bind_right (returns_metric _) ?_
    cases hd with
    | child hl hc' hn =>
      refine .bind_right (returns_describeChildShards.mpr hl) ?_
      exact .bind_left ((issues_publishChildren hF).1.mpr ⟨_, hc', hn, rfl, hc⟩)
    | fallback hl hx hp =>
      obtain ⟨e, he⟩ := fails_describeChildShards (T := T) (m := m) (p := p)
      refine .bind_right he (.bind_right (returns_metric _) (.bind_right (returns_describeShards.mpr hl) ?_))
      exact .bind_left ((issues_publishFallback hF).1.mpr ⟨_, hx, hp, rfl, hc⟩)

theorem returns_syncParent (hS : F.source = contractSource) {completed existing : List ShardId} (p : ShardId) :
    Returns (Told T m) (syncParent F rows completed existing p) false := by
  unfold syncParent
  rw [hS]
  obtain ⟨e, he⟩ := fails_describeChildShards (T := T) (m := m) (p := p)
  obtain ⟨e', he'⟩ := fails_describeShards (T := T) (m := m)
  exact (returns_metric _).bind (he.bind ((returns_metric _).bind (he'.bind (.ret false))))

theorem issues_syncParents (hF : F.leases = dynamoDbLeaseStore) (hS : F.source = contractSource)
    {skip : List ShardId} : ∀ {qs : List ShardId},
    Issues (Told T m) (syncParents F rows (completedKeys rows) (rows.map Lease.leaseKey) skip qs)
      (.db k (.createShardLease ps cp)) ↔
        ∃ p ∈ qs, p ∉ skip ∧ Discovery rows T p ⟨k, ps⟩ ∧ childCp rows ps = cp
  | [] => by simp [syncParents]
  | p :: qs => by
    unfold syncParents
    simp only [List.mem_cons, exists_eq_or_imp]
    split
    · rename_i hp
      rw [issues_syncParents hF hS]
      simp at hp
      simp [hp]
    · rename_i hp
      have hp' : p ∉ skip := by simpa using hp
      refine issues_bind.trans ?_
      rw [issues_syncParent hF hS]
      simp only [hp', not_false_eq_true, true_and]
      refine or_congr_right ⟨?_, ?_⟩
      · intro h
        obtain ⟨b, _, h⟩ := h
        rcases issues_bind.mp h with h | ⟨_, _, h⟩
        · exact (issues_syncParents hF hS).mp h
        · exact absurd h not_issues_ret
      · intro h
        exact ⟨false, returns_syncParent hS p, .bind_left ((issues_syncParents hF hS).mpr h)⟩

theorem issues_leaderShardSync (hF : F.leases = dynamoDbLeaseStore) (hS : F.source = contractSource) :
    Issues (Told T m) (leaderShardSync F rows) (.db k (.createShardLease ps cp)) ↔
      Publication F rows m T ⟨k, ps⟩ cp := by
  have hupdate : ∀ f, ¬ Issues (Told T m) (updateMem f) (.db k (.createShardLease ps cp)) := by
    intro f h
    cases issues_req.mp h
  unfold leaderShardSync
  constructor
  · intro h
    rcases issues_bind.mp h with h | ⟨sync, hr, h⟩
    · cases issues_req.mp h
    obtain rfl : sync = m.syncState := returns_req.mp hr
    split at h
    · rename_i hs
      rcases issues_bind.mp h with h | ⟨order, _, h⟩
      · cases issues_req.mp h
      rcases issues_bind.mp h with h | ⟨_, _, h⟩
      · obtain ⟨p, hp, hskip, hd, rfl⟩ := (issues_syncParents hF hS).mp h
        have hdis : discovers rows m.syncState p = true := by
          have hc := List.mem_dedup.mp (mem_of_mem_hashIter hp)
          unfold discovers
          simpa [hc] using hskip
        cases hd with
        | child hl hc hn => exact .child hs hdis hl hc hn
        | fallback hl hx hp => exact .fallback hs hdis hl hx hp
      rcases issues_bind.mp h with h | ⟨_, _, h⟩
      · exact absurd h (hupdate _)
      · exact absurd h not_issues_ret
    · rename_i hs
      rcases issues_bind.mp h with h | ⟨_, _, h⟩
      · exact absurd h issues_metric
      rw [hS] at h
      rcases issues_attempt.mp h with h | ⟨ms, hr, h⟩
      · exact absurd h issues_describeShards
      rcases issues_bind.mp h with h | ⟨_, _, h⟩
      · obtain ⟨x, hx, hp, rfl, rfl⟩ := (issues_seedRoots hF).1.mp h
        exact .seed (by simpa using hs) (returns_describeShards.mp hr) hx hp
      rcases issues_bind.mp h with h | ⟨_, _, h⟩
      · exact absurd h (hupdate _)
      · exact absurd h not_issues_ret
  · intro h
    have horder : Returns (Told T m) hashOrder [] := returns_req.mpr trivial
    refine .bind_right (returns_req.mpr (rfl : _ = m.syncState)) ?_
    have hseeded : ∀ p, discovers rows m.syncState p = true → Discovery rows T p ⟨k, ps⟩ →
        childCp rows ps = cp → Issues (Told T m) (syncParents F rows (completedKeys rows) (rows.map Lease.leaseKey)
          (m.syncState.childSynced ++ rows.flatMap Lease.parents) (hashIter [] id (completedKeys rows).dedup))
          (.db k (.createShardLease ps cp)) := by
      intro p hp hd hc
      unfold discovers at hp
      simp only [Bool.and_eq_true, List.contains_eq_mem, decide_eq_true_eq, Bool.not_eq_true',
        decide_eq_false_iff_not] at hp
      refine (issues_syncParents hF hS).mpr ⟨p, ?_, hp.2, hd, hc⟩
      simpa [hashIter] using hp.1
    cases h with
    | seed hs hl hx hp =>
      rw [hs]
      refine .bind_right (returns_metric _) ?_
      rw [hS]
      refine issues_attempt.mpr (Or.inr ⟨_, returns_describeShards.mpr hl, .bind_left ?_⟩)
      exact (issues_seedRoots hF).1.mpr ⟨_, hx, hp, rfl, rfl⟩
    | child hs hp hl hc hn =>
      rw [hs]
      refine .bind_right horder (.bind_left ?_)
      exact hseeded _ hp (.child hl hc hn) rfl
    | fallback hs hd hl hx hp =>
      rw [hs]
      refine .bind_right horder (.bind_left ?_)
      exact hseeded _ hd (.fallback hl hx hp) rfl

end

/-! ## The merge gate -/

/-- No child is listed for a completed parent before all of its parents are completed. -/
def ChildrenReady (rows : List Lease) (sync : SyncState) (T : Listings) : Prop :=
  sync.seeded = true → ∀ p, discovers rows sync p = true → ∀ cs, T.children p cs → ∀ c ∈ cs,
    c.id ∉ rows.map Lease.leaseKey → ∀ q ∈ c.parents, q ∈ completedKeys rows

variable {D : Deployment} {K : Contract}

theorem parents_of_publishable {rows : List Lease} {existing : List ShardId} {x : ShardMeta}
    (hx : publishable (completedKeys rows) existing x = true) : ∀ q ∈ x.parents, q ∈ completedKeys rows := by
  intro q hq
  unfold publishable at hx
  simp only [Bool.and_eq_true, List.all_eq_true] at hx
  simpa using hx.1 q hq

theorem gated_publications_iff (hsrc : D.source = contractSource) (w : Worker) (rows : List Lease) (m : Memory)
    (T : Listings) :
    (∀ k ps cp, Issues (Told T m) (leaderShardSync (D.fleet w) rows) (.db k (.createShardLease ps cp)) →
      ∀ q ∈ ps, q ∈ completedKeys rows) ↔ ChildrenReady rows m.syncState T := by
  constructor
  · intro h hs p hp cs hl c hc hn
    exact h c.id c.parents _ ((issues_leaderShardSync rfl hsrc).mpr (.child hs hp hl hc hn))
  · intro h k ps cp hi
    have hpub := (issues_leaderShardSync (F := D.fleet w) rfl hsrc).mp hi
    generalize hx : (⟨k, ps⟩ : ShardMeta) = x at hpub
    obtain rfl : x.parents = ps := by rw [← hx]
    cases hpub with
    | seed _ _ _ hp => exact parents_of_publishable hp
    | child hs hp hl hc hn => exact h hs _ hp _ hl x hc hn
    | fallback _ _ _ _ hp => exact parents_of_publishable hp

/-- The merge gate. A shard sync asks only for rows behind the gate exactly when CHILD_SHARDS lists no child
too early; and in every run without such a listing, a shard that a scan shows as eligible has no parent that
was never completed while listed. -/
theorem merge_gate_iff (hsrc : D.source = contractSource) :
    (∀ w rows m T,
      (∀ k ps cp, Issues (Told T m) (leaderShardSync (D.fleet w) rows) (.db k (.createShardLease ps cp)) →
        ∀ q ∈ ps, q ∈ completedKeys rows) ↔ ChildrenReady rows m.syncState T) ∧
    ∀ p, D.Reachable K p → ListedDone p.world.trace → ∀ rows, (∀ r ∈ rows, r ∈ p.world.history) →
      ∀ w, ∀ it ∈ eligibleOwned rows w, ∀ x ∈ p.world.stream.metas, x.id = it.1 →
        ∀ q ∈ x.parents, MarkedIn p.world.trace q ∨ Event.trimmed q ∈ p.world.trace := by
  refine ⟨gated_publications_iff hsrc, ?_⟩
  intro p hp hd rows hrows w it hit x hx hid
  have hi : LineageInv p.world := (lineageProtocol hsrc).reachable (LineageInv.init D) hp
  obtain ⟨r, hr, _, _, hk, rfl⟩ := Protocol.mem_eligibleOwned hit
  obtain ⟨x', hx', hid', hall⟩ := hi.rows r (hrows r hr) hk hd
  obtain rfl : x' = x := List.inj_on_of_nodup_map hi.sane.ids hx' hx (hid'.trans hid.symm)
  exact hall

/-- Shard `a` is completed; its merge child `m` has a second parent `d` that is a child of `b`, which is
still running. -/
def mergeStream : Stream :=
  ⟨[⟨"a", []⟩, ⟨"b", []⟩, ⟨"d", ["b"]⟩, ⟨"m", ["a", "d"]⟩], ["a", "b", "d", "m"], fun _ => [], fun _ => false⟩

def mergeRows : List Lease := [⟨"a", some "w", 3, true, some "7", []⟩, ⟨"b", some "w", 2, false, some "8", []⟩]

def seededMemory (cfg : FleetConfig) : Memory := { Memory.init cfg with syncState := ⟨true, []⟩ }

def mergedRows : List Lease := [⟨"a", some "w", 3, true, some "7", []⟩, ⟨"d", some "w", 2, true, some "9", ["b"]⟩]

theorem merge_gate_iff_split :
    (∀ k ps cp, Issues (Told mergeStream.listings (seededMemory (plainFleet.config "w")))
      (leaderShardSync (plainFleet.fleet "w") mergedRows) (.db k (.createShardLease ps cp)) →
      ∀ q ∈ ps, q ∈ completedKeys mergedRows) ∧
    (MarkedIn splitShard.world.trace "root" ∨ Event.trimmed "root" ∈ splitShard.world.trace) := by
  have hthm := merge_gate_iff (K := exactContract) (D := plainFleet) rfl
  constructor
  · refine (hthm.1 "w" mergedRows _ mergeStream.listings).mpr ?_
    intro _ p hp cs hcs
    have hmem : p ∈ completedKeys mergedRows := by
      unfold discovers at hp
      simpa using (Bool.and_eq_true_iff.mp hp).1
    have hp' : p = "a" ∨ p = "d" := by simpa [completedKeys, mergedRows] using hmem
    obtain rfl : cs = mergeStream.children p := hcs
    rcases hp' with rfl | rfl <;> decide
  · have hi : LineageInv splitShard.world :=
      (lineageProtocol (K := exactContract) rfl).reachable (LineageInv.init plainFleet) splitShard_reachable
    have hrow : (⟨"child", some "a", 2, false, some "2", ["root"]⟩ : Lease) ∈ splitShard.world.history := by
      decide +kernel
    refine hthm.2 splitShard splitShard_reachable (hi.listings splitShard_forest) [_] (by simpa using hrow) "a"
      ("child", 2, some "2") (by decide) ⟨"child", ["root"]⟩ (by rw [splitShard_metas]; decide) rfl "root" (by decide)

/-- The merge child is published, and then counts as eligible although `d` was never completed. -/
theorem merge_child_published_early :
    (¬ ∀ k ps cp, Issues (Told mergeStream.listings (seededMemory (plainFleet.config "w")))
      (leaderShardSync (plainFleet.fleet "w") mergeRows) (.db k (.createShardLease ps cp)) →
      ∀ q ∈ ps, q ∈ completedKeys mergeRows) ∧
    eligible ⟨"m", ["a", "d"]⟩ (completedKeys (⟨"m", none, 0, false, none, ["a", "d"]⟩ :: mergeRows))
      ("m" :: mergeRows.map Lease.leaseKey) = true := by
  refine ⟨?_, by decide⟩
  intro h
  have hpub : Publication (plainFleet.fleet "w") mergeRows (seededMemory (plainFleet.config "w"))
      mergeStream.listings ⟨"m", ["a", "d"]⟩ none :=
    .child (p := "a") rfl (by decide) (rfl : mergeStream.listings.children "a" (mergeStream.children "a"))
      (by decide) (by decide)
  exact absurd (h _ _ _ ((issues_leaderShardSync rfl rfl).mpr hpub) "d" (by decide)) (by decide)

end StreamsConsumer
