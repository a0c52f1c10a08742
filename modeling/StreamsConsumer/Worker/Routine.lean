import StreamsConsumer.Worker.World

/-!
# What a worker asks

Every request of `run_cycle` and `release_owned`, walked through once for any
property of requests: those of the cycle itself, and for each shard those of a
pass over it and of its release.
-/

namespace StreamsConsumer
open Conc

/-- The requests of a cycle that belong to no pass. -/
structure Routine (P : Req → Prop) : Prop where
  scan : P .scan
  getItem : ∀ key, P (.getItem key)
  put : ∀ key o, P (.db key (.put o))
  claim : ∀ key o c, P (.db key (.claim o c))
  renew : ∀ key o c, P (.db key (.renew o c))
  heartbeat : ∀ key o, P (.db key (.heartbeat o))
  createShardLease : ∀ key ps cp, P (.db key (.createShardLease ps cp))
  deleteLease : ∀ key, P (.db key .deleteLease)
  now : P .now
  sleep : ∀ ms, P (.sleep ms)
  metric : ∀ m, P (.metric m)
  hashOrder : P .hashOrder
  plain : ∀ {β : Type} (f : Memory → β × Memory),
    (∀ m, (f m).2.ckptDefer = m.ckptDefer ∧ (f m).2.coordinator = m.coordinator) → P (.mem f)
  tick : ∀ order rows nowMs, P (.mem fun m =>
    let (keys, coordinator) := m.coordinator.tick order rows nowMs
    (keys, { m with coordinator := coordinator }))
  retain : ∀ owned, P (.mem fun m => ((), { m with ckptDefer := m.ckptDefer.map fun d => d.retain owned }))

/-- The requests about one shard, in a pass over it or in its release. -/
structure Serving (P : Req → Prop) (shard : ShardId) : Prop where
  now : P .now
  sleep : ∀ ms, P (.sleep ms)
  metric : ∀ m, P (.metric m)
  createConsumer : P (.createConsumer shard)
  deliver : ∀ records, P (.deliver shard records)
  shardEnded : P (.shardEnded shard)
  leaseLost : P (.leaseLost shard)
  checkpoint : ∀ o c q, P (.db shard (.checkpoint o c q))
  markComplete : ∀ o c, P (.db shard (.markComplete o c))
  release : ∀ o c, P (.db shard (.release o c))
  defer : ∀ {β : Type} (x : β) (f : CkptDefer → β × CkptDefer),
    (∀ d, (f d).2.interval = d.interval ∧ ∀ j, j ≠ shard → (f d).2.state j = d.state j) → Asks P (withDefer x f)

/-- The requests of a stream source. -/
structure Supplies (P : Req → Prop) (source : AsyncStreamSource) : Prop where
  describeShards : Asks P source.describeShards
  describeChildShards : ∀ parent, Asks P (source.describeChildShards parent)

theorem asks_attempt {P : Req → Prop} {ε α β : Type} {p : Fx (Except ε α)} {k : α → Fx (Except ε β)} (hp : Asks P p)
    (hk : ∀ a, Asks P (k a)) : Asks P (attempt p k) := by
  refine asks_bind hp ?_
  intro r
  cases r with
  | error e => trivial
  | ok a => exact hk a

section
variable {P : Req → Prop} (h : Routine P)

theorem asks_boxLease {α : Type} {p : Fx (Except LeaseError α)} (hp : Asks P p) : Asks P (boxLease p) :=
  asks_bind hp fun _ => trivial

theorem asks_conditionalWrite {α : Type} {key : ShardId} {op : DbOp} (hop : P (.db key op)) (a : α) :
    Asks P (conditionalWrite key op a) := by
  refine asks_bind (asks_req hop) ?_
  intro r
  cases r <;> trivial

theorem asks_retryThrottled {ε α : Type} {throttled : ε → Bool} {op : Fx (Except ε α)} (hop : Asks P op)
    (hsleep : ∀ ms, P (.sleep ms)) : ∀ n delay, Asks P (retryThrottled throttled op n delay)
  | 0, _ => hop
  | n + 1, delay => by
    refine asks_bind hop ?_
    intro r
    cases r with
    | ok a => trivial
    | error e =>
      simp only
      split
      · exact asks_bind (asks_req (hsleep _)) fun _ => asks_retryThrottled hop hsleep n _
      · trivial

theorem asks_checkpoint {key : ShardId} {o : Worker} {c : Nat} {q : SequenceNumber} (hop : P (.db key (.checkpoint o c q)))
    (hsleep : ∀ ms, P (.sleep ms)) : Asks P (dynamoDbLeaseStore.checkpoint key o c q) :=
  asks_boxLease (asks_retryThrottled (asks_conditionalWrite hop _) hsleep _ _)

theorem asks_markComplete {key : ShardId} {o : Worker} {c : Nat} (hop : P (.db key (.markComplete o c))) :
    Asks P (dynamoDbLeaseStore.markComplete key o c) :=
  asks_boxLease (asks_conditionalWrite hop _)

include h

theorem asks_plain {β : Type} {f : Memory → β × Memory}
    (hf : ∀ m, (f m).2.ckptDefer = m.ckptDefer ∧ (f m).2.coordinator = m.coordinator) : Asks P (accessMem f) :=
  asks_req (h.plain f hf)

theorem asks_metric (m : Metric) : Asks P (metric m) := asks_req (h.metric m)

theorem asks_now : Asks P now := asks_req h.now

theorem asks_sleep (ms : Nat) : Asks P (sleep ms) := asks_req (h.sleep ms)

theorem asks_hashOrder : Asks P hashOrder := asks_req h.hashOrder

/-! ## The lease store -/

theorem asks_list : Asks P dynamoDbLeaseStore.list := asks_bind (asks_req h.scan) fun _ => trivial

theorem asks_acquire (key : ShardId) (owner : Worker) : Asks P (dynamoDbLeaseStore.acquire key owner) := by
  refine asks_boxLease (asks_bind ?_ fun _ => trivial)
  refine asks_bind (p := dbRequest key (.put owner)) (asks_req (h.put _ _)) ?_
  intro r
  cases r with
  | ok n => trivial
  | error e =>
    simp only
    split
    · trivial
    · refine asks_bind (p := DynamoDbLeaseStore.get key) (asks_req (h.getItem _)) ?_
      intro x
      match x with
      | .error _ => trivial
      | .ok none => trivial
      | .ok (some _) => exact asks_conditionalWrite (h.claim _ _ _) _

theorem asks_heartbeat (w : Worker) : Asks P (dynamoDbLeaseStore.heartbeat w) := by
  refine asks_boxLease (asks_retryThrottled (asks_bind (asks_req (h.heartbeat _ _)) ?_) h.sleep _ _)
  intro r
  cases r <;> trivial

theorem asks_renew (key : ShardId) (owner : Worker) (c : Nat) : Asks P (dynamoDbLeaseStore.renew key owner c) :=
  asks_boxLease (asks_retryThrottled (asks_conditionalWrite (h.renew _ _ _) _) h.sleep _ _)

theorem asks_createShardLease (key : ShardId) (parents : List ShardId) (cp : Option SequenceNumber) :
    Asks P (dynamoDbLeaseStore.createShardLease key parents cp) := by
  refine asks_boxLease (asks_bind (asks_req (h.createShardLease _ _ _)) ?_)
  intro r
  cases r with
  | ok n => trivial
  | error e =>
    simp only
    split <;> trivial

theorem asks_tryAcquireLeadership (key : ShardId) (owner : Worker) (expected : Option Nat) :
    Asks P (dynamoDbLeaseStore.tryAcquireLeadership key owner expected) := by
  have hbid : ∀ op c, P (.db key op) → Asks P (DynamoDbLeaseStore.bid key op c) := by
    intro op c hop
    refine asks_bind (asks_req hop) ?_
    intro r
    cases r with
    | ok n => trivial
    | error e =>
      simp only
      split <;> trivial
  refine asks_boxLease ?_
  cases expected with
  | none => exact hbid _ _ (h.put _ _)
  | some c => exact hbid _ _ (h.claim _ _ _)

/-! ## One pass -/

omit h

variable {shard : ShardId} (hs : Serving P shard)
include hs

theorem asks_forgetPending : Asks P (forgetPending shard) := by
  refine hs.defer _ _ ?_
  intro d
  exact ⟨rfl, fun j hj => Function.update_of_ne hj _ _⟩

theorem asks_lostLease : Asks P (lostLease shard) :=
  asks_bind (asks_req (hs.metric _)) fun _ => asks_bind (p := consumerLeaseLost shard) (asks_req hs.leaseLost) fun _ => trivial

theorem asks_giveUp {α : Type} (x : α) :
    Asks P ((forgetPending shard).bind fun _ => (lostLease shard).bind fun _ => (.ret x : Fx α)) :=
  asks_bind (asks_forgetPending hs) fun _ => asks_bind (asks_lostLease hs) fun _ => trivial

theorem asks_takePending : Asks P (withDefer none fun d => d.takePending shard) := by
  refine hs.defer _ _ ?_
  intro d
  unfold CkptDefer.takePending
  cases d.state shard with
  | none => exact ⟨rfl, fun _ _ => rfl⟩
  | some e => exact ⟨rfl, fun j hj => Function.update_of_ne hj _ _⟩

variable {task : ShardTask} (ht : task.shard = shard)
include ht

theorem asks_persistAck (c : Nat) (q : SequenceNumber) : Asks P (persistAck dynamoDbLeaseStore task c q) := by
  subst ht
  unfold persistAck
  split
  · refine asks_bind (asks_req hs.now) ?_
    intro t
    refine asks_bind (hs.defer _ _ ?_) ?_
    · intro d
      exact ⟨rfl, fun j hj => Function.update_of_ne hj _ _⟩
    intro r
    split
    · trivial
    · refine asks_bind (asks_checkpoint (hs.checkpoint ..) hs.sleep) ?_
      intro r
      split
      · refine asks_bind (hs.defer _ _ ?_) fun _ => trivial
        intro d
        unfold CkptDefer.persisted
        cases d.state task.shard with
        | none => exact ⟨rfl, fun _ _ => rfl⟩
        | some e => exact ⟨rfl, fun j hj => Function.update_of_ne hj _ _⟩
      · exact asks_giveUp hs _
  · refine asks_bind (asks_checkpoint (hs.checkpoint ..) hs.sleep) ?_
    intro r
    split
    · trivial
    · exact asks_bind (asks_lostLease hs) fun _ => trivial

theorem asks_deliverRecords (c : Nat) (records : List Record) :
    Asks P (deliverRecords dynamoDbLeaseStore task c records) := by
  have hpersist := asks_persistAck hs ht c
  subst ht
  unfold deliverRecords
  refine asks_bind (p := deliver task.shard records) (asks_req (hs.deliver _)) ?_
  intro r
  split
  · exact hpersist _
  · trivial
  · split
    · exact asks_bind (asks_forgetPending hs) fun _ => trivial
    · trivial

theorem asks_completeShard (c : Nat) : Asks P (completeShard dynamoDbLeaseStore task c) := by
  subst ht
  refine asks_bind (p := shardEnded task.shard) (asks_req hs.shardEnded) ?_
  intro _
  refine asks_bind (asks_markComplete (hs.markComplete _ _)) ?_
  intro _
  exact asks_bind (asks_req (hs.metric _)) fun _ => trivial

theorem asks_endShard (c : Nat) : Asks P (endShard dynamoDbLeaseStore task c) := by
  have hcomplete := asks_completeShard hs ht
  subst ht
  unfold endShard
  split
  · refine asks_bind (asks_takePending hs) ?_
    intro r
    split
    · refine asks_bind (asks_checkpoint (hs.checkpoint ..) hs.sleep) ?_
      intro r
      split
      · exact asks_bind (asks_forgetPending hs) fun _ => hcomplete _
      · exact asks_giveUp hs _
    · exact asks_bind (asks_forgetPending hs) fun _ => hcomplete _
  · exact hcomplete _

theorem asks_processShard {source : AsyncStreamSource} (hsrc : ∀ after, Asks P (source.getRecords shard after)) :
    Asks P (processShard source dynamoDbLeaseStore task) := by
  have hend := asks_endShard hs ht
  have hdeliver := asks_deliverRecords hs ht
  subst ht
  refine asks_bind ?_ fun _ => asks_iter ?_
  · unfold resumePosition
    split
    · exact asks_bind (hs.defer _ _ fun _ => ⟨rfl, fun _ _ => rfl⟩) fun _ => trivial
    · trivial
  intro st
  unfold passBody
  refine asks_bind (hsrc _) ?_
  intro r
  split
  · trivial
  split
  · split
    · exact asks_bind (hend _) fun _ => trivial
    · trivial
  · refine asks_bind (hdeliver _ _) ?_
    intro r
    split
    · trivial
    · refine asks_bind (asks_req (hs.metric _)) ?_
      intro _
      split
      · exact asks_bind (hend _) fun _ => trivial
      · trivial

end

/-! ## One cycle -/

section
variable {P : Req → Prop} (h : Routine P) {F : Fleet} (hF : F.leases = dynamoDbLeaseStore)
include h

theorem asks_setLeaderCounter (c : Nat) : Asks P (setLeaderCounter c) := asks_plain h fun _ => ⟨rfl, rfl⟩

theorem asks_holdLeadership (granted : Except WorkerError (Option Nat)) : Asks P (holdLeadership granted) := by
  unfold holdLeadership
  split
  · exact asks_bind (asks_setLeaderCounter h _) fun _ => trivial
  · trivial

include hF

theorem asks_leadershipStep (rows : List Lease) (t : Nat) : Asks P (leadershipStep F rows t) := by
  unfold leadershipStep
  rw [hF]
  refine asks_bind (asks_hashOrder h) ?_
  intro order
  refine asks_bind (asks_plain h fun _ => ⟨rfl, rfl⟩) ?_
  intro expired
  split
  · exact asks_bind (asks_tryAcquireLeadership h ..) fun _ => asks_holdLeadership h _
  · split
    · refine asks_bind (asks_renew h ..) ?_
      intro r
      split
      · exact asks_bind (asks_setLeaderCounter h _) fun _ => trivial
      · trivial
    · split
      · exact asks_bind (asks_tryAcquireLeadership h ..) fun _ => asks_holdLeadership h _
      · trivial

theorem asks_publish (m : ShardMeta) (cp : Option SequenceNumber) : Asks P (publish F m cp) := by
  unfold publish
  rw [hF]
  exact asks_bind (asks_createShardLease h ..) fun _ => trivial

theorem asks_publishFallback (rows : List Lease) (completed existing : List ShardId) (metas : List ShardMeta) :
    Asks P (publishFallback F rows completed existing metas) := by
  refine asks_each ?_
  intro m _
  split
  · exact asks_publish h hF _ _
  · trivial

theorem asks_cleanupCompletedLeases (rows : List Lease) : Asks P (cleanupCompletedLeases F rows) := by
  unfold cleanupCompletedLeases
  rw [hF]
  refine asks_each ?_
  intro key _
  refine asks_bind (p := dynamoDbLeaseStore.deleteLease key) ?_ fun _ => trivial
  exact asks_boxLease (asks_conditionalWrite (h.deleteLease _) _)

theorem asks_takeLease (key : ShardId) : Asks P (takeLease F key) := by
  unfold takeLease
  rw [hF]
  refine asks_bind (asks_acquire h ..) ?_
  intro r
  split
  · exact asks_metric h _
  · trivial

theorem asks_syncParents (hsrc : Supplies P F.source) (rows : List Lease) (completed existing skip : List ShardId) : ∀ ps,
    Asks P (syncParents F rows completed existing skip ps)
  | [] => trivial
  | p :: ps => by
    unfold syncParents
    split
    · exact asks_syncParents hsrc rows completed existing skip ps
    refine asks_bind ?_ fun _ => asks_bind (asks_syncParents hsrc rows completed existing skip ps) fun _ => trivial
    unfold syncParent
    refine asks_bind (asks_metric h _) ?_
    intro _
    refine asks_bind (hsrc.describeChildShards p) ?_
    intro r
    split
    · refine asks_bind (asks_each ?_) fun _ => trivial
      intro c _
      split
      · trivial
      · exact asks_publish h hF _ _
    · refine asks_bind (asks_metric h _) ?_
      intro _
      refine asks_bind hsrc.describeShards ?_
      intro r
      split
      · exact asks_bind (asks_publishFallback h hF ..) fun _ => trivial
      · trivial

theorem asks_leaderShardSync (hsrc : Supplies P F.source) (rows : List Lease) : Asks P (leaderShardSync F rows) := by
  unfold leaderShardSync
  refine asks_bind (asks_plain h fun _ => ⟨rfl, rfl⟩) ?_
  intro sync
  split
  · refine asks_bind (asks_hashOrder h) ?_
    intro order
    refine asks_bind (asks_syncParents h hF hsrc ..) ?_
    intro synced
    exact asks_bind (asks_plain h fun _ => ⟨rfl, rfl⟩) fun _ => trivial
  · refine asks_bind (asks_metric h _) ?_
    intro _
    refine asks_attempt hsrc.describeShards ?_
    intro metas
    refine asks_bind (asks_each ?_) fun _ => asks_bind (asks_plain h fun _ => ⟨rfl, rfl⟩) fun _ => trivial
    intro m _
    split
    · exact asks_publish h hF _ _
    · trivial

omit h

theorem asks_runPass {it : ShardId × Nat × Option SequenceNumber} (hs : Serving P it.1)
    (hsrc : ∀ after, Asks P (F.source.getRecords it.1 after)) : Asks P (runPass F it) := by
  unfold runPass
  rw [hF]
  refine asks_bind (p := createConsumer it.1) (asks_req hs.createConsumer) ?_
  intro _
  refine asks_bind (asks_processShard hs rfl hsrc) ?_
  intro r
  split <;> trivial

theorem asks_flushPending {r : Lease} (hs : Serving P r.leaseKey) : Asks P (flushPending F r) := by
  unfold flushPending
  rw [hF]
  have hforget : ∀ c, Asks P ((forgetPending r.leaseKey).bind fun _ => (.ret c : Fx Nat)) :=
    fun _ => asks_bind (asks_forgetPending hs) fun _ => trivial
  split
  · refine asks_bind (asks_takePending hs) ?_
    intro p
    cases p with
    | none => exact hforget _
    | some q =>
      refine asks_bind (asks_checkpoint (hs.checkpoint ..) hs.sleep) ?_
      intro c
      cases c with
      | ok c => exact hforget _
      | error e => exact hforget _
  · trivial

theorem asks_releaseRow {r : Lease} (hs : Serving P r.leaseKey) : Asks P (releaseRow F r) := by
  unfold releaseRow
  refine asks_bind (asks_flushPending hF hs) ?_
  intro c
  rw [hF]
  refine asks_bind (p := dynamoDbLeaseStore.release r.leaseKey F.config.owner c) ?_ ?_
  · exact asks_boxLease (asks_conditionalWrite (hs.release _ _) _)
  · intro x
    split <;> trivial

include h

variable (hread : ∀ shard after, Asks P (F.source.getRecords shard after)) (hs : ∀ shard, Serving P shard)
include hread hs

theorem asks_poolWorker : Asks P (poolWorker F) := by
  refine asks_iter ?_
  intro _
  refine asks_bind (asks_plain h fun _ => ⟨rfl, rfl⟩) ?_
  intro r
  split
  · trivial
  refine asks_bind (asks_now h) ?_
  intro t
  refine asks_bind (asks_metric h _) ?_
  intro _
  refine asks_bind (asks_runPass hF (hs _) (hread _)) ?_
  intro o
  exact asks_bind (asks_plain h fun _ => ⟨rfl, rfl⟩) fun _ => trivial

theorem asks_processOwned (rows : List Lease) : Asks P (processOwned F rows) := by
  unfold processOwned
  refine asks_bind (asks_now h) ?_
  intro t
  refine asks_bind (asks_plain h fun _ => ⟨rfl, rfl⟩) ?_
  intro k
  split
  · refine asks_bind (asks_join ?_) fun _ => trivial
    intro p hp
    obtain ⟨it, _, rfl⟩ := List.mem_map.mp hp
    exact asks_runPass hF (hs _) (hread _)
  · unfold runBoundedPool
    refine asks_bind (asks_plain h fun _ => ⟨rfl, rfl⟩) ?_
    intro due
    split
    · refine asks_bind (asks_metric h _) ?_
      intro _
      refine asks_bind (asks_plain h fun _ => ⟨rfl, rfl⟩) ?_
      intro next
      split
      · trivial
      · exact asks_bind (asks_now h) fun _ => asks_sleep h _
    · refine asks_bind (asks_metric h _) ?_
      intro _
      refine asks_bind (asks_plain h fun _ => ⟨rfl, rfl⟩) ?_
      intro _
      refine asks_bind (asks_join ?_) ?_
      · intro p hp
        rw [List.eq_of_mem_replicate hp]
        exact asks_poolWorker h hF hread hs
      · exact fun _ => asks_bind (asks_now h) fun _ => asks_plain h fun _ => ⟨rfl, rfl⟩

theorem asks_rereadAndProcess : Asks P (rereadAndProcess F) := by
  unfold rereadAndProcess
  rw [hF]
  refine asks_attempt (asks_list h) ?_
  intro rows
  refine asks_bind (asks_metric h _) ?_
  intro _
  refine asks_bind (asks_req (h.retain _)) ?_
  intro _
  refine asks_bind (asks_plain h fun _ => ⟨rfl, rfl⟩) ?_
  intro k
  have hrest : Asks P (if allComplete (rows.filter fun r => isShardKey r.leaseKey) then
      (pure (.ok true) : Fx (Except WorkerError Bool))
      else do
        processOwned F (rows.filter fun r => isShardKey r.leaseKey)
        return .ok false) := by
    split
    · trivial
    · exact asks_bind (asks_processOwned h hF hread hs _) fun _ => trivial
  cases k with
  | none => exact hrest
  | some k => exact asks_bind (asks_metric h _) fun _ => hrest

theorem asks_claimShare (t : Nat) : Asks P (claimShare F t) := by
  unfold claimShare
  rw [hF]
  refine asks_attempt (asks_list h) ?_
  intro rows
  refine asks_bind (asks_hashOrder h) ?_
  intro order
  refine asks_bind (asks_req (h.tick order (rows.filter fun r => r.leaseKey ≠ LEADER_LEASE_KEY) t)) ?_
  intro keys
  refine asks_bind (asks_each ?_) fun _ => asks_rereadAndProcess h hF hread hs
  intro key _
  exact asks_takeLease h hF key

theorem asks_heartbeatAndClaim (t : Nat) : Asks P (heartbeatAndClaim F t) := by
  unfold heartbeatAndClaim
  rw [hF]
  exact asks_bind (asks_heartbeat h _) fun _ => asks_claimShare h hF hread hs t

theorem asks_runCycle (hsrc : Supplies P F.source) (t : Nat) : Asks P (runCycle F t) := by
  unfold runCycle
  rw [hF]
  refine asks_attempt (asks_list h) ?_
  intro rows
  refine asks_bind (asks_leadershipStep h hF rows t) ?_
  intro lead
  split
  · refine asks_attempt (asks_leaderShardSync h hF hsrc rows) ?_
    intro _
    exact asks_bind (asks_cleanupCompletedLeases h hF rows) fun _ => asks_heartbeatAndClaim h hF hread hs t
  · exact asks_heartbeatAndClaim h hF hread hs t

omit h hread

theorem asks_releaseRows : ∀ (rows : List Lease) (n : Nat), Asks P (releaseRows F rows n)
  | [], _ => trivial
  | r :: rows, n => by
    unfold releaseRows
    split
    · exact asks_bind (asks_releaseRow hF (hs _)) fun _ => asks_releaseRows rows _
    · exact asks_releaseRows rows n

end

theorem asks_job {P : Req → Prop} (h : Routine P) {D : Deployment} (hsrc : Supplies P D.source)
    (hread : ∀ shard after, Asks P (D.source.getRecords shard after)) (hs : ∀ shard, Serving P shard) (w : Worker)
    (j : Job) : Asks P (D.job w j) := by
  cases j with
  | cycle => exact asks_bind (asks_now h) fun t => asks_bind (asks_runCycle h rfl hread hs hsrc t) fun _ => trivial
  | releaseOwned =>
    refine asks_bind (asks_attempt (asks_list h) ?_) fun _ => trivial
    intro rows
    exact asks_bind (asks_releaseRows rfl hs rows 0) fun _ => trivial
  | resize target => exact asks_plain h fun _ => ⟨rfl, rfl⟩

/-! ## Passes over the other shards -/

/-- The requests of a pass over another shard than `k`. -/
def Sibling (k : ShardId) : Req → Prop
  | .db key _ => key ≠ k
  | .mem f => ∀ m, (f m).2.deferral k = m.deferral k ∧ (f m).2.pool = m.pool
  | .createConsumer shard => shard ≠ k
  | .getRecords shard _ => shard ≠ k
  | .deliver shard _ => shard ≠ k
  | .shardEnded shard => shard ≠ k
  | .leaseLost shard => shard ≠ k
  | .now => True
  | .sleep _ => True
  | .metric _ => True
  | _ => False

theorem serving_sibling {k shard : ShardId} (h : shard ≠ k) : Serving (Sibling k) shard where
  now := trivial
  sleep _ := trivial
  metric _ := trivial
  createConsumer := h
  deliver _ := h
  shardEnded := h
  leaseLost := h
  checkpoint _ _ _ := h
  markComplete _ _ := h
  release _ _ := h
  defer x f hf := by
    refine asks_req ?_
    intro m
    cases hd : m.ckptDefer with
    | none => simp [hd]
    | some d => simp [Memory.deferral, hd, (hf d).1, (hf d).2 k h.symm]

theorem sibling_runPass {F : Fleet} {k : ShardId} (hF : F.leases = dynamoDbLeaseStore) (hsrc : F.source = contractSource)
    {it : ShardId × Nat × Option SequenceNumber} (h : it.1 ≠ k) : Asks (Sibling k) (runPass F it) := by
  refine asks_runPass hF (serving_sibling h) ?_
  intro after
  rw [hsrc]
  exact asks_bind (asks_req h) fun _ => trivial

end StreamsConsumer
