import StreamsConsumer.Worker.Pass

/-!
# The fleet runtime

`Leadership::step`, `Fleet::run_cycle` and what they call in
`worker/src/fleet.rs`: leader-only shard sync and cleanup, the heartbeat, the
takes of the coordinator, and the concurrent passes over the owned shards,
unbounded or through a pool of fixed size.
-/

namespace StreamsConsumer
open Conc

structure Fleet where
  source : AsyncStreamSource
  leases : AsyncLeaseStore
  config : FleetConfig

/-! ## Leadership -/

def setLeaderCounter (c : Nat) : Fx Unit :=
  updateMem fun m => { m with leadership := { m.leadership with counter := c } }

/-- Feed the sentinel row to the leadership's own coordinator: whether it may be taken. -/
def leaderTick (order : List Worker) (sentinel : Option Lease) (nowMs : Nat) (m : Memory) : Bool × Memory :=
  let (keys, coord) := m.leadership.coord.tick order sentinel.toList nowMs
  (keys.contains LEADER_LEASE_KEY, { m with leadership := { m.leadership with coord := coord } })

def holdLeadership (granted : Except WorkerError (Option Nat)) : Fx Bool := do
  match granted with
  | .ok (some c) =>
    setLeaderCounter c
    return true
  | _ => return false

def leadershipStep (F : Fleet) (rows : List Lease) (nowMs : Nat) : Fx Bool := do
  let owner := F.config.owner
  let leaderRow := rows.find? fun r => r.leaseKey = LEADER_LEASE_KEY
  let order ← hashOrder
  let expiredTakeable ← accessMem (leaderTick order leaderRow nowMs)
  match leaderRow with
  | none =>
    let r ← F.leases.tryAcquireLeadership LEADER_LEASE_KEY owner none
    holdLeadership r
  | some row =>
    if row.owner = some owner then
      match ← F.leases.renew LEADER_LEASE_KEY owner row.leaseCounter with
      | .ok c =>
        setLeaderCounter c
        return true
      | .error _ => return false
    else if expiredTakeable then
      let r ← F.leases.tryAcquireLeadership LEADER_LEASE_KEY owner (some row.leaseCounter)
      holdLeadership r
    else return false

/-! ## Shard sync -/

/-- The guard of the seed and of the fallback: all parents completed, no row yet. -/
def publishable (completed existing : List ShardId) (m : ShardMeta) : Bool :=
  m.parents.all (completed.contains ·) && !existing.contains m.id

def publish (F : Fleet) (m : ShardMeta) (cp : Option SequenceNumber) : Fx Unit := do
  let _ ← F.leases.createShardLease m.id m.parents cp
  return ()

def childCp (rows : List Lease) (parents : List ShardId) : Option SequenceNumber :=
  childSeedCheckpoint (parents.map fun p => (rows.find? fun r => r.leaseKey = p).bind Lease.checkpoint)

def seedRoots (F : Fleet) (completed existing : List ShardId) (metas : List ShardMeta) : Fx Unit :=
  Prog.each (fun m =>
    if publishable completed existing m then publish F m F.config.initialPosition.seedCheckpoint
    else .ret ()) metas

def publishChildren (F : Fleet) (rows : List Lease) (existing : List ShardId) (children : List ShardMeta) :
    Fx Unit :=
  Prog.each (fun c => if existing.contains c.id then .ret () else publish F c (childCp rows c.parents)) children

def publishFallback (F : Fleet) (rows : List Lease) (completed existing : List ShardId)
    (metas : List ShardMeta) : Fx Unit :=
  Prog.each (fun m =>
    if publishable completed existing m then publish F m (childCp rows m.parents) else .ret ()) metas

/-- Discover the children of one completed parent; whether it counts as synced afterwards. -/
def syncParent (F : Fleet) (rows : List Lease) (completed existing : List ShardId) (parent : ShardId) :
    Fx Bool := do
  metric .describeStream
  match ← F.source.describeChildShards parent with
  | .ok children =>
    publishChildren F rows existing children
    return true
  | .error _ =>
    metric .describeStream
    match ← F.source.describeShards with
    | .ok metas =>
      publishFallback F rows completed existing metas
      return false
    | .error _ => return false

def syncParents (F : Fleet) (rows : List Lease) (completed existing skip : List ShardId) :
    List ShardId → Fx (List ShardId)
  | [] => .ret []
  | p :: ps => do
    if skip.contains p then syncParents F rows completed existing skip ps
    else
      let synced ← syncParent F rows completed existing p
      let rest ← syncParents F rows completed existing skip ps
      return if synced then p :: rest else rest

def leaderShardSync (F : Fleet) (rows : List Lease) : Fx (Except WorkerError Unit) := do
  let completed := completedKeys rows
  let existing := rows.map Lease.leaseKey
  let parentsWithChildren := rows.flatMap Lease.parents
  let sync ← accessMem fun m => (m.syncState, m)
  if sync.seeded then
    let order ← hashOrder
    let newlySynced ← syncParents F rows completed existing (sync.childSynced ++ parentsWithChildren)
      (hashIter order id completed.dedup)
    updateMem fun m =>
      { m with syncState := { m.syncState with childSynced := newlySynced ++ m.syncState.childSynced } }
    return .ok ()
  else
    metric .describeStream
    attempt F.source.describeShards fun metas => do
      seedRoots F completed existing metas
      updateMem fun m => { m with syncState := { m.syncState with seeded := true } }
      return .ok ()

/-! ## Cleanup -/

/-- A row counts as processing once a real record was checkpointed or the shard completed. -/
def leaseState (r : Lease) : LeaseState :=
  ⟨r.completed, r.completed ||
    match StartPosition.fromCheckpoint r.checkpoint with
    | .after _ => true
    | _ => false⟩

def cleanupState (rows : List Lease) (key : ShardId) : Option LeaseState :=
  (lookupRow (rows.filter fun r => r.leaseKey ≠ LEADER_LEASE_KEY) key).map leaseState

def cleanupCompletedLeases (F : Fleet) (rows : List Lease) : Fx Unit :=
  Prog.each (fun key => do let _ ← F.leases.deleteLease key; return ())
    (leasesSafeToDelete (shardMetasFromLeases rows) (cleanupState rows))

/-! ## The bounded pool -/

/-- Drop the entries of shards that are not eligible any more, add new ones as due now, and queue what
is due. -/
def refreshSched (sched : List (ShardId × ShardSched)) (eligibleOwned : List (ShardId × Nat × Option SequenceNumber))
    (t : Nat) : List PoolItem × List (ShardId × ShardSched) :=
  let kept := sched.filter fun e => (eligibleOwned.map Prod.fst).contains e.1
  eligibleOwned.foldl (fun (due, sched) (shard, counter, cp) =>
    match sched.lookup shard with
    | some e => (if e.dueAt ≤ t then due ++ [⟨shard, counter, cp, t⟩] else due, sched)
    | none => (due ++ [⟨shard, counter, cp, t⟩], sched ++ [(shard, ⟨0, t, t⟩)])) ([], kept)

def foldOutcome (pollIntervalMs t : Nat) (sched : List (ShardId × ShardSched)) (o : ShardId × PassOutcome) :
    List (ShardId × ShardSched) :=
  match o.2 with
  | .active => sched.map fun e => if e.1 = o.1 then (e.1, ⟨0, t, t⟩) else e
  | .idle => sched.map fun e =>
      if e.1 = o.1 then
        let backoff := if e.2.backoffMs = 0 then max pollIntervalMs 1 else min (e.2.backoffMs * 2) MAX_IDLE_BACKOFF_MS
        (e.1, ⟨backoff, t + backoff, t⟩)
      else e
  | .ended => sched.filter fun e => e.1 ≠ o.1
  | .stopped => sched.filter fun e => e.1 ≠ o.1

def shardTask (cfg : FleetConfig) (item : ShardId × Nat × Option SequenceNumber) : ShardTask :=
  ⟨cfg.owner, item.1, item.2.1, item.2.2, cfg.deferred⟩

def runPass (F : Fleet) (item : ShardId × Nat × Option SequenceNumber) : Fx PassOutcome := do
  createConsumer item.1
  match ← processShard F.source F.leases (shardTask F.config item) with
  | .ok outcome => return outcome
  | .error _ => return .stopped

def poolWorker (F : Fleet) : Fx Unit :=
  Prog.iter (fun _ : Unit => do
    match ← accessMem fun m => (m.pool.head?, { m with pool := m.pool.tail }) with
    | none => return .inr ()
    | some item =>
      let t ← now
      metric (.processingSlotWait item.shard (t - item.enqueued))
      let outcome ← runPass F (item.shard, item.counter, item.checkpoint)
      updateMem fun m => { m with outcomes := m.outcomes ++ [(item.shard, outcome)] }
      return .inl ()) ()

def runBoundedPool (F : Fleet) (eligibleOwned : List (ShardId × Nat × Option SequenceNumber)) (k t : Nat) :
    Fx Unit := do
  let due ← accessMem fun m =>
    let (due, sched) := refreshSched m.sched eligibleOwned t
    (due, { m with sched := sched })
  if due.isEmpty then
    metric (.processingQueueDepth 0)
    let next ← accessMem fun m => ((m.sched.map fun e => e.2.dueAt).min?, m)
    match next with
    | none => return ()
    | some next =>
      let t' ← now
      sleep (min (next - t') (max F.config.pollIntervalMs 1))
  else
    metric (.processingQueueDepth due.length)
    updateMem fun m => { m with pool := due, outcomes := [] }
    let _ ← Prog.join (List.replicate k (poolWorker F))
    let t' ← now
    updateMem fun m =>
      { m with sched := m.outcomes.foldl (foldOutcome F.config.pollIntervalMs t') m.sched, outcomes := [] }

/-! ## One coordination cycle -/

def ownedRows (rows : List Lease) (owner : Worker) : List Lease :=
  rows.filter fun r => r.owner == some owner && !r.completed

def eligibleOwned (rows : List Lease) (owner : Worker) : List (ShardId × Nat × Option SequenceNumber) :=
  let shards := shardMetasFromLeases rows
  shards.filterMap fun m =>
    (lookupRow (ownedRows rows owner) m.id).bind fun r =>
      if eligible m (completedKeys rows) (shards.map ShardMeta.id) then some (m.id, r.leaseCounter, r.checkpoint)
      else none

def allComplete (rows : List Lease) : Bool :=
  let shards := shardMetasFromLeases rows
  !shards.isEmpty && shards.all fun m => (completedKeys rows).contains m.id

def processOwned (F : Fleet) (rows : List Lease) : Fx Unit := do
  let t ← now
  let items := eligibleOwned rows F.config.owner
  match ← accessMem fun m => (m.poolMax, m) with
  | none =>
    let _ ← Prog.join (items.map (runPass F))
    return ()
  | some k => runBoundedPool F items (max k 1) t

/-- Step 2: re-read ownership and completion, drop deferred state of shards no longer owned. -/
def rereadAndProcess (F : Fleet) : Fx (Except WorkerError Bool) :=
  attempt F.leases.list fun rows => do
    let rows := rows.filter fun r => isShardKey r.leaseKey
    let owned := (ownedRows rows F.config.owner).map Lease.leaseKey
    metric (.leasesHeld owned.length)
    updateMem fun m => { m with ckptDefer := m.ckptDefer.map fun d => d.retain owned }
    match ← accessMem fun m => (m.poolMax, m) with
    | none => pure ()
    | some k => metric (.maxProcessingConcurrency k)
    if allComplete rows then return .ok true
    else
      processOwned F rows
      return .ok false

def takeLease (F : Fleet) (key : ShardId) : Fx Unit := do
  match ← F.leases.acquire key F.config.owner with
  | .ok _ => metric (.leaseAcquired key)
  | .error _ => return ()

def claimShare (F : Fleet) (nowMs : Nat) : Fx (Except WorkerError Bool) :=
  attempt F.leases.list fun rows => do
    let rows := rows.filter fun r => r.leaseKey ≠ LEADER_LEASE_KEY
    let order ← hashOrder
    let keys ← accessMem fun m =>
      let (keys, coordinator) := m.coordinator.tick order rows nowMs
      (keys, { m with coordinator := coordinator })
    Prog.each (takeLease F) keys
    rereadAndProcess F

def heartbeatAndClaim (F : Fleet) (nowMs : Nat) : Fx (Except WorkerError Bool) := do
  let _ ← F.leases.heartbeat F.config.owner
  claimShare F nowMs

def runCycle (F : Fleet) (nowMs : Nat) : Fx (Except WorkerError Bool) :=
  attempt F.leases.list fun rows => do
    if ← leadershipStep F rows nowMs then
      attempt (leaderShardSync F rows) fun _ => do
        cleanupCompletedLeases F rows
        heartbeatAndClaim F nowMs
    else heartbeatAndClaim F nowMs

/-! ## Graceful release -/

/-- Flush a deferred ack before the lease moves; the counter to release with. -/
def flushPending (F : Fleet) (r : Lease) : Fx Nat := do
  if F.config.deferred then
    let counter ← match ← withDefer none fun d => d.takePending r.leaseKey with
      | some pending =>
        match ← F.leases.checkpoint r.leaseKey F.config.owner r.leaseCounter pending with
        | .ok c => pure c
        | .error _ => pure r.leaseCounter
      | none => pure r.leaseCounter
    forgetPending r.leaseKey
    return counter
  else return r.leaseCounter

def releaseRow (F : Fleet) (r : Lease) : Fx Bool := do
  let counter ← flushPending F r
  match ← F.leases.release r.leaseKey F.config.owner counter with
  | .ok _ => return true
  | .error _ => return false

def releaseRows (F : Fleet) : List Lease → Nat → Fx Nat
  | [], released => .ret released
  | r :: rs, released => do
    if r.owner == some F.config.owner && !r.completed then
      let ok ← releaseRow F r
      releaseRows F rs (if ok then released + 1 else released)
    else releaseRows F rs released

def releaseOwned (F : Fleet) : Fx (Except WorkerError Nat) :=
  attempt F.leases.list fun rows => do
    let n ← releaseRows F rows 0
    return .ok n

end StreamsConsumer
