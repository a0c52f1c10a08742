import StreamsConsumer.Core.Coordinator

/-!
# The in-memory state of a worker

What a worker process keeps between coordination cycles and loses in a crash:
shard-sync progress, deferred checkpoints, the coordinator and leadership, the
poll schedule of the bounded pool, and the iterator cache of its stream source.
Instants and durations are milliseconds on one monotonic clock.
-/

namespace StreamsConsumer

structure SyncState where
  seeded : Bool
  childSynced : List ShardId
  deriving DecidableEq, Repr

/-! ## Deferred checkpoints -/

structure PendingCkpt where
  ack : Option SequenceNumber
  lastPersist : Nat
  deriving DecidableEq, Repr

structure CkptDefer where
  interval : Nat
  state : ShardId → Option PendingCkpt

namespace CkptDefer

def recordAck (d : CkptDefer) (shard : ShardId) (ack : SequenceNumber) (now : Nat) :
    Option SequenceNumber × CkptDefer :=
  let e := (d.state shard).getD ⟨none, now⟩
  let e := { e with ack := some ack }
  (if d.interval ≤ now - e.lastPersist then e.ack else none,
    { d with state := Function.update d.state shard (some e) })

def persisted (d : CkptDefer) (shard : ShardId) (now : Nat) : CkptDefer :=
  match d.state shard with
  | some _ => { d with state := Function.update d.state shard (some ⟨none, now⟩) }
  | none => d

def takePending (d : CkptDefer) (shard : ShardId) : Option SequenceNumber × CkptDefer :=
  match d.state shard with
  | some e => (e.ack, { d with state := Function.update d.state shard (some { e with ack := none }) })
  | none => (none, d)

def resumeFrom (d : CkptDefer) (shard : ShardId) : Option SequenceNumber :=
  (d.state shard).bind PendingCkpt.ack

def forget (d : CkptDefer) (shard : ShardId) : CkptDefer :=
  { d with state := Function.update d.state shard none }

def retain (d : CkptDefer) (owned : List ShardId) : CkptDefer :=
  { d with state := fun s => if owned.contains s then d.state s else none }

end CkptDefer

/-! ## The bounded pool -/

def MAX_IDLE_BACKOFF_MS : Nat := 5000

structure ShardSched where
  backoffMs : Nat
  dueAt : Nat
  lastLiveness : Nat
  deriving DecidableEq, Repr

structure PoolItem where
  shard : ShardId
  counter : Nat
  checkpoint : Option SequenceNumber
  enqueued : Nat
  deriving DecidableEq, Repr

inductive PassOutcome where
  | active
  | idle
  | ended
  | stopped
  deriving DecidableEq, Repr

/-! ## Leadership and the iterator cache -/

structure Leadership where
  owner : Worker
  coord : LeaseCoordinator
  counter : Nat

def Leadership.new (owner : Worker) (leaseDurationMs : Nat) : Leadership :=
  ⟨owner, LeaseCoordinator.new owner 1 leaseDurationMs, 0⟩

/-- A shard iterator of the service, opaque to the worker: the place in the shard's log it reads next. -/
structure ShardIterator where
  shard : ShardId
  pos : Nat
  deriving DecidableEq, Repr

structure Cursor where
  after : Option SequenceNumber
  iterator : ShardIterator
  deriving DecidableEq, Repr

structure Memory where
  syncState : SyncState
  ckptDefer : Option CkptDefer
  coordinator : LeaseCoordinator
  leadership : Leadership
  poolMax : Option Nat
  sched : List (ShardId × ShardSched)
  pool : List PoolItem
  outcomes : List (ShardId × PassOutcome)
  cursors : ShardId → Option Cursor

def Memory.pending (m : Memory) (shard : ShardId) : Option SequenceNumber :=
  m.ckptDefer.bind fun d => d.resumeFrom shard

def Memory.deferral (m : Memory) (shard : ShardId) : Option (Nat × Option PendingCkpt) :=
  m.ckptDefer.map fun d => (d.interval, d.state shard)

theorem Memory.pending_of_deferral {m m' : Memory} {shard : ShardId} (h : m'.deferral shard = m.deferral shard) :
    m'.pending shard = m.pending shard ∧ m'.ckptDefer.isSome = m.ckptDefer.isSome := by
  unfold Memory.deferral at h
  unfold Memory.pending
  cases hd : m.ckptDefer <;> cases hd' : m'.ckptDefer <;> simp_all [CkptDefer.resumeFrom]

structure FleetConfig where
  owner : Worker
  maxLeases : Nat
  leaseDurationMs : Nat
  pollIntervalMs : Nat
  initialPosition : InitialPosition
  /-- `with_max_processing_concurrency`; zero counts as unbounded. -/
  maxProcessingConcurrency : Option Nat
  /-- `with_checkpoint_interval`; zero counts as a checkpoint for each batch. -/
  checkpointIntervalMs : Option Nat

def FleetConfig.deferred (cfg : FleetConfig) : Bool :=
  match cfg.checkpointIntervalMs with
  | some ms => decide (1 ≤ ms)
  | none => false

def Memory.init (cfg : FleetConfig) : Memory where
  syncState := ⟨false, []⟩
  ckptDefer := if cfg.deferred then some ⟨cfg.checkpointIntervalMs.getD 0, fun _ => none⟩ else none
  coordinator := LeaseCoordinator.new cfg.owner cfg.maxLeases cfg.leaseDurationMs
  leadership := Leadership.new cfg.owner cfg.leaseDurationMs
  poolMax := cfg.maxProcessingConcurrency.filter (1 ≤ ·)
  sched := []
  pool := []
  outcomes := []
  cursors := fun _ => none

namespace CkptDefer

/-! ## Where a pending ack comes from -/

theorem resumeFrom_recordAck {d : CkptDefer} {shard k : ShardId} {ack : SequenceNumber} {now : Nat} :
    (d.recordAck shard ack now).2.resumeFrom k = if k = shard then some ack else d.resumeFrom k := by
  unfold recordAck resumeFrom
  by_cases h : k = shard
  · subst h; simp
  · simp [h]

theorem recordAck_due {d : CkptDefer} {shard : ShardId} {ack due : SequenceNumber} {now : Nat}
    (h : (d.recordAck shard ack now).1 = some due) : due = ack := by
  unfold recordAck at h
  simp only at h
  split at h
  · exact (Option.some.inj h).symm
  · cases h

theorem resumeFrom_persisted {d : CkptDefer} {shard k : ShardId} {now : Nat} {q : SequenceNumber}
    (h : (d.persisted shard now).resumeFrom k = some q) : d.resumeFrom k = some q := by
  unfold persisted at h
  split at h
  · unfold resumeFrom at h ⊢
    by_cases hk : k = shard
    · subst hk; simp at h
    · simpa [hk] using h
  · exact h

theorem takePending_fst (d : CkptDefer) (shard : ShardId) : (d.takePending shard).1 = d.resumeFrom shard := by
  unfold takePending resumeFrom
  cases d.state shard <;> rfl

theorem resumeFrom_takePending {d : CkptDefer} {shard k : ShardId} {q : SequenceNumber}
    (h : (d.takePending shard).2.resumeFrom k = some q) : d.resumeFrom k = some q := by
  unfold takePending at h
  split at h
  · unfold resumeFrom at h ⊢
    by_cases hk : k = shard
    · subst hk; simp at h
    · simpa [hk] using h
  · exact h

theorem resumeFrom_forget {d : CkptDefer} {shard k : ShardId} {q : SequenceNumber}
    (h : (d.forget shard).resumeFrom k = some q) : d.resumeFrom k = some q := by
  unfold forget resumeFrom at *
  by_cases hk : k = shard
  · subst hk; simp at h
  · simpa [hk] using h

theorem resumeFrom_retain {d : CkptDefer} {owned : List ShardId} {k : ShardId} {q : SequenceNumber}
    (h : (d.retain owned).resumeFrom k = some q) : d.resumeFrom k = some q := by
  unfold retain resumeFrom at *
  simp only at h
  split at h
  · exact h
  · cases h

end CkptDefer

end StreamsConsumer
