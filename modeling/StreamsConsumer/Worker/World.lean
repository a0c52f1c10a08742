import StreamsConsumer.Conc.Pool
import StreamsConsumer.Lease.Store
import StreamsConsumer.Worker.Fleet

/-!
# The world of a fleet

The lease table, the stream, and the memories of all workers. A scan is not a
snapshot: each row it returns is one the table held at some time, and rows may
be missing. A failed call either changed nothing or lost only its reply. What
the model records in `trace` is there for the theorems; no program reads it.
-/

namespace StreamsConsumer
open Conc

/-- A DynamoDB stream: every shard that ever appeared with its parents, those that DescribeStream still
lists, and the log of each shard. -/
structure Stream where
  metas : List ShardMeta
  listed : List ShardId
  log : ShardId → List Record
  closed : ShardId → Bool

inductive Event where
  | wrote (w : Worker) (key : ShardId) (op : DbOp) (row : Option Lease)
  | delivered (w : Worker) (shard : ShardId) (records : List Record)
      (answer : Except AwsError (Option SequenceNumber))
  | derived (w : Worker) (shard : ShardId) (type : ShardIteratorType) (pos : Nat)
  | listed (w : Worker) (parent : ShardId) (children : List ShardMeta)
  | trimmed (shard : ShardId)

structure World where
  table : ShardId → Option Lease
  history : List Lease
  stream : Stream
  mem : Worker → Memory
  clock : Nat
  /-- What happened, the latest first. -/
  trace : List Event

namespace World

def write (s : World) (w : Worker) (key : ShardId) (op : DbOp) (row : Option Lease) : World :=
  { s with
    table := Function.update s.table key row
    history := row.toList ++ s.history
    trace := .wrote w key op row :: s.trace }

def record (s : World) (e : Event) : World := { s with trace := e :: s.trace }

def setMem (s : World) (w : Worker) (m : Memory) : World := { s with mem := Function.update s.mem w m }

end World

/-- What a resume position means: how many records of the log it leaves behind. Start modes leave
none. -/
def position (log : List Record) : Option SequenceNumber → Nat
  | none => 0
  | some q => ((log.findIdx? fun r => r.seq = q).map (· + 1)).getD 0

/-- What the fleet may assume of `get_records` and of acks. `reads log closed after start n shardEnd` says
whether the `n` records from `start` on may be served after `after`. -/
structure Contract where
  reads : List Record → Bool → Option SequenceNumber → Nat → Nat → Bool → Bool
  acks : List Record → SequenceNumber → Bool

def Contract.AcksBatch (K : Contract) : Prop := ∀ records q, K.acks records q = true → q ∈ records.map Record.seq

inductive Choice where
  | ok
  | fault (e : AwsError)
  | lostReply (e : AwsError)
  | rows (rs : List Lease)
  | batch (start n : Nat) (shardEnd : Bool)
  | acked (seq : SequenceNumber)
  | unacked
  | order (o : List String)

def Stream.describe (st : Stream) : List ShardMeta :=
  (st.metas.filter fun m => st.listed.contains m.id).map fun m =>
    ⟨m.id, m.parents.filter fun p => st.listed.contains p⟩

def Stream.children (st : Stream) (parent : ShardId) : List ShardMeta :=
  st.metas.filter fun m => st.listed.contains m.id && m.parents.contains parent

/-- Where a fresh iterator starts; nothing when the sequence number is not in the log. -/
def Stream.iteratorPos (st : Stream) (shard : ShardId) : ShardIteratorType → Option SequenceNumber → Option Nat
  | .trimHorizon, _ => some 0
  | .latest, _ => some (st.log shard).length
  | .afterSequenceNumber, none => none
  | .afterSequenceNumber, some q => ((st.log shard).findIdx? fun r => r.seq = q).map (· + 1)

def execDb (w : Worker) (key : ShardId) (op : DbOp) : Choice → World → Option (Except AwsError Nat × World)
  | .ok, s =>
    match op.apply key (s.table key) with
    | some row => some (.ok (row.elim 0 Lease.leaseCounter), s.write w key op row)
    | none => some (.error .conditionFailed, s)
  | .fault e, s => if e.code = some CONDITIONAL_CHECK_FAILED then none else some (.error e, s)
  | .lostReply e, s =>
    match op.apply key (s.table key) with
    | some row => some (.error e, s.write w key op row)
    | none => none
  | _, _ => none

def execDeliver (K : Contract) (w : Worker) (shard : ShardId) (records : List Record) :
    Choice → World → Option (Except AwsError (Option SequenceNumber) × World)
  | .acked q, s =>
    if K.acks records q then some (.ok (some q), s.record (.delivered w shard records (.ok (some q)))) else none
  | .unacked, s => some (.ok none, s.record (.delivered w shard records (.ok none)))
  | .fault e, s => some (.error e, s.record (.delivered w shard records (.error e)))
  | _, _ => none

def execGetRecords (K : Contract) (shard : ShardId) (after : Option SequenceNumber) :
    Choice → World → Option (Except AwsError RecordBatch × World)
  | .batch start n shardEnd, s =>
    if K.reads (s.stream.log shard) (s.stream.closed shard) after start n shardEnd then
      some (.ok ⟨((s.stream.log shard).drop start).take n, shardEnd, none⟩, s)
    else none
  | .fault e, s => some (.error e, s)
  | _, _ => none

def execGetShardIterator (w : Worker) (shard : ShardId) (type : ShardIteratorType) (seq : Option SequenceNumber) :
    Choice → World → Option (Except AwsError (Option ShardIterator) × World)
  | .ok, s => (s.stream.iteratorPos shard type seq).map fun pos =>
      (.ok (some ⟨shard, pos⟩), s.record (.derived w shard type pos))
  | .fault e, s => some (.error e, s)
  | _, _ => none

/-- A page from the iterator's place on. The next iterator continues exactly after it; there is none
only at the end of a closed shard. -/
def execGetRecordsAt (it : ShardIterator) :
    Choice → World → Option (Except AwsError (List Record × Option Int × Option ShardIterator) × World)
  | .batch _ n shardEnd, s =>
    let log := s.stream.log it.shard
    if it.pos + n ≤ log.length ∧ (shardEnd → s.stream.closed it.shard ∧ it.pos + n = log.length) then
      some (.ok ((log.drop it.pos).take n, none, if shardEnd then none else some ⟨it.shard, it.pos + n⟩), s)
    else none
  | .fault e, s => some (.error e, s)
  | _, _ => none

def execScan : Choice → World → Option (Except AwsError (List Lease) × World)
  | .rows rs, s =>
    if (∀ r ∈ rs, r ∈ s.history) ∧ (rs.map Lease.leaseKey).Nodup then some (.ok rs, s) else none
  | .fault e, s => some (.error e, s)
  | _, _ => none

def execRead {α : Type} (a : α) : Choice → World → Option (Except AwsError α × World)
  | .ok, s => some (.ok a, s)
  | .fault e, s => some (.error e, s)
  | _, _ => none

def execChildShards (w : Worker) (parent : ShardId) :
    Choice → World → Option (Except AwsError (List ShardMeta) × World)
  | .ok, s => some (.ok (s.stream.children parent), s.record (.listed w parent (s.stream.children parent)))
  | .fault e, s => some (.error e, s)
  | _, _ => none

def exec (K : Contract) (w : Worker) : (r : Req) → Choice → World → Option (Resp r × World)
  | .scan, c, s => execScan c s
  | .getItem key, c, s => execRead (s.table key) c s
  | .db key op, c, s => execDb w key op c s
  | .describeShards, c, s => execRead s.stream.describe c s
  | .describeChildShards parent, c, s => execChildShards w parent c s
  | .getRecords shard after, c, s => execGetRecords K shard after c s
  | .getShardIterator shard type seq, c, s => execGetShardIterator w shard type seq c s
  | .getRecordsAt it _, c, s => execGetRecordsAt it c s
  | .createConsumer _, _, s => some ((), s)
  | .deliver shard records, c, s => execDeliver K w shard records c s
  | .shardEnded _, c, s => execRead () c s
  | .leaseLost _, c, s => execRead () c s
  | .mem f, _, s => some ((f (s.mem w)).1, s.setMem w (f (s.mem w)).2)
  | .now, _, s => some (s.clock, s)
  | .sleep _, _, s => some ((), s)
  | .hashOrder, .order o, s => some (o, s)
  | .hashOrder, _, _ => none
  | .metric _, _, s => some ((), s)

inductive Env where
  | advance (ms : Nat)
  | append (shard : ShardId) (r : Record)
  | close (shard : ShardId)
  | appear (m : ShardMeta)
  | trim (shard : ShardId)

def envStep : Env → World → Option World
  | .advance ms, s => some { s with clock := s.clock + ms }
  | .append shard r, s =>
    if s.stream.closed shard = false ∧ r.shardId = shard ∧ r.seq ≠ SENTINEL_LATEST ∧ r.seq ≠ "" ∧
        r.seq ∉ (s.stream.log shard).map Record.seq then
      some { s with stream :=
        { s.stream with log := Function.update s.stream.log shard (s.stream.log shard ++ [r]) } }
    else none
  | .close shard, s => some { s with stream := { s.stream with closed := Function.update s.stream.closed shard true } }
  | .appear m, s =>
    if m.id ∉ s.stream.metas.map ShardMeta.id ∧ isShardKey m.id = true ∧
        ∀ p ∈ m.parents, p ∈ s.stream.metas.map ShardMeta.id then
      some { s with stream :=
        { s.stream with metas := s.stream.metas ++ [m], listed := m.id :: s.stream.listed } }
    else none
  | .trim shard, s =>
    if shard ∈ s.stream.listed then
      some ({ s with stream :=
        { s.stream with listed := s.stream.listed.filter (· ≠ shard) } }.record (.trimmed shard))
    else none

inductive Job where
  | cycle
  | releaseOwned
  | resize (target : Nat)

/-- The workers of a fleet, each under its own name, over one stream source and the DynamoDB lease
store. -/
structure Deployment where
  source : AsyncStreamSource
  config : Worker → FleetConfig
  owner_eq : ∀ w, (config w).owner = w

namespace Deployment

def fleet (D : Deployment) (w : Worker) : Fleet := ⟨D.source, dynamoDbLeaseStore, D.config w⟩

def job (D : Deployment) (w : Worker) : Job → Fx Unit
  | .cycle => do
    let t ← now
    let _ ← runCycle (D.fleet w) t
    return ()
  | .releaseOwned => do
    let _ ← releaseOwned (D.fleet w)
    return ()
  | .resize target => updateMem fun m => { m with poolMax := m.poolMax.map fun _ => max target 1 }

def machine (D : Deployment) (K : Contract) : Machine Req Resp Worker Choice World Env Job where
  exec := exec K
  job := D.job
  env := envStep
  reset w s := s.setMem w (Memory.init (D.config w))

def init (D : Deployment) : World where
  table := fun _ => none
  history := []
  stream := ⟨[], [], fun _ => [], fun _ => false⟩
  mem := fun w => Memory.init (D.config w)
  clock := 0
  trace := []

def Reachable (D : Deployment) (K : Contract) (p : Pool Req Resp Worker World) : Prop :=
  (Pool.idle D.init).Reaches (D.machine K) p

end Deployment

/-- A source that is nothing but the stream service under the contract of `get_records`. -/
def contractSource : AsyncStreamSource where
  describeShards := (Prog.req Req.describeShards : Fx (Except AwsError _)).bind fun r =>
    .ret (r.mapError fun e => .box (.sdk e))
  getRecords shard after := (Prog.req (Req.getRecords shard after) : Fx (Except AwsError _)).bind fun r =>
    .ret (r.mapError fun e => .box (.sdk e))
  describeChildShards parent := (Prog.req (Req.describeChildShards parent) : Fx (Except AwsError _)).bind fun r =>
    .ret (r.mapError fun e => .box (.sdk e))

/-! ## Runs without faults -/

def exactContract : Contract where
  reads log closed after start n shardEnd :=
    start == position log after && decide (start + n ≤ log.length) &&
      (!shardEnd || closed && start + n == log.length)
  acks records q := (records.map Record.seq).contains q

theorem exactContract_acksBatch : exactContract.AcksBatch := by
  intro records q h
  simpa [exactContract] using h

def World.rows (s : World) : List Lease := (s.history.map Lease.leaseKey).dedup.filterMap s.table

/-- A scan that returned the table as it is. -/
def Scan (s : World) (rows : List Lease) : Prop := ∀ k r, s.table k = some r ↔ r ∈ rows ∧ r.leaseKey = k

/-- A service that answers every request in full: fresh scans, reads to the end of the log, and a
consumer that acks whole batches. -/
def World.serve (s : World) : Req → Choice
  | .scan => .rows s.rows
  | .hashOrder => .order []
  | .getRecords shard after =>
    let start := position (s.stream.log shard) after
    .batch start ((s.stream.log shard).length - start) (s.stream.closed shard)
  | .getRecordsAt it _ => .batch it.pos ((s.stream.log it.shard).length - it.pos) (s.stream.closed it.shard)
  | .deliver _ records => (records.getLast?.map fun r => Choice.acked r.seq).getD .unacked
  | _ => .ok

abbrev FleetPool := Pool Req Resp Worker World

namespace Deployment

def envs (D : Deployment) (K : Contract) : List Env → FleetPool → FleetPool
  | [], p => p
  | e :: es, p => D.envs K es (p.attempt (D.machine K) (.env e))

def perform (D : Deployment) (K : Contract) (oracle : World → Req → Choice) (w : Worker) (j : Job) (n : Nat)
    (p : FleetPool) : FleetPool :=
  (p.attempt (D.machine K) (.start w j)).drive (D.machine K) oracle w [[], [0], [1]] n

theorem reaches_envs {D : Deployment} {K : Contract} : ∀ {es : List Env} (p : FleetPool),
    p.Reaches (D.machine K) (D.envs K es p)
  | [], p => ⟨[], rfl⟩
  | e :: es, p => by
    unfold envs
    exact (Pool.reaches_attempt _ p _).trans _ (reaches_envs _)

theorem reaches_perform {D : Deployment} {K : Contract} {oracle : World → Req → Choice} {w : Worker} {j : Job}
    {n : Nat} {p q : FleetPool} (h : q.Reaches (D.machine K) p) :
    q.Reaches (D.machine K) (D.perform K oracle w j n p) :=
  (h.trans _ (Pool.reaches_attempt _ p _)).trans _ (Pool.reaches_drive _)

theorem reachable_envs {D : Deployment} {K : Contract} {es : List Env} {p : FleetPool} (h : D.Reachable K p) :
    D.Reachable K (D.envs K es p) :=
  Pool.Reaches.trans _ h (reaches_envs p)

theorem reachable_perform {D : Deployment} {K : Contract} {oracle : World → Req → Choice} {w : Worker} {j : Job}
    {n : Nat} {p : FleetPool} (h : D.Reachable K p) : D.Reachable K (D.perform K oracle w j n p) :=
  reaches_perform h

theorem reachable_idle (D : Deployment) (K : Contract) : D.Reachable K (Pool.idle D.init) := ⟨[], rfl⟩

end Deployment

def plainConfig (start : InitialPosition) (w : Worker) : FleetConfig := ⟨w, 10, 30000, 1000, start, none, none⟩

theorem plainConfig_owner (start : InitialPosition) (w : Worker) : (plainConfig start w).owner = w := rfl

def plainFleet : Deployment := ⟨contractSource, plainConfig .trimHorizon, plainConfig_owner _⟩

end StreamsConsumer
