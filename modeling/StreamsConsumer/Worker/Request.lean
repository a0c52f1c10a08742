import StreamsConsumer.Conc.Logic
import StreamsConsumer.Lease.Table
import StreamsConsumer.Worker.Memory

/-!
# Requests of a worker

Everything a worker does besides computing: calls to the lease table, the
stream and the consumer, one locked access to its own memory, and reading the
clock. The traits of `worker/src/lib.rs` are records of programs over these.
-/

namespace StreamsConsumer
open Conc

inductive Metric where
  | leaseAcquired (key : ShardId)
  | leasesHeld (n : Nat)
  | maxProcessingConcurrency (n : Nat)
  | processingQueueDepth (n : Nat)
  | processingSlotWait (shard : ShardId) (ms : Nat)
  | describeStream
  | leaseLost (shard : ShardId)
  | batch (shard : ShardId) (records bytes : Nat) (millisBehindLatest : Option Int)
  | shardEnd (shard : ShardId)
  deriving DecidableEq, Repr

inductive ShardIteratorType where
  | trimHorizon
  | latest
  | afterSequenceNumber
  deriving DecidableEq, Repr

inductive Req : Type 1 where
  | scan
  | getItem (key : ShardId)
  | db (key : ShardId) (op : DbOp)
  | describeShards
  | describeChildShards (parent : ShardId)
  | getRecords (shard : ShardId) (after : Option SequenceNumber)
  | getShardIterator (shard : ShardId) (type : ShardIteratorType) (seq : Option SequenceNumber)
  | getRecordsAt (iterator : ShardIterator) (limit : Option Int)
  | createConsumer (shard : ShardId)
  | deliver (shard : ShardId) (records : List Record)
  | shardEnded (shard : ShardId)
  | leaseLost (shard : ShardId)
  | mem {β : Type} (f : Memory → β × Memory)
  | now
  | sleep (ms : Nat)
  | hashOrder
  | metric (m : Metric)

def Resp : Req → Type
  | .scan => Except AwsError (List Lease)
  | .getItem _ => Except AwsError (Option Lease)
  | .db _ _ => Except AwsError Nat
  | .describeShards => Except AwsError (List ShardMeta)
  | .describeChildShards _ => Except AwsError (List ShardMeta)
  | .getRecords _ _ => Except AwsError RecordBatch
  | .getShardIterator _ _ _ => Except AwsError (Option ShardIterator)
  | .getRecordsAt _ _ => Except AwsError (List Record × Option Int × Option ShardIterator)
  | .createConsumer _ => Unit
  | .deliver _ _ => Except AwsError (Option SequenceNumber)
  | .shardEnded _ => Except AwsError Unit
  | .leaseLost _ => Except AwsError Unit
  | @Req.mem β _ => β
  | .now => Nat
  | .sleep _ => Unit
  | .hashOrder => List String
  | .metric _ => Unit

abbrev Fx (α : Type) := Prog Req Resp α

def accessMem {β : Type} (f : Memory → β × Memory) : Fx β := Prog.req (Req.mem f)

def updateMem (f : Memory → Memory) : Fx Unit := accessMem fun m => ((), f m)

def metric (m : Metric) : Fx Unit := Prog.req (Req.metric m)

def now : Fx Nat := Prog.req Req.now

def sleep (ms : Nat) : Fx Unit := Prog.req (Req.sleep ms)

/-- The order in which the next hash map or set is iterated. -/
def hashOrder : Fx (List String) := Prog.req Req.hashOrder

/-! ## Errors -/

inductive BoxError where
  | sdk (e : AwsError)
  | text (msg : String)
  deriving DecidableEq, Repr

inductive LeaseError where
  | lost
  | throttled (e : BoxError)
  | aws (e : BoxError)
  deriving DecidableEq, Repr

inductive WorkerError where
  | lease (e : LeaseError)
  | box (e : BoxError)
  deriving DecidableEq, Repr

def attempt {ε α β : Type} (p : Fx (Except ε α)) (k : α → Fx (Except ε β)) : Fx (Except ε β) :=
  p.bind fun
    | .error e => .ret (.error e)
    | .ok a => k a

/-- Retry `op` while it is throttled, at most `n` more times, with a capped exponential backoff. -/
def retryThrottled {ε α : Type} (throttled : ε → Bool) (op : Fx (Except ε α)) : Nat → Nat → Fx (Except ε α)
  | 0, _ => op
  | n + 1, delayMs =>
    op.bind fun
      | .error e =>
        if throttled e then (sleep delayMs).bind fun _ => retryThrottled throttled op n (min (delayMs * 2) 800)
        else .ret (.error e)
      | .ok a => .ret (.ok a)

/-! ## The traits of the worker -/

structure LeaseHandle where
  owner : Worker
  counter : Nat
  checkpoint : Option SequenceNumber
  deriving DecidableEq, Repr

structure AsyncStreamSource where
  describeShards : Fx (Except WorkerError (List ShardMeta))
  getRecords : ShardId → Option SequenceNumber → Fx (Except WorkerError RecordBatch)
  describeChildShards : ShardId → Fx (Except WorkerError (List ShardMeta))

structure AsyncLeaseStore where
  list : Fx (Except WorkerError (List Lease))
  acquire : ShardId → Worker → Fx (Except WorkerError LeaseHandle)
  renew : ShardId → Worker → Nat → Fx (Except WorkerError Nat)
  heartbeat : Worker → Fx (Except WorkerError Nat)
  checkpoint : ShardId → Worker → Nat → SequenceNumber → Fx (Except WorkerError Nat)
  markComplete : ShardId → Worker → Nat → Fx (Except WorkerError Unit)
  release : ShardId → Worker → Nat → Fx (Except WorkerError Unit)
  deleteLease : ShardId → Fx (Except WorkerError Unit)
  createShardLease : ShardId → List ShardId → Option SequenceNumber → Fx (Except WorkerError Unit)
  tryAcquireLeadership : ShardId → Worker → Option Nat → Fx (Except WorkerError (Option Nat))

end StreamsConsumer
