import Mathlib.Algebra.GroupWithZero.Nat
import StreamsConsumer.Worker.Request

/-!
# One pass over a shard

`process_shard` of `worker/src/fleet.rs`: deliver batch after batch, persist
what the consumer acks, complete the shard at its end. The loop ends on a lost
lease, a failed delivery, an empty batch, or the end of the shard.
-/

namespace StreamsConsumer
open Conc

structure ShardTask where
  owner : Worker
  shard : ShardId
  counter : Nat
  checkpoint : Option SequenceNumber
  deferred : Bool

structure PassState where
  after : Option SequenceNumber
  counter : Nat
  deliveredAny : Bool

def createConsumer (shard : ShardId) : Fx Unit := Prog.req (Req.createConsumer shard)

def deliver (shard : ShardId) (records : List Record) : Fx (Except AwsError (Option SequenceNumber)) :=
  Prog.req (Req.deliver shard records)

def shardEnded (shard : ShardId) : Fx (Except AwsError Unit) := Prog.req (Req.shardEnded shard)

def consumerLeaseLost (shard : ShardId) : Fx (Except AwsError Unit) := Prog.req (Req.leaseLost shard)

def withDefer {β : Type} (absent : β) (f : CkptDefer → β × CkptDefer) : Fx β :=
  accessMem fun m =>
    match m.ckptDefer with
    | none => (absent, m)
    | some d => ((f d).1, { m with ckptDefer := some (f d).2 })

def forgetPending (shard : ShardId) : Fx Unit := withDefer () fun d => ((), d.forget shard)

def lostLease (shard : ShardId) : Fx Unit := do
  metric (.leaseLost shard)
  let _ ← consumerLeaseLost shard
  return ()

/-- Persist or defer an ack. Returns the lease counter to go on with, or nothing when the lease is lost. -/
def persistAck (leases : AsyncLeaseStore) (task : ShardTask) (counter : Nat) (ack : SequenceNumber) :
    Fx (Option Nat) := do
  if task.deferred then
    let t ← now
    match ← withDefer none fun d => d.recordAck task.shard ack t with
    | none => return some counter
    | some due =>
      match ← leases.checkpoint task.shard task.owner counter due with
      | .ok c =>
        withDefer () fun d => ((), d.persisted task.shard t)
        return some c
      | .error _ =>
        forgetPending task.shard
        lostLease task.shard
        return none
  else
    match ← leases.checkpoint task.shard task.owner counter ack with
    | .ok c => return some c
    | .error _ =>
      lostLease task.shard
      return none

/-- Deliver a batch that is not empty. Returns the lease counter, or nothing when the pass has to stop. -/
def deliverRecords (leases : AsyncLeaseStore) (task : ShardTask) (counter : Nat) (records : List Record) :
    Fx (Option Nat) := do
  match ← deliver task.shard records with
  | .ok (some ack) => persistAck leases task counter ack
  | .ok none => return some counter
  | .error _ =>
    if task.deferred then forgetPending task.shard
    return none

def completeShard (leases : AsyncLeaseStore) (task : ShardTask) (counter : Nat) : Fx PassOutcome := do
  let _ ← shardEnded task.shard
  let _ ← leases.markComplete task.shard task.owner counter
  metric (.shardEnd task.shard)
  return .ended

def endShard (leases : AsyncLeaseStore) (task : ShardTask) (counter : Nat) : Fx PassOutcome := do
  if task.deferred then
    match ← withDefer none fun d => d.takePending task.shard with
    | some pending =>
      match ← leases.checkpoint task.shard task.owner counter pending with
      | .ok c =>
        forgetPending task.shard
        completeShard leases task c
      | .error _ =>
        forgetPending task.shard
        lostLease task.shard
        return .stopped
    | none =>
      forgetPending task.shard
      completeShard leases task counter
  else completeShard leases task counter

def lastSeq (records : List Record) : Option SequenceNumber := records.getLast?.map Record.seq

def batchMetric (shard : ShardId) (batch : RecordBatch) : Metric :=
  .batch shard batch.records.length (batch.records.map fun r => r.data.length).sum batch.millisBehindLatest

/-- One round of the loop: `inl` goes on, `inr` returns from the pass. -/
def passBody (source : AsyncStreamSource) (leases : AsyncLeaseStore) (task : ShardTask) (st : PassState) :
    Fx (PassState ⊕ Except WorkerError PassOutcome) := do
  match ← source.getRecords task.shard st.after with
  | .error e => return .inr (.error e)
  | .ok batch =>
    if batch.records.isEmpty then
      if batch.shardEnd then
        let outcome ← endShard leases task st.counter
        return .inr (.ok outcome)
      else return .inr (.ok (if st.deliveredAny then .active else .idle))
    else
      match ← deliverRecords leases task st.counter batch.records with
      | none => return .inr (.ok .stopped)
      | some counter =>
        metric (batchMetric task.shard batch)
        if batch.shardEnd then
          let outcome ← endShard leases task counter
          return .inr (.ok outcome)
        else return .inl ⟨lastSeq batch.records, counter, true⟩

def resumePosition (task : ShardTask) : Fx (Option SequenceNumber) := do
  if task.deferred then
    let pending ← withDefer none fun d => (d.resumeFrom task.shard, d)
    return pending.or task.checkpoint
  else return task.checkpoint

def processShard (source : AsyncStreamSource) (leases : AsyncLeaseStore) (task : ShardTask) :
    Fx (Except WorkerError PassOutcome) := do
  let after ← resumePosition task
  Prog.iter (passBody source leases task) ⟨after, task.counter, false⟩

end StreamsConsumer
