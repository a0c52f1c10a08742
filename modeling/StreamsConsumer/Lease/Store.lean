import StreamsConsumer.Worker.Request

/-!
# The DynamoDB lease store

`DynamoDbLeaseStore` of `lease-dynamodb/src/dynamodb.rs`, request by request,
and its `AsyncLeaseStore` face of `worker/src/aws.rs`. `acquire` is up to
three requests: a create-if-absent put, a read, and a claim on what was read.
-/

namespace StreamsConsumer
open Conc

def classify (e : AwsError) : LeaseError :=
  if e.code = some CONDITIONAL_CHECK_FAILED then .lost
  else
    match e.code with
    | some c => if THROTTLE_CODES.contains c then .throttled (.sdk e) else .aws (.sdk e)
    | none => .aws (.sdk e)

def LeaseError.isThrottled : LeaseError → Bool
  | .throttled _ => true
  | _ => false

def withThrottleRetry {α : Type} (op : Fx (Except LeaseError α)) : Fx (Except LeaseError α) :=
  retryThrottled LeaseError.isThrottled op 4 50

def dbRequest (key : ShardId) (op : DbOp) : Fx (Except AwsError Nat) := Prog.req (Req.db key op)

/-- One conditional write; `a` is what the call returns when it succeeds. -/
def conditionalWrite {α : Type} (key : ShardId) (op : DbOp) (a : α) : Fx (Except LeaseError α) :=
  (dbRequest key op).bind fun
    | .ok _ => .ret (.ok a)
    | .error e => .ret (.error (classify e))

namespace DynamoDbLeaseStore

def listAll : Fx (Except AwsError (List Lease)) := Prog.req Req.scan

def get (key : ShardId) : Fx (Except AwsError (Option Lease)) := Prog.req (Req.getItem key)

def claim (key : ShardId) (owner : Worker) (seenCounter : Nat) : Fx (Except LeaseError Lease) :=
  conditionalWrite key (.claim owner seenCounter) ⟨key, some owner, seenCounter + 1, false, none, []⟩

def acquire (key : ShardId) (owner : Worker) : Fx (Except LeaseError Lease) :=
  (dbRequest key (.put owner)).bind fun
    | .ok _ => .ret (.ok ⟨key, some owner, 1, false, none, []⟩)
    | .error e =>
      if e.code ≠ some CONDITIONAL_CHECK_FAILED then .ret (.error (.aws (.sdk e)))
      else
        (get key).bind fun
          | .error e => .ret (.error (.aws (.sdk e)))
          | .ok none => .ret (.error (.aws (.text "lease vanished")))
          | .ok (some current) => claim key owner current.leaseCounter

def renew (key : ShardId) (owner : Worker) (counter : Nat) : Fx (Except LeaseError Nat) :=
  withThrottleRetry (conditionalWrite key (.renew owner counter) (counter + 1))

def checkpoint (key : ShardId) (owner : Worker) (counter : Nat) (seq : SequenceNumber) :
    Fx (Except LeaseError Nat) :=
  withThrottleRetry (conditionalWrite key (.checkpoint owner counter seq) (counter + 1))

def heartbeat (worker : Worker) : Fx (Except LeaseError Nat) :=
  withThrottleRetry ((dbRequest (heartbeatKey worker) (.heartbeat worker)).bind fun
    | .ok n => .ret (.ok n)
    | .error e => .ret (.error (classify e)))

def markComplete (key : ShardId) (owner : Worker) (counter : Nat) : Fx (Except LeaseError Unit) :=
  conditionalWrite key (.markComplete owner counter) ()

def deleteLease (key : ShardId) : Fx (Except LeaseError Unit) := conditionalWrite key .deleteLease ()

def release (key : ShardId) (owner : Worker) (counter : Nat) : Fx (Except LeaseError Unit) :=
  conditionalWrite key (.release owner counter) ()

def createShardLease (key : ShardId) (parents : List ShardId) (cp : Option SequenceNumber) :
    Fx (Except LeaseError Unit) :=
  (dbRequest key (.createShardLease parents cp)).bind fun
    | .ok _ => .ret (.ok ())
    | .error e =>
      if e.code = some CONDITIONAL_CHECK_FAILED then .ret (.ok ()) else .ret (.error (.aws (.sdk e)))

def bid (key : ShardId) (op : DbOp) (counter : Nat) : Fx (Except LeaseError (Option Nat)) :=
  (dbRequest key op).bind fun
    | .ok _ => .ret (.ok (some counter))
    | .error e =>
      if e.code = some CONDITIONAL_CHECK_FAILED then .ret (.ok none) else .ret (.error (.aws (.sdk e)))

def tryAcquireLeadership (key : ShardId) (owner : Worker) :
    Option Nat → Fx (Except LeaseError (Option Nat))
  | none => bid key (.put owner) 1
  | some c => bid key (.claim owner c) (c + 1)

end DynamoDbLeaseStore

def boxLease {α : Type} (p : Fx (Except LeaseError α)) : Fx (Except WorkerError α) :=
  p.bind fun r => .ret (r.mapError WorkerError.lease)

def dynamoDbLeaseStore : AsyncLeaseStore where
  list := DynamoDbLeaseStore.listAll.bind fun r => .ret (r.mapError fun e => .box (.sdk e))
  acquire key owner := boxLease ((DynamoDbLeaseStore.acquire key owner).bind fun r =>
    .ret (r.map fun l => ⟨l.owner.getD "", l.leaseCounter, l.checkpoint⟩))
  renew key owner counter := boxLease (DynamoDbLeaseStore.renew key owner counter)
  heartbeat worker := boxLease (DynamoDbLeaseStore.heartbeat worker)
  checkpoint key owner counter seq := boxLease (DynamoDbLeaseStore.checkpoint key owner counter seq)
  markComplete key owner counter := boxLease (DynamoDbLeaseStore.markComplete key owner counter)
  release key owner counter := boxLease (DynamoDbLeaseStore.release key owner counter)
  deleteLease key := boxLease (DynamoDbLeaseStore.deleteLease key)
  createShardLease key parents cp := boxLease (DynamoDbLeaseStore.createShardLease key parents cp)
  tryAcquireLeadership key owner expected := boxLease (DynamoDbLeaseStore.tryAcquireLeadership key owner expected)

end StreamsConsumer
