import Mathlib.Data.List.Infix
import StreamsConsumer.Worker.World

/-!
# The DynamoDB Streams source

`DdbStreamsSource` of `source-ddbstreams/src/aws.rs`. It keeps, for each shard,
the iterator that continues its last read and the position it continues from,
and derives a fresh one when the caller asks for another position.
-/

namespace StreamsConsumer
open Conc

structure DdbStreamsSource where
  /-- The text that the SDK gives an error; the errors to heal or to retry are told by what it mentions. -/
  display : AwsError → String
  maxRecords : Option Int

def cursorContinues (cursorAfter requested : Option SequenceNumber) : Bool := cursorAfter == requested

def advancedAfter (requested lastSeq : Option SequenceNumber) : Option SequenceNumber := lastSeq.or requested

def iteratorRequest (after : Option SequenceNumber) : ShardIteratorType × Option SequenceNumber :=
  match StartPosition.fromCheckpoint after with
  | .after s => (.afterSequenceNumber, some s)
  | .latest => (.latest, none)
  | .trimHorizon => (.trimHorizon, none)

def deriveIterator (shard : ShardId) (after : Option SequenceNumber) : Fx (Except BoxError (Option ShardIterator)) :=
  (Prog.req (Req.getShardIterator shard (iteratorRequest after).1 (iteratorRequest after).2) :
    Fx (Except AwsError _)).bind fun r => .ret (r.mapError .sdk)

def cachedIterator (shard : ShardId) (after : Option SequenceNumber) : Fx (Option ShardIterator) :=
  accessMem fun m => (((m.cursors shard).filter fun c => cursorContinues c.after after).map Cursor.iterator, m)

/-- No iterator means that the shard has ended: there is nothing more to thread. -/
def storeCursor (shard : ShardId) (after : Option SequenceNumber) (iterator : Option ShardIterator) : Fx Unit :=
  updateMem fun m => { m with cursors := Function.update m.cursors shard (iterator.map fun it => ⟨after, it⟩) }

def dropCursor (shard : ShardId) : Fx Unit :=
  updateMem fun m => { m with cursors := Function.update m.cursors shard none }

/-- What a `GetRecords` call returns: records, when the newest was created, and the next iterator. -/
abbrev Page := List Record × Option Int × Option ShardIterator

def sendGetRecords (limit : Option Int) (it : ShardIterator) : Fx (Except BoxError Page) :=
  (Prog.req (Req.getRecordsAt it limit) : Fx (Except AwsError Page)).bind fun r => .ret (r.mapError .sdk)

def endOfShard : RecordBatch := ⟨[], true, none⟩

namespace DdbStreamsSource

variable (src : DdbStreamsSource)

def message : BoxError → String
  | .sdk e => src.display e
  | .text msg => msg

def mentions (names : List String) (e : BoxError) : Bool :=
  names.any fun name => decide (name.toList <:+: (src.message e).toList)

def isRecoverable : BoxError → Bool :=
  src.mentions ["TrimmedDataAccessException", "ExpiredIteratorException", "ResourceNotFoundException"]

def isThrottling : BoxError → Bool :=
  src.mentions ["ProvisionedThroughputExceededException", "ThrottlingException", "RequestLimitExceeded",
    "LimitExceededException"]

def withThrottleRetry {α : Type} (op : Fx (Except BoxError α)) : Fx (Except BoxError α) :=
  retryThrottled src.isThrottling op 4 100

/-- The iterator to read from: the threaded one or a fresh one. `inr` ends the call. -/
def obtainIterator (shard : ShardId) (after : Option SequenceNumber) :
    Fx (ShardIterator ⊕ Except BoxError RecordBatch) := do
  match ← cachedIterator shard after with
  | some it => return .inl it
  | none =>
    match ← deriveIterator shard after with
    | .ok (some it) => return .inl it
    | .ok none =>
      dropCursor shard
      return .inr (.ok endOfShard)
    | .error e =>
      if src.isRecoverable e && after.isSome then
        -- the checkpoint is too old: restart at TRIM_HORIZON
        match ← deriveIterator shard none with
        | .ok (some it) => return .inl it
        | .ok none => return .inr (.ok endOfShard)
        | .error e => return .inr (.error e)
      else return .inr (.error e)

/-- Read a page, healing an expired or trimmed iterator once. `inr` ends the call. -/
def readPage (shard : ShardId) (after : Option SequenceNumber) (it : ShardIterator) :
    Fx (Page ⊕ Except BoxError RecordBatch) := do
  match ← src.withThrottleRetry (sendGetRecords src.maxRecords it) with
  | .ok page => return .inl page
  | .error e =>
    if src.isRecoverable e then
      dropCursor shard
      match ← deriveIterator shard after with
      | .ok (some fresh) =>
        match ← sendGetRecords src.maxRecords fresh with
        | .ok page => return .inl page
        | .error e => return .inr (.error e)
      | .ok none => return .inr (.ok endOfShard)
      | .error e => return .inr (.error e)
    else return .inr (.error e)

def millisBehindLatest : Option Int → Fx (Option Int)
  | none => return none
  | some created => do
    let t ← now
    return some (max (t - created) 0)

def decodeRecords (shard : ShardId) (records : List Record) : List Record :=
  (records.filter fun r => r.seq ≠ "").map fun r => { r with shardId := shard }

def getRecords (shard : ShardId) (after : Option SequenceNumber) : Fx (Except BoxError RecordBatch) := do
  match ← src.obtainIterator shard after with
  | .inr r => return r
  | .inl it =>
    match ← src.readPage shard after it with
    | .inr r => return r
    | .inl (page, created, next) =>
      let records := decodeRecords shard page
      storeCursor shard (advancedAfter after (lastSeq records)) next
      let behind ← millisBehindLatest created
      return .ok ⟨records, next.isNone, behind⟩

end DdbStreamsSource

def ddbStreamsSource (src : DdbStreamsSource) : AsyncStreamSource where
  describeShards := contractSource.describeShards
  getRecords shard after := (src.getRecords shard after).bind fun r => .ret (r.mapError .box)
  describeChildShards := contractSource.describeChildShards

end StreamsConsumer
