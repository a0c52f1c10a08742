import StreamsConsumer.Conc.Solo
import StreamsConsumer.Lease.Store
import StreamsConsumer.Worker.Pass

/-!
# The requests of a pass

Which requests a pass issues besides its reads and deliveries: persisting an
ack, giving up a lost lease, and ending the shard. A property of these requests
carries over to the parts of the pass.
-/

namespace StreamsConsumer
open Conc

structure Persisting (P : Req → Prop) : Prop where
  mem : ∀ {β : Type} (f : Memory → β × Memory), P (.mem f)
  now : P .now
  sleep : ∀ ms, P (.sleep ms)
  checkpoint : ∀ key o c q, P (.db key (.checkpoint o c q))
  metric : ∀ m, P (.metric m)
  leaseLost : ∀ shard, P (.leaseLost shard)

structure Ending (P : Req → Prop) : Prop extends Persisting P where
  shardEnded : ∀ shard, P (.shardEnded shard)
  markComplete : ∀ key o c, P (.db key (.markComplete o c))

variable {P : Req → Prop}

theorem uses_retryThrottled {ε α : Type} {throttled : ε → Bool} {op : Fx (Except ε α)} (hop : Uses P op)
    (hsl : ∀ ms, P (.sleep ms)) : ∀ n delay, Uses P (retryThrottled throttled op n delay)
  | 0, _ => hop
  | n + 1, delay => by
    refine uses_bind hop ?_
    intro r
    cases r with
    | ok a => trivial
    | error e =>
      simp only
      split
      · exact ⟨hsl _, fun _ => uses_retryThrottled hop hsl n _⟩
      · trivial

theorem uses_conditionalWrite {α : Type} {key : ShardId} {op : DbOp} {x : α} (h : P (.db key op)) :
    Uses P (conditionalWrite key op x) := by
  refine ⟨h, fun r => ?_⟩
  cases r <;> trivial

section
variable (h : Persisting P)
include h

theorem uses_checkpoint (key : ShardId) (owner : Worker) (c : Nat) (q : SequenceNumber) :
    Uses P (dynamoDbLeaseStore.checkpoint key owner c q) := by
  refine uses_bind (uses_retryThrottled (uses_conditionalWrite (h.checkpoint _ _ _ _)) h.sleep _ _) ?_
  intro _
  trivial

theorem uses_withDefer {β : Type} (x : β) (f : CkptDefer → β × CkptDefer) : Uses P (withDefer x f) :=
  ⟨h.mem _, fun _ => trivial⟩

theorem uses_metric (m : Metric) : Uses P (metric m) := ⟨h.metric m, fun _ => trivial⟩

theorem uses_lostLease (shard : ShardId) : Uses P (lostLease shard) :=
  ⟨h.metric _, fun _ => ⟨h.leaseLost shard, fun _ => trivial⟩⟩

theorem uses_giveUp {α : Type} (shard : ShardId) (x : α) :
    Uses P ((forgetPending shard).bind fun _ => (lostLease shard).bind fun _ => (.ret x : Fx α)) :=
  uses_bind (uses_withDefer h _ _) fun _ => uses_bind (uses_lostLease h _) fun _ => trivial

theorem uses_persistAck (task : ShardTask) (c : Nat) (q : SequenceNumber) :
    Uses P (persistAck dynamoDbLeaseStore task c q) := by
  unfold persistAck
  split
  · refine uses_bind (p := now) ⟨h.now, fun _ => trivial⟩ ?_
    intro t
    refine uses_bind (uses_withDefer h _ _) ?_
    intro r
    split
    · trivial
    · refine uses_bind (uses_checkpoint h ..) ?_
      intro r
      split
      · exact uses_bind (uses_withDefer h _ _) fun _ => trivial
      · exact uses_giveUp h _ _
  · refine uses_bind (uses_checkpoint h ..) ?_
    intro r
    split
    · trivial
    · exact uses_bind (uses_lostLease h _) fun _ => trivial

end

section
variable (h : Ending P)
include h

theorem uses_completeShard (task : ShardTask) (c : Nat) : Uses P (completeShard dynamoDbLeaseStore task c) := by
  refine uses_bind (p := shardEnded task.shard) ⟨h.shardEnded _, fun _ => trivial⟩ ?_
  intro _
  refine uses_bind (p := dynamoDbLeaseStore.markComplete task.shard task.owner c) ?_ ?_
  · exact uses_bind (uses_conditionalWrite (h.markComplete _ _ _)) fun _ => trivial
  · intro _
    exact uses_bind (uses_metric h.toPersisting _) fun _ => trivial

theorem uses_endShard (task : ShardTask) (c : Nat) : Uses P (endShard dynamoDbLeaseStore task c) := by
  have hdefer := fun {β : Type} (x : β) f => uses_withDefer h.toPersisting x f
  unfold endShard
  split
  · refine uses_bind (hdefer _ _) ?_
    intro r
    split
    · refine uses_bind (uses_checkpoint h.toPersisting ..) ?_
      intro r
      split
      · exact uses_bind (hdefer _ _) fun _ => uses_completeShard h _ _
      · exact uses_giveUp h.toPersisting _ _
    · exact uses_bind (hdefer _ _) fun _ => uses_completeShard h _ _
  · exact uses_completeShard h _ _

end

end StreamsConsumer
