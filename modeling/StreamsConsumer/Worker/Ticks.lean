import StreamsConsumer.Core.Expiry
import StreamsConsumer.Worker.Routine

/-!
# Who moves a coordinator

In all of `run_cycle` and `release_owned`, the only access to the memory of a
worker that changes its lease coordinator is the tick of `claimShare`, and a tick
changes nothing else.
-/

namespace StreamsConsumer
open Conc

/-- The request is the tick `t`. -/
def Ticking (t : Tick) : Req → Prop
  | .mem f => ∀ m, (f m).2 = { m with coordinator := m.coordinator.observe t.rows t.nowMs }
  | _ => False

/-- The request leaves the coordinator alone, or is a tick. -/
def Tends : Req → Prop
  | .mem f => (∀ m, (f m).2.coordinator = m.coordinator) ∨ ∃ t, Ticking t (.mem f)
  | _ => True

theorem asks_keep {β : Type} {f : Memory → β × Memory} (h : ∀ m, (f m).2.coordinator = m.coordinator) :
    Asks Tends (accessMem f) :=
  asks_req (Or.inl h)

theorem routine_tends : Routine Tends where
  scan := trivial
  getItem _ := trivial
  put _ _ := trivial
  claim _ _ _ := trivial
  renew _ _ _ := trivial
  heartbeat _ _ := trivial
  createShardLease _ _ _ := trivial
  deleteLease _ := trivial
  now := trivial
  sleep _ := trivial
  metric _ := trivial
  hashOrder := trivial
  plain _ hf := Or.inl fun m => (hf m).2
  tick _ rows nowMs := Or.inr ⟨⟨rows, nowMs⟩, fun _ => rfl⟩
  retain _ := Or.inl fun _ => rfl

theorem serving_tends (shard : ShardId) : Serving Tends shard where
  now := trivial
  sleep _ := trivial
  metric _ := trivial
  createConsumer := trivial
  deliver _ := trivial
  shardEnded := trivial
  leaseLost := trivial
  checkpoint _ _ _ := trivial
  markComplete _ _ := trivial
  release _ _ := trivial
  defer _ _ _ := by
    refine asks_keep ?_
    intro m
    cases m.ckptDefer <;> rfl

/-- The calls of a source leave the coordinator alone. -/
structure Uninvolved (source : AsyncStreamSource) : Prop where
  describeShards : Asks Tends source.describeShards
  getRecords : ∀ shard after, Asks Tends (source.getRecords shard after)
  describeChildShards : ∀ parent, Asks Tends (source.describeChildShards parent)

theorem uninvolved_contractSource : Uninvolved contractSource where
  describeShards := asks_bind (asks_req trivial) fun _ => trivial
  getRecords _ _ := asks_bind (asks_req trivial) fun _ => trivial
  describeChildShards _ := asks_bind (asks_req trivial) fun _ => trivial

theorem asks_reachable {D : Deployment} {K : Contract} (hsrc : Uninvolved D.source) {p : FleetPool}
    (hp : D.Reachable K p) (w : Worker) : Asks Tends (p.procs w) := by
  have hjob := asks_job routine_tends ⟨hsrc.describeShards, hsrc.describeChildShards⟩ hsrc.getRecords serving_tends
  exact Pool.Reaches.asks hjob hp (fun _ => trivial) w

end StreamsConsumer
