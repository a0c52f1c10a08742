import StreamsConsumer.Conc.Issues
import StreamsConsumer.Worker.Protocol
import StreamsConsumer.Worker.Routine
import StreamsConsumer.Worker.Site

/-!
# Reserved rows

Besides the shard leases the table holds the leader sentinel and one heartbeat
row for each worker. Every place that enumerates the table has its own filter
for them. `Fleet::owned_shards` and `graceful_handoff` of `sidecar/src/main.rs`
are modelled here; `owned_shards` drops the sentinel only.
-/

namespace StreamsConsumer
open Conc

def ownedKeys (rows : List Lease) (owner : Worker) : List ShardId :=
  (rows.filter fun r => r.owner == some owner && !r.completed && r.leaseKey != LEADER_LEASE_KEY).map Lease.leaseKey

def ownedShards (F : Fleet) : Fx (Except WorkerError (List ShardId)) :=
  attempt F.leases.list fun rows => .ret (.ok (ownedKeys rows F.config.owner))

/-! ## The handoff -/

universe u

structure LeaseHandoff (M : Type → Type u) where
  listOwned : M (Except WorkerError (List ShardId))
  releaseAllOwned : M (Except WorkerError Nat)

def fleetHandoff (F : Fleet) : LeaseHandoff (Prog Req Resp) := ⟨ownedShards F, releaseOwned F⟩

section
variable {M : Type → Type u} [Monad M]

def notifyAll (notifyShutdown : ShardId → M Unit) : List ShardId → M Unit
  | [] => pure ()
  | shard :: rest => do
    notifyShutdown shard
    notifyAll notifyShutdown rest

/-- The client hears of every owned shard, has some time, and only then the leases are released. -/
def gracefulHandoff (handoff : LeaseHandoff M) (notifyShutdown : ShardId → M Unit) (pause : Nat → M Unit)
    (gracefulShutdownTimeoutMs : Nat) : M Unit := do
  match ← handoff.listOwned with
  | .ok owned =>
    if owned.isEmpty then pure ()
    else
      notifyAll notifyShutdown owned
      pause gracefulShutdownTimeoutMs
  | .error _ => pure ()
  let _ ← handoff.releaseAllOwned
  return ()

end

/-- What an observer of the handoff sees. -/
inductive HandoffEvent where
  | shutdownRequested (shard : ShardId)
  | paused (ms : Nat)
  | released
  deriving DecidableEq, Repr

abbrev Observed (α : Type) := StateM (List HandoffEvent) α

def observe (e : HandoffEvent) : Observed Unit := modify fun es => es ++ [e]

def handoffOf (owned : Except WorkerError (List ShardId)) : LeaseHandoff (StateM (List HandoffEvent)) where
  listOwned := pure owned
  releaseAllOwned := do
    observe .released
    return .ok 0

def handoffEvents (owned : Except WorkerError (List ShardId)) (timeoutMs : Nat) : List HandoffEvent :=
  ((gracefulHandoff (handoffOf owned) (fun shard => observe (.shutdownRequested shard)) (fun ms => observe (.paused ms))
    timeoutMs).run []).2

theorem run_notifyAll : ∀ (owned : List ShardId) (es : List HandoffEvent),
    (notifyAll (fun shard => observe (.shutdownRequested shard)) owned).run es = ((), es ++ owned.map .shutdownRequested)
  | [], es => by
    rw [List.map_nil, List.append_nil]
    rfl
  | shard :: rest, es => by
    have ih := run_notifyAll rest (es ++ [.shutdownRequested shard])
    rw [List.append_assoc] at ih
    exact ih

theorem handoffEvents_ok (owned : List ShardId) (timeoutMs : Nat) :
    handoffEvents (.ok owned) timeoutMs =
      owned.map .shutdownRequested ++ (if owned.isEmpty then [] else [.paused timeoutMs]) ++ [.released] := by
  cases owned with
  | nil => rfl
  | cons shard rest =>
    have hsteps : handoffEvents (.ok (shard :: rest)) timeoutMs =
        ((notifyAll (fun shard => observe (.shutdownRequested shard)) (shard :: rest)).run []).2 ++ [.paused timeoutMs] ++
          [.released] := rfl
    rw [hsteps, run_notifyAll]
    simp

theorem mem_handoffEvents {owned : List ShardId} {timeoutMs : Nat} {shard : ShardId} :
    .shutdownRequested shard ∈ handoffEvents (.ok owned) timeoutMs ↔ shard ∈ owned := by
  rw [handoffEvents_ok]
  split <;> simp

/-! ### What it writes -/

/-- The requests that write to these rows only. -/
def WritesTo (keys : List ShardId) : Req → Prop
  | .db key _ => key ∈ keys
  | _ => True

theorem serving_writesTo {keys : List ShardId} {shard : ShardId} (h : shard ∈ keys) : Serving (WritesTo keys) shard where
  now := trivial
  sleep _ := trivial
  metric _ := trivial
  createConsumer := trivial
  deliver _ := trivial
  shardEnded := trivial
  leaseLost := trivial
  checkpoint _ _ _ := h
  markComplete _ _ := h
  release _ _ := h
  defer _ _ _ := asks_req trivial

theorem writes_releaseRows {F : Fleet} (hF : F.leases = dynamoDbLeaseStore) {keys : List ShardId} :
    ∀ {rows : List Lease} {n : Nat}, (∀ r ∈ rows, r.owner = some F.config.owner → r.completed = false →
      r.leaseKey ∈ keys) → Asks (WritesTo keys) (releaseRows F rows n)
  | [], _, _ => trivial
  | r :: rows, n, h => by
    have hrest : ∀ n, Asks (WritesTo keys) (releaseRows F rows n) :=
      fun n => writes_releaseRows hF fun r hr => h r (List.mem_cons_of_mem _ hr)
    unfold releaseRows
    split
    · rename_i hown
      simp only [Bool.and_eq_true, beq_iff_eq, Bool.not_eq_true'] at hown
      exact asks_bind (asks_releaseRow hF (serving_writesTo (h r List.mem_cons_self hown.1 hown.2))) fun _ => hrest _
    · exact hrest n

section
variable {cfg : FleetConfig} {ok : (r : Req) → Resp r → Prop} {key : ShardId} {op : DbOp}

theorem not_issues_db {α : Type} {p : Fx α} (hp : Asks (WritesTo []) p) : ¬ Issues ok p (.db key op) :=
  fun h => List.not_mem_nil (Issues.of_asks (P := WritesTo []) h hp)

theorem issues_releaseOwned (h : Issues ok (releaseOwned (contractFleet cfg)) (.db key op)) :
    ∃ rows, ok .scan (.ok rows) ∧ (key ∈ ownedKeys rows cfg.owner ∨ key = LEADER_LEASE_KEY) := by
  rcases issues_bind.mp h with h | ⟨x, hx, h⟩
  · exact absurd h (not_issues_db (asks_bind (asks_req trivial) fun _ => trivial))
  obtain ⟨a, ha, hx⟩ := returns_bind.mp hx
  have ha := returns_req.mp ha
  rw [returns_ret] at hx
  cases x with
  | error e => exact absurd h not_issues_ret
  | ok rows =>
    obtain rfl := mapError_eq_ok hx.symm
    refine ⟨rows, ha, ?_⟩
    have hwrites : Asks (WritesTo (LEADER_LEASE_KEY :: ownedKeys rows cfg.owner))
        ((releaseRows (contractFleet cfg) rows 0).bind fun n => (.ret (.ok n) : Fx (Except WorkerError Nat))) := by
      refine asks_bind (writes_releaseRows rfl ?_) fun _ => trivial
      intro r hr ho hc
      replace ho : r.owner = some cfg.owner := ho
      by_cases hlead : r.leaseKey = LEADER_LEASE_KEY
      · exact hlead ▸ List.mem_cons_self
      · exact List.mem_cons_of_mem _ (List.mem_map_of_mem (List.mem_filter.mpr ⟨hr, by simp [ho, hc, hlead]⟩))
    exact (List.mem_cons.mp (Issues.of_asks (P := WritesTo _) h hwrites)).symm

/-- At shutdown a worker writes only to rows that a scan showed as its own: those that it announces, and the sentinel. -/
theorem handoff_writes {notify : ShardId → Fx Unit} (hnotify : ∀ shard, Asks (WritesTo []) (notify shard)) {timeoutMs : Nat}
    (h : Issues ok (gracefulHandoff (fleetHandoff (contractFleet cfg)) notify sleep timeoutMs) (.db key op)) :
    ∃ rows, ok .scan (.ok rows) ∧ (key ∈ ownedKeys rows cfg.owner ∨ key = LEADER_LEASE_KEY) := by
  have hall : ∀ owned, Asks (WritesTo []) (notifyAll notify owned) := by
    intro owned
    induction owned with
    | nil => trivial
    | cons shard rest ih => exact asks_bind (hnotify shard) fun _ => ih
  have hrelease : Issues ok ((releaseOwned (contractFleet cfg)).bind fun _ => .ret ()) (.db key op) →
      ∃ rows, ok .scan (.ok rows) ∧ (key ∈ ownedKeys rows cfg.owner ∨ key = LEADER_LEASE_KEY) := by
    intro h
    rcases issues_bind.mp h with h | ⟨_, -, h⟩
    · exact issues_releaseOwned h
    · exact absurd h not_issues_ret
  rcases issues_bind.mp h with h | ⟨owned, -, h⟩
  · exact absurd h (not_issues_db (asks_attempt (asks_bind (asks_req trivial) fun _ => trivial) fun _ => trivial))
  cases owned with
  | error e => exact hrelease h
  | ok owned =>
    simp only [Prog.pure_eq, Prog.bind_eq] at h
    split at h
    · exact hrelease h
    · rcases issues_bind.mp h with h | ⟨_, -, h⟩
      · exact absurd h (not_issues_db (hall owned))
      rcases issues_bind.mp h with h | ⟨_, -, h⟩
      · exact absurd h (not_issues_db (asks_req trivial))
      · exact hrelease h

end

/-! ## Which rows are taken for shards -/

/-- The shard leases of a worker that are not completed. -/
def ownShardKeys (rows : List Lease) (owner : Worker) : List ShardId :=
  (rows.filter fun r => isShardKey r.leaseKey && (r.owner == some owner && !r.completed)).map Lease.leaseKey

/-- Whoever reads these rows takes only shard rows for shards: the coordinator, the passes of a cycle with and
without the pool, the cleanup, and the handoff of `owner`. -/
structure ReservedIgnored (rows : List Lease) (owner : Worker) : Prop where
  ticked : ∀ order (c : LeaseCoordinator) nowMs,
    ∀ k ∈ (c.tick order (rows.filter fun r => r.leaseKey ≠ LEADER_LEASE_KEY) nowMs).1,
      k ∈ (shardMetasFromLeases rows).map ShardMeta.id
  processed : ∀ it ∈ eligibleOwned (rows.filter fun r => isShardKey r.leaseKey) owner,
    it.1 ∈ (shardMetasFromLeases rows).map ShardMeta.id
  queued : ∀ sched t, ∀ it ∈ (refreshSched sched (eligibleOwned (rows.filter fun r => isShardKey r.leaseKey) owner) t).1,
    it.shard ∈ (shardMetasFromLeases rows).map ShardMeta.id
  deleted : ∀ k ∈ leasesSafeToDelete (shardMetasFromLeases rows) (cleanupState rows),
    k ∈ (shardMetasFromLeases rows).map ShardMeta.id
  owned : ∀ k ∈ ownedKeys rows owner, k ∈ (shardMetasFromLeases rows).map ShardMeta.id
  exact : ownedKeys rows owner = ownShardKeys rows owner
  announced : ∀ timeoutMs k, .shutdownRequested k ∈ handoffEvents (.ok (ownedKeys rows owner)) timeoutMs ↔
    k ∈ ownShardKeys rows owner

section
variable {rows : List Lease} {owner : Worker}

theorem mem_shardKeys {k : ShardId} :
    k ∈ (shardMetasFromLeases rows).map ShardMeta.id ↔ ∃ r ∈ rows, isShardKey r.leaseKey = true ∧ r.leaseKey = k := by
  simp only [shardMetasFromLeases, List.map_map, List.mem_map, List.mem_filter, Function.comp_apply, and_assoc]

theorem tick_shardKeys {order : List Worker} {c : LeaseCoordinator} {nowMs : Nat} {k : ShardId}
    (h : k ∈ (c.tick order (rows.filter fun r => r.leaseKey ≠ LEADER_LEASE_KEY) nowMs).1) :
    k ∈ (shardMetasFromLeases rows).map ShardMeta.id := by
  obtain ⟨r, hr, rfl, _, hhb⟩ := mem_tick h
  rw [List.mem_filter] at hr
  refine mem_shardKeys.mpr ⟨r, hr.1, ?_, rfl⟩
  have hne : r.leaseKey ≠ LEADER_LEASE_KEY := by simpa using hr.2
  simp [isShardKey, hne, hhb]

theorem eligibleOwned_shardKeys {it : ShardId × Nat × Option SequenceNumber}
    (h : it ∈ eligibleOwned (rows.filter fun r => isShardKey r.leaseKey) owner) :
    it.1 ∈ (shardMetasFromLeases rows).map ShardMeta.id := by
  obtain ⟨r, hr, _, _, hk, rfl⟩ := Protocol.mem_eligibleOwned h
  exact mem_shardKeys.mpr ⟨r, (List.mem_filter.mp hr).1, hk, rfl⟩

theorem ownShardKeys_shardKeys {k : ShardId} (h : k ∈ ownShardKeys rows owner) :
    k ∈ (shardMetasFromLeases rows).map ShardMeta.id := by
  obtain ⟨r, hr, rfl⟩ := List.mem_map.mp h
  rw [List.mem_filter, Bool.and_eq_true] at hr
  exact mem_shardKeys.mpr ⟨r, hr.1, hr.2.1, rfl⟩

theorem ownedKeys_heartbeat {r : Lease} (hr : r ∈ rows) (ho : r.owner = some owner) (hc : r.completed = false)
    (hk : isHeartbeatKey r.leaseKey = true) : r.leaseKey ∈ ownedKeys rows owner := by
  have hne : r.leaseKey ≠ LEADER_LEASE_KEY := by
    intro he
    rw [he] at hk
    revert hk
    decide
  refine List.mem_map_of_mem (List.mem_filter.mpr ⟨hr, ?_⟩)
  simp [ho, hc, hne]

theorem ownedKeys_eq (h : ∀ r ∈ rows, r.owner = some owner → r.completed = false → isHeartbeatKey r.leaseKey = false) :
    ownedKeys rows owner = ownShardKeys rows owner := by
  unfold ownedKeys ownShardKeys
  congr 1
  refine List.filter_congr ?_
  intro r hr
  unfold isShardKey
  by_cases hown : r.owner = some owner ∧ r.completed = false
  · simp [hown.1, hown.2, h r hr hown.1 hown.2]
  · by_cases ho : r.owner = some owner
    · have hc : r.completed = true := by simpa [ho] using hown
      simp [hc]
    · have hother : (r.owner == some owner) = false := by simpa using ho
      simp [hother]

/-- Reserved rows are ignored everywhere exactly where the table holds no heartbeat row of the worker itself. -/
theorem reserved_rows_ignored_iff (rows : List Lease) (owner : Worker) :
    ReservedIgnored rows owner ↔
      ∀ r ∈ rows, r.owner = some owner → r.completed = false → isHeartbeatKey r.leaseKey = false := by
  constructor
  · intro h r hr ho hc
    by_contra hk
    have hmem := h.owned _ (ownedKeys_heartbeat hr ho hc (by simpa using hk))
    obtain ⟨r', _, hshard, he⟩ := mem_shardKeys.mp hmem
    rw [he] at hshard
    simp [isShardKey, hk] at hshard
  · intro h
    have hexact := ownedKeys_eq h
    refine ⟨fun _ _ _ _ => tick_shardKeys, fun _ => eligibleOwned_shardKeys, ?_, ?_, ?_, hexact, ?_⟩
    · intro sched t it hit
      rcases Protocol.mem_refreshSched hit with hit | hit
      · cases hit
      · exact eligibleOwned_shardKeys hit
    · intro k hk
      obtain ⟨m, hm, rfl⟩ := (mem_leasesSafeToDelete hk).1
      exact List.mem_map_of_mem hm
    · intro k hk
      exact ownShardKeys_shardKeys (hexact ▸ hk)
    · intro timeoutMs k
      rw [mem_handoffEvents, hexact]

end

def afterOneCycle : FleetPool :=
  plainFleet.perform exactContract World.serve "w" .cycle 80
    (plainFleet.envs exactContract [.appear ⟨"shard-0", []⟩] (Pool.idle plainFleet.init))

theorem own_heartbeat_announced : ¬ ∀ p, plainFleet.Reachable exactContract p → ReservedIgnored p.world.rows "w" := by
  intro h
  have hreach : plainFleet.Reachable exactContract afterOneCycle :=
    Deployment.reachable_perform (Deployment.reachable_envs (Deployment.reachable_idle _ _))
  have hmem : heartbeatKey "w" ∈ ownedKeys afterOneCycle.world.rows "w" := by decide +kernel
  obtain ⟨r, _, hshard, he⟩ := mem_shardKeys.mp ((h afterOneCycle hreach).owned _ hmem)
  rw [he] at hshard
  revert hshard
  decide

end StreamsConsumer
