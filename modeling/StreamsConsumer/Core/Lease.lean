import StreamsConsumer.Core.Position
import Mathlib.Data.List.Sort

/-!
# Lease rows

One row of the lease table, the reserved keys beside the shard leases, the
shard graph that workers rebuild from the rows (`core/src/leader.rs`), and the
tombstones that may be deleted (`core/src/cleanup.rs`).
-/

namespace StreamsConsumer

/-- A row of the lease table; `RawLease` of a scan has the same fields. -/
structure Lease where
  leaseKey : ShardId
  owner : Option Worker
  leaseCounter : Nat
  completed : Bool
  checkpoint : Option SequenceNumber
  parents : List ShardId
  deriving DecidableEq, Repr

def HEARTBEAT_KEY_PREFIX : String := "__hb__:"

def heartbeatKey (worker : Worker) : String := HEARTBEAT_KEY_PREFIX ++ worker

def isHeartbeatKey (key : String) : Bool := HEARTBEAT_KEY_PREFIX.toList.isPrefixOf key.toList

def LEADER_LEASE_KEY : String := "__shard_sync_leader__"

def isShardKey (key : String) : Bool := key != LEADER_LEASE_KEY && !isHeartbeatKey key

def shardMetasFromLeases (rows : List Lease) : List ShardMeta :=
  (rows.filter fun r => isShardKey r.leaseKey).map fun r => ⟨r.leaseKey, r.parents⟩

/-- What a map collected from the rows holds at a key: the last row with it. -/
def lookupRow (rows : List Lease) (key : ShardId) : Option Lease :=
  rows.reverse.find? fun r => r.leaseKey = key

def completedKeys (rows : List Lease) : List ShardId :=
  (rows.filter Lease.completed).map Lease.leaseKey

def eligible (m : ShardMeta) (completed existing : List ShardId) : Bool :=
  !completed.contains m.id && m.parents.all fun p => completed.contains p || !existing.contains p

structure LeaseState where
  completed : Bool
  processing : Bool
  deriving DecidableEq, Repr

def childrenOf (shards : List ShardMeta) (p : ShardId) : List ShardId :=
  shards.flatMap fun s => (s.parents.filter (· = p)).map fun _ => s.id

def leasesSafeToDelete (shards : List ShardMeta) (state : ShardId → Option LeaseState) : List ShardId :=
  ((shards.filter fun s => (state s.id).elim false LeaseState.completed).filter fun s =>
    !(childrenOf shards s.id).isEmpty && (childrenOf shards s.id).all fun c =>
      (state c).elim false fun st => st.processing || st.completed).map ShardMeta.id
    |>.insertionSort (· ≤ ·)

theorem heartbeatKey_isHeartbeatKey (w : Worker) : isHeartbeatKey (heartbeatKey w) = true := by
  unfold isHeartbeatKey heartbeatKey
  rw [String.toList_append, List.isPrefixOf_iff_prefix]
  exact List.prefix_append _ _

theorem lookupRow_mem {rows : List Lease} {key : ShardId} {r : Lease} (h : lookupRow rows key = some r) :
    r ∈ rows ∧ r.leaseKey = key := by
  unfold lookupRow at h
  have hm := List.mem_of_find?_eq_some h
  have hp := List.find?_some h
  exact ⟨by simpa using hm, by simpa using hp⟩

theorem mem_completedKeys {rows : List Lease} {key : ShardId} :
    key ∈ completedKeys rows ↔ ∃ r ∈ rows, r.completed = true ∧ r.leaseKey = key := by
  unfold completedKeys
  simp only [List.mem_map, List.mem_filter, and_assoc]

theorem mem_shardMetas {rows : List Lease} {m : ShardMeta} (h : m ∈ shardMetasFromLeases rows) :
    ∃ r ∈ rows, isShardKey r.leaseKey = true ∧ r.leaseKey = m.id ∧ r.parents = m.parents := by
  unfold shardMetasFromLeases at h
  simp only [List.mem_map, List.mem_filter] at h
  obtain ⟨r, ⟨hr, hk⟩, rfl⟩ := h
  exact ⟨r, hr, hk, rfl, rfl⟩

theorem mem_leasesSafeToDelete {shards : List ShardMeta} {state : ShardId → Option LeaseState} {k : ShardId}
    (h : k ∈ leasesSafeToDelete shards state) :
    (∃ s ∈ shards, s.id = k) ∧ ∃ st, state k = some st ∧ st.completed = true := by
  unfold leasesSafeToDelete at h
  rw [List.mem_insertionSort] at h
  simp only [List.mem_map, List.mem_filter] at h
  obtain ⟨s, ⟨⟨hs, hst⟩, _⟩, rfl⟩ := h
  refine ⟨⟨s, hs, rfl⟩, ?_⟩
  cases hk : state s.id with
  | none => simp [hk] at hst
  | some st => exact ⟨st, rfl, by simpa [hk] using hst⟩

end StreamsConsumer
