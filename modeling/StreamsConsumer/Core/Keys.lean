import Mathlib.Data.List.Infix
import StreamsConsumer.Core.Lease

/-!
# Lease keys

`core/src/multistream.rs`: with several streams in one table, the key of a
lease is the stream, a colon and the shard. A stream may hold colons itself,
so a key is split at its last one.
-/

namespace StreamsConsumer

/-! ## Splitting at the last separator -/

section
variable {α : Type} [DecidableEq α] {c : α}

def rsplitOnce (c : α) : List α → Option (List α × List α)
  | [] => none
  | a :: s =>
    match rsplitOnce c s with
    | some (l, r) => some (a :: l, r)
    | none => if a = c then some ([], s) else none

theorem rsplitOnce_none {s : List α} : rsplitOnce c s = none ↔ c ∉ s := by
  induction s with
  | nil => simp [rsplitOnce]
  | cons a s ih =>
    unfold rsplitOnce
    cases h : rsplitOnce c s with
    | some p =>
      have hmem : c ∈ s := by
        by_contra hn
        rw [ih.mpr hn] at h
        cases h
      simp [hmem]
    | none =>
      have hmem : c ∉ s := ih.mp h
      by_cases ha : a = c
      · simp [ha]
      · simp [ha, hmem, Ne.symm ha]

theorem rsplitOnce_append {l r : List α} (hr : c ∉ r) : rsplitOnce c (l ++ c :: r) = some (l, r) := by
  induction l with
  | nil => simp [rsplitOnce, rsplitOnce_none.mpr hr]
  | cons a l ih => simp [rsplitOnce, ih]

theorem rsplitOnce_parts {s : List α} : ∀ {l r : List α}, rsplitOnce c s = some (l, r) → s = l ++ c :: r ∧ c ∉ r := by
  induction s with
  | nil => simp [rsplitOnce]
  | cons a s ih =>
    intro l r h
    unfold rsplitOnce at h
    cases hs : rsplitOnce c s with
    | some p =>
      rw [hs] at h
      obtain ⟨rfl, rfl⟩ := Prod.mk.inj (Option.some.inj h)
      obtain ⟨hparts, hr⟩ := ih hs
      exact ⟨by rw [List.cons_append, ← hparts], hr⟩
    | none =>
      simp only [hs] at h
      split at h
      next ha =>
        obtain ⟨rfl, rfl⟩ := Prod.mk.inj (Option.some.inj h)
        exact ⟨by rw [ha, List.nil_append], rsplitOnce_none.mp hs⟩
      next => cases h

theorem rsplitOnce_some {s l r : List α} : rsplitOnce c s = some (l, r) ↔ s = l ++ c :: r ∧ c ∉ r := by
  refine ⟨rsplitOnce_parts, ?_⟩
  rintro ⟨rfl, hr⟩
  exact rsplitOnce_append hr

end

/-! ## The keys -/

def multiStreamLeaseKey (stream : String) (shard : ShardId) : String := stream ++ ":" ++ shard

def singleStreamLeaseKey (shard : ShardId) : String := shard

def parseLeaseKey (key : String) : Option (String × ShardId) :=
  (rsplitOnce ':' key.toList).map fun p => (String.ofList p.1, String.ofList p.2)

def shardOf (key : String) : ShardId :=
  match parseLeaseKey key with
  | some (_, shard) => shard
  | none => key

theorem toList_multiStreamLeaseKey (stream : String) (shard : ShardId) :
    (multiStreamLeaseKey stream shard).toList = stream.toList ++ ':' :: shard.toList := by
  simp [multiStreamLeaseKey]

theorem parseLeaseKey_some {key stream : String} {shard : ShardId} :
    parseLeaseKey key = some (stream, shard) ↔ key = multiStreamLeaseKey stream shard ∧ ':' ∉ shard.toList := by
  rw [← String.toList_inj, toList_multiStreamLeaseKey, ← rsplitOnce_some, parseLeaseKey, Option.map_eq_some_iff]
  constructor
  · rintro ⟨p, hp, heq⟩
    obtain ⟨rfl, rfl⟩ := Prod.mk.inj heq
    simpa using hp
  · intro h
    exact ⟨_, h, by simp⟩

theorem parseLeaseKey_none {key : String} : parseLeaseKey key = none ↔ ':' ∉ key.toList := by
  rw [parseLeaseKey, Option.map_eq_none_iff, rsplitOnce_none]

theorem shardOf_colonless (key : String) : ':' ∉ (shardOf key).toList := by
  unfold shardOf
  split
  next stream shard h => exact (parseLeaseKey_some.mp h).2
  next h => exact parseLeaseKey_none.mp h

theorem shardOf_eq_self {key : String} : shardOf key = key ↔ ':' ∉ key.toList := by
  refine ⟨fun h => h ▸ shardOf_colonless key, fun h => ?_⟩
  rw [shardOf, parseLeaseKey_none.mpr h]

theorem shardOf_multiStream {stream : String} {shard : ShardId} (h : ':' ∉ shard.toList) :
    shardOf (multiStreamLeaseKey stream shard) = shard := by
  rw [shardOf, parseLeaseKey_some.mpr ⟨rfl, h⟩]

theorem isHeartbeatKey_multiStream {stream : String} {shard : ShardId} :
    isHeartbeatKey (multiStreamLeaseKey stream shard) = true ↔ HEARTBEAT_KEY_PREFIX.toList <+: stream.toList ++ [':'] := by
  have hreserved : HEARTBEAT_KEY_PREFIX.toList = "__hb__".toList ++ [':'] := by decide
  rw [isHeartbeatKey, List.isPrefixOf_iff_prefix, toList_multiStreamLeaseKey, ← List.singleton_append, ← List.append_assoc]
  refine ⟨fun h => ?_, fun h => h.trans (List.prefix_append _ _)⟩
  rcases List.prefix_or_prefix_of_prefix h (List.prefix_append _ _) with h | h
  · exact h
  rw [hreserved, List.prefix_concat_iff] at h
  rcases h with h | h
  · rw [hreserved, h]
  · -- the stream's colon would stand inside the reserved word
    have hcolon : ':' ∈ "__hb__".toList := h.subset (by simp)
    exact absurd hcolon (by decide)

theorem multiStream_ne_leader (stream : String) (shard : ShardId) : multiStreamLeaseKey stream shard ≠ LEADER_LEASE_KEY := by
  intro h
  have hcolon : ':' ∈ LEADER_LEASE_KEY.toList := by
    rw [← h, toList_multiStreamLeaseKey]
    simp
  exact absurd hcolon (by decide)

/-- A lease key reads as a stream and a shard exactly if it was built from these and the shard has no colon, so no two such
pairs share a key. What stands for the shard of a key has no colon, and a key of several streams is taken for a reserved one
only if the stream begins with the reserved word. -/
theorem lease_keys_reversible (key stream : String) (shard : ShardId) :
    (parseLeaseKey key = some (stream, shard) ↔ key = multiStreamLeaseKey stream shard ∧ ':' ∉ shard.toList) ∧
      ':' ∉ (shardOf key).toList ∧ (shardOf (singleStreamLeaseKey key) = key ↔ ':' ∉ key.toList) ∧
      (shardOf (multiStreamLeaseKey stream shard) = shard ↔ ':' ∉ shard.toList) ∧
      (isShardKey (multiStreamLeaseKey stream shard) = true ↔ ¬ HEARTBEAT_KEY_PREFIX.toList <+: stream.toList ++ [':']) := by
  refine ⟨parseLeaseKey_some, shardOf_colonless key, shardOf_eq_self, ⟨fun h => h ▸ shardOf_colonless _, shardOf_multiStream⟩, ?_⟩
  have hbeat : isHeartbeatKey (multiStreamLeaseKey stream shard) = true ↔ _ := isHeartbeatKey_multiStream
  rw [← hbeat, isShardKey]
  simp [multiStream_ne_leader]

end StreamsConsumer
