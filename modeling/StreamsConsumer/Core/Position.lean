import Mathlib.Data.List.Basic

/-!
# Records, shards and start positions

The data of `core/src/lib.rs`. A lease stores its resume position as an
optional text: nothing for TRIM_HORIZON, the sentinel for LATEST, otherwise
the sequence number of the last processed record.
-/

namespace StreamsConsumer

abbrev ShardId := String
abbrev SequenceNumber := String
abbrev Worker := String

def SENTINEL_LATEST : String := "LATEST"

inductive InitialPosition where
  | trimHorizon
  | latest
  deriving DecidableEq, Repr

inductive StartPosition where
  | trimHorizon
  | latest
  | after (seq : SequenceNumber)
  deriving DecidableEq, Repr

def InitialPosition.toStart : InitialPosition → StartPosition
  | .trimHorizon => .trimHorizon
  | .latest => .latest

namespace StartPosition

def fromCheckpoint : Option String → StartPosition
  | none => .trimHorizon
  | some s => if s = SENTINEL_LATEST then .latest else .after s

def asCheckpoint : StartPosition → Option String
  | .trimHorizon => none
  | .latest => some SENTINEL_LATEST
  | .after seq => some seq

end StartPosition

def InitialPosition.seedCheckpoint (p : InitialPosition) : Option String :=
  p.toStart.asCheckpoint

/-- The fold of `child_seed_checkpoint` over the parents' checkpoints; `inherited` is the start mode
that all parents so far share. -/
def inheritStartMode : Option StartPosition → List (Option String) → Option String
  | inherited, [] => inherited.bind StartPosition.asCheckpoint
  | inherited, cp :: rest =>
    match StartPosition.fromCheckpoint cp with
    | .trimHorizon => none
    | .after _ => none
    | mode =>
      match inherited with
      | none => inheritStartMode (some mode) rest
      | some cur => if cur = mode then inheritStartMode inherited rest else none

def childSeedCheckpoint (parentCheckpoints : List (Option String)) : Option String :=
  if parentCheckpoints.isEmpty then none else inheritStartMode none parentCheckpoints

structure Record where
  shardId : ShardId
  seq : SequenceNumber
  data : List UInt8
  deriving DecidableEq, Repr

structure ShardMeta where
  id : ShardId
  parents : List ShardId
  deriving DecidableEq, Repr

structure RecordBatch where
  records : List Record
  shardEnd : Bool
  millisBehindLatest : Option Int
  deriving DecidableEq, Repr

/-! ## Which seed a child gets -/

theorem fromCheckpoint_eq_latest {cp : Option String} :
    StartPosition.fromCheckpoint cp = .latest ↔ cp = some SENTINEL_LATEST := by
  cases cp with
  | none => simp [StartPosition.fromCheckpoint]
  | some s => by_cases h : s = SENTINEL_LATEST <;> simp [StartPosition.fromCheckpoint, h]

theorem inheritStartMode_latest : ∀ (cps : List (Option String)),
    inheritStartMode (some .latest) cps =
      if ∀ cp ∈ cps, cp = some SENTINEL_LATEST then some SENTINEL_LATEST else none
  | [] => by simp [inheritStartMode, StartPosition.asCheckpoint]
  | cp :: rest => by
    unfold inheritStartMode
    by_cases h : cp = some SENTINEL_LATEST
    · rw [fromCheckpoint_eq_latest.mpr h]
      simp only [ite_true, inheritStartMode_latest rest, List.forall_mem_cons, h, true_and]
    · have hne : StartPosition.fromCheckpoint cp ≠ .latest := fun e => h (fromCheckpoint_eq_latest.mp e)
      simp only [List.forall_mem_cons, h, false_and, ite_false]
      split
      · rfl
      · rfl
      · rename_i mode _ _
        cases hm : StartPosition.fromCheckpoint cp <;> simp_all

theorem childSeedCheckpoint_eq (cps : List (Option String)) :
    childSeedCheckpoint cps =
      if cps ≠ [] ∧ ∀ cp ∈ cps, cp = some SENTINEL_LATEST then some SENTINEL_LATEST else none := by
  cases cps with
  | nil => simp [childSeedCheckpoint]
  | cons cp rest =>
    simp only [childSeedCheckpoint, List.isEmpty_cons, Bool.false_eq_true, ite_false, ne_eq,
      reduceCtorEq, not_false_eq_true, true_and, List.forall_mem_cons]
    unfold inheritStartMode
    by_cases h : cp = some SENTINEL_LATEST
    · rw [fromCheckpoint_eq_latest.mpr h]
      simp only [inheritStartMode_latest rest, h, true_and]
    · have hne : StartPosition.fromCheckpoint cp ≠ .latest := fun e => h (fromCheckpoint_eq_latest.mp e)
      simp only [h, false_and, ite_false]
      split
      · rfl
      · rfl
      · cases hm : StartPosition.fromCheckpoint cp <;> simp_all

end StreamsConsumer
