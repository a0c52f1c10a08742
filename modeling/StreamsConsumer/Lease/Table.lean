import StreamsConsumer.Core.Lease

/-!
# Writes to one row of the lease table

Every request of `lease-dynamodb/src/dynamodb.rs` but the scan reads or writes
one row. `DbOp.apply` is the service's side of a conditional write: the row
after it, or nothing when the condition does not hold.
-/

namespace StreamsConsumer

structure AwsError where
  code : Option String
  deriving DecidableEq, Repr

def CONDITIONAL_CHECK_FAILED : String := "ConditionalCheckFailedException"

def THROTTLE_CODES : List String :=
  ["ProvisionedThroughputExceededException", "ThrottlingException", "RequestLimitExceeded",
    "LimitExceededException"]

def AwsError.conditionFailed : AwsError := ⟨some CONDITIONAL_CHECK_FAILED⟩

/-- The conditional writes. `put` creates an absent row for `acquire` and for a vacant
`try_acquire_leadership`; `claim` bumps the counter it saw, for both as well. -/
inductive DbOp where
  | put (owner : Worker)
  | claim (owner : Worker) (seenCounter : Nat)
  | renew (owner : Worker) (counter : Nat)
  | checkpoint (owner : Worker) (counter : Nat) (seq : SequenceNumber)
  | markComplete (owner : Worker) (counter : Nat)
  | release (owner : Worker) (counter : Nat)
  | createShardLease (parents : List ShardId) (checkpoint : Option SequenceNumber)
  | deleteLease
  | heartbeat (worker : Worker)
  deriving DecidableEq, Repr

namespace DbOp

def apply (key : ShardId) : DbOp → Option Lease → Option (Option Lease)
  | put owner, none => some (some ⟨key, some owner, 1, false, none, []⟩)
  | claim owner seen, some r =>
    if r.leaseCounter = seen then some (some { r with owner := some owner, leaseCounter := r.leaseCounter + 1 })
    else none
  | renew owner counter, some r =>
    if r.leaseCounter = counter ∧ r.owner = some owner then
      some (some { r with leaseCounter := r.leaseCounter + 1 })
    else none
  | checkpoint owner counter seq, some r =>
    if r.leaseCounter = counter ∧ r.owner = some owner then
      some (some { r with checkpoint := some seq, leaseCounter := r.leaseCounter + 1 })
    else none
  | markComplete owner counter, some r =>
    if r.leaseCounter = counter ∧ r.owner = some owner then some (some { r with completed := true }) else none
  | release owner counter, some r =>
    if r.leaseCounter = counter ∧ r.owner = some owner then
      some (some { r with owner := none, leaseCounter := r.leaseCounter + 1 })
    else none
  | createShardLease parents cp, none => some (some ⟨key, none, 0, false, cp, parents⟩)
  | deleteLease, some r => if r.completed then some none else none
  | heartbeat worker, none => some (some ⟨key, some worker, 1, false, none, []⟩)
  | heartbeat worker, some r =>
    some (some { r with owner := some worker, leaseCounter := r.leaseCounter + 1 })
  | _, _ => none

def actor : DbOp → Option Worker
  | put o => some o
  | claim o _ => some o
  | renew o _ => some o
  | checkpoint o _ _ => some o
  | markComplete o _ => some o
  | release o _ => some o
  | createShardLease _ _ => none
  | deleteLease => none
  | heartbeat w => some w

def token : DbOp → Option (Worker × Nat)
  | renew o c => some (o, c)
  | checkpoint o c _ => some (o, c)
  | markComplete o c => some (o, c)
  | release o c => some (o, c)
  | _ => none

def granted : DbOp → Option Nat
  | put _ => some 1
  | claim _ c => some (c + 1)
  | renew _ c => some (c + 1)
  | checkpoint _ c _ => some (c + 1)
  | _ => none

def isMarkComplete : DbOp → Bool
  | markComplete _ _ => true
  | _ => false

/-! ## What a write does -/

theorem apply_key {key : ShardId} {op : DbOp} {row : Option Lease} {r : Lease}
    (h : op.apply key row = some (some r)) (hk : ∀ r₀, row = some r₀ → r₀.leaseKey = key) :
    r.leaseKey = key := by
  cases row with
  | none => cases op <;> simp [apply] at h <;> subst h <;> rfl
  | some r₀ =>
    have := hk r₀ rfl
    cases op <;> simp [apply] at h
    all_goals first | (subst h; exact this) | (obtain ⟨_, rfl⟩ := h; exact this)

theorem apply_token {key : ShardId} {op : DbOp} {row row' : Option Lease} {o : Worker} {c : Nat}
    (ht : op.token = some (o, c)) (h : op.apply key row = some row') :
    ∃ r, row = some r ∧ r.owner = some o ∧ r.leaseCounter = c := by
  cases op <;> simp only [token, reduceCtorEq, Option.some.injEq, Prod.mk.injEq] at ht
  all_goals
    obtain ⟨rfl, rfl⟩ := ht
    cases row with
    | none => simp [apply] at h
    | some r =>
      simp only [apply] at h
      split at h
      · rename_i hc; exact ⟨r, rfl, hc.2, hc.1⟩
      · cases h

/-- A write to a row keeps it, unless it is a deletion. Only `mark_complete` leaves the counter; every
other write moves it up by one. -/
theorem apply_some {key : ShardId} {op : DbOp} {r : Lease} {row' : Option Lease}
    (h : op.apply key (some r) = some row') (hd : op ≠ .deleteLease) :
    ∃ r', row' = some r' ∧ r'.leaseCounter = r.leaseCounter + (if op.isMarkComplete then 0 else 1) := by
  cases op <;> simp [apply] at h
  case deleteLease => exact absurd rfl hd
  all_goals first | (subst h; simp [isMarkComplete]) | (obtain ⟨_, rfl⟩ := h; simp [isMarkComplete])

theorem apply_completed {key : ShardId} {op : DbOp} {r : Lease} {row' : Option Lease}
    (h : op.apply key (some r) = some row') (hc : r.completed = true) :
    op = .deleteLease ∨ ∃ r', row' = some r' ∧ r'.completed = true := by
  cases op <;> simp [apply] at h
  case deleteLease => exact Or.inl rfl
  all_goals right
  all_goals first | (subst h; exact ⟨_, rfl, hc⟩) | (obtain ⟨_, rfl⟩ := h; exact ⟨_, rfl, by simp [hc]⟩)

theorem apply_origin {key : ShardId} {op : DbOp} {row : Option Lease} {r' : Lease}
    (h : op.apply key row = some (some r')) :
    (r'.checkpoint = none ∨ (∃ r, row = some r ∧ r'.checkpoint = r.checkpoint) ∨
      (∃ o c seq, op = .checkpoint o c seq ∧ r'.checkpoint = some seq) ∨
      ∃ ps cp, op = .createShardLease ps cp ∧ r'.checkpoint = cp) ∧
    (r'.completed = true → (∃ r, row = some r ∧ r.completed = true) ∨ ∃ o c, op = .markComplete o c) := by
  cases row with
  | none =>
    cases op <;> simp [apply] at h
    all_goals
      subst h
      simp
  | some r =>
    cases op <;> simp [apply] at h
    all_goals first
      | (subst h; simp)
      | (obtain ⟨_, rfl⟩ := h; simp)

theorem apply_advance {key : ShardId} {op : DbOp} {r : Lease} {row' : Option Lease}
    (h : op.apply key (some r) = some row') (hd : op ≠ .deleteLease) :
    ∃ r', row' = some r' ∧
      ((r'.leaseCounter = r.leaseCounter ∧ r'.checkpoint = r.checkpoint ∧ r'.owner = r.owner) ∨
        (r'.leaseCounter = r.leaseCounter + 1 ∧ (r'.checkpoint = r.checkpoint ∨
          ∃ o q, op = .checkpoint o r.leaseCounter q ∧ r.owner = some o ∧ r'.checkpoint = some q))) := by
  cases op <;> simp [apply] at h
  case deleteLease => exact absurd rfl hd
  case checkpoint o c q =>
    obtain ⟨⟨rfl, ho⟩, rfl⟩ := h
    exact ⟨_, rfl, Or.inr ⟨rfl, Or.inr ⟨o, q, rfl, ho, rfl⟩⟩⟩
  all_goals first
    | (subst h; simp)
    | (obtain ⟨_, rfl⟩ := h; simp)

end DbOp

end StreamsConsumer
