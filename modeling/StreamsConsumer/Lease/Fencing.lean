import StreamsConsumer.Conc.Trail
import StreamsConsumer.Lease.Store
import Mathlib.Data.List.Induction

/-!
# Fencing of one lease row

The atomic steps of the store on one key, in any order and by any workers,
without a deletion. Every write but `mark_complete` moves the counter, so a
counter value names the write that produced it; a fenced write goes through
only on the value its own owner wrote last. What a call of the store returns is
what its last request, the one that went through, grants.
-/

namespace StreamsConsumer
open Conc

inductive StoreStep where
  | put (owner : Worker)
  | read
  | claim (owner : Worker) (seenCounter : Nat)
  | renew (owner : Worker) (counter : Nat)
  | checkpoint (owner : Worker) (counter : Nat) (seq : SequenceNumber)
  | markComplete (owner : Worker) (counter : Nat)
  | release (owner : Worker) (counter : Nat)
  | createShardLease (parents : List ShardId) (checkpoint : Option SequenceNumber)
  | tryAcquireLeadership (owner : Worker) (expected : Option Nat)
  deriving DecidableEq, Repr

namespace StoreStep

def op : StoreStep → Option DbOp
  | put o => some (.put o)
  | read => none
  | claim o c => some (.claim o c)
  | renew o c => some (.renew o c)
  | checkpoint o c q => some (.checkpoint o c q)
  | markComplete o c => some (.markComplete o c)
  | release o c => some (.release o c)
  | createShardLease ps cp => some (.createShardLease ps cp)
  | tryAcquireLeadership o none => some (.put o)
  | tryAcquireLeadership o (some c) => some (.claim o c)

def actor (x : StoreStep) : Option Worker := x.op.bind DbOp.actor

def token (x : StoreStep) : Option (Worker × Nat) := x.op.bind DbOp.token

def isMarkComplete (x : StoreStep) : Bool := x.op.elim false DbOp.isMarkComplete

def accepted (key : ShardId) (row : Option Lease) (x : StoreStep) : Option Lease :=
  x.op.bind fun op => (op.apply key row).join

def grants (key : ShardId) (row : Option Lease) (x : StoreStep) : Option Nat :=
  (x.accepted key row).bind fun _ => x.op.bind DbOp.granted

end StoreStep

def stepRow (key : ShardId) (row : Option Lease) (x : StoreStep) : Option Lease :=
  match x.accepted key row with
  | some r => some r
  | none => row

def runSteps (key : ShardId) (xs : List StoreStep) : Option Lease := xs.foldl (stepRow key) none

@[simp] theorem runSteps_snoc (key : ShardId) (xs : List StoreStep) (x : StoreStep) :
    runSteps key (xs ++ [x]) = stepRow key (runSteps key xs) x := by
  simp [runSteps]

namespace StoreStep

/-! ## One step -/

theorem op_ne_delete (x : StoreStep) : x.op ≠ some .deleteLease := by
  cases x with
  | tryAcquireLeadership o e => cases e <;> simp [op]
  | _ => simp [op]

theorem accepted_some {key : ShardId} {row : Option Lease} {x : StoreStep} {r : Lease}
    (h : x.accepted key row = some r) : ∃ op, x.op = some op ∧ op ≠ .deleteLease ∧ op.apply key row = some (some r) := by
  unfold accepted at h
  obtain ⟨op, ho, h⟩ := Option.bind_eq_some_iff.mp h
  refine ⟨op, ho, ?_, Option.join_eq_some_iff.mp h⟩
  intro e
  exact x.op_ne_delete (e ▸ ho)

theorem accepted_counter {key : ShardId} {r r' : Lease} {x : StoreStep} (h : x.accepted key (some r) = some r') :
    r'.leaseCounter = r.leaseCounter + (if x.isMarkComplete then 0 else 1) := by
  obtain ⟨op, ho, hd, ha⟩ := accepted_some h
  obtain ⟨r₁, e, hc⟩ := DbOp.apply_some ha hd
  cases e
  simpa [isMarkComplete, ho] using hc

theorem grants_eq {key : ShardId} {row : Option Lease} {x : StoreStep} {v : Nat} (h : x.grants key row = some v) :
    ∃ r, x.accepted key row = some r ∧ r.leaseCounter = v ∧ ∀ r₀, row = some r₀ → v = r₀.leaseCounter + 1 := by
  unfold grants at h
  obtain ⟨r, hr, h⟩ := Option.bind_eq_some_iff.mp h
  obtain ⟨op, ho, hd, ha⟩ := accepted_some hr
  refine ⟨r, hr, ?_⟩
  simp only [ho, Option.bind_some] at h
  cases row with
  | none =>
    cases op <;> simp [DbOp.apply, DbOp.granted] at ha h
    all_goals
      subst ha
      simp [h]
  | some r₀ =>
    cases op <;> simp [DbOp.apply, DbOp.granted] at ha h
    all_goals
      obtain ⟨hc, rfl⟩ := ha
      simp [← h, hc]

theorem accepted_owner {key : ShardId} {row : Option Lease} {x : StoreStep} {r : Lease} {o : Worker}
    (h : x.accepted key row = some r) (hr : r.owner = some o) (hm : x.isMarkComplete = false) :
    x.actor = some o := by
  obtain ⟨op, ho, hd, ha⟩ := accepted_some h
  simp only [actor, isMarkComplete, ho, Option.bind_some, Option.elim_some] at hm ⊢
  cases row with
  | none =>
    cases op <;> simp [DbOp.apply] at ha
    all_goals
      subst ha
      simp_all [DbOp.actor]
  | some r₀ =>
    cases op <;> simp [DbOp.apply, DbOp.isMarkComplete] at ha hm
    case heartbeat w => subst ha; simpa [DbOp.actor] using hr
    all_goals
      obtain ⟨hc, rfl⟩ := ha
      simp_all [DbOp.actor]

theorem accepted_markComplete {key : ShardId} {row : Option Lease} {x : StoreStep} {r : Lease}
    (h : x.accepted key row = some r) (hm : x.isMarkComplete = true) :
    ∃ r₀, row = some r₀ ∧ r₀.owner = r.owner ∧ r₀.leaseCounter = r.leaseCounter := by
  obtain ⟨op, ho, _, ha⟩ := accepted_some h
  simp only [isMarkComplete, ho, Option.elim_some] at hm
  cases op <;> simp [DbOp.isMarkComplete] at hm
  cases row with
  | none => simp [DbOp.apply] at ha
  | some r₀ =>
    simp only [DbOp.apply, Option.ite_none_right_eq_some, Option.some.injEq] at ha
    obtain ⟨_, rfl⟩ := ha
    exact ⟨r₀, rfl, rfl, rfl⟩

theorem accepted_token {key : ShardId} {row : Option Lease} {x : StoreStep} {r : Lease} {o : Worker} {c : Nat}
    (h : x.accepted key row = some r) (ht : x.token = some (o, c)) :
    ∃ r₀, row = some r₀ ∧ r₀.owner = some o ∧ r₀.leaseCounter = c := by
  obtain ⟨op, ho, _, ha⟩ := accepted_some h
  simp only [token, ho, Option.bind_some] at ht
  exact DbOp.apply_token ht ha

end StoreStep

theorem stepRow_mono (key : ShardId) (r : Lease) (x : StoreStep) :
    ∃ r', stepRow key (some r) x = some r' ∧ r.leaseCounter ≤ r'.leaseCounter := by
  unfold stepRow
  cases ha : x.accepted key (some r) with
  | none => exact ⟨r, rfl, le_refl _⟩
  | some r' =>
    refine ⟨r', rfl, ?_⟩
    rw [StoreStep.accepted_counter ha]
    omega

/-! ## Whole runs -/

theorem runSteps_mono {key : ShardId} {xs : List StoreStep} {r : Lease} (h : runSteps key xs = some r)
    (ys : List StoreStep) :
    ∃ r', runSteps key (xs ++ ys) = some r' ∧ r.leaseCounter ≤ r'.leaseCounter := by
  induction ys using List.reverseRecOn with
  | nil => exact ⟨r, by simpa using h, le_refl _⟩
  | append_singleton ys y ih =>
    obtain ⟨r₁, h₁, hl₁⟩ := ih
    obtain ⟨r₂, h₂, hl₂⟩ := stepRow_mono key r₁ y
    refine ⟨r₂, ?_, le_trans hl₁ hl₂⟩
    rw [← List.append_assoc, runSteps_snoc, h₁, h₂]

/-- `o` wrote counter `c` to the row during `xs`, and after that only `mark_complete` wrote. -/
def WroteLast (key : ShardId) (xs : List StoreStep) (o : Worker) (c : Nat) : Prop :=
  ∃ ys y zs r, xs = ys ++ y :: zs ∧ y.actor = some o ∧ y.isMarkComplete = false ∧
    y.accepted key (runSteps key ys) = some r ∧ r.leaseCounter = c ∧
    ∀ zs₁ z zs₂, zs = zs₁ ++ z :: zs₂ → z.isMarkComplete = false →
      z.accepted key (runSteps key (ys ++ y :: zs₁)) = none

theorem WroteLast.snoc {key : ShardId} {xs : List StoreStep} {o : Worker} {c : Nat} (h : WroteLast key xs o c)
    {x : StoreStep} (hx : x.isMarkComplete = false → x.accepted key (runSteps key xs) = none) :
    WroteLast key (xs ++ [x]) o c := by
  obtain ⟨ys, y, zs, r, rfl, ha, hm, hr, hc, hz⟩ := h
  refine ⟨ys, y, zs ++ [x], r, by simp, ha, hm, hr, hc, ?_⟩
  intro zs₁ z zs₂ e hzm
  rcases List.eq_nil_or_concat zs₂ with rfl | ⟨zs₃, z', rfl⟩
  · obtain ⟨rfl, e'⟩ := List.append_inj' e rfl
    cases e'
    exact hx hzm
  · rw [List.concat_eq_append, ← List.cons_append, ← List.append_assoc] at e
    obtain ⟨rfl, _⟩ := List.append_inj' e rfl
    exact hz zs₁ z zs₃ rfl hzm

theorem wroteLast_of_run {key : ShardId} {xs : List StoreStep} {r : Lease} (h : runSteps key xs = some r)
    {o : Worker} (ho : r.owner = some o) : WroteLast key xs o r.leaseCounter := by
  induction xs using List.reverseRecOn generalizing r with
  | nil => cases h
  | append_singleton xs x ih =>
    rw [runSteps_snoc] at h
    unfold stepRow at h
    cases ha : x.accepted key (runSteps key xs) with
    | none =>
      simp only [ha] at h
      exact (ih h ho).snoc fun _ => ha
    | some r' =>
      simp only [ha, Option.some.injEq] at h
      subst h
      by_cases hm : x.isMarkComplete = true
      · obtain ⟨r₀, h₀, ho₀, hc₀⟩ := StoreStep.accepted_markComplete ha hm
        rw [← hc₀]
        exact (ih h₀ (ho₀.trans ho)).snoc fun hf => by rw [hm] at hf; cases hf
      · simp only [Bool.not_eq_true] at hm
        refine ⟨xs, x, [], r', rfl, StoreStep.accepted_owner ha ho hm, hm, ha, rfl, ?_⟩
        intro zs₁ z zs₂ e
        simp at e

/-! ## What the store returns -/

/-- The requests end with one that went through, and `v` is what it grants. -/
def Grants (key : ShardId) (log : List ((r : Req) × Resp r)) (v : Nat) : Prop :=
  ∃ front op n, log = front ++ [⟨.db key op, .ok n⟩] ∧ op.granted = some v

section
variable {W C σ α : Type} {H : Handler Req Resp W C σ} {I : σ → σ → Prop} {w : W} {s t : σ}
  {log : List ((r : Req) × Resp r)} {key : ShardId}

theorem Grants.after {v : Nat} (h : Grants key log v) (before : List ((r : Req) × Resp r)) : Grants key (before ++ log) v := by
  obtain ⟨front, op, n, rfl, hv⟩ := h
  exact ⟨before ++ front, op, n, by rw [List.append_assoc], hv⟩

theorem conditionalWrite_ok {op : DbOp} {x a : α} (h : Trail H I w (conditionalWrite key op x) s log (.ret (.ok a)) t) :
    a = x ∧ ∃ n, log = [⟨.db key op, .ok n⟩] := by
  obtain ⟨_, _, answer, _, l, -, -, rfl, hret⟩ := Trail.of_req h
  cases answer with
  | ok n =>
    obtain ⟨rfl, ha, -⟩ := hret.of_ret
    exact ⟨Except.ok.inj ha, n, rfl⟩
  | error e => cases hret.of_ret.2.1

theorem retryThrottled_ok {ε : Type} {throttled : ε → Bool} {op : Fx (Except ε α)} {a : α} : ∀ (n delay : Nat) {s : σ}
    {log : List ((r : Req) × Resp r)}, Trail H I w (retryThrottled throttled op n delay) s log (.ret (.ok a)) t →
      ∃ before last u v, log = before ++ last ∧ Trail H I w op u last (.ret (.ok a)) v
  | 0, _, s, log, h => ⟨[], log, s, t, rfl, h⟩
  | n + 1, delay, s, log, h => by
    obtain ⟨r, u, l₁, l₂, rfl, hop, hrest⟩ := h.of_bind
    cases r with
    | ok b =>
      obtain ⟨rfl, hb, -⟩ := hrest.of_ret
      cases hb
      exact ⟨[], l₁, s, u, List.append_nil l₁, hop⟩
    | error e =>
      simp only at hrest
      split at hrest
      · obtain ⟨_, _, l₃, l₄, rfl, -, hretry⟩ := hrest.of_bind
        obtain ⟨before, last, u', v', rfl, hlast⟩ := retryThrottled_ok n _ hretry
        exact ⟨l₁ ++ (l₃ ++ before), last, u', v', by simp, hlast⟩
      · cases hrest.of_ret.2.1

namespace DynamoDbLeaseStore

theorem claim_grants {owner : Worker} {seen : Nat} {l : Lease}
    (h : Trail H I w (claim key owner seen) s log (.ret (.ok l)) t) : Grants key log l.leaseCounter := by
  obtain ⟨rfl, n, rfl⟩ := conditionalWrite_ok h
  exact ⟨[], _, n, rfl, rfl⟩

theorem acquire_grants {owner : Worker} {l : Lease} (h : Trail H I w (acquire key owner) s log (.ret (.ok l)) t) :
    Grants key log l.leaseCounter := by
  obtain ⟨_, _, answer, _, l₁, -, -, rfl, hput⟩ := Trail.of_req h
  cases answer with
  | ok n =>
    obtain ⟨rfl, hl, -⟩ := hput.of_ret
    cases hl
    exact ⟨[], .put owner, n, rfl, rfl⟩
  | error e =>
    dsimp only at hput
    split at hput
    · cases hput.of_ret.2.1
    · -- the row is there: it is read, and what was read is claimed
      obtain ⟨_, _, seen, _, l₂, -, -, rfl, hget⟩ := Trail.of_req hput
      match seen with
      | .error e => cases hget.of_ret.2.1
      | .ok none => cases hget.of_ret.2.1
      | .ok (some current) => exact (claim_grants hget).after [_, _]

theorem renew_grants {owner : Worker} {counter c : Nat} (h : Trail H I w (renew key owner counter) s log (.ret (.ok c)) t) :
    Grants key log c := by
  obtain ⟨before, last, _, _, rfl, hlast⟩ := retryThrottled_ok _ _ h
  obtain ⟨rfl, n, rfl⟩ := conditionalWrite_ok hlast
  exact ⟨before, .renew owner counter, n, rfl, rfl⟩

theorem checkpoint_grants {owner : Worker} {counter c : Nat} {seq : SequenceNumber}
    (h : Trail H I w (checkpoint key owner counter seq) s log (.ret (.ok c)) t) : Grants key log c := by
  obtain ⟨before, last, _, _, rfl, hlast⟩ := retryThrottled_ok _ _ h
  obtain ⟨rfl, n, rfl⟩ := conditionalWrite_ok hlast
  exact ⟨before, .checkpoint owner counter seq, n, rfl, rfl⟩

theorem bid_grants {op : DbOp} {counter c : Nat} (hop : op.granted = some counter)
    (h : Trail H I w (bid key op counter) s log (.ret (.ok (some c))) t) : Grants key log c := by
  obtain ⟨_, _, answer, _, l, -, -, rfl, hbid⟩ := Trail.of_req h
  cases answer with
  | ok n =>
    obtain ⟨rfl, hc, -⟩ := hbid.of_ret
    cases hc
    exact ⟨[], op, n, rfl, hop⟩
  | error e =>
    dsimp only at hbid
    split at hbid <;> cases hbid.of_ret.2.1

theorem tryAcquireLeadership_grants {owner : Worker} {expected : Option Nat} {c : Nat}
    (h : Trail H I w (tryAcquireLeadership key owner expected) s log (.ret (.ok (some c))) t) : Grants key log c := by
  cases expected with
  | none => exact bid_grants rfl h
  | some seen => exact bid_grants rfl h

end DynamoDbLeaseStore

end

/-! ## Fencing -/

/-- Lease tokens fence: the counter never moves back, no two successful steps return the same counter,
and a fenced write goes through only while the counter it presents is the one its owner wrote last. -/
theorem lease_tokens_fence (key : ShardId) (xs : List StoreStep) :
    (∀ ys r, runSteps key xs = some r →
      ∃ r', runSteps key (xs ++ ys) = some r' ∧ r.leaseCounter ≤ r'.leaseCounter) ∧
    (∀ (x y : StoreStep) ys v, x.grants key (runSteps key xs) = some v → y.grants key (runSteps key (xs ++ x :: ys)) ≠ some v) ∧
    (∀ (x : StoreStep) o c, x.token = some (o, c) →
      ((x.accepted key (runSteps key xs)).isSome = true ∧ WroteLast key xs o c) ∨
      (x.accepted key (runSteps key xs) = none ∧ runSteps key (xs ++ [x]) = runSteps key xs)) := by
  refine ⟨fun ys r h => runSteps_mono h ys, ?_, ?_⟩
  · intro x y ys v hx hy
    obtain ⟨r, hr, hv, _⟩ := StoreStep.grants_eq hx
    have hrun : runSteps key (xs ++ [x]) = some r := by simp [stepRow, hr]
    obtain ⟨r', hr', hle⟩ := runSteps_mono hrun ys
    simp only [List.append_assoc, List.cons_append, List.nil_append] at hr'
    obtain ⟨_, _, _, hn⟩ := StoreStep.grants_eq hy
    have := hn r' hr'
    omega
  · intro x o c ht
    cases ha : x.accepted key (runSteps key xs) with
    | none => exact Or.inr ⟨rfl, by simp [stepRow, ha]⟩
    | some r =>
      obtain ⟨r₀, h₀, ho, rfl⟩ := StoreStep.accepted_token ha ht
      exact Or.inl ⟨rfl, wroteLast_of_run h₀ ho⟩

theorem stolen_lease_fences_old_owner :
    runSteps "shard-0" [.put "a", .claim "b" 1, .renew "a" 1] = runSteps "shard-0" [.put "a", .claim "b" 1] ∧
      WroteLast "shard-0" [.put "a", .claim "b" 1] "b" 2 := by
  have h := (lease_tokens_fence "shard-0" [.put "a", .claim "b" 1]).2.2
  refine ⟨?_, ?_⟩
  · rcases h (.renew "a" 1) "a" 1 rfl with h | h
    · exact absurd h.1 (by decide)
    · exact h.2
  · rcases h (.checkpoint "b" 2 "7") "b" 2 rfl with h | h
    · exact h.2
    · exact absurd h.1 (by decide)

end StreamsConsumer
