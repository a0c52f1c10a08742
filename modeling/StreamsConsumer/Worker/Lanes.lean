import StreamsConsumer.Conc.Fork
import StreamsConsumer.Worker.Site

/-!
# Shards in lanes

A fleet in which everything a pass is told depends only on its own shard: the
source, the consumer and the lease row of a shard answer by functions of what
happened in its lane. A failed call, a lost lease or another worker's write are
answers like any other. With a checkpoint for each batch, a pass stays in its
lane.
-/

namespace StreamsConsumer
open Conc

structure Lane where
  row : Option Lease
  calls : List Call
  writes : List DbOp

/-- How a lease row answers a write, and what it is afterwards. -/
abbrev RowStore := Lane → DbOp → Except AwsError Nat × Option Lease

/-- The lease table without faults and without other workers. -/
def tableStore (k : ShardId) : RowStore := fun lane op =>
  match op.apply k lane.row with
  | some row => (.ok (row.elim 0 Lease.leaseCounter), row)
  | none => (.error .conditionFailed, lane.row)

/-- The lanes, the worker's memory, and the shards whose consumer was created and whose outcome is not recorded yet. -/
structure Yard where
  lanes : ShardId → Lane
  mem : Memory
  active : List ShardId

def Lane.asked (lane : Lane) (c : Call) : Lane := { lane with calls := lane.calls ++ [c] }

/-- The answers in the lane of a shard. -/
def laneReply (P : Partner) (store : RowStore) : (r : Req) → Lane → Option (Resp r × Lane)
  | .db _ op, lane =>
    let answer := store lane op
    some (answer.1, { lane with row := answer.2, writes := lane.writes ++ [op] })
  | .getRecords _ after, lane => some (P.read lane.calls after, lane.asked (.read after))
  | .createConsumer _, lane => some ((), lane.asked .created)
  | .deliver _ records, lane =>
    let answer := P.deliver lane.calls records
    some (answer, lane.asked (.delivered records answer))
  | .shardEnded _, lane => some (P.ended lane.calls, lane.asked .ended)
  | .leaseLost _, lane => some (P.lost lane.calls, lane.asked .lost)
  | .sleep _, lane => some ((), lane)
  | .metric _, lane => some ((), lane)
  | _, _ => none

def Yard.ask (P : ShardId → Partner) (store : ShardId → RowStore) (s : Yard) (k : ShardId) (r : Req) :
    Option (Resp r × Yard) :=
  (laneReply (P k) (store k) r (s.lanes k)).map fun x => (x.1, { s with lanes := Function.update s.lanes k x.2 })

def recorded (m m' : Memory) : List ShardId := (m'.outcomes.drop m.outcomes.length).map Prod.fst

def laneExec (P : ShardId → Partner) (store : ShardId → RowStore) (_ : Worker) :
    (r : Req) → Nat → Yard → Option (Resp r × Yard)
  | .db key op, _, s => s.ask P store key (.db key op)
  | .getRecords shard after, _, s => s.ask P store shard (.getRecords shard after)
  | .createConsumer shard, _, s => ({ s with active := shard :: s.active }).ask P store shard (.createConsumer shard)
  | .deliver shard records, _, s => s.ask P store shard (.deliver shard records)
  | .shardEnded shard, _, s => s.ask P store shard (.shardEnded shard)
  | .leaseLost shard, _, s => s.ask P store shard (.leaseLost shard)
  | .mem f, _, s => some ((f s.mem).1, { s with
      mem := (f s.mem).2
      active := s.active.filter fun k => k ∉ recorded s.mem (f s.mem).2 })
  | .now, reading, s => some (reading, s)
  | .sleep _, _, s => some ((), s)
  | .metric _, _, s => some ((), s)
  | _, _, _ => none

def laneHandler (P : ShardId → Partner) (store : ShardId → RowStore) : Handler Req Resp Worker Nat Yard :=
  ⟨laneExec P store⟩

def ownHandler (P : ShardId → Partner) (store : ShardId → RowStore) (k : ShardId) : Handler Req Resp Worker Unit Lane :=
  ⟨fun _ r _ lane => laneReply (P k) (store k) r lane⟩

/-! ## A pass stays in its lane -/

/-- The requests of a pass over the shard, once its consumer is created. -/
def OfPass (k : ShardId) : Req → Prop
  | .db key _ => key = k
  | .getRecords shard _ => shard = k
  | .deliver shard _ => shard = k
  | .shardEnded shard => shard = k
  | .leaseLost shard => shard = k
  | .sleep _ => True
  | .metric _ => True
  | _ => False

section
variable {P : ShardId → Partner} {store : ShardId → RowStore} {w : Worker} {k : ShardId}

theorem ask_eq {s s' : Yard} {r : Req} {a : Resp r} (h : s.ask P store k r = some (a, s')) :
    laneReply (P k) (store k) r (s.lanes k) = some (a, s'.lanes k) ∧ (∀ j, j ≠ k → s'.lanes j = s.lanes j) ∧
      s'.mem = s.mem ∧ s'.active = s.active := by
  obtain ⟨x, hx, he⟩ := Option.map_eq_some_iff.mp h
  cases he
  refine ⟨by simpa using hx, ?_, rfl, rfl⟩
  intro j hj
  simp [hj]

theorem exec_ofPass {r : Req} (hr : OfPass k r) {c : Nat} {s s' : Yard} {a : Resp r}
    (h : laneExec P store w r c s = some (a, s')) :
    laneReply (P k) (store k) r (s.lanes k) = some (a, s'.lanes k) ∧ (∀ j, j ≠ k → s'.lanes j = s.lanes j) ∧
      s'.mem = s.mem ∧ s'.active = s.active := by
  cases r <;> simp only [OfPass] at hr
  case db key op => subst hr; exact ask_eq h
  case getRecords shard after => subst hr; exact ask_eq h
  case deliver shard records => subst hr; exact ask_eq h
  case shardEnded shard => subst hr; exact ask_eq h
  case leaseLost shard => subst hr; exact ask_eq h
  case sleep ms =>
    cases h
    exact ⟨rfl, fun _ _ => rfl, rfl, rfl⟩
  case metric m =>
    cases h
    exact ⟨rfl, fun _ _ => rfl, rfl, rfl⟩

theorem exec_of_reply {r : Req} (hr : OfPass k r) {s : Yard} {a : Resp r} {lane : Lane}
    (h : laneReply (P k) (store k) r (s.lanes k) = some (a, lane)) :
    ∃ s', laneExec P store w r 0 s = some (a, s') ∧ s'.lanes k = lane ∧ s'.mem = s.mem := by
  have hask : s.ask P store k r = some (a, { s with lanes := Function.update s.lanes k lane }) := by
    simp only [Yard.ask, h, Option.map_some]
  have hlane : Function.update s.lanes k lane k = lane := Function.update_self _ _ _
  cases r <;> simp only [OfPass] at hr
  case db key op => subst hr; exact ⟨_, hask, hlane, rfl⟩
  case getRecords shard after => subst hr; exact ⟨_, hask, hlane, rfl⟩
  case deliver shard records => subst hr; exact ⟨_, hask, hlane, rfl⟩
  case shardEnded shard => subst hr; exact ⟨_, hask, hlane, rfl⟩
  case leaseLost shard => subst hr; exact ⟨_, hask, hlane, rfl⟩
  case sleep ms =>
    cases h
    exact ⟨s, rfl, rfl, rfl⟩
  case metric m =>
    cases h
    exact ⟨s, rfl, rfl, rfl⟩

theorem passes_ofPass {r : Req} (hr : OfPass k r) {lane lane' : Lane} {a : Resp r}
    (h : (ownHandler P store k).exec w r () lane = some (a, lane')) : passes lane'.calls = passes lane.calls := by
  cases r <;> simp only [OfPass] at hr <;> cases h <;> simp [Lane.asked, passes, Call.isCreated]

theorem local_ofPass : Local (laneHandler P store) (ownHandler P store k) w (OfPass k) fun s => s.lanes k :=
  ⟨fun _ hr _ _ _ _ he => (exec_ofPass (w := w) hr he).1⟩

theorem runs_of_steps {α : Type} {p q : Fx α} (hp : Uses (OfPass k) p) {s : Yard} {lane : Lane}
    (h : Relation.ReflTransGen (Step (ownHandler P store k) w) (p, s.lanes k) (q, lane)) :
    ∃ u, Runs (laneHandler P store) Alone w p s q u ∧ u.lanes k = lane ∧ u.mem = s.mem := by
  generalize hx : (p, s.lanes k) = x at h
  induction h using Relation.ReflTransGen.head_induction_on generalizing p s with
  | refl =>
    cases hx
    exact ⟨s, .refl _ _, rfl, rfl⟩
  | head hstep _ ih =>
    subst hx
    cases hstep with
    | call hf he =>
      obtain ⟨hr, hk⟩ := uses_focus hp hf
      obtain ⟨s', he', rfl, hmem⟩ := exec_of_reply (w := w) hr he
      obtain ⟨u, hu, hlane, hum⟩ := ih (hk _) rfl
      exact ⟨u, .call hf he' hu, hlane, hum.trans hmem⟩
    | silent hs =>
      obtain ⟨u, hu, hlane, hum⟩ := ih (uses_silent hp hs) rfl
      exact ⟨u, .silent hs hu, hlane, hum⟩

theorem ofPass_checkpoint (owner : Worker) (c : Nat) (q : SequenceNumber) :
    Uses (OfPass k) (dynamoDbLeaseStore.checkpoint k owner c q) := by
  have hwrite : OfPass k (.db k (.checkpoint owner c q)) := rfl
  refine uses_bind (uses_retryThrottled (uses_conditionalWrite hwrite) (fun _ => trivial) _ _) ?_
  intro _
  trivial

theorem ofPass_lostLease {α : Type} (x : α) : Uses (OfPass k) ((lostLease k).bind fun _ => (.ret x : Fx α)) :=
  ⟨trivial, fun _ => ⟨rfl, fun _ => trivial⟩⟩

variable {task : ShardTask} (hd : task.deferred = false)
include hd

theorem ofPass_deliverRecords (c : Nat) (records : List Record) :
    Uses (OfPass task.shard) (deliverRecords dynamoDbLeaseStore task c records) := by
  refine ⟨rfl, ?_⟩
  intro a
  match a with
  | .ok none => trivial
  | .error e => simp [hd, Prog.bind, Uses]
  | .ok (some q) =>
    show Uses (OfPass task.shard) (persistAck dynamoDbLeaseStore task c q)
    unfold persistAck
    rw [if_neg (by simp [hd])]
    refine uses_bind (ofPass_checkpoint _ _ _) ?_
    intro x
    cases x with
    | ok c' => trivial
    | error e => exact ofPass_lostLease _

theorem ofPass_endShard (c : Nat) : Uses (OfPass task.shard) (endShard dynamoDbLeaseStore task c) := by
  unfold endShard
  rw [if_neg (by simp [hd])]
  refine ⟨rfl, fun _ => ?_⟩
  refine uses_bind (p := dynamoDbLeaseStore.markComplete task.shard task.owner c)
    (uses_bind (uses_conditionalWrite rfl) fun _ => trivial) ?_
  intro _
  exact ⟨trivial, fun _ => trivial⟩

theorem ofPass_passBody (st : PassState) :
    Uses (OfPass task.shard) (passBody contractSource dynamoDbLeaseStore task st) := by
  have hend : ∀ c, Uses (OfPass task.shard) ((endShard dynamoDbLeaseStore task c).bind fun o =>
      (.ret (.inr (.ok o)) : Fx (PassState ⊕ Except WorkerError PassOutcome))) :=
    fun c => uses_bind (ofPass_endShard hd c) fun _ => trivial
  refine ⟨rfl, ?_⟩
  intro a
  cases a with
  | error e => trivial
  | ok batch =>
    simp only [Prog.bind, Except.mapError, Prog.bind_eq, Prog.pure_eq]
    split
    · split
      · exact hend _
      · trivial
    · refine uses_bind (ofPass_deliverRecords hd _ _) ?_
      intro x
      cases x with
      | none => trivial
      | some c =>
        refine ⟨trivial, fun _ => ?_⟩
        simp only [Prog.bind]
        split
        · exact hend _
        · trivial

theorem ofPass_processShard : Uses (OfPass task.shard) (processShard contractSource dynamoDbLeaseStore task) := by
  unfold processShard resumePosition
  rw [if_neg (by simp [hd])]
  exact ⟨ofPass_passBody hd, ofPass_passBody hd _, fun _ => trivial⟩

end

end StreamsConsumer
