import StreamsConsumer.Conc.Solo
import StreamsConsumer.Worker.AcquireRace
import StreamsConsumer.Worker.InProcess
import StreamsConsumer.Worker.Rules

/-!
# What a claim hands over

`acquire` of the DynamoDB lease store, seen through the trait. A claim knows
the row it read only by its counter, and the handle it builds has no
checkpoint, whatever the row holds. The in-process worker over this store
starts every shard from the beginning of its log.
-/

namespace StreamsConsumer
open Conc Graph

/-! ## One call -/

def leaseHandle (l : Lease) : LeaseHandle := ⟨l.owner.getD "", l.leaseCounter, l.checkpoint⟩

def asHandle (p : Fx (Except LeaseError Lease)) : Fx (Except WorkerError LeaseHandle) :=
  boxLease (p.bind fun r => .ret (r.map leaseHandle))

theorem acquire_eq_asHandle (key : ShardId) (w : Worker) :
    dynamoDbLeaseStore.acquire key w = asHandle (DynamoDbLeaseStore.acquire key w) := rfl

section
variable {K : Contract} {I : World → World → Prop} {w owner : Worker} {key : ShardId} {s s₁ s₂ : World} {c : Choice}

theorem acquirePhase_call {ph : AcquirePhase} {p : Fx (Except LeaseError Lease)} (hp : ph.Prog key owner p) {π : List Nat}
    {x : (r : Req) × (Resp r → Fx (Except WorkerError LeaseHandle))} (hf : (asHandle p).focus π = some x) {a : Resp x.1} :
    ∃ ph' p', AcquirePhase.Prog key owner p' ph' ∧ x.2 a = asHandle p' := by
  cases ph with
  | put =>
    obtain rfl : p = DynamoDbLeaseStore.acquire key owner := hp
    cases hf
    cases a with
    | ok n => exact ⟨.done _, _, ⟨_, rfl, rfl⟩, rfl⟩
    | error e =>
      by_cases he : e.code = some CONDITIONAL_CHECK_FAILED
      · refine ⟨.get, _, rfl, ?_⟩
        simp only [he, asHandle, boxLease, Prog.bind]
        rfl
      · refine ⟨.done _, .ret (.error (.aws (.sdk e))), ⟨_, rfl, rfl⟩, ?_⟩
        simp [he, asHandle, boxLease, Prog.bind]
  | get =>
    cases hp
    cases hf
    cases a with
    | ok row =>
      cases row with
      | none => exact ⟨.done _, _, ⟨_, rfl, rfl⟩, rfl⟩
      | some r => exact ⟨.claim r.leaseCounter, _, rfl, rfl⟩
    | error e => exact ⟨.done _, _, ⟨_, rfl, rfl⟩, rfl⟩
  | claim m =>
    cases hp
    cases hf
    cases a with
    | ok n => exact ⟨.done _, _, ⟨_, rfl, rfl⟩, rfl⟩
    | error e => exact ⟨.done _, _, ⟨_, rfl, rfl⟩, rfl⟩
  | done won =>
    obtain ⟨r, rfl, _⟩ := hp
    cases hf

theorem acquirePhase_silent {ph : AcquirePhase} {p : Fx (Except LeaseError Lease)} (hp : ph.Prog key owner p)
    (π : List Nat) : (asHandle p).silent π = none := by
  cases ph with
  | put => cases hp; rfl
  | get => cases hp; rfl
  | claim m => cases hp; rfl
  | done won =>
    obtain ⟨r, rfl, _⟩ := hp
    rfl

theorem runs_acquirePhase {p : Fx (Except LeaseError Lease)} {ph : AcquirePhase} (hp : ph.Prog key owner p)
    {q : Fx (Except WorkerError LeaseHandle)} (h : Runs (handler K) I w (asHandle p) s q s₁) :
    ∃ ph' p', AcquirePhase.Prog key owner p' ph' ∧ q = asHandle p' := by
  generalize hq : asHandle p = q₀ at h
  induction h generalizing p ph with
  | refl => exact ⟨ph, p, hp, hq.symm⟩
  | call hf _ _ ih =>
    subst hq
    obtain ⟨ph', p', hp', he⟩ := acquirePhase_call hp hf
    exact ih hp' he.symm
  | silent hs _ _ =>
    subst hq
    rw [acquirePhase_silent hp] at hs
    cases hs
  | other _ _ ih => exact ih hp hq

/-- The request with which a call returns a handle for a row that exists is its claim: the row keeps its
checkpoint, and the handle has none. -/
theorem acquire_returns {q : Fx (Except WorkerError LeaseHandle)}
    (hrun : Runs (handler K) I w (dynamoDbLeaseStore.acquire key owner) s q s₁)
    {x : (r : Req) × (Resp r → Fx (Except WorkerError LeaseHandle))} (hf : q.focus [] = some x) {a : Resp x.1}
    (he : exec K w x.1 c s₁ = some (a, s₂)) {h : LeaseHandle} (hret : x.2 a = .ret (.ok h)) {r : Lease}
    (hrow : s₁.table key = some r) :
    h = ⟨owner, r.leaseCounter + 1, none⟩ ∧
      s₂.table key = some { r with owner := some owner, leaseCounter := r.leaseCounter + 1 } := by
  obtain ⟨ph, p, hp, rfl⟩ := @runs_acquirePhase _ _ _ _ _ _ _ _ .put rfl _ hrun
  cases ph with
  | put =>
    -- the put fails on a row
    cases hp
    cases hf
    change execDb w key (.put owner) c s₁ = some (a, s₂) at he
    cases a with
    | ok n =>
      cases c <;> simp only [execDb, hrow, DbOp.apply, reduceCtorEq] at he
      · cases he
      · split at he <;> cases he
    | error e =>
      by_cases hc : e.code = some CONDITIONAL_CHECK_FAILED
      · simp [hc, Prog.bind, DynamoDbLeaseStore.get, Prog.req] at hret
      · simp [hc, Prog.bind, Except.map, Except.mapError] at hret
  | get =>
    cases hp
    cases hf
    cases a with
    | ok row =>
      cases row with
      | none => cases hret
      | some r' => cases hret
    | error e => cases hret
  | claim m =>
    cases hp
    cases hf
    change execDb w key (.claim owner m) c s₁ = some (a, s₂) at he
    cases a with
    | error e => cases hret
    | ok n =>
      cases hret
      cases c <;> simp only [execDb, hrow, DbOp.apply, reduceCtorEq] at he
      case ok =>
        by_cases hm : r.leaseCounter = m
        · rw [if_pos hm] at he
          cases he
          exact ⟨by simp [leaseHandle, hm], by simp [World.write]⟩
        · rw [if_neg hm] at he
          cases he
      case fault e =>
        split at he <;> cases he
      case lostReply e =>
        split at he <;> cases he
  | done won =>
    obtain ⟨_, rfl, _⟩ := hp
    cases hf

end

/-! ## The worker over the DynamoDB store -/

def answered (K : Contract) (w : Worker) {α : Type} (p : Fx (Except WorkerError α)) (s : World) :
    Except WorkerError α × World :=
  (eval (handler K) w (fun _ => .ok) p s).getD (.error (.box (.text "unanswered")), s)

def dynamoDbView (key : ShardId) : Fx (Except WorkerError (Option LeaseView)) :=
  (DynamoDbLeaseStore.get key).bind fun r =>
    .ret ((r.mapError fun e => .box (.sdk e)).map fun row => row.map fun l => ⟨l.completed⟩)

def dynamoDbWorkerStore (K : Contract) : WorkerStore World where
  get s key := (answered K "" (dynamoDbView key) s).1
  acquire s key owner := answered K owner (dynamoDbLeaseStore.acquire key owner) s
  checkpoint s key owner counter seq := answered K owner (dynamoDbLeaseStore.checkpoint key owner counter seq) s
  markComplete s key owner counter := answered K owner (dynamoDbLeaseStore.markComplete key owner counter) s

section
variable {K : Contract} {w : Worker} {key : ShardId} {s : World}

theorem eval_dbRequest {op : DbOp} {row : Option Lease} (h : op.apply key (s.table key) = some row) :
    eval (handler K) w (fun _ => .ok) (dbRequest key op) s =
      some (.ok (row.elim 0 Lease.leaseCounter), s.write w key op row) := by
  change (execDb w key op .ok s).bind _ = _
  simp only [execDb, h]
  rfl

theorem eval_conditionalWrite {α : Type} {op : DbOp} {row : Option Lease} {a : α}
    (h : op.apply key (s.table key) = some row) :
    eval (handler K) w (fun _ => .ok) (conditionalWrite key op a) s = some (.ok a, s.write w key op row) := by
  unfold conditionalWrite
  rw [eval_bind, eval_dbRequest h]
  rfl

theorem eval_boxLease {α : Type} {p : Fx (Except LeaseError α)} {a : α} {t : World}
    (h : eval (handler K) w (fun _ => .ok) p s = some (.ok a, t)) :
    answered K w (boxLease p) s = (.ok a, t) := by
  unfold answered boxLease
  rw [eval_bind, h]
  rfl

theorem eval_withThrottleRetry {α : Type} {p : Fx (Except LeaseError α)} {a : α} {t : World}
    (h : eval (handler K) w (fun _ => .ok) p s = some (.ok a, t)) :
    eval (handler K) w (fun _ => .ok) (withThrottleRetry p) s = some (.ok a, t) := by
  unfold withThrottleRetry retryThrottled
  rw [eval_bind, h]
  rfl

theorem eval_claim {r : Lease} (h : s.table key = some r) :
    eval (handler K) w (fun _ => .ok) (DynamoDbLeaseStore.acquire key w) s =
      some (.ok ⟨key, some w, r.leaseCounter + 1, false, none, []⟩,
        s.write w key (.claim w r.leaseCounter) (some { r with owner := some w, leaseCounter := r.leaseCounter + 1 })) := by
  have hput : eval (handler K) w (fun _ => .ok) (dbRequest key (.put w)) s = some (.error .conditionFailed, s) := by
    change (execDb w key (.put w) .ok s).bind _ = _
    simp only [execDb, h, DbOp.apply]
    rfl
  have hget : eval (handler K) w (fun _ => .ok) (DynamoDbLeaseStore.get key) s = some (.ok (some r), s) := by
    rw [← h]
    rfl
  unfold DynamoDbLeaseStore.acquire
  rw [eval_bind, hput, Option.bind_some]
  simp only [AwsError.conditionFailed, ne_eq, not_true_eq_false, if_false]
  rw [eval_bind, hget, Option.bind_some]
  refine eval_conditionalWrite ?_
  rw [h]
  simp [DbOp.apply]

theorem dynamoDbWorkerStore_lock (K : Contract) :
    (dynamoDbWorkerStore K).OptimisticLock World.table fun _ => none where
  get_eq _ _ := rfl
  acquire_absent s key w h := by
    have hput : (DbOp.put w).apply key (s.table key) = some (some ⟨key, some w, 1, false, none, []⟩) := by
      rw [h]
      rfl
    refine ⟨s.write w key (.put w) (some ⟨key, some w, 1, false, none, []⟩), ?_, rfl⟩
    refine eval_boxLease ?_
    rw [eval_bind]
    unfold DynamoDbLeaseStore.acquire
    rw [eval_bind, eval_dbRequest hput]
    rfl
  acquire_row s key w r h := by
    refine ⟨s.write w key (.claim w r.leaseCounter)
      (some { r with owner := some w, leaseCounter := r.leaseCounter + 1 }), ?_, rfl⟩
    refine eval_boxLease ?_
    rw [eval_bind, eval_claim h]
    rfl
  checkpoint_eq _ _ _ _ _ _ h := ⟨_, eval_boxLease (eval_withThrottleRetry (eval_conditionalWrite h)), rfl⟩
  markComplete_eq _ _ _ _ _ h := ⟨_, eval_boxLease (eval_conditionalWrite h), rfl⟩

end

theorem recordsAfter_excludes {log : List Record} (hn : (log.map Record.seq).Nodup) {q : SequenceNumber}
    (hq : q ∈ log.map Record.seq) : ∃ r ∈ log, r ∉ recordsAfter log (some q) := by
  obtain ⟨r, hr, rfl⟩ := List.mem_map.mp hq
  obtain ⟨l₁, l₂, rfl⟩ := List.append_of_mem hr
  refine ⟨r, hr, ?_⟩
  rw [recordsAfter_some hn rfl]
  intro hmem
  rw [List.map_append, List.map_cons, List.nodup_append] at hn
  exact (List.nodup_cons.mp hn.2.1).1 (List.mem_map_of_mem hmem)

def deliveredRecords (s : ShardId) (calls : List ProcessorCall) : List Record :=
  (sights s calls).filterMap fun
    | .record r => some r
    | _ => none

theorem deliveredRecords_visit {s : ShardId} {calls : List ProcessorCall} {records : List Record}
    (h : sights s calls = .initializeShard :: (records.map .record ++ [.ended])) : deliveredRecords s calls = records := by
  unfold deliveredRecords
  rw [h]
  simp [List.filterMap_append, List.filterMap_map]

section
variable {src : StreamSource} {log : ShardId → List Record}

/-- Over the DynamoDB store the worker delivers the whole log of every shard that is not complete. -/
theorem InProcess.run_dynamoDb (K : Contract) (owner : Worker) (hs : ServesLogs log src.getRecords)
    (hg : ShardGraph src.describeShards) (st : Drain World) :
    ∃ n, ∀ fuel, n ≤ fuel → ∃ st' calls, run ⟨src.fallible, dynamoDbWorkerStore K, owner⟩ fuel st = some (.ok (), st') ∧
      st'.seen = st.seen ++ calls ∧ ∀ m ∈ src.describeShards,
        deliveredRecords m.id calls = if rowComplete st.store.table m.id then [] else log m.id := by
  obtain ⟨bound, hbound⟩ := exists_bound src.describeShards log
  refine ⟨bound + src.describeShards.length + 1, ?_⟩
  intro fuel hfuel
  have hresume : ∀ s, rowResume (fun _ => none) st.store.table s = none := by
    intro s
    unfold rowResume
    cases st.store.table s <;> rfl
  have hcp : ∀ m ∈ src.describeShards, InLog (log m.id) (rowResume (fun _ => none) st.store.table m.id) := by
    intro m _ q hq
    rw [hresume] at hq
    cases hq
  obtain ⟨st', l, hrun, ⟨_, calls, hseen, hd⟩, hall⟩ := @HasDrained.run _ _ _ _ _ _ st bound owner
    (dynamoDbWorkerStore_lock K) hs hg hcp hbound src.describeShards.length fuel st [] (by simp) (by omega)
    ⟨fun _ _ => rfl, [], by simp, .refl⟩
  refine ⟨st', calls, hrun, hseen, ?_⟩
  intro m hm
  have hsights := hd.sights_eq hs.own m.id
  simp only [hd.mem_iff hall, hresume] at hsights
  by_cases hc : rowComplete st.store.table m.id = true
  · rw [if_neg (by simp [hc])] at hsights
    simp [deliveredRecords, hsights, hc]
  · rw [if_pos ⟨List.mem_map_of_mem hm, by simpa using hc⟩] at hsights
    rw [if_neg hc]
    exact deliveredRecords_visit hsights

/-- A handle has the counter of the claimed row, and its checkpoint exactly if the row has none. The worker
delivers only records after the checkpoints exactly if no shard that is not complete has one. -/
theorem claim_hands_over_iff (K : Contract) (owner : Worker) (hs : ServesLogs log src.getRecords)
    (hg : ShardGraph src.describeShards) :
    (∀ (I : World → World → Prop) (key : ShardId) (s s₁ s₂ : World) (q : Fx (Except WorkerError LeaseHandle))
      (x : (r : Req) × (Resp r → Fx (Except WorkerError LeaseHandle))) (c : Choice) (a : Resp x.1) (h : LeaseHandle)
      (r : Lease), Runs (handler K) I owner (dynamoDbLeaseStore.acquire key owner) s q s₁ → q.focus [] = some x →
      exec K owner x.1 c s₁ = some (a, s₂) → x.2 a = .ret (.ok h) → s₁.table key = some r →
      ∃ r', s₂.table key = some r' ∧ h.counter = r'.leaseCounter ∧ (h.checkpoint = r'.checkpoint ↔ r.checkpoint = none)) ∧
    ∀ st : Drain World, (∀ m ∈ src.describeShards, InLog (log m.id) (rowCheckpoint st.store.table m.id)) →
      ∃ n, ∀ fuel, n ≤ fuel → ∃ st' calls,
        InProcess.run ⟨src.fallible, dynamoDbWorkerStore K, owner⟩ fuel st = some (.ok (), st') ∧
        st'.seen = st.seen ++ calls ∧
        ((∀ m ∈ src.describeShards, ∀ r ∈ deliveredRecords m.id calls,
            r ∈ recordsAfter (log m.id) (rowCheckpoint st.store.table m.id)) ↔
          ∀ m ∈ src.describeShards, rowComplete st.store.table m.id = false → rowCheckpoint st.store.table m.id = none) := by
  constructor
  · intro I key s s₁ s₂ q x c a h r hrun hf he hret hrow
    obtain ⟨rfl, hrow'⟩ := acquire_returns hrun hf he hret hrow
    exact ⟨_, hrow', rfl, eq_comm⟩
  · intro st hcp
    obtain ⟨n, hn⟩ := InProcess.run_dynamoDb K owner hs hg st
    refine ⟨n, ?_⟩
    intro fuel hfuel
    obtain ⟨st', calls, hrun, hseen, hdelivered⟩ := hn fuel hfuel
    refine ⟨st', calls, hrun, hseen, ?_, ?_⟩
    · intro honly m hm hc
      by_contra hne
      obtain ⟨q, hq⟩ := Option.ne_none_iff_exists'.mp hne
      obtain ⟨r, hr, hnot⟩ := recordsAfter_excludes (hs.distinct m.id) (hcp m hm q hq)
      have hmem : r ∈ deliveredRecords m.id calls := by
        rw [hdelivered m hm, hc]
        exact hr
      have hafter := honly m hm r hmem
      rw [hq] at hafter
      exact hnot hafter
    · intro hnone m hm r hr
      rw [hdelivered m hm] at hr
      by_cases hc : rowComplete st.store.table m.id = true
      · rw [if_pos hc] at hr
        cases hr
      · rw [if_neg hc] at hr
        rw [hnone m hm (by simpa using hc)]
        exact hr

end

def mergeWorld : World := { plainFleet.init with table := InProcess.mergeTable.store }

theorem mergeWorld_inLog : ∀ m ∈ Scheduler.mergeMetas, InLog (Scheduler.mergeLog m.id) (rowCheckpoint mergeWorld.table m.id) := by
  intro m hm q hq
  simp only [Scheduler.mergeMetas, List.mem_cons, List.not_mem_nil, or_false] at hm
  rcases hm with rfl | rfl | rfl <;> simp [rowCheckpoint, mergeWorld, InProcess.mergeTable] at hq
  subst hq
  decide

theorem claim_hands_over_iff_merge :
    (∃ s₂ r', execDb "w" "a" (.claim "w" 7) .ok mergeWorld = some (.ok 8, s₂) ∧ s₂.table "a" = some r' ∧
      r'.leaseCounter = 8 ∧ ((none : Option SequenceNumber) = r'.checkpoint ↔ some "1" = (none : Option SequenceNumber))) ∧
    ∃ n, ∀ fuel, n ≤ fuel → ∃ st' calls,
      InProcess.run ⟨(inMemSource Scheduler.mergeMetas Scheduler.mergeLog).fallible, dynamoDbWorkerStore exactContract, "w"⟩
        fuel ⟨mergeWorld, 0, []⟩ = some (.ok (), st') ∧ st'.seen = [] ++ calls ∧
      ¬ ∀ m ∈ Scheduler.mergeMetas, ∀ r ∈ deliveredRecords m.id calls,
        r ∈ recordsAfter (Scheduler.mergeLog m.id) (rowCheckpoint mergeWorld.table m.id) := by
  obtain ⟨hcall, hrun⟩ := claim_hands_over_iff exactContract "w" Scheduler.mergeLog_serves Scheduler.mergeMetas_graph
  constructor
  · -- the put fails, the read sees counter 7, and the claim meets it
    have hphases : Runs (handler exactContract) (fun _ _ => False) "w" (dynamoDbLeaseStore.acquire "a" "w") mergeWorld
        (asHandle (DynamoDbLeaseStore.claim "a" "w" 7)) mergeWorld :=
      .call (π := []) (c := .ok) rfl rfl (.call (π := []) (c := .ok) rfl rfl (.refl _ _))
    obtain ⟨r', hr', hcounter, hcheckpoint⟩ := hcall _ _ _ _ _ _ _ .ok _ _ _ hphases rfl rfl rfl rfl
    exact ⟨_, r', rfl, hr', hcounter.symm, hcheckpoint⟩
  · obtain ⟨n, hn⟩ := hrun ⟨mergeWorld, 0, []⟩ mergeWorld_inLog
    refine ⟨n, ?_⟩
    intro fuel hfuel
    obtain ⟨st', calls, hst, hseen, hiff⟩ := hn fuel hfuel
    refine ⟨st', calls, hst, hseen, ?_⟩
    intro honly
    have hnone := hiff.mp honly ⟨"a", []⟩ (by decide) rfl
    simp [rowCheckpoint, mergeWorld, InProcess.mergeTable] at hnone

theorem claim_drops_the_checkpoint :
    (∃ h s' r', eval (handler exactContract) "w" (fun _ => .ok) (dynamoDbLeaseStore.acquire "a" "w") mergeWorld =
      some (.ok h, s') ∧ s'.table "a" = some r' ∧ h.checkpoint ≠ r'.checkpoint) ∧
    ∃ n, ∀ fuel, n ≤ fuel → ∃ st' calls,
      InProcess.run ⟨(inMemSource Scheduler.mergeMetas Scheduler.mergeLog).fallible, dynamoDbWorkerStore exactContract, "w"⟩
        fuel ⟨mergeWorld, 0, []⟩ = some (.ok (), st') ∧ st'.seen = [] ++ calls ∧
      ∃ r ∈ deliveredRecords "a" calls, r ∉ recordsAfter (Scheduler.mergeLog "a") (rowCheckpoint mergeWorld.table "a") := by
  constructor
  · refine ⟨⟨"w", 8, none⟩, mergeWorld.write "w" "a" (.claim "w" 7) (some ⟨"a", some "w", 8, false, some "1", []⟩), _, rfl,
      rfl, ?_⟩
    simp
  · obtain ⟨n, hn⟩ := InProcess.run_dynamoDb exactContract "w" Scheduler.mergeLog_serves Scheduler.mergeMetas_graph
      ⟨mergeWorld, 0, []⟩
    refine ⟨n, ?_⟩
    intro fuel hfuel
    obtain ⟨st', calls, hst, hseen, hdelivered⟩ := hn fuel hfuel
    refine ⟨st', calls, hst, hseen, ⟨"a", "1", []⟩, ?_, ?_⟩
    · have hall : deliveredRecords "a" calls = Scheduler.mergeLog "a" := hdelivered ⟨"a", []⟩ (by decide)
      rw [hall]
      decide
    · simp [rowCheckpoint, mergeWorld, InProcess.mergeTable, Scheduler.mergeLog, recordsAfter]

end StreamsConsumer
