import StreamsConsumer.Core.Scheduler
import StreamsConsumer.Worker.Request

/-!
# The in-process worker

`Worker` of `worker/src/lib.rs`: the scheduler's job over a lease table. It
tests eligibility against a snapshot taken at the start of a pass, and in a
shard it carries the lease counter and its position along instead of reading
them back.
-/

namespace StreamsConsumer
open Graph

structure LeaseView where
  completed : Bool
  deriving DecidableEq, Repr

/-- What the worker uses of an `AsyncLeaseStore`, over a table that nobody else writes to meanwhile. -/
structure WorkerStore (σ : Type) where
  get : σ → ShardId → Except WorkerError (Option LeaseView)
  acquire : σ → ShardId → Worker → Except WorkerError LeaseHandle × σ
  checkpoint : σ → ShardId → Worker → Nat → SequenceNumber → Except WorkerError Nat × σ
  markComplete : σ → ShardId → Worker → Nat → Except WorkerError Unit × σ

structure FallibleSource where
  describeShards : Except WorkerError (List ShardMeta)
  getRecords : Nat → ShardId → Option SequenceNumber → Except WorkerError RecordBatch

def StreamSource.fallible (src : StreamSource) : FallibleSource where
  describeShards := .ok src.describeShards
  getRecords n shard after := .ok (src.getRecords n shard after)

@[simp] theorem StreamSource.fallible_describeShards (src : StreamSource) :
    src.fallible.describeShards = .ok src.describeShards := rfl

@[simp] theorem StreamSource.fallible_getRecords (src : StreamSource) (n : Nat) (shard : ShardId)
    (after : Option SequenceNumber) : src.fallible.getRecords n shard after = .ok (src.getRecords n shard after) := rfl

structure InProcess (σ : Type) where
  source : FallibleSource
  leases : WorkerStore σ
  owner : Worker

namespace InProcess

section
variable {σ : Type} (W : InProcess σ)

def absorb (shard : ShardId) (records : List Record) (counter : Nat) (after : Option SequenceNumber) (st : Drain σ) :
    Except WorkerError (Nat × Option SequenceNumber) × Drain σ :=
  match records.getLast? with
  | some last =>
    let r := W.leases.checkpoint st.store shard W.owner counter last.seq
    (r.1.map fun counter => (counter, some last.seq), { st.call (.processRecords records) with store := r.2 })
  | none => (.ok (counter, after), st)

def finish (shard : ShardId) (counter : Nat) (st : Drain σ) : Except WorkerError Unit × Drain σ :=
  let r := W.leases.markComplete st.store shard W.owner counter
  (r.1, { st.call (.shardEnded shard) with store := r.2 })

def deliver (shard : ShardId) : Nat → Nat → Option SequenceNumber → Drain σ →
    Option (Except WorkerError Unit × Drain σ)
  | 0, _, _, _ => none
  | fuel + 1, counter, after, st =>
    match W.source.getRecords st.reads shard after with
    | .error e => some (.error e, { st with reads := st.reads + 1 })
    | .ok batch =>
      match W.absorb shard batch.records counter after { st with reads := st.reads + 1 } with
      | (.error e, st') => some (.error e, st')
      | (.ok (counter', after'), st') =>
        if batch.shardEnd then some (W.finish shard counter' st')
        else if batch.records.isEmpty then some (.ok (), st')
        else deliver shard fuel counter' after' st'

def processShard (fuel : Nat) (m : ShardMeta) (st : Drain σ) : Option (Except WorkerError Unit × Drain σ) :=
  match W.leases.acquire st.store m.id W.owner with
  | (.error e, store) => some (.error e, { st with store := store })
  | (.ok handle, store) =>
    W.deliver m.id fuel handle.counter handle.checkpoint ({ st with store := store }.call (.initializeShard m.id))

/-- The listed shards whose lease is complete. -/
def snapshot (store : σ) : List ShardMeta → Except WorkerError (List ShardId)
  | [] => .ok []
  | m :: ms =>
    match W.leases.get store m.id with
    | .error e => .error e
    | .ok view => (snapshot store ms).map fun ids => if view.elim false LeaseView.completed then m.id :: ids else ids

def sweep (fuel : Nat) (completed existing : List ShardId) : List ShardMeta → Bool → Drain σ →
    Option (Except WorkerError Bool × Drain σ)
  | [], progressed, st => some (.ok progressed, st)
  | m :: ms, progressed, st =>
    if eligible m completed existing then
      match W.processShard fuel m st with
      | none => none
      | some (.error e, st') => some (.error e, st')
      | some (.ok (), st') => sweep fuel completed existing ms true st'
    else sweep fuel completed existing ms progressed st

/-- Whether all shards are complete, and whether the pass worked on any. -/
def runOnce (fuel : Nat) (st : Drain σ) : Option (Except WorkerError (Bool × Bool) × Drain σ) :=
  match W.source.describeShards with
  | .error e => some (.error e, st)
  | .ok shards =>
    match W.snapshot st.store shards with
    | .error e => some (.error e, st)
    | .ok completed =>
      if !shards.isEmpty && shards.all fun m => completed.contains m.id then some (.ok (true, false), st)
      else
        (W.sweep fuel completed (shards.map ShardMeta.id) shards false st).map fun r =>
          (r.1.map fun progressed => (false, progressed), r.2)

def run : Nat → Drain σ → Option (Except WorkerError Unit × Drain σ)
  | 0, _ => none
  | fuel + 1, st =>
    match W.runOnce fuel st with
    | none => none
    | some (.error e, st') => some (.error e, st')
    | some (.ok (complete, progressed), st') => if complete || !progressed then some (.ok (), st') else run fuel st'

end

end InProcess

/-! ## Stores that follow the optimistic lock -/

section
variable {σ : Type}

/-- The store keeps the rows `row`. A write that meets its condition is applied and answered; `handed` is the
checkpoint that `acquire` hands over for the row it claims. -/
structure WorkerStore.OptimisticLock (S : WorkerStore σ) (row : σ → ShardId → Option Lease)
    (handed : Lease → Option SequenceNumber) : Prop where
  get_eq : ∀ s k, S.get s k = .ok ((row s k).map fun r => ⟨r.completed⟩)
  acquire_absent : ∀ s k w, row s k = none → ∃ s', S.acquire s k w = (.ok ⟨w, 1, none⟩, s') ∧
    row s' = Function.update (row s) k (some ⟨k, some w, 1, false, none, []⟩)
  acquire_row : ∀ s k w r, row s k = some r → ∃ s', S.acquire s k w = (.ok ⟨w, r.leaseCounter + 1, handed r⟩, s') ∧
    row s' = Function.update (row s) k (some { r with owner := some w, leaseCounter := r.leaseCounter + 1 })
  checkpoint_eq : ∀ s k w c q row', (DbOp.checkpoint w c q).apply k (row s k) = some row' →
    ∃ s', S.checkpoint s k w c q = (.ok (c + 1), s') ∧ row s' = Function.update (row s) k row'
  markComplete_eq : ∀ s k w c row', (DbOp.markComplete w c).apply k (row s k) = some row' →
    ∃ s', S.markComplete s k w c = (.ok (), s') ∧ row s' = Function.update (row s) k row'

def rowCheckpoint (table : ShardId → Option Lease) (s : ShardId) : Option SequenceNumber := (table s).bind Lease.checkpoint

def rowComplete (table : ShardId → Option Lease) (s : ShardId) : Bool := (table s).elim false Lease.completed

def rowResume (handed : Lease → Option SequenceNumber) (table : ShardId → Option Lease) (s : ShardId) :
    Option SequenceNumber := (table s).bind handed

end

/-! ## One shard -/

namespace InProcess

section
variable {σ : Type} {src : StreamSource} {S : WorkerStore σ} {owner : Worker} {row : σ → ShardId → Option Lease}
  {handed : Lease → Option SequenceNumber} {log : ShardId → List Record} {shard : ShardId} {st : Drain σ} {r : Lease}
  {counter : Nat} {after : Option SequenceNumber}

/-- The worker holds the lease `r` of a shard under `counter`. -/
structure Holds (row : σ → ShardId → Option Lease) (owner : Worker) (shard : ShardId) (counter : Nat) (store : σ)
    (r : Lease) : Prop where
  row_eq : row store shard = some r
  counter_eq : r.leaseCounter = counter
  owner_eq : r.owner = some owner

theorem absorb_none {records : List Record} {W : InProcess σ} (h : records.getLast? = none) :
    W.absorb shard records counter after st = (.ok (counter, after), st) := by
  unfold absorb
  rw [h]

theorem absorb_some (hS : S.OptimisticLock row handed) (hr : Holds row owner shard counter st.store r)
    {records : List Record} {last : Record} (h : records.getLast? = some last) :
    ∃ st', absorb ⟨src.fallible, S, owner⟩ shard records counter after st = (.ok (counter + 1, some last.seq), st') ∧
      st'.reads = st.reads ∧ st'.seen = st.seen ++ [.processRecords records] ∧
      row st'.store = Function.update (row st.store) shard
        (some { r with checkpoint := some last.seq, leaseCounter := r.leaseCounter + 1 }) := by
  obtain ⟨store, hstore, hrow⟩ := hS.checkpoint_eq st.store shard owner counter last.seq _ (by
    rw [hr.row_eq]
    simp only [DbOp.apply]
    rw [if_pos ⟨hr.counter_eq, hr.owner_eq⟩])
  unfold absorb
  rw [h]
  simp only [hstore]
  exact ⟨_, rfl, rfl, rfl, hrow⟩

theorem finish_spec (hS : S.OptimisticLock row handed) (hr : Holds row owner shard counter st.store r) :
    ∃ st', finish ⟨src.fallible, S, owner⟩ shard counter st = (.ok (), st') ∧
      st'.seen = st.seen ++ [.shardEnded shard] ∧
      row st'.store = Function.update (row st.store) shard (some { r with completed := true }) := by
  obtain ⟨store, hstore, hrow⟩ := hS.markComplete_eq st.store shard owner counter _ (by
    rw [hr.row_eq]
    simp only [DbOp.apply]
    rw [if_pos ⟨hr.counter_eq, hr.owner_eq⟩])
  unfold finish
  simp only [hstore]
  exact ⟨_, rfl, rfl, hrow⟩

theorem deliver_spec (hS : S.OptimisticLock row handed) (hs : ServesLogs log src.getRecords) : ∀ {fuel counter : Nat}
    {after : Option SequenceNumber} {st : Drain σ} {r : Lease}, InLog (log shard) after →
    (recordsAfter (log shard) after).length < fuel → Holds row owner shard counter st.store r →
    ∃ st' calls r', deliver ⟨src.fallible, S, owner⟩ shard fuel counter after st = some (.ok (), st') ∧
      st'.seen = st.seen ++ calls ∧ Delivery shard (recordsAfter (log shard) after) calls ∧
      row st'.store = Function.update (row st.store) shard (some r') ∧ r'.completed = true ∧
      r'.checkpoint = finalCheckpoint (recordsAfter (log shard) after) r.checkpoint
  | 0, _, _, _, _, _, hf, _ => by cases hf
  | fuel + 1, counter, after, st, r, hin, hf, hr => by
    have hserved := hs.served st.reads shard after hin
    unfold deliver
    simp only [StreamSource.fallible_getRecords]
    generalize src.getRecords st.reads shard after = batch at hserved
    obtain ⟨rest, hrest⟩ := hserved.inOrder
    cases hlast : batch.records.getLast? with
    | none =>
      -- an empty batch: nothing was left, and the source says so
      have hempty : batch.records = [] := List.getLast?_eq_none_iff.mp hlast
      have hnone : recordsAfter (log shard) after = [] := by
        by_contra hne
        exact hserved.progress hne hempty
      simp only [absorb_none hlast, hserved.closes hnone, if_true]
      obtain ⟨st', hfin, hseen, hrow⟩ := @finish_spec _ src S owner row handed shard { st with reads := st.reads + 1 } r
        counter hS hr
      refine ⟨st', _, _, congrArg some hfin, hseen, hnone ▸ Delivery.ended shard, hrow, rfl, ?_⟩
      rw [hnone]
      rfl
    | some last =>
      have hne : batch.records ≠ [] := by
        intro he
        simp [he] at hlast
      obtain ⟨st₁, habsorb, _, hseen₁, hrow₁⟩ := @absorb_some _ src S owner row handed shard
        { st with reads := st.reads + 1 } r counter after hS hr _ _ hlast
      rw [habsorb]
      have hr₁ : Holds row owner shard (counter + 1) st₁.store
          { r with checkpoint := some last.seq, leaseCounter := r.leaseCounter + 1 } := by
        refine ⟨?_, congrArg (· + 1) hr.counter_eq, hr.owner_eq⟩
        rw [hrow₁, Function.update_self]
      by_cases hend : batch.shardEnd = true
      · -- the batch reaches the end
        have hall := hserved.ends hend
        simp only [hend, if_true]
        obtain ⟨st', hfin, hseen, hrow⟩ := @finish_spec _ src S owner row handed shard st₁ _ (counter + 1) hS hr₁
        refine ⟨st', [.processRecords batch.records, .shardEnded shard], _, congrArg some hfin, ?_, ?_,
          hrow.trans (by rw [hrow₁, Function.update_idem]), rfl, ?_⟩
        · rw [hseen, hseen₁]
          simp
        · rw [← hall]
          simpa using Delivery.cons hne (Delivery.ended shard)
        · rw [← hall]
          simp [finalCheckpoint, hlast]
      · have hfalse : batch.shardEnd = false := by simpa using hend
        have hnotEmpty : batch.records.isEmpty = false := by simpa using hne
        simp only [hfalse, hnotEmpty, Bool.false_eq_true, if_false]
        -- the loop goes on after the last record of the batch
        have hafter := recordsAfter_batch (hs.distinct shard) hrest.symm hlast
        have hlen : rest.length < fuel := by
          have hpos : 0 < batch.records.length := List.length_pos_iff.mpr hne
          have htotal := congrArg List.length hrest
          rw [List.length_append] at htotal
          omega
        have hspec := @deliver_spec hS hs fuel (counter + 1) (some last.seq) st₁ _ (inLog_batch hrest.symm hlast)
          (by rw [hafter]; exact hlen) hr₁
        rw [hafter] at hspec
        obtain ⟨st', calls, r', hrun, hseen, hdel, hrow, hcomplete, hcheckpoint⟩ := hspec
        refine ⟨st', .processRecords batch.records :: calls, r', hrun, ?_, ?_, ?_, hcomplete, ?_⟩
        · rw [hseen, hseen₁]
          simp
        · rw [← hrest]
          exact Delivery.cons hne hdel
        · rw [hrow, hrow₁, Function.update_idem]
        · rw [hcheckpoint, ← hrest]
          exact (finalCheckpoint_append hlast).symm

theorem acquire_spec (hS : S.OptimisticLock row handed) (store : σ) (shard : ShardId) (owner : Worker) :
    ∃ store' counter r, S.acquire store shard owner = (.ok ⟨owner, counter, rowResume handed (row store) shard⟩, store') ∧
      Holds row owner shard counter store' r ∧ r.checkpoint = rowCheckpoint (row store) shard ∧
      r.completed = rowComplete (row store) shard ∧ row store' = Function.update (row store) shard (some r) := by
  unfold rowResume rowCheckpoint rowComplete
  cases hrow : row store shard with
  | none =>
    obtain ⟨store', hacq, hrow'⟩ := hS.acquire_absent store shard owner hrow
    exact ⟨store', 1, _, hacq, ⟨by rw [hrow', Function.update_self], rfl, rfl⟩, rfl, rfl, hrow'⟩
  | some r =>
    obtain ⟨store', hacq, hrow'⟩ := hS.acquire_row store shard owner r hrow
    refine ⟨store', _, { r with owner := some owner, leaseCounter := r.leaseCounter + 1 }, hacq, ⟨?_, rfl, rfl⟩, rfl, rfl,
      hrow'⟩
    rw [hrow', Function.update_self]

theorem processShard_spec (hS : S.OptimisticLock row handed) (hs : ServesLogs log src.getRecords) {fuel : Nat} {m : ShardMeta}
    (hin : InLog (log m.id) (rowResume handed (row st.store) m.id)) (hf : (log m.id).length < fuel) :
    ∃ st' d r', processShard ⟨src.fallible, S, owner⟩ fuel m st = some (.ok (), st') ∧
      st'.seen = st.seen ++ .initializeShard m.id :: d ∧
      Delivery m.id (recordsAfter (log m.id) (rowResume handed (row st.store) m.id)) d ∧
      row st'.store = Function.update (row st.store) m.id (some r') ∧ r'.completed = true ∧
      r'.checkpoint = finalCheckpoint (recordsAfter (log m.id) (rowResume handed (row st.store) m.id))
        (rowCheckpoint (row st.store) m.id) := by
  obtain ⟨store, counter, r, hacq, hr, hcp, _, hrow⟩ := acquire_spec hS st.store m.id owner
  unfold processShard
  simp only [hacq]
  have hlen : (recordsAfter (log m.id) (rowResume handed (row st.store) m.id)).length < fuel :=
    (recordsAfter_suffix _ _).length_le.trans_lt hf
  obtain ⟨st', d, r', hrun, hseen, hdel, hrow', hcomplete, hcheckpoint⟩ := @deliver_spec _ src S owner row handed log m.id
    hS hs fuel counter _ ({ st with store := store }.call (.initializeShard m.id)) r hin hlen hr
  refine ⟨st', d, r', hrun, ?_, hdel, ?_, hcomplete, hcp ▸ hcheckpoint⟩
  · rw [hseen]
    simp [Drain.call]
  · rw [hrow']
    simp only [Drain.call, hrow, Function.update_idem]

theorem snapshot_eq (hS : S.OptimisticLock row handed) (store : σ) : ∀ ms : List ShardMeta,
    snapshot ⟨src.fallible, S, owner⟩ store ms =
      .ok ((ms.filter fun m => rowComplete (row store) m.id).map ShardMeta.id)
  | [] => rfl
  | m :: ms => by
    unfold snapshot
    rw [hS.get_eq, snapshot_eq hS store ms]
    simp only [Except.map, List.filter_cons, rowComplete]
    cases row store m.id with
    | none => rfl
    | some r => cases hc : r.completed <;> simp [hc]

/-! ## All shards -/

/-- The worker at `st`, started at `st₀`, has drained the shards of `l` and touched no other lease. -/
def HasDrained (src : StreamSource) (row : σ → ShardId → Option Lease) (handed : Lease → Option SequenceNumber)
    (log : ShardId → List Record) (st₀ st : Drain σ) (l : List ShardId) : Prop :=
  (∀ s, s ∉ l → row st.store s = row st₀.store s) ∧ ∃ calls, st.seen = st₀.seen ++ calls ∧
    EngineState src.describeShards log (rowResume handed (row st₀.store)) (rowCheckpoint (row st₀.store))
      (rowComplete (row st₀.store)) l calls (rowComplete (row st.store)) (rowCheckpoint (row st.store))

section
variable {st₀ : Drain σ} {l : List ShardId} {fuel : Nat}

theorem HasDrained.visit (owner : Worker) (h : HasDrained src row handed log st₀ st l) (hS : S.OptimisticLock row handed)
    (hs : ServesLogs log src.getRecords) (hg : ShardGraph src.describeShards)
    (hcp : ∀ m ∈ src.describeShards, InLog (log m.id) (rowResume handed (row st₀.store) m.id))
    (hf : ∀ m ∈ src.describeShards, (log m.id).length < fuel) {m : ShardMeta} (hm : m ∈ src.describeShards)
    (hc : rowComplete (row st.store) m.id = false) (hp : ∀ p ∈ m.parents, rowComplete (row st.store) p = true) :
    ∃ st', processShard ⟨src.fallible, S, owner⟩ fuel m st = some (.ok (), st') ∧
      (∀ s, rowComplete (row st'.store) s = if s = m.id then true else rowComplete (row st.store) s) ∧
      HasDrained src row handed log st₀ st' (l ++ [m.id]) := by
  obtain ⟨hframe, calls, hseen, hd⟩ := h
  have hl : m.id ∉ l := by
    intro hl
    rw [hd.complete_eq] at hc
    simp [hl] at hc
  have hresume : rowResume handed (row st.store) m.id = rowResume handed (row st₀.store) m.id := by
    unfold rowResume
    rw [hframe _ hl]
  obtain ⟨st', d, r', hrun, hseen', hdel, hrow, hcomplete, hcheckpoint⟩ :=
    @processShard_spec _ src S owner row handed log st hS hs fuel m (hresume ▸ hcp m hm) (hf m hm)
  have hcomplete' : ∀ s, rowComplete (row st'.store) s = if s = m.id then true else rowComplete (row st.store) s := by
    intro s
    unfold rowComplete
    rw [hrow, Function.update_apply]
    by_cases hs : s = m.id
    · simp [hs, hcomplete]
    · simp [hs]
  refine ⟨st', hrun, hcomplete', ?_, calls ++ .initializeShard m.id :: d, ?_, hd.visit hg hm hc hp (hresume ▸ hdel) hcomplete' ?_⟩
  · intro s hs
    rw [List.mem_append, List.mem_singleton, not_or] at hs
    rw [hrow, Function.update_of_ne hs.2, hframe s hs.1]
  · rw [hseen', hseen]
    simp
  · intro s
    by_cases hs : s = m.id
    · simp only [hs, if_true, ← hresume, ← hcheckpoint]
      simp [rowCheckpoint, hrow]
    · simp [rowCheckpoint, hrow, hs]

/-- A pass drains the shards that were eligible when it began. Shards further down the list are not touched
before their turn, so the snapshot is still right about them. -/
theorem HasDrained.sweep (hS : S.OptimisticLock row handed) (hs : ServesLogs log src.getRecords)
    (hg : ShardGraph src.describeShards)
    (hcp : ∀ m ∈ src.describeShards, InLog (log m.id) (rowResume handed (row st₀.store) m.id))
    (hf : ∀ m ∈ src.describeShards, (log m.id).length < fuel) {completed : List ShardId} : ∀ {ms : List ShardMeta}
    {progressed : Bool} {st : Drain σ} {l : List ShardId}, (∀ m ∈ ms, m ∈ src.describeShards) →
    (ms.map ShardMeta.id).Nodup → (∀ s ∈ completed, rowComplete (row st.store) s = true) →
    (∀ m ∈ ms, rowComplete (row st.store) m.id = true → m.id ∈ completed) → HasDrained src row handed log st₀ st l →
    ∃ progressed' st' l', InProcess.sweep ⟨src.fallible, S, owner⟩ fuel completed (src.describeShards.map ShardMeta.id) ms
        progressed st = some (.ok progressed', st') ∧
      HasDrained src row handed log st₀ st' l' ∧ l.length ≤ l'.length ∧
      ((∃ m ∈ ms, m.id ∉ completed ∧ ∀ p ∈ m.parents, p ∈ completed) → l.length < l'.length) ∧
      (progressed = true ∨ l.length < l'.length → progressed' = true)
  | [], progressed, st, l, _, _, _, _, h => ⟨progressed, st, l, rfl, h, Nat.le_refl _, by simp, by simp⟩
  | m :: ms, progressed, st, l, hms, hnodup, hdone, hlater, h => by
    have hm := hms m List.mem_cons_self
    rw [List.map_cons, List.nodup_cons] at hnodup
    have hms' : ∀ m' ∈ ms, m' ∈ src.describeShards := fun m' hm' => hms m' (List.mem_cons_of_mem _ hm')
    -- the graph is closed under parents, so every parent exists
    have heligible : eligible m completed (src.describeShards.map ShardMeta.id) = true ↔
        m.id ∉ completed ∧ ∀ p ∈ m.parents, p ∈ completed := by
      have hexists : ∀ p ∈ m.parents, p ∈ src.describeShards.map ShardMeta.id :=
        fun p hp => hg.lineage.closed p m.id (List.mem_map_of_mem hm) ⟨m, hm, rfl, hp⟩
      simp only [eligible, Bool.and_eq_true, Bool.not_eq_true', List.all_eq_true, Bool.or_eq_true, List.contains_eq_mem,
        decide_eq_true_eq, decide_eq_false_iff_not]
      refine and_congr_right fun _ => forall₂_congr fun p hp => ?_
      simp [List.mem_map.mp (hexists p hp)]
    unfold InProcess.sweep
    by_cases he : eligible m completed (src.describeShards.map ShardMeta.id) = true
    · rw [if_pos he]
      obtain ⟨hnot, hparents⟩ := heligible.mp he
      have hc : rowComplete (row st.store) m.id = false := by
        by_contra hc
        exact hnot (hlater m List.mem_cons_self (by simpa using hc))
      obtain ⟨st', hrun, hcomplete, hd⟩ := h.visit owner hS hs hg hcp hf hm hc fun p hp => hdone p (hparents p hp)
      have hdone' : ∀ s ∈ completed, rowComplete (row st'.store) s = true := by
        intro s hs
        rw [hcomplete, hdone s hs]
        simp
      have hlater' : ∀ m' ∈ ms, rowComplete (row st'.store) m'.id = true → m'.id ∈ completed := by
        intro m' hm' hc'
        have hne : m'.id ≠ m.id := fun e => hnodup.1 (e ▸ List.mem_map_of_mem hm')
        rw [hcomplete, if_neg hne] at hc'
        exact hlater m' (List.mem_cons_of_mem _ hm') hc'
      obtain ⟨progressed', st'', l', hsweep, hd', hlen, _, hprog⟩ := @HasDrained.sweep hS hs hg hcp hf completed ms true st' _
        hms' hnodup.2 hdone' hlater' hd
      simp only [hrun]
      rw [List.length_append, List.length_singleton] at hlen
      exact ⟨progressed', st'', l', hsweep, hd', by omega, fun _ => by omega, fun _ => hprog (.inl rfl)⟩
    · rw [if_neg he]
      obtain ⟨progressed', st', l', hsweep, hd, hlen, hgrow, hprog⟩ := @HasDrained.sweep hS hs hg hcp hf completed ms progressed
        st l hms' hnodup.2 hdone (fun m' hm' => hlater m' (List.mem_cons_of_mem _ hm')) h
      refine ⟨progressed', st', l', hsweep, hd, hlen, ?_, hprog⟩
      rintro ⟨m', hm', he'⟩
      rcases List.mem_cons.mp hm' with rfl | hm'
      · exact absurd (heligible.mpr he') he
      · exact hgrow ⟨m', hm', he'⟩

theorem mem_completed {metas : List ShardMeta} {complete : ShardId → Bool} {s : ShardId} :
    s ∈ (metas.filter fun m => complete m.id).map ShardMeta.id ↔ s ∈ metas.map ShardMeta.id ∧ complete s = true := by
  simp only [List.mem_map, List.mem_filter]
  constructor
  · rintro ⟨m, ⟨hm, hc⟩, rfl⟩
    exact ⟨⟨m, hm, rfl⟩, hc⟩
  · rintro ⟨⟨m, hm, rfl⟩, hc⟩
    exact ⟨m, ⟨hm, hc⟩, rfl⟩

theorem HasDrained.run {bound : Nat} (owner : Worker) (hS : S.OptimisticLock row handed)
    (hs : ServesLogs log src.getRecords) (hg : ShardGraph src.describeShards)
    (hcp : ∀ m ∈ src.describeShards, InLog (log m.id) (rowResume handed (row st₀.store) m.id))
    (hf : ∀ m ∈ src.describeShards, (log m.id).length < bound) : ∀ {k fuel : Nat} {st : Drain σ} {l : List ShardId},
    src.describeShards.length ≤ l.length + k → bound + k < fuel → HasDrained src row handed log st₀ st l →
    ∃ st' l', InProcess.run ⟨src.fallible, S, owner⟩ fuel st = some (.ok (), st') ∧
      HasDrained src row handed log st₀ st' l' ∧
      ∀ m ∈ src.describeShards, rowComplete (row st'.store) m.id = true
  | k, 0, st, l, _, hfuel, _ => by omega
  | k, fuel + 1, st, l, hk, hfuel, h => by
    unfold InProcess.run
    simp only [runOnce, StreamSource.fallible_describeShards, snapshot_eq hS]
    by_cases hall : ∀ m ∈ src.describeShards, rowComplete (row st.store) m.id = true
    · -- all complete: the pass says so, unless there is no shard at all
      by_cases hempty : src.describeShards = []
      · refine ⟨st, l, ?_, h, hall⟩
        simp [hempty, InProcess.sweep, Except.map]
      · rw [if_pos]
        · exact ⟨st, l, rfl, h, hall⟩
        · rw [Bool.and_eq_true, List.all_eq_true]
          refine ⟨by simpa using hempty, ?_⟩
          intro m hm
          rw [List.contains_iff_mem, mem_completed]
          exact ⟨List.mem_map_of_mem hm, hall m hm⟩
    · have hleft : ∃ m ∈ src.describeShards, rowComplete (row st.store) m.id = false := by simpa using hall
      rw [if_neg]
      · obtain ⟨m, hm, hc, hp⟩ := hg.exists_ready hleft
        have hf' : ∀ m ∈ src.describeShards, (log m.id).length < fuel := by
          intro m hm
          have := hf m hm
          omega
        obtain ⟨progressed, st', l', hsweep, hd, _, hgrow, hprog⟩ := @HasDrained.sweep _ src S owner row handed log st₀ fuel
          hS hs hg hcp hf' ((src.describeShards.filter fun m => rowComplete (row st.store) m.id).map ShardMeta.id)
          src.describeShards false st l (fun _ hm => hm) hg.distinct (fun s hs => (mem_completed.mp hs).2)
          (fun m hm hc => mem_completed.mpr ⟨List.mem_map_of_mem hm, hc⟩) h
        have hlt : l.length < l'.length := by
          refine hgrow ⟨m, hm, ?_, ?_⟩
          · rw [mem_completed]
            simp [hc]
          · intro p hpm
            exact mem_completed.mpr ⟨hg.lineage.closed p m.id (List.mem_map_of_mem hm) ⟨m, hm, rfl, hpm⟩, hp p hpm⟩
        have hle : l'.length ≤ src.describeShards.length := by
          obtain ⟨_, _, _, hd⟩ := hd
          exact hd.length_le
        rw [hsweep, hprog (.inr hlt)]
        exact @HasDrained.run bound owner hS hs hg hcp hf (k - 1) fuel st' l' (by omega) (by omega) hd
      · intro hdone
        obtain ⟨m, hm, hc⟩ := hleft
        rw [Bool.and_eq_true, List.all_eq_true] at hdone
        have hmem := hdone.2 m hm
        rw [List.contains_iff_mem, mem_completed, hc] at hmem
        simp at hmem

end

end

/-- Over a store whose `acquire` hands over the checkpoint of the row, the worker ends without an error, with
the completed shards and the checkpoints of the scheduler; of each shard the processor sees the same, and of
none anything before its parents have ended. -/
theorem run_agrees_with_scheduler {σ τ : Type} {src : StreamSource} {S : WorkerStore σ} {L : LeaseStore τ}
    {row : σ → ShardId → Option Lease} {log : ShardId → List Record} (owner : Worker) (hL : L.Lawful)
    (hS : S.OptimisticLock row Lease.checkpoint) (hs : ServesLogs log src.getRecords) (hg : ShardGraph src.describeShards)
    (a : Drain τ) (b : Drain σ) (hcomplete : ∀ s, rowComplete (row b.store) s = L.isComplete a.store s)
    (hcheckpoint : ∀ s, rowCheckpoint (row b.store) s = L.lastCheckpoint a.store s)
    (hcp : ∀ m ∈ src.describeShards, InLog (log m.id) (L.lastCheckpoint a.store m.id)) :
    ∃ n, ∀ fuel, n ≤ fuel → ∃ a' ca b' cb, Scheduler.run src L fuel a = some a' ∧ a'.seen = a.seen ++ ca ∧
      run ⟨src.fallible, S, owner⟩ fuel b = some (.ok (), b') ∧ b'.seen = b.seen ++ cb ∧
      (∀ s, rowComplete (row b'.store) s = L.isComplete a'.store s) ∧
      (∀ s, rowCheckpoint (row b'.store) s = L.lastCheckpoint a'.store s) ∧ (∀ s, sights s cb = sights s ca) ∧
      ∀ m ∈ src.describeShards, ∀ p ∈ m.parents, L.isComplete a.store p = false →
        ∀ c₁ c₂, cb = c₁ ++ .initializeShard m.id :: c₂ → .shardEnded p ∈ c₁ := by
  obtain ⟨bound, hbound⟩ := exists_bound src.describeShards log
  refine ⟨bound + src.describeShards.length + 1, ?_⟩
  intro fuel hfuel
  have hcomplete' : rowComplete (row b.store) = L.isComplete a.store := funext hcomplete
  have hcheckpoint' : rowCheckpoint (row b.store) = L.lastCheckpoint a.store := funext hcheckpoint
  have hresume : rowResume Lease.checkpoint (row b.store) = L.lastCheckpoint a.store := hcheckpoint'
  have hcp' : ∀ m ∈ src.describeShards, InLog (log m.id) (rowResume Lease.checkpoint (row b.store) m.id) := by
    rw [hresume]
    exact hcp
  obtain ⟨a', l, hrun, ⟨ca, hseen, hd⟩, hall⟩ := @Scheduler.HasDrained.run _ _ _ _ a bound hL hs hg hcp hbound
    src.describeShards.length fuel a [] (by simp) (by omega) ⟨[], by simp, .refl⟩
  obtain ⟨b', l', hrun', ⟨_, cb, hseen', hd'⟩, hall'⟩ := @HasDrained.run _ _ _ _ _ _ b bound owner hS hs hg hcp' hbound
    src.describeShards.length fuel b [] (by simp) (by omega) ⟨fun _ _ => rfl, [], by simp, .refl⟩
  rw [hcomplete', hcheckpoint', hresume] at hd'
  obtain ⟨hc, hk, hsights⟩ := hd'.agree hd hall' hall hs.own
  refine ⟨a', ca, b', cb, hrun, hseen, hrun', hseen', hc, hk, hsights, ?_⟩
  intro m hm p hp hdone c₁ c₂ he
  exact hd'.parents_first hm hp hdone he

end InProcess

/-! ## A table in memory -/

section

def applyWrite {α : Type} (table : ShardId → Option Lease) (key : ShardId) (op : DbOp) (a : α) :
    Except WorkerError α × (ShardId → Option Lease) :=
  match op.apply key (table key) with
  | some row => (.ok a, Function.update table key row)
  | none => (.error (.lease .lost), table)

def inMemTable : WorkerStore (ShardId → Option Lease) where
  get table key := .ok ((table key).map fun r => ⟨r.completed⟩)
  acquire table key owner :=
    match table key with
    | none => applyWrite table key (.put owner) ⟨owner, 1, none⟩
    | some r => applyWrite table key (.claim owner r.leaseCounter) ⟨owner, r.leaseCounter + 1, r.checkpoint⟩
  checkpoint table key owner counter seq := applyWrite table key (.checkpoint owner counter seq) (counter + 1)
  markComplete table key owner counter := applyWrite table key (.markComplete owner counter) ()

theorem applyWrite_ok {α : Type} {table : ShardId → Option Lease} {key : ShardId} {op : DbOp} {row : Option Lease} {a : α}
    (h : op.apply key (table key) = some row) : applyWrite table key op a = (.ok a, Function.update table key row) := by
  unfold applyWrite
  rw [h]

theorem inMemTable_lock : inMemTable.OptimisticLock (fun table => table) Lease.checkpoint where
  get_eq _ _ := rfl
  acquire_absent table key owner h := by
    refine ⟨_, ?_, rfl⟩
    simp only [inMemTable, h]
    exact applyWrite_ok (by rw [h]; rfl)
  acquire_row table key owner r h := by
    refine ⟨_, ?_, rfl⟩
    simp only [inMemTable, h]
    exact applyWrite_ok (by simp [h, DbOp.apply])
  checkpoint_eq _ _ _ _ _ _ h := ⟨_, applyWrite_ok h, rfl⟩
  markComplete_eq _ _ _ _ _ h := ⟨_, applyWrite_ok h, rfl⟩

end

namespace InProcess

def mergeTable : Drain (ShardId → Option Lease) :=
  ⟨fun s => if s = "a" then some ⟨"a", some "earlier", 7, false, some "1", []⟩ else none, 0, []⟩

theorem run_agrees_with_scheduler_merge : ∃ n, ∀ fuel, n ≤ fuel → ∃ a' ca b' cb,
    Scheduler.run (inMemSource Scheduler.mergeMetas Scheduler.mergeLog) inMemLeases fuel Scheduler.mergeStart = some a' ∧
      a'.seen = [] ++ ca ∧
      run ⟨(inMemSource Scheduler.mergeMetas Scheduler.mergeLog).fallible, inMemTable, "w"⟩ fuel mergeTable =
        some (.ok (), b') ∧
      b'.seen = [] ++ cb ∧ ∀ s, sights s cb = sights s ca := by
  obtain ⟨n, hn⟩ := run_agrees_with_scheduler "w" inMemLeases_lawful inMemTable_lock Scheduler.mergeLog_serves
    Scheduler.mergeMetas_graph Scheduler.mergeStart mergeTable
    (by
      intro s
      by_cases hs : s = "a" <;> simp [rowComplete, mergeTable, inMemLeases, Scheduler.mergeStart, hs])
    (by
      intro s
      by_cases hs : s = "a" <;> simp [rowCheckpoint, mergeTable, inMemLeases, Scheduler.mergeStart, hs])
    Scheduler.mergeStart_inLog
  refine ⟨n, ?_⟩
  intro fuel hfuel
  obtain ⟨a', ca, b', cb, hrun, hseen, hrun', hseen', _, _, hsights, _⟩ := hn fuel hfuel
  exact ⟨a', ca, b', cb, hrun, hseen, hrun', hseen', hsights⟩

end InProcess

end StreamsConsumer
