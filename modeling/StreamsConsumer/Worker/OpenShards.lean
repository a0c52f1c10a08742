import StreamsConsumer.Worker.InProcess

/-!
# Shards that stay open

The in-process worker over a source in which a shard may stay open: once its
log is exhausted a read returns nothing and no end. A pass counts as progress
when it worked on an eligible shard, so a shard that is open and exhausted
keeps `run` going: `run_returns_iff` says that it returns exactly when every
shard that is not complete yet is closed.
-/

namespace StreamsConsumer
open Graph

/-- A batch from the front of what is left: not empty unless nothing is left. The end is reported of a closed shard
only, and there at the latest when nothing is left. -/
structure ServesSome (closed : Bool) (rest : List Record) (b : RecordBatch) : Prop where
  inOrder : b.records <+: rest
  progress : rest ≠ [] → b.records ≠ []
  ends : b.shardEnd = true → closed = true ∧ b.records = rest
  closes : rest = [] → b.shardEnd = closed

structure ServesOpen (log : ShardId → List Record) (closed : ShardId → Bool)
    (getRecords : Nat → ShardId → Option SequenceNumber → RecordBatch) : Prop where
  distinct : ∀ s, ((log s).map Record.seq).Nodup
  served : ∀ n s after, InLog (log s) after → ServesSome (closed s) (recordsAfter (log s) after) (getRecords n s after)

/-- `acquire` hands over the checkpoint of the row, or none. -/
def HandsOver (handed : Lease → Option SequenceNumber) : Prop := ∀ r, handed r = r.checkpoint ∨ handed r = none

namespace InProcess

section
variable {σ : Type} {src : StreamSource} {S : WorkerStore σ} {owner : Worker} {row : σ → ShardId → Option Lease}
  {handed : Lease → Option SequenceNumber} {log : ShardId → List Record} {closed : ShardId → Bool} {shard : ShardId}
  {st : Drain σ} {fuel : Nat}

/-! ## One shard -/

theorem deliver_open (hS : S.OptimisticLock row handed) (hs : ServesOpen log closed src.getRecords) : ∀ {fuel counter : Nat}
    {after : Option SequenceNumber} {st : Drain σ} {r : Lease}, InLog (log shard) after → InLog (log shard) r.checkpoint →
    Holds row owner shard counter st.store r →
    deliver ⟨src.fallible, S, owner⟩ shard fuel counter after st = none ∧
        fuel ≤ (recordsAfter (log shard) after).length ∨
      ∃ st' r', deliver ⟨src.fallible, S, owner⟩ shard fuel counter after st = some (.ok (), st') ∧
        row st'.store = Function.update (row st.store) shard (some r') ∧ InLog (log shard) r'.checkpoint ∧
        r'.completed = (closed shard || r.completed)
  | 0, _, _, _, _, _, _, _ => Or.inl ⟨rfl, Nat.zero_le _⟩
  | fuel + 1, counter, after, st, r, hin, hcp, hr => by
    have hserved := hs.served st.reads shard after hin
    unfold deliver
    simp only [StreamSource.fallible_getRecords]
    generalize src.getRecords st.reads shard after = batch at hserved
    obtain ⟨rest, hrest⟩ := hserved.inOrder
    cases hlast : batch.records.getLast? with
    | none =>
      -- an empty batch: nothing was left
      right
      have hempty : batch.records = [] := List.getLast?_eq_none_iff.mp hlast
      have hnone : recordsAfter (log shard) after = [] := by
        by_contra hne
        exact hserved.progress hne hempty
      simp only [absorb_none hlast, hserved.closes hnone]
      cases hclosed : closed shard with
      | true =>
        obtain ⟨st', hfin, _, hrow⟩ := @finish_spec _ src S owner row handed shard { st with reads := st.reads + 1 } r
          counter hS hr
        exact ⟨st', _, congrArg some hfin, hrow, hcp, rfl⟩
      | false =>
        refine ⟨{ st with reads := st.reads + 1 }, r, by simp [hempty], ?_, hcp, by simp⟩
        rw [← hr.row_eq, Function.update_eq_self]
    | some last =>
      have hne : batch.records ≠ [] := by
        intro he
        simp [he] at hlast
      obtain ⟨st₁, habsorb, _, _, hrow₁⟩ := @absorb_some _ src S owner row handed shard
        { st with reads := st.reads + 1 } r counter after hS hr _ _ hlast
      rw [habsorb]
      have hin₁ := inLog_batch hrest.symm hlast
      have hr₁ : Holds row owner shard (counter + 1) st₁.store
          { r with checkpoint := some last.seq, leaseCounter := r.leaseCounter + 1 } := by
        refine ⟨?_, congrArg (· + 1) hr.counter_eq, hr.owner_eq⟩
        rw [hrow₁, Function.update_self]
      by_cases hend : batch.shardEnd = true
      · right
        simp only [hend, if_true]
        obtain ⟨st', hfin, _, hrow⟩ := @finish_spec _ src S owner row handed shard st₁ _ (counter + 1) hS hr₁
        refine ⟨st', _, congrArg some hfin, hrow.trans (by rw [hrow₁, Function.update_idem]), hin₁, ?_⟩
        rw [(hserved.ends hend).1]
        rfl
      · have hfalse : batch.shardEnd = false := by simpa using hend
        have hnotEmpty : batch.records.isEmpty = false := by simpa using hne
        simp only [hfalse, hnotEmpty, Bool.false_eq_true, if_false]
        -- the loop goes on after the last record of the batch
        have hafter := recordsAfter_batch (hs.distinct shard) hrest.symm hlast
        rcases @deliver_open hS hs fuel (counter + 1) (some last.seq) st₁ _ hin₁ hin₁ hr₁ with
          ⟨hnone, hlen⟩ | ⟨st', r', hrun, hrow, hcp', hc⟩
        · left
          refine ⟨hnone, ?_⟩
          have hpos : 0 < batch.records.length := List.length_pos_iff.mpr hne
          have htotal := congrArg List.length hrest
          rw [List.length_append] at htotal
          rw [hafter] at hlen
          omega
        · right
          refine ⟨st', r', hrun, ?_, hcp', hc⟩
          rw [hrow, hrow₁, Function.update_idem]

/-- Every position a listed shard may be resumed from is in its log. -/
def Resumable (src : StreamSource) (log : ShardId → List Record) (table : ShardId → Option Lease) : Prop :=
  ∀ m ∈ src.describeShards, InLog (log m.id) (rowCheckpoint table m.id)

theorem processShard_open (hS : S.OptimisticLock row handed) (hh : HandsOver handed)
    (hs : ServesOpen log closed src.getRecords) {m : ShardMeta} (hcp : InLog (log m.id) (rowCheckpoint (row st.store) m.id)) :
    processShard ⟨src.fallible, S, owner⟩ fuel m st = none ∧ fuel ≤ (log m.id).length ∨
      ∃ st' r', processShard ⟨src.fallible, S, owner⟩ fuel m st = some (.ok (), st') ∧
        row st'.store = Function.update (row st.store) m.id (some r') ∧ InLog (log m.id) r'.checkpoint ∧
        r'.completed = (closed m.id || rowComplete (row st.store) m.id) := by
  have hin : InLog (log m.id) (rowResume handed (row st.store) m.id) := by
    unfold rowResume
    unfold rowCheckpoint at hcp
    cases hrow : row st.store m.id with
    | none => exact nofun
    | some r =>
      rw [hrow] at hcp
      rcases hh r with h | h
      · simpa [h] using hcp
      · simp only [Option.bind_some, h]
        exact nofun
  obtain ⟨store, counter, r, hacq, hr, hrcp, hrc, hrow⟩ := acquire_spec hS st.store m.id owner
  unfold processShard
  simp only [hacq]
  rcases @deliver_open _ src S owner row handed log closed m.id hS hs fuel counter _
    ({ st with store := store }.call (.initializeShard m.id)) r hin (hrcp ▸ hcp) hr with ⟨hnone, hlen⟩ | ⟨st', r', hrun, hrow', hcp', hc⟩
  · exact Or.inl ⟨hnone, hlen.trans (recordsAfter_suffix _ _).length_le⟩
  · refine Or.inr ⟨st', r', hrun, ?_, hcp', by rw [hc, hrc]⟩
    rw [hrow']
    simp only [Drain.call, hrow, Function.update_idem]


/-! ## One pass -/

/-- What happens to the completed shards: they stay, and only closed ones are added. -/
structure Advances (closed : ShardId → Bool) (table table' : ShardId → Option Lease) : Prop where
  stays : ∀ s, rowComplete table s = true → rowComplete table' s = true
  closes : ∀ s, rowComplete table' s = true → rowComplete table s = true ∨ closed s = true

theorem Advances.refl (closed : ShardId → Bool) (table : ShardId → Option Lease) : Advances closed table table :=
  ⟨fun _ h => h, fun _ h => Or.inl h⟩

theorem Advances.trans {t₁ t₂ t₃ : ShardId → Option Lease} (h₁ : Advances closed t₁ t₂) (h₂ : Advances closed t₂ t₃) :
    Advances closed t₁ t₃ := by
  refine ⟨fun s h => h₂.stays s (h₁.stays s h), ?_⟩
  intro s h
  rcases h₂.closes s h with h | h
  · exact h₁.closes s h
  · exact Or.inr h

theorem advances_update {table : ShardId → Option Lease} {r : Lease} {k : ShardId}
    (hc : r.completed = (closed k || rowComplete table k)) : Advances closed table (Function.update table k (some r)) := by
  have hrow : ∀ s, rowComplete (Function.update table k (some r)) s = if s = k then r.completed else rowComplete table s := by
    intro s
    unfold rowComplete
    by_cases hs : s = k
    · simp [hs]
    · simp [hs]
  refine ⟨?_, ?_⟩
  · intro s h
    rw [hrow]
    by_cases hs : s = k
    · subst hs
      rw [if_pos rfl, hc, h, Bool.or_true]
    · rw [if_neg hs]
      exact h
  · intro s h
    rw [hrow] at h
    by_cases hs : s = k
    · subst hs
      rw [if_pos rfl, hc, Bool.or_eq_true] at h
      exact h.symm
    · rw [if_neg hs] at h
      exact Or.inl h

theorem resumable_update {table : ShardId → Option Lease} {r : Lease} {k : ShardId} (h : Resumable src log table)
    (hr : InLog (log k) r.checkpoint) : Resumable src log (Function.update table k (some r)) := by
  intro m hm
  unfold rowCheckpoint
  by_cases hk : m.id = k
  · subst hk
    simpa using hr
  · rw [Function.update_of_ne hk]
    exact h m hm

theorem sweep_open (hS : S.OptimisticLock row handed) (hh : HandsOver handed) (hs : ServesOpen log closed src.getRecords)
    {completed existing : List ShardId} : ∀ {ms : List ShardMeta} {progressed : Bool} {st : Drain σ},
    (∀ m ∈ ms, m ∈ src.describeShards) → Resumable src log (row st.store) →
    sweep ⟨src.fallible, S, owner⟩ fuel completed existing ms progressed st = none ∧
        (∃ m ∈ ms, fuel ≤ (log m.id).length) ∨
      ∃ st', sweep ⟨src.fallible, S, owner⟩ fuel completed existing ms progressed st =
          some (.ok (progressed || ms.any fun m => eligible m completed existing), st') ∧
        Advances closed (row st.store) (row st'.store) ∧ Resumable src log (row st'.store) ∧
        ∀ m ∈ ms, eligible m completed existing = true → closed m.id = true → rowComplete (row st'.store) m.id = true
  | [], progressed, st, _, hcp => Or.inr ⟨st, by simp [sweep], .refl _ _, hcp, by simp⟩
  | m :: ms, progressed, st, hms, hcp => by
    have hms' : ∀ m' ∈ ms, m' ∈ src.describeShards := fun m' hm' => hms m' (List.mem_cons_of_mem _ hm')
    unfold sweep
    by_cases he : eligible m completed existing = true
    · rw [if_pos he]
      rcases @processShard_open _ src S owner row handed log closed st fuel hS hh hs m (hcp m (hms m List.mem_cons_self)) with
        ⟨hnone, hlen⟩ | ⟨st₁, r, hrun, hrow, hr, hc⟩
      · left
        rw [hnone]
        exact ⟨rfl, m, List.mem_cons_self, hlen⟩
      rw [hrun]
      simp only
      have hadv : Advances closed (row st.store) (row st₁.store) := hrow ▸ advances_update hc
      rcases @sweep_open hS hh hs completed existing ms true st₁ hms' (hrow ▸ resumable_update hcp hr) with
        ⟨hnone, m', hm', hlen⟩ | ⟨st', hsweep, hadv', hcp', hdone⟩
      · exact Or.inl ⟨hnone, m', List.mem_cons_of_mem _ hm', hlen⟩
      · right
        refine ⟨st', ?_, hadv.trans hadv', hcp', ?_⟩
        · rw [hsweep]
          simp [he]
        · intro m' hm' he' hclosed
          rcases List.mem_cons.mp hm' with rfl | hm'
          · apply hadv'.stays
            unfold rowComplete
            rw [hrow, Function.update_self, Option.elim_some, hc, hclosed, Bool.true_or]
          · exact hdone m' hm' he' hclosed
    · rw [if_neg he]
      rcases @sweep_open hS hh hs completed existing ms progressed st hms' hcp with
        ⟨hnone, m', hm', hlen⟩ | ⟨st', hsweep, hadv, hcp', hdone⟩
      · exact Or.inl ⟨hnone, m', List.mem_cons_of_mem _ hm', hlen⟩
      · right
        refine ⟨st', ?_, hadv, hcp', ?_⟩
        · rw [hsweep]
          simp [he]
        · intro m' hm' he' hclosed
          rcases List.mem_cons.mp hm' with rfl | hm'
          · exact absurd he' he
          · exact hdone m' hm' he' hclosed

theorem exists_eligible {metas : List ShardMeta} {table : ShardId → Option Lease}
    (hac : ∀ s, ¬ Relation.TransGen (Parent metas) s s) (hleft : ∃ m ∈ metas, rowComplete table m.id = false) :
    ∃ m ∈ metas, rowComplete table m.id = false ∧
      eligible m ((metas.filter fun m => rowComplete table m.id).map ShardMeta.id) (metas.map ShardMeta.id) = true := by
  have hgraph : Acyclic (metas.map ShardMeta.id) fun p s => Parent metas p s ∧ p ∈ metas.map ShardMeta.id := by
    refine ⟨fun p s _ h => h.2, ?_⟩
    intro s h
    exact hac s (Relation.TransGen.mono (fun _ _ h => h.1) _ _ h)
  have hopen : ∃ s ∈ metas.map ShardMeta.id, rowComplete table s = false := by
    obtain ⟨m, hm, hc⟩ := hleft
    exact ⟨m.id, List.mem_map_of_mem hm, hc⟩
  obtain ⟨s, hmem, htodo, hready⟩ := hgraph.exists_ready hopen
  obtain ⟨m, hm, rfl⟩ := List.mem_map.mp hmem
  refine ⟨m, hm, htodo, ?_⟩
  unfold eligible
  simp only [Bool.and_eq_true, Bool.not_eq_true', List.all_eq_true, Bool.or_eq_true, List.contains_eq_mem,
    decide_eq_true_eq, decide_eq_false_iff_not, mem_completed]
  refine ⟨by simp [htodo], ?_⟩
  intro p hp
  by_cases hlisted : p ∈ metas.map ShardMeta.id
  · have hdone := hready p ⟨⟨m, hm, rfl, hp⟩, hlisted⟩
    exact Or.inl ⟨hlisted, by simpa using hdone⟩
  · exact Or.inr hlisted

theorem runOnce_open (hS : S.OptimisticLock row handed) (hh : HandsOver handed) (hs : ServesOpen log closed src.getRecords)
    (hac : ∀ s, ¬ Relation.TransGen (Parent src.describeShards) s s) (hcp : Resumable src log (row st.store))
    (hleft : ∃ m ∈ src.describeShards, rowComplete (row st.store) m.id = false) :
    runOnce ⟨src.fallible, S, owner⟩ fuel st = none ∧ (∃ m ∈ src.describeShards, fuel ≤ (log m.id).length) ∨
      ∃ st', runOnce ⟨src.fallible, S, owner⟩ fuel st = some (.ok (false, true), st') ∧
        Advances closed (row st.store) (row st'.store) ∧ Resumable src log (row st'.store) ∧
        ∃ m ∈ src.describeShards, rowComplete (row st.store) m.id = false ∧
          (closed m.id = true → rowComplete (row st'.store) m.id = true) := by
  obtain ⟨m, hm, hc, he⟩ := exists_eligible hac hleft
  have hnotAll : ¬ (!src.describeShards.isEmpty && src.describeShards.all fun m =>
      ((src.describeShards.filter fun m => rowComplete (row st.store) m.id).map ShardMeta.id).contains m.id) = true := by
    intro hall
    rw [Bool.and_eq_true, List.all_eq_true] at hall
    have hmem := hall.2 m hm
    rw [List.contains_iff_mem, mem_completed, hc] at hmem
    cases hmem.2
  unfold runOnce
  simp only [StreamSource.fallible_describeShards, snapshot_eq hS, if_neg hnotAll]
  rcases @sweep_open _ src S owner row handed log closed fuel hS hh hs _ (src.describeShards.map ShardMeta.id)
    src.describeShards false st (fun _ h => h) hcp with ⟨hnone, hlen⟩ | ⟨st', hsweep, hadv, hcp', hdone⟩
  · left
    rw [hnone]
    exact ⟨rfl, hlen⟩
  · right
    refine ⟨st', ?_, hadv, hcp', m, hm, hc, hdone m hm he⟩
    rw [hsweep, Bool.false_or, List.any_eq_true.mpr ⟨m, hm, he⟩]
    rfl

/-! ## All passes -/

theorem run_of_none_left (hS : S.OptimisticLock row handed)
    (hall : ∀ m ∈ src.describeShards, rowComplete (row st.store) m.id = true) :
    run ⟨src.fallible, S, owner⟩ (fuel + 1) st = some (.ok (), st) := by
  unfold run runOnce
  simp only [StreamSource.fallible_describeShards, snapshot_eq hS]
  by_cases hempty : src.describeShards = []
  · simp [hempty, sweep, Except.map]
  · rw [if_pos]
    · rfl
    · rw [Bool.and_eq_true, List.all_eq_true]
      refine ⟨by simpa using hempty, ?_⟩
      intro m hm
      rw [List.contains_iff_mem, mem_completed]
      exact ⟨List.mem_map_of_mem hm, hall m hm⟩

theorem run_open_none (hS : S.OptimisticLock row handed) (hh : HandsOver handed)
    (hs : ServesOpen log closed src.getRecords) (hac : ∀ s, ¬ Relation.TransGen (Parent src.describeShards) s s)
    {m : ShardMeta} (hm : m ∈ src.describeShards) (hopen : closed m.id = false) : ∀ {fuel : Nat} {st : Drain σ},
    Resumable src log (row st.store) → rowComplete (row st.store) m.id = false →
    run ⟨src.fallible, S, owner⟩ fuel st = none
  | 0, _, _, _ => rfl
  | fuel + 1, st, hcp, hc => by
    unfold run
    rcases @runOnce_open _ src S owner row handed log closed st fuel hS hh hs hac hcp ⟨m, hm, hc⟩ with
      ⟨hnone, _⟩ | ⟨st', hrun, hadv, hcp', _⟩
    · rw [hnone]
    · rw [hrun]
      refine run_open_none hS hh hs hac hm hopen hcp' ?_
      by_contra hc'
      rcases hadv.closes m.id (by simpa using hc') with h | h
      · rw [hc] at h
        cases h
      · rw [hopen] at h
        cases h


theorem countP_lt_countP {α : Type} {p q : α → Bool} : ∀ {xs : List α}, (∀ x ∈ xs, p x = true → q x = true) →
    (∃ x ∈ xs, q x = true ∧ p x = false) → xs.countP p < xs.countP q
  | [], _, h => by simp at h
  | x :: xs, himp, ⟨y, hy, hq, hp⟩ => by
    have himp' : ∀ z ∈ xs, p z = true → q z = true := fun z hz => himp z (List.mem_cons_of_mem _ hz)
    have hmono : xs.countP p ≤ xs.countP q := List.countP_mono_left himp'
    rw [List.countP_cons, List.countP_cons]
    rcases List.mem_cons.mp hy with rfl | hy
    · simp only [hp, hq, Bool.false_eq_true, if_false, if_true]
      omega
    · have hlt := countP_lt_countP himp' ⟨y, hy, hq, hp⟩
      have hx := himp x List.mem_cons_self
      by_cases hpx : p x = true
      · simp only [hpx, hx hpx, if_true]
        omega
      · simp only [hpx, Bool.false_eq_true, if_false]
        omega

theorem run_closed (owner : Worker) (hS : S.OptimisticLock row handed) (hh : HandsOver handed)
    (hs : ServesOpen log closed src.getRecords) (hac : ∀ s, ¬ Relation.TransGen (Parent src.describeShards) s s)
    {bound : Nat} (hbound : ∀ m ∈ src.describeShards, (log m.id).length < bound) : ∀ {k : Nat} {st : Drain σ},
    (src.describeShards.countP fun m => !rowComplete (row st.store) m.id) ≤ k → Resumable src log (row st.store) →
    (∀ m ∈ src.describeShards, rowComplete (row st.store) m.id = false → closed m.id = true) →
    ∃ st', run ⟨src.fallible, S, owner⟩ (bound + k + 1) st = some (.ok (), st')
  | k, st, hk, hcp, hclosed => by
    by_cases hall : ∀ m ∈ src.describeShards, rowComplete (row st.store) m.id = true
    · exact ⟨st, run_of_none_left hS hall⟩
    have hleft : ∃ m ∈ src.describeShards, rowComplete (row st.store) m.id = false := by simpa using hall
    unfold run
    rcases @runOnce_open _ src S owner row handed log closed st (bound + k) hS hh hs hac hcp hleft with
      ⟨_, m, hm, hlen⟩ | ⟨st', hrun, hadv, hcp', m, hm, hc, hdone⟩
    · have := hbound m hm
      omega
    rw [hrun]
    simp only [Bool.not_true, Bool.or_self, Bool.false_eq_true, if_false]
    have hlt : (src.describeShards.countP fun m => !rowComplete (row st'.store) m.id) <
        src.describeShards.countP fun m => !rowComplete (row st.store) m.id := by
      refine countP_lt_countP ?_ ⟨m, hm, by simp [hc], by simp [hdone (hclosed m hm hc)]⟩
      intro m' _ hnot
      by_contra hcon
      have hstays := hadv.stays m'.id (by simpa using hcon)
      simp [hstays] at hnot
    have hclosed' : ∀ m ∈ src.describeShards, rowComplete (row st'.store) m.id = false → closed m.id = true := by
      intro m' hm' hc'
      apply hclosed m' hm'
      by_contra hcon
      rw [hadv.stays m'.id (by simpa using hcon)] at hc'
      cases hc'
    cases k with
    | zero => omega
    | succ k => exact run_closed owner hS hh hs hac hbound (by omega) hcp' hclosed'

end

/-- `run` returns exactly when every shard that is not complete yet is closed. -/
theorem run_returns_iff {σ : Type} {src : StreamSource} {S : WorkerStore σ} {row : σ → ShardId → Option Lease}
    {handed : Lease → Option SequenceNumber} {log : ShardId → List Record} {closed : ShardId → Bool} (owner : Worker)
    (hS : S.OptimisticLock row handed) (hh : HandsOver handed) (hs : ServesOpen log closed src.getRecords)
    (hac : ∀ s, ¬ Relation.TransGen (Parent src.describeShards) s s) (st : Drain σ)
    (hcp : Resumable src log (row st.store)) :
    (∃ fuel r, run ⟨src.fallible, S, owner⟩ fuel st = some r) ↔
      ∀ m ∈ src.describeShards, rowComplete (row st.store) m.id = false → closed m.id = true := by
  constructor
  · rintro ⟨fuel, r, hrun⟩ m hm hc
    by_contra hopen
    rw [run_open_none hS hh hs hac hm (by simpa using hopen) hcp hc] at hrun
    cases hrun
  · intro hclosed
    obtain ⟨bound, hbound⟩ := exists_bound src.describeShards log
    obtain ⟨st', hrun⟩ := run_closed owner hS hh hs hac hbound le_rfl hcp hclosed
    exact ⟨_, _, hrun⟩

def openSource (metas : List ShardMeta) (log : ShardId → List Record) (closed : ShardId → Bool) : StreamSource where
  describeShards := metas
  getRecords _ shard after := ⟨recordsAfter (log shard) after, closed shard, none⟩

theorem openSource_serves {metas : List ShardMeta} {log : ShardId → List Record} {closed : ShardId → Bool}
    (hd : ∀ s, ((log s).map Record.seq).Nodup) : ServesOpen log closed (openSource metas log closed).getRecords where
  distinct := hd
  served _ _ _ _ := ⟨List.prefix_refl _, fun h => h, fun h => ⟨h, rfl⟩, fun _ => rfl⟩

def twoRoots : List ShardMeta := [⟨"s", []⟩, ⟨"o", []⟩]

def oneRecord (s : ShardId) : List Record := [⟨s, "1", []⟩]

def twoRootsSource : StreamSource := openSource twoRoots oneRecord fun s => s != "o"

theorem twoRootsSource_serves : ServesOpen oneRecord (fun s => s != "o") twoRootsSource.getRecords :=
  openSource_serves fun s => by simp [oneRecord]

theorem twoRoots_acyclic (s : ShardId) : ¬ Relation.TransGen (Parent twoRoots) s s := by
  intro h
  cases h with
  | single h =>
    obtain ⟨m, hm, _, hp⟩ := h
    simp only [twoRoots, List.mem_cons, List.not_mem_nil, or_false] at hm
    rcases hm with rfl | rfl <;> cases hp
  | tail _ h =>
    obtain ⟨m, hm, _, hp⟩ := h
    simp only [twoRoots, List.mem_cons, List.not_mem_nil, or_false] at hm
    rcases hm with rfl | rfl <;> cases hp

def oneLeft : Drain (ShardId → Option Lease) :=
  ⟨fun s => if s = "o" then some ⟨"o", none, 3, true, some "1", []⟩ else none, 0, []⟩

theorem run_returns_one_left : ∃ fuel r, run ⟨twoRootsSource.fallible, inMemTable, "w"⟩ fuel oneLeft = some r := by
  refine (run_returns_iff "w" inMemTable_lock (fun _ => Or.inl rfl) twoRootsSource_serves twoRoots_acyclic oneLeft
    ?_).mpr ?_
  · intro m hm q hq
    have hm : m ∈ twoRoots := hm
    simp only [twoRoots, List.mem_cons, List.not_mem_nil, or_false] at hm
    rcases hm with rfl | rfl
    · cases hq
    · cases hq
      decide
  · decide

/-- With nothing completed yet the open shard keeps every run from returning. -/
theorem run_open_never_returns : ¬ ∃ fuel r, run ⟨twoRootsSource.fallible, inMemTable, "w"⟩ fuel
    (⟨fun _ => none, 0, []⟩ : Drain (ShardId → Option Lease)) = some r := by
  rintro ⟨fuel, r, hrun⟩
  have hnone : run ⟨twoRootsSource.fallible, inMemTable, "w"⟩ fuel
      (⟨fun _ => none, 0, []⟩ : Drain (ShardId → Option Lease)) = none := by
    refine run_open_none inMemTable_lock (fun _ => Or.inl rfl) twoRootsSource_serves twoRoots_acyclic (m := ⟨"o", []⟩)
      (by decide) rfl ?_ rfl
    intro m _ q hq
    cases hq
  rw [hnone] at hrun
  cases hrun

end InProcess

end StreamsConsumer
