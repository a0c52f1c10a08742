import StreamsConsumer.Worker.Ground

/-!
# Protocols of a fleet

A ground together with a shard sync and passes that keep it. `Protocol.follows`
walks once through `run_cycle` and `release_owned`: such a fleet keeps its
protocol in every run.
-/

namespace StreamsConsumer
open Conc

structure Protocol (D : Deployment) (K : Contract) extends Ground D K where
  sync : ∀ s w rows, L.Inv s → (∀ r ∈ rows, Row r s) →
    wp (handler K) L w (leaderShardSync (D.fleet w) rows) (fun _ _ => True) s
  pass : ∀ s w it, L.Inv s → Item w it s →
    wp (handler K) L w (runPass (D.fleet w) it) (fun _ _ => True) s

namespace Protocol

variable {D : Deployment} {K : Contract} (P : Protocol D K) {w : Worker} {s : World}

/-! ## Leadership -/

theorem wp_setLeaderCounter (c : Nat) : wp (handler K) P.L w (setLeaderCounter c) (fun _ _ => True) s :=
  P.wp_access (fun _ _ _ h => h) (fun _ => rfl) (fun _ _ h => h)

theorem wp_holdLeadership (hi : P.L.Inv s) (granted : Except WorkerError (Option Nat)) :
    wp (handler K) P.L w (holdLeadership granted) (fun _ _ => True) s := by
  unfold holdLeadership
  split
  · refine wp_seq hi (P.wp_setLeaderCounter _) ?_
    intro _ _ _ _ _
    trivial
  · trivial

theorem wp_leadershipStep (hi : P.L.Inv s) (rows : List Lease) (nowMs : Nat) :
    wp (handler K) P.L w (leadershipStep (D.fleet w) rows nowMs) (fun _ _ => True) s := by
  unfold leadershipStep
  have hown : (D.fleet w).config.owner = w := D.owner_eq w
  simp only [hown]
  refine wp_seq hi wp_hashOrder ?_
  intro order s₁ _ i₁ _
  refine wp_seq i₁ (P.wp_access (fun _ _ _ h => h) (fun _ => rfl) (fun _ _ h => h)) ?_
  intro expired s₂ _ i₂ _
  obtain ⟨hput, hclaim, hrenew⟩ := P.leader s₂ w i₂
  split
  · refine wp_seq i₂ (wp_tryAcquireLeadership i₂ hput hclaim) ?_
    intro r s₃ _ i₃ _
    exact P.wp_holdLeadership i₃ r
  · split
    · refine wp_seq i₂ (wp_renew i₂ (hrenew _)) ?_
      intro r s₃ _ i₃ _
      split
      · refine wp_seq i₃ (P.wp_setLeaderCounter _) ?_
        intro _ _ _ _ _
        trivial
      · trivial
    · split
      · refine wp_seq i₂ (wp_tryAcquireLeadership i₂ hput hclaim) ?_
        intro r s₃ _ i₃ _
        exact P.wp_holdLeadership i₃ r
      · trivial

theorem wp_cleanup (hi : P.L.Inv s) (rows : List Lease) :
    wp (handler K) P.L w (cleanupCompletedLeases (D.fleet w) rows) (fun _ _ => True) s := by
  refine wp_each (J := fun _ => True) ?_ hi trivial
  intro key hkey s₁ i₁ _
  obtain ⟨⟨m, hm, rfl⟩, _⟩ := mem_leasesSafeToDelete hkey
  obtain ⟨r, _, hk, hid, _⟩ := mem_shardMetas hm
  refine wp_seq i₁ (wp_deleteLease i₁ (P.delete s₁ w m.id i₁ (hid ▸ hk))) ?_
  intro _ _ _ _ _
  trivial

/-! ## The pool -/

theorem mem_refreshSched {t : Nat} :
    ∀ {items : List (ShardId × Nat × Option SequenceNumber)} {due : List PoolItem}
      {sched : List (ShardId × ShardSched)} {it : PoolItem},
      it ∈ (items.foldl (fun (due, sched) (shard, counter, cp) =>
        match sched.lookup shard with
        | some e => (if e.dueAt ≤ t then due ++ [⟨shard, counter, cp, t⟩] else due, sched)
        | none => (due ++ [⟨shard, counter, cp, t⟩], sched ++ [(shard, ⟨0, t, t⟩)])) (due, sched)).1 →
      it ∈ due ∨ (it.shard, it.counter, it.checkpoint) ∈ items
  | [], _, _, _, h => Or.inl h
  | (shard, counter, cp) :: items, due, sched, it, h => by
    rw [List.foldl_cons] at h
    simp only at h
    have hnew : it ∈ due ++ [(⟨shard, counter, cp, t⟩ : PoolItem)] →
        it ∈ due ∨ (it.shard, it.counter, it.checkpoint) ∈ (shard, counter, cp) :: items := by
      intro hm
      rcases List.mem_append.mp hm with hm | hm
      · exact Or.inl hm
      · rw [List.mem_singleton.mp hm]
        exact Or.inr (List.mem_cons_self ..)
    split at h
    · split at h
      · rcases mem_refreshSched h with h | h
        · exact hnew h
        · exact Or.inr (List.mem_cons_of_mem _ h)
      · rcases mem_refreshSched h with h | h
        · exact Or.inl h
        · exact Or.inr (List.mem_cons_of_mem _ h)
    · rcases mem_refreshSched h with h | h
      · exact hnew h
      · exact Or.inr (List.mem_cons_of_mem _ h)

theorem wp_poolWorker (hi : P.L.Inv s) : wp (handler K) P.L w (poolWorker (D.fleet w)) (fun _ _ => True) s := by
  refine wp_iter (fun _ _ => True) (fun _ _ _ _ _ h => h) ?_ hi trivial
  intro _ s₁ i₁ _
  -- the popped pass is one that the queue held
  have hpop : wp (handler K) P.L w (accessMem fun m => (m.pool.head?, { m with pool := m.pool.tail }))
      (fun r s' => ∀ it, r = some it → P.Item w (it.shard, it.counter, it.checkpoint) s') s₁ := by
    refine wp_accessMem fun s₂ _ i₂ => ?_
    have h := P.mem s₂ w { s₂.mem w with pool := (s₂.mem w).pool.tail } i₂ (fun _ _ h => h) (Or.inl rfl)
      (fun it hit => P.pool s₂ w i₂ it (List.mem_of_mem_tail hit))
    refine ⟨h.1, h.2, ?_⟩
    intro it hit
    exact P.item_up _ _ _ _ h.2 h.1 (P.pool s₂ w i₂ it (List.mem_of_mem_head? hit))
  refine wp_seq i₁ hpop ?_
  intro r s₂ _ i₂ hr
  cases r with
  | none => trivial
  | some it =>
    refine wp_seq i₂ wp_now ?_
    intro t s₃ h₃ i₃ _
    refine wp_seq i₃ (wp_metric _) ?_
    intro _ s₄ h₄ i₄ _
    have hit := P.item_up _ _ _ _ (P.L.trans h₃ h₄) i₄ (hr it rfl)
    refine wp_seq i₄ (P.pass s₄ w _ i₄ hit) ?_
    intro o s₅ _ i₅ _
    refine wp_seq i₅ (P.wp_access (fun _ _ _ h => h) (fun _ => rfl) (fun _ _ h => h)) ?_
    intro _ _ _ _ _
    trivial

theorem wp_runBoundedPool (hi : P.L.Inv s) {items : List (ShardId × Nat × Option SequenceNumber)} {k t : Nat}
    (hit : ∀ it ∈ items, P.Item w it s) :
    wp (handler K) P.L w (runBoundedPool (D.fleet w) items k t) (fun _ _ => True) s := by
  unfold runBoundedPool
  have hdue : wp (handler K) P.L w (accessMem fun m =>
      let (due, sched) := refreshSched m.sched items t
      (due, { m with sched := sched }))
      (fun due _ => ∀ it ∈ due, (it.shard, it.counter, it.checkpoint) ∈ items) s := by
    refine wp_accessMem fun s₁ _ i₁ => ?_
    have h := P.mem s₁ w { s₁.mem w with sched := (refreshSched (s₁.mem w).sched items t).2 } i₁
      (fun _ _ h => h) (Or.inl rfl) (P.pool s₁ w i₁)
    refine ⟨h.1, h.2, ?_⟩
    intro it hit
    rcases mem_refreshSched hit with h | h
    · cases h
    · exact h
  refine wp_seq hi hdue ?_
  intro due s₁ h₁ i₁ hd
  split
  · refine wp_seq i₁ (wp_metric _) ?_
    intro _ s₂ _ i₂ _
    refine wp_seq i₂ (wp_readMem (Q := fun _ _ => True) fun _ _ _ => trivial) ?_
    intro next s₃ _ i₃ _
    split
    · trivial
    · refine wp_seq i₃ wp_now ?_
      intro t' s₄ _ _ _
      exact wp_sleep _
  · refine wp_seq i₁ (wp_metric _) ?_
    intro _ s₂ h₂ i₂ _
    have hset : wp (handler K) P.L w (updateMem fun m => { m with pool := due, outcomes := [] })
        (fun _ _ => True) s₂ := by
      refine wp_accessMem fun s₃ h₃ i₃ => ?_
      have h := P.mem s₃ w { s₃.mem w with pool := due, outcomes := [] } i₃ (fun _ _ h => h) (Or.inl rfl)
        (fun it hin => P.item_up _ _ s s₃ (P.L.trans h₁ (P.L.trans h₂ h₃)) i₃ (hit _ (hd it hin)))
      exact ⟨h.1, h.2, trivial⟩
    refine wp_seq i₂ hset ?_
    intro _ s₃ _ i₃ _
    refine wp_seq i₃ (wp_join (Q := fun _ _ => True) ?_ fun _ _ _ _ => trivial) ?_
    · intro p hp
      rw [List.eq_of_mem_replicate hp]
      exact P.wp_poolWorker i₃
    intro _ s₄ _ i₄ _
    refine wp_seq i₄ wp_now ?_
    intro t' s₅ _ i₅ _
    exact P.wp_access (fun _ _ _ h => h) (fun _ => rfl) (fun _ _ h => h)

/-! ## One cycle -/

theorem mem_eligibleOwned {rows : List Lease} {owner : Worker} {it : ShardId × Nat × Option SequenceNumber}
    (h : it ∈ eligibleOwned rows owner) :
    ∃ r ∈ rows, r.owner = some owner ∧ r.completed = false ∧ isShardKey r.leaseKey = true ∧
      it = (r.leaseKey, r.leaseCounter, r.checkpoint) := by
  unfold eligibleOwned at h
  simp only [List.mem_filterMap] at h
  obtain ⟨m, hm, hr⟩ := h
  rw [Option.bind_eq_some_iff] at hr
  obtain ⟨r, hl, hr⟩ := hr
  obtain ⟨hmem, hid⟩ := lookupRow_mem hl
  unfold ownedRows at hmem
  simp only [List.mem_filter, Bool.and_eq_true, beq_iff_eq, Bool.not_eq_true'] at hmem
  obtain ⟨r', _, hk, hid', _⟩ := mem_shardMetas hm
  split at hr
  · cases hr
    refine ⟨r, hmem.1, hmem.2.1, hmem.2.2, ?_, by rw [hid]⟩
    rw [hid, ← hid']
    exact hk
  · cases hr

theorem wp_processOwned (hi : P.L.Inv s) {rows : List Lease} (hr : ∀ r ∈ rows, P.Row r s) :
    wp (handler K) P.L w (processOwned (D.fleet w) rows) (fun _ _ => True) s := by
  unfold processOwned
  have hown : (D.fleet w).config.owner = w := D.owner_eq w
  simp only [hown]
  refine wp_seq hi wp_now ?_
  intro t s₁ h₁ i₁ _
  refine wp_seq i₁ (wp_readMem (Q := fun _ _ => True) fun _ _ _ => trivial) ?_
  intro k s₂ h₂ i₂ _
  have hit : ∀ it ∈ eligibleOwned rows w, P.Item w it s₂ := by
    intro it hit
    obtain ⟨r, hmem, ho, hc, hk, rfl⟩ := mem_eligibleOwned hit
    exact P.item s₂ w r i₂ (P.rows_up (P.L.trans h₁ h₂) i₂ hr r hmem) ho hc hk
  split
  · refine wp_seq i₂ (wp_join (Q := fun _ _ => True) ?_ fun _ _ _ _ => trivial) ?_
    · intro p hp
      obtain ⟨it, hin, rfl⟩ := List.mem_map.mp hp
      exact P.pass s₂ w it i₂ (hit it hin)
    · intro _ _ _ _ _
      trivial
  · exact P.wp_runBoundedPool i₂ hit

theorem wp_rereadAndProcess (hi : P.L.Inv s) :
    wp (handler K) P.L w (rereadAndProcess (D.fleet w)) (fun _ _ => True) s := by
  unfold rereadAndProcess
  refine wp_attempt hi (wp_list hi) ?_
  intro rows s₁ _ i₁ hrows
  refine wp_seq i₁ (wp_metric _) ?_
  intro _ s₂ h₂ i₂ _
  refine wp_seq i₂ (P.wp_access (fun _ _ _ h => Ground.pending_retain h) (fun _ => rfl) (fun _ _ h => h)) ?_
  intro _ s₃ h₃ i₃ _
  refine wp_seq i₃ (wp_readMem (Q := fun _ _ => True) fun _ _ _ => trivial) ?_
  intro k s₄ h₄ i₄ _
  have hrest : ∀ s₅, P.L.le s₄ s₅ → P.L.Inv s₅ → wp (handler K) P.L w
      (if allComplete (rows.filter fun r => isShardKey r.leaseKey) then (.ret (.ok true) : Fx (Except WorkerError Bool))
      else (processOwned (D.fleet w) (rows.filter fun r => isShardKey r.leaseKey)).bind fun _ => .ret (.ok false))
      (fun _ _ => True) s₅ := by
    intro s₅ h₅ i₅
    split
    · trivial
    · have hall : ∀ r ∈ rows, P.Row r s₁ := fun r hr => P.history s₁ i₁ r ((hrows rows rfl).1 r hr)
      have hle := P.L.trans h₂ (P.L.trans h₃ (P.L.trans h₄ h₅))
      refine wp_seq i₅ (P.wp_processOwned i₅ ?_) ?_
      · intro r hr
        exact P.rows_up hle i₅ hall r (List.mem_filter.mp hr).1
      · intro _ _ _ _ _
        trivial
  cases k with
  | none => exact hrest s₄ (P.L.refl _) i₄
  | some n =>
    refine wp_seq i₄ (wp_metric _) ?_
    intro _ s₅ h₅ i₅ _
    exact hrest s₅ h₅ i₅

theorem wp_takeLease (hi : P.L.Inv s) {r : Lease} (hr : P.Row r s) (hc : r.completed = false)
    (hk : isShardKey r.leaseKey = true) :
    wp (handler K) P.L w (takeLease (D.fleet w) r.leaseKey) (fun _ _ => True) s := by
  unfold takeLease
  have hown : (D.fleet w).config.owner = w := D.owner_eq w
  simp only [hown]
  obtain ⟨hput, hclaim⟩ := P.take s w r hi hr hc hk
  refine wp_seq hi (wp_acquire hi hput hclaim) ?_
  intro a s₁ _ i₁ _
  split
  · exact wp_metric _
  · trivial

theorem wp_claimShare (hi : P.L.Inv s) (nowMs : Nat) :
    wp (handler K) P.L w (claimShare (D.fleet w) nowMs) (fun _ _ => True) s := by
  unfold claimShare
  refine wp_attempt hi (wp_list hi) ?_
  intro rows s₁ _ i₁ hrows
  refine wp_seq i₁ wp_hashOrder ?_
  intro order s₂ h₂ i₂ _
  -- what the coordinator takes are keys of uncompleted shard rows of the scan
  refine wp_seq i₂ (P := fun keys _ => ∀ k ∈ keys, ∃ r ∈ rows, r.leaseKey = k ∧ r.completed = false ∧
    isShardKey k = true) ?_ ?_
  · refine wp_accessMem fun s₃ _ i₃ => ?_
    have h := P.mem s₃ w { s₃.mem w with coordinator := ((s₃.mem w).coordinator.tick order
      (rows.filter fun r => r.leaseKey ≠ LEADER_LEASE_KEY) nowMs).2 } i₃ (fun _ _ h => h) (Or.inl rfl)
      (P.pool s₃ w i₃)
    refine ⟨h.1, h.2, ?_⟩
    intro k hk
    obtain ⟨r, hr, rfl, hc, hb⟩ := mem_tick hk
    obtain ⟨hr, hne⟩ := List.mem_filter.mp hr
    refine ⟨r, hr, rfl, hc, ?_⟩
    unfold isShardKey
    simpa [hb] using hne
  intro keys s₃ h₃ i₃ hkeys
  refine wp_seq i₃ (P := fun _ _ => True) ?_ ?_
  · refine wp_mono _ (fun _ _ _ _ => trivial) i₃ (wp_each (J := P.L.le s₃) ?_ i₃ (P.L.refl _))
    intro k hk s₄ i₄ h₄
    obtain ⟨r, hr, rfl, hc, hs⟩ := hkeys k hk
    have hrow := P.history s₁ i₁ r ((hrows rows rfl).1 r hr)
    have hrow' := P.row_up r s₁ s₄ (P.L.trans h₂ (P.L.trans h₃ h₄)) i₄ hrow
    have hle : P.L.Up (P.L.le s₃) := fun _ _ hl _ h => P.L.trans h hl
    exact wp_mono _ (fun _ _ _ h => h.2) i₄ (wp_frame hle _ i₄ h₄ (P.wp_takeLease i₄ hrow' hc hs))
  · intro _ s₄ _ i₄ _
    exact P.wp_rereadAndProcess i₄

theorem wp_heartbeatAndClaim (hi : P.L.Inv s) (nowMs : Nat) :
    wp (handler K) P.L w (heartbeatAndClaim (D.fleet w) nowMs) (fun _ _ => True) s := by
  unfold heartbeatAndClaim
  have hown : (D.fleet w).config.owner = w := D.owner_eq w
  simp only [hown]
  refine wp_seq hi (wp_heartbeat hi (P.heartbeat s w hi)) ?_
  intro _ s₁ _ i₁ _
  exact P.wp_claimShare i₁ nowMs

theorem wp_runCycle (hi : P.L.Inv s) (nowMs : Nat) :
    wp (handler K) P.L w (runCycle (D.fleet w) nowMs) (fun _ _ => True) s := by
  unfold runCycle
  refine wp_attempt hi (wp_list hi) ?_
  intro rows s₁ _ i₁ hrows
  refine wp_seq i₁ (P.wp_leadershipStep i₁ rows nowMs) ?_
  intro lead s₂ h₂ i₂ _
  split
  · have hall : ∀ r ∈ rows, P.Row r s₂ :=
      P.rows_up h₂ i₂ fun r hr => P.history s₁ i₁ r ((hrows rows rfl).1 r hr)
    refine wp_attempt i₂ (P.sync s₂ w rows i₂ hall) ?_
    intro _ s₃ _ i₃ _
    refine wp_seq i₃ (P.wp_cleanup i₃ rows) ?_
    intro _ s₄ _ i₄ _
    exact P.wp_heartbeatAndClaim i₄ nowMs
  · exact P.wp_heartbeatAndClaim i₂ nowMs

/-! ## Graceful release -/

theorem wp_flushPending (hi : P.L.Inv s) {r : Lease} (hr : P.Row r s) (ho : r.owner = some w) :
    wp (handler K) P.L w (flushPending (D.fleet w) r) (fun _ _ => True) s := by
  unfold flushPending
  have hown : (D.fleet w).config.owner = w := D.owner_eq w
  simp only [hown]
  have hforget : ∀ c s₁, P.L.Inv s₁ → wp (handler K) P.L w
      ((forgetPending r.leaseKey).bind fun _ => (.ret c : Fx Nat)) (fun _ _ => True) s₁ := by
    intro c s₁ i₁
    refine wp_seq i₁ (P.wp_forgetPending _) ?_
    intro _ _ _ _ _
    trivial
  split
  · refine wp_seq hi (P.wp_takePending r.leaseKey
      (Q := fun a s' => ∀ q, a = some q → Keeps P.L w r.leaseKey (.checkpoint w r.leaseCounter q) s') ?_ ?_) ?_
    · intro a s₁ s₂ hl i₂ h q hq
      exact (h q hq).up s₁ s₂ hl i₂
    · intro s₁ h₁ i₁ q hq
      exact P.flush s₁ w r q i₁ (P.row_up r s s₁ h₁ i₁ hr) ho hq
    intro a s₁ _ i₁ ha
    cases a with
    | none => exact hforget _ _ i₁
    | some q =>
      refine wp_seq i₁ (wp_checkpoint (P := fun _ => True) (fun _ _ _ _ h => h) i₁ (ha q rfl)
        fun _ _ _ _ _ => trivial) ?_
      intro c s₂ _ i₂ _
      cases c with
      | ok c => exact hforget _ _ i₂
      | error e => exact hforget _ _ i₂
  · trivial

theorem wp_releaseRows : ∀ {rows : List Lease} {n : Nat} {s : World}, P.L.Inv s → (∀ r ∈ rows, P.Row r s) →
    wp (handler K) P.L w (releaseRows (D.fleet w) rows n) (fun _ _ => True) s
  | [], _, _, _, _ => trivial
  | r :: rows, n, s, hi, hr => by
    have hown : (D.fleet w).config.owner = w := D.owner_eq w
    unfold releaseRows
    simp only [hown]
    split
    · rename_i hc
      simp only [Bool.and_eq_true, beq_iff_eq] at hc
      have hrow : wp (handler K) P.L w (releaseRow (D.fleet w) r) (fun _ _ => True) s := by
        unfold releaseRow
        simp only [hown]
        refine wp_seq hi (P.wp_flushPending hi (hr r (by simp)) hc.1) ?_
        intro c s₁ h₁ i₁ _
        have hk := P.release s₁ w r c i₁ (P.row_up r s s₁ h₁ i₁ (hr r (by simp)))
        refine wp_seq i₁ (wp_release i₁ hk) ?_
        intro a _ _ _ _
        split <;> trivial
      refine wp_seq hi hrow ?_
      intro ok s₁ h₁ i₁ _
      exact wp_releaseRows i₁ (P.rows_up h₁ i₁ fun x hx => hr x (List.mem_cons_of_mem _ hx))
    · exact wp_releaseRows hi fun x hx => hr x (List.mem_cons_of_mem _ hx)

/-! ## Every run -/

theorem pending_init (cfg : FleetConfig) (k : ShardId) : (Memory.init cfg).pending k = none := by
  unfold Memory.pending Memory.init
  by_cases h : cfg.deferred <;> simp [h, CkptDefer.resumeFrom]

theorem wp_job (hi : P.L.Inv s) (j : Job) : wp (handler K) P.L w (D.job w j) (fun _ _ => True) s := by
  cases j with
  | cycle =>
    refine wp_seq hi wp_now ?_
    intro t s₁ _ i₁ _
    refine wp_seq i₁ (P.wp_runCycle i₁ t) ?_
    intro _ _ _ _ _
    trivial
  | releaseOwned =>
    refine wp_seq hi (wp_attempt hi (wp_list hi) ?_) ?_
    · intro rows s₁ _ i₁ hrows
      refine wp_seq i₁ (P.wp_releaseRows i₁ fun r hr => P.history s₁ i₁ r ((hrows rows rfl).1 r hr)) ?_
      intro _ _ _ _ _
      trivial
    · intro _ _ _ _ _
      trivial
  | resize target => exact P.wp_access (fun _ _ _ h => h) (fun _ => rfl) (fun _ _ h => h)

theorem follows : Follows (D.machine K) P.L where
  env := P.env
  reset w s hi := by
    refine P.mem s w (Memory.init (D.config w)) hi ?_ (Or.inr rfl) ?_
    · intro k q h
      rw [pending_init] at h
      cases h
    · intro it h
      cases h
  job w j s hi := P.wp_job hi j

theorem reachable (h₀ : P.L.Inv D.init) {p : Pool Req Resp Worker World} (h : D.Reachable K p) :
    P.L.Inv p.world :=
  ((Pool.Reaches.safe P.follows h (Pool.safe_idle h₀)).1).1

theorem le_of_reaches (h₀ : P.L.Inv D.init) {p q : Pool Req Resp Worker World} (h : D.Reachable K p)
    (hq : p.Reaches (D.machine K) q) : P.L.le p.world q.world :=
  (Pool.Reaches.safe P.follows hq (Pool.Reaches.safe P.follows h (Pool.safe_idle h₀)).1).2

end Protocol

end StreamsConsumer
