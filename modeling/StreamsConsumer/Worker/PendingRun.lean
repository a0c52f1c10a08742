import StreamsConsumer.Worker.PendingPool

/-!
# A worker with pending acks

Every cycle and every release of a worker, beside the other workers, and from
there on every run of a fleet. The worker that takes a lease in step 1 of a cycle
is the only one that can have a stale ack for it: the map of pending acks is
pruned in step 2, by what the worker owns then.
-/

namespace StreamsConsumer.PendingAck
open Conc

/-- A scan has shown the worker its row of the shard, and a pass over it may start. -/
def Ready (w : Worker) (k : ShardId) (items : List (ShardId × Nat × Option SequenceNumber)) (s : World) : Prop :=
  Level w k s ∧ ∀ it ∈ items, it.1 = k → Behind w k s it.2.2

section
variable {D : Deployment} {K : Contract} {w : Worker} {k : ShardId} {s t : World}
  {items : List (ShardId × Nat × Option SequenceNumber)}

theorem stable_ready : (duty D w k).Stable (Ready w k items) := by
  intro s t hs hb ht h
  exact ⟨stable_level s t hs hb ht h.1, fun it hit e => (h.2 it hit e).beside hb hs ht⟩

theorem whole_mem {β : Type} {f : Memory → β × Memory} {Q : β → World → Prop}
    (h : ∀ s₁, Registry D s → Away w k s s₁ → Registry D s₁ → Level w k (s₁.setMem w (f (s₁.mem w)).2) ∧
      Q (f (s₁.mem w)).1 (s₁.setMem w (f (s₁.mem w)).2)) : Whole D K w k (accessMem f) Q s := by
  intro s₁ hs h₁ hs₁
  refine ⟨trivial, ?_⟩
  intro c a t he _
  cases (exec_careful he).1
  exact h s₁ hs h₁ hs₁

theorem whole_ready {β : Type} {f : Memory → β × Memory} (hf : ∀ m q, (f m).2.pending k = some q → m.pending k = some q)
    (h : Ready w k items s) : Whole D K w k (accessMem f) (fun _ => Ready w k items) s := by
  refine whole_mem ?_
  intro s₁ hs h₁ hs₁
  have h' := stable_ready s s₁ hs h₁.1 hs₁ h
  have hlevel := h'.1.setMem (hf (s₁.mem w))
  exact ⟨hlevel, hlevel, h'.2⟩

theorem whole_calm {α : Type} {p : Fx α} (hp : Asks (Calm k) p) (h : Level w k s) :
    Whole D K w k p (fun _ => Level w k) s :=
  whole_of_does (does_calm hp h)

theorem whole_sibling {α : Type} {p : Fx α} (hp : Asks (Sibling k) p) (h : Ready w k items s) :
    Whole D K w k p (fun _ => Ready w k items) s :=
  whole_of_does (does_sibling stable_ready (fun _ h => h.1) hp h)

theorem whole_attempt {ε α β : Type} {p : Fx (Except ε α)} {f : α → Fx (Except ε β)} {P : Except ε α → World → Prop}
    {Q : Except ε β → World → Prop} (hs : Registry D s) (hp : Whole D K w k p P s)
    (herror : ∀ e s', P (.error e) s' → Q (.error e) s')
    (hok : ∀ a s', Registry D s' → P (.ok a) s' → Whole D K w k (f a) Q s') : Whole D K w k (attempt p f) Q s := by
  refine joint_seq hs hp ?_
  intro x s' hs' h'
  cases x with
  | error e => exact herror e s' h'
  | ok a => exact hok a s' hs' h'

theorem routine_calm : Routine (Calm k) where
  scan := trivial
  getItem _ := trivial
  put _ _ _ _ _ _ := nofun
  claim _ _ _ _ _ _ _ := nofun
  renew _ _ _ _ _ _ _ := nofun
  heartbeat _ _ _ _ _ _ := nofun
  createShardLease _ _ _ _ _ _ _ := nofun
  deleteLease _ _ _ _ _ := nofun
  now := trivial
  sleep _ := trivial
  metric _ := trivial
  hashOrder := trivial
  plain f hf m q hq := by
    unfold Memory.pending at hq ⊢
    rwa [(hf m).1] at hq
  tick _ _ _ _ _ hq := hq
  retain owned m q hq := by
    cases hd : m.ckptDefer with
    | none => simp [Memory.pending, hd] at hq
    | some d =>
      simp only [Memory.pending, hd, Option.map_some, Option.bind_some] at hq ⊢
      exact CkptDefer.resumeFrom_retain hq

theorem supplies_calm : Supplies (Calm k) contractSource where
  describeShards := asks_bind (asks_req trivial) fun _ => trivial
  describeChildShards _ := asks_bind (asks_req trivial) fun _ => trivial

/-! ## One cycle -/

theorem whole_list (h : Level w k s) : Whole D K w k dynamoDbLeaseStore.list (fun x s' => Level w k s' ∧
    ∀ rows, x = .ok rows → (rows.map Lease.leaseKey).Nodup ∧
      ∀ r ∈ rows, r.leaseKey = k → r.owner = some w → Behind w k s' r.checkpoint) s := by
  refine joint_bind _ _ ?_
  intro s₁ hs h₁ hs₁
  refine ⟨trivial, ?_⟩
  intro c a t he _
  obtain ⟨hexec, hcareful⟩ := exec_careful he
  obtain ⟨rfl, hrows⟩ := execScan_eq hexec
  have hl := stable_level s t hs h₁.1 hs₁ h
  refine ⟨hl, hl, ?_⟩
  intro rows e
  have ha := mapError_eq_ok e
  subst ha
  refine ⟨(hrows rows rfl).2, ?_⟩
  intro r hr hkey ho r' hr'
  simp only [careful, List.all_eq_true, decide_eq_true_eq] at hcareful
  have hrow := hcareful r hr ho
  rw [hkey] at hrow
  rw [hs₁.heldRow_eq hrow ho, Option.some.injEq] at hr'
  rw [hr']

theorem calm_settleOutcomes (F : Fleet) : Asks (Calm k) (settleOutcomes F) :=
  asks_bind (asks_now routine_calm) fun _ => asks_plain routine_calm fun _ => ⟨rfl, rfl⟩

theorem calm_awaitDue (F : Fleet) : Asks (Calm k) (awaitDue F) := by
  refine asks_bind (asks_metric routine_calm _) ?_
  intro _
  refine asks_bind (asks_plain routine_calm fun _ => ⟨rfl, rfl⟩) ?_
  intro next
  cases next with
  | none => trivial
  | some next => exact asks_bind (asks_now routine_calm) fun _ => asks_sleep routine_calm _

theorem whole_runQueue (hK : K.Forward) (hsrc : D.source = contractSource) (hnodup : (items.map Prod.fst).Nodup)
    (hs : Registry D s) (h : Ready w k items s) {l : List (ShardId × Nat × Option SequenceNumber)} (hl : l.Sublist items)
    (n t : Nat) : Whole D K w k (runQueue (D.fleet w) n (l.map (dueItem t))) (fun _ => Level w k) s := by
  have hids : (l.map (dueItem t)).map PoolItem.shard = l.map Prod.fst := by
    rw [List.map_map]
    rfl
  refine joint_seq hs (whole_sibling (p := metric _) (asks_req trivial) h) ?_
  intro _ s₁ hs₁ h₁
  refine joint_seq hs₁ (P := fun _ => Waiting w k) (whole_mem ?_) ?_
  · intro s₂ _ ha hs₂
    have h₂ := stable_ready s₁ s₂ hs₁ ha.1 hs₂ h₁
    have hlevel : Level w k (s₂.setMem w { s₂.mem w with pool := l.map (dueItem t), outcomes := [] }) :=
      h₂.1.setMem fun _ h => h
    refine ⟨hlevel, hlevel, ?_, ?_⟩
    · simp only [World.setMem, Function.update_self, hids]
      exact hnodup.sublist (hl.map _)
    · intro it hit hk
      simp only [World.setMem, Function.update_self] at hit
      obtain ⟨x, hx, rfl⟩ := List.mem_map.mp hit
      exact h₂.2 x (hl.subset hx) hk
  intro _ s₂ hs₂ h₂
  refine joint_seq hs₂ (whole_pool hK hsrc h₂) ?_
  intro _ s₃ _ h₃
  exact whole_calm (calm_settleOutcomes _) h₃

theorem whole_runBoundedPool (hK : K.Forward) (hsrc : D.source = contractSource) (hnodup : (items.map Prod.fst).Nodup)
    (hs : Registry D s) (h : Ready w k items s) (n t : Nat) :
    Whole D K w k (runBoundedPool (D.fleet w) items n t) (fun _ => Level w k) s := by
  rw [runBoundedPool_eq]
  refine joint_seq hs (P := fun due s' => Ready w k items s' ∧
    ∃ l : List (ShardId × Nat × Option SequenceNumber), l.Sublist items ∧ due = l.map (dueItem t)) (whole_mem ?_) ?_
  · intro s₁ hs h₁ hs₁
    have h' := stable_ready s s₁ hs h₁.1 hs₁ h
    have hlevel : Level w k (s₁.setMem w { s₁.mem w with sched := (refreshSched (s₁.mem w).sched items t).2 }) :=
      h'.1.setMem fun _ h => h
    exact ⟨hlevel, ⟨hlevel, h'.2⟩, refreshSched_sublist _ _ _⟩
  intro due s₁ hs₁ h₁
  obtain ⟨h₁, l, hl, rfl⟩ := h₁
  split
  · exact whole_calm (calm_awaitDue _) h₁.1
  · exact whole_runQueue hK hsrc hnodup hs₁ h₁ hl n t

theorem whole_processOwned (hK : K.Forward) (hsrc : D.source = contractSource) {rows : List Lease}
    (hnodup : (rows.map Lease.leaseKey).Nodup) (hs : Registry D s) (h : Ready w k (eligibleOwned rows w) s) :
    Whole D K w k (processOwned (D.fleet w) rows) (fun _ => Level w k) s := by
  have hitems := nodup_eligibleOwned (w := w) hnodup
  unfold processOwned
  rw [show (D.fleet w).config.owner = w from D.owner_eq w]
  refine joint_seq hs (whole_sibling (p := now) (asks_req trivial) h) ?_
  intro t s₁ hs₁ h₁
  refine joint_seq hs₁ (whole_ready (fun _ _ h => h) h₁) ?_
  intro n s₂ hs₂ h₂
  cases n with
  | none =>
    refine joint_seq hs₂ (whole_join hK hsrc hitems hs₂ h₂.1 h₂.2) ?_
    intro _ s₃ _ h₃
    exact h₃
  | some n => exact whole_runBoundedPool hK hsrc hitems hs₂ h₂ _ t

theorem whole_rereadAndProcess (hK : K.Forward) (hsrc : D.source = contractSource) (hs : Registry D s)
    (h : Level w k s) : Whole D K w k (rereadAndProcess (D.fleet w)) (fun _ => Level w k) s := by
  unfold rereadAndProcess
  refine whole_attempt hs (whole_list h) (fun _ _ h => h.1) ?_
  intro rows s₁ hs₁ h₁
  obtain ⟨hl, hrows⟩ := h₁
  obtain ⟨hnodup, hshown⟩ := hrows rows rfl
  have hnodup' : ((rows.filter fun r => isShardKey r.leaseKey).map Lease.leaseKey).Nodup :=
    hnodup.sublist (List.filter_sublist.map _)
  have hready : Ready w k (eligibleOwned (rows.filter fun r => isShardKey r.leaseKey) w) s₁ := by
    refine ⟨hl, ?_⟩
    intro it hit hk
    obtain ⟨r, hr, ho, _, _, rfl⟩ := Protocol.mem_eligibleOwned hit
    exact hshown r (List.mem_of_mem_filter hr) hk ho
  have hrest : ∀ s', Registry D s' → Ready w k (eligibleOwned (rows.filter fun r => isShardKey r.leaseKey) w) s' →
      Whole D K w k (if allComplete (rows.filter fun r => isShardKey r.leaseKey) then
        (.ret (.ok true) : Fx (Except WorkerError Bool))
        else (processOwned (D.fleet w) (rows.filter fun r => isShardKey r.leaseKey)).bind fun _ => .ret (.ok false))
        (fun _ => Level w k) s' := by
    intro s' hs' h'
    split
    · exact h'.1
    · refine joint_seq hs' (whole_processOwned hK hsrc hnodup' hs' h') ?_
      intro _ s'' _ h''
      exact h''
  refine joint_seq hs₁ (whole_sibling (p := metric _) (asks_req trivial) hready) ?_
  intro _ s₂ hs₂ h₂
  refine joint_seq hs₂ (whole_ready ((routine_calm (k := k)).retain _) h₂) ?_
  intro _ s₃ hs₃ h₃
  refine joint_seq hs₃ (whole_ready (fun _ _ h => h) h₃) ?_
  intro n s₄ hs₄ h₄
  cases n with
  | none => exact hrest s₄ hs₄ h₄
  | some n =>
    refine joint_seq hs₄ (whole_sibling (p := metric _) (asks_req trivial) h₄) ?_
    intro _ s₅ hs₅ h₅
    exact hrest s₅ hs₅ h₅

theorem whole_claimShare (hK : K.Forward) (hsrc : D.source = contractSource) (hs : Registry D s) (h : Level w k s)
    (nowMs : Nat) : Whole D K w k (claimShare (D.fleet w) nowMs) (fun _ => Level w k) s := by
  unfold claimShare
  refine whole_attempt hs (whole_calm (asks_list routine_calm) h) (fun _ _ h => h) ?_
  intro rows s₁ hs₁ h₁
  refine joint_seq hs₁ (whole_calm (asks_hashOrder routine_calm) h₁) ?_
  intro order s₂ hs₂ h₂
  refine joint_seq hs₂ (whole_calm (asks_req (routine_calm.tick order (rows.filter fun r => r.leaseKey ≠ LEADER_LEASE_KEY) nowMs)) h₂) ?_
  intro keys s₃ hs₃ h₃
  refine joint_seq hs₃ (whole_calm (asks_each fun key _ => asks_takeLease routine_calm rfl key) h₃) ?_
  intro _ s₄ hs₄ h₄
  exact whole_rereadAndProcess hK hsrc hs₄ h₄

theorem whole_runCycle (hK : K.Forward) (hsrc : D.source = contractSource) (hs : Registry D s) (h : Level w k s)
    (nowMs : Nat) : Whole D K w k (runCycle (D.fleet w) nowMs) (fun _ => Level w k) s := by
  have hclaim : ∀ s', Registry D s' → Level w k s' →
      Whole D K w k (heartbeatAndClaim (D.fleet w) nowMs) (fun _ => Level w k) s' := by
    intro s' hs' h'
    refine joint_seq hs' (whole_calm (asks_heartbeat routine_calm _) h') ?_
    intro _ s'' hs'' h''
    exact whole_claimShare hK hsrc hs'' h'' nowMs
  have hsupply : Supplies (Calm k) (D.fleet w).source := by
    rw [show (D.fleet w).source = contractSource from hsrc]
    exact supplies_calm
  unfold runCycle
  refine whole_attempt hs (whole_calm (asks_list routine_calm) h) (fun _ _ h => h) ?_
  intro rows s₁ hs₁ h₁
  refine joint_seq hs₁ (whole_calm (asks_leadershipStep routine_calm rfl rows nowMs) h₁) ?_
  intro lead s₂ hs₂ h₂
  cases lead with
  | false => exact hclaim s₂ hs₂ h₂
  | true =>
    refine whole_attempt hs₂ (whole_calm (asks_leaderShardSync routine_calm rfl hsupply rows) h₂) (fun _ _ h => h) ?_
    intro _ s₃ hs₃ h₃
    refine joint_seq hs₃ (whole_calm (asks_cleanupCompletedLeases routine_calm rfl rows) h₃) ?_
    intro _ s₄ hs₄ h₄
    exact hclaim s₄ hs₄ h₄

/-! ## Graceful release -/

theorem does_flushPending {r : Lease} (hs : Registry D s) (h : Level w r.leaseKey s) :
    Does D K w r.leaseKey (flushPending (D.fleet w) r) (fun _ => Level w r.leaseKey) s := by
  have hforget : ∀ (c : Nat) s', Level w r.leaseKey s' → Does D K w r.leaseKey
      ((forgetPending r.leaseKey).bind fun _ => (.ret c : Fx Nat)) (fun _ => Level w r.leaseKey) s' :=
    fun _ s' h' => does_calm (asks_bind calm_forgetPending fun _ => trivial) h'
  unfold flushPending
  rw [show (D.fleet w).config.owner = w from D.owner_eq w]
  split
  · refine joint_seq hs (does_takePending h) ?_
    intro x s₁ hs₁ h₁
    cases x with
    | none => exact hforget _ s₁ h₁.1
    | some q =>
      refine joint_seq hs₁ (does_checkpoint (h₁.2 q rfl)) ?_
      intro c s₂ _ h₂
      cases c with
      | ok c => exact hforget _ s₂ h₂.level
      | error e => exact hforget _ s₂ h₂.level
  · exact h

theorem does_releaseRow {r : Lease} (hs : Registry D s) (h : Level w k s) :
    Does D K w k (releaseRow (D.fleet w) r) (fun _ => Level w k) s := by
  by_cases hk : r.leaseKey = k
  · subst hk
    unfold releaseRow
    refine joint_seq hs (does_flushPending hs h) ?_
    intro c s₁ _ h₁
    refine does_calm (asks_bind (asks_boxLease (asks_conditionalWrite ?_ _)) ?_) h₁
    · exact fun _ _ _ _ => nofun
    · intro x
      cases x <;> trivial
  · exact does_sibling stable_level (fun _ h => h) (asks_releaseRow rfl (serving_sibling hk)) h

theorem does_releaseRows : ∀ (rows : List Lease) (n : Nat) {s : World}, Registry D s → Level w k s →
    Does D K w k (releaseRows (D.fleet w) rows n) (fun _ => Level w k) s
  | [], _, _, _, h => h
  | r :: rows, n, s, hs, h => by
    unfold releaseRows
    split
    · refine joint_seq hs (does_releaseRow hs h) ?_
      intro ok s₁ hs₁ h₁
      exact does_releaseRows rows _ hs₁ h₁
    · exact does_releaseRows rows n hs h

theorem whole_job (hK : K.Forward) (hsrc : D.source = contractSource) (hs : Registry D s) (h : Level w k s) (j : Job) :
    Whole D K w k (D.job w j) (fun _ _ => True) s := by
  refine joint_mono _ (Q := fun _ => Level w k) (fun _ _ _ => trivial) ?_
  cases j with
  | cycle =>
    refine joint_seq hs (whole_calm (asks_now routine_calm) h) ?_
    intro t s₁ hs₁ h₁
    refine joint_seq hs₁ (whole_runCycle hK hsrc hs₁ h₁ t) ?_
    intro _ s₂ _ h₂
    exact h₂
  | releaseOwned =>
    have hrelease : Whole D K w k (releaseOwned (D.fleet w)) (fun _ => Level w k) s := by
      refine whole_attempt hs (whole_calm (asks_list routine_calm) h) (fun _ _ h => h) ?_
      intro rows s₁ hs₁ h₁
      refine joint_seq hs₁ (whole_of_does (does_releaseRows rows 0 hs₁ h₁)) ?_
      intro _ s₂ _ h₂
      exact h₂
    refine joint_seq hs hrelease ?_
    intro _ s₁ _ h₁
    exact h₁
  | resize target => exact whole_calm (asks_plain routine_calm fun _ => ⟨rfl, rfl⟩) h

/-! ## Every run -/

theorem step_of_careful {p q : FleetPool} {l : Label Worker Choice Env Job} (h : p.step (carefulMachine D K) l = some q) :
    p.step (D.machine K) l = some q := by
  cases l with
  | call v π c =>
    simp only [Pool.step] at h ⊢
    split at h
    · cases h
    rename_i x hx
    split at h
    · cases h
    rename_i a u he
    cases h
    simp only [show (D.machine K).exec v x.1 c p.world = some (a, u) from (exec_careful he).1]
  | _ => exact h

theorem away_step {p q : FleetPool} {l : Label Worker Choice Env Job} (h : p.step (carefulMachine D K) l = some q)
    (hl : l.proc ≠ some w) (hq : Registry D q.world) : Away w k p.world q.world := by
  cases l with
  | call v π c =>
    simp only [Pool.step] at h
    split at h
    · cases h
    split at h
    · cases h
    rename_i he
    cases h
    exact away_exec (fun e => hl (congrArg some e)) hq (exec_careful he).1
  | silent v π =>
    simp only [Pool.step] at h
    split at h <;> cases h
    exact .refl _
  | start v j =>
    simp only [Pool.step] at h
    split at h <;> cases h
    exact .refl _
  | stop v =>
    cases h
    exact .refl _
  | crash v =>
    cases h
    have hv : w ≠ v := fun e => hl (congrArg some e.symm)
    have hmem : ((carefulMachine D K).reset v p.world).mem w = p.world.mem w := by
      simp [carefulMachine, Deployment.machine, World.setMem, hv]
    exact ⟨⟨List.prefix_rfl, congrArg (Memory.pending · k) hmem, rfl⟩, hmem⟩
  | env e =>
    simp only [Pool.step] at h
    split at h <;> cases h
    rename_i he
    exact away_env he

theorem level_reset (s : World) : Level w k ((carefulMachine D K).reset w s) := by
  refine .of_none (Eq.trans ?_ (Protocol.pending_init (D.config w) k))
  simp [carefulMachine, Deployment.machine, World.setMem]

theorem whole_run (hK : K.Forward) (hsrc : D.source = contractSource) : ∀ {ls : List (Label Worker Choice Env Job)}
    {p q : FleetPool}, p.run (carefulMachine D K) ls = some q → D.Reachable K p →
    Level w k p.world ∧ Whole D K w k (p.procs w) (fun _ _ => True) p.world → D.Reachable K q ∧
      Level w k q.world ∧ Whole D K w k (q.procs w) (fun _ _ => True) q.world
  | [], _, _, h, hp, hw => by
    cases h
    exact ⟨hp, hw⟩
  | l :: ls, p, q, h, hp, hw => by
    simp only [Pool.run] at h
    split at h
    · cases h
    rename_i p' hstep
    have hp' : D.Reachable K p' := hp.trans _ ⟨[l], by simp [Pool.run, step_of_careful hstep]⟩
    have hacks : K.AcksBatch := fun _ _ => hK.acks
    have hreg := registry_reachable hacks hsrc hp'
    refine whole_run hK hsrc h hp' ?_
    refine Pool.joint_step Away.refl (fun _ _ _ => Away.trans) (stable_whole stable_level) (fun s _ => level_reset s) ?_ hstep
      (registry_reachable hacks hsrc hp) hreg (fun hl => away_step hstep hl hreg) hw
    intro j s hs hl
    exact whole_job hK hsrc hs hl j

end

/-- In every run in which no worker takes a lease that it still holds an ack for, and scans show a worker its own rows as
they are: whoever holds a pending ack is at or ahead of the row it works from, passes start, read and deliver from there
on, and no flush and no persist moves the row back. -/
theorem pending_at_or_ahead {D : Deployment} {K : Contract} (hK : K.Forward) (hsrc : D.source = contractSource)
    {p : FleetPool} (h : (Pool.idle D.init).Reaches (carefulMachine D K) p) (w : Worker) (k : ShardId) :
    Level w k p.world ∧ ∀ π x, (p.procs w).focus π = some x → Ahead w k x.1 p.world := by
  obtain ⟨ls, hls⟩ := h
  have hinit : Level w k D.init := .of_none (Protocol.pending_init (D.config w) k)
  obtain ⟨hreach, hlevel, hwhole⟩ := whole_run hK hsrc hls (Deployment.reachable_idle D K) ⟨hinit, trivial⟩
  refine ⟨hlevel, ?_⟩
  intro π x hx
  exact (joint_focus Away.refl _ (registry_reachable (fun _ _ => hK.acks) hsrc hreach) hwhole hx).1

/-! ## A lease that left and came back -/

def deferringFleet : Deployment :=
  ⟨contractSource, fun w => { plainConfig .trimHorizon w with checkpointIntervalMs := some 1000 }, fun _ => rfl⟩

def ackFirst (s : World) : Req → Choice
  | .deliver _ records => (records.head?.map fun r => Choice.acked r.seq).getD .unacked
  | r => s.serve r

def starts (k : ShardId) : Req → Bool
  | .createConsumer shard => shard == k
  | _ => false

theorem ahead_of_starts {p : FleetPool} {w : Worker} {k : ShardId} {π : List Nat}
    (hstart : ((p.procs w).focus π).any (fun x => starts k x.1) = true)
    (h : ∀ π x, (p.procs w).focus π = some x → Ahead w k x.1 p.world) : Level w k p.world := by
  cases hx : (p.procs w).focus π with
  | none =>
    rw [hx] at hstart
    cases hstart
  | some x =>
    obtain ⟨r, f⟩ := x
    have ha := h π ⟨r, f⟩ hx
    rw [hx, Option.any_some] at hstart
    cases r with
    | createConsumer shard => exact ha (beq_iff_eq.mp hstart)
    | _ => cases hstart

def twoRecords : List Env := [.appear ⟨"s", []⟩, .append "s" ⟨"s", "1", []⟩, .append "s" ⟨"s", "2", []⟩]

def carefulCycle (es : List Env) (n : Nat) (p : FleetPool) : FleetPool :=
  let M := carefulMachine deferringFleet exactContract
  ((deferringFleet.envs exactContract es p).attempt M (.start "a" .cycle)).drive M ackFirst "a" [[], [0]] n

def fourthPass : FleetPool :=
  carefulCycle [] 19 (carefulCycle [.append "s" ⟨"s", "3", []⟩] 60 (carefulCycle [.advance 1000] 60
    (carefulCycle twoRecords 60 (Pool.idle deferringFleet.init))))

theorem reaches_carefulEnvs : ∀ (es : List Env) (p : FleetPool),
    p.Reaches (carefulMachine deferringFleet exactContract) (deferringFleet.envs exactContract es p)
  | [], _ => ⟨[], rfl⟩
  | e :: es, p => (Pool.reaches_attempt (carefulMachine deferringFleet exactContract) p (.env e)).trans _
      (reaches_carefulEnvs es _)

theorem reaches_carefulCycle {es : List Env} {n : Nat} {p q : FleetPool}
    (h : q.Reaches (carefulMachine deferringFleet exactContract) p) :
    q.Reaches (carefulMachine deferringFleet exactContract) (carefulCycle es n p) := by
  have hstart := (h.trans _ (reaches_carefulEnvs es p)).trans _ (Pool.reaches_attempt _ _ (.start "a" .cycle))
  exact hstart.trans _ (Pool.reaches_drive _)

theorem pending_at_or_ahead_fourth :
    ((fourthPass.procs "a").focus [0]).any (fun x => starts "s" x.1) = true ∧
      (fourthPass.world.mem "a").pending "s" = some "3" ∧
      heldRow "a" "s" fourthPass.world = some ⟨"s", some "a", 2, false, some "2", []⟩ ∧
      position (fourthPass.world.stream.log "s") (some "2") ≤ position (fourthPass.world.stream.log "s") (some "3") := by
  obtain ⟨hstart, hpending, hheld⟩ : ((fourthPass.procs "a").focus [0]).any (fun x => starts "s" x.1) = true ∧
      (fourthPass.world.mem "a").pending "s" = some "3" ∧
      heldRow "a" "s" fourthPass.world = some ⟨"s", some "a", 2, false, some "2", []⟩ := by decide +kernel
  have hreach : (Pool.idle deferringFleet.init).Reaches (carefulMachine deferringFleet exactContract) fourthPass :=
    reaches_carefulCycle (reaches_carefulCycle (reaches_carefulCycle (reaches_carefulCycle ⟨[], rfl⟩)))
  have hahead := (pending_at_or_ahead exactContract_forward rfl hreach "a" "s").2
  exact ⟨hstart, hpending, hheld, ahead_of_starts hstart hahead "3" hpending _ hheld⟩

/-- `a` keeps the ack of `1` in memory when its lease expires; `b` takes the shard, writes `2` and gives it back, and `a`
takes it again in step 1 of its next cycle. -/
def retaken : FleetPool :=
  let D := deferringFleet
  let K := exactContract
  let held := D.perform K ackFirst "a" .cycle 60 (D.envs K twoRecords (Pool.idle D.init))
  let expired := D.envs K [.advance 31000] (D.perform K World.serve "b" .cycle 60 held)
  let returned := D.perform K World.serve "b" .releaseOwned 60 (D.perform K World.serve "b" .cycle 60 expired)
  D.perform K World.serve "a" .cycle 23 returned

theorem pending_behind_after_retake : ¬ ∀ (D : Deployment) (K : Contract), K.Forward → D.source = contractSource →
    ∀ (p : FleetPool), D.Reachable K p → ∀ w k π x, (p.procs w).focus π = some x → Ahead w k x.1 p.world := by
  intro hall
  obtain ⟨⟨hstart, hpending, hheld⟩, hbehind⟩ : (((retaken.procs "a").focus [0]).any (fun x => starts "s" x.1) = true ∧
      (retaken.world.mem "a").pending "s" = some "1" ∧
      heldRow "a" "s" retaken.world = some ⟨"s", some "a", 5, false, some "2", []⟩) ∧
      ¬ position (retaken.world.stream.log "s") (some "2") ≤ position (retaken.world.stream.log "s") (some "1") := by
    decide +kernel
  have hreach : deferringFleet.Reachable exactContract retaken := by
    unfold retaken
    refine Deployment.reachable_perform (Deployment.reachable_perform (Deployment.reachable_perform ?_))
    refine Deployment.reachable_envs (Deployment.reachable_perform (Deployment.reachable_perform ?_))
    exact Deployment.reachable_envs (Deployment.reachable_idle _ _)
  have hahead := hall deferringFleet exactContract exactContract_forward rfl retaken hreach "a" "s"
  exact hbehind (ahead_of_starts hstart hahead "1" hpending _ hheld)

end StreamsConsumer.PendingAck
