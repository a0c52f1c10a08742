import StreamsConsumer.Worker.Passes
import StreamsConsumer.Worker.Window

/-!
# One shard's part of a cycle

Step 2 of a cycle re-reads the rows and passes over all shards of the worker,
side by side or through the bounded pool. One shard sees a `shardCycle` or a
`deferredCycle` of it: the requests of the other passes are to the shard what
the rest of the world is.
-/

namespace StreamsConsumer
open Conc

/-! ## What goes on beside a pass -/

/-- What the other passes of a worker and the rest of the world leave alone, while time passes. -/
structure Elapsed (w : Worker) (k : ShardId) (s t : Site) : Prop where
  apart : Apart w k s t
  deferral : (t.mem w).deferral k = (s.mem w).deferral k
  clock : s.world.clock ≤ t.world.clock

/-- The rest of the world leaves the whole memory of the worker alone. -/
structure Outside (w : Worker) (k : ShardId) (s t : Site) : Prop where
  row : t.row k = s.row k
  calls : t.calls k = s.calls k
  mishaps : t.mishaps k = s.mishaps k
  mem : t.mem w = s.mem w
  clock : s.world.clock ≤ t.world.clock

section
variable {P : ShardId → Partner} {w : Worker} {k : ShardId} {s t u : Site}

theorem Elapsed.refl (s : Site) : Elapsed w k s s := ⟨.refl w k s, rfl, le_refl _⟩

theorem Elapsed.trans (h₁ : Elapsed w k s t) (h₂ : Elapsed w k t u) : Elapsed w k s u :=
  ⟨h₁.apart.trans h₂.apart, h₂.deferral.trans h₁.deferral, h₁.clock.trans h₂.clock⟩

theorem Elapsed.of_deferral (hrow : t.row k = s.row k) (hcalls : t.calls k = s.calls k)
    (hmishaps : t.mishaps k = s.mishaps k) (hclock : t.world.clock = s.world.clock)
    (h : (t.mem w).deferral k = (s.mem w).deferral k) : Elapsed w k s t :=
  ⟨⟨hrow, hcalls, hmishaps, (Memory.pending_of_deferral h).1, (Memory.pending_of_deferral h).2⟩, h, hclock.ge⟩

theorem Elapsed.setMem {m : Memory} (h : m.deferral k = (s.mem w).deferral k) : Elapsed w k s (s.setMem w m) :=
  .of_deferral rfl rfl rfl rfl (by simpa using h)

theorem Outside.elapsed (h : Outside w k s t) : Elapsed w k s t := by
  refine ⟨⟨h.row, h.calls, h.mishaps, ?_, ?_⟩, ?_, h.clock⟩ <;> rw [h.mem]

theorem Outside.refl (s : Site) : Outside w k s s := ⟨rfl, rfl, rfl, rfl, le_refl _⟩

theorem Outside.trans (h₁ : Outside w k s t) (h₂ : Outside w k t u) : Outside w k s u :=
  ⟨h₂.row.trans h₁.row, h₂.calls.trans h₁.calls, h₂.mishaps.trans h₁.mishaps, h₂.mem.trans h₁.mem,
    h₁.clock.trans h₂.clock⟩

theorem Elapsed.asked {j : ShardId} {c : Call} (h : j ≠ k) : Elapsed w k s (s.asked j c) :=
  .of_deferral rfl (Function.update_of_ne h.symm _ _) rfl rfl rfl

theorem elapsed_sibling {r : Req} (hr : Sibling k r) {c : Choice} {a : Resp r} (h : siteExec P w r c s = some (a, t)) :
    Elapsed w k s t := by
  cases r <;> simp only [Sibling] at hr
  case db key op =>
    obtain ⟨⟨a', u⟩, hdb, hx⟩ := Option.map_eq_some_iff.mp h
    cases hx
    have hu : u.table k = s.world.table k ∧ u.mem = s.world.mem ∧ u.clock = s.world.clock := by
      rcases execDb_cases hdb with ⟨rfl, _⟩ | ⟨row, _, rfl⟩
      · exact ⟨rfl, rfl, rfl⟩
      · simp [World.write, hr.symm]
    have hmem : (u.mem w).deferral k = (s.mem w).deferral k := by rw [hu.2.1]; rfl
    cases a' with
    | ok n => exact .of_deferral hu.1 rfl rfl hu.2.2 hmem
    | error e => exact .of_deferral hu.1 rfl (by simp [Site.wrote, hr.symm]) hu.2.2 hmem
  case mem f =>
    cases h
    exact .setMem (hr _).1
  case createConsumer shard =>
    cases h
    exact .asked hr
  case getRecords shard after =>
    cases h
    exact .asked hr
  case deliver shard records =>
    cases h
    exact .asked hr
  case shardEnded shard =>
    cases h
    exact .asked hr
  case leaseLost shard =>
    cases h
    exact .asked hr
  case now =>
    cases h
    exact .refl _
  case sleep ms =>
    cases h
    exact .refl _
  case metric m =>
    cases h
    exact .refl _

theorem mem_siteExec {r : Req} {c : Choice} {a : Resp r} (h : siteExec P w r c s = some (a, t)) :
    t.mem w = s.mem w ∨ ∃ (β : Type) (f : Memory → β × Memory), r = .mem f ∧ t.mem w = (f (s.mem w)).2 := by
  have hrest : ∀ x, (exec exactContract w r c s.world).map (fun x => (x.1, { s with world := x.2 })) = some x →
      x.2.mem w = s.mem w ∨ ∃ (β : Type) (f : Memory → β × Memory), r = .mem f ∧ x.2.mem w = (f (s.mem w)).2 := by
    intro x hx
    obtain ⟨y, hy, rfl⟩ := Option.map_eq_some_iff.mp hx
    exact mem_exec hy
  cases r
  case scan =>
    obtain ⟨⟨a', u⟩, hscan, hx⟩ := Option.map_eq_some_iff.mp h
    cases hx
    cases a' <;> exact Or.inl rfl
  case db key op =>
    obtain ⟨⟨a', u⟩, hdb, hx⟩ := Option.map_eq_some_iff.mp h
    cases hx
    have hmem : u.mem w = s.mem w := by
      rcases execDb_cases hdb with ⟨rfl, _⟩ | ⟨row, _, rfl⟩ <;> rfl
    cases a' <;> exact Or.inl hmem
  case createConsumer shard => cases h; exact Or.inl rfl
  case getRecords shard after => cases h; exact Or.inl rfl
  case deliver shard records => cases h; exact Or.inl rfl
  case shardEnded shard => cases h; exact Or.inl rfl
  case leaseLost shard => cases h; exact Or.inl rfl
  all_goals exact hrest _ h

def sharing (w : Worker) (k : ShardId) : Duty Req Site := ⟨fun _ => True, Elapsed w k, fun _ _ => True, fun _ => True⟩

theorem company_site : Company (siteHandler P) w k (sharing w k) (Outside w k) (fun s => (s.mem w).pool) where
  refl := Elapsed.refl
  trans _ _ _ := Elapsed.trans
  keeps _ _ _ _ _ h := h
  others h := ⟨h.elapsed, by rw [h.mem]⟩
  asks _ := trivial
  sibling hr _ he := elapsed_sibling hr he
  stays hr he := by
    rcases mem_siteExec he with hm | ⟨β, f, rfl, hm⟩
    · rw [hm]
    · rw [hm]
      exact hr _
  asksPop _ := trivial
  pop he := by
    cases he
    exact ⟨rfl, by simp [Site.mem, World.setMem], .setMem rfl⟩

end

/-! ## The whole of step 2 -/

/-- Step 2 as one shard sees it: with a pass if the shard is there for the worker, or without. -/
def shardPart (F : Fleet) (k : ShardId) : Bool → Fx (Except WorkerError (Option PassOutcome))
  | true => shardCycle F k
  | false => deferredCycle F

def passPart (F : Fleet) (k : ShardId) (rows : List Lease) : Bool → Fx (Except WorkerError (Option PassOutcome))
  | true =>
    match (eligibleOwned rows F.config.owner).find? fun item => item.1 = k with
    | none => .ret (.ok none)
    | some item => (runPass F item).bind fun outcome => .ret (.ok (some outcome))
  | false => .ret (.ok none)

def prunePart (F : Fleet) (k : ShardId) (rows : List Lease) (i : Bool) : Fx (Except WorkerError (Option PassOutcome)) :=
  let owned := (ownedRows rows F.config.owner).map Lease.leaseKey
  (updateMem fun m => { m with ckptDefer := m.ckptDefer.map fun d => d.retain owned }).bind fun _ => passPart F k rows i

theorem shardPart_eq (F : Fleet) (k : ShardId) (i : Bool) : shardPart F k i =
    attempt F.leases.list fun rows => prunePart F k (rows.filter fun r => isShardKey r.leaseKey) i := by
  cases i <;> rfl

/-- Step 2 after the scan. -/
def processRows (F : Fleet) (rows : List Lease) : Fx (Except WorkerError Bool) := do
  let owned := (ownedRows rows F.config.owner).map Lease.leaseKey
  metric (.leasesHeld owned.length)
  updateMem fun m => { m with ckptDefer := m.ckptDefer.map fun d => d.retain owned }
  match ← accessMem fun m => (m.poolMax, m) with
  | none => pure ()
  | some n => metric (.maxProcessingConcurrency n)
  if allComplete rows then return .ok true
  else
    processOwned F rows
    return .ok false

theorem rereadAndProcess_eq (F : Fleet) : rereadAndProcess F =
    attempt F.leases.list fun rows => processRows F (rows.filter fun r => isShardKey r.leaseKey) := rfl

abbrev Sees (P : ShardId → Partner) (w : Worker) (k : ShardId) {α : Type} (p : Fx α) (s : Site) (q : Fx α) (t : Site) :
    Prop :=
  Runs (siteHandler P) (Elapsed w k) w p s q t

abbrev Among (P : ShardId → Partner) (w : Worker) (k : ShardId) {α : Type} (p : Fx α) (Q : α → Site → Prop) (s : Site) :
    Prop :=
  joint (siteHandler P) w { sharing w k with others := Outside w k } p Q s

/-- The shard is about to see its pass over `rows`, and the pool has the bound it had at first. -/
structure Poised (P : ShardId → Partner) (cfg : FleetConfig) (k : ShardId) (s₀ : Site) (rows : List Lease) (s : Site) :
    Prop where
  sees : ∀ i, Sees P cfg.owner k (shardPart (contractFleet cfg) k i) s₀ (passPart (contractFleet cfg) k rows i) s
  poolMax : (s.mem cfg.owner).poolMax = (s₀.mem cfg.owner).poolMax

/-- The shard has seen all of its part. Only a bounded pool leaves out the pass. -/
def Through (P : ShardId → Partner) (cfg : FleetConfig) (k : ShardId) (s₀ s : Site) : Prop :=
  ∃ i a, (i = true ∨ (s₀.mem cfg.owner).poolMax ≠ none) ∧
    Sees P cfg.owner k (shardPart (contractFleet cfg) k i) s₀ (.ret a) s

section
variable {P : ShardId → Partner} {w : Worker} {cfg : FleetConfig} {k : ShardId} {s₀ s t : Site} {rows : List Lease}

theorem Sees.elapsed {α : Type} {p q : Fx α} (h : Sees P w k p s₀ q s) (he : Elapsed w k s t) : Sees P w k p s₀ q t :=
  h.trans (.other he (.refl _ _))

theorem among_req {r : Req} {Q : Resp r → Site → Prop} (h : ∀ s₁, Outside w k s s₁ → ∀ c a t,
    siteExec P w r c s₁ = some (a, t) → Q a t) : Among P w k (Prog.req r) Q s :=
  fun s₁ _ h₁ _ => ⟨trivial, fun c a t he _ => ⟨trivial, h s₁ h₁ c a t he⟩⟩

theorem among_mem {β : Type} {f : Memory → β × Memory} {Q : β → Site → Prop} (h : ∀ s₁, Outside w k s s₁ →
    Q (f (s₁.mem w)).1 (s₁.setMem w (f (s₁.mem w)).2)) : Among P w k (accessMem f) Q s := by
  refine among_req ?_
  intro s₁ h₁ c a t he
  cases he
  exact h s₁ h₁

theorem Poised.outside (h : Poised P cfg k s₀ rows s) (ho : Outside cfg.owner k s t) : Poised P cfg k s₀ rows t :=
  ⟨fun i => (h.sees i).elapsed ho.elapsed, by rw [ho.mem]; exact h.poolMax⟩

theorem Poised.setMem (h : Poised P cfg k s₀ rows s) {m : Memory} (hd : m.deferral k = (s.mem cfg.owner).deferral k)
    (hp : m.poolMax = (s.mem cfg.owner).poolMax) : Poised P cfg k s₀ rows (s.setMem cfg.owner m) :=
  ⟨fun i => (h.sees i).elapsed (.setMem hd), by rw [Site.mem_setMem, hp]; exact h.poolMax⟩

theorem stable_through : (sharing cfg.owner k).Stable (Through P cfg k s₀) := by
  intro s t _ he _ hx
  obtain ⟨i, a, hi, h⟩ := hx
  exact ⟨i, a, hi, h.elapsed he⟩

theorem among_through {α : Type} {p : Fx α} (hp : Asks (Sibling k) p) (h : Through P cfg k s₀ s) :
    Among P cfg.owner k p (fun _ => Through P cfg k s₀) s :=
  joint_others (fun _ _ h => Outside.elapsed h) p (company_site.joint_sibling stable_through (fun _ _ => trivial) hp h)

theorem passPart_some (hnodup : (rows.map Lease.leaseKey).Nodup) {it : ShardId × Nat × Option SequenceNumber}
    (hit : it ∈ eligibleOwned rows cfg.owner) (hk : it.1 = k) : passPart (contractFleet cfg) k rows true =
      (runPass (contractFleet cfg) it).bind fun outcome => .ret (.ok (some outcome)) := by
  subst hk
  have hfind := find?_of_nodup (nodup_eligibleOwned hnodup) hit
  simp [passPart, contractFleet, hfind]

theorem passPart_none (hnone : ∀ it ∈ eligibleOwned rows cfg.owner, it.1 ≠ k) (i : Bool) :
    passPart (contractFleet cfg) k rows i = .ret (.ok none) := by
  have hfind : (eligibleOwned rows cfg.owner).find? (fun it => it.1 = k) = none := by simpa using hnone
  cases i <;> simp [passPart, contractFleet, hfind]

theorem joint_pass (hnodup : (rows.map Lease.leaseKey).Nodup) {it : ShardId × Nat × Option SequenceNumber}
    (hit : it ∈ eligibleOwned rows cfg.owner) (hk : it.1 = k)
    (h : Sees P cfg.owner k (shardCycle (contractFleet cfg) k) s₀ (passPart (contractFleet cfg) k rows true) s) :
    joint (siteHandler P) cfg.owner (sharing cfg.owner k) (runPass (contractFleet cfg) it)
      (fun _ => Through P cfg k s₀) s := by
  rw [passPart_some hnodup hit hk] at h
  refine joint_mono _ ?_ (joint_of_runs (fun _ _ => trivial) (fun _ => trivial) (.refl _ s))
  intro o t hrun
  exact ⟨true, _, Or.inl rfl, h.trans (hrun.seq (.refl _ _))⟩

theorem among_join (hnodup : (rows.map Lease.leaseKey).Nodup) (h : Poised P cfg k s₀ rows s) : Among P cfg.owner k
    (Prog.join ((eligibleOwned rows cfg.owner).map (runPass (contractFleet cfg)))) (fun _ => Through P cfg k s₀) s := by
  refine company_site.joint_passes stable_through (fun _ _ => trivial) rfl rfl (nodup_eligibleOwned hnodup) trivial ?_ ?_
  · exact fun it hit hk => joint_pass hnodup hit hk (h.sees true)
  · intro hnone
    have hsees := h.sees true
    rw [passPart_none hnone] at hsees
    exact ⟨true, _, Or.inl rfl, hsees⟩

theorem sibling_settleOutcomes (F : Fleet) : Asks (Sibling k) (settleOutcomes F) :=
  asks_bind (asks_req trivial) fun _ => asks_req fun _ => ⟨rfl, rfl⟩

theorem sibling_awaitDue (F : Fleet) : Asks (Sibling k) (awaitDue F) := by
  refine asks_bind (p := metric _) (asks_req trivial) ?_
  intro _
  refine asks_bind (asks_req fun _ => ⟨rfl, rfl⟩) ?_
  intro next
  cases next with
  | none => trivial
  | some next => exact asks_bind (p := now) (asks_req trivial) fun _ => asks_req trivial

theorem Poised.through (h : Poised P cfg k s₀ rows s) (hb : (s₀.mem cfg.owner).poolMax ≠ none) : Through P cfg k s₀ s :=
  ⟨false, _, Or.inr hb, h.sees false⟩

theorem among_runQueue (hb : (s₀.mem cfg.owner).poolMax ≠ none) (hnodup : (rows.map Lease.leaseKey).Nodup)
    (h : Poised P cfg k s₀ rows s) {l : List (ShardId × Nat × Option SequenceNumber)}
    (hl : l.Sublist (eligibleOwned rows cfg.owner)) (n t : Nat) :
    Among P cfg.owner k (runQueue (contractFleet cfg) n (l.map (dueItem t))) (fun _ => Through P cfg k s₀) s := by
  have hids : (l.map (dueItem t)).map PoolItem.shard = l.map Prod.fst := by
    rw [List.map_map]
    rfl
  refine joint_seq trivial (P := fun _ => Poised P cfg k s₀ rows) (among_req (r := .metric _) ?_) ?_
  · intro s₁ h₁ c a u he
    cases he
    exact h.outside h₁
  intro _ s₁ _ h₁
  refine joint_seq trivial (P := fun _ => Queued (fun s => (s.mem cfg.owner).pool) k (Through P cfg k s₀) fun it s =>
    Sees P cfg.owner k (shardCycle (contractFleet cfg) k) s₀ (passPart (contractFleet cfg) k rows true) s ∧
      (it.shard, it.counter, it.checkpoint) ∈ eligibleOwned rows cfg.owner) (among_mem ?_) ?_
  · intro s₂ h₂
    have hpoised : Poised P cfg k s₀ rows
        (s₂.setMem cfg.owner { s₂.mem cfg.owner with pool := l.map (dueItem t), outcomes := [] }) :=
      (h₁.outside h₂).setMem rfl rfl
    refine ⟨hpoised.through hb, ?_, ?_⟩
    · simp only [Site.mem_setMem, hids]
      exact (nodup_eligibleOwned hnodup).sublist (hl.map _)
    · intro it hit _
      simp only [Site.mem_setMem] at hit
      obtain ⟨x, hx, rfl⟩ := List.mem_map.mp hit
      exact ⟨hpoised.sees true, hl.subset hx⟩
  intro _ s₂ _ h₂
  refine joint_seq trivial (P := fun _ => Through P cfg k s₀) (company_site.joint_pool stable_through rfl rfl ?_
    (fun _ _ => trivial) ?_ h₂) ?_
  · exact fun it s t _ he _ h => ⟨h.1.elapsed he, h.2⟩
  · exact fun it s hk _ _ h => joint_pass hnodup h.2 hk h.1
  intro _ s₃ _ h₃
  exact among_through (sibling_settleOutcomes _) h₃

theorem among_runBoundedPool (hb : (s₀.mem cfg.owner).poolMax ≠ none) (hnodup : (rows.map Lease.leaseKey).Nodup)
    (h : Poised P cfg k s₀ rows s) (n t : Nat) : Among P cfg.owner k
      (runBoundedPool (contractFleet cfg) (eligibleOwned rows cfg.owner) n t) (fun _ => Through P cfg k s₀) s := by
  rw [runBoundedPool_eq]
  refine joint_seq trivial (P := fun due s' => Poised P cfg k s₀ rows s' ∧
    ∃ l : List (ShardId × Nat × Option SequenceNumber), l.Sublist (eligibleOwned rows cfg.owner) ∧
      due = l.map (dueItem t)) (among_mem ?_) ?_
  · exact fun s₁ h₁ => ⟨(h.outside h₁).setMem rfl rfl, refreshSched_sublist _ _ _⟩
  intro due s₁ _ hx
  obtain ⟨h₁, l, hl, rfl⟩ := hx
  split
  · exact among_through (sibling_awaitDue _) (h₁.through hb)
  · exact among_runQueue hb hnodup h₁ hl n t

theorem among_processOwned (hnodup : (rows.map Lease.leaseKey).Nodup) (h : Poised P cfg k s₀ rows s) :
    Among P cfg.owner k (processOwned (contractFleet cfg) rows) (fun _ => Through P cfg k s₀) s := by
  unfold processOwned
  refine joint_seq trivial (P := fun _ => Poised P cfg k s₀ rows) (among_req (r := .now) ?_) ?_
  · intro s₁ h₁ c a u he
    cases he
    exact h.outside h₁
  intro t s₁ _ h₁
  refine joint_seq trivial (P := fun n s' => Poised P cfg k s₀ rows s' ∧ n = (s₀.mem cfg.owner).poolMax)
    (among_mem fun s₂ h₂ => ⟨(h₁.outside h₂).setMem rfl rfl, (h₁.outside h₂).poolMax⟩) ?_
  intro n s₂ _ hx
  obtain ⟨h₂, hn⟩ := hx
  cases n with
  | none => exact joint_seq trivial (among_join hnodup h₂) fun _ _ _ h₃ => h₃
  | some n => exact among_runBoundedPool (by rw [← hn]; exact nofun) hnodup h₂ _ t

theorem among_list : Among P w k dynamoDbLeaseStore.list (fun x s' => Sees P w k dynamoDbLeaseStore.list s (.ret x) s' ∧
    (s'.mem w).poolMax = (s.mem w).poolMax ∧ ∀ rows, x = .ok rows → (rows.map Lease.leaseKey).Nodup) s := by
  refine joint_bind _ _ (among_req ?_)
  intro s₁ h₁ c a t he
  refine ⟨.other h₁.elapsed (.call (π := []) rfl he (.refl _ _)), ?_, ?_⟩
  · rcases mem_siteExec he with hm | ⟨β, f, hf, _⟩
    · rw [hm, h₁.mem]
    · cases hf
  · intro rows e
    obtain rfl := mapError_eq_ok e
    obtain ⟨⟨a', u⟩, hscan, hx⟩ := Option.map_eq_some_iff.mp he
    cases hx
    exact ((execScan_eq hscan).2 rows rfl).2

theorem Sees.mem {α β : Type} {p : Fx α} {f : Memory → β × Memory} {g : β → Fx α}
    (h : Sees P w k p s₀ ((accessMem f).bind g) s) : Sees P w k p s₀ (g (f (s.mem w)).1) (s.setMem w (f (s.mem w)).2) := by
  have hf : ((accessMem f).bind g).focus [] = some ⟨.mem f, g⟩ := rfl
  have he : (siteHandler P).exec w (.mem f) .ok s = some ((f (s.mem w)).1, s.setMem w (f (s.mem w)).2) := rfl
  exact h.trans (.call hf he (.refl _ _))

theorem among_processRows (hnodup : (rows.map Lease.leaseKey).Nodup)
    (hpart : ∀ i, Sees P cfg.owner k (shardPart (contractFleet cfg) k i) s₀ (prunePart (contractFleet cfg) k rows i) s)
    (hpool : (s.mem cfg.owner).poolMax = (s₀.mem cfg.owner).poolMax) :
    Among P cfg.owner k (processRows (contractFleet cfg) rows) (fun _ => Through P cfg k s₀) s := by
  have hrest : ∀ t, Poised P cfg k s₀ rows t → Among P cfg.owner k
      (if allComplete rows then (.ret (.ok true) : Fx (Except WorkerError Bool))
        else (processOwned (contractFleet cfg) rows).bind fun _ => .ret (.ok false)) (fun _ => Through P cfg k s₀) t := by
    intro t ht
    split
    · rename_i hall
      have hsees := ht.sees true
      rw [passPart_none (by simp [eligibleOwned_allComplete hall])] at hsees
      exact ⟨true, _, Or.inl rfl, hsees⟩
    · exact joint_seq trivial (among_processOwned hnodup ht) fun _ _ _ h => h
  refine joint_seq trivial (P := fun _ t =>
      Elapsed cfg.owner k s t ∧ (t.mem cfg.owner).poolMax = (s₀.mem cfg.owner).poolMax) (among_req (r := .metric _) ?_) ?_
  · intro s₁ h₁ c a u he
    cases he
    exact ⟨h₁.elapsed, by rw [← hpool, ← h₁.mem]⟩
  intro _ s₁ _ hx
  obtain ⟨h₁, hpool₁⟩ := hx
  refine joint_seq trivial (P := fun _ => Poised P cfg k s₀ rows) (among_mem ?_) ?_
  · intro s₂ h₂
    refine ⟨fun i => ((hpart i).elapsed (h₁.trans h₂.elapsed)).mem, ?_⟩
    rw [Site.mem_setMem, ← hpool₁, ← h₂.mem]
  intro _ s₂ _ h₂
  refine joint_seq trivial (P := fun _ => Poised P cfg k s₀ rows)
    (among_mem fun s₃ h₃ => (h₂.outside h₃).setMem rfl rfl) ?_
  intro n s₃ _ h₃
  cases n with
  | none => exact hrest s₃ h₃
  | some n =>
    refine joint_seq trivial (P := fun _ => Poised P cfg k s₀ rows) (among_req (r := .metric _) ?_) fun _ s₄ _ => hrest s₄
    intro s₄ h₄ c a u he
    cases he
    exact h₃.outside h₄

theorem among_rereadAndProcess :
    Among P cfg.owner k (rereadAndProcess (contractFleet cfg)) (fun _ => Through P cfg k s) s := by
  rw [rereadAndProcess_eq]
  refine joint_seq trivial among_list ?_
  intro x s₁ _ hx
  obtain ⟨hlist, hpool, hnodup⟩ := hx
  cases x with
  | error e =>
    refine ⟨true, .error e, Or.inl rfl, ?_⟩
    rw [shardPart_eq]
    exact hlist.seq (.refl _ _)
  | ok rows =>
    refine among_processRows ((hnodup rows rfl).sublist (List.filter_sublist.map _)) (fun i => ?_) hpool
    rw [shardPart_eq]
    exact hlist.seq (.refl _ _)

theorem through_of_rereadAndProcess {r : Except WorkerError Bool} (h : Runs (siteHandler P) (Outside cfg.owner k) cfg.owner
    (rereadAndProcess (contractFleet cfg)) s (.ret r) t) : Through P cfg k s t :=
  Runs.joint (D := { sharing cfg.owner k with others := Outside cfg.owner k }) Outside.refl (fun _ _ _ => Outside.trans)
    (fun _ => trivial) (fun _ s t hs ho ht => stable_through s t hs (Outside.elapsed ho) ht) h among_rereadAndProcess

/-- Without a bound on the pool, every step 2 is a `shardCycle` for each shard, whatever the other passes do. -/
theorem shardCycle_of_rereadAndProcess {r : Except WorkerError Bool} (hpool : (s.mem cfg.owner).poolMax = none)
    (h : Runs (siteHandler P) (Outside cfg.owner k) cfg.owner (rereadAndProcess (contractFleet cfg)) s (.ret r) t) :
    ∃ a, Runs (siteHandler P) (Apart cfg.owner k) cfg.owner (shardCycle (contractFleet cfg) k) s (.ret a) t := by
  obtain ⟨i, a, hi, hrun⟩ := through_of_rereadAndProcess h
  obtain rfl : i = true := hi.resolve_right (not_not.mpr hpool)
  exact ⟨a, hrun.others fun _ _ h => h.apart⟩

/-! ## With the times of the acks -/

theorem observe_site (d : Dated) (r : Req) (a : Resp r) (s : Site) : (d.observe w k r a s).site = s := by
  cases r <;> simp only [Dated.observe]
  case deliver shard records =>
    split
    · cases a <;> rfl
    · rfl
  case now => split <;> rfl

theorem dated_of_sees {α : Type} {p q : Fx α} (h : Sees P w k p s q t) : ∀ {d : Dated}, d.site = s →
    ∃ d', d'.site = t ∧ Runs (datedHandler P k) (Meanwhile w k) w p d q d' := by
  induction h with
  | refl => exact fun hd => ⟨_, hd, .refl _ _⟩
  | @call p q s s' t π x c a hf he h ih =>
    intro d hd
    have he' : (datedHandler P k).exec w x.1 c d = some (a, d.observe w k x.1 a s') := by
      change (siteExec P w x.1 c d.site).map _ = _
      rw [hd, show siteExec P w x.1 c s = some (a, s') from he]
      rfl
    obtain ⟨d', hd', hrun⟩ := ih (observe_site d x.1 a s')
    exact ⟨d', hd', .call hf he' hrun⟩
  | silent hs _ ih =>
    intro d hd
    obtain ⟨d', hd', hrun⟩ := ih hd
    exact ⟨d', hd', .silent hs hrun⟩
  | @other p q s s' t hi h ih =>
    rintro d rfl
    obtain ⟨d', hd', hrun⟩ := ih (d := { d with site := s' }) rfl
    have hm : Meanwhile w k d { d with site := s' } := ⟨hi.apart, hi.deferral, hi.clock, rfl, rfl, rfl⟩
    exact ⟨d', hd', .other hm hrun⟩

/-- Bounded or not, every step 2 is a `Cycle` for each shard that the worker owns. -/
theorem cycle_of_rereadAndProcess {d : Dated} {r : Except WorkerError Bool} (h : Runs (siteHandler P)
    (Outside cfg.owner k) cfg.owner (rereadAndProcess (contractFleet cfg)) d.site (.ret r) t) :
    ∃ d', d'.site = t ∧ Cycle P cfg k d d' := by
  obtain ⟨i, a, _, hrun⟩ := through_of_rereadAndProcess h
  obtain ⟨d', hd', hrun⟩ := dated_of_sees hrun rfl
  refine ⟨d', hd', _, ?_, a, hrun⟩
  cases i <;> simp [shardPart]

end

end StreamsConsumer
