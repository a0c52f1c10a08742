import StreamsConsumer.Worker.ShardSync

/-!
# The start mode of reshard children

A fleet that starts at LATEST must not let a child start there when its parents
have made progress. The checkpoint of a completed row is LATEST only if the
shard was completed without a checkpointed record; which rows the shard sync
looks at, and when it looks at them, decides the rest.
-/

namespace StreamsConsumer
open Conc

def EndedAtLatest (tr : List Event) (k : ShardId) : Prop :=
  ∃ w o c r, Event.wrote w k (.markComplete o c) (some r) ∈ tr ∧ r.checkpoint = some SENTINEL_LATEST

theorem EndedAtLatest.mono {tr tr' : List Event} {k : ShardId} (h : tr <:+ tr') (he : EndedAtLatest tr k) :
    EndedAtLatest tr' k := by
  obtain ⟨w, o, c, r, hm, hr⟩ := he
  exact ⟨w, o, c, r, h.mem hm, hr⟩

structure ModeInv (s : World) : Prop where
  sane : Sane s
  pending : ∀ w k q, (s.mem w).pending k = some q → q ≠ SENTINEL_LATEST
  rows : ∀ r ∈ s.history, r.completed = true → r.checkpoint = some SENTINEL_LATEST → EndedAtLatest s.trace r.leaseKey

def modeRely : Rely World := ⟨ModeInv, Extends, Extends.refl, Extends.trans⟩

namespace ModeInv

theorem record {s : World} {e : Event} (hi : ModeInv s) (ht : ∀ k, e ≠ .trimmed k) : ModeInv (s.record e) where
  sane := hi.sane.record ht
  pending := hi.pending
  rows r hr hc hl := (hi.rows r hr hc hl).mono (Extends.record s e).trace

theorem setMem {s : World} {w : Worker} {m : Memory} (hi : ModeInv s)
    (hm : ∀ k q, m.pending k = some q → q ≠ SENTINEL_LATEST) : ModeInv (s.setMem w m) where
  sane := hi.sane.setMem w m
  pending := World.forall_setMem (Q := fun _ m => ∀ k q, m.pending k = some q → q ≠ SENTINEL_LATEST) hi.pending hm
  rows := hi.rows

theorem env {e : Env} {s s' : World} (hi : ModeInv s) (h : envStep e s = some s') : ModeInv s' := by
  obtain ⟨_, hh, hm, _⟩ := envStep_frame h
  refine ⟨hi.sane.env h, hm ▸ hi.pending, ?_⟩
  intro r hr hc hl
  rw [hh] at hr
  exact (hi.rows r hr hc hl).mono (Extends.env h).trace

theorem init (D : Deployment) : ModeInv D.init where
  sane := Sane.init D
  pending w k q hq := by
    rw [show D.init.mem w = Memory.init (D.config w) from rfl, Protocol.pending_init] at hq
    cases hq
  rows r hr := by cases hr

end ModeInv

/-- A checkpoint is never the sentinel, so a completed row keeps the start mode it was completed with. -/
theorem keeps_mode {w : Worker} {key : ShardId} {op : DbOp} {s : World}
    (hq : ∀ o c q, op = .checkpoint o c q → q ≠ SENTINEL_LATEST) : Keeps modeRely w key op s := by
  intro s₁ _ i₁ row ha
  have hx := Extends.write s₁ w key op row
  refine ⟨⟨i₁.sane.write ha, i₁.pending, ?_⟩, hx⟩
  intro r' hr' hc hl
  rcases World.mem_write_history hr' with rfl | hr'
  · have hkey : r'.leaseKey = key := DbOp.apply_key ha fun r₀ h₀ => (i₁.sane.held key r₀ h₀).2
    rw [hkey]
    obtain ⟨horig, hcomp⟩ := DbOp.apply_origin ha
    rcases hcomp hc with ⟨r, hr, hrc⟩ | ⟨o, c, rfl⟩
    · obtain ⟨hmem, hk⟩ := i₁.sane.held key r hr
      rcases horig with h | ⟨r₁, hr₁, h⟩ | ⟨o, c, q, rfl, h⟩ | ⟨ps, cp, rfl, _⟩
      · rw [h] at hl
        cases hl
      · obtain rfl : r = r₁ := by
          rw [hr] at hr₁
          cases hr₁
          rfl
        have hend := i₁.rows r hmem hrc (h ▸ hl)
        rw [hk] at hend
        exact hend.mono hx.trace
      · rw [h] at hl
        cases hl
        exact absurd rfl (hq o c _ rfl)
      · rw [hr] at ha
        cases ha
    · exact ⟨w, o, c, r', List.mem_cons_self .., hl⟩
  · exact (i₁.rows r' hr' hc hl).mono hx.trace

variable {D : Deployment} {K : Contract}

def modeGround (D : Deployment) (K : Contract) : Ground D K where
  L := modeRely
  Row _ _ := True
  Item _ _ _ := True
  row_up _ _ _ _ _ h := h
  item_up _ _ _ _ _ _ h := h
  env _ _ _ hi h := ⟨hi.env h, Extends.env h⟩
  history _ _ _ _ := trivial
  item _ _ _ _ _ _ _ _ := trivial
  pool _ _ _ _ _ := trivial
  mem s w m hi hp _ _ := ⟨hi.setMem fun k q h => hi.pending w k q (hp k q h), Extends.setMem s w m⟩
  leader _ _ _ := ⟨keeps_mode nofun, fun _ => keeps_mode nofun, fun _ => keeps_mode nofun⟩
  heartbeat _ _ _ := keeps_mode nofun
  take _ _ _ _ _ _ _ := ⟨keeps_mode nofun, fun _ => keeps_mode nofun⟩
  delete _ _ _ _ _ := keeps_mode nofun
  release _ _ _ _ _ _ := keeps_mode nofun
  flush s w r q hi _ _ hq := by
    refine keeps_mode ?_
    intro o c q' e
    cases e
    exact hi.pending w r.leaseKey q hq

def modeOutline (hK : K.AcksBatch) (hsrc : D.source = contractSource) (task : ShardTask) :
    (modeGround D K).Outline task where
  At _ _ _ := True
  Got _ _ b _ := ∀ r ∈ b.records, r.seq ≠ SENTINEL_LATEST
  Acked _ _ _ q _ := q ≠ SENTINEL_LATEST
  Done _ _ _ _ := True
  at_up _ _ _ _ _ _ h := h
  acked_up _ _ _ _ _ _ _ _ h := h
  done_up _ _ _ _ _ _ _ h := h
  resume _ _ _ _ _ _ := trivial
  read s a c hi _ := by
    rw [hsrc]
    refine wp_contractRead hi ?_ ?_
    · intro s₁ start n shardEnd _ i₁ _ b hb r hr
      cases hb
      exact i₁.sane.real task.shard r (List.mem_of_mem_drop (List.mem_of_mem_take hr))
    · intro s₁ e b hb
      cases hb
  empty _ _ _ _ _ _ _ := trivial
  deliver s a c b _ h _ := by
    refine wp_deliver ?_
    intro s₁ ans _ i₁ hack
    refine ⟨i₁.record nofun, Extends.record s₁ _, ?_, fun _ => trivial⟩
    intro q hq
    obtain ⟨r, hr, rfl⟩ := List.mem_map.mp (hK _ _ (hack q hq))
    exact h r hr
  write s a c b q _ h := by
    refine ⟨keeps_mode ?_, fun _ _ _ _ _ => trivial⟩
    intro o c' q' e
    cases e
    exact h
  defer s a c b q d t _ hi h hd := by
    refine ⟨hi.setMem ?_, Extends.setMem s _ _⟩
    intro k q' hq
    rcases Ground.pending_recordAck hd hq with ⟨rfl, rfl⟩ | hq
    · exact h
    · exact hi.pending task.owner k q' hq
  deferred _ _ _ _ _ _ _ _ := trivial
  next _ _ _ _ _ _ _ _ := trivial
  flush s a c b q _ hi _ _ hq := by
    refine ⟨keeps_mode ?_, fun _ _ _ _ _ => trivial⟩
    intro o c' q' e
    cases e
    exact hi.pending task.owner task.shard q hq
  complete _ _ _ _ _ _ _ := keeps_mode nofun

def modeProtocol (hK : K.AcksBatch) (hsrc : D.source = contractSource) : Protocol D K where
  toGround := modeGround D K
  sync s w rows hi _ := by
    refine (modeGround D K).wp_leaderShardSync ((modeGround D K).describes_of_contract hsrc) hi ⟨?_, ?_, ?_, ?_⟩
    · exact fun _ _ _ _ _ _ => keeps_mode nofun
    · exact fun _ _ s₁ _ i₁ => ⟨i₁.record nofun, Extends.record s₁ _⟩
    · exact fun _ _ _ _ _ _ _ _ => keeps_mode nofun
    · exact fun _ _ _ _ _ _ => keeps_mode nofun
  pass s w it hi _ := (modeGround D K).wp_runPass (modeOutline hK hsrc _) hi trivial

/-! ## Which start mode a child gets -/

def AtLatest (rows : List Lease) (q : ShardId) : Prop :=
  ∃ r ∈ rows, r.leaseKey = q ∧ r.checkpoint = some SENTINEL_LATEST

def DoneAtLatest (rows : List Lease) (q : ShardId) : Prop :=
  ∃ r ∈ rows, r.leaseKey = q ∧ r.completed = true ∧ r.checkpoint = some SENTINEL_LATEST

section
variable {rows : List Lease} (hn : (rows.map Lease.leaseKey).Nodup)

include hn in
theorem find_checkpoint_latest {q : ShardId} :
    (rows.find? fun r => r.leaseKey = q).bind Lease.checkpoint = some SENTINEL_LATEST ↔ AtLatest rows q := by
  constructor
  · intro h
    obtain ⟨r, hr, hl⟩ := Option.bind_eq_some_iff.mp h
    exact ⟨r, List.mem_of_find?_eq_some hr, by simpa using List.find?_some hr, hl⟩
  · intro h
    obtain ⟨r, hr, hk, hl⟩ := h
    cases hf : rows.find? fun r => r.leaseKey = q with
    | none =>
      have := List.find?_eq_none.mp hf r hr
      simp [hk] at this
    | some r' =>
      have hk' : r'.leaseKey = q := by simpa using List.find?_some hf
      obtain rfl := List.inj_on_of_nodup_map hn (List.mem_of_find?_eq_some hf) hr (hk'.trans hk.symm)
      exact hl

include hn in
theorem childCp_eq (parents : List ShardId) :
    childCp rows parents = none ∧ ¬ (parents ≠ [] ∧ ∀ q ∈ parents, AtLatest rows q) ∨
      childCp rows parents = some SENTINEL_LATEST ∧ ∀ q ∈ parents, AtLatest rows q := by
  unfold childCp
  rw [childSeedCheckpoint_eq]
  split
  · rename_i h
    simp only [List.forall_mem_map, find_checkpoint_latest hn] at h
    exact Or.inr ⟨rfl, h.2⟩
  · rename_i h
    simp only [ne_eq, List.map_eq_nil_iff, List.forall_mem_map, find_checkpoint_latest hn] at h
    exact Or.inl ⟨rfl, h⟩

include hn in
theorem doneAtLatest_of_completed {q : ShardId} (hc : q ∈ completedKeys rows) (hl : AtLatest rows q) :
    DoneAtLatest rows q := by
  obtain ⟨r, hr, hcomp, hk⟩ := mem_completedKeys.mp hc
  obtain ⟨r', hr', hk', hl'⟩ := hl
  obtain rfl := List.inj_on_of_nodup_map hn hr hr' (hk.trans hk'.symm)
  exact ⟨r, hr, hk, hcomp, hl'⟩

end

/-- The seed publishes no child of a parent that made progress, and no child whose parents are all at LATEST is
listed before they are all completed. -/
def StartsReady (rows : List Lease) (sync : SyncState) (T : Listings) : Prop :=
  (sync.seeded = false → ∀ ms, T.shards ms → ∀ x ∈ ms,
    publishable (completedKeys rows) (rows.map Lease.leaseKey) x = true → ∀ q ∈ x.parents, AtLatest rows q) ∧
  (sync.seeded = true → ∀ p, discovers rows sync p = true → ∀ cs, T.children p cs → ∀ c ∈ cs,
    c.id ∉ rows.map Lease.leaseKey → (∀ q ∈ c.parents, AtLatest rows q) → ∀ q ∈ c.parents, q ∈ completedKeys rows)

/-- What the row of a child with parents may start from: LATEST only when every parent is completed and was so
without a checkpointed record, else the beginning. -/
def StartsWell (tr : List Event) (rows : List Lease) (ps : List ShardId) (cp : Option SequenceNumber) : Prop :=
  cp = none ∨ cp = some SENTINEL_LATEST ∧ ∀ q ∈ ps, DoneAtLatest rows q ∧ EndedAtLatest tr q

/-- In every state that a fleet started at LATEST reaches, a shard sync on a scan stores LATEST for a shard with
parents only where it may, exactly when its listings meet `StartsReady`. -/
theorem reshard_start_iff (hK : K.AcksBatch) (hsrc : D.source = contractSource) {p : FleetPool}
    (hp : D.Reachable K p) {w : Worker} (hw : (D.config w).initialPosition = .latest) {rows : List Lease}
    (hrows : ∀ r ∈ rows, r ∈ p.world.history) (hn : (rows.map Lease.leaseKey).Nodup) (T : Listings) :
    (∀ k ps cp, ps ≠ [] → Issues (Told T (p.world.mem w)) (leaderShardSync (D.fleet w) rows)
      (.db k (.createShardLease ps cp)) → StartsWell p.world.trace rows ps cp) ↔
      StartsReady rows (p.world.mem w).syncState T := by
  have hi : ModeInv p.world := (modeProtocol hK hsrc).reachable (ModeInv.init D) hp
  have hseed : (D.fleet w).config.initialPosition.seedCheckpoint = some SENTINEL_LATEST := by
    change (D.config w).initialPosition.seedCheckpoint = _
    rw [hw]
    rfl
  -- a row that is completed at LATEST in the scan was so when it was completed
  have hdone : ∀ ps : List ShardId, (∀ q ∈ ps, q ∈ completedKeys rows) → (∀ q ∈ ps, AtLatest rows q) →
      ∀ q ∈ ps, DoneAtLatest rows q ∧ EndedAtLatest p.world.trace q := by
    intro ps hc hl q hq
    have hd := doneAtLatest_of_completed hn (hc q hq) (hl q hq)
    obtain ⟨r, hr, rfl, hcomp, hcp⟩ := hd
    exact ⟨⟨r, hr, rfl, hcomp, hcp⟩, hi.rows r (hrows r hr) hcomp hcp⟩
  constructor
  · intro h
    refine ⟨?_, ?_⟩
    · intro hs ms hl x hx hpub q hq
      have hissue := (issues_leaderShardSync (F := D.fleet w) rfl hsrc).mpr (.seed hs hl hx hpub)
      rw [hseed] at hissue
      rcases h x.id x.parents _ (List.ne_nil_of_mem hq) hissue with e | ⟨_, hd⟩
      · cases e
      · obtain ⟨r, hr, hk, _, hcp⟩ := (hd q hq).1
        exact ⟨r, hr, hk, hcp⟩
    · intro hs p' hp' cs hl c hc hnew hat q hq
      have hissue := (issues_leaderShardSync (F := D.fleet w) rfl hsrc).mpr (.child hs hp' hl hc hnew)
      rcases childCp_eq hn c.parents with ⟨_, hnot⟩ | ⟨hcp, _⟩
      · exact absurd ⟨List.ne_nil_of_mem hq, hat⟩ hnot
      · rw [hcp] at hissue
        rcases h c.id c.parents _ (List.ne_nil_of_mem hq) hissue with e | ⟨_, hd⟩
        · cases e
        · obtain ⟨r, hr, hk, hcomp, _⟩ := (hd q hq).1
          exact mem_completedKeys.mpr ⟨r, hr, hcomp, hk⟩
  · intro h k ps cp _ hissue
    have hpub := (issues_leaderShardSync (F := D.fleet w) rfl hsrc).mp hissue
    generalize hx : (⟨k, ps⟩ : ShardMeta) = x at hpub
    obtain rfl : x.parents = ps := by rw [← hx]
    cases hpub with
    | seed hs hl hm hp => exact Or.inr ⟨hseed, hdone _ (parents_of_publishable hp) (h.1 hs _ hl x hm hp)⟩
    | child hs hd hl hc hnew =>
      rcases childCp_eq hn x.parents with ⟨hcp, _⟩ | ⟨hcp, hat⟩
      · exact Or.inl hcp
      · exact Or.inr ⟨hcp, hdone _ (h.2 hs _ hd _ hl x hc hnew hat) hat⟩
    | fallback _ _ _ _ hp =>
      rcases childCp_eq hn x.parents with ⟨hcp, _⟩ | ⟨hcp, hat⟩
      · exact Or.inl hcp
      · exact Or.inr ⟨hcp, hdone _ (parents_of_publishable hp) hat⟩

def latestFleet : Deployment := ⟨contractSource, plainConfig .latest, plainConfig_owner _⟩

def quietRoot : FleetPool :=
  latestFleet.envs exactContract [.appear ⟨"child", ["root"]⟩]
    (latestFleet.perform exactContract World.serve "a" .cycle 60
      (latestFleet.envs exactContract [.appear ⟨"root", []⟩, .close "root"] (Pool.idle latestFleet.init)))

def quietRows : List Lease := [⟨"root", some "a", 1, true, some SENTINEL_LATEST, []⟩]

theorem reshard_start_iff_quiet :
    StartsReady quietRows (quietRoot.world.mem "b").syncState quietRoot.world.stream.listings ∧
    ∀ k ps cp, ps ≠ [] → Issues (Told quietRoot.world.stream.listings (quietRoot.world.mem "b"))
      (leaderShardSync (latestFleet.fleet "b") quietRows) (.db k (.createShardLease ps cp)) →
      StartsWell quietRoot.world.trace quietRows ps cp := by
  have hreach : latestFleet.Reachable exactContract quietRoot :=
    Deployment.reachable_envs (Deployment.reachable_perform (Deployment.reachable_envs
      (Deployment.reachable_idle _ _)))
  have hrow : (⟨"root", some "a", 1, true, some SENTINEL_LATEST, []⟩ : Lease) ∈ quietRoot.world.history := by
    decide +kernel
  have hready : StartsReady quietRows (quietRoot.world.mem "b").syncState quietRoot.world.stream.listings := by
    refine ⟨?_, ?_⟩
    · intro _ ms hms x hx _ q hq
      obtain rfl : ms = quietRoot.world.stream.describe := hms
      have hlist : quietRoot.world.stream.describe = [⟨"root", []⟩, ⟨"child", ["root"]⟩] := by decide +kernel
      rw [hlist] at hx
      simp only [List.mem_cons, List.not_mem_nil, or_false] at hx
      rcases hx with rfl | rfl
      · cases hq
      · rw [List.mem_singleton.mp hq]
        exact ⟨_, List.mem_singleton.mpr rfl, rfl, rfl⟩
    · intro hs
      have hfalse : (quietRoot.world.mem "b").syncState.seeded = false := by decide +kernel
      rw [hfalse] at hs
      cases hs
  refine ⟨hready, (reshard_start_iff exactContract_acksBatch rfl hreach rfl ?_ (by decide) _).mpr hready⟩
  intro r hr
  rw [List.mem_singleton.mp hr]
  exact hrow

/-- A root with a record is drained and completed, then split while its leader stops. The next leader seeds
the stream. -/
def failover : FleetPool :=
  latestFleet.perform exactContract World.serve "b" .cycle 12
    (latestFleet.envs exactContract [.advance 30001]
      (latestFleet.perform exactContract World.serve "b" .cycle 60
        (latestFleet.envs exactContract [.appear ⟨"child", ["root"]⟩]
          (latestFleet.perform exactContract World.serve "a" .cycle 60
            (latestFleet.envs exactContract [.append "root" ⟨"root", "1", []⟩, .close "root"]
              (latestFleet.perform exactContract World.serve "a" .cycle 60
                (latestFleet.envs exactContract [.appear ⟨"root", []⟩] (Pool.idle latestFleet.init))))))))

def Event.endsAtLatest (k : ShardId) : Event → Bool
  | .wrote _ j (.markComplete _ _) (some r) => j == k && r.checkpoint == some SENTINEL_LATEST
  | _ => false

/-- The new leader lets the child start at LATEST although the root was completed at its record. -/
theorem child_of_drained_root_skips : ¬ ∀ p, latestFleet.Reachable exactContract p →
    ∀ k r, p.world.table k = some r → r.checkpoint = some SENTINEL_LATEST →
      ∀ q ∈ r.parents, EndedAtLatest p.world.trace q := by
  intro h
  have hreach : latestFleet.Reachable exactContract failover :=
    Deployment.reachable_perform (Deployment.reachable_envs (Deployment.reachable_perform
      (Deployment.reachable_envs (Deployment.reachable_perform (Deployment.reachable_envs
        (Deployment.reachable_perform (Deployment.reachable_envs (Deployment.reachable_idle _ _))))))))
  have hrow : failover.world.table "child" = some ⟨"child", none, 0, false, some SENTINEL_LATEST, ["root"]⟩ := by
    decide +kernel
  obtain ⟨w, o, c, r, hm, hr⟩ := h failover hreach "child" _ hrow rfl "root" (by decide)
  have hnone : failover.world.trace.all (fun e => !e.endsAtLatest "root") = true := by decide +kernel
  have := List.all_eq_true.mp hnone _ hm
  simp [Event.endsAtLatest, hr] at this

end StreamsConsumer
