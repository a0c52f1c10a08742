import StreamsConsumer.Worker.Order
import StreamsConsumer.Worker.Protocol

/-!
# Parent before child

No worker ever sees a lease row of a shard whose parents are not done: rows are
published behind the gate, and `acquire` re-creates a row only for a key that
some scan has shown. A missing parent row therefore never means that the parent
is still to come, and tombstones may be deleted at any time.
-/

namespace StreamsConsumer
open Conc

/-- The parents of the shard are done by the end of `tr`: completed, or no longer listed. -/
def Gated (metas : List ShardMeta) (tr : List Event) (k : ShardId) : Prop :=
  ∃ m ∈ metas, m.id = k ∧ ∀ p ∈ m.parents, MarkedIn tr p ∨ Event.trimmed p ∈ tr

def DeliveriesGated (metas : List ShardMeta) : List Event → Prop
  | [] => True
  | .delivered _ k _ _ :: tr => Gated metas tr k ∧ DeliveriesGated metas tr
  | _ :: tr => DeliveriesGated metas tr

/-- The CHILD_SHARDS filter never listed a child before all of its parents were done. -/
def ListedDone : List Event → Prop
  | [] => True
  | .listed _ _ children :: tr =>
    (∀ c ∈ children, ∀ p ∈ c.parents, MarkedIn tr p ∨ Event.trimmed p ∈ tr) ∧ ListedDone tr
  | _ :: tr => ListedDone tr

def Forest (s : World) : Prop := ∀ m ∈ s.stream.metas, m.parents.length ≤ 1

section
variable {s s' : World} {k : ShardId}

theorem Gated.mono {metas metas' : List ShardMeta} {tr tr' : List Event} (hm : metas <+: metas') (h : tr <:+ tr')
    (hg : Gated metas tr k) : Gated metas' tr' k := by
  obtain ⟨m, hmem, hid, hp⟩ := hg
  exact ⟨m, hm.mem hmem, hid, fun p hpm => (hp p hpm).imp (fun x => x.mono h) (fun x => h.mem x)⟩

theorem DeliveriesGated.mono {metas metas' : List ShardMeta} (hm : metas <+: metas') :
    ∀ {tr : List Event}, DeliveriesGated metas tr → DeliveriesGated metas' tr
  | [], _ => trivial
  | e :: tr, h => by
    cases e with
    | delivered w k rs a => exact ⟨h.1.mono hm List.suffix_rfl, DeliveriesGated.mono hm h.2⟩
    | _ => exact (DeliveriesGated.mono hm : DeliveriesGated metas tr → DeliveriesGated metas' tr) h

theorem DeliveriesGated.split {metas : List ShardMeta} {old : List Event} {w : Worker} {rs : List Record}
    {a : Except AwsError (Option SequenceNumber)} : ∀ {new : List Event},
      DeliveriesGated metas (new ++ .delivered w k rs a :: old) → Gated metas old k
  | [], h => h.1
  | e :: new, h => by
    cases e with
    | delivered _ _ _ _ => exact DeliveriesGated.split h.2
    | _ => exact (DeliveriesGated.split : DeliveriesGated metas (new ++ .delivered w k rs a :: old) → _) h

theorem ListedDone.tail {e : Event} {tr : List Event} (h : ListedDone (e :: tr)) : ListedDone tr := by
  cases e with
  | listed w p children => exact h.2
  | _ => exact h

theorem ListedDone.anti {old : List Event} : ∀ {new : List Event}, ListedDone (new ++ old) → ListedDone old
  | [], h => h
  | _ :: _, h => ListedDone.anti h.tail

theorem ListedDone.mem {w : Worker} {p : ShardId} {children : List ShardMeta} {c : ShardMeta} (hc : c ∈ children) :
    ∀ {tr : List Event}, ListedDone tr → Event.listed w p children ∈ tr →
      ∀ q ∈ c.parents, MarkedIn tr q ∨ Event.trimmed q ∈ tr
  | e :: tr, h, hm, q, hq => by
    have hsuf : tr <:+ e :: tr := List.suffix_cons e tr
    rcases List.mem_cons.mp hm with rfl | hm
    · exact (h.1 c hc q hq).imp (fun x => x.mono hsuf) (fun x => hsuf.mem x)
    · exact (ListedDone.mem hc h.tail hm q hq).imp (fun x => x.mono hsuf) (fun x => hsuf.mem x)

theorem Extends.listedDone (h : Extends s s') (hd : ListedDone s'.trace) : ListedDone s.trace := by
  obtain ⟨new, e⟩ := h.trace
  rw [← e] at hd
  exact hd.anti

theorem Forest.anti (h : Extends s s') (hf : Forest s') : Forest s := fun m hm => hf m (h.mem_metas hm)

def Gate (s : World) (k : ShardId) : Prop :=
  isShardKey k = true → ListedDone s.trace → Gated s.stream.metas s.trace k

theorem Gate.mono (h : Extends s s') (hg : Gate s k) : Gate s' k :=
  fun hk hd => (hg hk (h.listedDone hd)).mono h.metas h.trace

end

structure LineageInv (s : World) : Prop where
  sane : Sane s
  completed : ∀ r ∈ s.history, r.completed = true → MarkedIn s.trace r.leaseKey
  rows : ∀ r ∈ s.history, Gate s r.leaseKey
  pool : ∀ w, ∀ it ∈ (s.mem w).pool, isShardKey it.shard = true ∧ Gate s it.shard
  listings : Forest s → ListedDone s.trace
  deliveries : ListedDone s.trace → DeliveriesGated s.stream.metas s.trace

def lineageRely : Rely World := ⟨LineageInv, Extends, Extends.refl, Extends.trans⟩

theorem LineageInv.extend {s s' : World} (hi : LineageInv s) (h : Extends s s') (hs : Sane s')
    (hh : ∀ r ∈ s'.history, r ∈ s.history ∨ (r.completed = true → MarkedIn s'.trace r.leaseKey) ∧ Gate s' r.leaseKey)
    (hm : s'.mem = s.mem) (hl : Forest s' → ListedDone s.trace → ListedDone s'.trace)
    (hd : ListedDone s'.trace → DeliveriesGated s'.stream.metas s.trace → DeliveriesGated s'.stream.metas s'.trace) :
    LineageInv s' where
  sane := hs
  completed r hr hc := by
    rcases hh r hr with hr | hr
    · exact (hi.completed r hr hc).mono h.trace
    · exact hr.1 hc
  rows r hr := by
    rcases hh r hr with hr | hr
    · exact (hi.rows r hr).mono h
    · exact hr.2
  pool w it hit := by
    rw [hm] at hit
    exact ⟨(hi.pool w it hit).1, (hi.pool w it hit).2.mono h⟩
  listings hf := hl hf (hi.listings (hf.anti h))
  deliveries hf := hd hf ((hi.deliveries (h.listedDone hf)).mono h.metas)

theorem keeps_gate {w : Worker} {key : ShardId} {op : DbOp} {s : World}
    (hg : op.apply key none ≠ none → Gate s key) : Keeps lineageRely w key op s := by
  intro s₁ h₁ i₁ row ha
  have hx := Extends.write s₁ w key op row
  refine ⟨i₁.extend hx (i₁.sane.write ha) ?_ rfl (fun _ h => h) (fun _ h => h), hx⟩
  intro r' hr'
  rcases World.mem_write_history hr' with rfl | hr'
  · right
    have hkey : r'.leaseKey = key := DbOp.apply_key ha fun r₀ h₀ => (i₁.sane.held key r₀ h₀).2
    rw [hkey]
    refine ⟨?_, ?_⟩
    · intro hc
      rcases (DbOp.apply_origin ha).2 hc with ⟨r, hr, hrc⟩ | ⟨o, c, rfl⟩
      · obtain ⟨hm, hk⟩ := i₁.sane.held key r hr
        have hmark := i₁.completed r hm hrc
        rw [hk] at hmark
        exact hmark.mono hx.trace
      · exact ⟨w, o, c, some r', List.mem_cons_self ..⟩
    · cases ht : s₁.table key with
      | none =>
        rw [ht] at ha
        exact ((hg (by rw [ha]; simp)).mono h₁).mono hx
      | some r =>
        obtain ⟨hm, hk⟩ := i₁.sane.held key r ht
        have hgate := i₁.rows r hm
        rw [hk] at hgate
        exact hgate.mono hx
  · exact Or.inl hr'

theorem LineageInv.setMem {s : World} {w : Worker} {m : Memory} (hi : LineageInv s)
    (hq : ∀ it ∈ m.pool, isShardKey it.shard = true ∧ Gate s it.shard) : LineageInv (s.setMem w m) where
  sane := hi.sane.setMem w m
  completed := hi.completed
  rows := hi.rows
  pool := World.forall_setMem (Q := fun _ m => ∀ it ∈ m.pool, isShardKey it.shard = true ∧ Gate s it.shard) hi.pool hq
  listings := hi.listings
  deliveries := hi.deliveries

theorem LineageInv.env {e : Env} {s s' : World} (hi : LineageInv s) (h : envStep e s = some s') :
    LineageInv s' := by
  obtain ⟨_, hh, hm, _⟩ := envStep_frame h
  refine hi.extend (Extends.env h) (hi.sane.env h) (fun r hr => Or.inl (hh ▸ hr)) hm ?_ ?_
  all_goals
    intro _ hd
    cases e <;> simp only [envStep, Option.ite_none_right_eq_some, Option.some.injEq] at h
    all_goals first | (subst h; exact hd) | (obtain ⟨_, rfl⟩ := h; exact hd)

theorem gate_reserved {s : World} {k : ShardId} (h : isShardKey k = false) : Gate s k := by
  intro hk
  rw [h] at hk
  cases hk

theorem isShardKey_leader : isShardKey LEADER_LEASE_KEY = false := by
  simp [isShardKey]

theorem isShardKey_heartbeat (w : Worker) : isShardKey (heartbeatKey w) = false := by
  simp [isShardKey, heartbeatKey_isHeartbeatKey]

variable {D : Deployment} {K : Contract}

def lineageGround (D : Deployment) (K : Contract) : Ground D K where
  L := lineageRely
  Row r s := Gate s r.leaseKey ∧ (r.completed = true → MarkedIn s.trace r.leaseKey)
  Item _ it s := isShardKey it.1 = true ∧ Gate s it.1
  row_up _ _ _ hl _ h := ⟨h.1.mono hl, fun hc => (h.2 hc).mono hl.trace⟩
  item_up _ _ _ _ hl _ h := ⟨h.1, h.2.mono hl⟩
  env _ _ _ hi h := ⟨hi.env h, Extends.env h⟩
  history _ hi r hr := ⟨hi.rows r hr, hi.completed r hr⟩
  item _ _ _ _ hr _ _ hk := ⟨hk, hr.1⟩
  pool _ w hi := hi.pool w
  mem s w m hi _ _ hq := ⟨hi.setMem hq, Extends.setMem s w m⟩
  leader _ _ _ := ⟨keeps_gate fun _ => gate_reserved isShardKey_leader, fun _ => keeps_gate fun h => absurd rfl h,
    fun _ => keeps_gate fun h => absurd rfl h⟩
  heartbeat _ w _ := keeps_gate fun _ => gate_reserved (isShardKey_heartbeat w)
  take _ _ _ _ hr _ _ := ⟨keeps_gate fun _ => hr.1, fun _ => keeps_gate fun h => absurd rfl h⟩
  delete _ _ _ _ _ := keeps_gate fun h => absurd rfl h
  release _ _ _ _ _ _ := keeps_gate fun h => absurd rfl h
  flush _ _ _ _ _ _ _ _ := keeps_gate fun h => absurd rfl h

/-! ## The publishing paths -/

theorem marked_of_completedKeys {s : World} {rows : List Lease} {p : ShardId}
    (hr : ∀ r ∈ rows, r.completed = true → MarkedIn s.trace r.leaseKey) (hp : p ∈ completedKeys rows) :
    MarkedIn s.trace p := by
  obtain ⟨r, hm, hc, rfl⟩ := mem_completedKeys.mp hp
  exact hr r hm hc

theorem gated_of_publishable {s : World} {rows : List Lease} {m : ShardMeta} {existing : List ShardId}
    (hs : Sane s) (hr : ∀ r ∈ rows, r.completed = true → MarkedIn s.trace r.leaseKey) (hm : m ∈ s.stream.describe)
    (hp : publishable (completedKeys rows) existing m = true) : Gated s.stream.metas s.trace m.id := by
  unfold Stream.describe at hm
  obtain ⟨m', hm', rfl⟩ := List.mem_map.mp hm
  have hmem := (List.mem_filter.mp hm').1
  refine ⟨m', hmem, rfl, ?_⟩
  intro p hpm
  by_cases hl : p ∈ s.stream.listed
  · left
    unfold publishable at hp
    simp only [Bool.and_eq_true, List.all_eq_true] at hp
    have := hp.1 p (List.mem_filter.mpr ⟨hpm, by simpa using hl⟩)
    exact marked_of_completedKeys hr (by simpa using this)
  · right
    obtain ⟨m'', hm'', rfl⟩ := List.mem_map.mp (hs.parents m' hmem p hpm)
    exact (hs.trimmed m'' hm'').resolve_left hl

theorem parents_done_of_child {s : World} {c : ShardMeta} {p : ShardId} (hf : Forest s) (hp : MarkedIn s.trace p)
    (hc : c ∈ s.stream.children p) : ∀ q ∈ c.parents, MarkedIn s.trace q := by
  unfold Stream.children at hc
  obtain ⟨hmem, hpar⟩ := List.mem_filter.mp hc
  simp only [Bool.and_eq_true, List.contains_eq_mem, decide_eq_true_eq] at hpar
  intro q hq
  match hcp : c.parents, hf c hmem with
  | [], _ => rw [hcp] at hq; cases hq
  | [x], _ =>
    rw [hcp] at hq hpar
    rw [List.mem_singleton.mp hq, ← List.mem_singleton.mp hpar.2]
    exact hp

theorem LineageInv.list {s : World} {w : Worker} {p : ShardId} (hi : LineageInv s) (hp : MarkedIn s.trace p) :
    LineageInv (s.record (.listed w p (s.stream.children p))) := by
  refine hi.extend (Extends.record s _) (hi.sane.record nofun) (fun r hr => Or.inl hr) rfl ?_ (fun _ h => h)
  intro hf hd
  exact ⟨fun c hc q hq => Or.inl (parents_done_of_child (s := s) hf hp hc q hq), hd⟩

def lineageOutline (hsrc : D.source = contractSource) (task : ShardTask) (hk : isShardKey task.shard = true) :
    (lineageGround D K).Outline task where
  At _ _ s := Gate s task.shard
  Got _ _ _ s := Gate s task.shard
  Acked _ _ _ _ s := Gate s task.shard
  Done _ _ _ s := Gate s task.shard
  at_up _ _ _ _ hl _ h := h.mono hl
  acked_up _ _ _ _ _ _ hl _ h := h.mono hl
  done_up _ _ _ _ _ hl _ h := h.mono hl
  resume _ _ _ _ h _ := h
  read s a c hi h := by
    rw [hsrc]
    refine wp_contractRead hi ?_ ?_
    · intro s₁ _ _ _ h₁ _ _ _ _
      exact h.mono h₁
    · intro s₁ e b hb
      cases hb
  empty _ _ _ _ _ h _ := h
  deliver s a c b hi h hb := by
    refine wp_deliver ?_
    intro s₁ ans h₁ i₁ _
    have hx : Extends s₁ (s₁.record (.delivered task.owner task.shard b.records ans)) := Extends.record s₁ _
    have hg := h.mono h₁
    refine ⟨i₁.extend hx (i₁.sane.record nofun) (fun r hr => Or.inl hr) rfl (fun _ h => h) ?_, hx,
      fun _ _ => hg.mono hx, fun _ => hg.mono hx⟩
    intro hl hd
    exact ⟨hg hk hl, hd⟩
  write _ _ _ _ _ _ h := ⟨keeps_gate fun e => absurd rfl e, fun s₁ _ h₁ _ _ => (h.mono h₁).mono (Extends.write ..)⟩
  defer s a c b q d t _ hi _ _ := ⟨hi.setMem (hi.pool task.owner), Extends.setMem s _ _⟩
  deferred _ _ _ _ _ _ _ h := h
  next _ _ _ _ _ h _ _ := h
  flush _ _ _ _ _ _ _ h _ _ :=
    ⟨keeps_gate fun e => absurd rfl e, fun s₁ _ h₁ _ _ => (h.mono h₁).mono (Extends.write ..)⟩
  complete _ _ _ _ _ _ _ := keeps_gate fun h => absurd rfl h

def lineageProtocol (hsrc : D.source = contractSource) : Protocol D K where
  toGround := lineageGround D K
  sync s w rows hi hr := by
    have hmark : ∀ s₁, Extends s s₁ → ∀ r ∈ rows, r.completed = true → MarkedIn s₁.trace r.leaseKey :=
      fun s₁ h₁ r hm hc => ((hr r hm).2 hc).mono h₁.trace
    refine (lineageGround D K).wp_leaderShardSync ((lineageGround D K).describes_of_contract hsrc) hi
      ⟨?_, ?_, ?_, ?_⟩
    · intro s₁ m h₁ i₁ hm hp
      exact keeps_gate fun _ _ _ => gated_of_publishable i₁.sane (hmark s₁ h₁) hm hp
    · intro p hp s₁ h₁ i₁
      exact ⟨i₁.list (marked_of_completedKeys (hmark s₁ h₁) hp), Extends.record s₁ _⟩
    · intro s₁ p c h₁ i₁ hlisted hc _
      have hmem : c ∈ s₁.stream.metas := (List.mem_filter.mp hc).1
      exact keeps_gate fun _ _ hd => ⟨c, hmem, rfl, hd.mem hc hlisted⟩
    · intro s₁ m h₁ i₁ hm hp
      exact keeps_gate fun _ _ _ => gated_of_publishable i₁.sane (hmark s₁ h₁) hm hp
  pass s w it hi h := (lineageGround D K).wp_runPass (lineageOutline hsrc _ h.1) hi h.2

theorem LineageInv.init (D : Deployment) : LineageInv D.init where
  sane := Sane.init D
  completed r hr := by cases hr
  rows r hr := by cases hr
  pool w it hit := by cases hit
  listings _ := trivial
  deliveries _ := trivial

/-- Parent before child: when a batch of a shard was delivered, every parent of the shard had been marked
completed before, or was no longer listed. -/
theorem parent_before_child (hsrc : D.source = contractSource) {p : FleetPool} (hp : D.Reachable K p)
    (hf : Forest p.world) {new old : List Event} {w : Worker} {k : ShardId} {records : List Record}
    {answer : Except AwsError (Option SequenceNumber)}
    (htrace : p.world.trace = new ++ .delivered w k records answer :: old) {m : ShardMeta}
    (hm : m ∈ p.world.stream.metas) (hid : m.id = k) {par : ShardId} (hpar : par ∈ m.parents) :
    MarkedIn old par ∨ Event.trimmed par ∈ old := by
  have hi : LineageInv p.world := (lineageProtocol hsrc).reachable (LineageInv.init D) hp
  have hd := hi.deliveries (hi.listings hf)
  rw [htrace] at hd
  obtain ⟨m', hm', hid', hall⟩ := hd.split
  obtain rfl : m' = m := List.inj_on_of_nodup_map hi.sane.ids hm' hm (hid'.trans hid.symm)
  exact hall par hpar

def splitShard : FleetPool :=
  plainFleet.perform exactContract World.serve "a" .cycle 80
    (plainFleet.envs exactContract [.appear ⟨"child", ["root"]⟩, .append "child" ⟨"child", "2", []⟩]
      (plainFleet.perform exactContract World.serve "a" .cycle 60
        (plainFleet.envs exactContract [.appear ⟨"root", []⟩, .append "root" ⟨"root", "1", []⟩, .close "root"]
          (Pool.idle plainFleet.init))))

theorem splitShard_reachable : plainFleet.Reachable exactContract splitShard :=
  Deployment.reachable_perform (Deployment.reachable_envs (Deployment.reachable_perform
    (Deployment.reachable_envs (Deployment.reachable_idle _ _))))

theorem splitShard_metas : splitShard.world.stream.metas = [⟨"root", []⟩, ⟨"child", ["root"]⟩] := by decide +kernel

theorem splitShard_forest : Forest splitShard.world := by
  unfold Forest
  rw [splitShard_metas]
  decide

def Event.isDelivery (k : ShardId) : Event → Bool
  | .delivered _ j _ _ => j == k
  | _ => false

theorem parent_before_child_split : ∃ new old w records answer,
    splitShard.world.trace = new ++ .delivered w "child" records answer :: old ∧
      (MarkedIn old "root" ∨ Event.trimmed "root" ∈ old) := by
  have hany : splitShard.world.trace.any (Event.isDelivery "child") = true := by decide +kernel
  obtain ⟨e, he, hk⟩ := List.any_eq_true.mp hany
  obtain ⟨new, old, htrace⟩ := List.append_of_mem he
  cases e with
  | delivered w j records answer =>
    obtain rfl : j = "child" := by simpa [Event.isDelivery] using hk
    refine ⟨new, old, w, records, answer, htrace, ?_⟩
    exact parent_before_child (m := ⟨"child", ["root"]⟩) rfl splitShard_reachable splitShard_forest htrace
      (by rw [splitShard_metas]; decide) rfl (by decide)
  | _ => simp [Event.isDelivery] at hk

end StreamsConsumer
