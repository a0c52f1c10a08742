import StreamsConsumer.Worker.Order
import StreamsConsumer.Worker.Protocol

/-!
# The history of the lease rows

Whatever happens in a fleet, a checkpoint and a pending ack are positions of the
shard's log, a row of the table is the last one that its key had, and whoever
writes a row owns it or leaves it without an owner.
-/

namespace StreamsConsumer
open Conc

/-- The row of the shard as the worker held it last. -/
def heldRow (w : Worker) (k : ShardId) (s : World) : Option Lease :=
  s.history.find? fun r => decide (r.leaseKey = k ∧ r.owner = some w)

structure Registry (D : Deployment) (s : World) : Prop where
  sane : Sane s
  settled : ∀ r ∈ s.history, Settled (s.stream.log r.leaseKey) r.checkpoint
  pending : ∀ w k q, (s.mem w).pending k = some q →
    Known (s.stream.log k) (some q) ∧ (D.config w).deferred = true
  last : ∀ k r, s.table k = some r → s.history.find? (fun r => decide (r.leaseKey = k)) = some r
  signed : ∀ w k op r, Event.wrote w k op (some r) ∈ s.trace → r.owner = some w ∨ r.owner = none

theorem owner_of_actor {w : Worker} {k : ShardId} {op : DbOp} {row : Option Lease} {r : Lease}
    (h : op.apply k row = some (some r)) (ha : op.actor = some w ∨ op.actor = none) :
    r.owner = some w ∨ r.owner = none := by
  have hsigned : r.owner = op.actor ∨ r.owner = none := by
    cases row with
    | none =>
      cases op <;> simp [DbOp.apply] at h
      all_goals
        subst h
        simp [DbOp.actor]
    | some r₀ =>
      cases op <;> simp [DbOp.apply] at h
      all_goals
        obtain ⟨hc, rfl⟩ := h
        simp_all [DbOp.actor]
  rcases hsigned with e | e
  · rw [e]
    exact ha
  · exact Or.inr e

variable {D : Deployment} {K : Contract} {w v : Worker} {k : ShardId} {s t : World}

/-! ## The row a worker held last -/

theorem heldRow_mem {r : Lease} (h : heldRow w k s = some r) : r ∈ s.history ∧ r.leaseKey = k ∧ r.owner = some w := by
  have hr := List.find?_some h
  simp only [decide_eq_true_eq] at hr
  exact ⟨List.mem_of_find?_eq_some h, hr.1, hr.2⟩

theorem find_of_find {α : Type} {l : List α} {P Q : α → Bool} {a : α} (h : l.find? P = some a) (ha : Q a = true)
    (hPQ : ∀ x, Q x = true → P x = true) : l.find? Q = some a := by
  obtain ⟨hpa, l₁, l₂, rfl, hbefore⟩ := List.find?_eq_some_iff_append.mp h
  refine List.find?_eq_some_iff_append.mpr ⟨ha, l₁, l₂, rfl, ?_⟩
  intro x hx
  cases hq : Q x with
  | false => rfl
  | true =>
    have hp := hbefore x hx
    rw [hPQ x hq] at hp
    cases hp

theorem Registry.heldRow_eq (h : Registry D s) {r : Lease} (hr : s.table k = some r) (ho : r.owner = some w) :
    heldRow w k s = some r := by
  have hkey := (h.sane.held k r hr).2
  refine find_of_find (h.last k r hr) ?_ ?_
  · simp [hkey, ho]
  · intro x hx
    simp only [decide_eq_true_eq] at hx
    simp [hx.1]

theorem heldRow_write {key : ShardId} {op : DbOp} {row : Option Lease} :
    heldRow w k (s.write v key op row) =
      (row.filter fun r => decide (r.leaseKey = k ∧ r.owner = some w)).or (heldRow w k s) := by
  unfold heldRow World.write
  cases row with
  | none => rfl
  | some r =>
    by_cases h : r.leaseKey = k ∧ r.owner = some w
    · simp [h, Option.filter]
    · simp [h, Option.filter]

/-! ## Every run keeps the registry -/

def registryRely (D : Deployment) : Rely World := ⟨Registry D, Extends, Extends.refl, Extends.trans⟩

namespace Registry

theorem extend (h : Registry D s) (hx : Extends s t) (hsane : Sane t) (hh : t.history = s.history)
    (htable : t.table = s.table) (hmem : t.mem = s.mem)
    (ht : ∀ w k op r, Event.wrote w k op (some r) ∈ t.trace → Event.wrote w k op (some r) ∈ s.trace) : Registry D t where
  sane := hsane
  settled r hr := (h.settled r (hh ▸ hr)).mono (hx.log _)
  pending w k q hq := by
    rw [hmem] at hq
    exact ⟨(h.pending w k q hq).1.mono (hx.log k), (h.pending w k q hq).2⟩
  last k r hr := by
    rw [hh]
    exact h.last k r (htable ▸ hr)
  signed w k op r he := h.signed w k op r (ht w k op r he)

theorem record (h : Registry D s) {e : Event} (ht : ∀ k, e ≠ .trimmed k)
    (hw : ∀ w k op row, e ≠ .wrote w k op row) : Registry D (s.record e) := by
  refine h.extend (Extends.record s e) (h.sane.record ht) rfl rfl rfl ?_
  intro w k op r he
  rcases List.mem_cons.mp he with he | he
  · exact absurd he.symm (hw w k op (some r))
  · exact he

theorem env {e : Env} (h : Registry D s) (he : envStep e s = some t) : Registry D t := by
  obtain ⟨htable, hh, hm, ht⟩ := envStep_frame he
  refine h.extend (Extends.env he) (h.sane.env he) hh htable hm ?_
  intro w k op r hmem
  rcases ht _ hmem with hmem | ⟨k', he⟩
  · exact hmem
  · cases he

theorem setMem {m : Memory} (h : Registry D s)
    (hp : ∀ k q, m.pending k = some q → Known (s.stream.log k) (some q) ∧ (D.config w).deferred = true) :
    Registry D (s.setMem w m) where
  sane := h.sane.setMem w m
  settled := h.settled
  pending := World.forall_setMem (Q := fun w m => ∀ k q, m.pending k = some q →
    Known (s.stream.log k) (some q) ∧ (D.config w).deferred = true) h.pending hp
  last := h.last
  signed := h.signed

theorem write {key : ShardId} {op : DbOp} {row : Option Lease} (h : Registry D s)
    (ha : op.apply key (s.table key) = some row) (hactor : op.actor = some w ∨ op.actor = none)
    (hcp : ∀ o c q, op = .checkpoint o c q → Known (s.stream.log key) (some q))
    (hcreate : ∀ ps cp, op = .createShardLease ps cp → cp = none ∨ cp = some SENTINEL_LATEST) :
    Registry D (s.write w key op row) where
  sane := h.sane.write ha
  settled r hr := by
    rcases World.mem_write_history hr with rfl | hr
    · have hkey : r.leaseKey = key := DbOp.apply_key ha fun r₀ h₀ => (h.sane.held key r₀ h₀).2
      rw [hkey]
      rcases (DbOp.apply_origin ha).1 with he | ⟨r₀, hr₀, he⟩ | ⟨o, c, q, rfl, he⟩ | ⟨ps, cp, rfl, he⟩
      · rw [he]
        exact settled_none _
      · obtain ⟨hm, hk⟩ := h.sane.held key r₀ hr₀
        have hset := h.settled r₀ hm
        rw [hk] at hset
        rw [he]
        exact hset
      · rw [he]
        exact Or.inl (hcp o c q rfl)
      · rw [he]
        rcases hcreate ps cp rfl with rfl | rfl
        · exact settled_none _
        · exact Or.inr rfl
    · exact h.settled r hr
  pending := h.pending
  last k r hr := by
    by_cases hk : k = key
    · subst hk
      rw [World.write_table_self] at hr
      subst hr
      have hkey : r.leaseKey = k := DbOp.apply_key ha fun r₀ h₀ => (h.sane.held k r₀ h₀).2
      simp [World.write, hkey]
    · rw [World.write_table_of_ne _ hk] at hr
      have hother : ∀ r', row = some r' → r'.leaseKey ≠ k := by
        rintro r' rfl e
        exact hk (e.symm.trans (DbOp.apply_key ha fun r₀ h₀ => (h.sane.held key r₀ h₀).2))
      cases row with
      | none => exact h.last k r hr
      | some r' => simpa [World.write, hother r' rfl] using h.last k r hr
  signed v k op' r he := by
    rcases List.mem_cons.mp he with he | he
    · cases he
      exact owner_of_actor ha hactor
    · exact h.signed v k op' r he

theorem init (D : Deployment) : Registry D D.init where
  sane := Sane.init D
  settled r hr := by cases hr
  pending w k q hq := by
    rw [show D.init.mem w = Memory.init (D.config w) from rfl, Protocol.pending_init] at hq
    cases hq
  last k r hr := by cases hr
  signed w k op r he := by cases he

end Registry

theorem keeps_registry {key : ShardId} {op : DbOp} (hactor : op.actor = some w ∨ op.actor = none)
    (hcp : ∀ o c q, op = .checkpoint o c q → Known (s.stream.log key) (some q))
    (hcreate : ∀ ps cp, op = .createShardLease ps cp → cp = none ∨ cp = some SENTINEL_LATEST) :
    Keeps (registryRely D) w key op s := by
  intro s₁ h₁ i₁ row ha
  refine ⟨i₁.write ha hactor ?_ hcreate, Extends.write s₁ w key op row⟩
  intro o c q e
  exact (hcp o c q e).mono (h₁.log key)

theorem keeps_registry_plain {key : ShardId} {op : DbOp} (hactor : op.actor = some w ∨ op.actor = none)
    (hcp : ∀ o c q, op ≠ .checkpoint o c q) (hcreate : ∀ ps cp, op ≠ .createShardLease ps cp) :
    Keeps (registryRely D) w key op s :=
  keeps_registry hactor (fun o c q e => absurd e (hcp o c q)) fun ps cp e => absurd e (hcreate ps cp)

theorem keeps_registry_checkpoint {key : ShardId} {c : Nat} {q : SequenceNumber} (hq : Known (s.stream.log key) (some q)) :
    Keeps (registryRely D) w key (.checkpoint w c q) s := by
  refine keeps_registry (Or.inl rfl) ?_ nofun
  intro o c' q' e
  cases e
  exact hq

def registryGround (D : Deployment) (K : Contract) : Ground D K where
  L := registryRely D
  Row _ _ := True
  Item _ _ _ := True
  row_up _ _ _ _ _ h := h
  item_up _ _ _ _ _ _ h := h
  env _ _ _ hi h := ⟨hi.env h, Extends.env h⟩
  history _ _ _ _ := trivial
  item _ _ _ _ _ _ _ _ := trivial
  pool _ _ _ _ _ := trivial
  mem s w m hi hp _ _ := ⟨hi.setMem fun k q h => hi.pending w k q (hp k q h), Extends.setMem s w m⟩
  leader _ _ _ := ⟨keeps_registry_plain (Or.inl rfl) nofun nofun, fun _ => keeps_registry_plain (Or.inl rfl) nofun nofun,
    fun _ => keeps_registry_plain (Or.inl rfl) nofun nofun⟩
  heartbeat _ _ _ := keeps_registry_plain (Or.inl rfl) nofun nofun
  take _ _ _ _ _ _ _ := ⟨keeps_registry_plain (Or.inl rfl) nofun nofun,
    fun _ => keeps_registry_plain (Or.inl rfl) nofun nofun⟩
  delete _ _ _ _ _ := keeps_registry_plain (Or.inr rfl) nofun nofun
  release _ _ _ _ _ _ := keeps_registry_plain (Or.inl rfl) nofun nofun
  flush _ w r q hi _ _ hq := keeps_registry_checkpoint (hi.pending w r.leaseKey q hq).1

def registryOutline (hK : K.AcksBatch) (hsrc : D.source = contractSource) (task : ShardTask)
    (hdef : task.deferred = (D.config task.owner).deferred) : (registryGround D K).Outline task where
  At _ _ _ := True
  Got _ _ b s := ∀ r ∈ b.records, r ∈ s.stream.log task.shard
  Acked _ _ _ q s := Known (s.stream.log task.shard) (some q)
  Done _ _ _ _ := True
  at_up _ _ _ _ _ _ h := h
  acked_up _ _ _ _ _ _ hl _ h := h.mono (hl.log _)
  done_up _ _ _ _ _ _ _ h := h
  resume _ _ _ _ _ _ := trivial
  read s a c hi _ := by
    rw [hsrc]
    refine wp_contractRead hi ?_ ?_
    · intro s₁ start n shardEnd _ i₁ _ b hb r hr
      cases hb
      exact List.mem_of_mem_drop (List.mem_of_mem_take hr)
    · intro s₁ e b hb
      cases hb
  empty _ _ _ _ _ _ _ := trivial
  deliver s a c b _ h _ := by
    refine wp_deliver ?_
    intro s₁ ans h₁ i₁ hack
    refine ⟨i₁.record nofun nofun, Extends.record s₁ _, ?_, fun _ => trivial⟩
    intro q hq q' e
    cases e
    obtain ⟨r, hr, rfl⟩ := List.mem_map.mp (hK _ _ (hack q hq))
    exact List.mem_map_of_mem ((h₁.log task.shard).subset (h r hr))
  write _ _ _ _ _ _ h := ⟨keeps_registry_checkpoint h, fun _ _ _ _ _ => trivial⟩
  defer s a c b q d t hd hi h hdefer := by
    refine ⟨hi.setMem ?_, Extends.setMem s _ _⟩
    intro k q' hq
    rcases Ground.pending_recordAck hdefer hq with ⟨rfl, rfl⟩ | hq
    · exact ⟨h, hdef ▸ hd⟩
    · exact hi.pending task.owner k q' hq
  deferred _ _ _ _ _ _ _ _ := trivial
  next _ _ _ _ _ _ _ _ := trivial
  flush s a c b q _ hi _ _ hq := ⟨keeps_registry_checkpoint (hi.pending task.owner task.shard q hq).1, fun _ _ _ _ _ => trivial⟩
  complete _ _ _ _ _ _ _ := keeps_registry_plain (Or.inl rfl) nofun nofun

def registryProtocol (hK : K.AcksBatch) (hsrc : D.source = contractSource) : Protocol D K where
  toGround := registryGround D K
  sync s w rows hi _ := by
    refine (registryGround D K).wp_leaderShardSync ((registryGround D K).describes_of_contract hsrc) hi ⟨?_, ?_, ?_, ?_⟩
    · intro s₁ m _ _ _ _
      refine keeps_registry (Or.inr rfl) nofun ?_
      intro ps cp e
      cases e
      exact seedCheckpoint_cases _
    · exact fun _ _ s₁ _ i₁ => ⟨i₁.record nofun nofun, Extends.record s₁ _⟩
    · intro s₁ p c _ _ _ _ _
      refine keeps_registry (Or.inr rfl) nofun ?_
      intro ps cp e
      cases e
      exact childCp_cases _ _
    · intro s₁ m _ _ _ _
      refine keeps_registry (Or.inr rfl) nofun ?_
      intro ps cp e
      cases e
      exact childCp_cases _ _
  pass s w it hi _ := (registryGround D K).wp_runPass (registryOutline hK hsrc _ rfl) hi trivial

theorem registry_reachable (hK : K.AcksBatch) (hsrc : D.source = contractSource) {p : FleetPool} (h : D.Reachable K p) :
    Registry D p.world :=
  (registryProtocol hK hsrc).reachable (Registry.init D) h

end StreamsConsumer
