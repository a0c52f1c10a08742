import StreamsConsumer.Worker.Order
import StreamsConsumer.Worker.Protocol

/-!
# Durable progress

With a checkpoint for each batch, the position of a lease row never moves back.
A worker that lost its lease keeps delivering and then writes; its write carries
the `(owner, counter)` token it read the row with, and a token names one resume
position for as long as the row is not deleted.
-/

namespace StreamsConsumer
open Conc

/-- What durable progress relies on: reads do not go back behind the resume position, acks name records
of the batch. -/
structure Contract.Forward (K : Contract) : Prop where
  start : ∀ {log closed after start n shardEnd}, K.reads log closed after start n shardEnd = true →
    position log after ≤ start
  bound : ∀ {log closed after start n shardEnd}, K.reads log closed after start n shardEnd = true →
    start + n ≤ log.length
  acks : ∀ {records q}, K.acks records q = true → q ∈ records.map Record.seq

def NotDeleted (s : World) (k : ShardId) : Prop := ∀ w row, Event.wrote w k .deleteLease row ∉ s.trace

/-! ## The order and the invariant -/

/-- From one row of a key to a later one: the counter moves up, and while it stands the owner and the
resume position do too. -/
structure RowLe (log log' : List Record) (r r' : Lease) : Prop where
  counter : r.leaseCounter ≤ r'.leaseCounter
  same : r'.leaseCounter = r.leaseCounter → r'.checkpoint = r.checkpoint ∧ r'.owner = r.owner
  forward : position log r.checkpoint ≤ position log' r'.checkpoint

def Progress (s s' : World) : Prop :=
  Extends s s' ∧ ∀ k, NotDeleted s' k → ∀ r, s.table k = some r →
    ∃ r', s'.table k = some r' ∧ RowLe (s.stream.log k) (s'.stream.log k) r r'

theorem NotDeleted.anti {s s' : World} {k : ShardId} (h : Extends s s') (hn : NotDeleted s' k) : NotDeleted s k :=
  fun w row he => hn w row (h.mem_trace he)

namespace Progress

theorem refl (s : World) : Progress s s :=
  ⟨Extends.refl s, fun _ _ r hr => ⟨r, hr, le_refl _, fun _ => ⟨rfl, rfl⟩, le_refl _⟩⟩

theorem trans {a b c : World} (h₁ : Progress a b) (h₂ : Progress b c) : Progress a c := by
  refine ⟨h₁.1.trans h₂.1, ?_⟩
  intro k hn r hr
  obtain ⟨r₁, hr₁, l₁⟩ := h₁.2 k (hn.anti h₂.1) r hr
  obtain ⟨r₂, hr₂, l₂⟩ := h₂.2 k hn r₁ hr₁
  have hc₁ := l₁.counter
  have hc₂ := l₂.counter
  refine ⟨r₂, hr₂, le_trans hc₁ hc₂, ?_, le_trans l₁.forward l₂.forward⟩
  intro e
  obtain ⟨e₁, o₁⟩ := l₁.same (by omega)
  obtain ⟨e₂, o₂⟩ := l₂.same (by omega)
  exact ⟨e₂.trans e₁, o₂.trans o₁⟩

theorem of_table {s s' : World} (h : Extends s s') (ht : s'.table = s.table) : Progress s s' := by
  refine ⟨h, ?_⟩
  intro k _ r hr
  exact ⟨r, ht ▸ hr, le_refl _, fun _ => ⟨rfl, rfl⟩, position_mono (h.log k) _⟩

end Progress

def BoundedRow (r : Lease) (s : World) : Prop :=
  Settled (s.stream.log r.leaseKey) r.checkpoint ∧
    (NotDeleted s r.leaseKey → ∃ r', s.table r.leaseKey = some r' ∧ r.leaseCounter ≤ r'.leaseCounter ∧
      (r'.leaseCounter = r.leaseCounter → r'.checkpoint = r.checkpoint))

/-- What the holder of the token `(w, c)` knows: while the row carries it, the row's position is not
beyond `a`. -/
def Token (s : World) (w : Worker) (k : ShardId) (c : Nat) (a : Option SequenceNumber) : Prop :=
  Settled (s.stream.log k) a ∧ (NotDeleted s k → ∃ r, s.table k = some r ∧ c ≤ r.leaseCounter ∧
    (r.leaseCounter = c → r.owner = some w → Settled (s.stream.log k) r.checkpoint ∧
      position (s.stream.log k) r.checkpoint ≤ position (s.stream.log k) a))

structure ProgressInv (s : World) : Prop where
  sane : Sane s
  rows : ∀ r ∈ s.history, BoundedRow r s
  pending : ∀ w k, (s.mem w).pending k = none
  pool : ∀ w, ∀ it ∈ (s.mem w).pool, Token s w it.shard it.counter it.checkpoint

def progressRely : Rely World := ⟨ProgressInv, Progress, Progress.refl, Progress.trans⟩

theorem BoundedRow.mono {r : Lease} {s s' : World} (h : Progress s s') (hr : BoundedRow r s) : BoundedRow r s' := by
  refine ⟨hr.1.mono (h.1.log _), ?_⟩
  intro hn
  obtain ⟨r₁, hr₁, hc, hs⟩ := hr.2 (hn.anti h.1)
  obtain ⟨r₂, hr₂, hl⟩ := h.2 _ hn r₁ hr₁
  have hc₂ := hl.counter
  refine ⟨r₂, hr₂, le_trans hc hc₂, ?_⟩
  intro e
  rw [(hl.same (by omega)).1]
  exact hs (by omega)

theorem Token.mono {s s' : World} {w : Worker} {k : ShardId} {c : Nat} {a : Option SequenceNumber}
    (h : Progress s s') (hi : Sane s') (ht : Token s w k c a) : Token s' w k c a := by
  refine ⟨ht.1.mono (h.1.log k), ?_⟩
  intro hn
  obtain ⟨r, hr, hc, hown⟩ := ht.2 (hn.anti h.1)
  obtain ⟨r', hr', hl⟩ := h.2 k hn r hr
  have hc' := hl.counter
  refine ⟨r', hr', le_trans hc hc', ?_⟩
  intro e ho
  obtain ⟨ecp, eo⟩ := hl.same (by omega)
  obtain ⟨hs, hp⟩ := hown (by omega) (eo ▸ ho)
  rw [ecp]
  refine ⟨hs.mono (h.1.log k), ?_⟩
  rw [hs.position_eq (h.1.log k) (hi.real k), ht.1.position_eq (h.1.log k) (hi.real k)]
  exact hp

theorem Token.weaken {s : World} {w : Worker} {k : ShardId} {c : Nat} {a b : Option SequenceNumber}
    (ht : Token s w k c a) (hb : Settled (s.stream.log k) b)
    (hp : position (s.stream.log k) a ≤ position (s.stream.log k) b) : Token s w k c b := by
  refine ⟨hb, ?_⟩
  intro hn
  obtain ⟨r, hr, hc, hown⟩ := ht.2 hn
  refine ⟨r, hr, hc, ?_⟩
  intro e ho
  exact ⟨(hown e ho).1, le_trans (hown e ho).2 hp⟩

theorem ProgressInv.extend {s s' : World} (hi : ProgressInv s) (h : Progress s s') (hs : Sane s')
    (hh : ∀ r ∈ s'.history, r ∈ s.history ∨ BoundedRow r s') (hm : s'.mem = s.mem) : ProgressInv s' where
  sane := hs
  rows r hr := (hh r hr).elim (fun hr => (hi.rows r hr).mono h) id
  pending w k := by
    rw [hm]
    exact hi.pending w k
  pool w it hit := by
    rw [hm] at hit
    exact (hi.pool w it hit).mono h hs

theorem ProgressInv.record {s : World} {e : Event} (hi : ProgressInv s) (ht : ∀ k, e ≠ .trimmed k) :
    ProgressInv (s.record e) ∧ Progress s (s.record e) := by
  have hle : Progress s (s.record e) := Progress.of_table (Extends.record s _) rfl
  exact ⟨hi.extend hle (hi.sane.record ht) (fun r hr => Or.inl hr) rfl, hle⟩

/-! ## Writes -/

theorem keeps_progress {w : Worker} {key : ShardId} {op : DbOp} {s : World}
    (hcp : ∀ o c q, op = .checkpoint o c q → Token s o key c (some q))
    (hcreate : ∀ ps cp, op = .createShardLease ps cp → cp = none ∨ cp = some SENTINEL_LATEST) :
    Keeps progressRely w key op s := by
  intro s₁ h₁ i₁ row ha
  have hx := Extends.write s₁ w key op row
  have hsane : Sane (s₁.write w key op row) := i₁.sane.write ha
  have hnd : NotDeleted (s₁.write w key op row) key → op ≠ .deleteLease := by
    intro hn e
    subst e
    exact hn w row (List.mem_cons_self ..)
  have hle : Progress s₁ (s₁.write w key op row) := by
    refine ⟨hx, ?_⟩
    intro k hn r hr
    by_cases hk : k = key
    · subst hk
      rw [hr] at ha
      obtain ⟨r', rfl, hadv⟩ := DbOp.apply_advance ha (hnd hn)
      refine ⟨r', World.write_table_self .., ?_⟩
      rcases hadv with ⟨hc, hcp', ho⟩ | ⟨hc, hcp'⟩
      · exact ⟨by omega, fun _ => ⟨hcp', ho⟩, by rw [hcp']; exact le_refl _⟩
      · refine ⟨by omega, fun e => by omega, ?_⟩
        rcases hcp' with hcp' | ⟨o, q, rfl, ho, hcp'⟩
        · rw [hcp']
          exact le_refl _
        · obtain ⟨r₁, hr₁, _, hown⟩ := ((hcp o r.leaseCounter q rfl).mono h₁ i₁.sane).2 (hn.anti hx)
          rw [hr] at hr₁
          cases hr₁
          rw [hcp']
          exact (hown rfl ho).2
    · refine ⟨r, ?_, le_refl _, fun _ => ⟨rfl, rfl⟩, le_refl _⟩
      rw [World.write_table_of_ne _ hk]
      exact hr
  refine ⟨i₁.extend hle hsane ?_ rfl, hle⟩
  intro r' hr'
  rcases World.mem_write_history hr' with rfl | hr'
  · right
    obtain ⟨_, hkey⟩ := hsane.held key r' (World.write_table_self ..)
    unfold BoundedRow
    rw [hkey]
    refine ⟨?_, fun _ => ⟨r', World.write_table_self .., le_refl _, fun _ => rfl⟩⟩
    rcases (DbOp.apply_origin ha).1 with h | ⟨r, hr, h⟩ | ⟨o, c, q, rfl, h⟩ | ⟨ps, cp, rfl, h⟩
    · rw [h]
      exact settled_none _
    · obtain ⟨hm, hk⟩ := i₁.sane.held key r hr
      have hset := (i₁.rows r hm).1
      rw [hk] at hset
      rw [h]
      exact hset
    · rw [h]
      exact ((hcp o c q rfl).mono h₁ i₁.sane).1
    · rw [h]
      rcases hcreate ps cp rfl with rfl | rfl
      · exact settled_none _
      · exact Or.inr rfl
  · exact Or.inl hr'

theorem keeps_progress_plain {w : Worker} {key : ShardId} {op : DbOp} {s : World}
    (hcp : ∀ o c q, op ≠ .checkpoint o c q) (hcreate : ∀ ps cp, op ≠ .createShardLease ps cp) :
    Keeps progressRely w key op s :=
  keeps_progress (fun o c q e => absurd e (hcp o c q)) (fun ps cp e => absurd e (hcreate ps cp))

variable {D : Deployment} {K : Contract}

theorem ProgressInv.setMem {s : World} {w : Worker} {m : Memory} (hi : ProgressInv s)
    (hp : ∀ k, m.pending k = none) (hq : ∀ it ∈ m.pool, Token s w it.shard it.counter it.checkpoint) :
    ProgressInv (s.setMem w m) where
  sane := hi.sane.setMem w m
  rows := hi.rows
  pending := World.forall_setMem (Q := fun _ m => ∀ k, m.pending k = none) hi.pending hp
  pool := World.forall_setMem (Q := fun v m => ∀ it ∈ m.pool, Token s v it.shard it.counter it.checkpoint) hi.pool hq

def progressGround (D : Deployment) (K : Contract) : Ground D K where
  L := progressRely
  Row := BoundedRow
  Item w it s := Token s w it.1 it.2.1 it.2.2
  row_up _ _ _ hl _ h := h.mono hl
  item_up _ _ _ _ hl hi h := h.mono hl hi.sane
  env e s s' hi h := by
    obtain ⟨ht, hh, hm, _⟩ := envStep_frame h
    have hle := Progress.of_table (Extends.env h) ht
    exact ⟨hi.extend hle (hi.sane.env h) (fun r hr => Or.inl (hh ▸ hr)) hm, hle⟩
  history _ hi := hi.rows
  item s w r hi hr _ _ _ := by
    refine ⟨hr.1, ?_⟩
    intro hn
    obtain ⟨r', hr', hc, hs⟩ := hr.2 hn
    refine ⟨r', hr', hc, ?_⟩
    intro e _
    rw [hs e]
    exact ⟨hr.1, le_refl _⟩
  pool _ w hi := hi.pool w
  mem s w m hi hp _ hq := by
    refine ⟨hi.setMem (fun k => ?_) hq, Progress.of_table (Extends.setMem s w m) rfl⟩
    cases h : m.pending k with
    | none => rfl
    | some q =>
      have := hp k q h
      rw [hi.pending w k] at this
      cases this
  leader _ _ _ := ⟨keeps_progress_plain nofun nofun, fun _ => keeps_progress_plain nofun nofun,
    fun _ => keeps_progress_plain nofun nofun⟩
  heartbeat _ _ _ := keeps_progress_plain nofun nofun
  take _ _ _ _ _ _ _ := ⟨keeps_progress_plain nofun nofun, fun _ => keeps_progress_plain nofun nofun⟩
  delete _ _ _ _ _ := keeps_progress_plain nofun nofun
  release _ _ _ _ _ _ := keeps_progress_plain nofun nofun
  flush s w r q hi _ _ hq := by
    rw [hi.pending w r.leaseKey] at hq
    cases hq

/-! ## One pass -/

def ReadForward (s : World) (k : ShardId) (a : Option SequenceNumber) (records : List Record) : Prop :=
  ∃ start, position (s.stream.log k) a ≤ start ∧ RunAt (s.stream.log k) start records

section
variable {s s' : World} {w : Worker} {k : ShardId} {c : Nat} {a : Option SequenceNumber} {records : List Record}

theorem ReadForward.mono (h : Progress s s') (hi : Sane s') (ha : Settled (s.stream.log k) a)
    (hr : ReadForward s k a records) : ReadForward s' k a records := by
  obtain ⟨start, hp, hrun⟩ := hr
  refine ⟨start, ?_, hrun.mono (h.1.log k)⟩
  rw [ha.position_eq (h.1.log k) (hi.real k)]
  exact hp

theorem ReadForward.token_mem (hs : Sane s) (hr : ReadForward s k a records) (ht : Token s w k c a)
    {q : SequenceNumber} (hq : q ∈ records.map Record.seq) : Token s w k c (some q) := by
  obtain ⟨start, hp, hrun⟩ := hr
  obtain ⟨hlt, _, hm⟩ := hrun.position_mem (hs.seqs k) hq
  refine ht.weaken (Or.inl ?_) (by omega)
  intro q' e
  cases e
  exact hm

theorem ReadForward.token_last (hs : Sane s) (hr : ReadForward s k a records) (ht : Token s w k c a)
    (hne : records ≠ []) : Token s w k c (lastSeq records) := by
  obtain ⟨start, hp, hrun⟩ := hr
  obtain ⟨he, hk⟩ := hrun.position_last (hs.seqs k) hne
  exact ht.weaken (Or.inl hk) (by omega)

theorem ReadForward.le_last (hs : Sane s) (hr : ReadForward s k a records) {q : SequenceNumber}
    (hq : q ∈ records.map Record.seq) :
    position (s.stream.log k) (some q) ≤ position (s.stream.log k) (lastSeq records) ∧
      Settled (s.stream.log k) (lastSeq records) := by
  obtain ⟨start, _, hrun⟩ := hr
  have hne : records ≠ [] := fun e => by simp [e] at hq
  obtain ⟨_, hle, _⟩ := hrun.position_mem (hs.seqs k) hq
  obtain ⟨he, hk⟩ := hrun.position_last (hs.seqs k) hne
  exact ⟨by omega, Or.inl hk⟩

theorem token_after_checkpoint {q : SequenceNumber} {row : Option Lease}
    (h : DbOp.apply k (.checkpoint w c q) (s.table k) = some row) (hq : Settled (s.stream.log k) (some q)) :
    Token (s.write w k (.checkpoint w c q) row) w k (c + 1) (some q) := by
  obtain ⟨r, hr, _, hc⟩ := DbOp.apply_token (o := w) (c := c) rfl h
  rw [hr] at h
  simp only [DbOp.apply, Option.ite_none_right_eq_some, Option.some.injEq] at h
  obtain ⟨_, rfl⟩ := h
  refine ⟨hq, fun _ => ⟨_, World.write_table_self .., ?_, ?_⟩⟩
  · simp [hc]
  · intro _ _
    exact ⟨hq, le_refl _⟩

end

def progressOutline (hK : K.Forward) (hsrc : D.source = contractSource) (task : ShardTask)
    (hdef : task.deferred = false) : (progressGround D K).Outline task where
  At a c s := Token s task.owner task.shard c a
  Got a c b s := Token s task.owner task.shard c a ∧ ReadForward s task.shard a b.records
  Acked a c b q s := Token s task.owner task.shard c a ∧ ReadForward s task.shard a b.records ∧
    q ∈ b.records.map Record.seq
  Done _ c b s := b.records ≠ [] → Token s task.owner task.shard c (lastSeq b.records)
  at_up _ _ _ _ hl hi h := h.mono hl hi.sane
  acked_up _ _ _ _ _ _ hl hi h := ⟨h.1.mono hl hi.sane, h.2.1.mono hl hi.sane h.1.1, h.2.2⟩
  done_up _ _ _ _ _ hl hi h hb := (h hb).mono hl hi.sane
  resume _ _ hd _ _ _ := by rw [hdef] at hd; cases hd
  read s a c hi h := by
    rw [hsrc]
    refine wp_contractRead hi ?_ ?_
    · intro s₁ start n shardEnd h₁ i₁ hr b hb
      cases hb
      exact ⟨h.mono h₁ i₁.sane, start, hK.start hr, (RunAt.slice (hK.bound hr)).1⟩
    · intro s₁ e b hb
      cases hb
  empty _ _ _ _ _ _ hb hne := absurd hb hne
  deliver s a c b hi h hb := by
    refine wp_deliver ?_
    intro s₁ ans h₁ i₁ hack
    obtain ⟨i₂, hle⟩ : ProgressInv (s₁.record (.delivered task.owner task.shard b.records ans)) ∧ _ :=
      i₁.record nofun
    have htok := (h.1.mono h₁ i₁.sane).mono hle i₂.sane
    have hfwd := (h.2.mono h₁ i₁.sane h.1.1).mono hle i₂.sane (h.1.mono h₁ i₁.sane).1
    refine ⟨i₂, hle, ?_, ?_⟩
    · intro q hq
      exact ⟨htok, hfwd, hK.acks (hack q hq)⟩
    · intro _ hne
      exact hfwd.token_last i₂.sane htok hne
  write s a c b q hi h := by
    have htok := h.2.1.token_mem hi.sane h.1 h.2.2
    refine ⟨keeps_progress ?_ nofun, ?_⟩
    · intro o c' q' e
      cases e
      exact htok
    · intro s₁ row h₁ i₁ ha _
      have hset : Settled (s₁.stream.log task.shard) (some q) := (htok.mono h₁ i₁.sane).1
      have hfwd := h.2.1.mono h₁ i₁.sane h.1.1
      obtain ⟨hp, hs⟩ := hfwd.le_last i₁.sane h.2.2
      exact (token_after_checkpoint ha hset).weaken hs hp
  defer _ _ _ _ _ _ _ hd := by rw [hdef] at hd; cases hd
  deferred _ _ _ _ _ hd := by rw [hdef] at hd; cases hd
  next _ _ _ _ _ h hb _ := h hb
  flush _ _ _ _ _ hd := by rw [hdef] at hd; cases hd
  complete _ _ _ _ _ _ _ := keeps_progress_plain nofun nofun

def progressProtocol (hK : K.Forward) (hsrc : D.source = contractSource) (hdef : ∀ w, (D.config w).deferred = false) :
    Protocol D K where
  toGround := progressGround D K
  sync s w rows hi _ := by
    refine (progressGround D K).wp_leaderShardSync ((progressGround D K).describes_of_contract hsrc) hi ⟨?_, ?_, ?_, ?_⟩
    · intro _ _ _ _ _ _
      refine keeps_progress nofun ?_
      intro ps cp e
      cases e
      exact seedCheckpoint_cases _
    · intro _ _ _ _ i₁
      exact i₁.record nofun
    · intro _ _ _ _ _ _ _ _
      refine keeps_progress nofun ?_
      intro ps cp e
      cases e
      exact childCp_cases _ _
    · intro _ _ _ _ _ _
      refine keeps_progress nofun ?_
      intro ps cp e
      cases e
      exact childCp_cases _ _
  pass s w it hi h := (progressGround D K).wp_runPass (progressOutline hK hsrc _ (hdef w)) hi h

theorem ProgressInv.init (D : Deployment) : ProgressInv D.init where
  sane := Sane.init D
  rows r hr := by cases hr
  pending w k := Protocol.pending_init (D.config w) k
  pool w it hit := by cases hit

/-- Durable progress never moves backwards: between two states of one run of a fleet that checkpoints
every batch, the position of a lease row that is not deleted does not decrease. -/
theorem durable_progress_monotone (hK : K.Forward) (hsrc : D.source = contractSource)
    (hdef : ∀ w, (D.config w).deferred = false) {p q : FleetPool} (hp : D.Reachable K p)
    (hpq : p.Reaches (D.machine K) q) {k : ShardId} (hn : NotDeleted q.world k) {r : Lease}
    (hr : p.world.table k = some r) :
    ∃ r', q.world.table k = some r' ∧
      position (p.world.stream.log k) r.checkpoint ≤ position (q.world.stream.log k) r'.checkpoint := by
  have hle : Progress p.world q.world := (progressProtocol hK hsrc hdef).le_of_reaches (ProgressInv.init D) hp hpq
  obtain ⟨r', hr', hl⟩ := hle.2 k hn r hr
  exact ⟨r', hr', hl.forward⟩

theorem exactContract_forward : exactContract.Forward where
  start h := by
    simp only [exactContract, Bool.and_eq_true, beq_iff_eq] at h
    exact le_of_eq h.1.1.symm
  bound h := by
    simp only [exactContract, Bool.and_eq_true, decide_eq_true_eq] at h
    exact h.1.2
  acks h := by
    simpa [exactContract] using h

def firstCycle : FleetPool :=
  plainFleet.perform exactContract World.serve "a" .cycle 60
    (plainFleet.envs exactContract [.appear ⟨"shard-0", []⟩, .append "shard-0" ⟨"shard-0", "1", []⟩]
      (Pool.idle plainFleet.init))

def secondCycle : FleetPool :=
  plainFleet.perform exactContract World.serve "a" .cycle 60
    (plainFleet.envs exactContract [.append "shard-0" ⟨"shard-0", "2", []⟩] firstCycle)

theorem notDeleted_of_all {s : World} {k : ShardId} (h : s.trace.all (fun e => !e.deletes k) = true) :
    NotDeleted s k := by
  intro w row he
  have := List.all_eq_true.mp h _ he
  simp [Event.deletes] at this

theorem durable_progress_monotone_cycles :
    firstCycle.world.table "shard-0" = some ⟨"shard-0", some "a", 2, false, some "1", []⟩ ∧
      ∃ r', secondCycle.world.table "shard-0" = some r' ∧
        position (firstCycle.world.stream.log "shard-0") (some "1") ≤
          position (secondCycle.world.stream.log "shard-0") r'.checkpoint := by
  have hrow : firstCycle.world.table "shard-0" = some ⟨"shard-0", some "a", 2, false, some "1", []⟩ := by
    decide +kernel
  have hreach : plainFleet.Reachable exactContract firstCycle :=
    Deployment.reachable_perform (Deployment.reachable_envs (Deployment.reachable_idle _ _))
  have hnext : firstCycle.Reaches (plainFleet.machine exactContract) secondCycle :=
    Deployment.reaches_perform (Deployment.reaches_envs firstCycle)
  have hn : NotDeleted secondCycle.world "shard-0" := notDeleted_of_all (by decide +kernel)
  exact ⟨hrow, durable_progress_monotone exactContract_forward rfl (fun _ => rfl) hreach hnext hn hrow⟩

end StreamsConsumer
