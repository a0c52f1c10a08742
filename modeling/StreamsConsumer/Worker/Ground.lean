import StreamsConsumer.Worker.Rules
import Mathlib.Data.List.Dedup

/-!
# The ground of a protocol

What the rows of a scan, the queued passes and the memories are known to
satisfy, and which writes keep the invariant. The two programs that decide what
is written to shard rows, the shard sync and the pass over a shard, are walked
through here once, for any such ground.
-/

namespace StreamsConsumer
open Conc

structure Ground (D : Deployment) (K : Contract) where
  L : Rely World
  Row : Lease → World → Prop
  /-- What is known of a shard, counter and checkpoint that a pass starts from. -/
  Item : Worker → ShardId × Nat × Option SequenceNumber → World → Prop
  row_up : ∀ r, L.Up (Row r)
  item_up : ∀ w it, L.Up (Item w it)
  env : ∀ e s s', L.Inv s → envStep e s = some s' → L.Inv s' ∧ L.le s s'
  history : ∀ s, L.Inv s → ∀ r ∈ s.history, Row r s
  item : ∀ s w r, L.Inv s → Row r s → r.owner = some w → r.completed = false → isShardKey r.leaseKey = true →
    Item w (r.leaseKey, r.leaseCounter, r.checkpoint) s
  pool : ∀ s w, L.Inv s → ∀ it ∈ (s.mem w).pool, Item w (it.shard, it.counter, it.checkpoint) s
  mem : ∀ s w m, L.Inv s → (∀ k q, m.pending k = some q → (s.mem w).pending k = some q) →
    (m.cursors = (s.mem w).cursors ∨ m.cursors = fun _ => none) →
    (∀ it ∈ m.pool, Item w (it.shard, it.counter, it.checkpoint) s) →
    L.Inv (s.setMem w m) ∧ L.le s (s.setMem w m)
  leader : ∀ s w, L.Inv s → Keeps L w LEADER_LEASE_KEY (.put w) s ∧
    (∀ c, Keeps L w LEADER_LEASE_KEY (.claim w c) s) ∧ ∀ c, Keeps L w LEADER_LEASE_KEY (.renew w c) s
  heartbeat : ∀ s w, L.Inv s → Keeps L w (heartbeatKey w) (.heartbeat w) s
  take : ∀ s w r, L.Inv s → Row r s → r.completed = false → isShardKey r.leaseKey = true →
    Keeps L w r.leaseKey (.put w) s ∧ ∀ c, Keeps L w r.leaseKey (.claim w c) s
  delete : ∀ s w key, L.Inv s → isShardKey key = true → Keeps L w key .deleteLease s
  release : ∀ s w r c, L.Inv s → Row r s → Keeps L w r.leaseKey (.release w c) s
  flush : ∀ s w r q, L.Inv s → Row r s → r.owner = some w → (s.mem w).pending r.leaseKey = some q →
    Keeps L w r.leaseKey (.checkpoint w r.leaseCounter q) s

namespace Ground

variable {D : Deployment} {K : Contract} (P : Ground D K) {w : Worker} {s : World}

theorem rows_up {rows : List Lease} {s s' : World} (hl : P.L.le s s') (hi : P.L.Inv s')
    (h : ∀ r ∈ rows, P.Row r s) : ∀ r ∈ rows, P.Row r s' :=
  fun r hr => P.row_up r s s' hl hi (h r hr)

/-! ## Memory -/

theorem wp_access {β : Type} {f : Memory → β × Memory}
    (hp : ∀ m k q, (f m).2.pending k = some q → m.pending k = some q) (hc : ∀ m, (f m).2.cursors = m.cursors)
    (hq : ∀ m, ∀ it ∈ (f m).2.pool, it ∈ m.pool) :
    wp (handler K) P.L w (accessMem f) (fun _ _ => True) s := by
  refine wp_accessMem fun s₁ _ i₁ => ?_
  have h := P.mem s₁ w (f (s₁.mem w)).2 i₁ (hp _) (Or.inl (hc _))
    (fun it hit => P.pool s₁ w i₁ it (hq _ it hit))
  exact ⟨h.1, h.2, trivial⟩

theorem pending_retain {m : Memory} {owned : List ShardId} {k : ShardId} {q : SequenceNumber}
    (h : ({ m with ckptDefer := m.ckptDefer.map fun d => d.retain owned } : Memory).pending k = some q) :
    m.pending k = some q := by
  unfold Memory.pending at h ⊢
  cases hd : m.ckptDefer with
  | none => simp [hd] at h
  | some d =>
    simp only [hd, Option.map_some, Option.bind_some] at h ⊢
    exact CkptDefer.resumeFrom_retain h

theorem pending_takePending {m : Memory} {d : CkptDefer} {shard k : ShardId} {q : SequenceNumber}
    (hd : m.ckptDefer = some d)
    (h : ({ m with ckptDefer := some (d.takePending shard).2 } : Memory).pending k = some q) :
    m.pending k = some q := by
  unfold Memory.pending at h ⊢
  simp only [hd, Option.bind_some] at h ⊢
  exact CkptDefer.resumeFrom_takePending h

theorem pending_forget {m : Memory} {d : CkptDefer} {shard k : ShardId} {q : SequenceNumber}
    (hd : m.ckptDefer = some d) (h : ({ m with ckptDefer := some (d.forget shard) } : Memory).pending k = some q) :
    m.pending k = some q := by
  unfold Memory.pending at h ⊢
  simp only [hd, Option.bind_some] at h ⊢
  exact CkptDefer.resumeFrom_forget h

theorem pending_recordAck {m : Memory} {d : CkptDefer} {shard k : ShardId} {ack q : SequenceNumber} {t : Nat}
    (hd : m.ckptDefer = some d)
    (h : ({ m with ckptDefer := some (d.recordAck shard ack t).2 } : Memory).pending k = some q) :
    k = shard ∧ q = ack ∨ m.pending k = some q := by
  unfold Memory.pending at h ⊢
  simp only [hd, Option.bind_some, CkptDefer.resumeFrom_recordAck] at h ⊢
  split at h
  · rename_i he
    exact Or.inl ⟨he, (Option.some.inj h).symm⟩
  · exact Or.inr h

theorem wp_forgetPending (shard : ShardId) :
    wp (handler K) P.L w (forgetPending shard) (fun _ _ => True) s := by
  refine P.wp_access ?_ ?_ ?_
  · intro m k q h
    cases hd : m.ckptDefer with
    | none => simpa [hd] using h
    | some d => simp only [hd] at h; exact pending_forget hd h
  · intro m
    cases hd : m.ckptDefer <;> simp
  · intro m it h
    cases hd : m.ckptDefer <;> simpa [hd] using h

theorem wp_takePending (shard : ShardId) {Q : Option SequenceNumber → World → Prop} (hQ : ∀ a, P.L.Up (Q a))
    (h : ∀ s₁, P.L.le s s₁ → P.L.Inv s₁ → Q ((s₁.mem w).pending shard) s₁) :
    wp (handler K) P.L w (withDefer none fun d => d.takePending shard) Q s := by
  refine wp_accessMem fun s₁ h₁ i₁ => ?_
  have hq := h s₁ h₁ i₁
  cases hd : (s₁.mem w).ckptDefer with
  | none =>
    simp only [Memory.pending, hd, Option.bind_none] at hq
    simpa [hd, setMem_self] using ⟨i₁, P.L.refl _, hq⟩
  | some d =>
    have hm := P.mem s₁ w { s₁.mem w with ckptDefer := some (d.takePending shard).2 } i₁
      (fun _ _ h => pending_takePending hd h) (Or.inl rfl) (P.pool s₁ w i₁)
    simp only [Memory.pending, hd, Option.bind_some] at hq
    refine ⟨by simpa [hd] using hm.1, by simpa [hd] using hm.2, ?_⟩
    simp only [CkptDefer.takePending_fst]
    exact hQ _ _ _ (by simpa [hd] using hm.2) (by simpa [hd] using hm.1) hq

/-! ## Shard sync -/

theorem wp_publish (hi : P.L.Inv s) {m : ShardMeta} {cp : Option SequenceNumber}
    (hk : Keeps P.L w m.id (.createShardLease m.parents cp) s) :
    wp (handler K) P.L w (publish (D.fleet w) m cp) (fun _ _ => True) s := by
  refine wp_seq hi (wp_createShardLease hi hk) ?_
  intro _ _ _ _ _
  trivial

theorem wp_publishAll (hi : P.L.Inv s) {ms : List ShardMeta} {f : ShardMeta → Fx Unit}
    (hf : ∀ m ∈ ms, ∀ s₁, P.L.le s s₁ → P.L.Inv s₁ → wp (handler K) P.L w (f m) (fun _ _ => True) s₁) :
    wp (handler K) P.L w (Prog.each f ms) (fun _ _ => True) s := by
  have hle : P.L.Up (P.L.le s) := fun _ _ hl _ h => P.L.trans h hl
  refine wp_mono _ (fun _ _ _ _ => trivial) hi (wp_each (J := P.L.le s) ?_ hi (P.L.refl _))
  intro m hm s₁ i₁ h₁
  exact wp_mono _ (fun _ _ _ h => h.2) i₁ (wp_frame hle _ i₁ h₁ (hf m hm s₁ h₁ i₁))

def Lists (P : Ground D K) (w : Worker) (p : ShardId) (s : World) : Prop :=
  ∀ s₁, P.L.le s s₁ → P.L.Inv s₁ → P.L.Inv (s₁.record (.listed w p (s₁.stream.children p))) ∧
    P.L.le s₁ (s₁.record (.listed w p (s₁.stream.children p)))

def Describes (P : Ground D K) : Prop :=
  ∀ w s, P.L.Inv s →
    wp (handler K) P.L w D.source.describeShards (fun r s' => ∀ ms, r = .ok ms → ms = s'.stream.describe) s ∧
    ∀ p, P.Lists w p s → wp (handler K) P.L w (D.source.describeChildShards p)
      (fun r s' => ∀ ms, r = .ok ms → ms = s'.stream.children p ∧ Event.listed w p ms ∈ s'.trace) s

theorem describes_of_eq (hs : D.source.describeShards = contractSource.describeShards)
    (hc : D.source.describeChildShards = contractSource.describeChildShards) : P.Describes := by
  intro w s hi
  rw [hs, hc]
  constructor
  · refine wp_bind _ _ hi ?_
    intro s₁ _ i₁ c a s₂ he
    obtain ⟨rfl, hb⟩ := execRead_eq he
    refine ⟨i₁, P.L.refl _, ?_⟩
    intro ms e
    exact hb ms (mapError_eq_ok e)
  · intro p hp
    refine wp_bind _ _ hi ?_
    intro s₁ h₁ i₁ c a s₂ he
    rcases execChildShards_cases he with ⟨rfl, e, rfl⟩ | ⟨rfl, rfl⟩
    · refine ⟨i₁, P.L.refl _, ?_⟩
      intro ms e
      cases e
    · obtain ⟨i₂, h₂⟩ := hp s₁ h₁ i₁
      refine ⟨i₂, h₂, ?_⟩
      intro ms e
      cases e
      exact ⟨rfl, List.mem_cons_self ..⟩

theorem describes_of_contract (hsrc : D.source = contractSource) : P.Describes :=
  P.describes_of_eq (by rw [hsrc]) (by rw [hsrc])

/-- The rows that a shard sync on the scan `rows` may create, path by path. -/
structure Publishes (P : Ground D K) (w : Worker) (rows : List Lease) (s : World) : Prop where
  seed : ∀ s₁ m, P.L.le s s₁ → P.L.Inv s₁ → m ∈ s₁.stream.describe →
    publishable (completedKeys rows) (rows.map Lease.leaseKey) m = true →
    Keeps P.L w m.id (.createShardLease m.parents (D.config w).initialPosition.seedCheckpoint) s₁
  lists : ∀ p ∈ completedKeys rows, P.Lists w p s
  child : ∀ s₁ p c, P.L.le s s₁ → P.L.Inv s₁ → Event.listed w p (s₁.stream.children p) ∈ s₁.trace →
    c ∈ s₁.stream.children p → c.id ∉ rows.map Lease.leaseKey → Keeps P.L w c.id (.createShardLease c.parents (childCp rows c.parents)) s₁
  fallback : ∀ s₁ m, P.L.le s s₁ → P.L.Inv s₁ → m ∈ s₁.stream.describe →
    publishable (completedKeys rows) (rows.map Lease.leaseKey) m = true →
    Keeps P.L w m.id (.createShardLease m.parents (childCp rows m.parents)) s₁

theorem Publishes.up {rows : List Lease} {s₁ : World} (h : P.Publishes w rows s) (hl : P.L.le s s₁) :
    P.Publishes w rows s₁ where
  seed s₂ m h₂ := h.seed s₂ m (P.L.trans hl h₂)
  lists p hp s₂ h₂ := h.lists p hp s₂ (P.L.trans hl h₂)
  child s₂ p c h₂ := h.child s₂ p c (P.L.trans hl h₂)
  fallback s₂ m h₂ := h.fallback s₂ m (P.L.trans hl h₂)

theorem wp_syncParent (hd : P.Describes) (hi : P.L.Inv s) {rows : List Lease} {p : ShardId}
    (hp : p ∈ completedKeys rows) (h : P.Publishes w rows s) :
    wp (handler K) P.L w (syncParent (D.fleet w) rows (completedKeys rows) (rows.map Lease.leaseKey) p)
      (fun _ _ => True) s := by
  unfold syncParent
  refine wp_seq hi (wp_metric _) ?_
  intro _ s₁ h₁ i₁ _
  refine wp_seq i₁ ((hd w s₁ i₁).2 p ((h.up P h₁).lists p hp)) ?_
  intro r s₂ h₂ i₂ hr
  cases r with
  | ok children =>
    obtain ⟨rfl, hlisted⟩ := hr children rfl
    refine wp_seq i₂ (P := fun _ _ => True) (P.wp_publishAll i₂ ?_) (fun _ _ _ _ _ => trivial)
    intro c hc s₃ h₃ i₃
    split
    · trivial
    · rename_i hne
      have hk := h.child s₂ p c (P.L.trans h₁ h₂) i₂ hlisted hc (by simpa using hne)
      exact P.wp_publish i₃ (hk.up s₂ s₃ h₃ i₃)
  | error e =>
    refine wp_seq i₂ (wp_metric _) ?_
    intro _ s₃ h₃ i₃ _
    refine wp_seq i₃ ((hd w s₃ i₃).1) ?_
    intro r s₄ h₄ i₄ hr
    cases r with
    | error e => trivial
    | ok metas =>
      obtain rfl := hr metas rfl
      have hle := P.L.trans h₁ (P.L.trans h₂ (P.L.trans h₃ h₄))
      refine wp_seq i₄ (P := fun _ _ => True) (P.wp_publishAll i₄ ?_) (fun _ _ _ _ _ => trivial)
      intro m hm s₅ h₅ i₅
      split
      · rename_i hpub
        exact P.wp_publish i₅ ((h.fallback s₄ m hle i₄ hm hpub).up s₄ s₅ h₅ i₅)
      · trivial

theorem wp_syncParents (hd : P.Describes) {rows : List Lease} {skip : List ShardId} :
    ∀ {ps : List ShardId} {s : World}, P.L.Inv s → (∀ p ∈ ps, p ∈ completedKeys rows) → P.Publishes w rows s →
      wp (handler K) P.L w (syncParents (D.fleet w) rows (completedKeys rows) (rows.map Lease.leaseKey) skip ps)
        (fun _ _ => True) s
  | [], _, _, _, _ => trivial
  | p :: ps, s, hi, hps, h => by
    have hrest := fun q hq => hps q (List.mem_cons_of_mem _ hq)
    unfold syncParents
    split
    · exact wp_syncParents hd hi hrest h
    · refine wp_seq hi (P.wp_syncParent hd hi (hps p (by simp)) h) ?_
      intro _ s₁ h₁ i₁ _
      refine wp_seq i₁ (wp_syncParents hd i₁ hrest (h.up P h₁)) ?_
      intro _ _ _ _ _
      trivial

theorem wp_leaderShardSync (hd : P.Describes) (hi : P.L.Inv s) {rows : List Lease} (h : P.Publishes w rows s) :
    wp (handler K) P.L w (leaderShardSync (D.fleet w) rows) (fun _ _ => True) s := by
  unfold leaderShardSync
  refine wp_seq hi (wp_readMem (Q := fun _ _ => True) fun _ _ _ => trivial) ?_
  intro sync s₁ h₁ i₁ _
  split
  · refine wp_seq i₁ wp_hashOrder ?_
    intro order s₂ h₂ i₂ _
    refine wp_seq i₂ (P.wp_syncParents hd i₂ ?_ (h.up P (P.L.trans h₁ h₂))) ?_
    · intro p hp
      exact List.mem_dedup.mp (mem_of_mem_hashIter hp)
    intro _ s₃ _ i₃ _
    refine wp_seq i₃ (P.wp_access (fun _ _ _ h => h) (fun _ => rfl) (fun _ _ h => h)) ?_
    intro _ _ _ _ _
    trivial
  · refine wp_seq i₁ (wp_metric _) ?_
    intro _ s₂ h₂ i₂ _
    refine wp_attempt i₂ ((hd w s₂ i₂).1) ?_
    intro metas s₃ h₃ i₃ hm
    obtain rfl := hm metas rfl
    refine wp_seq i₃ (P := fun _ _ => True) (P.wp_publishAll i₃ ?_) ?_
    · intro m hm s₄ h₄ i₄
      split
      · rename_i hpub
        have hle := P.L.trans h₁ (P.L.trans h₂ h₃)
        exact P.wp_publish i₄ ((h.seed s₃ m hle i₃ hm hpub).up s₃ s₄ h₄ i₄)
      · trivial
    · intro _ s₄ _ i₄ _
      refine wp_seq i₄ (P.wp_access (fun _ _ _ h => h) (fun _ => rfl) (fun _ _ h => h)) ?_
      intro _ _ _ _ _
      trivial

/-! ## One pass over a shard -/

/-- A proof outline of a pass: what is known before a read (`At`), of a batch that was read (`Got`), of a
batch whose ack is not written yet (`Acked`), and of a batch that is dealt with (`Done`). -/
structure Outline (P : Ground D K) (task : ShardTask) where
  At : Option SequenceNumber → Nat → World → Prop
  Got : Option SequenceNumber → Nat → RecordBatch → World → Prop
  Acked : Option SequenceNumber → Nat → RecordBatch → SequenceNumber → World → Prop
  Done : Option SequenceNumber → Nat → RecordBatch → World → Prop
  at_up : ∀ a c, P.L.Up (At a c)
  acked_up : ∀ a c b q, P.L.Up (Acked a c b q)
  done_up : ∀ a c b, P.L.Up (Done a c b)
  resume : ∀ s q, task.deferred = true → P.L.Inv s → At task.checkpoint task.counter s →
    (s.mem task.owner).pending task.shard = some q → At (some q) task.counter s
  read : ∀ s a c, P.L.Inv s → At a c s →
    wp (handler K) P.L task.owner (D.source.getRecords task.shard a) (fun r s' => ∀ b, r = .ok b → Got a c b s') s
  empty : ∀ s a c b, P.L.Inv s → Got a c b s → b.records = [] → Done a c b s
  deliver : ∀ s a c b, P.L.Inv s → Got a c b s → b.records ≠ [] →
    wp (handler K) P.L task.owner (deliver task.shard b.records)
      (fun r s' => (∀ q, r = .ok (some q) → Acked a c b q s') ∧ (r = .ok none → Done a c b s')) s
  write : ∀ s a c b q, P.L.Inv s → Acked a c b q s →
    Keeps P.L task.owner task.shard (.checkpoint task.owner c q) s ∧
    ∀ s₁ row, P.L.le s s₁ → P.L.Inv s₁ →
      DbOp.apply task.shard (.checkpoint task.owner c q) (s₁.table task.shard) = some row →
      Done a (c + 1) b (s₁.write task.owner task.shard (.checkpoint task.owner c q) row)
  defer : ∀ s a c b q d t, task.deferred = true → P.L.Inv s → Acked a c b q s →
    (s.mem task.owner).ckptDefer = some d →
    P.L.Inv (s.setMem task.owner { s.mem task.owner with ckptDefer := some (d.recordAck task.shard q t).2 }) ∧
    P.L.le s (s.setMem task.owner { s.mem task.owner with ckptDefer := some (d.recordAck task.shard q t).2 })
  deferred : ∀ s a c b q, task.deferred = true → P.L.Inv s → Acked a c b q s → Done a c b s
  next : ∀ s a c b, P.L.Inv s → Done a c b s → b.records ≠ [] → b.shardEnd = false →
    At (lastSeq b.records) c s
  flush : ∀ s a c b q, task.deferred = true → P.L.Inv s → Done a c b s → b.shardEnd = true →
    (s.mem task.owner).pending task.shard = some q →
    Keeps P.L task.owner task.shard (.checkpoint task.owner c q) s ∧
    ∀ s₁ row, P.L.le s s₁ → P.L.Inv s₁ →
      DbOp.apply task.shard (.checkpoint task.owner c q) (s₁.table task.shard) = some row →
      Done a (c + 1) b (s₁.write task.owner task.shard (.checkpoint task.owner c q) row)
  complete : ∀ s a c b, P.L.Inv s → Done a c b s → b.shardEnd = true →
    Keeps P.L task.owner task.shard (.markComplete task.owner c) s

namespace Outline

variable {P : Ground D K} {task : ShardTask} (O : P.Outline task)

theorem wp_resumePosition (hi : P.L.Inv s) (h : O.At task.checkpoint task.counter s) :
    wp (handler K) P.L task.owner (resumePosition task) (fun a s' => O.At a task.counter s') s := by
  unfold resumePosition
  split
  · rename_i hdef
    have hread : wp (handler K) P.L task.owner (withDefer none fun d => (d.resumeFrom task.shard, d))
        (fun r s' => r = (s'.mem task.owner).pending task.shard) s := by
      refine wp_accessMem fun s₁ _ i₁ => ?_
      unfold Memory.pending
      cases hd : (s₁.mem task.owner).ckptDefer with
      | none => simp [setMem_self, i₁, P.L.refl, hd]
      | some d =>
        have hm : ({ s₁.mem task.owner with ckptDefer := some d } : Memory) = s₁.mem task.owner := by
          rw [← hd]
        simp [hm, setMem_self, i₁, P.L.refl, hd]
    refine wp_seq hi hread ?_
    intro r s₁ h₁ i₁ hr
    have hat := O.at_up _ _ s s₁ h₁ i₁ h
    cases hp : r with
    | none => exact hat
    | some q => exact O.resume s₁ q hdef i₁ hat (hr ▸ hp)
  · exact h

theorem wp_giveUp {α : Type} (hi : P.L.Inv s) (a : α) {Q : α → World → Prop} (hQ : ∀ s', Q a s') :
    wp (handler K) P.L w ((forgetPending task.shard).bind fun _ => (lostLease task.shard).bind fun _ =>
      (.ret a : Fx α)) Q s := by
  refine wp_seq hi (P.wp_forgetPending _) ?_
  intro _ s₁ _ i₁ _
  refine wp_seq i₁ (wp_lostLease i₁ _) ?_
  intro _ s₂ _ _ _
  exact hQ s₂

theorem wp_persisted (shard : ShardId) (t : Nat) :
    wp (handler K) P.L w (withDefer () fun d => ((), d.persisted shard t)) (fun _ _ => True) s := by
  refine P.wp_access ?_ ?_ ?_
  · intro m k q h
    cases hd : m.ckptDefer with
    | none => simpa [hd] using h
    | some d =>
      simp only [hd, Memory.pending, Option.bind_some] at h ⊢
      exact CkptDefer.resumeFrom_persisted h
  · intro m
    cases hd : m.ckptDefer <;> simp
  · intro m it h
    cases hd : m.ckptDefer <;> simpa [hd] using h

theorem wp_persistAck (hi : P.L.Inv s) {a : Option SequenceNumber} {c : Nat} {b : RecordBatch}
    {q : SequenceNumber} (h : O.Acked a c b q s) :
    wp (handler K) P.L task.owner (persistAck dynamoDbLeaseStore task c q)
      (fun r s' => ∀ c', r = some c' → O.Done a c' b s') s := by
  have hlost : ∀ c' s', (none : Option Nat) = some c' → O.Done a c' b s' := fun _ _ e => by cases e
  unfold persistAck
  split
  · rename_i hdef
    refine wp_seq hi wp_now ?_
    intro t s₁ h₁ i₁ _
    have hrec : wp (handler K) P.L task.owner (withDefer none fun d => d.recordAck task.shard q t)
        (fun r _ => ∀ due, r = some due → due = q) s₁ := by
      refine wp_accessMem fun s₂ h₂ i₂ => ?_
      cases hd : (s₂.mem task.owner).ckptDefer with
      | none => simpa [setMem_self] using ⟨i₂, P.L.refl _⟩
      | some d =>
        have hm := O.defer s₂ a c b q d t hdef i₂ (O.acked_up _ _ _ _ s s₂ (P.L.trans h₁ h₂) i₂ h) hd
        exact ⟨hm.1, hm.2, fun due hdue => CkptDefer.recordAck_due hdue⟩
    refine wp_seq i₁ hrec ?_
    intro r s₂ h₂ i₂ hr
    have hack := O.acked_up _ _ _ _ s s₂ (P.L.trans h₁ h₂) i₂ h
    cases r with
    | none =>
      intro c' e
      cases e
      exact O.deferred s₂ a c b q hdef i₂ hack
    | some due =>
      obtain rfl := hr due rfl
      obtain ⟨hk, hok⟩ := O.write s₂ a c b due i₂ hack
      refine wp_seq i₂ (wp_checkpoint (O.done_up _ _ _) i₂ hk hok) ?_
      intro r s₃ _ i₃ hr
      cases r with
      | error e => exact wp_giveUp i₃ none fun s' c' => hlost c' s'
      | ok c' =>
        obtain ⟨rfl, hdone⟩ := hr c' rfl
        refine wp_seq i₃ (wp_persisted _ _) ?_
        intro _ s₄ h₄ i₄ _ c' e
        cases e
        exact O.done_up _ _ _ s₃ s₄ h₄ i₄ hdone
  · obtain ⟨hk, hok⟩ := O.write s a c b q hi h
    refine wp_seq hi (wp_checkpoint (O.done_up _ _ _) hi hk hok) ?_
    intro r s₁ _ i₁ hr
    cases r with
    | error e =>
      refine wp_seq i₁ (wp_lostLease i₁ _) ?_
      intro _ s₂ _ _ _
      exact fun c' => hlost c' s₂
    | ok c' =>
      obtain ⟨rfl, hdone⟩ := hr c' rfl
      intro c' e
      cases e
      exact hdone

theorem wp_deliverRecords (hi : P.L.Inv s) {a : Option SequenceNumber} {c : Nat} {b : RecordBatch}
    (h : O.Got a c b s) (hb : b.records ≠ []) :
    wp (handler K) P.L task.owner (deliverRecords dynamoDbLeaseStore task c b.records)
      (fun r s' => ∀ c', r = some c' → O.Done a c' b s') s := by
  unfold deliverRecords
  refine wp_seq hi (O.deliver s a c b hi h hb) ?_
  intro r s₁ _ i₁ hr
  match r, hr with
  | .ok (some q), hr => exact O.wp_persistAck i₁ (hr.1 q rfl)
  | .ok none, hr =>
    intro c' e
    cases e
    exact hr.2 rfl
  | .error e, _ =>
    have hret : ∀ s', wp (handler K) P.L task.owner (.ret none : Fx (Option Nat))
        (fun r s' => ∀ c', r = some c' → O.Done a c' b s') s' := fun _ _ e => by cases e
    simp only [Prog.pure_eq, Prog.bind_eq]
    split
    · refine wp_seq i₁ (P.wp_forgetPending _) ?_
      intro _ s₂ _ _ _
      exact hret s₂
    · exact hret s₁

theorem wp_completeShard (hi : P.L.Inv s) {a : Option SequenceNumber} {c : Nat} {b : RecordBatch}
    (h : O.Done a c b s) (hb : b.shardEnd = true) :
    wp (handler K) P.L task.owner (completeShard dynamoDbLeaseStore task c) (fun _ _ => True) s := by
  unfold completeShard
  refine wp_seq hi (wp_harmless (harmless_shardEnded _)) ?_
  intro _ s₁ h₁ i₁ _
  refine wp_seq i₁ (wp_markComplete i₁ (O.complete s₁ a c b i₁ (O.done_up _ _ _ s s₁ h₁ i₁ h) hb)) ?_
  intro _ s₂ _ i₂ _
  refine wp_seq i₂ (wp_metric _) ?_
  intro _ _ _ _ _
  trivial

theorem wp_endShard (hi : P.L.Inv s) {a : Option SequenceNumber} {c : Nat} {b : RecordBatch}
    (h : O.Done a c b s) (hb : b.shardEnd = true) :
    wp (handler K) P.L task.owner (endShard dynamoDbLeaseStore task c) (fun _ _ => True) s := by
  have hfin : ∀ c' s₁, P.L.Inv s₁ → O.Done a c' b s₁ → wp (handler K) P.L task.owner
      ((forgetPending task.shard).bind fun _ => completeShard dynamoDbLeaseStore task c') (fun _ _ => True) s₁ := by
    intro c' s₁ i₁ hd
    refine wp_seq i₁ (P.wp_forgetPending _) ?_
    intro _ s₂ h₂ i₂ _
    exact O.wp_completeShard i₂ (O.done_up _ _ _ s₁ s₂ h₂ i₂ hd) hb
  unfold endShard
  split
  · rename_i hdef
    refine wp_seq hi (P.wp_takePending task.shard
      (Q := fun r s' => ∀ q, r = some q → Keeps P.L task.owner task.shard (.checkpoint task.owner c q) s' ∧
        ∀ s₁ row, P.L.le s' s₁ → P.L.Inv s₁ →
          DbOp.apply task.shard (.checkpoint task.owner c q) (s₁.table task.shard) = some row →
          O.Done a (c + 1) b (s₁.write task.owner task.shard (.checkpoint task.owner c q) row)) ?_ ?_) ?_
    · intro r s₁ s₂ hl i₂ h q hq
      exact ⟨(h q hq).1.up s₁ s₂ hl i₂, fun s₃ row h₃ => (h q hq).2 s₃ row (P.L.trans hl h₃)⟩
    · intro s₁ h₁ i₁ q hq
      exact O.flush s₁ a c b q hdef i₁ (O.done_up _ _ _ s s₁ h₁ i₁ h) hb hq
    intro r s₁ h₁ i₁ hr
    cases r with
    | none => exact hfin c s₁ i₁ (O.done_up _ _ _ s s₁ h₁ i₁ h)
    | some q =>
      obtain ⟨hk, hok⟩ := hr q rfl
      refine wp_seq i₁ (wp_checkpoint (O.done_up _ _ _) i₁ hk hok) ?_
      intro r s₂ _ i₂ hr
      cases r with
      | error e => exact wp_giveUp i₂ _ fun _ => trivial
      | ok c' =>
        obtain ⟨rfl, hdone⟩ := hr c' rfl
        exact hfin _ s₂ i₂ hdone
  · exact O.wp_completeShard hi h hb

theorem wp_passBody (st : PassState) (hi : P.L.Inv s) (h : O.At st.after st.counter s) :
    wp (handler K) P.L task.owner (passBody D.source dynamoDbLeaseStore task st)
      (Sum.elim (fun st s' => O.At st.after st.counter s') fun _ _ => True) s := by
  unfold passBody
  refine wp_seq hi (O.read s st.after st.counter hi h) ?_
  intro r s₁ _ i₁ hr
  cases r with
  | error e => trivial
  | ok b =>
    have hgot := hr b rfl
    have hend : ∀ c s₂, P.L.Inv s₂ → O.Done st.after c b s₂ → b.shardEnd = true → wp (handler K) P.L task.owner
        ((endShard dynamoDbLeaseStore task c).bind fun o =>
          (.ret (.inr (.ok o)) : Fx (PassState ⊕ Except WorkerError PassOutcome)))
        (Sum.elim (fun st s' => O.At st.after st.counter s') fun _ _ => True) s₂ := by
      intro c s₂ i₂ hd hb
      refine wp_seq i₂ (O.wp_endShard i₂ hd hb) ?_
      intro _ _ _ _ _
      trivial
    simp only [Prog.pure_eq, Prog.bind_eq]
    split
    · rename_i hempty
      have hdone := O.empty s₁ _ _ b i₁ hgot (List.isEmpty_iff.mp hempty)
      split
      · rename_i hb
        exact hend _ s₁ i₁ hdone hb
      · trivial
    · rename_i hne
      have hb : b.records ≠ [] := fun e => hne (by simp [e])
      refine wp_seq i₁ (O.wp_deliverRecords i₁ hgot hb) ?_
      intro r s₂ _ i₂ hr
      cases r with
      | none => trivial
      | some c =>
        refine wp_seq i₂ (wp_metric _) ?_
        intro _ s₃ h₃ i₃ _
        have hdone := O.done_up _ _ _ s₂ s₃ h₃ i₃ (hr c rfl)
        split
        · rename_i he
          exact hend _ s₃ i₃ hdone he
        · rename_i he
          exact O.next s₃ _ c b i₃ hdone hb (by simpa using he)

theorem wp_processShard (hi : P.L.Inv s) (h : O.At task.checkpoint task.counter s) :
    wp (handler K) P.L task.owner (processShard D.source dynamoDbLeaseStore task) (fun _ _ => True) s := by
  unfold processShard
  refine wp_seq hi (O.wp_resumePosition hi h) ?_
  intro a s₁ _ i₁ ha
  refine wp_iter (fun (st : PassState) s' => O.At st.after st.counter s') ?_ ?_ i₁ ha
  · intro st
    exact O.at_up _ _
  · intro st s₂ i₂ hst
    exact O.wp_passBody st i₂ hst

end Outline

theorem wp_runPass {it : ShardId × Nat × Option SequenceNumber}
    (O : P.Outline ⟨w, it.1, it.2.1, it.2.2, (D.config w).deferred⟩) (hi : P.L.Inv s) (h : O.At it.2.2 it.2.1 s) :
    wp (handler K) P.L w (runPass (D.fleet w) it) (fun _ _ => True) s := by
  have htask : shardTask (D.fleet w).config it = ⟨w, it.1, it.2.1, it.2.2, (D.config w).deferred⟩ := by
    simp [shardTask, Deployment.fleet, D.owner_eq w]
  unfold runPass
  rw [htask]
  refine wp_seq hi (wp_createConsumer _) ?_
  intro _ s₁ h₁ i₁ _
  refine wp_seq i₁ (O.wp_processShard i₁ (O.at_up _ _ s s₁ h₁ i₁ h)) ?_
  intro r _ _ _ _
  cases r <;> trivial

end Ground

end StreamsConsumer
