import StreamsConsumer.Worker.Order
import StreamsConsumer.Worker.Protocol

/-!
# At least once, no gap

Under the contract of `get_records` and of acks, everything at or before a
durable checkpoint has been delivered, and so has the whole log of a completed
shard. The invariant is the same for all three places a resume position comes
from: a lease row, a pending ack in some worker's memory, and the position that
a pass threads through its loop.
-/

namespace StreamsConsumer
open Conc

/-- What the fleet relies on: reads continue right after the resume position and report the end only of
a closed log; acks name records of the batch. -/
structure Contract.Faithful (K : Contract) : Prop where
  start : ∀ {log closed after start n shardEnd}, K.reads log closed after start n shardEnd = true →
    Known log after → start = position log after
  bound : ∀ {log closed after start n shardEnd}, K.reads log closed after start n shardEnd = true →
    start + n ≤ log.length
  shardEnd : ∀ {log closed after start n}, K.reads log closed after start n true = true →
    closed = true ∧ start + n = log.length
  acks : ∀ {records q}, K.acks records q = true → q ∈ records.map Record.seq

def Delivered (s : World) (k : ShardId) (r : Record) : Prop :=
  ∃ w records answer, Event.delivered w k records answer ∈ s.trace ∧ r ∈ records

/-- Every lease of the shard that was ever published starts at TRIM_HORIZON. -/
def SeededNone (s : World) (k : ShardId) : Prop :=
  ∀ w ps cp row, Event.wrote w k (.createShardLease ps cp) row ∈ s.trace → cp = none

def Covered (s : World) (k : ShardId) (n : Nat) : Prop :=
  ∀ r ∈ (s.stream.log k).take n, Delivered s k r

/-- A resume position that skips nothing: all records up to it were delivered. -/
def Good (s : World) (k : ShardId) (cp : Option SequenceNumber) : Prop :=
  Known (s.stream.log k) cp ∧ Covered s k (position (s.stream.log k) cp)

def Finished (s : World) (k : ShardId) : Prop :=
  s.stream.closed k = true ∧ Covered s k (s.stream.log k).length

/-! ## What is known stays known -/

section
variable {s s' : World} {k : ShardId}

theorem SeededNone.anti (h : Extends s s') (hs : SeededNone s' k) : SeededNone s k :=
  fun w ps cp row he => hs w ps cp row (h.mem_trace he)

theorem Delivered.mono (h : Extends s s') {r : Record} (hd : Delivered s k r) : Delivered s' k r := by
  obtain ⟨w, records, answer, he, hr⟩ := hd
  exact ⟨w, records, answer, h.mem_trace he, hr⟩

theorem Covered.mono (h : Extends s s') {n : Nat} (hn : n ≤ (s.stream.log k).length) (hc : Covered s k n) :
    Covered s' k n := by
  intro r hr
  rw [take_eq_of_grows (h.log k) hn] at hr
  exact (hc r hr).mono h

theorem Covered.le {n m : Nat} (hc : Covered s k m) (hn : n ≤ m) : Covered s k n :=
  fun r hr => hc r (List.take_subset_take_left _ hn hr)

theorem Good.mono (h : Extends s s') {cp : Option SequenceNumber} (hg : Good s k cp) : Good s' k cp := by
  refine ⟨hg.1.mono (h.log k), ?_⟩
  rw [position_append (h.log k) hg.1]
  exact hg.2.mono h position_le

theorem Finished.mono (h : Extends s s') (hf : Finished s k) : Finished s' k := by
  obtain ⟨hc, he⟩ := h.closed k hf.1
  refine ⟨hc, ?_⟩
  rw [he]
  exact hf.2.mono h le_rfl

theorem good_none (s : World) (k : ShardId) : Good s k none := by
  constructor
  · intro q hq
    cases hq
  · intro r hr
    simp [position] at hr

end

/-! ## The invariant -/

def CoveredRow (r : Lease) (s : World) : Prop :=
  SeededNone s r.leaseKey →
    Good s r.leaseKey r.checkpoint ∧ (r.completed = true → Finished s r.leaseKey)

structure CoverInv (s : World) : Prop where
  sane : Sane s
  rows : ∀ r ∈ s.history, CoveredRow r s
  pending : ∀ w k q, (s.mem w).pending k = some q → SeededNone s k → Good s k (some q)
  pool : ∀ w, ∀ it ∈ (s.mem w).pool, SeededNone s it.shard → Good s it.shard it.checkpoint
  marked : ∀ k, MarkedIn s.trace k → SeededNone s k → Finished s k

def coverRely : Rely World := ⟨CoverInv, Extends, Extends.refl, Extends.trans⟩

theorem CoveredRow.mono {r : Lease} {s s' : World} (h : Extends s s') (hr : CoveredRow r s) : CoveredRow r s' := by
  intro hs
  obtain ⟨hg, hf⟩ := hr (hs.anti h)
  exact ⟨hg.mono h, fun hc => (hf hc).mono h⟩

theorem CoverInv.extend {s s' : World} (hi : CoverInv s) (h : Extends s s') (hs : Sane s')
    (hh : ∀ r ∈ s'.history, r ∈ s.history ∨ CoveredRow r s') (hm : s'.mem = s.mem)
    (hc : ∀ k, MarkedIn s'.trace k → MarkedIn s.trace k ∨ (SeededNone s' k → Finished s' k)) : CoverInv s' where
  sane := hs
  rows r hr := (hh r hr).elim (fun hr => (hi.rows r hr).mono h) id
  pending w k q hq hn := by
    rw [hm] at hq
    exact (hi.pending w k q hq (hn.anti h)).mono h
  pool w it hit hn := by
    rw [hm] at hit
    exact (hi.pool w it hit (hn.anti h)).mono h
  marked k hk hn := by
    rcases hc k hk with hk | hk
    · exact (hi.marked k hk (hn.anti h)).mono h
    · exact hk hn

theorem keeps_cover {w : Worker} {key : ShardId} {op : DbOp} {s : World}
    (hcp : ∀ o c q, op = .checkpoint o c q → SeededNone s key → Good s key (some q))
    (hmc : ∀ o c, op = .markComplete o c → SeededNone s key → Finished s key) :
    Keeps coverRely w key op s := by
  intro s₁ h₁ i₁ row ha
  have hx := Extends.write s₁ w key op row
  refine ⟨i₁.extend hx (i₁.sane.write ha) ?_ rfl ?_, hx⟩
  · intro r' hr'
    rcases World.mem_write_history hr' with rfl | hr'
    · right
      have hkey : r'.leaseKey = key := DbOp.apply_key ha fun r₀ h₀ => (i₁.sane.held key r₀ h₀).2
      obtain ⟨horig, hcomp⟩ := DbOp.apply_origin ha
      have hold : ∀ r, s₁.table key = some r → SeededNone s₁ key →
          Good s₁ key r.checkpoint ∧ (r.completed = true → Finished s₁ key) := by
        intro r hr hn
        obtain ⟨hmem, hk⟩ := i₁.sane.held key r hr
        have hc := i₁.rows r hmem
        unfold CoveredRow at hc
        rw [hk] at hc
        exact hc hn
      intro hn
      rw [hkey] at hn ⊢
      have hn₁ := hn.anti hx
      have hn₀ := hn₁.anti h₁
      refine ⟨?_, ?_⟩
      · rcases horig with h | ⟨r, hr, h⟩ | ⟨o, c, q, rfl, h⟩ | ⟨ps, cp, rfl, h⟩
        · rw [h]
          exact good_none _ _
        · rw [h]
          exact (hold r hr hn₁).1.mono hx
        · rw [h]
          exact ((hcp o c q rfl hn₀).mono h₁).mono hx
        · rw [h, hn w ps cp _ (List.mem_cons_self ..)]
          exact good_none _ _
      · intro hc
        rcases hcomp hc with ⟨r, hr, h⟩ | ⟨o, c, rfl⟩
        · exact ((hold r hr hn₁).2 h).mono hx
        · exact ((hmc o c rfl hn₀).mono h₁).mono hx
    · exact Or.inl hr'
  · intro k hk
    obtain ⟨w', o, c, row', he⟩ := hk
    rcases List.mem_cons.mp he with he | he
    · cases he
      right
      intro hn
      exact ((hmc o c rfl ((hn.anti hx).anti h₁)).mono h₁).mono hx
    · exact Or.inl ⟨w', o, c, row', he⟩

theorem keeps_cover_plain {w : Worker} {key : ShardId} {op : DbOp} {s : World}
    (hcp : ∀ o c q, op ≠ .checkpoint o c q) (hmc : ∀ o c, op ≠ .markComplete o c) :
    Keeps coverRely w key op s :=
  keeps_cover (fun o c q e => absurd e (hcp o c q)) (fun o c e => absurd e (hmc o c))

theorem CoverInv.env {e : Env} {s s' : World} (hi : CoverInv s) (h : envStep e s = some s') : CoverInv s' := by
  obtain ⟨_, hh, hm, ht⟩ := envStep_frame h
  refine hi.extend (Extends.env h) (hi.sane.env h) (fun r hr => Or.inl (hh ▸ hr)) hm ?_
  intro k hk
  obtain ⟨w, o, c, row, he⟩ := hk
  rcases ht _ he with he | ⟨k', he⟩
  · exact Or.inl ⟨w, o, c, row, he⟩
  · cases he

theorem CoverInv.setMem {s : World} {w : Worker} {m : Memory} (hi : CoverInv s)
    (hp : ∀ k q, m.pending k = some q → SeededNone s k → Good s k (some q))
    (hq : ∀ it ∈ m.pool, SeededNone s it.shard → Good s it.shard it.checkpoint) : CoverInv (s.setMem w m) where
  sane := hi.sane.setMem w m
  rows := hi.rows
  pending := World.forall_setMem (Q := fun _ m => ∀ k q, m.pending k = some q → SeededNone s k → Good s k (some q))
    hi.pending hp
  pool := World.forall_setMem (Q := fun _ m => ∀ it ∈ m.pool, SeededNone s it.shard → Good s it.shard it.checkpoint)
    hi.pool hq
  marked := hi.marked

theorem CoverInv.record {s : World} {e : Event} (hi : CoverInv s) (ht : ∀ k, e ≠ .trimmed k)
    (hw : ∀ w k op row, e ≠ .wrote w k op row) : CoverInv (s.record e) :=
  hi.extend (Extends.record s _) (hi.sane.record ht) (fun _ hr => Or.inl hr) rfl
    fun k hk => Or.inl (hk.of_cons fun w _ _ row => hw w k _ row)

variable {D : Deployment} {K : Contract}

def coverGround (D : Deployment) (K : Contract) : Ground D K where
  L := coverRely
  Row := CoveredRow
  Item _ it s := SeededNone s it.1 → Good s it.1 it.2.2
  row_up _ _ _ hl _ h := h.mono hl
  item_up _ _ _ _ hl _ h hn := (h (hn.anti hl)).mono hl
  env e s s' hi h := ⟨hi.env h, Extends.env h⟩
  history _ hi := hi.rows
  item _ _ _ _ hr _ _ _ hn := (hr hn).1
  pool _ w hi := hi.pool w
  mem s w m hi hp _ hq :=
    ⟨hi.setMem (fun k q h => hi.pending w k q (hp k q h)) hq, Extends.setMem s w m⟩
  leader s w _ := ⟨keeps_cover_plain nofun nofun, fun _ => keeps_cover_plain nofun nofun,
    fun _ => keeps_cover_plain nofun nofun⟩
  heartbeat _ _ _ := keeps_cover_plain nofun nofun
  take _ _ _ _ _ _ _ := ⟨keeps_cover_plain nofun nofun, fun _ => keeps_cover_plain nofun nofun⟩
  delete _ _ _ _ _ := keeps_cover_plain nofun nofun
  release _ _ _ _ _ _ := keeps_cover_plain nofun nofun
  flush s w r q hi _ _ hq := by
    refine keeps_cover ?_ nofun
    intro o c q' e hn
    cases e
    exact hi.pending w r.leaseKey q hq hn

/-! ## One pass -/

/-- A batch read after `a`: the records right after that position, to the end if it ends the shard. -/
def ReadAfter (s : World) (k : ShardId) (a : Option SequenceNumber) (b : RecordBatch) : Prop :=
  Good s k a ∧ RunAt (s.stream.log k) (position (s.stream.log k) a) b.records ∧
    (b.shardEnd = true → s.stream.closed k = true ∧
      position (s.stream.log k) a + b.records.length = (s.stream.log k).length)

def Handed (s : World) (k : ShardId) (a : Option SequenceNumber) (b : RecordBatch) : Prop :=
  ReadAfter s k a b ∧ Covered s k (position (s.stream.log k) a + b.records.length)

section
variable {s s' : World} {k : ShardId} {a : Option SequenceNumber} {b : RecordBatch}

theorem ReadAfter.mono (h : Extends s s') (hr : ReadAfter s k a b) : ReadAfter s' k a b := by
  obtain ⟨hg, hrun, he⟩ := hr
  refine ⟨hg.mono h, ?_, ?_⟩
  · rw [position_append (h.log k) hg.1]
    exact hrun.mono (h.log k)
  · intro hb
    obtain ⟨hc, hl⟩ := he hb
    obtain ⟨hc', el⟩ := h.closed k hc
    rw [el]
    exact ⟨hc', hl⟩

theorem Handed.mono (h : Extends s s') (hh : Handed s k a b) : Handed s' k a b := by
  refine ⟨hh.1.mono h, ?_⟩
  rw [position_append (h.log k) hh.1.1.1]
  exact hh.2.mono h hh.1.2.1.2

theorem ReadAfter.handed_of_empty (hr : ReadAfter s k a b) (hb : b.records = []) : Handed s k a b := by
  refine ⟨hr, ?_⟩
  rw [hb]
  exact hr.1.2

theorem ReadAfter.handed (hr : ReadAfter s k a b) (w : Worker) (ans : Except AwsError (Option SequenceNumber)) :
    Handed (s.record (.delivered w k b.records ans)) k a b := by
  refine ⟨hr.mono (Extends.record s _), ?_⟩
  intro r hr'
  rcases hr.2.1.mem_take hr' with h | h
  · exact (hr.1.2 r h).mono (Extends.record s _)
  · exact ⟨w, b.records, ans, List.mem_cons_self .., h⟩

theorem Handed.good_mem (hs : Sane s) (hh : Handed s k a b) {q : SequenceNumber}
    (hq : q ∈ b.records.map Record.seq) : Good s k (some q) := by
  obtain ⟨_, hle, hmem⟩ := hh.1.2.1.position_mem (hs.seqs k) hq
  refine ⟨?_, hh.2.le hle⟩
  intro q' e
  cases e
  exact hmem

theorem Handed.good_last (hs : Sane s) (hh : Handed s k a b) (hb : b.records ≠ []) :
    Good s k (lastSeq b.records) := by
  obtain ⟨hp, hk⟩ := hh.1.2.1.position_last (hs.seqs k) hb
  refine ⟨hk, ?_⟩
  rw [hp]
  exact hh.2

theorem Handed.finished (hh : Handed s k a b) (hb : b.shardEnd = true) : Finished s k := by
  obtain ⟨hc, hl⟩ := hh.1.2.2 hb
  refine ⟨hc, ?_⟩
  rw [← hl]
  exact hh.2

end

def coverOutline (hK : K.Faithful) (hsrc : D.source = contractSource) (task : ShardTask) :
    (coverGround D K).Outline task where
  At a _ s := SeededNone s task.shard → Good s task.shard a
  Got a _ b s := SeededNone s task.shard → ReadAfter s task.shard a b
  Acked a _ b q s := SeededNone s task.shard → Handed s task.shard a b ∧ Good s task.shard (some q)
  Done a _ b s := SeededNone s task.shard → Handed s task.shard a b
  at_up _ _ _ _ hl _ h hn := (h (hn.anti hl)).mono hl
  acked_up _ _ _ _ _ _ hl _ h hn := ⟨(h (hn.anti hl)).1.mono hl, (h (hn.anti hl)).2.mono hl⟩
  done_up _ _ _ _ _ hl _ h hn := (h (hn.anti hl)).mono hl
  resume s q _ hi _ hq hn := hi.pending task.owner task.shard q hq hn
  read s a c hi h := by
    rw [hsrc]
    refine wp_contractRead hi ?_ ?_
    · intro s₁ start n shardEnd h₁ i₁ hr b hb hn
      cases hb
      have hg := (h (hn.anti h₁)).mono h₁
      obtain rfl := hK.start hr hg.1
      obtain ⟨hrun, hlen⟩ := RunAt.slice (hK.bound hr)
      refine ⟨hg, hrun, ?_⟩
      intro he
      cases he
      rw [hlen]
      exact hK.shardEnd hr
    · intro s₁ e b hb
      cases hb
  empty s a c b _ h hb hn := (h hn).handed_of_empty hb
  deliver s a c b hi h hb := by
    refine wp_deliver ?_
    intro s₁ ans h₁ i₁ hack
    have hx : Extends s₁ (s₁.record (.delivered task.owner task.shard b.records ans)) := Extends.record s₁ _
    have hhand : SeededNone (s₁.record (.delivered task.owner task.shard b.records ans)) task.shard →
        Handed (s₁.record (.delivered task.owner task.shard b.records ans)) task.shard a b := by
      intro hn
      exact ((h ((hn.anti hx).anti h₁)).mono h₁).handed task.owner ans
    have i₂ : CoverInv (s₁.record (.delivered task.owner task.shard b.records ans)) := i₁.record nofun nofun
    refine ⟨i₂, hx, ?_, fun _ => hhand⟩
    intro q hq hn
    exact ⟨hhand hn, (hhand hn).good_mem i₂.sane (hK.acks (hack q hq))⟩
  write s a c b q hi h := by
    refine ⟨keeps_cover ?_ nofun, ?_⟩
    · intro o c' q' e hn
      cases e
      exact (h hn).2
    · intro s₁ row h₁ _ _ hn
      have hx := Extends.write s₁ task.owner task.shard (.checkpoint task.owner c q) row
      exact ((h ((hn.anti hx).anti h₁)).1.mono h₁).mono hx
  defer s a c b q d t _ hi h hd := by
    refine ⟨hi.setMem ?_ (hi.pool task.owner), Extends.setMem s _ _⟩
    intro k q' hq hn
    rcases Ground.pending_recordAck hd hq with ⟨rfl, rfl⟩ | hq
    · exact (h hn).2
    · exact hi.pending task.owner k q' hq hn
  deferred s a c b q _ _ h hn := (h hn).1
  next s a c b hi h hb _ hn := (h hn).good_last hi.sane hb
  flush s a c b q _ hi h _ hq := by
    refine ⟨keeps_cover ?_ nofun, ?_⟩
    · intro o c' q' e hn
      cases e
      exact hi.pending task.owner task.shard q hq hn
    · intro s₁ row h₁ _ _ hn
      have hx := Extends.write s₁ task.owner task.shard (.checkpoint task.owner c q) row
      exact ((h ((hn.anti hx).anti h₁)).mono h₁).mono hx
  complete s a c b _ h hb := by
    refine keeps_cover nofun ?_
    intro o c' _ hn
    exact (h hn).finished hb

def coverProtocol (hK : K.Faithful) (hsrc : D.source = contractSource) : Protocol D K where
  toGround := coverGround D K
  sync s w rows hi _ := by
    refine (coverGround D K).wp_leaderShardSync ((coverGround D K).describes_of_contract hsrc) hi ⟨?_, ?_, ?_, ?_⟩
    · exact fun _ _ _ _ _ _ => keeps_cover_plain nofun nofun
    · exact fun _ _ s₁ _ i₁ => ⟨i₁.record nofun nofun, Extends.record s₁ _⟩
    · exact fun _ _ _ _ _ _ _ _ => keeps_cover_plain nofun nofun
    · exact fun _ _ _ _ _ _ => keeps_cover_plain nofun nofun
  pass s w it hi h := (coverGround D K).wp_runPass (coverOutline hK hsrc _) hi h

theorem CoverInv.init (D : Deployment) : CoverInv D.init where
  sane := Sane.init D
  rows r hr := by cases hr
  pending w k q hq := by
    rw [show D.init.mem w = Memory.init (D.config w) from rfl, Protocol.pending_init] at hq
    cases hq
  pool w it hit := by cases hit
  marked k hk := by
    obtain ⟨w, o, c, row, he⟩ := hk
    cases he

end StreamsConsumer
