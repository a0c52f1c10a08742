import StreamsConsumer.Conc.Joint
import StreamsConsumer.Worker.Progress
import StreamsConsumer.Worker.Registry
import StreamsConsumer.Worker.Routine

/-!
# Pending acks and durable checkpoints

A worker with deferred checkpoints keeps the last ack of a shard in memory while
other workers may take the lease, write checkpoints of their own and give it
back. The pending map is pruned in step 2 of a cycle only, after the takes of
step 1. As long as no worker takes a lease that it still holds an ack for, and
scans show a worker its own rows as they are, the pending ack is at or ahead of
the row the worker works from, in every run of any number of workers.
-/

namespace StreamsConsumer.PendingAck
open Conc

/-! ## The condition on a run -/

def owner (row : Option Lease) : Option Worker := row.bind Lease.owner

/-- Who takes a lease holds no ack for it, and a scan shows the worker its own rows as they are. -/
def careful (w : Worker) (s : World) : (r : Req) → Resp r → World → Bool
  | .db key _, _, t => decide (owner (t.table key) = some w → owner (s.table key) ≠ some w → (s.mem w).pending key = none)
  | .scan, .ok rows, _ => rows.all fun r => decide (r.owner = some w → s.table r.leaseKey = some r)
  | _, _, _ => true

/-- The fleet, in the runs whose steps all meet the condition. -/
def carefulMachine (D : Deployment) (K : Contract) : Machine Req Resp Worker Choice World Env Job :=
  { D.machine K with exec := fun w r c s => (exec K w r c s).filter fun x => careful w s r x.1 x.2 }

/-! ## At or ahead -/

def durable (row : Option Lease) : Option SequenceNumber := row.bind Lease.checkpoint

/-- The row that the worker works from is at or before `a`. -/
def Behind (w : Worker) (k : ShardId) (s : World) (a : Option SequenceNumber) : Prop :=
  ∀ r, heldRow w k s = some r → position (s.stream.log k) r.checkpoint ≤ position (s.stream.log k) a

/-- What holds when a worker issues a request about the shard: a pass starts with a pending ack at or ahead of the row, it
reads and delivers from there on, and no write of a checkpoint moves the row back. -/
def Ahead (w : Worker) (k : ShardId) : Req → World → Prop
  | .createConsumer shard, s => shard = k → ∀ q, (s.mem w).pending k = some q → Behind w k s (some q)
  | .getRecords shard after, s => shard = k → Behind w k s after
  | .deliver shard records, s => shard = k → ∀ rec ∈ records, ∀ r, heldRow w k s = some r →
      position (s.stream.log k) r.checkpoint < position (s.stream.log k) (some rec.seq)
  | .db key (.checkpoint o c q), s => key = k → Behind w k s (some q) ∧
      ∀ row, (DbOp.checkpoint o c q).apply k (s.table k) = some row →
        position (s.stream.log k) (durable (s.table k)) ≤ position (s.stream.log k) (durable row)
  | _, _ => True

/-- What holds at every moment. -/
def Level (w : Worker) (k : ShardId) (s : World) : Prop := ∀ q, (s.mem w).pending k = some q → Behind w k s (some q)

/-! ## What the others do -/

/-- The other workers, the stream, and the worker's passes over its other shards leave the pending ack and the row that
the worker held last. -/
structure Beside (w : Worker) (k : ShardId) (s t : World) : Prop where
  log : s.stream.log k <+: t.stream.log k
  pending : (t.mem w).pending k = (s.mem w).pending k
  held : heldRow w k t = heldRow w k s

/-- The other workers leave the whole memory of the worker. -/
def Away (w : Worker) (k : ShardId) (s t : World) : Prop := Beside w k s t ∧ t.mem w = s.mem w

def duty (D : Deployment) (w : Worker) (k : ShardId) : Duty Req World := ⟨Registry D, Beside w k, Ahead w k, Level w k⟩

def wholeDuty (D : Deployment) (w : Worker) (k : ShardId) : Duty Req World := { duty D w k with others := Away w k }

section
variable {D : Deployment} {K : Contract} {w v : Worker} {k : ShardId} {s t u : World} {a : Option SequenceNumber}

theorem Beside.refl (s : World) : Beside w k s s := ⟨List.prefix_rfl, rfl, rfl⟩

theorem Beside.trans (h₁ : Beside w k s t) (h₂ : Beside w k t u) : Beside w k s u :=
  ⟨h₁.log.trans h₂.log, h₂.pending.trans h₁.pending, h₂.held.trans h₁.held⟩

theorem Away.refl (s : World) : Away w k s s := ⟨.refl s, rfl⟩

theorem Away.trans (h₁ : Away w k s t) (h₂ : Away w k t u) : Away w k s u := ⟨h₁.1.trans h₂.1, h₂.2.trans h₁.2⟩

theorem Away.record (s : World) (e : Event) : Away w k s (s.record e) := ⟨⟨List.prefix_rfl, rfl, rfl⟩, rfl⟩

theorem position_held (hs : Registry D s) (ht : Registry D t) (hlog : s.stream.log k <+: t.stream.log k) {r : Lease}
    (hr : heldRow w k s = some r) : position (t.stream.log k) r.checkpoint = position (s.stream.log k) r.checkpoint := by
  obtain ⟨hmem, hkey, _⟩ := heldRow_mem hr
  have hset := hs.settled r hmem
  rw [hkey] at hset
  exact hset.position_eq hlog (ht.sane.real k)

theorem Behind.beside (h : Behind w k s a) (hb : Beside w k s t) (hs : Registry D s) (ht : Registry D t) :
    Behind w k t a := by
  intro r hr
  rw [hb.held] at hr
  rw [position_held hs ht hb.log hr]
  exact (h r hr).trans (position_mono hb.log a)

theorem Behind.mono (h : Behind w k s a) {b : Option SequenceNumber}
    (hab : position (s.stream.log k) a ≤ position (s.stream.log k) b) : Behind w k s b :=
  fun r hr => (h r hr).trans hab

theorem stable_level : (duty D w k).Stable (Level w k) := by
  intro s t hs hb ht h q hq
  rw [hb.pending] at hq
  exact (h q hq).beside hb hs ht

theorem behind_setMem {m : Memory} : Behind w k (s.setMem w m) a ↔ Behind w k s a := Iff.rfl

theorem pending_setMem {m : Memory} : ((s.setMem w m).mem w).pending k = m.pending k := by simp [World.setMem]

theorem Level.setMem {m : Memory} (h : Level w k s) (hm : ∀ q, m.pending k = some q → (s.mem w).pending k = some q) :
    Level w k (s.setMem w m) := by
  intro q hq
  rw [pending_setMem] at hq
  exact behind_setMem.mpr (h q (hm q hq))

theorem Level.of_none (h : (s.mem w).pending k = none) : Level w k s := by
  intro q hq
  rw [h] at hq
  cases hq

theorem exec_careful {r : Req} {c : Choice} {a : Resp r} (h : (carefulMachine D K).exec w r c s = some (a, t)) :
    exec K w r c s = some (a, t) ∧ careful w s r a t = true := by
  simpa [carefulMachine, Option.filter_eq_some_iff] using h

theorem away_exec (hv : v ≠ w) {r : Req} {c : Choice} {a : Resp r} (ht : Registry D t)
    (h : exec K v r c s = some (a, t)) : Away w k s t := by
  rcases exec_cases h with rfl | ⟨_, f, _, rfl⟩ | ⟨key, op, row, rfl, ha, rfl⟩ | ⟨_, _, _, _, rfl⟩ | ⟨_, _, _, rfl⟩ |
    ⟨_, _, rfl⟩
  · exact .refl _
  · have hmem : (s.setMem v (f (s.mem v)).2).mem w = s.mem w := by simp [World.setMem, Ne.symm hv]
    exact ⟨⟨List.prefix_rfl, by rw [hmem], rfl⟩, hmem⟩
  · refine ⟨⟨List.prefix_rfl, rfl, ?_⟩, rfl⟩
    have hrow : (row.filter fun r => decide (r.leaseKey = k ∧ r.owner = some w)) = none := by
      rw [Option.filter_eq_none_iff]
      rintro r rfl
      -- whoever writes a row signs it
      rcases ht.signed v key op r (List.mem_cons_self ..) with ho | ho <;> simp [ho, hv]
    rw [heldRow_write, hrow]
    rfl
  · exact .record _ _
  · exact .record _ _
  · exact .record _ _

theorem away_env {e : Env} (h : envStep e s = some t) : Away w k s t := by
  obtain ⟨_, hh, hm, _⟩ := envStep_frame h
  exact ⟨⟨(Extends.env h).log k, by rw [hm], by unfold heldRow; rw [hh]⟩, by rw [hm]⟩

end

/-! ## What the worker itself does -/

/-- The requests that neither pass over the shard, nor add an ack, nor write a checkpoint for it. -/
def Calm (k : ShardId) : Req → Prop
  | .db key op => key = k → ∀ o c q, op ≠ .checkpoint o c q
  | .mem f => ∀ m q, (f m).2.pending k = some q → m.pending k = some q
  | .createConsumer shard => shard ≠ k
  | .getRecords shard _ => shard ≠ k
  | .deliver shard _ => shard ≠ k
  | _ => True

section
variable {D : Deployment} {K : Contract} {w : Worker} {k : ShardId} {s t : World}

theorem Calm.sibling {r : Req} (h : Sibling k r) : Calm k r := by
  cases r with
  | db key op => exact fun e => absurd e h
  | mem f =>
    intro m q hq
    rw [← (Memory.pending_of_deferral (h m).1).1]
    exact hq
  | createConsumer shard => exact h
  | getRecords shard after => exact h
  | deliver shard records => exact h
  | _ => trivial

theorem Calm.ahead {r : Req} (h : Calm k r) : Ahead w k r s := by
  cases r with
  | db key op =>
    cases op with
    | checkpoint o c q => exact fun e => absurd rfl (h e o c q)
    | _ => trivial
  | createConsumer shard => exact fun e => absurd e h
  | getRecords shard after => exact fun e => absurd e h
  | deliver shard records => exact fun e => absurd e h
  | _ => trivial

theorem held_exec {r : Req} {c : Choice} {a : Resp r} (hs : Registry D s) (hr : ∀ op, r ≠ .db k op)
    (h : exec K w r c s = some (a, t)) : heldRow w k t = heldRow w k s ∧ t.stream = s.stream := by
  rcases exec_cases h with rfl | ⟨_, f, _, rfl⟩ | ⟨key, op, row, rfl, ha, rfl⟩ | ⟨_, _, _, _, rfl⟩ | ⟨_, _, _, rfl⟩ |
    ⟨_, _, rfl⟩
  case inr.inr.inl =>
    have hkey : key ≠ k := fun e => hr op (by rw [e])
    have hrow : (row.filter fun r => decide (r.leaseKey = k ∧ r.owner = some w)) = none := by
      rw [Option.filter_eq_none_iff]
      rintro r rfl
      have hk : r.leaseKey = key := DbOp.apply_key ha fun r₀ h₀ => (hs.sane.held key r₀ h₀).2
      simp [hk, hkey]
    rw [heldRow_write, hrow]
    exact ⟨rfl, rfl⟩
  all_goals exact ⟨rfl, rfl⟩

theorem beside_outside {r : Req} {c : Choice} {a : Resp r} (hs : Registry D s) (hdb : ∀ op, r ≠ .db k op)
    (hmem : ∀ (β : Type) (f : Memory → β × Memory), r ≠ .mem f) (h : exec K w r c s = some (a, t)) : Beside w k s t := by
  obtain ⟨hheld, hstream⟩ := held_exec hs hdb h
  refine ⟨hstream ▸ List.prefix_rfl, ?_, hheld⟩
  rcases mem_exec h with hm | ⟨β, f, hf, _⟩
  · rw [hm]
  · exact absurd hf (hmem β f)

theorem beside_sibling {r : Req} {c : Choice} {a : Resp r} (hs : Registry D s) (hr : Sibling k r)
    (h : exec K w r c s = some (a, t)) : Beside w k s t := by
  have hne : ∀ op, r ≠ .db k op := by
    rintro op rfl
    exact hr rfl
  obtain ⟨hheld, hstream⟩ := held_exec hs hne h
  refine ⟨hstream ▸ List.prefix_rfl, ?_, hheld⟩
  rcases mem_exec h with hm | ⟨β, f, rfl, hm⟩
  · rw [hm]
  · rw [hm]
    exact (Memory.pending_of_deferral (hr _).1).1

theorem pending_calm {r : Req} {c : Choice} {a : Resp r} (hr : Calm k r) (h : exec K w r c s = some (a, t))
    {q : SequenceNumber} (hq : (t.mem w).pending k = some q) : (s.mem w).pending k = some q := by
  rcases mem_exec h with hm | ⟨β, f, rfl, hm⟩
  · rw [← hm]
    exact hq
  · rw [hm] at hq
    exact hr _ q hq

theorem level_calm {r : Req} {c : Choice} {a : Resp r} (hs : Registry D s) (hr : Calm k r) (hl : Level w k s)
    (h : (carefulMachine D K).exec w r c s = some (a, t)) : Level w k t := by
  obtain ⟨he, hcareful⟩ := exec_careful h
  intro q hq
  have hpend := pending_calm hr he hq
  by_cases hne : ∀ op, r ≠ .db k op
  · obtain ⟨hheld, hstream⟩ := held_exec hs hne he
    intro r' hr'
    rw [hheld] at hr'
    rw [hstream]
    exact hl q hpend r' hr'
  · obtain ⟨op, hop⟩ := not_forall.mp hne
    obtain rfl := not_not.mp hop
    rcases execDb_cases he with ⟨rfl, _⟩ | ⟨row, ha, rfl⟩
    · exact hl q hq
    intro r' hr'
    rw [heldRow_write] at hr'
    cases hrow : row.filter fun r => decide (r.leaseKey = k ∧ r.owner = some w) with
    | none =>
      rw [hrow] at hr'
      exact hl q hpend r' hr'
    | some r₁ =>
      rw [hrow, Option.some_or, Option.some.injEq] at hr'
      subst hr'
      obtain ⟨rfl, hmatch⟩ := Option.filter_eq_some_iff.mp hrow
      simp only [decide_eq_true_eq] at hmatch
      change position (s.stream.log k) r₁.checkpoint ≤ position (s.stream.log k) (some q)
      have hold : ∀ r₀, s.table k = some r₀ → r₀.owner = some w →
          position (s.stream.log k) r₀.checkpoint ≤ position (s.stream.log k) (some q) :=
        fun r₀ h₀ ho => hl q hpend r₀ (hs.heldRow_eq h₀ ho)
      have htaken : owner (s.table k) = some w := by
        by_contra hno
        simp only [careful, World.write_table_self, decide_eq_true_eq] at hcareful
        rw [hcareful hmatch.2 hno] at hpend
        cases hpend
      obtain ⟨r₀, h₀, ho⟩ := Option.bind_eq_some_iff.mp htaken
      rcases (DbOp.apply_origin ha).1 with e | ⟨r₂, hr₂, e⟩ | ⟨o, c', q', rfl, _⟩ | ⟨ps, cp, rfl, _⟩
      · rw [e]
        exact Nat.zero_le _
      · rw [h₀, Option.some.injEq] at hr₂
        rw [e, ← hr₂]
        exact hold r₀ h₀ ho
      · exact absurd rfl (hr rfl o c' q')
      · rw [h₀] at ha
        cases ha

end

end StreamsConsumer.PendingAck
