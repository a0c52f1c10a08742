import StreamsConsumer.Worker.Order
import StreamsConsumer.Worker.Protocol

/-!
# Reading from LATEST

While no record is checkpointed, the only durable position of a shard that
starts at LATEST is a sentinel whose meaning moves with the log. What was
written after the first read is skipped by every later LATEST iterator, so
nothing is lost only if those are derived when all of it has been delivered.
-/

namespace StreamsConsumer
open Conc

/-! ## What happened to the records since the first read -/

def Event.isRead : Event → Bool
  | .derived _ _ _ _ => true
  | .listed _ _ _ => true
  | _ => false

def Event.latestPos (k : ShardId) : Event → Option Nat
  | .derived _ j .latest pos => if j = k then some pos else none
  | _ => none

def firstLatest (k : ShardId) : List Event → Option Nat
  | [] => none
  | e :: tr => (firstLatest k tr).or (e.latestPos k)

/-- The record was delivered and the delivery did not fail. -/
def PassedIn (tr : List Event) (k : ShardId) (r : Record) : Prop :=
  ∃ w records q, Event.delivered w k records (.ok q) ∈ tr ∧ r ∈ records

/-- Of the first `n` records, all since the first LATEST iterator have been passed. -/
def PassedTo (log : List Record) (k : ShardId) (tr : List Event) (n : Nat) : Prop :=
  ∀ f, firstLatest k tr = some f → ∀ r ∈ (log.take n).drop f, PassedIn tr k r

/-- Every LATEST iterator was derived when no record since the first one was left to deliver. -/
def CaughtUp (log : List Record) (k : ShardId) : List Event → Prop
  | [] => True
  | e :: tr => CaughtUp log k tr ∧ ∀ pos, e.latestPos k = some pos → PassedTo log k tr pos

/-- Every delivery began at or before the first record that was not passed yet. -/
def Gapless (log : List Record) (k : ShardId) : List Event → Prop
  | [] => True
  | e :: tr => Gapless log k tr ∧ ∀ w records answer, e = .delivered w k records answer →
      ∃ start, RunAt log start records ∧ PassedTo log k tr start

section
variable {log log' : List Record} {k : ShardId} {tr tr' : List Event}

theorem firstLatest_mono (h : tr <:+ tr') {f : Nat} (hf : firstLatest k tr = some f) :
    firstLatest k tr' = some f := by
  obtain ⟨new, rfl⟩ := h
  induction new with
  | nil => exact hf
  | cons e new ih => simp [firstLatest, ih]

theorem firstLatest_eq_none : ∀ {tr : List Event}, (∀ e ∈ tr, e.latestPos k = none) → firstLatest k tr = none
  | [], _ => rfl
  | e :: tr, h => by
    rw [firstLatest, firstLatest_eq_none fun x hx => h x (List.mem_cons_of_mem _ hx), h e (List.mem_cons_self ..)]
    rfl

theorem PassedIn.mono (h : tr <:+ tr') {r : Record} (hp : PassedIn tr k r) : PassedIn tr' k r := by
  obtain ⟨w, records, q, he, hr⟩ := hp
  exact ⟨w, records, q, h.mem he, hr⟩

theorem mem_since_mono (h : log <+: log') {n m f : Nat} (hn : n ≤ m) {r : Record} (hr : r ∈ (log.take n).drop f) :
    r ∈ (log'.take m).drop f := by
  obtain ⟨rest, rfl⟩ := h
  obtain ⟨i, hi⟩ := List.mem_iff_getElem?.mp hr
  rw [List.getElem?_drop, List.getElem?_take] at hi
  split at hi
  · refine List.mem_iff_getElem?.mpr ⟨i, ?_⟩
    have hlt : f + i < log.length := (List.getElem?_eq_some_iff.mp hi).1
    rw [List.getElem?_drop, List.getElem?_take_of_lt (by omega), List.getElem?_append_left hlt, hi]
  · cases hi

theorem PassedTo.le {n m : Nat} (hp : PassedTo log k tr m) (hn : n ≤ m) : PassedTo log k tr n := by
  intro f hf r hr
  exact hp f hf r (mem_since_mono (List.prefix_refl _) hn hr)

theorem passedTo_zero : PassedTo log k tr 0 := by
  intro f _ r hr
  simp at hr

theorem PassedTo.of_grows (h : log <+: log') {n : Nat} (hp : PassedTo log' k tr n) : PassedTo log k tr n := by
  intro f hf r hr
  exact hp f hf r (mem_since_mono h le_rfl hr)

theorem PassedTo.grows (h : log <+: log') {n : Nat} (hn : n ≤ log.length) (hp : PassedTo log k tr n) :
    PassedTo log' k tr n := by
  intro f hf r hr
  rw [take_eq_of_grows h hn] at hr
  exact hp f hf r hr

theorem CaughtUp.of_grows (h : log <+: log') : ∀ {tr : List Event}, CaughtUp log' k tr → CaughtUp log k tr
  | [], _ => trivial
  | _ :: _, hc => ⟨CaughtUp.of_grows h hc.1, fun pos hp => (hc.2 pos hp).of_grows h⟩

theorem CaughtUp.of_suffix (h : tr <:+ tr') (hc : CaughtUp log k tr') : CaughtUp log k tr := by
  obtain ⟨new, rfl⟩ := h
  induction new with
  | nil => exact hc
  | cons e new ih => exact ih hc.1

theorem Gapless.grows (h : log <+: log') : ∀ {tr : List Event}, Gapless log k tr → Gapless log' k tr
  | [], _ => trivial
  | _ :: _, hg => by
    refine ⟨Gapless.grows h hg.1, ?_⟩
    intro w records answer he
    obtain ⟨start, hrun, hp⟩ := hg.2 w records answer he
    exact ⟨start, hrun.mono h, hp.grows h (by have := hrun.2; omega)⟩

/-- A shard is caught up while its LATEST iterator has been derived at most once. -/
theorem caughtUp_of_once : ∀ {tr : List Event},
    (tr.filterMap (Event.latestPos k)).length ≤ 1 → CaughtUp log k tr
  | [], _ => trivial
  | e :: tr, h => by
    cases he : e.latestPos k with
    | none =>
      rw [List.filterMap_cons_none he] at h
      refine ⟨caughtUp_of_once h, ?_⟩
      intro pos e
      rw [he] at e
      cases e
    | some pos =>
      rw [List.filterMap_cons_some he, List.length_cons] at h
      have hnil : tr.filterMap (Event.latestPos k) = [] := List.length_eq_zero_iff.mp (by omega)
      refine ⟨caughtUp_of_once (by omega), ?_⟩
      intro _ _ f hf
      rw [firstLatest_eq_none (List.filterMap_eq_nil_iff.mp hnil)] at hf
      cases hf

end

/-! ## How the first read is ordered -/

structure LatestLe (s s' : World) : Prop extends Extends s s' where
  first : ∀ k f, firstLatest k s.trace = none → firstLatest k s'.trace = some f → (s.stream.log k).length ≤ f

namespace LatestLe

theorem refl (s : World) : LatestLe s s := by
  refine ⟨Extends.refl s, ?_⟩
  intro k f hn hf
  rw [hn] at hf
  cases hf

theorem trans {s₁ s₂ s₃ : World} (h₁ : LatestLe s₁ s₂) (h₂ : LatestLe s₂ s₃) : LatestLe s₁ s₃ := by
  refine ⟨h₁.toExtends.trans h₂.toExtends, ?_⟩
  intro k f hn hf
  cases hm : firstLatest k s₂.trace with
  | none => exact (h₁.log k).length_le.trans (h₂.first k f hm hf)
  | some f' =>
    rw [firstLatest_mono h₂.trace hm] at hf
    cases hf
    exact h₁.first k f hn hm

theorem of_trace {s s' : World} (h : Extends s s') (ht : ∀ k, firstLatest k s'.trace = firstLatest k s.trace) :
    LatestLe s s' := by
  refine ⟨h, ?_⟩
  intro k f hn hf
  rw [ht, hn] at hf
  cases hf

theorem record (s : World) {e : Event} (he : ∀ k, e.latestPos k = none) : LatestLe s (s.record e) := by
  refine of_trace (Extends.record s e) ?_
  intro k
  change (firstLatest k s.trace).or (e.latestPos k) = _
  rw [he, Option.or_none]

theorem write (s : World) (w : Worker) (key : ShardId) (op : DbOp) (row : Option Lease) :
    LatestLe s (s.write w key op row) := by
  refine of_trace (Extends.write s w key op row) ?_
  intro k
  change (firstLatest k s.trace).or none = _
  rw [Option.or_none]

theorem setMem (s : World) (w : Worker) (m : Memory) : LatestLe s (s.setMem w m) :=
  of_trace (Extends.setMem s w m) fun _ => rfl

theorem env {e : Env} {s s' : World} (h : envStep e s = some s') : LatestLe s s' := by
  refine of_trace (Extends.env h) ?_
  intro k
  rcases envStep_trace h with e | ⟨shard, e⟩
  · rw [e]
  · rw [e]
    change (firstLatest k s.trace).or none = _
    rw [Option.or_none]

theorem derive (s : World) (w : Worker) (k : ShardId) :
    LatestLe s (s.record (.derived w k .latest (s.stream.log k).length)) := by
  refine ⟨Extends.record s _, ?_⟩
  intro j f hn hf
  change (firstLatest j s.trace).or _ = _ at hf
  rw [hn] at hf
  simp only [Event.latestPos, Option.none_or, Option.ite_none_right_eq_some, Option.some.injEq] at hf
  obtain ⟨rfl, rfl⟩ := hf
  exact le_rfl

end LatestLe

abbrev World.CaughtUp (s : World) (k : ShardId) : Prop := StreamsConsumer.CaughtUp (s.stream.log k) k s.trace

abbrev World.PassedTo (s : World) (k : ShardId) (n : Nat) : Prop :=
  StreamsConsumer.PassedTo (s.stream.log k) k s.trace n

section
variable {s s' : World} {k : ShardId}

theorem CaughtUp.anti (h : Extends s s') (hc : s'.CaughtUp k) : s.CaughtUp k :=
  (hc.of_suffix h.trace).of_grows (h.log k)

theorem PassedTo.mono (h : LatestLe s s') {n : Nat} (hn : n ≤ (s.stream.log k).length) (hp : s.PassedTo k n) :
    s'.PassedTo k n := by
  intro f hf r hr
  rw [take_eq_of_grows (h.log k) hn] at hr
  cases hm : firstLatest k s.trace with
  | none =>
    -- a first iterator derived since then starts behind these records
    have hle := h.first k f hm hf
    rw [List.drop_eq_nil_of_le (by rw [List.length_take]; omega)] at hr
    cases hr
  | some f' =>
    rw [firstLatest_mono h.trace hm] at hf
    cases hf
    exact (hp f hm r hr).mono h.trace

end

/-! ## Positions that lose nothing -/

structure Resumable (s : World) (k : ShardId) (cp : Option SequenceNumber) : Prop where
  settled : Settled (s.stream.log k) cp
  passed : s.CaughtUp k → s.PassedTo k (position (s.stream.log k) cp)

/-- An iterator that continues a read from `a`: after a real position not behind it, at LATEST behind nothing that
was not passed. -/
structure Threaded (s : World) (k : ShardId) (a : Option SequenceNumber) (it : ShardIterator) : Prop where
  shard : it.shard = k
  bound : it.pos ≤ (s.stream.log k).length
  settled : Settled (s.stream.log k) a
  real : a ≠ some SENTINEL_LATEST → it.pos ≤ position (s.stream.log k) a
  latest : a = some SENTINEL_LATEST → s.CaughtUp k → s.PassedTo k it.pos

def Drained (s : World) (k : ShardId) : Prop :=
  s.stream.closed k = true ∧ s.PassedTo k (s.stream.log k).length

section
variable {s s' : World} {k : ShardId} {a : Option SequenceNumber}

theorem Resumable.mono (hs : Sane s') (h : LatestLe s s') (hr : Resumable s k a) : Resumable s' k a := by
  refine ⟨hr.settled.mono (h.log k), ?_⟩
  intro hc
  rw [hr.settled.position_eq (h.log k) (hs.real k)]
  exact (hr.passed (hc.anti h.toExtends)).mono h position_le

theorem Threaded.mono (hs : Sane s') (h : LatestLe s s') {it : ShardIterator} (ht : Threaded s k a it) :
    Threaded s' k a it where
  shard := ht.shard
  bound := ht.bound.trans (h.log k).length_le
  settled := ht.settled.mono (h.log k)
  real ha := by
    rw [ht.settled.position_eq (h.log k) (hs.real k)]
    exact ht.real ha
  latest ha hc := (ht.latest ha (hc.anti h.toExtends)).mono h ht.bound

theorem Resumable.setMem {w : Worker} {m : Memory} (hr : Resumable s k a) : Resumable (s.setMem w m) k a :=
  ⟨hr.settled, hr.passed⟩

theorem Threaded.setMem {w : Worker} {m : Memory} {it : ShardIterator} (ht : Threaded s k a it) :
    Threaded (s.setMem w m) k a it :=
  ⟨ht.shard, ht.bound, ht.settled, ht.real, ht.latest⟩

theorem Drained.mono (h : LatestLe s s') (hd : Drained s k) : Drained s' k := by
  obtain ⟨hc, he⟩ := h.closed k hd.1
  refine ⟨hc, ?_⟩
  rw [he]
  exact hd.2.mono h le_rfl

theorem Threaded.passed {it : ShardIterator} (ht : Threaded s k a it) (hr : Resumable s k a) (hc : s.CaughtUp k) :
    s.PassedTo k it.pos := by
  by_cases ha : a = some SENTINEL_LATEST
  · exact ht.latest ha hc
  · exact (hr.passed hc).le (ht.real ha)

theorem resumable_none (s : World) (k : ShardId) : Resumable s k none :=
  ⟨settled_none _, fun _ => passedTo_zero⟩

theorem resumable_latest (hs : Sane s) (k : ShardId) : Resumable s k (some SENTINEL_LATEST) := by
  refine ⟨Or.inr rfl, ?_⟩
  intro _
  rw [position_latest (hs.real k)]
  exact passedTo_zero

end

/-! ## The invariant -/

structure ResumableRow (r : Lease) (s : World) : Prop where
  resumable : Resumable s r.leaseKey r.checkpoint
  completed : r.completed = true → s.CaughtUp r.leaseKey → Drained s r.leaseKey

structure LatestInv (s : World) : Prop where
  sane : Sane s
  rows : ∀ r ∈ s.history, ResumableRow r s
  pending : ∀ w k q, (s.mem w).pending k = some q → Resumable s k (some q)
  pool : ∀ w, ∀ it ∈ (s.mem w).pool, Resumable s it.shard it.checkpoint
  cursors : ∀ w k c, (s.mem w).cursors k = some c → Threaded s k c.after c.iterator
  marked : ∀ k, MarkedIn s.trace k → s.CaughtUp k → Drained s k
  gapless : ∀ k, s.CaughtUp k → Gapless (s.stream.log k) k s.trace

def latestRely : Rely World := ⟨LatestInv, LatestLe, LatestLe.refl, LatestLe.trans⟩

theorem ResumableRow.mono {r : Lease} {s s' : World} (hs : Sane s') (h : LatestLe s s') (hr : ResumableRow r s) :
    ResumableRow r s' :=
  ⟨hr.resumable.mono hs h, fun hc hu => (hr.completed hc (hu.anti h.toExtends)).mono h⟩

namespace LatestInv

theorem extend {s s' : World} (hi : LatestInv s) (h : LatestLe s s') (hs : Sane s')
    (hh : ∀ r ∈ s'.history, r ∈ s.history ∨ ResumableRow r s') (hm : s'.mem = s.mem)
    (hc : ∀ k, MarkedIn s'.trace k → MarkedIn s.trace k ∨ (s'.CaughtUp k → Drained s' k))
    (hg : ∀ k, s'.CaughtUp k → Gapless (s.stream.log k) k s.trace → Gapless (s'.stream.log k) k s'.trace) :
    LatestInv s' where
  sane := hs
  rows r hr := (hh r hr).elim (fun hr => (hi.rows r hr).mono hs h) id
  pending w k q hq := by
    rw [hm] at hq
    exact (hi.pending w k q hq).mono hs h
  pool w it hit := by
    rw [hm] at hit
    exact (hi.pool w it hit).mono hs h
  cursors w k c hc := by
    rw [hm] at hc
    exact (hi.cursors w k c hc).mono hs h
  marked k hk hu := by
    rcases hc k hk with hk | hk
    · exact (hi.marked k hk (hu.anti h.toExtends)).mono h
    · exact hk hu
  gapless k hu := hg k hu (hi.gapless k (hu.anti h.toExtends))

theorem record {s : World} {e : Event} (hi : LatestInv s) (h : LatestLe s (s.record e)) (ht : ∀ k, e ≠ .trimmed k)
    (hw : ∀ w k op row, e ≠ .wrote w k op row)
    (hg : ∀ w k records answer, e = .delivered w k records answer → s.CaughtUp k →
      ∃ start, RunAt (s.stream.log k) start records ∧ s.PassedTo k start) : LatestInv (s.record e) := by
  refine hi.extend h (hi.sane.record ht) (fun _ hr => Or.inl hr) rfl ?_ ?_
  · intro k hk
    exact Or.inl (hk.of_cons fun w _ _ row => hw w k _ row)
  · intro k hu hgap
    exact ⟨hgap, fun w records answer he => hg w k records answer he (hu.anti h.toExtends)⟩

theorem note {s : World} {e : Event} (hi : LatestInv s) (h : LatestLe s (s.record e)) (he : e.isRead = true) :
    LatestInv (s.record e) := by
  refine hi.record h ?_ ?_ ?_
  · intro k hk
    subst hk
    cases he
  · intro w k op row hk
    subst hk
    cases he
  · intro w k records answer hk
    subst hk
    cases he

theorem env {e : Env} {s s' : World} (hi : LatestInv s) (h : envStep e s = some s') : LatestInv s' := by
  obtain ⟨_, hh, hm, ht⟩ := envStep_frame h
  have hle := LatestLe.env h
  refine hi.extend hle (hi.sane.env h) (fun r hr => Or.inl (hh ▸ hr)) hm ?_ ?_
  · intro k hk
    obtain ⟨w, o, c, row, he⟩ := hk
    rcases ht _ he with he | ⟨k', he⟩
    · exact Or.inl ⟨w, o, c, row, he⟩
    · cases he
  · intro k _ hg
    rcases envStep_trace h with e | ⟨shard, e⟩
    · rw [e]
      exact hg.grows (hle.log k)
    · rw [e]
      exact ⟨hg.grows (hle.log k), nofun⟩

theorem setMem {s : World} {w : Worker} {m : Memory} (hi : LatestInv s)
    (hp : ∀ k q, m.pending k = some q → Resumable s k (some q))
    (hq : ∀ it ∈ m.pool, Resumable s it.shard it.checkpoint)
    (hc : ∀ k c, m.cursors k = some c → Threaded s k c.after c.iterator) : LatestInv (s.setMem w m) where
  sane := hi.sane.setMem w m
  rows r hr := ⟨(hi.rows r hr).resumable.setMem, (hi.rows r hr).completed⟩
  pending v k q hv := (World.forall_setMem (Q := fun _ m => ∀ k q, m.pending k = some q → Resumable s k (some q))
    hi.pending hp v k q hv).setMem
  pool v it hv := (World.forall_setMem (Q := fun _ m => ∀ it ∈ m.pool, Resumable s it.shard it.checkpoint)
    hi.pool hq v it hv).setMem
  cursors v k c hv := (World.forall_setMem
    (Q := fun _ m => ∀ k c, m.cursors k = some c → Threaded s k c.after c.iterator) hi.cursors hc v k c hv).setMem
  marked := hi.marked
  gapless := hi.gapless

theorem init (D : Deployment) : LatestInv D.init where
  sane := Sane.init D
  rows r hr := by cases hr
  pending w k q hq := by
    rw [show D.init.mem w = Memory.init (D.config w) from rfl, Protocol.pending_init] at hq
    cases hq
  pool w it hit := by cases hit
  cursors w k c hc := by cases hc
  marked k hk := by
    obtain ⟨w, o, c, row, he⟩ := hk
    cases he
  gapless _ _ := trivial

end LatestInv

theorem keeps_latest {w : Worker} {key : ShardId} {op : DbOp} {s : World}
    (hcp : ∀ o c q, op = .checkpoint o c q → Resumable s key (some q))
    (hcreate : ∀ ps cp, op = .createShardLease ps cp → cp = none ∨ cp = some SENTINEL_LATEST)
    (hmc : ∀ o c, op = .markComplete o c → s.CaughtUp key → Drained s key) : Keeps latestRely w key op s := by
  intro s₁ h₁ i₁ row ha
  have hx := LatestLe.write s₁ w key op row
  have hsane : Sane (s₁.write w key op row) := i₁.sane.write ha
  have hmark : ∀ o c, op = .markComplete o c → (s₁.write w key op row).CaughtUp key →
      Drained (s₁.write w key op row) key := by
    intro o c e hu
    exact ((hmc o c e ((hu.anti hx.toExtends).anti h₁.toExtends)).mono h₁).mono hx
  refine ⟨i₁.extend hx hsane ?_ rfl ?_ ?_, hx⟩
  · intro r' hr'
    rcases World.mem_write_history hr' with rfl | hr'
    · right
      have hkey : r'.leaseKey = key := DbOp.apply_key ha fun r₀ h₀ => (i₁.sane.held key r₀ h₀).2
      obtain ⟨horig, hcomp⟩ := DbOp.apply_origin ha
      have hold : ∀ r, s₁.table key = some r →
          Resumable s₁ key r.checkpoint ∧ (r.completed = true → s₁.CaughtUp key → Drained s₁ key) := by
        intro r hr
        obtain ⟨hmem, rfl⟩ := i₁.sane.held key r hr
        exact ⟨(i₁.rows r hmem).resumable, (i₁.rows r hmem).completed⟩
      refine ⟨?_, ?_⟩
      · rw [hkey]
        rcases horig with h | ⟨r, hr, h⟩ | ⟨o, c, q, rfl, h⟩ | ⟨ps, cp, rfl, h⟩
        · rw [h]
          exact resumable_none _ _
        · rw [h]
          exact (hold r hr).1.mono hsane hx
        · rw [h]
          exact ((hcp o c q rfl).mono i₁.sane h₁).mono hsane hx
        · rw [h]
          rcases hcreate ps cp rfl with rfl | rfl
          · exact resumable_none _ _
          · exact resumable_latest hsane _
      · rw [hkey]
        intro hc hu
        rcases hcomp hc with ⟨r, hr, h⟩ | ⟨o, c, e⟩
        · exact ((hold r hr).2 h (hu.anti hx.toExtends)).mono hx
        · exact hmark o c e hu
    · exact Or.inl hr'
  · intro k hk
    obtain ⟨w', o, c, row', he⟩ := hk
    rcases List.mem_cons.mp he with he | he
    · cases he
      exact Or.inr (hmark o c rfl)
    · exact Or.inl ⟨w', o, c, row', he⟩
  · intro k _ hg
    exact ⟨hg, nofun⟩

theorem keeps_latest_plain {w : Worker} {key : ShardId} {op : DbOp} {s : World}
    (hcp : ∀ o c q, op ≠ .checkpoint o c q) (hcreate : ∀ ps cp, op ≠ .createShardLease ps cp)
    (hmc : ∀ o c, op ≠ .markComplete o c) : Keeps latestRely w key op s :=
  keeps_latest (fun o c q e => absurd e (hcp o c q)) (fun ps cp e => absurd e (hcreate ps cp))
    (fun o c e => absurd e (hmc o c))

variable {D : Deployment} {K : Contract}

def latestGround (D : Deployment) (K : Contract) : Ground D K where
  L := latestRely
  Row := ResumableRow
  Item _ it s := Resumable s it.1 it.2.2
  row_up _ _ _ hl hi h := h.mono hi.sane hl
  item_up _ _ _ _ hl hi h := h.mono hi.sane hl
  env e s s' hi h := ⟨hi.env h, LatestLe.env h⟩
  history _ hi := hi.rows
  item _ _ _ _ hr _ _ _ := hr.resumable
  pool _ w hi := hi.pool w
  mem s w m hi hp hc hq := by
    refine ⟨hi.setMem (fun k q h => hi.pending w k q (hp k q h)) hq ?_, LatestLe.setMem s w m⟩
    intro k c hk
    rcases hc with e | e
    · rw [e] at hk
      exact hi.cursors w k c hk
    · rw [e] at hk
      cases hk
  leader s w _ := ⟨keeps_latest_plain nofun nofun nofun, fun _ => keeps_latest_plain nofun nofun nofun,
    fun _ => keeps_latest_plain nofun nofun nofun⟩
  heartbeat _ _ _ := keeps_latest_plain nofun nofun nofun
  take _ _ _ _ _ _ _ := ⟨keeps_latest_plain nofun nofun nofun, fun _ => keeps_latest_plain nofun nofun nofun⟩
  delete _ _ _ _ _ := keeps_latest_plain nofun nofun nofun
  release _ _ _ _ _ _ := keeps_latest_plain nofun nofun nofun
  flush s w r q hi _ _ hq := by
    refine keeps_latest ?_ nofun nofun
    intro o c q' e
    cases e
    exact hi.pending w r.leaseKey q hq

end StreamsConsumer
