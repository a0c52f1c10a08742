import StreamsConsumer.Worker.Protocol
import StreamsConsumer.Worker.Undisturbed

/-!
# The book of a shard

The ideal sequence of calls about a shard, in which every pass starts after the
last ack. Pass after pass and cycle after cycle, an undisturbed worker goes
along the book, whether it defers its checkpoints or not.
-/

namespace StreamsConsumer
open Conc

/-- `reading` is where the pass under way reads next, `resume` where the next pass starts. -/
structure Book where
  calls : List Call
  reading : Option (Option SequenceNumber)
  resume : Option SequenceNumber

namespace Book

def close (b : Book) : Book := { b with calls := b.calls ++ [.ended], reading := none }

def take (P : Partner) (b : Book) (batch : RecordBatch) : Book :=
  let answer := P.deliver b.calls batch.records
  ⟨b.calls ++ [.delivered batch.records answer], some (lastSeq batch.records), (ackOf answer).or b.resume⟩

def answered (P : Partner) (b : Book) : Except AwsError RecordBatch → Book
  | .error _ => { b with reading := none }
  | .ok batch =>
    if batch.records.isEmpty then if batch.shardEnd then b.close else { b with reading := none }
    else if batch.shardEnd then (b.take P batch).close
    else b.take P batch

/-- Start the next pass, or go once around the loop of the pass under way. -/
def round (P : Partner) (b : Book) : Book :=
  match b.reading with
  | none => { b with calls := b.calls ++ [.created], reading := some b.resume }
  | some after => answered P { b with calls := b.calls ++ [.read after] } (P.read b.calls after)

def page (P : Partner) (b : Book) (m : Nat) : Book := (round P)^[m] b

theorem page_succ (P : Partner) (b : Book) (m : Nat) : b.page P (m + 1) = (b.page P m).round P :=
  Function.iterate_succ_apply' (round P) m b

theorem calls_answered (P : Partner) (b : Book) (a : Except AwsError RecordBatch) :
    b.calls <+: (b.answered P a).calls := by
  unfold answered
  split
  · exact List.prefix_refl _
  · split
    · split
      · exact List.prefix_append _ _
      · exact List.prefix_refl _
    · split
      · exact (List.prefix_append _ _).trans (List.prefix_append _ _)
      · exact List.prefix_append _ _

theorem round_reading {P : Partner} {b : Book} {after : Option SequenceNumber} (h : b.reading = some after) :
    b.round P = answered P { b with calls := b.calls ++ [.read after] } (P.read b.calls after) := by
  unfold round
  split
  · rename_i hn
    cases hn.symm.trans h
  · rename_i hr
    cases hr.symm.trans h
    rfl

theorem read_round {P : Partner} {b : Book} {after : Option SequenceNumber} (h : b.reading = some after) :
    b.calls ++ [Call.read after] <+: (b.round P).calls := by
  rw [round_reading h]
  exact calls_answered P { b with calls := b.calls ++ [.read after] } _

theorem created_round {P : Partner} {b : Book} (h : b.reading = none) :
    (b.round P).calls = b.calls ++ [Call.created] ∧ (b.round P).reading = some b.resume ∧
      (b.round P).resume = b.resume := by
  unfold round
  rw [h]
  exact ⟨rfl, rfl, rfl⟩

theorem calls_round (P : Partner) (b : Book) : b.calls <+: (b.round P).calls ∧
    b.calls.length < (b.round P).calls.length := by
  have hlonger : ∃ x, b.calls ++ [x] <+: (b.round P).calls := by
    cases h : b.reading with
    | none => exact ⟨.created, (created_round h).1 ▸ List.prefix_refl _⟩
    | some after => exact ⟨.read after, read_round h⟩
  obtain ⟨x, hx⟩ := hlonger
  refine ⟨(List.prefix_append _ _).trans hx, ?_⟩
  have := hx.length_le
  simp at this
  omega

theorem calls_page (P : Partner) (b : Book) {m n : Nat} (h : m ≤ n) : (b.page P m).calls <+: (b.page P n).calls := by
  induction h with
  | refl => exact List.prefix_refl _
  | step _ ih =>
    rw [Nat.succ_eq_add_one, page_succ]
    exact ih.trans (calls_round P _).1

end Book

/-- The calls are a beginning of the book. -/
def InBook (P : Partner) (b : Book) (l : List Call) : Prop := ∃ m, l <+: (b.page P m).calls

theorem InBook.comparable {P : Partner} {b : Book} {l l' : List Call} (h : InBook P b l) (h' : InBook P b l') :
    l <+: l' ∨ l' <+: l := by
  obtain ⟨m, hm⟩ := h
  obtain ⟨n, hn⟩ := h'
  rcases Nat.le_total m n with hle | hle
  · exact List.prefix_or_prefix_of_prefix (hm.trans (Book.calls_page P b hle)) hn
  · exact List.prefix_or_prefix_of_prefix hm (hn.trans (Book.calls_page P b hle))

/-! ## A pass goes along the book -/

section
variable {P : ShardId → Partner} {w : Worker} {k : ShardId} {b : Book} {deferred : Bool} {s t : Site}

/-- In the middle of a pass that holds the lease with counter `c` and reads on after `after`. -/
def Reading (P : ShardId → Partner) (b : Book) (w : Worker) (k : ShardId) (deferred : Bool) (after : Option SequenceNumber)
    (c : Nat) (s : Site) : Prop :=
  ∃ m y z, (b.page (P k) m).reading = some after ∧ y.or z = (b.page (P k) m).resume ∧
    Holding w k deferred c (b.page (P k) m).calls y z s

def BetweenPasses (P : ShardId → Partner) (b : Book) (w : Worker) (k : ShardId) (deferred : Bool) (s : Site) : Prop :=
  ∃ m, (b.page (P k) m).reading = none ∧
    Resting w k deferred (b.page (P k) m).calls (b.page (P k) m).resume s

theorem Reading.apart {after : Option SequenceNumber} {c : Nat} (h : Reading P b w k deferred after c s)
    (ha : Apart w k s t) : Reading P b w k deferred after c t := by
  obtain ⟨m, y, z, hm, e, h⟩ := h
  exact ⟨m, y, z, hm, e, h.apart ha⟩

theorem BetweenPasses.apart (h : BetweenPasses P b w k deferred s) (ha : Apart w k s t) : BetweenPasses P b w k deferred t := by
  obtain ⟨m, hm, h⟩ := h
  exact ⟨m, hm, h.apart ha⟩

theorem inBook_page (m : Nat) : InBook (P k) b (b.page (P k) m).calls := ⟨m, List.prefix_refl _⟩

theorem page_read {m : Nat} {after : Option SequenceNumber} {a : Except AwsError RecordBatch}
    (hm : (b.page (P k) m).reading = some after) (ha : (P k).read (b.page (P k) m).calls after = a) :
    b.page (P k) (m + 1) = Book.answered (P k)
      { b.page (P k) m with calls := (b.page (P k) m).calls ++ [.read after] } a := by
  rw [Book.page_succ, Book.round_reading hm, ha]

theorem undisturbed_passBody (task : ShardTask) (st : PassState)
    (h : Reading P b task.owner task.shard task.deferred st.after st.counter s) :
    Undisturbed P task.owner task.shard (InBook (P task.shard) b) (passBody contractSource dynamoDbLeaseStore task st)
      (Sum.elim (fun st => Reading P b task.owner task.shard task.deferred st.after st.counter) fun _ =>
        BetweenPasses P b task.owner task.shard task.deferred) s := by
  obtain ⟨m, y, z, hm, hyz, h⟩ := h
  have hread : InBook (P task.shard) b ((b.page (P task.shard) m).calls ++ [.read st.after]) :=
    ⟨m + 1, Book.page_succ (P task.shard) b m ▸ Book.read_round hm⟩
  have hend : ∀ {l c y z s}, Holding task.owner task.shard task.deferred c l y z s →
      b.page (P task.shard) (m + 1) = Book.close ⟨l, (b.page (P task.shard) (m + 1)).reading, y.or z⟩ →
      InBook (P task.shard) b l →
      Undisturbed P task.owner task.shard (InBook (P task.shard) b) ((endShard dynamoDbLeaseStore task c).bind fun o =>
        (.ret (.inr (.ok o)) : Fx (PassState ⊕ Except WorkerError PassOutcome)))
        (Sum.elim (fun st => Reading P b task.owner task.shard task.deferred st.after st.counter) fun _ =>
          BetweenPasses P b task.owner task.shard task.deferred) s := by
    intro l c y z s h hpage hB
    have hcalls : (b.page (P task.shard) (m + 1)).calls = l ++ [.ended] := by rw [hpage]; rfl
    have hB' : InBook (P task.shard) b (l ++ [.ended]) := hcalls ▸ inBook_page (m + 1)
    refine solo_seq (undisturbed_endShard h hB hB') ?_
    intro _ s' h'
    refine ⟨m + 1, by rw [hpage]; rfl, ?_⟩
    rw [hcalls, show (b.page (P task.shard) (m + 1)).resume = y.or z by rw [hpage]; rfl]
    exact h'
  unfold passBody
  refine solo_seq (undisturbed_getRecords h hread) ?_
  intro r s₁ ⟨hr, h₁⟩
  cases ha : (P task.shard).read (b.page (P task.shard) m).calls st.after with
  | error e =>
    rw [ha] at hr
    subst hr
    have hpage := page_read hm ha
    refine ⟨m + 1, by rw [hpage]; rfl, Or.inl ⟨st.counter, y, z, ?_, ?_⟩⟩
    · rw [hpage]
      exact hyz
    · rw [hpage]
      exact h₁
  | ok batch =>
    rw [ha] at hr
    subst hr
    have hpage := page_read hm ha
    simp only [Book.answered] at hpage
    simp only [Except.mapError, Prog.bind_eq, Prog.pure_eq]
    by_cases hempty : batch.records.isEmpty = true
    · rw [if_pos hempty] at hpage ⊢
      by_cases hse : batch.shardEnd = true
      · rw [if_pos hse] at hpage ⊢
        refine hend h₁ ?_ hread
        rw [hpage, hyz]
        rfl
      · rw [if_neg hse] at hpage ⊢
        refine ⟨m + 1, by rw [hpage], Or.inl ⟨st.counter, y, z, ?_, ?_⟩⟩
        · rw [hpage]
          exact hyz
        · rw [hpage]
          exact h₁
    · rw [if_neg hempty] at hpage ⊢
      have hdelivered : InBook (P task.shard) b (((b.page (P task.shard) m).calls ++ [.read st.after]) ++
          [.delivered batch.records ((P task.shard).deliver ((b.page (P task.shard) m).calls ++ [.read st.after])
            batch.records)]) := by
        refine ⟨m + 1, ?_⟩
        rw [hpage]
        split
        · exact List.prefix_append _ _
        · exact List.prefix_refl _
      refine solo_seq (undisturbed_deliverRecords h₁ hdelivered) ?_
      intro x s₂ ⟨c', y', z', hx, hyz', h₂⟩
      subst hx
      refine solo_seq (undisturbed_metric _ h₂ hdelivered) ?_
      intro _ s₃ h₃
      by_cases hse : batch.shardEnd = true
      · rw [if_pos hse] at hpage ⊢
        refine hend h₃ ?_ hdelivered
        rw [hpage, hyz', hyz]
        rfl
      · rw [if_neg hse] at hpage ⊢
        refine ⟨m + 1, y', z', by rw [hpage]; rfl, ?_, ?_⟩
        · rw [hpage, hyz', hyz]
          rfl
        · rw [hpage]
          exact h₃

theorem undisturbed_resumePosition (task : ShardTask) {B : List Call → Prop} {c : Nat} {l : List Call}
    {y : Option SequenceNumber} (h : Holding task.owner task.shard task.deferred c l y task.checkpoint s) (hB : B l) :
    Undisturbed P task.owner task.shard B (resumePosition task) (fun a s' => a = y.or task.checkpoint ∧
      Holding task.owner task.shard task.deferred c l y task.checkpoint s') s := by
  unfold resumePosition
  split
  · rename_i hd
    rw [hd] at h ⊢
    refine solo_seq (undisturbed_withDefer (R := fun a y' => a = y ∧ y' = y) h hB fun d hy => ⟨hy, hy⟩) ?_
    intro a s₁ ⟨y', ⟨ha, hy'⟩, h₁⟩
    subst ha
    subst hy'
    exact ⟨rfl, h₁⟩
  · rename_i hd
    rw [Bool.not_eq_true] at hd
    rw [hd] at h ⊢
    obtain rfl := h.pending_eq
    exact ⟨rfl, h⟩

theorem undisturbed_runPass {cfg : FleetConfig} {m c : Nat} {y z : Option SequenceNumber}
    (hm : (b.page (P k) m).reading = none) (hyz : y.or z = (b.page (P k) m).resume)
    (h : Holding cfg.owner k cfg.deferred c (b.page (P k) m).calls y z s) :
    Undisturbed P cfg.owner k (InBook (P k) b) (runPass ⟨contractSource, dynamoDbLeaseStore, cfg⟩ (k, c, z))
      (fun _ => BetweenPasses P b cfg.owner k cfg.deferred) s := by
  obtain ⟨hcalls, hreading, hresume⟩ := Book.created_round (P := P k) hm
  rw [← Book.page_succ] at hcalls hreading hresume
  have hB : InBook (P k) b ((b.page (P k) m).calls ++ [.created]) := hcalls ▸ inBook_page (m + 1)
  refine solo_seq (undisturbed_createConsumer h hB) ?_
  intro _ s₁ h₁
  refine solo_seq (P := fun _ => BetweenPasses P b cfg.owner k cfg.deferred) ?_ ?_
  · refine solo_seq (undisturbed_resumePosition (shardTask cfg (k, c, z)) h₁ hB) ?_
    intro after s₂ ⟨ha, h₂⟩
    refine solo_iter (fun st : PassState => Reading P b cfg.owner k cfg.deferred st.after st.counter) ?_ ?_ ?_
    · intro st s s' ha h
      exact h.apart ha
    · intro st s h
      exact undisturbed_passBody (shardTask cfg (k, c, z)) st h
    · refine ⟨m + 1, y, z, ?_, ?_, ?_⟩
      · rw [hreading, ← hyz, ha]
        rfl
      · rw [hresume, hyz]
      · rw [hcalls]
        exact h₂
  · intro x s₂ h₂
    cases x with
    | ok outcome => exact h₂
    | error e => exact h₂

end

/-! ## Cycles over a shard -/

/-- Step 2 of a cycle as far as it concerns one shard: re-read the rows, drop what is pending for shards no longer
owned, and pass over the shard if it is there for the worker. The passes over its other shards run beside it
(`shardCycle_of_rereadAndProcess`). -/
def shardCycle (F : Fleet) (k : ShardId) : Fx (Except WorkerError (Option PassOutcome)) :=
  attempt F.leases.list fun rows => do
    let rows := rows.filter fun r => isShardKey r.leaseKey
    let owned := (ownedRows rows F.config.owner).map Lease.leaseKey
    updateMem fun m => { m with ckptDefer := m.ckptDefer.map fun d => d.retain owned }
    match (eligibleOwned rows F.config.owner).find? fun item => item.1 = k with
    | none => return .ok none
    | some item =>
      let outcome ← runPass F item
      return .ok (some outcome)

def shardCycles (F : Fleet) (k : ShardId) : Nat → Fx Unit
  | 0 => .ret ()
  | n + 1 => (shardCycle F k).bind fun _ => shardCycles F k n

section
variable {P : ShardId → Partner} {w : Worker} {k : ShardId} {b : Book} {deferred : Bool} {l : List Call}
  {p : Option SequenceNumber} {s t : Site} {rows : List Lease}

theorem Resting.scanned (h : Resting w k deferred l p s) (a : Except AwsError (List Lease)) :
    Resting w k deferred l p (s.scanned a) := by
  have hm := mishaps_scanned (k := k) s a
  rcases h with ⟨c, y, z, e, h⟩ | h
  · refine Or.inl ⟨c, y, z, e, ?_⟩
    cases a <;> exact h.same rfl rfl hm rfl rfl
  · obtain ⟨l', he, hl'⟩ := h.ended
    cases a <;> exact Or.inr ⟨h.calls, h.deferring, h.pending, h.row, l', he, fun hx => (hl' hx).mono hm⟩

/-- What the worker sees of its shard in the rows of a scan that was not stale. -/
def Shows (w : Worker) (k : ShardId) (deferred : Bool) (l : List Call) (p : Option SequenceNumber) (rows : List Lease)
    (s : Site) : Prop :=
  ∃ r ∈ rows, r.leaseKey = k ∧ (rows.map Lease.leaseKey).Nodup ∧
    ((∃ y, y.or r.checkpoint = p ∧ r.owner = some w ∧ r.completed = false ∧
      Holding w k deferred r.leaseCounter l y r.checkpoint s) ∨
    (r.completed = true ∧ Concluded w k deferred l p s))

theorem Shows.apart (h : Shows w k deferred l p rows s) (ha : Apart w k s t) : Shows w k deferred l p rows t := by
  obtain ⟨r, hr, hkey, hnodup, ⟨y, e, ho, hc, h⟩ | ⟨hc, h⟩⟩ := h
  · exact ⟨r, hr, hkey, hnodup, Or.inl ⟨y, e, ho, hc, h.apart ha⟩⟩
  · exact ⟨r, hr, hkey, hnodup, Or.inr ⟨hc, h.apart ha⟩⟩

theorem Shows.resting (h : Shows w k deferred l p rows s) : Resting w k deferred l p s := by
  obtain ⟨r, _, _, _, ⟨y, e, _, _, h⟩ | ⟨_, h⟩⟩ := h
  · exact Or.inl ⟨r.leaseCounter, y, r.checkpoint, e, h⟩
  · exact Or.inr h

theorem undisturbed_list {B : List Call → Prop} (h : Resting w k deferred l p s) (hB : B l) :
    Undisturbed P w k B dynamoDbLeaseStore.list (fun x s' =>
      ((∃ e, x = .error e) ∧ Resting w k deferred l p s' ∧ (s.mishaps k).length < (s'.mishaps k).length) ∨
      ∃ rows, x = .ok rows ∧ Shows w k deferred l p rows s') s := by
  refine solo_bind _ _ (undisturbed_req ?_)
  intro s₁ h₁ _ a s₂ he hok
  obtain ⟨⟨a', u⟩, hscan, hx⟩ := Option.map_eq_some_iff.mp he
  cases hx
  have h₂ := (h.apart h₁).scanned a'
  refine ⟨h₂.calls ▸ hB, ?_⟩
  cases a' with
  | error e =>
    refine Or.inl ⟨⟨_, rfl⟩, h₂, ?_⟩
    rw [← h₁.mishaps]
    exact Nat.lt_succ_self _
  | ok rows =>
    refine Or.inr ⟨rows, rfl, ?_⟩
    have hnodup := ((execScan_eq hscan).2 rows rfl).2
    have hfresh : lookupRow rows k = s₁.row k := by
      by_contra hne
      have hne' : ¬ lookupRow rows k = s₁.world.table k := hne
      simp [Site.undisturbed, Site.scanned, hne', Mishap.fresh] at hok
    rcases h₂ with ⟨c, y, z, e, h₂⟩ | h₂
    · obtain ⟨r, hr, hkey, howner, hc, hcomp, hz⟩ := h₂.row
      have hmem := lookupRow_mem (hfresh.trans hr)
      subst hc
      subst hz
      exact ⟨r, hmem.1, hkey, hnodup, Or.inl ⟨y, e, howner, hcomp, h₂⟩⟩
    · obtain ⟨r, hr, hkey, hcomp, _⟩ := h₂.row
      have hmem := lookupRow_mem (hfresh.trans hr)
      exact ⟨r, hmem.1, hkey, hnodup, Or.inr ⟨hcomp, h₂⟩⟩

theorem pending_retain_of_mem {m : Memory} {owned : List ShardId} (h : k ∈ owned ∨ m.pending k = none) :
    ({ m with ckptDefer := m.ckptDefer.map fun d => d.retain owned } : Memory).pending k = m.pending k := by
  unfold Memory.pending at h ⊢
  cases hd : m.ckptDefer with
  | none => rfl
  | some d =>
    rw [hd] at h
    simp only [Option.map_some, Option.bind_some, CkptDefer.resumeFrom, CkptDefer.retain] at h ⊢
    split
    · rfl
    · rename_i hc
      rcases h with h | h
      · exact absurd (List.contains_iff_mem.mpr h) hc
      · exact h.symm

theorem undisturbed_prune {B : List Call → Prop} {owned : List ShardId} (hk : isShardKey k = true)
    (ho : owned = (ownedRows (rows.filter fun r => isShardKey r.leaseKey) w).map Lease.leaseKey)
    (h : Shows w k deferred l p rows s) (hB : B l) :
    Undisturbed P w k B (updateMem fun m => { m with ckptDefer := m.ckptDefer.map fun d => d.retain owned })
      (fun _ => Shows w k deferred l p rows) s := by
  refine undisturbed_accessMem (h.resting.calls ▸ hB) ?_
  intro s₁ h₁
  obtain ⟨r, hr, hkey, hnodup, h⟩ := h
  refine ⟨r, hr, hkey, hnodup, ?_⟩
  rcases h with ⟨y, e, howner, hcomp, h⟩ | ⟨hcomp, h⟩
  · have h₂ := h.apart h₁
    have hmem : k ∈ owned := by
      rw [ho]
      refine List.mem_map.mpr ⟨r, ?_, hkey⟩
      simp [ownedRows, hr, hkey, hk, howner, hcomp]
    refine Or.inl ⟨y, e, howner, hcomp, h₂.calls, ?_, ?_, h₂.row, h₂.unended⟩
    · simpa using h₂.deferring
    · rw [Site.mem_setMem, pending_retain_of_mem (Or.inl hmem)]
      exact h₂.pending
  · have h₂ := h.apart h₁
    refine Or.inr ⟨hcomp, h₂.calls, ?_, ?_, h₂.row, h₂.ended⟩
    · simpa using h₂.deferring
    · rw [Site.mem_setMem, pending_retain_of_mem (Or.inr h₂.pending)]
      exact h₂.pending

theorem undisturbed_shardCycle {cfg : FleetConfig} (hk : isShardKey k = true)
    (h : BetweenPasses P b cfg.owner k cfg.deferred s) :
    Undisturbed P cfg.owner k (InBook (P k) b) (shardCycle ⟨contractSource, dynamoDbLeaseStore, cfg⟩ k)
      (fun _ => BetweenPasses P b cfg.owner k cfg.deferred) s := by
  obtain ⟨m, hm, h⟩ := h
  have hB : InBook (P k) b (b.page (P k) m).calls := inBook_page m
  refine solo_seq (undisturbed_list h hB) ?_
  intro x s₁ hx
  rcases hx with ⟨⟨e, rfl⟩, h₁, _⟩ | ⟨rows, rfl, h₁⟩
  · exact ⟨m, hm, h₁⟩
  · refine solo_seq (undisturbed_prune hk rfl h₁ hB) ?_
    intro _ s₂ h₂
    split
    · exact ⟨m, hm, h₂.resting⟩
    · rename_i item hitem
      obtain ⟨r', hr', _, hcomp', _, rfl⟩ := Protocol.mem_eligibleOwned (List.mem_of_find?_eq_some hitem)
      have hkey' : r'.leaseKey = k := by simpa using List.find?_some hitem
      obtain ⟨r, hr, hkey, hnodup, h₂⟩ := h₂
      obtain rfl : r' = r :=
        List.inj_on_of_nodup_map hnodup (List.mem_of_mem_filter hr') hr (hkey'.trans hkey.symm)
      rcases h₂ with ⟨y, e, _, _, h₂⟩ | ⟨hcomp, _⟩
      · rw [hkey]
        refine solo_seq (undisturbed_runPass hm e h₂) ?_
        intro _ s₃ h₃
        exact h₃
      · rw [hcomp] at hcomp'
        cases hcomp'

theorem undisturbed_shardCycles {cfg : FleetConfig} (hk : isShardKey k = true) : ∀ (n : Nat) {s : Site},
    BetweenPasses P b cfg.owner k cfg.deferred s →
    Undisturbed P cfg.owner k (InBook (P k) b) (shardCycles ⟨contractSource, dynamoDbLeaseStore, cfg⟩ k n)
      (fun _ => BetweenPasses P b cfg.owner k cfg.deferred) s
  | 0, _, h => h
  | n + 1, s, h => by
    refine solo_seq (undisturbed_shardCycle hk h) ?_
    intro _ s₁ h₁
    exact undisturbed_shardCycles hk n h₁

end

end StreamsConsumer
