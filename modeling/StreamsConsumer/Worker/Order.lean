import StreamsConsumer.Worker.World

/-!
# How the world evolves

Whatever the workers do, the trace and the row history only grow, a shard's log
only grows until it is closed, and shards are never forgotten. `Sane` collects
what every run keeps whatever the protocol: rows sit under their own key,
sequence numbers name one record, parents come before their children.
-/

namespace StreamsConsumer

namespace World

theorem forall_setMem {s : World} {w : Worker} {m : Memory} {Q : Worker → Memory → Prop}
    (h : ∀ v, Q v (s.mem v)) (hm : Q w m) (v : Worker) : Q v ((s.setMem w m).mem v) := by
  by_cases he : v = w
  · subst he
    simpa [setMem] using hm
  · simpa [setMem, he] using h v

@[simp] theorem write_table_self (s : World) (w : Worker) (key : ShardId) (op : DbOp) (row : Option Lease) :
    (s.write w key op row).table key = row := by
  simp [write]

theorem write_table_of_ne (s : World) {w : Worker} {key k : ShardId} {op : DbOp} {row : Option Lease} (h : k ≠ key) :
    (s.write w key op row).table k = s.table k := by
  simp [write, h]

theorem mem_write_history {s : World} {w : Worker} {key : ShardId} {op : DbOp} {row : Option Lease} {r : Lease}
    (h : r ∈ (s.write w key op row).history) : row = some r ∨ r ∈ s.history := by
  rcases List.mem_append.mp h with h | h
  · left
    simpa using h
  · exact Or.inr h

end World

theorem envStep_frame {e : Env} {s s' : World} (h : envStep e s = some s') :
    s'.table = s.table ∧ s'.history = s.history ∧ s'.mem = s.mem ∧
      ∀ x ∈ s'.trace, x ∈ s.trace ∨ ∃ k, x = .trimmed k := by
  cases e <;> simp only [envStep, Option.ite_none_right_eq_some, Option.some.injEq] at h
  case trim shard =>
    obtain ⟨_, rfl⟩ := h
    refine ⟨rfl, rfl, rfl, ?_⟩
    intro x hx
    rcases List.mem_cons.mp hx with hx | hx
    · exact Or.inr ⟨shard, hx⟩
    · exact Or.inl hx
  all_goals first
    | (subst h; exact ⟨rfl, rfl, rfl, fun _ hx => Or.inl hx⟩)
    | (obtain ⟨_, rfl⟩ := h; exact ⟨rfl, rfl, rfl, fun _ hx => Or.inl hx⟩)

theorem envStep_trace {e : Env} {s s' : World} (h : envStep e s = some s') :
    s'.trace = s.trace ∨ ∃ k, s'.trace = .trimmed k :: s.trace := by
  cases e <;> simp only [envStep, Option.ite_none_right_eq_some, Option.some.injEq] at h
  case trim shard =>
    obtain ⟨_, rfl⟩ := h
    exact Or.inr ⟨shard, rfl⟩
  all_goals first
    | (subst h; exact Or.inl rfl)
    | (obtain ⟨_, rfl⟩ := h; exact Or.inl rfl)

structure Extends (s s' : World) : Prop where
  trace : s.trace <:+ s'.trace
  history : s.history <:+ s'.history
  log : ∀ k, s.stream.log k <+: s'.stream.log k
  closed : ∀ k, s.stream.closed k = true → s'.stream.closed k = true ∧ s'.stream.log k = s.stream.log k
  metas : s.stream.metas <+: s'.stream.metas

namespace Extends

theorem refl (s : World) : Extends s s where
  trace := List.suffix_rfl
  history := List.suffix_rfl
  log _ := List.prefix_rfl
  closed _ h := ⟨h, rfl⟩
  metas := List.prefix_rfl

theorem trans {a b c : World} (h₁ : Extends a b) (h₂ : Extends b c) : Extends a c where
  trace := h₁.trace.trans h₂.trace
  history := h₁.history.trans h₂.history
  log k := (h₁.log k).trans (h₂.log k)
  closed k h := by
    obtain ⟨hb, eb⟩ := h₁.closed k h
    obtain ⟨hc, ec⟩ := h₂.closed k hb
    exact ⟨hc, ec.trans eb⟩
  metas := h₁.metas.trans h₂.metas

theorem write (s : World) (w : Worker) (key : ShardId) (op : DbOp) (row : Option Lease) :
    Extends s (s.write w key op row) where
  trace := List.suffix_cons _ _
  history := List.suffix_append _ _
  log _ := List.prefix_rfl
  closed _ h := ⟨h, rfl⟩
  metas := List.prefix_rfl

theorem record (s : World) (e : Event) : Extends s (s.record e) :=
  { refl s with trace := List.suffix_cons _ _ }

theorem setMem (s : World) (w : Worker) (m : Memory) : Extends s (s.setMem w m) := { refl s with }

theorem env {e : Env} {s s' : World} (h : envStep e s = some s') : Extends s s' := by
  cases e with
  | advance ms => cases h; exact { refl s with }
  | append shard r =>
    simp only [envStep, Option.ite_none_right_eq_some, Option.some.injEq] at h
    obtain ⟨hr, rfl⟩ := h
    refine { refl s with log := fun k => ?_, closed := fun k hk => ⟨hk, ?_⟩ }
    · by_cases he : k = shard
      · subst he
        simp
      · simp [he]
    · have he : k ≠ shard := fun e => by rw [e, hr.1] at hk; cases hk
      simp [he]
  | close shard =>
    cases h
    refine { refl s with closed := fun k hk => ⟨?_, rfl⟩ }
    by_cases he : k = shard <;> simp [he, hk]
  | appear m =>
    simp only [envStep, Option.ite_none_right_eq_some, Option.some.injEq] at h
    obtain ⟨_, rfl⟩ := h
    exact { refl s with metas := List.prefix_append _ _ }
  | trim shard =>
    simp only [envStep, Option.ite_none_right_eq_some, Option.some.injEq] at h
    obtain ⟨_, rfl⟩ := h
    exact { refl s with trace := List.suffix_cons _ _ }

theorem mem_trace {s s' : World} (h : Extends s s') {e : Event} (he : e ∈ s.trace) : e ∈ s'.trace :=
  h.trace.mem he

theorem mem_metas {s s' : World} (h : Extends s s') {m : ShardMeta} (hm : m ∈ s.stream.metas) :
    m ∈ s'.stream.metas :=
  h.metas.mem hm

end Extends

def MarkedIn (tr : List Event) (k : ShardId) : Prop := ∃ w o c row, Event.wrote w k (.markComplete o c) row ∈ tr

theorem MarkedIn.mono {tr tr' : List Event} {k : ShardId} (h : tr <:+ tr') (hm : MarkedIn tr k) : MarkedIn tr' k := by
  obtain ⟨w, o, c, row, he⟩ := hm
  exact ⟨w, o, c, row, h.mem he⟩

theorem MarkedIn.of_cons {tr : List Event} {k : ShardId} {e : Event} (h : MarkedIn (e :: tr) k)
    (hne : ∀ w o c row, e ≠ .wrote w k (.markComplete o c) row) : MarkedIn tr k := by
  obtain ⟨w, o, c, row, hm⟩ := h
  rcases List.mem_cons.mp hm with rfl | hm
  · exact absurd rfl (hne w o c row)
  · exact ⟨w, o, c, row, hm⟩

def Event.marks (k : ShardId) : Event → Bool
  | .wrote _ j (.markComplete _ _) _ => j == k
  | _ => false

def Event.deletes (k : ShardId) : Event → Bool
  | .wrote _ j .deleteLease _ => j == k
  | _ => false

theorem markedIn_of_any {tr : List Event} {k : ShardId} (h : tr.any (Event.marks k) = true) : MarkedIn tr k := by
  obtain ⟨e, he, hk⟩ := List.any_eq_true.mp h
  unfold Event.marks at hk
  split at hk
  · rename_i w j o c row
    rw [beq_iff_eq.mp hk] at he
    exact ⟨w, o, c, row, he⟩
  · cases hk

/-! ## Positions in a growing log -/

/-- A resume position that the log knows: its beginning, or one of its records. -/
def Known (log : List Record) (cp : Option SequenceNumber) : Prop :=
  ∀ q, cp = some q → q ∈ log.map Record.seq

theorem Known.mono {log log' : List Record} {cp : Option SequenceNumber} (h : log <+: log') (hk : Known log cp) :
    Known log' cp := fun q hq => (h.map Record.seq).mem (hk q hq)

theorem findIdx_of_mem {log : List Record} {q : SequenceNumber} (h : q ∈ log.map Record.seq) :
    ∃ i, log.findIdx? (fun r => r.seq = q) = some i ∧ i < log.length := by
  cases hf : log.findIdx? (fun r => r.seq = q) with
  | none =>
    rw [List.findIdx?_eq_none_iff] at hf
    obtain ⟨r, hr, rfl⟩ := List.mem_map.mp h
    simpa using hf r hr
  | some i =>
    refine ⟨i, rfl, ?_⟩
    rw [List.findIdx?_eq_some_iff_getElem] at hf
    exact hf.1

theorem position_append {log log' : List Record} {cp : Option SequenceNumber} (h : log <+: log') (hk : Known log cp) :
    position log' cp = position log cp := by
  cases cp with
  | none => rfl
  | some q =>
    obtain ⟨rest, rfl⟩ := h
    obtain ⟨i, hi, _⟩ := findIdx_of_mem (hk q rfl)
    simp [position, List.findIdx?_append, hi]

theorem position_le {log : List Record} {cp : Option SequenceNumber} : position log cp ≤ log.length := by
  cases cp with
  | none => simp [position]
  | some q =>
    cases hf : log.findIdx? (fun r => r.seq = q) with
    | none => simp [position, hf]
    | some i =>
      have hi := (List.findIdx?_eq_some_iff_getElem.mp hf).1
      simp only [position, hf, Option.map_some, Option.getD_some]
      omega

theorem position_getElem {log : List Record} (hn : (log.map Record.seq).Nodup) {i : Nat} (hi : i < log.length) :
    position log (some log[i].seq) = i + 1 := by
  have hf : log.findIdx? (fun r => r.seq = log[i].seq) = some i := by
    rw [List.findIdx?_eq_some_iff_getElem]
    refine ⟨hi, by simp, ?_⟩
    intro j hj
    have hne : log[j].seq ≠ log[i].seq := by
      intro e
      have hinj := List.nodup_iff_injective_get.mp hn
      have he : (⟨j, by simp; omega⟩ : Fin (log.map Record.seq).length) = ⟨i, by simpa using hi⟩ :=
        hinj (by simpa using e)
      simp only [Fin.mk.injEq] at he
      omega
    simpa using hne
  simp [position, hf]

theorem take_eq_of_grows {α : Type} {l l' : List α} (h : l <+: l') {n : Nat} (hn : n ≤ l.length) :
    l'.take n = l.take n := by
  obtain ⟨rest, rfl⟩ := h
  exact List.take_append_of_le_length hn

/-- A resume position whose meaning does not change any more: known to the log, or a start mode. -/
def Settled (log : List Record) (cp : Option SequenceNumber) : Prop := Known log cp ∨ cp = some SENTINEL_LATEST

theorem settled_none (log : List Record) : Settled log none := Or.inl fun q hq => by cases hq

theorem Settled.mono {log log' : List Record} {cp : Option SequenceNumber} (h : log <+: log')
    (hs : Settled log cp) : Settled log' cp := hs.imp_left fun hk => hk.mono h

theorem position_latest {log : List Record} (h : ∀ r ∈ log, r.seq ≠ SENTINEL_LATEST) :
    position log (some SENTINEL_LATEST) = 0 := by
  have hf : log.findIdx? (fun r => r.seq = SENTINEL_LATEST) = none := by
    rw [List.findIdx?_eq_none_iff]
    intro r hr
    simpa using h r hr
  simp [position, hf]

theorem Settled.position_eq {log log' : List Record} {cp : Option SequenceNumber} (h : log <+: log')
    (hr : ∀ r ∈ log', r.seq ≠ SENTINEL_LATEST) (hs : Settled log cp) : position log' cp = position log cp := by
  rcases hs with hk | rfl
  · exact position_append h hk
  · rw [position_latest hr, position_latest fun r hm => hr r (h.mem hm)]

theorem position_mono {log log' : List Record} (h : log <+: log') (cp : Option SequenceNumber) :
    position log cp ≤ position log' cp := by
  cases cp with
  | none => exact le_refl _
  | some q =>
    by_cases hq : q ∈ log.map Record.seq
    · rw [position_append h fun q' e => by cases e; exact hq]
    · have hf : log.findIdx? (fun r => r.seq = q) = none := by
        rw [List.findIdx?_eq_none_iff]
        intro r hr
        have : r.seq ≠ q := fun e => hq (e ▸ List.mem_map_of_mem hr)
        simpa using this
      simp [position, hf]

theorem seedCheckpoint_cases (i : InitialPosition) :
    i.seedCheckpoint = none ∨ i.seedCheckpoint = some SENTINEL_LATEST := by
  cases i
  · exact Or.inl rfl
  · exact Or.inr rfl

theorem childCp_cases (rows : List Lease) (parents : List ShardId) :
    childCp rows parents = none ∨ childCp rows parents = some SENTINEL_LATEST := by
  unfold childCp
  rw [childSeedCheckpoint_eq]
  split
  · exact Or.inr rfl
  · exact Or.inl rfl

/-! ## Runs of a log -/

/-- `records` are the records of `log` from `start` on. -/
def RunAt (log : List Record) (start : Nat) (records : List Record) : Prop :=
  (log.drop start).take records.length = records ∧ start + records.length ≤ log.length

namespace RunAt

theorem slice {log : List Record} {start n : Nat} (h : start + n ≤ log.length) :
    RunAt log start ((log.drop start).take n) ∧ ((log.drop start).take n).length = n := by
  have hl : ((log.drop start).take n).length = n := by
    rw [List.length_take, List.length_drop]
    omega
  exact ⟨⟨by rw [hl], by rw [hl]; exact h⟩, hl⟩

theorem mono {log log' : List Record} {start : Nat} {records : List Record} (h : RunAt log start records)
    (hp : log <+: log') : RunAt log' start records := by
  obtain ⟨rest, rfl⟩ := hp
  refine ⟨?_, ?_⟩
  · rw [List.drop_append_of_le_length (by have := h.2; omega), List.take_append_of_le_length, h.1]
    rw [List.length_drop]
    have := h.2
    omega
  · rw [List.length_append]
    have := h.2
    omega

variable {log : List Record} {start : Nat} {records : List Record}

theorem getElem (h : RunAt log start records) {i : Nat} (hi : i < records.length) :
    ∃ hl : start + i < log.length, log[start + i] = records[i] := by
  have hl : start + i < log.length := by
    have := h.2
    omega
  refine ⟨hl, ?_⟩
  have he : records[i]? = log[start + i]? := by
    rw [← h.1, List.getElem?_take_of_lt hi, List.getElem?_drop]
  rw [List.getElem?_eq_getElem hi, List.getElem?_eq_getElem hl] at he
  exact (Option.some.inj he).symm

theorem position_getElem (h : RunAt log start records) (hn : (log.map Record.seq).Nodup) {i : Nat}
    (hi : i < records.length) :
    position log (some records[i].seq) = start + i + 1 ∧ records[i].seq ∈ log.map Record.seq := by
  obtain ⟨hl, he⟩ := h.getElem hi
  rw [← he]
  exact ⟨StreamsConsumer.position_getElem hn hl, List.mem_map_of_mem (List.getElem_mem hl)⟩

theorem position_mem (h : RunAt log start records) (hn : (log.map Record.seq).Nodup) {q : SequenceNumber}
    (hq : q ∈ records.map Record.seq) :
    start < position log (some q) ∧ position log (some q) ≤ start + records.length ∧ q ∈ log.map Record.seq := by
  obtain ⟨r, hr, rfl⟩ := List.mem_map.mp hq
  obtain ⟨i, hi, rfl⟩ := List.mem_iff_getElem.mp hr
  obtain ⟨hp, hm⟩ := h.position_getElem hn hi
  rw [hp]
  exact ⟨by omega, by omega, hm⟩

theorem position_last (h : RunAt log start records) (hn : (log.map Record.seq).Nodup) (hne : records ≠ []) :
    position log (lastSeq records) = start + records.length ∧ Known log (lastSeq records) := by
  have hpos : 0 < records.length := List.length_pos_of_ne_nil hne
  have hlast : lastSeq records = some (records[records.length - 1].seq) := by
    unfold lastSeq
    rw [List.getLast?_eq_getElem?, List.getElem?_eq_getElem (by omega)]
    rfl
  obtain ⟨hp, hm⟩ := h.position_getElem hn (i := records.length - 1) (by omega)
  rw [hlast, hp]
  refine ⟨by omega, ?_⟩
  intro q hq
  cases hq
  exact hm

theorem mem_take (h : RunAt log start records) {r : Record} (hr : r ∈ log.take (start + records.length)) :
    r ∈ log.take start ∨ r ∈ records := by
  rw [List.take_add, h.1] at hr
  exact List.mem_append.mp hr

end RunAt

/-! ## What every run keeps -/

structure Sane (s : World) : Prop where
  held : ∀ k r, s.table k = some r → r ∈ s.history ∧ r.leaseKey = k
  seqs : ∀ k, ((s.stream.log k).map Record.seq).Nodup
  real : ∀ k, ∀ r ∈ s.stream.log k, r.seq ≠ SENTINEL_LATEST
  named : ∀ k, ∀ r ∈ s.stream.log k, r.shardId = k ∧ r.seq ≠ ""
  ids : (s.stream.metas.map ShardMeta.id).Nodup
  shardKey : ∀ m ∈ s.stream.metas, isShardKey m.id = true
  parents : ∀ m ∈ s.stream.metas, ∀ p ∈ m.parents, p ∈ s.stream.metas.map ShardMeta.id
  listed : ∀ k ∈ s.stream.listed, k ∈ s.stream.metas.map ShardMeta.id
  trimmed : ∀ m ∈ s.stream.metas, m.id ∈ s.stream.listed ∨ Event.trimmed m.id ∈ s.trace
  gone : ∀ k, Event.trimmed k ∈ s.trace → k ∈ s.stream.metas.map ShardMeta.id ∧ k ∉ s.stream.listed

namespace Sane

theorem init (D : Deployment) : Sane D.init where
  held _ _ h := by cases h
  seqs _ := List.nodup_nil
  real _ _ h := by cases h
  named _ _ h := by cases h
  ids := List.nodup_nil
  shardKey _ h := by cases h
  parents _ h := by cases h
  listed _ h := by cases h
  trimmed _ h := by cases h
  gone _ h := by cases h

theorem write {s : World} (h : Sane s) {w : Worker} {key : ShardId} {op : DbOp} {row : Option Lease}
    (ha : op.apply key (s.table key) = some row) : Sane (s.write w key op row) where
  held k r hr := by
    unfold World.write at hr ⊢
    by_cases hk : k = key
    · subst hk
      simp only [Function.update_self] at hr
      subst hr
      exact ⟨by simp, DbOp.apply_key ha fun r₀ h₀ => (h.held k r₀ h₀).2⟩
    · simp only [Function.update_of_ne hk] at hr
      exact ⟨List.mem_append_right _ (h.held k r hr).1, (h.held k r hr).2⟩
  seqs := h.seqs
  real := h.real
  named := h.named
  ids := h.ids
  shardKey := h.shardKey
  parents := h.parents
  listed := h.listed
  trimmed m hm := (h.trimmed m hm).imp_right (List.mem_cons_of_mem _)
  gone k hk := by
    rcases List.mem_cons.mp hk with hk | hk
    · cases hk
    · exact h.gone k hk

theorem record {s : World} (h : Sane s) {e : Event} (he : ∀ k, e ≠ .trimmed k) : Sane (s.record e) := by
  refine { h with trimmed := fun m hm => (h.trimmed m hm).imp_right (List.mem_cons_of_mem _), gone := ?_ }
  intro k hk
  rcases List.mem_cons.mp hk with hk | hk
  · exact absurd hk.symm (he k)
  · exact h.gone k hk

theorem setMem {s : World} (h : Sane s) (w : Worker) (m : Memory) : Sane (s.setMem w m) := { h with }

theorem append {s : World} (h : Sane s) {shard : ShardId} {r : Record} (hr : r.seq ≠ SENTINEL_LATEST)
    (hm : r.shardId = shard ∧ r.seq ≠ "") (hn : r.seq ∉ (s.stream.log shard).map Record.seq) :
    Sane { s with stream :=
      { s.stream with log := Function.update s.stream.log shard (s.stream.log shard ++ [r]) } } := by
  have hold : ∀ k, ∀ x ∈ Function.update s.stream.log shard (s.stream.log shard ++ [r]) k,
      x ∈ s.stream.log k ∨ k = shard ∧ x = r := by
    intro k x hx
    by_cases hk : k = shard
    · subst hk
      simp only [Function.update_self, List.mem_append, List.mem_singleton] at hx
      exact hx.imp_right fun e => ⟨rfl, e⟩
    · simp only [Function.update_of_ne hk] at hx
      exact Or.inl hx
  refine { h with seqs := fun k => ?_, real := fun k x hx => ?_, named := fun k x hx => ?_ }
  · by_cases hk : k = shard
    · subst hk
      simp only [Function.update_self, List.map_append, List.map_cons, List.map_nil]
      exact List.nodup_append.mpr ⟨h.seqs k, List.nodup_singleton _, by
        intro a ha b hb e
        rw [List.mem_singleton.mp hb] at e
        exact hn (e ▸ ha)⟩
    · simpa [hk] using h.seqs k
  · rcases hold k x hx with hx | ⟨_, rfl⟩
    · exact h.real k x hx
    · exact hr
  · rcases hold k x hx with hx | ⟨rfl, rfl⟩
    · exact h.named k x hx
    · exact hm

theorem appear {s : World} (h : Sane s) {m : ShardMeta} (hn : m.id ∉ s.stream.metas.map ShardMeta.id)
    (hk : isShardKey m.id = true) (hp : ∀ p ∈ m.parents, p ∈ s.stream.metas.map ShardMeta.id) :
    Sane { s with stream :=
      { s.stream with metas := s.stream.metas ++ [m], listed := m.id :: s.stream.listed } } := by
  have hold : ∀ k ∈ s.stream.metas.map ShardMeta.id, k ∈ (s.stream.metas ++ [m]).map ShardMeta.id := by
    intro k hk
    simp only [List.map_append, List.mem_append]
    exact Or.inl hk
  refine { h with ids := ?_, shardKey := ?_, parents := ?_, listed := ?_, trimmed := ?_, gone := ?_ }
  · simp only [List.map_append, List.map_cons, List.map_nil]
    exact List.nodup_append.mpr ⟨h.ids, List.nodup_singleton _, by
      intro a ha b hb e
      rw [List.mem_singleton.mp hb] at e
      exact hn (e ▸ ha)⟩
  · intro x hx
    rcases List.mem_append.mp hx with hx | hx
    · exact h.shardKey x hx
    · rw [List.mem_singleton.mp hx]
      exact hk
  · intro x hx p hpx
    rcases List.mem_append.mp hx with hx | hx
    · exact hold p (h.parents x hx p hpx)
    · rw [List.mem_singleton.mp hx] at hpx
      exact hold p (hp p hpx)
  · intro k hk
    rcases List.mem_cons.mp hk with rfl | hk
    · simp
    · exact hold k (h.listed k hk)
  · intro x hx
    rcases List.mem_append.mp hx with hx | hx
    · exact (h.trimmed x hx).imp_left (List.mem_cons_of_mem _)
    · rw [List.mem_singleton.mp hx]
      exact Or.inl (List.mem_cons_self ..)
  · intro k hk
    obtain ⟨hm, hl⟩ := h.gone k hk
    refine ⟨hold k hm, ?_⟩
    intro hin
    rcases List.mem_cons.mp hin with rfl | hin
    · exact hn hm
    · exact hl hin

theorem trim {s : World} (h : Sane s) {shard : ShardId} (hl : shard ∈ s.stream.listed) :
    Sane ({ s with stream := { s.stream with listed := s.stream.listed.filter (· ≠ shard) } }.record
      (.trimmed shard)) := by
  refine { h with listed := ?_, trimmed := ?_, gone := ?_ }
  · intro k hk
    exact h.listed k (List.mem_filter.mp hk).1
  · intro m hm
    by_cases he : m.id = shard
    · rw [he]
      exact Or.inr (List.mem_cons_self ..)
    · refine (h.trimmed m hm).imp (fun hl => ?_) (List.mem_cons_of_mem _)
      exact List.mem_filter.mpr ⟨hl, by simpa using he⟩
  · intro k hk
    rcases List.mem_cons.mp hk with hk | hk
    · cases hk
      exact ⟨h.listed _ hl, fun hin => by simpa using (List.mem_filter.mp hin).2⟩
    · obtain ⟨hm, hn⟩ := h.gone k hk
      exact ⟨hm, fun hin => hn (List.mem_filter.mp hin).1⟩

theorem env {e : Env} {s s' : World} (h : Sane s) (he : envStep e s = some s') : Sane s' := by
  cases e with
  | advance ms => cases he; exact { h with }
  | append shard r =>
    simp only [envStep, Option.ite_none_right_eq_some, Option.some.injEq] at he
    obtain ⟨⟨_, hs, hl, he, hn⟩, rfl⟩ := he
    exact h.append hl ⟨hs, he⟩ hn
  | close shard => cases he; exact { h with }
  | appear m =>
    simp only [envStep, Option.ite_none_right_eq_some, Option.some.injEq] at he
    obtain ⟨⟨hn, hk, hp⟩, rfl⟩ := he
    exact h.appear hn hk hp
  | trim shard =>
    simp only [envStep, Option.ite_none_right_eq_some, Option.some.injEq] at he
    obtain ⟨hl, rfl⟩ := he
    exact h.trim hl

end Sane

end StreamsConsumer
