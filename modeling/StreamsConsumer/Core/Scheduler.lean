import StreamsConsumer.Core.Position
import StreamsConsumer.Graph.Tour

/-!
# The scheduler

`Scheduler` of `core/src/lib.rs`: one worker that drains a shard graph, each
shard once its parents are complete. Over a finite acyclic graph it visits
every shard, and the processor sees the shards one after the other.
-/

namespace StreamsConsumer
open Graph

inductive ProcessorCall where
  | initializeShard (shard : ShardId)
  | processRecords (records : List Record)
  | shardEnded (shard : ShardId)
  deriving DecidableEq, Repr

/-- Batches may be cut differently from call to call: the first argument of `getRecords` counts the calls. -/
structure StreamSource where
  describeShards : List ShardMeta
  getRecords : Nat → ShardId → Option SequenceNumber → RecordBatch

structure LeaseStore (σ : Type) where
  checkpoint : σ → ShardId → SequenceNumber → σ
  lastCheckpoint : σ → ShardId → Option SequenceNumber
  markComplete : σ → ShardId → σ
  isComplete : σ → ShardId → Bool

/-- A run so far: the store, how many reads there were, and what the processor was called with. -/
structure Drain (σ : Type) where
  store : σ
  reads : Nat
  seen : List ProcessorCall

namespace Drain

variable {σ : Type}

def call (st : Drain σ) (c : ProcessorCall) : Drain σ := { st with seen := st.seen ++ [c] }

end Drain

namespace Scheduler

section
variable {σ : Type} (src : StreamSource) (L : LeaseStore σ)

def eligible (store : σ) (m : ShardMeta) : Bool :=
  if L.isComplete store m.id then false else m.parents.all fun p => L.isComplete store p

def absorb (shard : ShardId) (records : List Record) (st : Drain σ) : Drain σ :=
  match records.getLast? with
  | some last => { st.call (.processRecords records) with store := L.checkpoint st.store shard last.seq }
  | none => st

def finish (shard : ShardId) (st : Drain σ) : Drain σ :=
  { st.call (.shardEnded shard) with store := L.markComplete st.store shard }

def drain (shard : ShardId) : Nat → Drain σ → Option (Drain σ)
  | 0, _ => none
  | fuel + 1, st =>
    let batch := src.getRecords st.reads shard (L.lastCheckpoint st.store shard)
    let st' := absorb L shard batch.records { st with reads := st.reads + 1 }
    if batch.shardEnd then some (finish L shard st')
    else if batch.records.isEmpty then some st'
    else drain shard fuel st'

/-- One pass over the listed shards, and whether it worked on any. -/
def sweep (fuel : Nat) : List ShardMeta → Bool → Drain σ → Option (Bool × Drain σ)
  | [], progressed, st => some (progressed, st)
  | m :: ms, progressed, st =>
    if eligible L st.store m then
      (drain src L m.id fuel (st.call (.initializeShard m.id))).bind fun st' => sweep fuel ms true st'
    else sweep fuel ms progressed st

def run : Nat → Drain σ → Option (Drain σ)
  | 0, _ => none
  | fuel + 1, st =>
    if src.describeShards.all fun m => L.isComplete st.store m.id then some st
    else
      (sweep src L fuel src.describeShards false st).bind fun x =>
        if x.1 then run fuel x.2 else some x.2

end

end Scheduler

/-! ## Sources that come to an end -/

def recordsAfter (log : List Record) : Option SequenceNumber → List Record
  | none => log
  | some q => (log.dropWhile fun r => decide (r.seq ≠ q)).tail

/-- A checkpoint of a shard: none, or a sequence number of its log. -/
def InLog (log : List Record) (cp : Option SequenceNumber) : Prop := ∀ q, cp = some q → q ∈ log.map Record.seq

/-- A batch from the front of what is left: not empty unless nothing is left, and the end is reported only there. -/
structure ServesRest (rest : List Record) (b : RecordBatch) : Prop where
  inOrder : b.records <+: rest
  progress : rest ≠ [] → b.records ≠ []
  ends : b.shardEnd = true → b.records = rest
  closes : rest = [] → b.shardEnd = true

structure ServesLogs (log : ShardId → List Record) (getRecords : Nat → ShardId → Option SequenceNumber → RecordBatch) :
    Prop where
  distinct : ∀ s, ((log s).map Record.seq).Nodup
  own : ∀ s, ∀ r ∈ log s, r.shardId = s
  served : ∀ n s after, InLog (log s) after → ServesRest (recordsAfter (log s) after) (getRecords n s after)

section
variable {log : List Record} {after : Option SequenceNumber}

theorem recordsAfter_suffix (log : List Record) (after : Option SequenceNumber) : recordsAfter log after <:+ log := by
  cases after with
  | none => exact List.suffix_refl _
  | some q => exact (List.tail_suffix _).trans (List.dropWhile_suffix _)

theorem recordsAfter_some (hn : (log.map Record.seq).Nodup) {l₁ l₂ : List Record} {r : Record}
    (h : log = l₁ ++ r :: l₂) : recordsAfter log (some r.seq) = l₂ := by
  subst h
  have hpre : ∀ x ∈ l₁, (decide (x.seq ≠ r.seq)) = true := by
    intro x hx
    rw [List.map_append, List.nodup_append] at hn
    have hne := hn.2.2 x.seq (List.mem_map_of_mem hx) r.seq (by simp)
    simpa using hne
  simp only [recordsAfter]
  rw [List.dropWhile_append_of_pos hpre, List.dropWhile_cons_of_neg (by simp)]
  rfl

theorem recordsAfter_batch (hn : (log.map Record.seq).Nodup) {b rest : List Record} {r : Record}
    (h : recordsAfter log after = b ++ rest) (hr : b.getLast? = some r) : recordsAfter log (some r.seq) = rest := by
  obtain ⟨l, hl⟩ := recordsAfter_suffix log after
  obtain ⟨b', rfl⟩ := List.getLast?_eq_some_iff.mp hr
  rw [h] at hl
  have hlog : log = (l ++ b') ++ r :: rest := by
    rw [← hl]
    simp
  exact recordsAfter_some hn hlog

theorem inLog_batch {b rest : List Record} {r : Record} (h : recordsAfter log after = b ++ rest)
    (hr : b.getLast? = some r) : InLog log (some r.seq) := by
  intro q hq
  cases hq
  have hmem : r ∈ recordsAfter log after := by
    rw [h]
    exact List.mem_append_left _ (List.mem_of_getLast? hr)
  exact List.mem_map_of_mem ((recordsAfter_suffix log after).subset hmem)

end

/-! ## One shard -/

/-- The store does what its trait says. -/
structure LeaseStore.Lawful {σ : Type} (L : LeaseStore σ) : Prop where
  lastCheckpoint_checkpoint : ∀ s k q j, L.lastCheckpoint (L.checkpoint s k q) j =
    if j = k then some q else L.lastCheckpoint s j
  isComplete_checkpoint : ∀ s k q j, L.isComplete (L.checkpoint s k q) j = L.isComplete s j
  lastCheckpoint_markComplete : ∀ s k j, L.lastCheckpoint (L.markComplete s k) j = L.lastCheckpoint s j
  isComplete_markComplete : ∀ s k j, L.isComplete (L.markComplete s k) j = if j = k then true else L.isComplete s j

/-- Where a shard ends up that is drained from the checkpoint `cp` on. -/
def finalCheckpoint (rest : List Record) (cp : Option SequenceNumber) : Option SequenceNumber :=
  (rest.getLast?.map Record.seq).or cp

theorem finalCheckpoint_append {b rest : List Record} {r : Record} {cp : Option SequenceNumber} (h : b.getLast? = some r) :
    finalCheckpoint (b ++ rest) cp = finalCheckpoint rest (some r.seq) := by
  unfold finalCheckpoint
  cases hl : rest.getLast? with
  | none => simp [List.getLast?_eq_none_iff.mp hl, h]
  | some x => simp [List.getLast?_append, hl]

/-- What the processor sees of a shard: the records, in batches that are not empty, and the end. -/
def Delivery (shard : ShardId) (records : List Record) (calls : List ProcessorCall) : Prop :=
  ∃ batches : List (List Record), (∀ b ∈ batches, b ≠ []) ∧ batches.flatten = records ∧
    calls = batches.map .processRecords ++ [.shardEnded shard]

theorem Delivery.cons {shard : ShardId} {b records : List Record} {calls : List ProcessorCall} (hb : b ≠ [])
    (h : Delivery shard records calls) : Delivery shard (b ++ records) (.processRecords b :: calls) := by
  obtain ⟨batches, hne, rfl, rfl⟩ := h
  refine ⟨b :: batches, ?_, rfl, rfl⟩
  intro b' hb'
  rcases List.mem_cons.mp hb' with rfl | hb'
  · exact hb
  · exact hne b' hb'

theorem Delivery.ended (shard : ShardId) : Delivery shard [] [.shardEnded shard] := ⟨[], by simp, rfl, rfl⟩

section
variable {σ : Type} {src : StreamSource} {L : LeaseStore σ} {log : ShardId → List Record}

/-- Draining a shard hands over everything after its checkpoint and marks it complete. -/
theorem Scheduler.drain_spec (hL : L.Lawful) (hs : ServesLogs log src.getRecords) {shard : ShardId} : ∀ {fuel : Nat}
    {st : Drain σ}, InLog (log shard) (L.lastCheckpoint st.store shard) →
    (recordsAfter (log shard) (L.lastCheckpoint st.store shard)).length < fuel →
    ∃ st' calls, Scheduler.drain src L shard fuel st = some st' ∧ st'.seen = st.seen ++ calls ∧
      Delivery shard (recordsAfter (log shard) (L.lastCheckpoint st.store shard)) calls ∧
      (∀ j, L.isComplete st'.store j = if j = shard then true else L.isComplete st.store j) ∧
      ∀ j, L.lastCheckpoint st'.store j = if j = shard then
        finalCheckpoint (recordsAfter (log shard) (L.lastCheckpoint st.store shard)) (L.lastCheckpoint st.store shard)
        else L.lastCheckpoint st.store j
  | 0, _, _, hf => by cases hf
  | fuel + 1, st, hin, hf => by
    have hserved := hs.served st.reads shard (L.lastCheckpoint st.store shard) hin
    unfold Scheduler.drain
    simp only
    generalize src.getRecords st.reads shard (L.lastCheckpoint st.store shard) = batch at hserved
    obtain ⟨rest, hrest⟩ := hserved.inOrder
    cases hlast : batch.records.getLast? with
    | none =>
      -- an empty batch: nothing was left, and the source says so
      have hempty : batch.records = [] := List.getLast?_eq_none_iff.mp hlast
      have hnone : recordsAfter (log shard) (L.lastCheckpoint st.store shard) = [] := by
        by_contra hne
        exact hserved.progress hne hempty
      rw [hserved.closes hnone, hempty, if_pos rfl]
      refine ⟨_, _, rfl, rfl, hnone ▸ Delivery.ended shard, ?_, ?_⟩
      · intro j
        exact hL.isComplete_markComplete _ _ _
      · intro j
        simp only [Scheduler.finish, Scheduler.absorb, List.getLast?_nil]
        rw [hL.lastCheckpoint_markComplete, hnone]
        split
        · rename_i hj
          rw [hj]
          rfl
        · rfl
    | some r =>
      have hne : batch.records ≠ [] := by
        intro he
        simp [he] at hlast
      have habsorb : Scheduler.absorb L shard batch.records { st with reads := st.reads + 1 } =
          ⟨L.checkpoint st.store shard r.seq, st.reads + 1, st.seen ++ [.processRecords batch.records]⟩ := by
        simp only [Scheduler.absorb, hlast, Drain.call]
      rw [habsorb]
      by_cases hend : batch.shardEnd = true
      · -- the batch reaches the end
        have hall := hserved.ends hend
        rw [if_pos hend]
        refine ⟨_, [.processRecords batch.records, .shardEnded shard], rfl, by simp [Scheduler.finish, Drain.call], ?_, ?_, ?_⟩
        · rw [← hall]
          simpa using Delivery.cons hne (Delivery.ended shard)
        · intro j
          simp only [Scheduler.finish]
          rw [hL.isComplete_markComplete, hL.isComplete_checkpoint]
        · intro j
          simp only [Scheduler.finish]
          rw [hL.lastCheckpoint_markComplete, hL.lastCheckpoint_checkpoint, ← hall]
          simp [finalCheckpoint, hlast]
      · rw [if_neg hend, if_neg (by simpa using hne)]
        -- the loop goes on after the last record of the batch
        have hcp : L.lastCheckpoint (L.checkpoint st.store shard r.seq) shard = some r.seq := by
          rw [hL.lastCheckpoint_checkpoint, if_pos rfl]
        have hafter := recordsAfter_batch (hs.distinct shard) hrest.symm hlast
        have hlen : rest.length < fuel := by
          have hpos : 0 < batch.records.length := List.length_pos_iff.mpr hne
          have htotal := congrArg List.length hrest
          rw [List.length_append] at htotal
          omega
        have hspec := @Scheduler.drain_spec hL hs shard fuel
          ⟨L.checkpoint st.store shard r.seq, st.reads + 1, st.seen ++ [.processRecords batch.records]⟩
        simp only [hcp, hafter] at hspec
        obtain ⟨st', calls, hrun, hseen, hdel, hcomplete, hcheckpoint⟩ := hspec (inLog_batch hrest.symm hlast) hlen
        refine ⟨st', .processRecords batch.records :: calls, hrun, ?_, ?_, ?_, ?_⟩
        · rw [hseen]
          simp
        · rw [← hrest]
          exact Delivery.cons hne hdel
        · intro j
          rw [hcomplete, hL.isComplete_checkpoint]
        · intro j
          rw [hcheckpoint, hL.lastCheckpoint_checkpoint]
          split
          · rw [← hrest, finalCheckpoint_append hlast]
          · rfl

end

/-! ## All shards -/

def Parent (metas : List ShardMeta) (p s : ShardId) : Prop := ∃ m ∈ metas, m.id = s ∧ p ∈ m.parents

structure ShardGraph (metas : List ShardMeta) : Prop where
  distinct : (metas.map ShardMeta.id).Nodup
  lineage : Acyclic (metas.map ShardMeta.id) (Parent metas)

theorem ShardGraph.exists_ready {metas : List ShardMeta} (h : ShardGraph metas) {complete : ShardId → Bool}
    (hleft : ∃ m ∈ metas, complete m.id = false) :
    ∃ m ∈ metas, complete m.id = false ∧ ∀ p ∈ m.parents, complete p = true := by
  have htodo : ∃ s ∈ metas.map ShardMeta.id, complete s = false := by
    obtain ⟨m, hm, hc⟩ := hleft
    exact ⟨m.id, List.mem_map_of_mem hm, hc⟩
  obtain ⟨s, hs, hc, hready⟩ := h.lineage.exists_ready htodo
  obtain ⟨m, hm, rfl⟩ := List.mem_map.mp hs
  refine ⟨m, hm, hc, ?_⟩
  intro p hp
  simpa using hready p ⟨m, hm, rfl, hp⟩

inductive Visits (log : ShardId → List Record) (resume : ShardId → Option SequenceNumber) :
    List ShardId → List ProcessorCall → Prop where
  | nil : Visits log resume [] []
  | snoc {l : List ShardId} {calls d : List ProcessorCall} {s : ShardId} (h : Visits log resume l calls)
      (hd : Delivery s (recordsAfter (log s) (resume s)) d) : Visits log resume (l ++ [s]) (calls ++ .initializeShard s :: d)

inductive Sight where
  | initializeShard
  | record (r : Record)
  | ended
  deriving DecidableEq, Repr

def ProcessorCall.sights (s : ShardId) : ProcessorCall → List Sight
  | .initializeShard k => if k = s then [.initializeShard] else []
  | .processRecords rs => (rs.filter fun r => decide (r.shardId = s)).map .record
  | .shardEnded k => if k = s then [.ended] else []

def sights (s : ShardId) (calls : List ProcessorCall) : List Sight := calls.flatMap (ProcessorCall.sights s)

section
variable {log : ShardId → List Record} {resume : ShardId → Option SequenceNumber} {l : List ShardId}
  {calls d : List ProcessorCall} {s : ShardId} {records : List Record}

theorem Delivery.sights_own (h : Delivery s records d) (hown : ∀ r ∈ records, r.shardId = s) :
    sights s d = records.map .record ++ [.ended] := by
  obtain ⟨batches, -, rfl, rfl⟩ := h
  unfold sights
  rw [List.flatMap_append]
  congr 1
  · induction batches with
    | nil => rfl
    | cons b batches ih =>
      have hb : b.filter (fun r => decide (r.shardId = s)) = b :=
        List.filter_eq_self.mpr fun r hr => by simp [hown r (List.mem_append_left _ hr)]
      rw [List.map_cons, List.flatMap_cons, ih fun r hr => hown r (List.mem_append_right _ hr), List.flatten_cons,
        List.map_append]
      simp only [ProcessorCall.sights, hb]
  · simp [ProcessorCall.sights]

theorem Delivery.sights_other (h : Delivery s records d) (hown : ∀ r ∈ records, r.shardId = s) {k : ShardId} (hk : s ≠ k) :
    sights k d = [] := by
  obtain ⟨batches, _, rfl, rfl⟩ := h
  unfold sights
  rw [List.flatMap_eq_nil_iff]
  intro c hc
  rcases List.mem_append.mp hc with hc | hc
  · obtain ⟨b, hb, rfl⟩ := List.mem_map.mp hc
    simp only [ProcessorCall.sights, List.map_eq_nil_iff, List.filter_eq_nil_iff, decide_eq_true_eq]
    intro r hr e
    exact hk ((hown r (List.mem_flatten.mpr ⟨b, hb, hr⟩)).symm.trans e)
  · obtain rfl := List.mem_singleton.mp hc
    simp [ProcessorCall.sights, hk]

theorem Visits.sights_eq (h : Visits log resume l calls) (hn : l.Nodup) (hown : ∀ s, ∀ r ∈ log s, r.shardId = s)
    (k : ShardId) : sights k calls =
      if k ∈ l then .initializeShard :: ((recordsAfter (log k) (resume k)).map .record ++ [.ended]) else [] := by
  induction h with
  | nil => simp [sights]
  | @snoc l calls d s h hd ih =>
    have hs : s ∉ l := by
      have := (List.nodup_append.mp hn).2.2
      intro hmem
      exact this s hmem s (List.mem_singleton_self s) rfl
    have hrecords : ∀ r ∈ recordsAfter (log s) (resume s), r.shardId = s :=
      fun r hr => hown s r ((recordsAfter_suffix _ _).subset hr)
    have hsplit : sights k (calls ++ .initializeShard s :: d) =
        sights k calls ++ (ProcessorCall.sights k (.initializeShard s) ++ sights k d) := by
      simp [sights]
    rw [hsplit, ih (List.nodup_append.mp hn).1]
    by_cases hk : s = k
    · subst hk
      rw [hd.sights_own hrecords]
      simp [hs, ProcessorCall.sights]
    · rw [hd.sights_other hrecords hk]
      have hmem : k ∈ l ++ [s] ↔ k ∈ l := by simp [Ne.symm hk]
      simp only [ProcessorCall.sights, hk, if_false, List.append_nil, hmem]

theorem Visits.ended (h : Visits log resume l calls) (hs : s ∈ l) : .shardEnded s ∈ calls := by
  induction h with
  | nil => cases hs
  | snoc _ hd ih =>
    rcases List.mem_append.mp hs with hs | hs
    · exact List.mem_append_left _ (ih hs)
    · obtain rfl := List.mem_singleton.mp hs
      obtain ⟨batches, _, _, rfl⟩ := hd
      simp

theorem Delivery.no_initializeShard (h : Delivery s records d) (k : ShardId) : .initializeShard k ∉ d := by
  obtain ⟨batches, _, _, rfl⟩ := h
  simp

theorem Visits.split (h : Visits log resume l calls) : ∀ {c₁ c₂ : List ProcessorCall}, calls = c₁ ++ .initializeShard s :: c₂ →
    ∃ l₁ l₂, l = l₁ ++ s :: l₂ ∧ Visits log resume l₁ c₁ := by
  induction h with
  | nil =>
    intro c₁ c₂ he
    simp at he
  | @snoc l calls d s' h hd ih =>
    intro c₁ c₂ he
    rcases List.append_eq_append_iff.mp he with ⟨e, rfl, he'⟩ | ⟨e, rfl, he'⟩
    · cases e with
      | nil =>
        simp only [List.nil_append, List.cons.injEq, ProcessorCall.initializeShard.injEq] at he'
        obtain ⟨rfl, _⟩ := he'
        exact ⟨l, [], rfl, by simpa using h⟩
      | cons x e =>
        -- a delivery initializes nothing
        rw [List.cons_append, List.cons.injEq] at he'
        exact absurd (he'.2 ▸ List.mem_append_right _ List.mem_cons_self) (hd.no_initializeShard s)
    · cases e with
      | nil =>
        simp only [List.nil_append, List.cons.injEq, ProcessorCall.initializeShard.injEq] at he'
        obtain ⟨rfl, _⟩ := he'
        exact ⟨l, [], rfl, by simpa using h⟩
      | cons x e =>
        rw [List.cons_append, List.cons.injEq] at he'
        obtain ⟨rfl, _⟩ := he'
        obtain ⟨l₁, l₂, rfl, hv⟩ := ih rfl
        exact ⟨l₁, l₂ ++ [s'], by simp, hv⟩

end

/-! ## Engines

Where an engine stands that has drained some shards one after the other. It
took up each shard at the position `resume` and found the checkpoints `cp₀` and
the completed shards `done`. -/

structure EngineState (metas : List ShardMeta) (log : ShardId → List Record) (resume cp₀ : ShardId → Option SequenceNumber)
    (done : ShardId → Bool) (l : List ShardId) (calls : List ProcessorCall) (complete : ShardId → Bool)
    (checkpoint : ShardId → Option SequenceNumber) : Prop where
  tour : Tour (metas.map ShardMeta.id) (Parent metas) (fun s => done s = true) l
  visits : Visits log resume l calls
  complete_eq : ∀ s, complete s = (done s || decide (s ∈ l))
  checkpoint_eq : ∀ s, checkpoint s =
    if s ∈ l then finalCheckpoint (recordsAfter (log s) (resume s)) (cp₀ s) else cp₀ s

namespace EngineState

variable {metas : List ShardMeta} {log : ShardId → List Record} {resume cp₀ : ShardId → Option SequenceNumber}
  {done : ShardId → Bool} {l : List ShardId} {calls d : List ProcessorCall} {complete complete' : ShardId → Bool}
  {checkpoint checkpoint' : ShardId → Option SequenceNumber}

theorem refl : EngineState metas log resume cp₀ done [] [] done cp₀ where
  tour := .nil
  visits := .nil
  complete_eq s := by simp
  checkpoint_eq s := by simp

section
variable (h : EngineState metas log resume cp₀ done l calls complete checkpoint)
include h

theorem checkpoint_of_incomplete {s : ShardId} (hs : complete s = false) : checkpoint s = cp₀ s := by
  have hl : s ∉ l := by
    intro hl
    rw [h.complete_eq] at hs
    simp [hl] at hs
  rw [h.checkpoint_eq, if_neg hl]

theorem visit (hg : ShardGraph metas) {m : ShardMeta} (hm : m ∈ metas) (hc : complete m.id = false)
    (hp : ∀ p ∈ m.parents, complete p = true) (hd : Delivery m.id (recordsAfter (log m.id) (resume m.id)) d)
    (hcomplete : ∀ j, complete' j = if j = m.id then true else complete j)
    (hcheckpoint : ∀ j, checkpoint' j =
      if j = m.id then finalCheckpoint (recordsAfter (log m.id) (resume m.id)) (checkpoint m.id) else checkpoint j) :
    EngineState metas log resume cp₀ done (l ++ [m.id]) (calls ++ .initializeShard m.id :: d) complete' checkpoint' := by
  have hnew : done m.id = false ∧ m.id ∉ l := by
    rw [h.complete_eq] at hc
    simpa using hc
  refine ⟨.snoc h.tour (List.mem_map_of_mem hm) (by simp [hnew.1]) hnew.2 ?_, .snoc h.visits hd, ?_, ?_⟩
  · rintro p ⟨m', hm', he, hpm⟩
    obtain rfl : m' = m := List.inj_on_of_nodup_map hg.distinct hm' hm he
    have hdone := hp p hpm
    rw [h.complete_eq] at hdone
    simpa using hdone
  · intro s
    rw [hcomplete, h.complete_eq]
    by_cases hs : s = m.id
    · simp [hs]
    · simp [hs]
  · intro s
    rw [hcheckpoint, h.checkpoint_of_incomplete hc, h.checkpoint_eq]
    by_cases hs : s = m.id
    · simp [hs]
    · simp [hs]

theorem length_le : l.length ≤ metas.length := by simpa using h.tour.length_le

theorem sights_eq (hown : ∀ s, ∀ r ∈ log s, r.shardId = s) (s : ShardId) : sights s calls =
    if s ∈ l then .initializeShard :: ((recordsAfter (log s) (resume s)).map .record ++ [.ended]) else [] :=
  h.visits.sights_eq h.tour.nodup hown s

theorem parents_first {m : ShardMeta} (hm : m ∈ metas) {p : ShardId} (hp : p ∈ m.parents) (hdone : done p = false)
    {c₁ c₂ : List ProcessorCall} (he : calls = c₁ ++ .initializeShard m.id :: c₂) : .shardEnded p ∈ c₁ := by
  obtain ⟨l₁, l₂, hl, hv⟩ := h.visits.split he
  rcases h.tour.earlier hl ⟨m, hm, rfl, hp⟩ with hd | hmem
  · simp [hdone] at hd
  · exact hv.ended hmem

theorem mem_iff (hall : ∀ m ∈ metas, complete m.id = true) {s : ShardId} :
    s ∈ l ↔ s ∈ metas.map ShardMeta.id ∧ done s = false := by
  constructor
  · intro hs
    simpa using h.tour.mem hs
  · rintro ⟨hs, hd⟩
    obtain ⟨m, hm, rfl⟩ := List.mem_map.mp hs
    have hc := hall m hm
    rw [h.complete_eq, hd] at hc
    simpa using hc

end

end EngineState

/-- Two engines that found the same and left nothing agree in the end, whatever order they took. -/
theorem EngineState.agree {metas : List ShardMeta} {log : ShardId → List Record}
    {resume cp₀ : ShardId → Option SequenceNumber} {done : ShardId → Bool} {l l' : List ShardId}
    {calls calls' : List ProcessorCall} {complete complete' : ShardId → Bool}
    {checkpoint checkpoint' : ShardId → Option SequenceNumber}
    (h : EngineState metas log resume cp₀ done l calls complete checkpoint)
    (h' : EngineState metas log resume cp₀ done l' calls' complete' checkpoint')
    (hall : ∀ m ∈ metas, complete m.id = true) (hall' : ∀ m ∈ metas, complete' m.id = true)
    (hown : ∀ s, ∀ r ∈ log s, r.shardId = s) :
    (∀ s, complete s = complete' s) ∧ (∀ s, checkpoint s = checkpoint' s) ∧ ∀ s, sights s calls = sights s calls' := by
  have hmem : ∀ s, s ∈ l ↔ s ∈ l' := by
    intro s
    rw [h.mem_iff hall, h'.mem_iff hall']
  refine ⟨?_, ?_, ?_⟩
  · intro s
    rw [h.complete_eq, h'.complete_eq]
    simp only [hmem]
  · intro s
    rw [h.checkpoint_eq, h'.checkpoint_eq]
    simp only [hmem]
  · intro s
    rw [h.sights_eq hown, h'.sights_eq hown]
    simp only [hmem]

theorem exists_bound (metas : List ShardMeta) (log : ShardId → List Record) :
    ∃ bound, ∀ m ∈ metas, (log m.id).length < bound := by
  induction metas with
  | nil => exact ⟨0, by simp⟩
  | cons m metas ih =>
    obtain ⟨bound, ih⟩ := ih
    refine ⟨max ((log m.id).length + 1) bound, ?_⟩
    intro m' hm'
    rcases List.mem_cons.mp hm' with rfl | hm'
    · exact lt_max_of_lt_left (Nat.lt_succ_self _)
    · exact lt_max_of_lt_right (ih m' hm')

namespace Scheduler

section
variable {σ : Type} {src : StreamSource} {L : LeaseStore σ} {log : ShardId → List Record}

/-- The scheduler at `st`, started at `st₀`, has drained the shards of `l`. -/
def HasDrained (src : StreamSource) (L : LeaseStore σ) (log : ShardId → List Record) (st₀ st : Drain σ)
    (l : List ShardId) : Prop :=
  ∃ calls, st.seen = st₀.seen ++ calls ∧
    EngineState src.describeShards log (L.lastCheckpoint st₀.store) (L.lastCheckpoint st₀.store) (L.isComplete st₀.store) l
      calls (L.isComplete st.store) (L.lastCheckpoint st.store)

theorem eligible_iff {store : σ} {m : ShardMeta} : eligible L store m = true ↔
    L.isComplete store m.id = false ∧ ∀ p ∈ m.parents, L.isComplete store p = true := by
  unfold eligible
  cases L.isComplete store m.id <;> simp

variable {st₀ st : Drain σ} {l : List ShardId} {fuel : Nat}

theorem HasDrained.visit (h : HasDrained src L log st₀ st l) (hL : L.Lawful) (hs : ServesLogs log src.getRecords)
    (hg : ShardGraph src.describeShards)
    (hcp : ∀ m ∈ src.describeShards, InLog (log m.id) (L.lastCheckpoint st₀.store m.id))
    (hf : ∀ m ∈ src.describeShards, (log m.id).length < fuel) {m : ShardMeta} (hm : m ∈ src.describeShards)
    (he : eligible L st.store m = true) :
    ∃ st', drain src L m.id fuel (st.call (.initializeShard m.id)) = some st' ∧ HasDrained src L log st₀ st' (l ++ [m.id]) := by
  obtain ⟨calls, hseen, hd⟩ := h
  obtain ⟨hc, hp⟩ := eligible_iff.mp he
  have hresume := hd.checkpoint_of_incomplete hc
  have hlen : (recordsAfter (log m.id) (L.lastCheckpoint st.store m.id)).length < fuel :=
    (recordsAfter_suffix _ _).length_le.trans_lt (hf m hm)
  obtain ⟨st', d, hrun, hseen', hdel, hcomplete, hcheckpoint⟩ :=
    @drain_spec _ _ _ _ hL hs m.id fuel (st.call (.initializeShard m.id)) (hresume ▸ hcp m hm) hlen
  refine ⟨st', hrun, calls ++ .initializeShard m.id :: d, ?_, hd.visit hg hm hc hp (hresume ▸ hdel) hcomplete ?_⟩
  · rw [hseen']
    simp [Drain.call, hseen]
  · intro j
    rw [hcheckpoint, ← hresume]
    rfl

theorem HasDrained.sweep (hL : L.Lawful) (hs : ServesLogs log src.getRecords) (hg : ShardGraph src.describeShards)
    (hcp : ∀ m ∈ src.describeShards, InLog (log m.id) (L.lastCheckpoint st₀.store m.id))
    (hf : ∀ m ∈ src.describeShards, (log m.id).length < fuel) : ∀ {ms : List ShardMeta} {progressed : Bool}
    {st : Drain σ} {l : List ShardId}, (∀ m ∈ ms, m ∈ src.describeShards) → HasDrained src L log st₀ st l →
    ∃ progressed' st' l', Scheduler.sweep src L fuel ms progressed st = some (progressed', st') ∧
      HasDrained src L log st₀ st' l' ∧ l.length ≤ l'.length ∧
      ((∃ m ∈ ms, eligible L st.store m = true) → l.length < l'.length) ∧
      (progressed = true ∨ l.length < l'.length → progressed' = true)
  | [], progressed, st, l, _, h => ⟨progressed, st, l, rfl, h, Nat.le_refl _, by simp, by simp⟩
  | m :: ms, progressed, st, l, hms, h => by
    unfold Scheduler.sweep
    by_cases he : eligible L st.store m = true
    · rw [if_pos he]
      obtain ⟨st', hdrain, hd⟩ := h.visit hL hs hg hcp hf (hms m List.mem_cons_self) he
      obtain ⟨progressed', st'', l', hsweep, hd', hlen, _, hprog⟩ :=
        @HasDrained.sweep hL hs hg hcp hf ms true st' _ (fun m' hm' => hms m' (List.mem_cons_of_mem _ hm')) hd
      rw [hdrain]
      rw [List.length_append, List.length_singleton] at hlen
      exact ⟨progressed', st'', l', hsweep, hd', by omega, fun _ => by omega, fun _ => hprog (.inl rfl)⟩
    · rw [if_neg he]
      obtain ⟨progressed', st', l', hsweep, hd, hlen, hgrow, hprog⟩ :=
        @HasDrained.sweep hL hs hg hcp hf ms progressed st l (fun m' hm' => hms m' (List.mem_cons_of_mem _ hm')) h
      refine ⟨progressed', st', l', hsweep, hd, hlen, ?_, hprog⟩
      rintro ⟨m', hm', he'⟩
      rcases List.mem_cons.mp hm' with rfl | hm'
      · exact absurd he' he
      · exact hgrow ⟨m', hm', he'⟩

theorem HasDrained.run {bound : Nat} (hL : L.Lawful) (hs : ServesLogs log src.getRecords)
    (hg : ShardGraph src.describeShards)
    (hcp : ∀ m ∈ src.describeShards, InLog (log m.id) (L.lastCheckpoint st₀.store m.id))
    (hf : ∀ m ∈ src.describeShards, (log m.id).length < bound) : ∀ {k fuel : Nat} {st : Drain σ} {l : List ShardId},
    src.describeShards.length ≤ l.length + k → bound + k < fuel → HasDrained src L log st₀ st l →
    ∃ st' l', Scheduler.run src L fuel st = some st' ∧ HasDrained src L log st₀ st' l' ∧
      ∀ m ∈ src.describeShards, L.isComplete st'.store m.id = true
  | k, 0, st, l, _, hfuel, _ => by omega
  | k, fuel + 1, st, l, hk, hfuel, h => by
    unfold Scheduler.run
    by_cases hall : (src.describeShards.all fun m => L.isComplete st.store m.id) = true
    · rw [if_pos hall]
      exact ⟨st, l, rfl, h, by simpa using hall⟩
    · rw [if_neg hall]
      have hleft : ∃ m ∈ src.describeShards, L.isComplete st.store m.id = false := by simpa using hall
      obtain ⟨m, hm, hc, hp⟩ := hg.exists_ready hleft
      have hf' : ∀ m ∈ src.describeShards, (log m.id).length < fuel := by
        intro m hm
        have := hf m hm
        omega
      obtain ⟨progressed, st', l', hsweep, hd, _, hgrow, hprog⟩ :=
        @HasDrained.sweep _ _ _ _ st₀ fuel hL hs hg hcp hf' src.describeShards false st l (fun _ hm => hm) h
      have hlt := hgrow ⟨m, hm, eligible_iff.mpr ⟨hc, hp⟩⟩
      have hle : l'.length ≤ src.describeShards.length := by
        obtain ⟨_, _, hd⟩ := hd
        exact hd.length_le
      rw [hsweep, Option.bind_some, hprog (.inr hlt), if_pos rfl]
      exact @HasDrained.run bound hL hs hg hcp hf (k - 1) fuel st' l' (by omega) (by omega) hd

/-- Over a finite acyclic graph of shards that end, the scheduler returns with every shard complete. Of each
shard that was not complete the processor sees one initialization, all records after the initial checkpoint in
order, and one end, after the ends of the parents. -/
theorem run_drains_every_lineage (hL : L.Lawful) (hs : ServesLogs log src.getRecords)
    (hg : ShardGraph src.describeShards) (st : Drain σ)
    (hcp : ∀ m ∈ src.describeShards, InLog (log m.id) (L.lastCheckpoint st.store m.id)) :
    ∃ n, ∀ fuel, n ≤ fuel → ∃ st' calls, run src L fuel st = some st' ∧ st'.seen = st.seen ++ calls ∧
      (∀ m ∈ src.describeShards, L.isComplete st'.store m.id = true) ∧
      (∀ m ∈ src.describeShards, sights m.id calls =
        if L.isComplete st.store m.id then [] else
          .initializeShard :: ((recordsAfter (log m.id) (L.lastCheckpoint st.store m.id)).map .record ++ [.ended])) ∧
      ∀ m ∈ src.describeShards, ∀ p ∈ m.parents, L.isComplete st.store p = false →
        ∀ c₁ c₂, calls = c₁ ++ .initializeShard m.id :: c₂ → .shardEnded p ∈ c₁ := by
  have hbound := exists_bound src.describeShards log
  obtain ⟨bound, hbound⟩ := hbound
  refine ⟨bound + src.describeShards.length + 1, ?_⟩
  intro fuel hfuel
  have hstart : HasDrained src L log st st [] := ⟨[], by simp, .refl⟩
  obtain ⟨st', l, hrun, ⟨calls, hseen, hd⟩, hall⟩ :=
    @HasDrained.run _ _ _ _ st bound hL hs hg hcp hbound src.describeShards.length fuel st [] (by simp) (by omega) hstart
  refine ⟨st', calls, hrun, hseen, hall, ?_, ?_⟩
  · intro m hm
    rw [hd.sights_eq hs.own]
    simp only [hd.mem_iff hall]
    by_cases hc : L.isComplete st.store m.id = true
    · rw [if_pos hc, if_neg (by simp [hc])]
    · rw [if_neg hc, if_pos ⟨List.mem_map_of_mem hm, by simpa using hc⟩]
  · intro m hm p hp hdone c₁ c₂ he
    exact hd.parents_first hm hp hdone he

end

end Scheduler

/-! ## In memory -/

structure InMemLeases where
  checkpoints : ShardId → Option SequenceNumber
  complete : ShardId → Bool

def inMemLeases : LeaseStore InMemLeases where
  checkpoint s shard seq := { s with checkpoints := Function.update s.checkpoints shard (some seq) }
  lastCheckpoint s shard := s.checkpoints shard
  markComplete s shard := { s with complete := Function.update s.complete shard true }
  isComplete s shard := s.complete shard

theorem inMemLeases_lawful : inMemLeases.Lawful where
  lastCheckpoint_checkpoint s k q j := by simp [inMemLeases, Function.update_apply]
  isComplete_checkpoint _ _ _ _ := rfl
  lastCheckpoint_markComplete _ _ _ := rfl
  isComplete_markComplete s k j := by simp [inMemLeases, Function.update_apply]

def inMemSource (metas : List ShardMeta) (log : ShardId → List Record) : StreamSource where
  describeShards := metas
  getRecords _ shard after := ⟨recordsAfter (log shard) after, true, none⟩

theorem inMemSource_serves {metas : List ShardMeta} {log : ShardId → List Record}
    (hd : ∀ s, ((log s).map Record.seq).Nodup) (ho : ∀ s, ∀ r ∈ log s, r.shardId = s) :
    ServesLogs log (inMemSource metas log).getRecords where
  distinct := hd
  own := ho
  served _ _ _ _ := ⟨List.prefix_refl _, fun h => h, fun _ => rfl, fun _ => rfl⟩

namespace Scheduler

def mergeMetas : List ShardMeta := [⟨"c", ["a", "b"]⟩, ⟨"a", []⟩, ⟨"b", []⟩]

def mergeLog (s : ShardId) : List Record :=
  if s = "a" then [⟨"a", "1", []⟩, ⟨"a", "2", []⟩] else if s = "c" then [⟨"c", "3", []⟩] else []

theorem mergeMetas_graph : ShardGraph mergeMetas where
  distinct := by decide
  lineage := by
    refine Acyclic.of_rank (fun s => if s = "c" then 1 else 0) ?_ ?_
    · rintro p s - ⟨m, hm, rfl, hp⟩
      simp only [mergeMetas, List.mem_cons, List.not_mem_nil, or_false] at hm
      rcases hm with rfl | rfl | rfl <;> simp at hp
      rcases hp with rfl | rfl <;> simp [mergeMetas]
    · rintro p s ⟨m, hm, rfl, hp⟩
      simp only [mergeMetas, List.mem_cons, List.not_mem_nil, or_false] at hm
      rcases hm with rfl | rfl | rfl <;> simp at hp
      rcases hp with rfl | rfl <;> decide

theorem mergeLog_serves : ServesLogs mergeLog (inMemSource mergeMetas mergeLog).getRecords := by
  refine inMemSource_serves ?_ ?_
  · intro s
    unfold mergeLog
    split
    · decide
    · split <;> decide
  · intro s r hr
    unfold mergeLog at hr
    split at hr
    · rename_i hs
      simp only [List.mem_cons, List.not_mem_nil, or_false] at hr
      rcases hr with rfl | rfl <;> exact hs.symm
    · split at hr
      · rename_i hs
        rw [List.mem_singleton.mp hr]
        exact hs.symm
      · cases hr

def mergeStart : Drain InMemLeases := ⟨⟨fun s => if s = "a" then some "1" else none, fun _ => false⟩, 0, []⟩

theorem mergeStart_inLog : ∀ m ∈ mergeMetas, InLog (mergeLog m.id) (inMemLeases.lastCheckpoint mergeStart.store m.id) := by
  intro m hm q hq
  simp only [mergeMetas, List.mem_cons, List.not_mem_nil, or_false] at hm
  rcases hm with rfl | rfl | rfl <;> simp [inMemLeases, mergeStart] at hq
  subst hq
  decide

theorem run_drains_every_lineage_merge :
    ∃ n, ∀ fuel, n ≤ fuel → ∃ st' calls, run (inMemSource mergeMetas mergeLog) inMemLeases fuel mergeStart = some st' ∧
      st'.seen = [] ++ calls ∧ (∀ m ∈ mergeMetas, st'.store.complete m.id = true) ∧
      sights "a" calls = [.initializeShard, .record ⟨"a", "2", []⟩, .ended] := by
  obtain ⟨n, hn⟩ := run_drains_every_lineage inMemLeases_lawful mergeLog_serves mergeMetas_graph mergeStart mergeStart_inLog
  refine ⟨n, ?_⟩
  intro fuel hfuel
  obtain ⟨st', calls, hrun, hseen, hall, hsights, _⟩ := hn fuel hfuel
  exact ⟨st', calls, hrun, hseen, hall, hsights ⟨"a", []⟩ (by decide)⟩

end Scheduler

end StreamsConsumer
