import StreamsConsumer.Conc.Solo
import StreamsConsumer.Source.DdbStreams
import StreamsConsumer.Worker.Order

/-!
# Cursor reuse

`get_records` of the DynamoDB Streams source against a stream whose logs grow,
close and are trimmed while it runs, and whose requests fail at will. What the
cache says about its iterators is an invariant: they stand right after their
label, or at the trim point where the label cannot be continued.
-/

namespace StreamsConsumer
open Conc

/-- The page that was served last, and the trim point at that time. -/
structure PageRead where
  shard : ShardId
  start : Nat
  trim : Nat

/-- The stream, the memory of the source, and two notes for the theorems: which error the latest iterator request
for a position was answered with, if with one, and the last page. -/
structure Feed where
  log : ShardId → List Record
  trim : ShardId → Nat
  closed : ShardId → Bool
  mem : Memory
  clock : Nat
  refused : ShardId → SequenceNumber → Option AwsError
  lastRead : Option PageRead

inductive FeedChoice where
  | ok
  | ended
  | page (n : Nat) (last : Bool) (created : Option Int)
  | fault (e : AwsError)

namespace Feed

/-- A page starts at the position of its iterator; what was trimmed meanwhile is gone. -/
def front (s : Feed) (it : ShardIterator) : Nat := max it.pos (s.trim it.shard)

def iteratorPos (s : Feed) (shard : ShardId) : ShardIteratorType → Option SequenceNumber → Option Nat
  | .trimHorizon, _ => some (s.trim shard)
  | .latest, _ => some (s.log shard).length
  | .afterSequenceNumber, none => none
  | .afterSequenceNumber, some q => ((s.log shard).findIdx? fun r => r.seq = q).map (· + 1)

def answered (s : Feed) (shard : ShardId) (seq : Option SequenceNumber) (e : Option AwsError) : Feed :=
  match seq with
  | none => s
  | some q => { s with refused := Function.update s.refused shard (Function.update (s.refused shard) q e) }

def read (s : Feed) (it : ShardIterator) : Feed := { s with lastRead := some ⟨it.shard, s.front it, s.trim it.shard⟩ }

end Feed

/-- There is no iterator only at the end of a closed shard. -/
def execIterator (shard : ShardId) (type : ShardIteratorType) (seq : Option SequenceNumber) :
    FeedChoice → Feed → Option (Except AwsError (Option ShardIterator) × Feed)
  | .ok, s => (s.iteratorPos shard type seq).map fun pos => (.ok (some ⟨shard, pos⟩), s.answered shard seq none)
  | .ended, s => (s.iteratorPos shard type seq).bind fun pos =>
      if s.closed shard = true ∧ s.front ⟨shard, pos⟩ = (s.log shard).length then
        some (.ok none, (s.answered shard seq none).read ⟨shard, pos⟩)
      else none
  | .fault e, s => some (.error e, s.answered shard seq (some e))
  | _, _ => none

/-- A page of any size; the next iterator continues after it, and there is none only at the end of a closed shard. -/
def execPage (it : ShardIterator) : FeedChoice → Feed → Option (Except AwsError Page × Feed)
  | .page n last created, s =>
    if s.front it + n ≤ (s.log it.shard).length ∧
        (last = true → s.closed it.shard = true ∧ s.front it + n = (s.log it.shard).length) then
      some (.ok (((s.log it.shard).drop (s.front it)).take n, created,
        if last then none else some ⟨it.shard, s.front it + n⟩), s.read it)
    else none
  | .fault e, s => some (.error e, s)
  | _, _ => none

def execFeed : (r : Req) → FeedChoice → Feed → Option (Resp r × Feed)
  | .getShardIterator shard type seq, c, s => execIterator shard type seq c s
  | .getRecordsAt it _, c, s => execPage it c s
  | .mem f, _, s => some ((f s.mem).1, { s with mem := (f s.mem).2 })
  | .now, _, s => some (s.clock, s)
  | .sleep _, _, s => some ((), s)
  | _, _, _ => none

def feedHandler : Handler Req Resp Unit FeedChoice Feed := ⟨fun _ => execFeed⟩

namespace Feed

structure Valid (s : Feed) : Prop where
  distinct : ∀ k, ((s.log k).map Record.seq).Nodup
  own : ∀ k, ∀ r ∈ s.log k, r.shardId = k
  numbered : ∀ k, ∀ r ∈ s.log k, r.seq ≠ "" ∧ r.seq ≠ SENTINEL_LATEST
  trim_le : ∀ k, s.trim k ≤ (s.log k).length

/-- Logs only grow, until they are closed, and trim points only advance. -/
structure Grows (s t : Feed) : Prop where
  log : ∀ k, s.log k <+: t.log k
  trim : ∀ k, s.trim k ≤ t.trim k
  closed : ∀ k, s.closed k = true → t.closed k = true ∧ t.log k = s.log k
  valid : s.Valid → t.Valid

/-- What happens between the requests of the source. -/
structure Passes (s t : Feed) : Prop where
  grows : s.Grows t
  mem : t.mem = s.mem
  refused : t.refused = s.refused
  lastRead : t.lastRead = s.lastRead

theorem Grows.refl (s : Feed) : s.Grows s :=
  ⟨fun _ => List.prefix_refl _, fun _ => le_refl _, fun _ h => ⟨h, rfl⟩, fun h => h⟩

theorem Grows.trans {s t u : Feed} (h : s.Grows t) (h' : t.Grows u) : s.Grows u where
  log k := (h.log k).trans (h'.log k)
  trim k := (h.trim k).trans (h'.trim k)
  closed k hc := by
    obtain ⟨hc', hl⟩ := h.closed k hc
    obtain ⟨hc'', hl'⟩ := h'.closed k hc'
    exact ⟨hc'', hl'.trans hl⟩
  valid hv := h'.valid (h.valid hv)

theorem Passes.refl (s : Feed) : s.Passes s := ⟨.refl s, rfl, rfl, rfl⟩

theorem Passes.trans {s t u : Feed} (h : s.Passes t) (h' : t.Passes u) : s.Passes u :=
  ⟨h.grows.trans h'.grows, h'.mem.trans h.mem, h'.refused.trans h.refused, h'.lastRead.trans h.lastRead⟩

end Feed

section
variable (src : DdbStreamsSource)

/-- The latest iterator request for the position was answered with a recoverable error. -/
def Refused (s : Feed) (shard : ShardId) (q : SequenceNumber) : Prop :=
  ∃ e, s.refused shard q = some e ∧ src.isRecoverable (.sdk e) = true

/-- Where a position cannot be continued: there is none, it was trimmed, or the service refused it. -/
def Restarts (s : Feed) (shard : ShardId) (after : Option SequenceNumber) (trim : Nat) : Prop :=
  after = none ∨ ∃ q, after = some q ∧ (position (s.log shard) (some q) ≤ trim ∨ Refused src s shard q)

structure Points (s : Feed) (shard : ShardId) (after : Option SequenceNumber) (it : ShardIterator) : Prop where
  shard_eq : it.shard = shard
  pos_le : it.pos ≤ (s.log shard).length
  place : (after ≠ none ∧ it.pos = position (s.log shard) after) ∨
    (it.pos ≤ s.trim shard ∧ Restarts src s shard after (s.trim shard))

structure CursorInv (s : Feed) : Prop where
  valid : s.Valid
  cursors : ∀ k c, s.mem.cursors k = some c → Known (s.log k) c.after ∧ Points src s k c.after c.iterator

/-- What a batch that was asked for at `s` and returned at `t` is: the records of the log from the start of the
page on, with the start right after `after`, or at the trim point where `after` cannot be continued. -/
def Continues (s t : Feed) (shard : ShardId) (after : Option SequenceNumber) (b : RecordBatch) : Prop :=
  ∃ page, t.lastRead = some page ∧ page.shard = shard ∧ RunAt (t.log shard) page.start b.records ∧
    (s.trim shard ≤ page.trim ∧ page.trim ≤ t.trim shard) ∧ page.trim ≤ page.start ∧
    ((after ≠ none ∧ page.start = position (t.log shard) after) ∨
      (page.start = page.trim ∧ Restarts src t shard after page.trim)) ∧
    (b.shardEnd = true → t.closed shard = true ∧ page.start + b.records.length = (t.log shard).length)

end

section
variable {src : DdbStreamsSource} {s t u : Feed} {shard k : ShardId} {after : Option SequenceNumber} {it : ShardIterator}

theorem Restarts.mono {trim trim' : Nat} (h : Restarts src s k after trim) (hg : s.Grows t) (hk : Known (s.log k) after)
    (hr : ∀ q, after = some q → t.refused k q = s.refused k q) (ht : trim ≤ trim') : Restarts src t k after trim' := by
  rcases h with rfl | ⟨q, rfl, htrim | ⟨e, he, hrec⟩⟩
  · exact Or.inl rfl
  · refine Or.inr ⟨q, rfl, Or.inl ?_⟩
    rw [position_append (hg.log k) hk]
    omega
  · exact Or.inr ⟨q, rfl, Or.inr ⟨e, (hr q rfl).trans he, hrec⟩⟩

theorem Points.mono (h : Points src s k after it) (hg : s.Grows t) (hk : Known (s.log k) after)
    (hr : ∀ q, after = some q → t.refused k q = s.refused k q) : Points src t k after it := by
  have hlen := (hg.log k).length_le
  have htrim := hg.trim k
  refine ⟨h.shard_eq, h.pos_le.trans hlen, ?_⟩
  rcases h.place with ⟨hne, hpos⟩ | ⟨hpos, hrestart⟩
  · refine Or.inl ⟨hne, ?_⟩
    rw [position_append (hg.log k) hk, hpos]
  · exact Or.inr ⟨hpos.trans htrim, hrestart.mono hg hk hr htrim⟩

theorem CursorInv.passes (h : CursorInv src s) (hp : s.Passes t) : CursorInv src t where
  valid := hp.grows.valid h.valid
  cursors k c hc := by
    rw [hp.mem] at hc
    obtain ⟨hk, hpoints⟩ := h.cursors k c hc
    exact ⟨hk.mono (hp.grows.log k), hpoints.mono hp.grows hk fun q _ => by rw [hp.refused]⟩

/-! ## Requests -/

@[simp] theorem Feed.answered_log (e : Option AwsError) : (s.answered shard after e).log = s.log := by
  cases after <;> rfl

@[simp] theorem Feed.answered_trim (e : Option AwsError) : (s.answered shard after e).trim = s.trim := by
  cases after <;> rfl

@[simp] theorem Feed.answered_closed (e : Option AwsError) : (s.answered shard after e).closed = s.closed := by
  cases after <;> rfl

@[simp] theorem Feed.answered_mem (e : Option AwsError) : (s.answered shard after e).mem = s.mem := by
  cases after <;> rfl

theorem Feed.answered_refused (e : Option AwsError) {q : SequenceNumber} :
    (s.answered shard after e).refused k q = if k = shard ∧ after = some q then e else s.refused k q := by
  cases after with
  | none => simp [Feed.answered]
  | some q' =>
    simp only [Feed.answered, Function.update_apply, Option.some.injEq]
    by_cases hk : k = shard
    · by_cases hq : q = q'
      · simp [hk, hq]
      · simp [hk, hq, Ne.symm hq]
    · simp [hk]

theorem Feed.grows_answered (e : Option AwsError) : s.Grows (s.answered shard after e) := by
  refine ⟨?_, ?_, ?_, ?_⟩
  · intro k
    rw [Feed.answered_log]
  · intro k
    rw [Feed.answered_trim]
  · intro k hc
    rw [Feed.answered_closed, Feed.answered_log]
    exact ⟨hc, rfl⟩
  · rintro ⟨hd, ho, hn, ht⟩
    exact ⟨by simpa using hd, by simpa using ho, by simpa using hn, by simpa using ht⟩

theorem Feed.grows_read (s : Feed) (it : ShardIterator) : s.Grows (s.read it) :=
  ⟨fun _ => List.prefix_refl _, fun _ => le_refl _, fun _ h => ⟨h, rfl⟩, fun h => ⟨h.distinct, h.own, h.numbered, h.trim_le⟩⟩

theorem CursorInv.answered (h : CursorInv src s) (e : Option AwsError)
    (hfree : ∀ c q, s.mem.cursors shard = some c → after = some q → c.after ≠ some q) :
    CursorInv src (s.answered shard after e) where
  valid := (Feed.grows_answered e).valid h.valid
  cursors k c hc := by
    rw [Feed.answered_mem] at hc
    obtain ⟨hk, hpoints⟩ := h.cursors k c hc
    refine ⟨by simpa using hk, hpoints.mono (Feed.grows_answered e) hk ?_⟩
    intro q hq
    rw [Feed.answered_refused, if_neg]
    rintro ⟨rfl, ha⟩
    exact hfree c q hc ha hq

theorem CursorInv.read (h : CursorInv src s) (it : ShardIterator) : CursorInv src (s.read it) where
  valid := (s.grows_read it).valid h.valid
  cursors k c hc := by
    obtain ⟨hk, hpoints⟩ := h.cursors k c hc
    exact ⟨hk, hpoints.mono (s.grows_read it) hk fun _ _ => rfl⟩

theorem CursorInv.store (h : CursorInv src s) {c : Option Cursor}
    (hc : ∀ c', c = some c' → Known (s.log shard) c'.after ∧ Points src s shard c'.after c'.iterator) :
    CursorInv src { s with mem := { s.mem with cursors := Function.update s.mem.cursors shard c } } where
  valid := ⟨h.valid.distinct, h.valid.own, h.valid.numbered, h.valid.trim_le⟩
  cursors k c' hk := by
    change Function.update s.mem.cursors shard c k = some c' at hk
    rw [Function.update_apply] at hk
    split at hk
    · rename_i he
      subst he
      obtain ⟨hknown, hpoints⟩ := hc c' hk
      exact ⟨hknown, ⟨hpoints.shard_eq, hpoints.pos_le, hpoints.place⟩⟩
    · obtain ⟨hknown, hpoints⟩ := h.cursors k c' hk
      exact ⟨hknown, ⟨hpoints.shard_eq, hpoints.pos_le, hpoints.place⟩⟩

/-! ## Batches -/

theorem Continues.later {b : RecordBatch} (h : Continues src s t shard after b) (hg : t.Grows u)
    (hread : u.lastRead = t.lastRead) (hr : u.refused = t.refused) (hk : Known (t.log shard) after) :
    Continues src s u shard after b := by
  obtain ⟨page, hpage, hshard, hrun, ⟨hlow, hhigh⟩, hstart, hplace, hend⟩ := h
  refine ⟨page, hread.trans hpage, hshard, hrun.mono (hg.log shard), ⟨hlow, hhigh.trans (hg.trim shard)⟩, hstart, ?_, ?_⟩
  · rcases hplace with ⟨hne, hpos⟩ | ⟨hpos, hrestart⟩
    · refine Or.inl ⟨hne, ?_⟩
      rw [position_append (hg.log shard) hk, hpos]
    · exact Or.inr ⟨hpos, hrestart.mono hg hk (fun q _ => by rw [hr]) (le_refl _)⟩
  · intro he
    obtain ⟨hc, hl⟩ := hend he
    obtain ⟨hc', hl'⟩ := hg.closed shard hc
    exact ⟨hc', by rw [hl', hl]⟩

theorem Continues.earlier {b : RecordBatch} (h : Continues src t u shard after b) (hg : s.Grows t) :
    Continues src s u shard after b := by
  obtain ⟨page, hpage, hshard, hrun, ⟨hlow, hhigh⟩, hrest⟩ := h
  exact ⟨page, hpage, hshard, hrun, ⟨(hg.trim shard).trans hlow, hhigh⟩, hrest⟩

theorem decodeRecords_eq {records : List Record} {start : Nat} (hv : s.Valid) (h : RunAt (s.log shard) start records) :
    DdbStreamsSource.decodeRecords shard records = records := by
  have hmem : ∀ r ∈ records, r ∈ s.log shard := by
    intro r hr
    rw [← h.1] at hr
    exact List.mem_of_mem_drop (List.mem_of_mem_take hr)
  unfold DdbStreamsSource.decodeRecords
  rw [List.filter_eq_self.mpr fun r hr => by simpa using (hv.numbered shard r (hmem r hr)).1]
  conv_rhs => rw [← List.map_id records]
  refine List.map_congr_left ?_
  intro r hr
  simp [← hv.own shard r (hmem r hr)]

theorem Points.front (h : Points src s shard after it) :
    s.trim shard ≤ s.front it ∧ ((after ≠ none ∧ s.front it = position (s.log shard) after) ∨
      (s.front it = s.trim shard ∧ Restarts src s shard after (s.trim shard))) := by
  unfold Feed.front
  rw [h.shard_eq]
  refine ⟨le_max_right _ _, ?_⟩
  rcases h.place with ⟨hne, hpos⟩ | ⟨hpos, hrestart⟩
  · obtain ⟨q, rfl⟩ := Option.ne_none_iff_exists'.mp hne
    by_cases htrim : it.pos ≤ s.trim shard
    · exact Or.inr ⟨max_eq_right htrim, Or.inr ⟨q, rfl, Or.inl (hpos ▸ htrim)⟩⟩
    · exact Or.inl ⟨hne, by rw [max_eq_left (by omega), hpos]⟩
  · exact Or.inr ⟨max_eq_right hpos, hrestart⟩

theorem Feed.front_le (hv : s.Valid) (h : Points src s shard after it) : s.front it ≤ (s.log shard).length := by
  unfold Feed.front
  rw [h.shard_eq]
  exact max_le h.pos_le (hv.trim_le shard)

theorem Points.continues (h : Points src s shard after it) {records : List Record} {ended : Bool} {behind : Option Int}
    (hrun : RunAt (s.log shard) (s.front it) records)
    (hend : ended = true → s.closed shard = true ∧ s.front it + records.length = (s.log shard).length) :
    Continues src s (s.read it) shard after ⟨records, ended, behind⟩ := by
  obtain ⟨htrim, hplace⟩ := h.front
  refine ⟨⟨it.shard, s.front it, s.trim it.shard⟩, rfl, h.shard_eq, hrun, ?_, ?_, ?_, hend⟩
  · rw [h.shard_eq]
    exact ⟨le_refl _, le_refl _⟩
  · rw [h.shard_eq]
    exact htrim
  · rw [h.shard_eq]
    exact hplace

theorem Points.next (hv : s.Valid) (hk : Known (s.log shard) after) (h : Points src s shard after it) {records : List Record}
    (hrun : RunAt (s.log shard) (s.front it) records) :
    Known (s.log shard) (advancedAfter after (lastSeq records)) ∧
      Points src s shard (advancedAfter after (lastSeq records)) ⟨shard, s.front it + records.length⟩ := by
  by_cases hne : records = []
  · subst hne
    refine ⟨hk, rfl, (by simpa using Feed.front_le hv h), ?_⟩
    obtain ⟨_, hplace⟩ := h.front
    rcases hplace with ⟨hsome, hpos⟩ | ⟨hpos, hrestart⟩
    · exact Or.inl ⟨hsome, hpos⟩
    · exact Or.inr ⟨le_of_eq hpos, hrestart⟩
  · obtain ⟨hpos, hknown⟩ := hrun.position_last (hv.distinct shard) hne
    have hsome : lastSeq records ≠ none := by
      simpa [lastSeq] using hne
    have hadv : advancedAfter after (lastSeq records) = lastSeq records := by
      obtain ⟨q, hq⟩ := Option.ne_none_iff_exists'.mp hsome
      rw [hq]
      rfl
    rw [hadv]
    exact ⟨hknown, rfl, hrun.2, Or.inl ⟨hsome, hpos.symm⟩⟩

end

/-! ## The calls of the source -/

/-- Every run of `p` from `s` that returns does so with `Q`, whatever passes between its requests. -/
abbrev Ensures {α : Type} (p : Fx α) (Q : α → Feed → Prop) (s : Feed) : Prop :=
  solo feedHandler Feed.Passes () (fun _ => True) p Q s

/-- What an iterator request for `after` leaves as it was. -/
structure CursorAsked (src : DdbStreamsSource) (s t : Feed) (shard : ShardId) (after : Option SequenceNumber) : Prop where
  inv : CursorInv src t
  grows : s.Grows t
  mem : t.mem = s.mem
  refused : ∀ k q, ¬ (k = shard ∧ after = some q) → t.refused k q = s.refused k q

section
variable {src : DdbStreamsSource} {s t u : Feed} {shard k : ShardId} {after : Option SequenceNumber} {it : ShardIterator}

theorem iteratorRequest_known (hv : s.Valid) (hk : Known (s.log shard) after) :
    (iteratorRequest after).2 = after ∧
      s.iteratorPos shard (iteratorRequest after).1 after = some (if after = none then s.trim shard else position (s.log shard) after) := by
  cases after with
  | none => exact ⟨rfl, rfl⟩
  | some q =>
    obtain ⟨r, hr, hq⟩ := List.mem_map.mp (hk q rfl)
    have hne : q ≠ SENTINEL_LATEST := hq ▸ (hv.numbered shard r hr).2
    obtain ⟨i, hi, _⟩ := findIdx_of_mem (hk q rfl)
    simp [iteratorRequest, StartPosition.fromCheckpoint, hne, Feed.iteratorPos, position, hi]

theorem Points.fresh (hv : s.Valid) :
    Points src s shard after ⟨shard, if after = none then s.trim shard else position (s.log shard) after⟩ := by
  by_cases hnone : after = none
  · subst hnone
    exact ⟨rfl, hv.trim_le shard, Or.inr ⟨le_refl _, Or.inl rfl⟩⟩
  · simp only [hnone, if_false]
    exact ⟨rfl, position_le, Or.inl ⟨hnone, rfl⟩⟩

theorem CursorAsked.answered (hi : CursorInv src s) (hp : s.Passes t) (e : Option AwsError)
    (hfree : ∀ c q, s.mem.cursors shard = some c → after = some q → c.after ≠ some q) :
    CursorAsked src s (t.answered shard after e) shard after where
  inv := (hi.passes hp).answered e (by rw [hp.mem]; exact hfree)
  grows := hp.grows.trans (Feed.grows_answered e)
  mem := by rw [Feed.answered_mem, hp.mem]
  refused k q hne := by rw [Feed.answered_refused, if_neg hne, hp.refused]

theorem execIterator_cases {type : ShardIteratorType} {seq : Option SequenceNumber} {c : FeedChoice}
    {a : Except AwsError (Option ShardIterator)} (h : execIterator shard type seq c s = some (a, t)) :
    (∃ pos, s.iteratorPos shard type seq = some pos ∧ a = .ok (some ⟨shard, pos⟩) ∧ t = s.answered shard seq none) ∨
    (∃ pos, s.iteratorPos shard type seq = some pos ∧ s.closed shard = true ∧
      s.front ⟨shard, pos⟩ = (s.log shard).length ∧ a = .ok none ∧ t = (s.answered shard seq none).read ⟨shard, pos⟩) ∨
    ∃ e, a = .error e ∧ t = s.answered shard seq (some e) := by
  cases c with
  | ok =>
    obtain ⟨pos, hpos, he⟩ := Option.map_eq_some_iff.mp h
    cases he
    exact Or.inl ⟨pos, hpos, rfl, rfl⟩
  | ended =>
    obtain ⟨pos, hpos, he⟩ := Option.bind_eq_some_iff.mp h
    split at he
    · rename_i hc
      cases he
      exact Or.inr (Or.inl ⟨pos, hpos, hc.1, hc.2, rfl, rfl⟩)
    · cases he
  | fault e =>
    cases h
    exact Or.inr (Or.inr ⟨e, rfl, rfl⟩)
  | page n last created => cases h

theorem ensures_derive (hi : CursorInv src s) (hk : Known (s.log shard) after)
    (hfree : ∀ c q, s.mem.cursors shard = some c → after = some q → c.after ≠ some q)
    {Q : Except BoxError (Option ShardIterator) → Feed → Prop}
    (hok : ∀ it t, CursorAsked src s t shard after → Points src t shard after it → Q (.ok (some it)) t)
    (hend : ∀ t, CursorAsked src s t shard after → Continues src s t shard after endOfShard → Q (.ok none) t)
    (herr : ∀ e t, CursorAsked src s t shard after → (∀ q, after = some q → t.refused shard q = some e) → Q (.error (.sdk e)) t) :
    Ensures (deriveIterator shard after) Q s := by
  unfold deriveIterator
  rw [(iteratorRequest_known hi.valid hk).1]
  intro t hp c a t' he
  refine ⟨trivial, ?_⟩
  have hv := hp.grows.valid hi.valid
  have hpos := (iteratorRequest_known hv (hk.mono (hp.grows.log shard))).2
  have hasked := fun e => CursorAsked.answered hi hp e hfree
  have hfresh : Points src (t.answered shard after none) shard after
      ⟨shard, if after = none then t.trim shard else position (t.log shard) after⟩ := by
    simpa using @Points.fresh src _ shard after (hasked none).inv.valid
  rcases execIterator_cases he with ⟨pos, hpos', rfl, rfl⟩ | ⟨pos, hpos', hclosed, hfront, rfl, rfl⟩ | ⟨e, rfl, rfl⟩
  · obtain rfl := Option.some.inj (hpos.symm.trans hpos')
    exact hok _ _ (hasked none) hfresh
  · obtain rfl := Option.some.inj (hpos.symm.trans hpos')
    refine hend _ ?_ ?_
    · exact ⟨(hasked none).inv.read _, (hasked none).grows.trans (Feed.grows_read _ _), (hasked none).mem,
        (hasked none).refused⟩
    · refine Continues.earlier (hfresh.continues ⟨by simp, ?_⟩ ?_) (hasked none).grows
      · simpa using Feed.front_le (hasked none).inv.valid hfresh
      · intro _
        unfold Feed.front at hfront ⊢
        simp only [Feed.answered_trim, Feed.answered_closed, Feed.answered_log, List.length_nil, Nat.add_zero]
        exact ⟨hclosed, hfront⟩
  · refine herr e _ (hasked (some e)) ?_
    intro q hq
    rw [Feed.answered_refused, if_pos ⟨rfl, hq⟩]

theorem execPage_cases {c : FeedChoice} {a : Except AwsError Page} (h : execPage it c s = some (a, t)) :
    (∃ records created next, a = .ok (records, created, next) ∧ t = s.read it ∧
      RunAt (s.log it.shard) (s.front it) records ∧
      (∀ it', next = some it' → it' = ⟨it.shard, s.front it + records.length⟩) ∧
      (next.isNone = true → s.closed it.shard = true ∧ s.front it + records.length = (s.log it.shard).length)) ∨
    ∃ e, a = .error e ∧ t = s := by
  cases c with
  | page n last created =>
    simp only [execPage] at h
    split at h
    · rename_i hcond
      cases h
      obtain ⟨hrun, hlen⟩ := RunAt.slice hcond.1
      refine Or.inl ⟨_, created, _, rfl, rfl, hrun, ?_, ?_⟩
      · intro it' hit
        rw [hlen]
        cases last with
        | true => cases hit
        | false => exact (Option.some.inj hit).symm
      · intro hnone
        rw [hlen]
        cases last with
        | true => exact hcond.2 rfl
        | false => cases hnone
    · cases h
  | fault e =>
    cases h
    exact Or.inr ⟨e, rfl, rfl⟩
  | ok => cases h
  | ended => cases h

structure PageFor (src : DdbStreamsSource) (s t : Feed) (shard : ShardId) (after : Option SequenceNumber) (page : Page) :
    Prop where
  decoded : DdbStreamsSource.decodeRecords shard page.1 = page.1
  continues : ∀ behind, Continues src s t shard after ⟨page.1, page.2.2.isNone, behind⟩
  next : ∀ it, page.2.2 = some it → Known (t.log shard) (advancedAfter after (lastSeq page.1)) ∧
    Points src t shard (advancedAfter after (lastSeq page.1)) it

theorem ensures_send (hi : CursorInv src s) (hk : Known (s.log shard) after) (hp : Points src s shard after it)
    {limit : Option Int} {Q : Except BoxError Page → Feed → Prop}
    (hok : ∀ page t, CursorAsked src s t shard after → t.refused = s.refused → PageFor src s t shard after page → Q (.ok page) t)
    (herr : ∀ e t, s.Passes t → Q (.error e) t) : Ensures (sendGetRecords limit it) Q s := by
  intro t hpass c a t' he
  refine ⟨trivial, ?_⟩
  have hi' := hi.passes hpass
  have hk' := hk.mono (hpass.grows.log shard)
  have hp' := hp.mono hpass.grows hk fun q _ => by rw [hpass.refused]
  rcases execPage_cases he with ⟨records, created, next, rfl, rfl, hrun, hnext, hend⟩ | ⟨e, rfl, rfl⟩
  · rw [hp'.shard_eq] at hrun hend
    refine hok (records, created, next) _ ?_ hpass.refused ⟨?_, ?_, ?_⟩
    · exact ⟨hi'.read it, hpass.grows.trans (Feed.grows_read _ _), hpass.mem, fun k q _ => by rw [← hpass.refused]; rfl⟩
    · exact decodeRecords_eq hi'.valid hrun
    · intro behind
      exact (hp'.continues hrun hend).earlier hpass.grows
    · intro it' hit
      obtain ⟨hknown, hpoints⟩ := hp'.next hi'.valid hk' hrun
      refine ⟨hknown, ?_⟩
      rw [hnext it' hit, hp'.shard_eq]
      exact ⟨hpoints.shard_eq, hpoints.pos_le, hpoints.place⟩
  · exact herr _ _ hpass

theorem ensures_access {β : Type} {f : Memory → β × Memory} {Q : β → Feed → Prop}
    (h : ∀ t, s.Passes t → Q (f t.mem).1 { t with mem := (f t.mem).2 }) : Ensures (accessMem f) Q s := by
  intro t hp c a t' he
  cases he
  exact ⟨trivial, h t hp⟩

theorem ensures_drop (hi : CursorInv src s) {Q : Unit → Feed → Prop}
    (h : ∀ t, CursorInv src t → s.Grows t → t.refused = s.refused → t.lastRead = s.lastRead →
      t.mem.cursors shard = none → Q () t) : Ensures (dropCursor shard) Q s := by
  refine ensures_access ?_
  intro t hp
  have hi' : CursorInv src { t with mem := { t.mem with cursors := Function.update t.mem.cursors shard none } } :=
    (hi.passes hp).store fun c hc => by cases hc
  exact h _ hi' ⟨hp.grows.log, hp.grows.trim, hp.grows.closed, fun _ => hi'.valid⟩ hp.refused hp.lastRead
    (Function.update_self ..)

theorem ensures_store {label : Option SequenceNumber} {next : Option ShardIterator} (hi : CursorInv src s)
    (hnext : ∀ it, next = some it → Known (s.log shard) label ∧ Points src s shard label it) {Q : Unit → Feed → Prop}
    (h : ∀ t, CursorInv src t → s.Grows t → t.refused = s.refused → t.lastRead = s.lastRead → Q () t) :
    Ensures (storeCursor shard label next) Q s := by
  refine ensures_access ?_
  intro t hp
  have hi' := @CursorInv.store src t shard (hi.passes hp) (next.map fun it => ⟨label, it⟩) (by
    intro c hc
    obtain ⟨it, hit, rfl⟩ := Option.map_eq_some_iff.mp hc
    obtain ⟨hknown, hpoints⟩ := hnext it hit
    exact ⟨hknown.mono (hp.grows.log shard), hpoints.mono hp.grows hknown fun q _ => by rw [hp.refused]⟩)
  exact h _ hi' ⟨hp.grows.log, hp.grows.trim, hp.grows.closed, fun _ => hi'.valid⟩ hp.refused hp.lastRead

theorem ensures_retry (hi : CursorInv src s) (hk : Known (s.log shard) after) (hp : Points src s shard after it)
    {limit : Option Int} {Q : Except BoxError Page → Feed → Prop}
    (hok : ∀ page t, CursorAsked src s t shard after → t.refused = s.refused → PageFor src s t shard after page → Q (.ok page) t)
    (herr : ∀ e t, s.Passes t → Q (.error e) t) (n delayMs : Nat) :
    Ensures (retryThrottled src.isThrottling (sendGetRecords limit it) n delayMs) Q s := by
  induction n generalizing s delayMs with
  | zero => exact ensures_send hi hk hp hok herr
  | succ n ih =>
    unfold retryThrottled
    refine solo_bind _ _ (ensures_send hi hk hp hok ?_)
    intro e t hpass
    simp only
    split
    · refine solo_bind _ _ ?_
      intro u hpass' c a u' he
      cases he
      refine ⟨trivial, ?_⟩
      have hpass'' := hpass.trans hpass'
      refine ih (hi.passes hpass'') (hk.mono (hpass''.grows.log shard))
        (hp.mono hpass''.grows hk fun q _ => by rw [hpass''.refused]) ?_ ?_ _
      · intro page v hasked hr hpage
        refine hok page v ⟨hasked.inv, hpass''.grows.trans hasked.grows, hasked.mem.trans hpass''.mem, ?_⟩
          (hr.trans hpass''.refused) ⟨hpage.decoded, fun behind => (hpage.continues behind).earlier hpass''.grows, hpage.next⟩
        intro k q hne
        rw [hasked.refused k q hne, hpass''.refused]
      · intro e v hv
        exact herr e v (hpass''.trans hv)
    · exact herr e t hpass

/-! ## One call -/

/-- What a call returns, with the invariant kept. -/
structure ReadReturns (src : DdbStreamsSource) (s t : Feed) (shard : ShardId) (after : Option SequenceNumber)
    (r : Except BoxError RecordBatch) : Prop where
  inv : CursorInv src t
  grows : s.Grows t
  batch : ∀ b, r = .ok b → Continues src s t shard after b

theorem ReadReturns.error {e : BoxError} (hi : CursorInv src t) (hg : s.Grows t) : ReadReturns src s t shard after (.error e) :=
  ⟨hi, hg, fun b hb => by cases hb⟩

theorem ReadReturns.ok {b : RecordBatch} (hi : CursorInv src t) (hg : s.Grows t) (hb : Continues src s t shard after b) :
    ReadReturns src s t shard after (.ok b) := by
  refine ⟨hi, hg, ?_⟩
  intro b' he
  cases he
  exact hb

/-- The iterator to read from, or the end of the call. -/
def Obtained (src : DdbStreamsSource) (s : Feed) (shard : ShardId) (after : Option SequenceNumber) :
    ShardIterator ⊕ Except BoxError RecordBatch → Feed → Prop
  | .inl it, t => CursorInv src t ∧ s.Grows t ∧ Points src t shard after it
  | .inr r, t => ReadReturns src s t shard after r

theorem Points.refused {q : SequenceNumber} (h : Points src s shard none it) (hr : Refused src s shard q) :
    Points src s shard (some q) it := by
  refine ⟨h.shard_eq, h.pos_le, ?_⟩
  rcases h.place with ⟨hne, _⟩ | ⟨hpos, _⟩
  · exact absurd rfl hne
  · exact Or.inr ⟨hpos, Or.inr ⟨q, rfl, Or.inr hr⟩⟩

theorem Continues.refused {q : SequenceNumber} {b : RecordBatch} (h : Continues src s t shard none b)
    (hr : Refused src t shard q) : Continues src s t shard (some q) b := by
  obtain ⟨page, hpage, hshard, hrun, hbounds, hstart, hplace, hend⟩ := h
  refine ⟨page, hpage, hshard, hrun, hbounds, hstart, ?_, hend⟩
  rcases hplace with ⟨hne, _⟩ | ⟨hpos, _⟩
  · exact absurd rfl hne
  · exact Or.inr ⟨hpos, Or.inr ⟨q, rfl, Or.inr hr⟩⟩

theorem ensures_fallback (hi : CursorInv src s) {q : SequenceNumber} (hr : Refused src s shard q) :
    Ensures (do
      match ← deriveIterator shard none with
      | .ok (some it) => return .inl it
      | .ok none => return .inr (.ok endOfShard)
      | .error e => return .inr (.error e)) (Obtained src s shard (some q)) s := by
  have hkeeps : ∀ t, CursorAsked src s t shard none → Refused src t shard q := by
    intro t hasked
    obtain ⟨e, he, hrec⟩ := hr
    exact ⟨e, (hasked.refused shard q (by simp)).trans he, hrec⟩
  refine solo_bind _ _ (ensures_derive hi (fun q' hq' => by cases hq') (fun c q' _ hq' => by cases hq') ?_ ?_ ?_)
  · intro it t hasked hpoints
    exact ⟨hasked.inv, hasked.grows, hpoints.refused (hkeeps t hasked)⟩
  · intro t hasked hcont
    exact ReadReturns.ok hasked.inv hasked.grows (hcont.refused (hkeeps t hasked))
  · intro e t hasked _
    exact ReadReturns.error hasked.inv hasked.grows

theorem Obtained.earlier {x : ShardIterator ⊕ Except BoxError RecordBatch} (h : Obtained src t shard after x u)
    (hg : s.Grows t) : Obtained src s shard after x u := by
  cases x with
  | inl it => exact ⟨h.1, hg.trans h.2.1, h.2.2⟩
  | inr r => exact ⟨h.inv, hg.trans h.grows, fun b hb => (h.batch b hb).earlier hg⟩

theorem ensures_obtain (hi : CursorInv src s) (hk : Known (s.log shard) after) :
    Ensures (src.obtainIterator shard after) (Obtained src s shard after) s := by
  unfold DdbStreamsSource.obtainIterator
  refine solo_bind _ _ (ensures_access ?_)
  intro t hp
  have hi' := hi.passes hp
  have hk' := hk.mono (hp.grows.log shard)
  cases hcur : ((t.mem.cursors shard).filter fun c => cursorContinues c.after after).map Cursor.iterator with
  | some it =>
    obtain ⟨c, hc, rfl⟩ := Option.map_eq_some_iff.mp hcur
    obtain ⟨hmem, hlabel⟩ := Option.filter_eq_some_iff.mp hc
    obtain rfl : c.after = after := by simpa [cursorContinues] using hlabel
    exact ⟨hi', hp.grows, (hi'.cursors shard c hmem).2⟩
  | none =>
    have hfree : ∀ c q, t.mem.cursors shard = some c → after = some q → c.after ≠ some q := by
      intro c q hc hq hlabel
      simp [hc, cursorContinues, hlabel, hq] at hcur
    refine solo_bind _ _ (ensures_derive hi' hk' hfree ?_ ?_ ?_)
    · intro it u hasked hpoints
      exact ⟨hasked.inv, hp.grows.trans hasked.grows, hpoints⟩
    · intro u hasked hcont
      refine solo_bind _ _ (ensures_drop hasked.inv ?_)
      intro v hi'' hg hr hread _
      refine ReadReturns.ok hi'' ((hp.grows.trans hasked.grows).trans hg) ?_
      exact ((hcont.earlier hp.grows).later hg hread hr (hk'.mono (hasked.grows.log shard)))
    · intro e u hasked hrefused
      simp only
      split
      · rename_i hcond
        rw [Bool.and_eq_true] at hcond
        obtain ⟨q, rfl⟩ := Option.isSome_iff_exists.mp hcond.2
        refine solo_mono _ ?_ (ensures_fallback hasked.inv ⟨e, hrefused q rfl, hcond.1⟩)
        intro x v hx
        exact hx.earlier (hp.grows.trans hasked.grows)
      · exact ReadReturns.error hasked.inv (hp.grows.trans hasked.grows)

/-- A page, or the end of the call. -/
def PageRead.Got (src : DdbStreamsSource) (s : Feed) (shard : ShardId) (after : Option SequenceNumber) :
    Page ⊕ Except BoxError RecordBatch → Feed → Prop
  | .inl page, t => CursorInv src t ∧ s.Grows t ∧ PageFor src s t shard after page
  | .inr r, t => ReadReturns src s t shard after r

theorem PageFor.earlier {page : Page} (h : PageFor src t u shard after page) (hg : s.Grows t) :
    PageFor src s u shard after page :=
  ⟨h.decoded, fun behind => (h.continues behind).earlier hg, h.next⟩

theorem ensures_readPage (hi : CursorInv src s) (hk : Known (s.log shard) after) (hp : Points src s shard after it) :
    Ensures (src.readPage shard after it) (PageRead.Got src s shard after) s := by
  unfold DdbStreamsSource.readPage
  refine solo_bind _ _ (ensures_retry hi hk hp ?_ ?_ 4 100)
  · intro page t hasked _ hpage
    exact ⟨hasked.inv, hasked.grows, hpage⟩
  · intro e t hpass
    simp only
    split
    · -- the iterator is dropped and derived once more
      refine solo_bind _ _ (ensures_drop (hi.passes hpass) ?_)
      intro u hi' hg _ _ hnone
      have hg' := hpass.grows.trans hg
      have hk' := hk.mono (hg'.log shard)
      refine solo_bind _ _ (ensures_derive hi' hk' (fun c q hc => by rw [hnone] at hc; cases hc) ?_ ?_ ?_)
      · intro fresh v hasked hpoints
        refine solo_bind _ _ (ensures_send hasked.inv (hk'.mono (hasked.grows.log shard)) hpoints ?_ ?_)
        · intro page x hasked' _ hpage
          have hgrows := hg'.trans hasked.grows
          exact ⟨hasked'.inv, hgrows.trans hasked'.grows, hpage.earlier hgrows⟩
        · intro e x hpass'
          exact ReadReturns.error (hasked.inv.passes hpass') ((hg'.trans hasked.grows).trans hpass'.grows)
      · intro v hasked hcont
        exact ReadReturns.ok hasked.inv (hg'.trans hasked.grows) (hcont.earlier hg')
      · intro e v hasked _
        exact ReadReturns.error hasked.inv (hg'.trans hasked.grows)
    · exact ReadReturns.error (hi.passes hpass) hpass.grows

/-- A call from a cache whose labels are right returns a batch that continues `after`, and leaves them right. -/
theorem ensures_getRecords (hi : CursorInv src s) (hk : Known (s.log shard) after) :
    Ensures (src.getRecords shard after) (fun r t => ReadReturns src s t shard after r) s := by
  unfold DdbStreamsSource.getRecords
  refine solo_bind _ _ (solo_mono _ ?_ (ensures_obtain hi hk))
  rintro (it | r) t hobtained
  · obtain ⟨hi', hg, hpoints⟩ := hobtained
    have hk' := hk.mono (hg.log shard)
    refine solo_bind _ _ (solo_mono _ ?_ (ensures_readPage hi' hk' hpoints))
    rintro (⟨records, created, next⟩ | r) u hgot
    · obtain ⟨hi'', hg', hpage⟩ := hgot
      have hgrows := hg.trans hg'
      have hk'' := hk'.mono (hg'.log shard)
      have hpage' := hpage.earlier hg
      have hdecoded : DdbStreamsSource.decodeRecords shard records = records := hpage.decoded
      simp only [hdecoded]
      refine solo_bind _ _ (ensures_store hi'' hpage.next ?_)
      intro v hstored hgrows' hr hread
      have hreturn : ∀ behind x, v.Passes x → ReadReturns src s x shard after (.ok ⟨records, next.isNone, behind⟩) := by
        intro behind x hx
        have hgx := hgrows'.trans hx.grows
        exact ReadReturns.ok (hstored.passes hx) (hgrows.trans hgx)
          ((hpage'.continues behind).later hgx (hx.lastRead.trans hread) (hx.refused.trans hr) hk'')
      cases created with
      | none => exact hreturn none _ (Feed.Passes.refl _)
      | some ms =>
        refine solo_bind _ _ (solo_bind _ _ ?_)
        intro x hx c a x' he
        cases he
        exact ⟨trivial, hreturn _ _ hx⟩
    · exact ⟨hgot.inv, hg.trans hgot.grows, fun b hb => (hgot.batch b hb).earlier hg⟩
  · exact hobtained

/-! ## Every sequence of calls -/

/-- A source that starts with an empty cache and is called for one shard after another, while the stream moves on. -/
inductive Session (src : DdbStreamsSource) (s₀ : Feed) : Feed → Prop where
  | start : Session src s₀ s₀
  | passes {s t : Feed} (h : Session src s₀ s) (hp : s.Passes t) : Session src s₀ t
  | call {s t : Feed} {shard : ShardId} {after : Option SequenceNumber} {r : Except BoxError RecordBatch}
      (h : Session src s₀ s) (hk : Known (s.log shard) after)
      (hr : Runs feedHandler Feed.Passes () (src.getRecords shard after) s (.ret r) t) : Session src s₀ t

theorem returns_of_runs (hi : CursorInv src s) (hk : Known (s.log shard) after) {r : Except BoxError RecordBatch}
    (h : Runs feedHandler Feed.Passes () (src.getRecords shard after) s (.ret r) t) : ReadReturns src s t shard after r := by
  refine Runs.solo Feed.Passes.refl (fun _ _ _ => Feed.Passes.trans) ?_ h (ensures_getRecords hi hk)
  intro r' u v hp hret
  refine ⟨hret.inv.passes hp, hret.grows.trans hp.grows, ?_⟩
  intro b hb
  exact (hret.batch b hb).later hp.grows hp.lastRead hp.refused (hk.mono (hret.grows.log shard))

theorem Session.inv {s₀ : Feed} (hv : s₀.Valid) (hempty : ∀ k, s₀.mem.cursors k = none) (h : Session src s₀ s) :
    CursorInv src s := by
  induction h with
  | start => exact ⟨hv, fun k c hc => by rw [hempty k] at hc; cases hc⟩
  | passes _ hp ih => exact ih.passes hp
  | call _ hk hr ih => exact (returns_of_runs ih hk hr).inv

/-- Reusing cursors never skips a record: whatever calls came before, a batch is the log from right after `after`
on, or from the trim point on where `after` cannot be continued, and the end of a shard is reported only there. -/
theorem cursor_reuse_skips_nothing {s₀ : Feed} (hv : s₀.Valid) (hempty : ∀ k, s₀.mem.cursors k = none)
    (h : Session src s₀ s) (hk : Known (s.log shard) after) {b : RecordBatch}
    (hr : Runs feedHandler Feed.Passes () (src.getRecords shard after) s (.ret (.ok b)) t) :
    Continues src s t shard after b :=
  (returns_of_runs (h.inv hv hempty) hk hr).batch b rfl

end

def threeRecords : Feed where
  log shard := if shard = "a" then [⟨"a", "1", []⟩, ⟨"a", "2", []⟩, ⟨"a", "3", []⟩] else []
  trim _ := 0
  closed _ := false
  mem := Memory.init (plainConfig .trimHorizon "w")
  clock := 0
  refused _ _ := none
  lastRead := none

def pagesOfTwo : DdbStreamsSource := ⟨fun _ => "", some 2⟩

def servePages : Req → FeedChoice
  | .getRecordsAt it _ => .page (min 2 (3 - it.pos)) false none
  | _ => .ok

def afterFirstPage : Feed :=
  ((eval feedHandler () servePages (pagesOfTwo.getRecords "a" none) threeRecords).map Prod.snd).getD threeRecords

theorem threeRecords_valid : threeRecords.Valid := by
  have hlog : ∀ k, threeRecords.log k = if k = "a" then [⟨"a", "1", []⟩, ⟨"a", "2", []⟩, ⟨"a", "3", []⟩] else [] :=
    fun k => rfl
  refine ⟨?_, ?_, ?_, fun _ => Nat.zero_le _⟩
  · intro k
    rw [hlog]
    split <;> decide
  · intro k r hr
    rw [hlog] at hr
    split at hr
    · rename_i hk
      simp only [List.mem_cons, List.not_mem_nil, or_false] at hr
      rcases hr with rfl | rfl | rfl <;> exact hk.symm
    · cases hr
  · intro k r hr
    rw [hlog] at hr
    split at hr
    · simp only [List.mem_cons, List.not_mem_nil, or_false] at hr
      rcases hr with rfl | rfl | rfl <;> decide
    · cases hr

theorem cursor_reuse_skips_nothing_page :
    afterFirstPage.mem.cursors "a" = some ⟨some "2", ⟨"a", 2⟩⟩ ∧ ∃ t,
      Runs feedHandler Feed.Passes () (pagesOfTwo.getRecords "a" (some "2")) afterFirstPage
        (.ret (.ok ⟨[⟨"a", "3", []⟩], false, none⟩)) t ∧
      Continues pagesOfTwo afterFirstPage t "a" (some "2") ⟨[⟨"a", "3", []⟩], false, none⟩ := by
  refine ⟨rfl, ((eval feedHandler () servePages (pagesOfTwo.getRecords "a" (some "2")) afterFirstPage).map Prod.snd).getD
    afterFirstPage, ?_⟩
  have hfirst : Runs feedHandler Feed.Passes () (pagesOfTwo.getRecords "a" none) threeRecords
      (.ret (.ok ⟨[⟨"a", "1", []⟩, ⟨"a", "2", []⟩], false, none⟩)) afterFirstPage := runs_of_eval servePages _ rfl
  have hrun : Runs feedHandler Feed.Passes () (pagesOfTwo.getRecords "a" (some "2")) afterFirstPage
      (.ret (.ok ⟨[⟨"a", "3", []⟩], false, none⟩)) _ := runs_of_eval servePages _ rfl
  refine ⟨hrun, ?_⟩
  refine cursor_reuse_skips_nothing threeRecords_valid (fun _ => rfl) (.call .start (fun q hq => by cases hq) hfirst) ?_ hrun
  intro q hq
  cases hq
  decide

end StreamsConsumer
