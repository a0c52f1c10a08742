import StreamsConsumer.Source.DdbStreams
import StreamsConsumer.Worker.Latest

/-!
# Passes over DynamoDB Streams

The source threads an iterator from read to read and derives a fresh one when
the resume position is not the one it continues from. A failed delivery leaves
the sentinel in the lease row and a later position in the cursor, so the next
pass derives LATEST again, behind the records that were not passed.
-/

namespace StreamsConsumer
open Conc

variable {D : Deployment} {K : Contract}

/-! ## Reading through the source -/

structure PageFrom (s : World) (k : ShardId) (a : Option SequenceNumber) (start : Nat) (records : List Record)
    (shardEnd : Bool) : Prop where
  threaded : Threaded s k a ⟨k, start⟩
  run : RunAt (s.stream.log k) start records
  ended : shardEnd = true → s.stream.closed k = true ∧ start + records.length = (s.stream.log k).length

def ServedPage (s : World) (k : ShardId) (a : Option SequenceNumber) (page : Page) : Prop :=
  ∃ start, PageFrom s k a start page.1 page.2.2.isNone ∧ ∀ it, page.2.2 = some it → it = ⟨k, start + page.1.length⟩

section
variable {s s' : World} {w : Worker} {k : ShardId} {a : Option SequenceNumber} {start : Nat}
  {records : List Record} {shardEnd : Bool}

theorem PageFrom.mono (hs : Sane s') (h : LatestLe s s') (hp : PageFrom s k a start records shardEnd) :
    PageFrom s' k a start records shardEnd where
  threaded := hp.threaded.mono hs h
  run := hp.run.mono (h.log k)
  ended he := by
    obtain ⟨hc, hl⟩ := hp.ended he
    obtain ⟨hc', el⟩ := h.closed k hc
    rw [el]
    exact ⟨hc', hl⟩

theorem ServedPage.mono (hs : Sane s') (h : LatestLe s s') {page : Page} (hp : ServedPage s k a page) :
    ServedPage s' k a page := by
  obtain ⟨start, hpage, hnext⟩ := hp
  exact ⟨start, hpage.mono hs h, hnext⟩

theorem iteratorPos_cases {st : Stream} {pos : Nat}
    (h : st.iteratorPos k (iteratorRequest a).1 (iteratorRequest a).2 = some pos) :
    (a = some SENTINEL_LATEST ∧ (iteratorRequest a).1 = .latest ∧ pos = (st.log k).length) ∨
      (a ≠ some SENTINEL_LATEST ∧ (iteratorRequest a).1 ≠ .latest ∧ pos = position (st.log k) a) := by
  cases a with
  | none =>
    cases h
    exact Or.inr ⟨by simp, by decide, rfl⟩
  | some q =>
    by_cases hq : q = SENTINEL_LATEST
    · subst hq
      cases h
      exact Or.inl ⟨rfl, rfl, rfl⟩
    · have he : iteratorRequest (some q) = (.afterSequenceNumber, some q) := by
        simp [iteratorRequest, StartPosition.fromCheckpoint, hq]
      rw [he] at h ⊢
      refine Or.inr ⟨by simpa using hq, by simp, ?_⟩
      simp only [Stream.iteratorPos] at h
      simp [position, h]

theorem latestPos_derived {type : ShardIteratorType} (h : type ≠ .latest) (j : ShardId) (pos : Nat) :
    (Event.derived w k type pos).latestPos j = none := by
  cases type <;> first | rfl | exact absurd rfl h

theorem passedTo_derived {log : List Record} {tr : List Event} {pos : Nat}
    (h : CaughtUp log k (.derived w k .latest pos :: tr)) : PassedTo log k (.derived w k .latest pos :: tr) pos := by
  intro f hf r hr
  change (firstLatest k tr).or _ = _ at hf
  cases hm : firstLatest k tr with
  | none =>
    rw [hm] at hf
    simp only [Event.latestPos, if_true, Option.none_or, Option.some.injEq] at hf
    subst hf
    rw [List.drop_eq_nil_of_le (by rw [List.length_take]; omega)] at hr
    cases hr
  | some f' =>
    rw [hm] at hf
    cases hf
    exact (h.2 pos (by simp [Event.latestPos]) f hm r hr).mono (List.suffix_cons _ _)

theorem wp_deriveIterator (hi : LatestInv s) (ha : Settled (s.stream.log k) a) :
    wp (handler K) latestRely w (deriveIterator k a)
      (fun r s' => ∀ it, r = .ok it → ∃ x, it = some x ∧ Threaded s' k a x) s := by
  refine wp_bind _ _ hi ?_
  intro s₁ h₁ i₁ c r s₂ he
  change execGetShardIterator w k _ _ c s₁ = some (r, s₂) at he
  cases c <;> simp only [execGetShardIterator, reduceCtorEq] at he
  case fault e =>
    cases he
    refine ⟨i₁, LatestLe.refl _, ?_⟩
    intro x hx
    cases hx
  case ok =>
    obtain ⟨pos, hp, e⟩ := Option.map_eq_some_iff.mp he
    cases e
    have hset := ha.mono (h₁.log k)
    rcases iteratorPos_cases hp with ⟨rfl, ht, rfl⟩ | ⟨hne, ht, rfl⟩
    · rw [ht]
      have hle := LatestLe.derive s₁ w k
      refine ⟨i₁.note hle rfl, hle, ?_⟩
      intro it e
      cases e
      refine ⟨_, rfl, rfl, le_refl _, hset, fun hne => absurd rfl hne, ?_⟩
      intro _ hu
      exact passedTo_derived hu
    · have hle := LatestLe.record s₁ fun j => latestPos_derived (w := w) (k := k) ht j (position (s₁.stream.log k) a)
      refine ⟨i₁.note hle rfl, hle, ?_⟩
      intro it e
      cases e
      exact ⟨_, rfl, rfl, position_le, hset, fun _ => le_refl _, fun e => absurd e hne⟩

theorem Threaded.restart (ha : Settled (s.stream.log k) a) {it : ShardIterator} (ht : Threaded s k none it) :
    Threaded s k a it := by
  have hpos : it.pos = 0 := Nat.le_zero.mp (ht.real nofun)
  refine ⟨ht.shard, ht.bound, ha, ?_, ?_⟩
  · intro _
    omega
  · intro _ _
    rw [hpos]
    exact passedTo_zero

theorem wp_cachedIterator :
    wp (handler K) latestRely w (cachedIterator k a) (fun r s' => ∀ it, r = some it → Threaded s' k a it) s := by
  refine wp_readMem (f := fun m => ((m.cursors k).filter fun c => cursorContinues c.after a).map Cursor.iterator) ?_
  intro s₁ _ i₁ it hit
  obtain ⟨c, hf, rfl⟩ := Option.map_eq_some_iff.mp hit
  obtain ⟨hc, hcont⟩ := Option.filter_eq_some_iff.mp hf
  obtain rfl : c.after = a := by simpa [cursorContinues] using hcont
  exact i₁.cursors w k c hc

theorem wp_setCursor {f : Memory → Option Cursor}
    (h : ∀ s₁, LatestLe s s₁ → LatestInv s₁ → ∀ c, f (s₁.mem w) = some c → Threaded s₁ k c.after c.iterator) :
    wp (handler K) latestRely w
      (updateMem fun m => { m with cursors := Function.update m.cursors k (f m) }) (fun _ _ => True) s := by
  refine wp_accessMem fun s₁ h₁ i₁ => ?_
  refine ⟨i₁.setMem (i₁.pending w) (i₁.pool w) ?_, LatestLe.setMem s₁ w _, trivial⟩
  intro j c hc
  by_cases hj : j = k
  · subst hj
    simp only [Function.update_self] at hc
    exact h s₁ h₁ i₁ c hc
  · simp only [Function.update_of_ne hj] at hc
    exact i₁.cursors w j c hc

theorem wp_dropCursor : wp (handler K) latestRely w (dropCursor k) (fun _ _ => True) s :=
  wp_setCursor (f := fun _ => none) nofun

theorem wp_obtainIterator (src : DdbStreamsSource) (hi : LatestInv s) (ha : Settled (s.stream.log k) a) :
    wp (handler K) latestRely w (src.obtainIterator k a)
      (fun r s' => (∀ it, r = .inl it → Threaded s' k a it) ∧ ∀ b, r ≠ .inr (.ok b)) s := by
  unfold DdbStreamsSource.obtainIterator
  refine wp_seq hi wp_cachedIterator ?_
  intro r s₁ h₁ i₁ hr
  cases r with
  | some it =>
    refine ⟨?_, nofun⟩
    intro it' e
    cases e
    exact hr it rfl
  | none =>
    have ha₁ := ha.mono (h₁.log k)
    refine wp_seq i₁ (wp_deriveIterator i₁ ha₁) ?_
    intro r s₂ h₂ i₂ hr
    cases r with
    | ok it =>
      obtain ⟨x, rfl, hx⟩ := hr it rfl
      refine ⟨?_, nofun⟩
      intro it' e
      cases e
      exact hx
    | error e =>
      simp only
      split
      · refine wp_seq i₂ (wp_deriveIterator i₂ (settled_none _)) ?_
        intro r s₃ h₃ i₃ hr
        cases r with
        | ok it =>
          obtain ⟨x, rfl, hx⟩ := hr it rfl
          refine ⟨?_, nofun⟩
          intro it' e
          cases e
          exact hx.restart ((ha₁.mono (h₂.log k)).mono (h₃.log k))
        | error e => exact ⟨nofun, nofun⟩
      · exact ⟨nofun, nofun⟩

theorem wp_sendGetRecords {limit : Option Int} {it : ShardIterator} (hi : LatestInv s) (ht : Threaded s k a it) :
    wp (handler K) latestRely w (sendGetRecords limit it) (fun r s' => ∀ page, r = .ok page → ServedPage s' k a page)
      s := by
  refine wp_bind _ _ hi ?_
  intro s₁ h₁ i₁ c r s₂ he
  change execGetRecordsAt it c s₁ = some (r, s₂) at he
  cases c <;> simp only [execGetRecordsAt, reduceCtorEq] at he
  case fault e =>
    cases he
    refine ⟨i₁, LatestLe.refl _, ?_⟩
    intro x hx
    cases hx
  case batch start n shardEnd =>
    split at he
    case isFalse => cases he
    rename_i hpage
    cases he
    refine ⟨i₁, LatestLe.refl _, ?_⟩
    intro page e
    cases e
    have ht₁ := ht.mono i₁.sane h₁
    obtain ⟨shard, pos⟩ := it
    obtain rfl : shard = k := ht.shard
    obtain ⟨hrun, hlen⟩ := RunAt.slice hpage.1
    refine ⟨pos, ⟨ht₁, hrun, ?_⟩, ?_⟩
    · intro hnone
      rw [hlen]
      refine hpage.2 ?_
      by_contra hse
      simp [hse] at hnone
    · intro nx hnx
      rw [hlen]
      cases shardEnd <;> simp at hnx
      exact hnx.symm

theorem wp_readPage (src : DdbStreamsSource) (hi : LatestInv s) {it : ShardIterator} (ht : Threaded s k a it) :
    wp (handler K) latestRely w (src.readPage k a it)
      (fun r s' => (∀ page, r = .inl page → ServedPage s' k a page) ∧ ∀ b, r ≠ .inr (.ok b)) s := by
  unfold DdbStreamsSource.readPage
  have hup : ∀ r : Except BoxError Page,
      latestRely.Up fun s' => ∀ page, r = .ok page → ServedPage s' k a page := by
    intro r s₁ s₂ hl i₂ h page e
    exact (h page e).mono i₂.sane hl
  have hdone : ∀ {s₁ : World} {page : Page}, ServedPage s₁ k a page →
      (∀ page', (Sum.inl page : Page ⊕ Except BoxError RecordBatch) = .inl page' → ServedPage s₁ k a page') ∧
        ∀ b, (Sum.inl page : Page ⊕ Except BoxError RecordBatch) ≠ .inr (.ok b) := by
    intro s₁ page h
    refine ⟨?_, nofun⟩
    intro page' e
    cases e
    exact h
  refine wp_seq hi (wp_retryThrottled hup _ _ hi (wp_sendGetRecords hi ht)) ?_
  intro r s₁ h₁ i₁ hr
  cases r with
  | ok page => exact hdone (hr page rfl)
  | error e =>
    simp only
    split
    · refine wp_seq i₁ wp_dropCursor ?_
      intro _ s₂ h₂ i₂ _
      have ha₂ := (ht.settled.mono (h₁.log k)).mono (h₂.log k)
      refine wp_seq i₂ (wp_deriveIterator i₂ ha₂) ?_
      intro r s₃ _ i₃ hr
      cases r with
      | error e => exact ⟨nofun, nofun⟩
      | ok it =>
        obtain ⟨fresh, rfl, hfresh⟩ := hr it rfl
        refine wp_seq i₃ (wp_sendGetRecords i₃ hfresh) ?_
        intro r s₄ _ i₄ hr
        cases r with
        | error e => exact ⟨nofun, nofun⟩
        | ok page => exact hdone (hr page rfl)
    · exact ⟨nofun, nofun⟩

theorem decodeRecords_run (hs : Sane s) (hrun : RunAt (s.stream.log k) start records) :
    DdbStreamsSource.decodeRecords k records = records := by
  have hmem : ∀ r ∈ records, r ∈ s.stream.log k := by
    intro r hr
    rw [← hrun.1] at hr
    exact List.mem_of_mem_drop (List.mem_of_mem_take hr)
  unfold DdbStreamsSource.decodeRecords
  rw [List.filter_eq_self.mpr fun r hr => by simpa using (hs.named k r (hmem r hr)).2]
  conv_rhs => rw [← List.map_id records]
  refine List.map_congr_left fun r hr => ?_
  have hshard := (hs.named k r (hmem r hr)).1
  cases r
  cases hshard
  rfl

theorem PageFrom.next (hs : Sane s) (hp : PageFrom s k a start records shardEnd) :
    Threaded s k (advancedAfter a (lastSeq records)) ⟨k, start + records.length⟩ := by
  by_cases hne : records = []
  · subst hne
    simpa [advancedAfter, lastSeq] using hp.threaded
  · obtain ⟨hpos, hk⟩ := hp.run.position_last (hs.seqs k) hne
    have hlast : advancedAfter a (lastSeq records) = lastSeq records := by
      simp [advancedAfter, lastSeq, List.getLast?_eq_some_getLast hne]
    rw [hlast]
    refine ⟨rfl, hp.run.2, Or.inl hk, ?_, ?_⟩
    · intro _
      exact le_of_eq hpos.symm
    · intro e
      obtain ⟨r, hr, hq⟩ := List.mem_map.mp (hk _ e)
      exact absurd hq (hs.real k r hr)

theorem wp_getRecords (src : DdbStreamsSource) (hi : LatestInv s) (ha : Settled (s.stream.log k) a) :
    wp (handler K) latestRely w (src.getRecords k a)
      (fun r s' => ∀ b, r = .ok b → ∃ start, PageFrom s' k a start b.records b.shardEnd) s := by
  unfold DdbStreamsSource.getRecords
  refine wp_seq hi (wp_obtainIterator src hi ha) ?_
  intro r s₁ _ i₁ hr
  cases r with
  | inr r =>
    intro b e
    cases e
    exact absurd rfl (hr.2 b)
  | inl it =>
    refine wp_seq i₁ (wp_readPage src i₁ (hr.1 it rfl)) ?_
    intro r s₂ _ i₂ hr
    cases r with
    | inr r =>
      intro b e
      cases e
      exact absurd rfl (hr.2 b)
    | inl page =>
      obtain ⟨records, created, next⟩ := page
      obtain ⟨start, hpage, hnext⟩ := hr.1 _ rfl
      have hdec := decodeRecords_run i₂.sane hpage.run
      simp only [hdec]
      refine wp_seq i₂ (wp_setCursor ?_) ?_
      · intro s₃ h₃ i₃ c hc
        obtain ⟨nx, hnx, rfl⟩ := Option.map_eq_some_iff.mp hc
        obtain rfl := hnext nx hnx
        exact (hpage.mono i₃.sane h₃).next i₃.sane
      · intro _ s₃ h₃ i₃ _
        have hpage₃ := hpage.mono i₃.sane h₃
        refine wp_seq i₃ (P := fun _ _ => True) ?_ ?_
        · cases created with
          | none => trivial
          | some t =>
            refine wp_seq i₃ wp_now ?_
            intro _ _ _ _ _
            trivial
        · intro behind s₄ h₄ i₄ _ b e
          cases e
          exact ⟨start, hpage₃.mono i₄.sane h₄⟩

end
/-! ## One pass -/

def PassedBatch (s : World) (k : ShardId) (a : Option SequenceNumber) (b : RecordBatch) : Prop :=
  ∃ start, PageFrom s k a start b.records b.shardEnd ∧ (s.CaughtUp k → s.PassedTo k (start + b.records.length))

section
variable {s s' : World} {w : Worker} {k : ShardId} {a : Option SequenceNumber} {b : RecordBatch} {start : Nat}

theorem PassedBatch.mono (hs : Sane s') (h : LatestLe s s') (hp : PassedBatch s k a b) : PassedBatch s' k a b := by
  obtain ⟨start, hpage, hpass⟩ := hp
  exact ⟨start, hpage.mono hs h, fun hu => (hpass (hu.anti h.toExtends)).mono h hpage.run.2⟩

theorem PageFrom.passed_of_empty (hr : Resumable s k a) (hp : PageFrom s k a start b.records b.shardEnd)
    (hb : b.records = []) : PassedBatch s k a b := by
  refine ⟨start, hp, ?_⟩
  intro hu
  rw [hb]
  exact hp.threaded.passed hr hu

theorem PassedTo.delivered {log : List Record} {tr : List Event} {records : List Record}
    {q : Option SequenceNumber} (hrun : RunAt log start records) (hp : PassedTo log k tr start) :
    PassedTo log k (.delivered w k records (.ok q) :: tr) (start + records.length) := by
  intro f hf r hr
  have hf' : firstLatest k tr = some f := by
    change (firstLatest k tr).or none = _ at hf
    rwa [Option.or_none] at hf
  rw [List.take_add, hrun.1, List.drop_append] at hr
  rcases List.mem_append.mp hr with hr | hr
  · exact (hp f hf' r hr).mono (List.suffix_cons _ _)
  · exact ⟨w, records, q, List.mem_cons_self .., List.mem_of_mem_drop hr⟩

theorem PassedBatch.resumable (hs : Sane s) (hp : PassedBatch s k a b) {q : SequenceNumber}
    (hq : q ∈ b.records.map Record.seq) : Resumable s k (some q) := by
  obtain ⟨start, hpage, hpass⟩ := hp
  obtain ⟨_, hle, hmem⟩ := hpage.run.position_mem (hs.seqs k) hq
  refine ⟨Or.inl ?_, fun hu => (hpass hu).le hle⟩
  intro q' e
  cases e
  exact hmem

theorem PassedBatch.resumable_last (hs : Sane s) (hp : PassedBatch s k a b) (hb : b.records ≠ []) :
    Resumable s k (lastSeq b.records) := by
  obtain ⟨start, hpage, hpass⟩ := hp
  obtain ⟨hpos, hk⟩ := hpage.run.position_last (hs.seqs k) hb
  refine ⟨Or.inl hk, ?_⟩
  intro hu
  rw [hpos]
  exact hpass hu

theorem PassedBatch.drained (hp : PassedBatch s k a b) (hb : b.shardEnd = true) (hu : s.CaughtUp k) :
    Drained s k := by
  obtain ⟨start, hpage, hpass⟩ := hp
  obtain ⟨hc, hl⟩ := hpage.ended hb
  refine ⟨hc, ?_⟩
  rw [← hl]
  exact hpass hu

end

def latestOutline {src : DdbStreamsSource} (hK : K.AcksBatch) (hsrc : D.source = ddbStreamsSource src)
    (task : ShardTask) : (latestGround D K).Outline task where
  At a _ s := Resumable s task.shard a
  Got a _ b s := Resumable s task.shard a ∧ ∃ start, PageFrom s task.shard a start b.records b.shardEnd
  Acked a _ b q s := PassedBatch s task.shard a b ∧ Resumable s task.shard (some q)
  Done a _ b s := PassedBatch s task.shard a b
  at_up _ _ _ _ hl hi h := h.mono hi.sane hl
  acked_up _ _ _ _ _ _ hl hi h := ⟨h.1.mono hi.sane hl, h.2.mono hi.sane hl⟩
  done_up _ _ _ _ _ hl hi h := h.mono hi.sane hl
  resume s q _ hi _ hq := hi.pending task.owner task.shard q hq
  read s a c hi h := by
    rw [hsrc]
    refine wp_seq hi (wp_getRecords src hi h.settled) ?_
    intro r s₁ h₁ i₁ hr b e
    exact ⟨h.mono i₁.sane h₁, hr b (mapError_eq_ok e)⟩
  empty s a c b _ h hb := by
    obtain ⟨hr, start, hp⟩ := h
    exact hp.passed_of_empty hr hb
  deliver s a c b hi h hb := by
    obtain ⟨hr, start, hp⟩ := h
    refine wp_deliver ?_
    intro s₁ ans h₁ i₁ hack
    have hr₁ := hr.mono i₁.sane h₁
    have hp₁ := hp.mono i₁.sane h₁
    have hle : LatestLe s₁ (s₁.record (.delivered task.owner task.shard b.records ans)) :=
      LatestLe.record s₁ fun _ => rfl
    have i₂ : LatestInv (s₁.record (.delivered task.owner task.shard b.records ans)) := by
      refine i₁.record hle nofun nofun ?_
      intro w k records answer e hu
      cases e
      exact ⟨start, hp₁.run, hp₁.threaded.passed hr₁ hu⟩
    have hpassed : ∀ q, ans = .ok q →
        PassedBatch (s₁.record (.delivered task.owner task.shard b.records ans)) task.shard a b := by
      intro q e
      subst e
      refine ⟨start, hp₁.mono i₂.sane hle, ?_⟩
      intro hu
      exact (hp₁.threaded.passed hr₁ (hu.anti hle.toExtends)).delivered hp₁.run
    refine ⟨i₂, hle, ?_, fun e => hpassed none e⟩
    intro q e
    exact ⟨hpassed _ e, (hpassed _ e).resumable i₂.sane (hK _ _ (hack q e))⟩
  write s a c b q hi h := by
    refine ⟨keeps_latest ?_ nofun nofun, ?_⟩
    · intro o c' q' e
      cases e
      exact h.2
    · intro s₁ row h₁ i₁ ha
      have hx := LatestLe.write s₁ task.owner task.shard (.checkpoint task.owner c q) row
      exact (h.1.mono i₁.sane h₁).mono (i₁.sane.write ha) hx
  defer s a c b q d t _ hi h hd := by
    refine ⟨hi.setMem ?_ (hi.pool task.owner) (hi.cursors task.owner), LatestLe.setMem s _ _⟩
    intro k q' hq
    rcases Ground.pending_recordAck hd hq with ⟨rfl, rfl⟩ | hq
    · exact h.2
    · exact hi.pending task.owner k q' hq
  deferred s a c b q _ _ h := h.1
  next s a c b hi h hb _ := h.resumable_last hi.sane hb
  flush s a c b q _ hi h _ hq := by
    refine ⟨keeps_latest ?_ nofun nofun, ?_⟩
    · intro o c' q' e
      cases e
      exact hi.pending task.owner task.shard q hq
    · intro s₁ row h₁ i₁ ha
      have hx := LatestLe.write s₁ task.owner task.shard (.checkpoint task.owner c q) row
      exact (h.mono i₁.sane h₁).mono (i₁.sane.write ha) hx
  complete s a c b _ h hb := keeps_latest nofun nofun fun _ _ _ hu => h.drained hb hu

def latestProtocol {src : DdbStreamsSource} (hK : K.AcksBatch) (hsrc : D.source = ddbStreamsSource src) :
    Protocol D K where
  toGround := latestGround D K
  sync s w rows hi _ := by
    have hd : (latestGround D K).Describes :=
      (latestGround D K).describes_of_eq (by rw [hsrc]; rfl) (by rw [hsrc]; rfl)
    have hcreate : ∀ {k ps cp s₁}, cp = none ∨ cp = some SENTINEL_LATEST →
        Keeps latestRely w k (.createShardLease ps cp) s₁ := by
      intro k ps cp s₁ hcp
      refine keeps_latest nofun ?_ nofun
      intro ps' cp' e
      cases e
      exact hcp
    refine (latestGround D K).wp_leaderShardSync hd hi ⟨?_, ?_, ?_, ?_⟩
    · exact fun _ _ _ _ _ _ => hcreate (seedCheckpoint_cases _)
    · intro p _ s₁ _ i₁
      have hle := LatestLe.record s₁ (e := .listed w p (s₁.stream.children p)) fun _ => rfl
      exact ⟨i₁.note hle rfl, hle⟩
    · exact fun _ _ _ _ _ _ _ _ => hcreate (childCp_cases _ _)
    · exact fun _ _ _ _ _ _ => hcreate (childCp_cases _ _)
  pass s w it hi h := (latestGround D K).wp_runPass (latestOutline hK hsrc _) hi h

/-! ## Every run -/

/-- Nothing written to the shard since its first LATEST iterator is lost: no delivery begins behind a record that
was not passed, no stored checkpoint lies behind one, and a completed shard has none. -/
structure NothingLost (s : World) (k : ShardId) : Prop where
  gapless : Gapless (s.stream.log k) k s.trace
  durable : ∀ r ∈ s.history, r.leaseKey = k → s.PassedTo k (position (s.stream.log k) r.checkpoint)
  completed : MarkedIn s.trace k → s.stream.closed k = true ∧ s.PassedTo k (s.stream.log k).length

/-- In every run of a fleet over DynamoDB Streams whose LATEST iterators are derived when no record since the first
one was left to deliver, nothing is lost. -/
theorem latest_loses_nothing {src : DdbStreamsSource} (hK : K.AcksBatch) (hsrc : D.source = ddbStreamsSource src)
    {p : FleetPool} (hp : D.Reachable K p) {k : ShardId} (hu : p.world.CaughtUp k) : NothingLost p.world k := by
  have hi : LatestInv p.world := (latestProtocol hK hsrc).reachable (LatestInv.init D) hp
  refine ⟨hi.gapless k hu, ?_, fun hm => hi.marked k hm hu⟩
  intro r hr hk
  subst hk
  exact (hi.rows r hr).resumable.passed hu

def streamsFleet : Deployment :=
  ⟨ddbStreamsSource ⟨fun e => e.code.getD "service error", none⟩, plainConfig .latest, plainConfig_owner _⟩

def World.refuse (s : World) : Req → Choice
  | .deliver _ _ => .fault ⟨none⟩
  | r => s.serve r

def firstRead : FleetPool :=
  streamsFleet.perform exactContract World.serve "a" .cycle 80
    (streamsFleet.envs exactContract [.appear ⟨"root", []⟩] (Pool.idle streamsFleet.init))

def drainedRead : FleetPool :=
  streamsFleet.perform exactContract World.serve "a" .cycle 80
    (streamsFleet.envs exactContract [.append "root" ⟨"root", "1", []⟩, .close "root"] firstRead)

theorem reachable_firstRead : streamsFleet.Reachable exactContract firstRead :=
  Deployment.reachable_perform (Deployment.reachable_envs (Deployment.reachable_idle _ _))

theorem latest_loses_nothing_drained :
    NothingLost drainedRead.world "root" ∧ firstLatest "root" drainedRead.world.trace = some 0 ∧
      MarkedIn drainedRead.world.trace "root" := by
  have hreach : streamsFleet.Reachable exactContract drainedRead :=
    Deployment.reachable_perform (Deployment.reachable_envs reachable_firstRead)
  have honce : (drainedRead.world.trace.filterMap (Event.latestPos "root")).length ≤ 1 := by decide +kernel
  refine ⟨latest_loses_nothing exactContract_acksBatch rfl hreach (caughtUp_of_once honce), ?_, ?_⟩
  · decide +kernel
  · exact markedIn_of_any (by decide +kernel)

def failedDelivery : FleetPool :=
  streamsFleet.perform exactContract World.serve "a" .cycle 80
    (streamsFleet.envs exactContract [.append "root" ⟨"root", "3", []⟩]
      (streamsFleet.perform exactContract World.serve "a" .cycle 80
        (streamsFleet.envs exactContract [.append "root" ⟨"root", "2", []⟩]
          (streamsFleet.perform exactContract World.refuse "a" .cycle 80
            (streamsFleet.envs exactContract [.append "root" ⟨"root", "1", []⟩] firstRead)))))

def Event.passes (k : ShardId) (r : Record) : Event → Bool
  | .delivered _ j records (.ok _) => j == k && records.contains r
  | _ => false

/-- After the failed delivery the shard is read at LATEST again: the checkpoint moves to record 3, record 1 is not
delivered again and record 2 never. -/
theorem failed_delivery_skipped : ¬ ∀ p, streamsFleet.Reachable exactContract p → NothingLost p.world "root" := by
  intro h
  have hreach : streamsFleet.Reachable exactContract failedDelivery :=
    Deployment.reachable_perform (Deployment.reachable_envs (Deployment.reachable_perform
      (Deployment.reachable_envs (Deployment.reachable_perform (Deployment.reachable_envs reachable_firstRead)))))
  have hrow : (⟨"root", some "a", 2, false, some "3", []⟩ : Lease) ∈ failedDelivery.world.history := by
    decide +kernel
  have hlog : failedDelivery.world.stream.log "root" = [⟨"root", "1", []⟩, ⟨"root", "2", []⟩, ⟨"root", "3", []⟩] := by
    decide +kernel
  have hfirst : firstLatest "root" failedDelivery.world.trace = some 0 := by decide +kernel
  have hnone : failedDelivery.world.trace.all (fun e => !e.passes "root" ⟨"root", "2", []⟩) = true := by
    decide +kernel
  have hdur := (h failedDelivery hreach).durable _ hrow rfl 0 hfirst ⟨"root", "2", []⟩ (by rw [hlog]; decide)
  obtain ⟨w, records, q, hm, hr⟩ := hdur
  have := List.all_eq_true.mp hnone _ hm
  simp [Event.passes, hr] at this

end StreamsConsumer
