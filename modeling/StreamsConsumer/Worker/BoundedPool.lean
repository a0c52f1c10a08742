import Mathlib.Data.Fintype.Card
import StreamsConsumer.Worker.Lanes

/-!
# The bounded pool

`run_bounded_pool` against the unbounded path of `run_cycle`: a fixed number of
pool workers pop a shared queue, one pass at a time. Whatever the schedule, each
due shard gets one pass, and that pass does what it does alone.
-/

namespace StreamsConsumer
open Conc

/-! ## A pool worker, step by step -/

def itemPass (F : Fleet) (item : PoolItem) : Fx PassOutcome := runPass F (item.shard, item.counter, item.checkpoint)

def startedPass (F : Fleet) (item : PoolItem) : Fx PassOutcome :=
  (processShard F.source F.leases (shardTask F.config (item.shard, item.counter, item.checkpoint))).bind fun
    | .ok outcome => .ret outcome
    | .error _ => .ret .stopped

theorem itemPass_eq (F : Fleet) (item : PoolItem) :
    itemPass F item = .call (.createConsumer item.shard) fun _ => startedPass F item := rfl

def record (item : PoolItem) (outcome : PassOutcome) : Fx (Unit ⊕ Unit) :=
  (updateMem fun m => { m with outcomes := m.outcomes ++ [(item.shard, outcome)] }).bind fun _ => .ret (.inl ())

def passAndRecord (F : Fleet) (item : PoolItem) : Fx (Unit ⊕ Unit) := (itemPass F item).bind (record item)

def slotWait (F : Fleet) (item : PoolItem) (t : Nat) : Fx (Unit ⊕ Unit) :=
  (metric (.processingSlotWait item.shard (t - item.enqueued))).bind fun _ => passAndRecord F item

def popped (F : Fleet) : Option PoolItem → Fx (Unit ⊕ Unit)
  | none => .ret (.inr ())
  | some item => now.bind fun t => slotWait F item t

def poolBody (F : Fleet) : Fx (Unit ⊕ Unit) :=
  (accessMem fun m => (m.pool.head?, { m with pool := m.pool.tail })).bind (popped F)

def settleOutcomes (F : Fleet) : Fx Unit :=
  now.bind fun t => updateMem fun m =>
    { m with sched := m.outcomes.foldl (foldOutcome F.config.pollIntervalMs t) m.sched, outcomes := [] }

def awaitDue (F : Fleet) : Fx Unit :=
  (metric (.processingQueueDepth 0)).bind fun _ => (accessMem fun m => ((m.sched.map fun e => e.2.dueAt).min?, m)).bind fun
    | none => .ret ()
    | some next => now.bind fun t => sleep (min (next - t) (max F.config.pollIntervalMs 1))

def runQueue (F : Fleet) (k : Nat) (due : List PoolItem) : Fx Unit :=
  (metric (.processingQueueDepth due.length)).bind fun _ =>
    (updateMem fun m => { m with pool := due, outcomes := [] }).bind fun _ =>
      (Prog.join (List.replicate k (poolWorker F))).bind fun _ => settleOutcomes F

theorem runBoundedPool_eq (F : Fleet) (items : List (ShardId × Nat × Option SequenceNumber)) (k t : Nat) :
    runBoundedPool F items k t = (accessMem fun m =>
      ((refreshSched m.sched items t).1, { m with sched := (refreshSched m.sched items t).2 })).bind fun due =>
        if due.isEmpty then awaitDue F else runQueue F k due := by
  rfl

theorem poolWorker_eq (F : Fleet) : poolWorker F = .loop (fun _ => poolBody F) (poolBody F) .ret := rfl

/-! ## Where the workers are -/

section
variable (P : ShardId → Partner) (store : ShardId → RowStore) (w : Worker) (cfg : FleetConfig) (start : ShardId → Lane)

/-- What a pass has come to if it runs alone in its lane. -/
def Along (item : PoolItem) (p : Fx PassOutcome) (lane : Lane) : Prop :=
  Relation.ReflTransGen (Step (ownHandler P store item.shard) w) (itemPass (contractFleet cfg) item, start item.shard)
    (p, lane)

/-- Where a pool worker is: which item it holds, and whether its consumer was created. -/
inductive Station (s : Yard) : Option (PoolItem × Bool) → Fx Unit → Prop where
  | idle : Station s none (.loop (fun _ => poolBody (contractFleet cfg)) (poolBody (contractFleet cfg)) .ret)
  | again : Station s none (.loop (fun _ => poolBody (contractFleet cfg)) (.ret (.inl ())) .ret)
  | leaving (hq : s.mem.pool = []) :
      Station s none (.loop (fun _ => poolBody (contractFleet cfg)) (.ret (.inr ())) .ret)
  | left (hq : s.mem.pool = []) : Station s none (.ret ())
  | claimed (item : PoolItem) (hs : s.lanes item.shard = start item.shard) : Station s (some (item, false))
      (.loop (fun _ => poolBody (contractFleet cfg)) (popped (contractFleet cfg) (some item)) .ret)
  | waiting (item : PoolItem) (t : Nat) (hs : s.lanes item.shard = start item.shard) : Station s (some (item, false))
      (.loop (fun _ => poolBody (contractFleet cfg)) (slotWait (contractFleet cfg) item t) .ret)
  | starting (item : PoolItem) (hs : s.lanes item.shard = start item.shard) : Station s (some (item, false))
      (.loop (fun _ => poolBody (contractFleet cfg)) (passAndRecord (contractFleet cfg) item) .ret)
  | passing (item : PoolItem) (p : Fx PassOutcome) (hp : Uses (OfPass item.shard) p)
      (hr : Along P store w cfg start item p (s.lanes item.shard)) : Station s (some (item, true))
      (.loop (fun _ => poolBody (contractFleet cfg)) (p.bind (record item)) .ret)

/-- Every due item is in the queue, held by one worker, or done. -/
structure Pooled (due : List PoolItem) {n : Nat} (held : Fin n → Option (PoolItem × Bool)) (done : List PoolItem)
    (ts : Fin n → Fx Unit) (s : Yard) : Prop where
  station : ∀ i, Station P store w cfg start s (held i) (ts i)
  queue : s.mem.pool <:+ due
  place : ∀ item ∈ due, item ∈ s.mem.pool ∨ (∃ i b, held i = some (item, b)) ∨ item ∈ done
  taken : ∀ i item b, held i = some (item, b) → item ∈ due ∧ item ∉ s.mem.pool ∧ item ∉ done
  once : ∀ i j item b c, held i = some (item, b) → held j = some (item, c) → i = j
  finished : ∀ item ∈ done, item ∈ due ∧ item ∉ s.mem.pool ∧ ∃ o, Along P store w cfg start item (.ret o) (s.lanes item.shard)
  untouched : ∀ item ∈ s.mem.pool, s.lanes item.shard = start item.shard
  others : ∀ j, j ∉ due.map PoolItem.shard → s.lanes j = start j
  active : s.active.Nodup ∧ ∀ j ∈ s.active, ∃ i item, held i = some (item, true) ∧ item.shard = j

end

section
variable {P : ShardId → Partner} {store : ShardId → RowStore} {w : Worker} {cfg : FleetConfig} {start : ShardId → Lane}
  {due done : List PoolItem} {n : Nat} {held : Fin n → Option (PoolItem × Bool)} {ts : Fin n → Fx Unit} {s s' : Yard}

theorem Station.frame {h : Option (PoolItem × Bool)} {p : Fx Unit} (hst : Station P store w cfg start s h p)
    (hl : ∀ item b, h = some (item, b) → s'.lanes item.shard = s.lanes item.shard)
    (hq : s.mem.pool = [] → s'.mem.pool = []) : Station P store w cfg start s' h p := by
  cases hst with
  | idle => exact .idle
  | again => exact .again
  | leaving he => exact .leaving (hq he)
  | left he => exact .left (hq he)
  | claimed item hs => exact .claimed item ((hl item false rfl).trans hs)
  | waiting item t hs => exact .waiting item t ((hl item false rfl).trans hs)
  | starting item hs => exact .starting item ((hl item false rfl).trans hs)
  | passing item p hp hr =>
    refine .passing item p hp ?_
    rw [hl item true rfl]
    exact hr

theorem item_eq (hdue : (due.map PoolItem.shard).Nodup) {a b : PoolItem} (ha : a ∈ due) (hb : b ∈ due)
    (h : a.shard = b.shard) : a = b :=
  List.inj_on_of_nodup_map hdue ha hb h

theorem Pooled.inLane (hdue : (due.map PoolItem.shard).Nodup) (h : Pooled P store w cfg start due held done ts s)
    {i : Fin n} {item : PoolItem} {b b' : Bool} {p : Fx Unit} (hi : held i = some (item, b)) (hb : b = true → b' = true)
    (hmem : s'.mem = s.mem) (hlanes : ∀ j, j ≠ item.shard → s'.lanes j = s.lanes j)
    (hact : s'.active.Nodup ∧ ∀ j ∈ s'.active, j ∈ s.active ∨ (b' = true ∧ item.shard = j))
    (hst : Station P store w cfg start s' (some (item, b')) p) :
    Pooled P store w cfg start due (Function.update held i (some (item, b'))) done (Function.update ts i p) s' := by
  obtain ⟨hitem, hnq, hnd⟩ := h.taken i item b hi
  have hother : ∀ x ∈ due, x ≠ item → s'.lanes x.shard = s.lanes x.shard :=
    fun x hx hne => hlanes _ fun e => hne (item_eq hdue hx hitem e)
  have hlater : ∀ {j x c}, Function.update held i (some (item, b')) j = some (x, c) → ∃ c', held j = some (x, c') := by
    intro j x c hj
    by_cases hji : j = i
    · subst hji
      simp only [Function.update_self, Option.some.injEq, Prod.mk.injEq] at hj
      exact ⟨b, hj.1 ▸ hi⟩
    · rw [Function.update_of_ne hji] at hj
      exact ⟨c, hj⟩
  refine ⟨?_, hmem ▸ h.queue, ?_, ?_, ?_, ?_, ?_, ?_, ?_⟩
  · intro j
    by_cases hji : j = i
    · subst hji
      simpa using hst
    · rw [Function.update_of_ne hji, Function.update_of_ne hji]
      refine (h.station j).frame ?_ (hmem ▸ id)
      intro x c hx
      refine hother x (h.taken j x c hx).1 ?_
      intro e
      subst e
      exact hji (h.once j i x c b hx hi)
  · intro x hx
    rw [hmem]
    rcases h.place x hx with hq | ⟨j, c, hj⟩ | hd
    · exact Or.inl hq
    · by_cases hji : j = i
      · subst hji
        cases hi.symm.trans hj
        exact Or.inr (Or.inl ⟨j, b', by simp⟩)
      · exact Or.inr (Or.inl ⟨j, c, by rw [Function.update_of_ne hji]; exact hj⟩)
    · exact Or.inr (Or.inr hd)
  · intro j x c hj
    obtain ⟨c', hj'⟩ := hlater hj
    rw [hmem]
    exact h.taken j x c' hj'
  · intro j₁ j₂ x c₁ c₂ h₁ h₂
    obtain ⟨d₁, h₁⟩ := hlater h₁
    obtain ⟨d₂, h₂⟩ := hlater h₂
    exact h.once j₁ j₂ x d₁ d₂ h₁ h₂
  · intro x hx
    obtain ⟨hxd, hxq, hal⟩ := h.finished x hx
    rw [hmem, hother x hxd fun e => hnd (e ▸ hx)]
    exact ⟨hxd, hxq, hal⟩
  · intro x hx
    rw [hmem] at hx
    rw [hother x (h.queue.subset hx) fun e => hnq (e ▸ hx)]
    exact h.untouched x hx
  · intro j hj
    rw [hlanes j fun e => hj (e ▸ List.mem_map_of_mem hitem)]
    exact h.others j hj
  · refine ⟨hact.1, ?_⟩
    intro j hj
    rcases hact.2 j hj with hj | ⟨hb', hj⟩
    · obtain ⟨j', x, hx, hxs⟩ := h.active.2 j hj
      by_cases hji : j' = i
      · subst hji
        cases hi.symm.trans hx
        exact ⟨j', item, by simp [hb rfl], hxs⟩
      · exact ⟨j', x, by rw [Function.update_of_ne hji]; exact hx, hxs⟩
    · subst hb'
      exact ⟨i, item, by simp, hj⟩

theorem Pooled.idling (h : Pooled P store w cfg start due held done ts s) {i : Fin n} (hi : held i = none) {p : Fx Unit}
    (hpool : s'.mem.pool = s.mem.pool) (hlanes : s'.lanes = s.lanes) (hact : s'.active = s.active)
    (hst : Station P store w cfg start s' none p) :
    Pooled P store w cfg start due held done (Function.update ts i p) s' := by
  refine ⟨?_, hpool ▸ h.queue, hpool ▸ h.place, hpool ▸ h.taken, h.once, hlanes ▸ hpool ▸ h.finished,
    hlanes ▸ hpool ▸ h.untouched, hlanes ▸ h.others, hact ▸ h.active⟩
  intro j
  by_cases hji : j = i
  · subst hji
    simpa [hi] using hst
  · rw [Function.update_of_ne hji]
    exact (h.station j).frame (fun _ _ _ => by rw [hlanes]) (hpool ▸ id)

theorem Pooled.pop (hdue : (due.map PoolItem.shard).Nodup) (h : Pooled P store w cfg start due held done ts s)
    {i : Fin n} (hi : held i = none) {item : PoolItem} {rest : List PoolItem} (hq : s.mem.pool = item :: rest)
    (hpool : s'.mem.pool = rest) (hlanes : s'.lanes = s.lanes) (hact : s'.active = s.active) {p : Fx Unit}
    (hst : Station P store w cfg start s' (some (item, false)) p) :
    Pooled P store w cfg start due (Function.update held i (some (item, false))) done (Function.update ts i p) s' := by
  have hqueue := hq ▸ h.queue
  have hitem : item ∈ s.mem.pool := hq ▸ List.mem_cons_self
  have hnotrest : item ∉ rest := by
    have hnodup := (List.Nodup.of_map _ hdue).sublist hqueue.sublist
    exact (List.nodup_cons.mp hnodup).1
  have hrest : ∀ {x}, x ∈ rest → x ∈ s.mem.pool := fun hx => hq ▸ List.mem_cons_of_mem _ hx
  have hheld : ∀ {j x c}, held j = some (x, c) → j ≠ i := by
    intro j x c hj e
    subst e
    cases hi.symm.trans hj
  have hlater : ∀ {j x c}, Function.update held i (some (item, false)) j = some (x, c) →
      (j = i ∧ x = item) ∨ held j = some (x, c) := by
    intro j x c hj
    by_cases hji : j = i
    · subst hji
      simp only [Function.update_self, Option.some.injEq, Prod.mk.injEq] at hj
      exact Or.inl ⟨rfl, hj.1.symm⟩
    · rw [Function.update_of_ne hji] at hj
      exact Or.inr hj
  refine ⟨?_, hpool ▸ (List.suffix_cons _ _).trans hqueue, ?_, ?_, ?_, ?_, ?_, ?_, ?_⟩
  · intro j
    by_cases hji : j = i
    · subst hji
      simpa using hst
    · rw [Function.update_of_ne hji, Function.update_of_ne hji]
      refine (h.station j).frame (fun _ _ _ => by rw [hlanes]) ?_
      intro he
      rw [he] at hq
      cases hq
  · intro x hx
    rw [hpool]
    rcases h.place x hx with hxq | ⟨j, c, hj⟩ | hd
    · rw [hq] at hxq
      rcases List.mem_cons.mp hxq with rfl | hxr
      · exact Or.inr (Or.inl ⟨i, false, by simp⟩)
      · exact Or.inl hxr
    · exact Or.inr (Or.inl ⟨j, c, by rw [Function.update_of_ne (hheld hj)]; exact hj⟩)
    · exact Or.inr (Or.inr hd)
  · intro j x c hj
    rw [hpool]
    rcases hlater hj with ⟨_, rfl⟩ | hj
    · exact ⟨h.queue.subset hitem, hnotrest, fun hd => (h.finished x hd).2.1 hitem⟩
    · obtain ⟨hxd, hxq, hxn⟩ := h.taken j x c hj
      exact ⟨hxd, fun hx => hxq (hrest hx), hxn⟩
  · intro j₁ j₂ x c₁ c₂ h₁ h₂
    rcases hlater h₁ with ⟨e₁, hx⟩ | h₁'
    · rcases hlater h₂ with ⟨e₂, _⟩ | h₂'
      · exact e₁.trans e₂.symm
      · exact absurd (hx ▸ hitem) (h.taken j₂ x c₂ h₂').2.1
    · rcases hlater h₂ with ⟨_, hx⟩ | h₂'
      · exact absurd (hx ▸ hitem) (h.taken j₁ x c₁ h₁').2.1
      · exact h.once j₁ j₂ x c₁ c₂ h₁' h₂'
  · intro x hx
    obtain ⟨hxd, hxq, hal⟩ := h.finished x hx
    rw [hpool, hlanes]
    exact ⟨hxd, fun hx => hxq (hrest hx), hal⟩
  · intro x hx
    rw [hpool] at hx
    rw [hlanes]
    exact h.untouched x (hrest hx)
  · intro j hj
    rw [hlanes]
    exact h.others j hj
  · rw [hact]
    refine ⟨h.active.1, ?_⟩
    intro j hj
    obtain ⟨j', x, hx, hxs⟩ := h.active.2 j hj
    exact ⟨j', x, by rw [Function.update_of_ne (hheld hx)]; exact hx, hxs⟩

theorem Pooled.recorded (h : Pooled P store w cfg start due held done ts s)
    {i : Fin n} {item : PoolItem} {o : PassOutcome} (hi : held i = some (item, true))
    (hal : Along P store w cfg start item (.ret o) (s.lanes item.shard)) (hpool : s'.mem.pool = s.mem.pool)
    (hlanes : s'.lanes = s.lanes) (hact : s'.active = s.active.filter fun j => j ∉ [item.shard]) {p : Fx Unit}
    (hst : Station P store w cfg start s' none p) :
    Pooled P store w cfg start due (Function.update held i none) (item :: done) (Function.update ts i p) s' := by
  obtain ⟨hitem, hnq, hnd⟩ := h.taken i item true hi
  have hlater : ∀ {j x c}, Function.update held i none j = some (x, c) → j ≠ i ∧ held j = some (x, c) := by
    intro j x c hj
    by_cases hji : j = i
    · subst hji
      simp at hj
    · rw [Function.update_of_ne hji] at hj
      exact ⟨hji, hj⟩
  refine ⟨?_, hpool ▸ h.queue, ?_, ?_, ?_, ?_, ?_, ?_, ?_⟩
  · intro j
    by_cases hji : j = i
    · subst hji
      simpa using hst
    · rw [Function.update_of_ne hji, Function.update_of_ne hji]
      exact (h.station j).frame (fun _ _ _ => by rw [hlanes]) (hpool ▸ id)
  · intro x hx
    rw [hpool]
    rcases h.place x hx with hxq | ⟨j, c, hj⟩ | hd
    · exact Or.inl hxq
    · by_cases hji : j = i
      · subst hji
        cases hi.symm.trans hj
        exact Or.inr (Or.inr List.mem_cons_self)
      · exact Or.inr (Or.inl ⟨j, c, by rw [Function.update_of_ne hji]; exact hj⟩)
    · exact Or.inr (Or.inr (List.mem_cons_of_mem _ hd))
  · intro j x c hj
    obtain ⟨hji, hj⟩ := hlater hj
    obtain ⟨hxd, hxq, hxn⟩ := h.taken j x c hj
    rw [hpool]
    refine ⟨hxd, hxq, ?_⟩
    intro hx
    rcases List.mem_cons.mp hx with rfl | hx
    · exact hji (h.once j i x c true hj hi)
    · exact hxn hx
  · intro j₁ j₂ x c₁ c₂ h₁ h₂
    exact h.once j₁ j₂ x c₁ c₂ (hlater h₁).2 (hlater h₂).2
  · intro x hx
    rw [hpool, hlanes]
    rcases List.mem_cons.mp hx with rfl | hx
    · exact ⟨hitem, hnq, o, hal⟩
    · exact h.finished x hx
  · intro x hx
    rw [hlanes]
    exact h.untouched x (hpool ▸ hx)
  · intro j hj
    rw [hlanes]
    exact h.others j hj
  · rw [hact]
    refine ⟨h.active.1.filter _, ?_⟩
    intro j hj
    simp only [List.mem_singleton, decide_not, List.mem_filter, Bool.not_eq_true', decide_eq_false_iff_not] at hj
    obtain ⟨j', x, hx, hxs⟩ := h.active.2 j hj.1
    have hne : j' ≠ i := by
      intro e
      subst e
      cases hi.symm.trans hx
      exact hj.2 hxs.symm
    exact ⟨j', x, by rw [Function.update_of_ne hne]; exact hx, hxs⟩

/-! ## Steps of the pool -/

theorem startedPass_uses (hd : cfg.deferred = false) (item : PoolItem) :
    Uses (OfPass item.shard) (startedPass (contractFleet cfg) item) := by
  let task := shardTask cfg (item.shard, item.counter, item.checkpoint)
  have hpass : Uses (OfPass task.shard) (processShard contractSource dynamoDbLeaseStore task) := ofPass_processShard hd
  refine uses_bind hpass ?_
  intro r
  cases r <;> trivial

theorem active_unrecorded {m m' : Memory} (h : m'.outcomes = m.outcomes) (l : List ShardId) :
    l.filter (fun k => k ∉ recorded m m') = l := by
  simp [recorded, h]

theorem recorded_append {m m' : Memory} {o : ShardId × PassOutcome} (h : m'.outcomes = m.outcomes ++ [o]) :
    recorded m m' = [o.1] := by
  simp [recorded, h]

theorem exec_mem {β : Type} {f : Memory → β × Memory} {c : Nat} {a : β}
    (h : laneExec P store w (.mem f) c s = some (a, s')) : a = (f s.mem).1 ∧ s'.mem = (f s.mem).2 ∧ s'.lanes = s.lanes ∧
      s'.active = s.active.filter fun k => k ∉ recorded s.mem (f s.mem).2 := by
  cases h
  exact ⟨rfl, rfl, rfl, rfl⟩

theorem Pooled.call (hd : cfg.deferred = false) (hdue : (due.map PoolItem.shard).Nodup)
    (h : Pooled P store w cfg start due held done ts s) {i : Fin n} {π : List Nat} {x : (r : Req) × (Resp r → Fx Unit)}
    {c : Nat} {a : Resp x.1} (hf : (ts i).focus π = some x) (he : laneExec P store w x.1 c s = some (a, s')) :
    ∃ held' done', Pooled P store w cfg start due held' done' (Function.update ts i (x.2 a)) s' := by
  have hst := h.station i
  generalize hhi : held i = hi at hst
  generalize ts i = p at hst hf
  cases hst with
  | idle =>
    simp only [poolBody, accessMem, Prog.req, Prog.bind, Prog.focus, Option.map_some, Option.some.injEq] at hf
    subst hf
    obtain ⟨ha, hmem, hlanes, hact⟩ := exec_mem he
    replace hact := hact.trans (active_unrecorded (by rfl) _)
    subst ha
    cases hq : s.mem.pool with
    | nil =>
      have hpool : s'.mem.pool = [] := by rw [hmem, hq, List.tail_nil]
      refine ⟨held, done, h.idling hhi (hpool.trans hq.symm) hlanes hact ?_⟩
      simp only [List.head?_nil]
      exact .leaving hpool
    | cons item rest =>
      have hpool : s'.mem.pool = rest := by rw [hmem, hq, List.tail_cons]
      refine ⟨_, done, h.pop hdue hhi hq hpool hlanes hact ?_⟩
      simp only [List.head?_cons]
      exact .claimed item (by rw [hlanes]; exact h.untouched item (hq ▸ List.mem_cons_self))
  | again => simp [Prog.focus] at hf
  | leaving hq => simp [Prog.focus] at hf
  | left hq => simp [Prog.focus] at hf
  | claimed item hs =>
    simp only [popped, now, Prog.req, Prog.bind, Prog.focus, Option.map_some, Option.some.injEq] at hf
    subst hf
    cases he
    exact ⟨_, done, h.inLane hdue hhi id rfl (fun _ _ => rfl) ⟨h.active.1, fun j hj => Or.inl hj⟩ (.waiting item _ hs)⟩
  | waiting item t hs =>
    simp only [slotWait, metric, Prog.req, Prog.bind, Prog.focus, Option.map_some, Option.some.injEq] at hf
    subst hf
    cases he
    exact ⟨_, done, h.inLane hdue hhi id rfl (fun _ _ => rfl) ⟨h.active.1, fun j hj => Or.inl hj⟩ (.starting item hs)⟩
  | starting item hs =>
    simp only [passAndRecord, itemPass_eq, Prog.bind, Prog.focus, Option.map_some, Option.some.injEq] at hf
    subst hf
    obtain ⟨hreply, hlanes, hmem, hact⟩ := ask_eq he
    -- nobody else holds this shard, and this worker has not created its consumer yet
    have hnew : item.shard ∉ s.active := by
      intro hmem
      obtain ⟨j, x, hx, hxs⟩ := h.active.2 _ hmem
      obtain rfl := item_eq hdue (h.taken j x true hx).1 (h.taken i item false hhi).1 hxs
      obtain rfl := h.once j i x true false hx hhi
      cases hhi.symm.trans hx
    have hactive : s'.active.Nodup ∧ ∀ j ∈ s'.active, j ∈ s.active ∨ (true = true ∧ item.shard = j) := by
      rw [hact]
      refine ⟨List.nodup_cons.mpr ⟨hnew, h.active.1⟩, ?_⟩
      intro j hj
      rcases List.mem_cons.mp hj with rfl | hj
      · exact Or.inr ⟨rfl, rfl⟩
      · exact Or.inl hj
    refine ⟨_, done, h.inLane hdue hhi (fun _ => rfl) hmem hlanes hactive (.passing item _ ?_ ?_)⟩
    · exact startedPass_uses hd item
    · refine Relation.ReflTransGen.single ?_
      rw [← hs]
      let next : (r : Req) × (Resp r → Fx PassOutcome) :=
        ⟨.createConsumer item.shard, fun _ => startedPass (contractFleet cfg) item⟩
      exact Step.call (x := next) rfl hreply
  | passing item p hp hr =>
    cases hret : p.ret? with
    | some o =>
      obtain rfl := Prog.eq_ret_of_ret? hret
      simp only [record, updateMem, accessMem, Prog.req, Prog.bind, Prog.focus, Option.map_some, Option.some.injEq] at hf
      subst hf
      obtain ⟨_, hmem, hlanes, hact⟩ := exec_mem he
      rw [recorded_append (o := (item.shard, o)) (by rfl)] at hact
      exact ⟨_, _, h.recorded hhi hr (by rw [hmem]) hlanes hact .again⟩
    | none =>
      simp only [Prog.focus, focus_of_bind hret, Option.map_map, Option.map_eq_some_iff] at hf
      obtain ⟨y, hy, rfl⟩ := hf
      obtain ⟨hstep, hp'⟩ := local_ofPass.call hp hy he
      obtain ⟨_, hlanes, hmem, hact⟩ := exec_ofPass (uses_focus hp hy).1 he
      refine ⟨_, done, h.inLane hdue hhi id hmem hlanes ⟨hact ▸ h.active.1, fun j hj => Or.inl (hact ▸ hj)⟩ ?_⟩
      exact .passing item _ hp' (hr.tail hstep)

theorem Pooled.silent (hdue : (due.map PoolItem.shard).Nodup) (h : Pooled P store w cfg start due held done ts s)
    {i : Fin n} {π : List Nat} {q : Fx Unit} (hs : (ts i).silent π = some q) :
    ∃ held', Pooled P store w cfg start due held' done (Function.update ts i q) s := by
  have hst := h.station i
  generalize hhi : held i = hi at hst
  generalize ts i = p at hst hs
  cases hst with
  | idle => simp [poolBody, accessMem, Prog.req, Prog.bind, Prog.silent, Prog.ret?] at hs
  | again =>
    simp only [Prog.silent, Prog.ret?, Option.some.injEq] at hs
    subst hs
    exact ⟨held, h.idling hhi rfl rfl rfl .idle⟩
  | leaving hq =>
    simp only [Prog.silent, Prog.ret?, Option.some.injEq] at hs
    subst hs
    exact ⟨held, h.idling hhi rfl rfl rfl (.left hq)⟩
  | left hq => simp [Prog.silent] at hs
  | claimed item _ => simp [popped, now, Prog.req, Prog.bind, Prog.silent, Prog.ret?] at hs
  | waiting item t _ => simp [slotWait, metric, Prog.req, Prog.bind, Prog.silent, Prog.ret?] at hs
  | starting item _ =>
    simp [passAndRecord, itemPass_eq, Prog.bind, Prog.silent, Prog.ret?] at hs
  | passing item p hp hr =>
    cases hret : p.ret? with
    | some o =>
      obtain rfl := Prog.eq_ret_of_ret? hret
      simp [record, updateMem, accessMem, Prog.req, Prog.bind, Prog.silent, Prog.ret?] at hs
    | none =>
      have hret' : (p.bind (record item)).ret? = none := by
        cases p with
        | ret _ => cases hret
        | _ => rfl
      simp only [Prog.silent, hret', silent_of_bind hret, Option.map_map, Option.map_eq_some_iff] at hs
      obtain ⟨p₁, hp₁, rfl⟩ := hs
      obtain ⟨hstep, hp'⟩ := Local.silent (K := ownHandler P store item.shard) (w := w) hp hp₁ (s.lanes item.shard)
      refine ⟨_, h.inLane hdue hhi id rfl (fun _ _ => rfl) ⟨h.active.1, fun j hj => Or.inl hj⟩ ?_⟩
      exact .passing item _ hp' (hr.tail hstep)

/-! ## One pass for each item -/

theorem Along.cases (hd : cfg.deferred = false) {item : PoolItem} {p : Fx PassOutcome} {lane : Lane}
    (h : Along P store w cfg start item p lane) :
    (p = itemPass (contractFleet cfg) item ∧ lane = start item.shard) ∨
      (Uses (OfPass item.shard) p ∧ passes lane.calls = passes (start item.shard).calls + 1) := by
  unfold Along at h
  generalize hy : (p, lane) = y at h
  induction h generalizing p lane with
  | refl =>
    cases hy
    exact Or.inl ⟨rfl, rfl⟩
  | tail _ hstep ih =>
    rename_i x _
    obtain ⟨p₀, lane₀⟩ := x
    cases hstep with
    | @call _ _ v x a hf he =>
      cases hy
      rcases ih rfl with ⟨rfl, rfl⟩ | ⟨hu, hn⟩
      · simp only [itemPass_eq, Prog.focus, Option.some.injEq] at hf
        subst hf
        cases he
        refine Or.inr ⟨startedPass_uses hd item, ?_⟩
        simp [Lane.asked, passes, Call.isCreated]
      · obtain ⟨hr, hk⟩ := uses_focus hu hf
        refine Or.inr ⟨hk a, ?_⟩
        rw [← hn]
        exact passes_ofPass hr he
    | silent hs =>
      cases hy
      rcases ih rfl with ⟨rfl, rfl⟩ | ⟨hu, hn⟩
      · simp [itemPass_eq, Prog.silent] at hs
      · exact Or.inr ⟨uses_silent hu hs, hn⟩

theorem Along.passes_eq (hd : cfg.deferred = false) {item : PoolItem} {o : PassOutcome} {lane : Lane}
    (h : Along P store w cfg start item (.ret o) lane) : passes lane.calls = passes (start item.shard).calls + 1 := by
  rcases h.cases hd with ⟨e, _⟩ | ⟨_, hn⟩
  · rw [itemPass_eq] at e
    cases e
  · exact hn

theorem Pooled.all_done (hn : 1 ≤ n) (h : Pooled P store w cfg start due held done ts s) (hts : ∀ i, ts i = .ret ()) :
    (∀ item ∈ due, ∃ o, Along P store w cfg start item (.ret o) (s.lanes item.shard)) ∧ s.active = [] := by
  have hleft : ∀ i, held i = none ∧ s.mem.pool = [] := by
    intro i
    have hst := h.station i
    rw [hts i] at hst
    generalize held i = hi at hst
    cases hst with
    | left hq => exact ⟨rfl, hq⟩
  refine ⟨?_, ?_⟩
  · intro item hitem
    rcases h.place item hitem with hq | ⟨i, b, hi⟩ | hdone
    · rw [(hleft ⟨0, hn⟩).2] at hq
      cases hq
    · rw [(hleft i).1] at hi
      cases hi
    · exact (h.finished item hdone).2.2
  · refine List.eq_nil_iff_forall_not_mem.mpr ?_
    intro j hj
    obtain ⟨i, item, hi, _⟩ := h.active.2 j hj
    rw [(hleft i).1] at hi
    cases hi

/-! ## The pool comes to its end -/

theorem Pooled.finishes (hd : cfg.deferred = false) (h : Pooled P store w cfg start due held done ts s)
    (hends : ∀ item ∈ due, ∃ o lane, Along P store w cfg start item (.ret o) lane) {i : Fin n} {item : PoolItem} {b : Bool}
    (hi : held i = some (item, b)) : ∃ u, u.mem.pool = s.mem.pool ∧ Runs (laneHandler P store) Alone w (ts i) s
      (.loop (fun _ => poolBody (contractFleet cfg)) (.ret (.inl ())) .ret) u := by
  obtain ⟨o, lane, hend⟩ := hends item (h.taken i item b hi).1
  -- once the consumer is created, the rest of the pass is what it is alone
  have hpassing : ∀ {p : Fx PassOutcome} {v : Yard}, Uses (OfPass item.shard) p →
      Along P store w cfg start item p (v.lanes item.shard) → ∃ u, u.mem.pool = v.mem.pool ∧
      Runs (laneHandler P store) Alone w (p.bind (record item)) v (.ret (.inl ())) u := by
    intro p v hp hr
    have hsteps : Relation.ReflTransGen (Step (ownHandler P store item.shard) w) (p, v.lanes item.shard) (.ret o, lane) := by
      rcases Relation.ReflTransGen.total_of_right_unique step_rightUnique hr hend with hab | hba
      · exact hab
      · rcases Relation.ReflTransGen.cases_head hba with e | ⟨z, hz, _⟩
        · exact e ▸ .refl
        · exact absurd hz step_ret
    obtain ⟨u, hu, _, hmem⟩ := runs_of_steps hp hsteps
    refine ⟨⟨u.lanes, { u.mem with outcomes := u.mem.outcomes ++ [(item.shard, o)] },
      u.active.filter fun k => k ∉ StreamsConsumer.recorded u.mem { u.mem with outcomes := u.mem.outcomes ++ [(item.shard, o)] }⟩,
      by simp [hmem], ?_⟩
    exact hu.seq (.call (π := []) (c := 0) rfl rfl (.refl _ _))
  have hstarting : ∀ {v : Yard}, v.lanes item.shard = start item.shard → ∃ u, u.mem.pool = v.mem.pool ∧
      Runs (laneHandler P store) Alone w (passAndRecord (contractFleet cfg) item) v (.ret (.inl ())) u := by
    intro v hv
    obtain ⟨u, hpool, hrun⟩ := hpassing (startedPass_uses hd item)
      (v := ⟨Function.update v.lanes item.shard ((v.lanes item.shard).asked .created), v.mem, item.shard :: v.active⟩) (by
        refine Relation.ReflTransGen.single ?_
        let next : (r : Req) × (Resp r → Fx PassOutcome) :=
          ⟨.createConsumer item.shard, fun _ => startedPass (contractFleet cfg) item⟩
        simp only [Function.update_self, hv]
        exact Step.call (x := next) rfl rfl)
    exact ⟨u, hpool, .call (π := []) (c := 0) rfl rfl hrun⟩
  have hst := h.station i
  rw [hi] at hst
  generalize ts i = p at hst
  cases hst with
  | claimed _ hs =>
    obtain ⟨u, hpool, hrun⟩ := hstarting hs
    exact ⟨u, hpool, Runs.cur (.call (π := []) (c := 0) rfl rfl (.call (π := []) (c := 0) rfl rfl hrun))⟩
  | waiting _ t hs =>
    obtain ⟨u, hpool, hrun⟩ := hstarting hs
    exact ⟨u, hpool, Runs.cur (.call (π := []) (c := 0) rfl rfl hrun)⟩
  | starting _ hs =>
    obtain ⟨u, hpool, hrun⟩ := hstarting hs
    exact ⟨u, hpool, Runs.cur hrun⟩
  | passing _ p hp hr =>
    obtain ⟨u, hpool, hrun⟩ := hpassing hp hr
    exact ⟨u, hpool, Runs.cur hrun⟩

def Pooling (P : ShardId → Partner) (store : ShardId → RowStore) (w : Worker) (cfg : FleetConfig) (start : ShardId → Lane)
    (due : List PoolItem) {n : Nat} (ts : Fin n → Fx Unit) (s : Yard) : Prop :=
  ∃ held done, Pooled P store w cfg start due held done ts s

theorem pooling_call (hd : cfg.deferred = false) (hdue : (due.map PoolItem.shard).Nodup) : ∀ (ts : Fin n → Fx Unit) s i π x
    c a s', Pooling P store w cfg start due ts s → (ts i).focus π = some x →
    (laneHandler P store).exec w x.1 c s = some (a, s') → Pooling P store w cfg start due (Function.update ts i (x.2 a)) s' :=
  fun _ _ _ _ _ _ _ _ ⟨_, _, h⟩ hf he => h.call hd hdue hf he

theorem pooling_silent (hdue : (due.map PoolItem.shard).Nodup) : ∀ (ts : Fin n → Fx Unit) s i π p,
    Pooling P store w cfg start due ts s → (ts i).silent π = some p →
    Pooling P store w cfg start due (Function.update ts i p) s := by
  intro ts s i π p ⟨_, done, h⟩ hs
  obtain ⟨held', h'⟩ := h.silent hdue hs
  exact ⟨held', done, h'⟩

theorem bind_ne_ret {α β : Type} {f : α → Fx β} (hf : ∀ a b, f a ≠ .ret b) (p : Fx α) (b : β) : p.bind f ≠ .ret b := by
  cases p with
  | ret a => exact hf a b
  | _ => exact fun h => by cases h

theorem Station.of_again {h : Option (PoolItem × Bool)} {p : Fx Unit} (hst : Station P store w cfg start s h p)
    (hp : p = .loop (fun _ => poolBody (contractFleet cfg)) (.ret (.inl ())) .ret) : h = none := by
  cases hst with
  | idle => rfl
  | again => rfl
  | leaving _ => rfl
  | left _ => rfl
  | claimed item _ => simp [popped, now, Prog.req, Prog.bind] at hp
  | waiting item t _ => simp [slotWait, metric, Prog.req, Prog.bind] at hp
  | starting item _ => simp [passAndRecord, itemPass_eq, Prog.bind] at hp
  | passing item q _ _ =>
    simp only [Prog.loop.injEq, heq_eq_eq, true_and, and_true] at hp
    refine absurd hp (bind_ne_ret ?_ q _)
    intro o b e
    cases e

theorem runs_pop (P : ShardId → Partner) (store : ShardId → RowStore) (w : Worker) (cfg : FleetConfig) (s : Yard) : ∃ u, u.mem.pool = s.mem.pool.tail ∧ u.lanes = s.lanes ∧ u.active = s.active ∧
    Runs (laneHandler P store) Alone w
      (.loop (fun _ => poolBody (contractFleet cfg)) (poolBody (contractFleet cfg)) .ret) s
      (.loop (fun _ => poolBody (contractFleet cfg)) (popped (contractFleet cfg) s.mem.pool.head?) .ret) u :=
  ⟨⟨s.lanes, { s.mem with pool := s.mem.pool.tail }, _⟩, rfl, rfl, active_unrecorded rfl _,
    .call (π := []) (c := 0) rfl rfl (.refl _ _)⟩

/-- A worker that is alone takes what is left in the queue, item by item, and returns. -/
theorem Pooled.idle_returns (hd : cfg.deferred = false) (hdue : (due.map PoolItem.shard).Nodup)
    (hends : ∀ item ∈ due, ∃ o lane, Along P store w cfg start item (.ret o) lane) {i : Fin n} {m : Nat} :
    ∀ {held : Fin n → Option (PoolItem × Bool)} {done : List PoolItem} {ts : Fin n → Fx Unit} {s : Yard},
    Pooled P store w cfg start due held done ts s → s.mem.pool.length = m → held i = none →
    ∃ u, Runs (laneHandler P store) Alone w
      (.loop (fun _ => poolBody (contractFleet cfg)) (poolBody (contractFleet cfg)) .ret) s (.ret ()) u := by
  induction m with
  | zero =>
    intro held done ts s h hm hi
    obtain ⟨u, _, _, _, hrun⟩ := runs_pop P store w cfg s
    rw [List.length_eq_zero_iff.mp hm] at hrun
    exact ⟨u, hrun.trans (.silent (π := []) rfl (.refl _ _))⟩
  | succ m ih =>
    intro held done ts s h hm hi
    obtain ⟨s₁, hpool₁, hlanes₁, hact₁, hpop⟩ := runs_pop P store w cfg s
    cases hq : s.mem.pool with
    | nil => simp [hq] at hm
    | cons item rest =>
      rw [hq] at hpop hpool₁
      have hfresh : s₁.lanes item.shard = start item.shard := by
        rw [hlanes₁]
        exact h.untouched item (hq ▸ List.mem_cons_self)
      have h₁ := h.pop hdue hi hq hpool₁ hlanes₁ hact₁ (.claimed item hfresh)
      obtain ⟨u, hpool, hrun⟩ := h₁.finishes hd hends (Function.update_self _ _ _)
      obtain ⟨held₂, done₂, h₂⟩ := hrun.branch_keeps (pooling_call hd hdue) (pooling_silent hdue) ⟨_, _, h₁⟩
      rw [Function.update_self] at hrun
      have hheld := (h₂.station i).of_again (Function.update_self _ _ _)
      have hlen : u.mem.pool.length = m := by
        rw [hq] at hm
        rw [hpool, hpool₁]
        simpa using hm
      obtain ⟨v, hv⟩ := ih h₂ hlen hheld
      exact ⟨v, hpop.trans (hrun.trans (.silent (π := []) rfl hv))⟩

theorem Pooling.returns (hd : cfg.deferred = false) (hdue : (due.map PoolItem.shard).Nodup)
    (hends : ∀ item ∈ due, ∃ o lane, Along P store w cfg start item (.ret o) lane)
    (h : Pooling P store w cfg start due ts s) (i : Fin n) :
    ∃ b u, Runs (laneHandler P store) Alone w (ts i) s (.ret b) u := by
  obtain ⟨held, done, h⟩ := h
  cases hi : held i with
  | some x =>
    obtain ⟨u, hpool, hrun⟩ := h.finishes hd hends hi
    obtain ⟨held₂, done₂, h₂⟩ := hrun.branch_keeps (pooling_call hd hdue) (pooling_silent hdue) ⟨_, _, h⟩
    have hheld := (h₂.station i).of_again (Function.update_self _ _ _)
    obtain ⟨v, hv⟩ := h₂.idle_returns hd hdue hends rfl hheld
    exact ⟨(), v, hrun.trans (.silent (π := []) rfl hv)⟩
  | none =>
    obtain ⟨v, hv⟩ := h.idle_returns hd hdue hends rfl hi
    have hst := h.station i
    rw [hi] at hst
    generalize ts i = p at hst
    cases hst with
    | idle => exact ⟨(), v, hv⟩
    | again => exact ⟨(), v, .silent (π := []) rfl hv⟩
    | leaving _ => exact ⟨(), s, .silent (π := []) rfl (.refl _ _)⟩
    | left _ => exact ⟨(), s, .refl _ _⟩

theorem Pooled.length_active (h : Pooled P store w cfg start due held done ts s) : s.active.length ≤ n := by
  have hsub : s.active.toFinset ⊆ (Finset.univ.image fun i => (held i).elim "" fun x => x.1.shard) := by
    intro j hj
    obtain ⟨i, item, hi, hs⟩ := h.active.2 j (List.mem_toFinset.mp hj)
    exact Finset.mem_image.mpr ⟨i, Finset.mem_univ i, by simp [hi, hs]⟩
  calc s.active.length = s.active.toFinset.card := (List.toFinset_card_of_nodup h.active.1).symm
    _ ≤ (Finset.univ.image fun i : Fin n => (held i).elim "" fun x => x.1.shard).card := Finset.card_le_card hsub
    _ ≤ (Finset.univ : Finset (Fin n)).card := Finset.card_image_le
    _ = n := by simp

end

/-! ## The unbounded path -/

section
variable {P : ShardId → Partner} {store : ShardId → RowStore} {w : Worker} {cfg : FleetConfig} {start : ShardId → Lane}
  {n : Nat} {item : Fin n → PoolItem} {ts : Fin n → Fx PassOutcome} {s s' : Yard}

/-- Every task is where its pass is when it runs alone. -/
structure Forked (P : ShardId → Partner) (store : ShardId → RowStore) (w : Worker) (cfg : FleetConfig)
    (start : ShardId → Lane) {n : Nat} (item : Fin n → PoolItem) (ts : Fin n → Fx PassOutcome) (s : Yard) : Prop where
  task : ∀ i, Along P store w cfg start (item i) (ts i) (s.lanes (item i).shard)
  others : ∀ j, (∀ i, (item i).shard ≠ j) → s.lanes j = start j

theorem Forked.inLane (hinj : ∀ i j, (item i).shard = (item j).shard → i = j) (h : Forked P store w cfg start item ts s)
    {i : Fin n} {p : Fx PassOutcome} (hp : Along P store w cfg start (item i) p (s'.lanes (item i).shard))
    (hlanes : ∀ j, j ≠ (item i).shard → s'.lanes j = s.lanes j) :
    Forked P store w cfg start item (Function.update ts i p) s' := by
  refine ⟨?_, ?_⟩
  · intro j
    by_cases hji : j = i
    · subst hji
      simpa using hp
    · rw [Function.update_of_ne hji, hlanes _ fun e => hji (hinj j i e)]
      exact h.task j
  · intro j hj
    rw [hlanes j fun e => hj i e.symm]
    exact h.others j hj

theorem Forked.call (hd : cfg.deferred = false) (hinj : ∀ i j, (item i).shard = (item j).shard → i = j)
    (h : Forked P store w cfg start item ts s) {i : Fin n} {π : List Nat} {x : (r : Req) × (Resp r → Fx PassOutcome)}
    {c : Nat} {a : Resp x.1} (hf : (ts i).focus π = some x) (he : laneExec P store w x.1 c s = some (a, s')) :
    Forked P store w cfg start item (Function.update ts i (x.2 a)) s' := by
  have htask := h.task i
  rcases htask.cases hd with ⟨hp, _⟩ | ⟨hu, _⟩
  · rw [hp] at hf
    simp only [itemPass_eq, Prog.focus, Option.some.injEq] at hf
    subst hf
    obtain ⟨hreply, hlanes, _, _⟩ := ask_eq he
    refine h.inLane hinj (htask.tail ?_) hlanes
    rw [hp]
    let next : (r : Req) × (Resp r → Fx PassOutcome) :=
      ⟨.createConsumer (item i).shard, fun _ => startedPass (contractFleet cfg) (item i)⟩
    exact Step.call (x := next) rfl hreply
  · obtain ⟨hstep, _⟩ := local_ofPass.call hu hf he
    exact h.inLane hinj (htask.tail hstep) (exec_ofPass (uses_focus hu hf).1 he).2.1

theorem Forked.silent (hd : cfg.deferred = false) (hinj : ∀ i j, (item i).shard = (item j).shard → i = j)
    (h : Forked P store w cfg start item ts s) {i : Fin n} {π : List Nat} {q : Fx PassOutcome}
    (hs : (ts i).silent π = some q) : Forked P store w cfg start item (Function.update ts i q) s := by
  have htask := h.task i
  rcases htask.cases hd with ⟨hp, _⟩ | ⟨hu, _⟩
  · rw [hp] at hs
    simp [itemPass_eq, Prog.silent] at hs
  · obtain ⟨hstep, _⟩ := Local.silent (K := ownHandler P store (item i).shard) (w := w) hu hs (s.lanes (item i).shard)
    exact h.inLane hinj (htask.tail hstep) fun _ _ => rfl

theorem unbounded_lanes (hd : cfg.deferred = false) {due : List PoolItem} (hdue : (due.map PoolItem.shard).Nodup)
    {b : List PassOutcome} (hstart : s.lanes = start)
    (h : Runs (laneHandler P store) Alone w (Prog.join (due.map (itemPass (contractFleet cfg)))) s (.ret b) s') :
    (∀ x ∈ due, ∃ o, Along P store w cfg start x (.ret o) (s'.lanes x.shard)) ∧
      ∀ j, j ∉ due.map PoolItem.shard → s'.lanes j = start j := by
  have hlen : (due.map (itemPass (contractFleet cfg))).length = due.length := List.length_map _
  have hinj : ∀ i j : Fin (due.map (itemPass (contractFleet cfg))).length,
      (due.get (i.cast hlen)).shard = (due.get (j.cast hlen)).shard → i = j := by
    intro i j e
    have hij := (List.nodup_iff_injective_get.mp (List.Nodup.of_map _ hdue))
      (item_eq hdue (List.get_mem _ _) (List.get_mem _ _) e)
    exact Fin.cast_injective hlen hij
  have hJ : Forked P store w cfg start (fun i => due.get (i.cast hlen)) (due.map (itemPass (contractFleet cfg))).get s := by
    refine ⟨?_, fun j _ => by rw [hstart]⟩
    intro i
    have hget : (due.map (itemPass (contractFleet cfg))).get i = itemPass (contractFleet cfg) (due.get (i.cast hlen)) := by
      simp
    rw [hget, hstart]
    exact Relation.ReflTransGen.refl
  rcases Runs.of_par (Forked P store w cfg start fun i => due.get (i.cast hlen))
    (fun _ _ _ _ _ _ _ _ h hf he => h.call hd hinj hf he) (fun _ _ _ _ _ h hs => h.silent hd hinj hs)
    (fun _ _ _ hi _ => hi.elim) h hJ with ⟨ts', e, _⟩ | ⟨r, u, hend, hrest⟩
  · cases e
  · obtain ⟨_, rfl⟩ := hrest.of_ret
    refine ⟨?_, ?_⟩
    · intro x hx
      obtain ⟨i, rfl⟩ := List.get_of_mem hx
      exact ⟨r (i.cast hlen.symm), hend.task (i.cast hlen.symm)⟩
    · intro j hj
      refine hend.others j ?_
      intro i e
      exact hj (e ▸ List.mem_map_of_mem (List.get_mem _ _))

end

/-! ## What is due -/

def dueItem (t : Nat) (x : ShardId × Nat × Option SequenceNumber) : PoolItem := ⟨x.1, x.2.1, x.2.2, t⟩

/-- No shard of the list is backing off at `t`. -/
def AllDue (sched : List (ShardId × ShardSched)) (items : List (ShardId × Nat × Option SequenceNumber)) (t : Nat) : Prop :=
  ∀ x ∈ items, ∀ e, sched.lookup x.1 = some e → e.dueAt ≤ t

theorem lookup_filter_key {p : ShardId → Bool} {k : ShardId} (hk : p k = true) : ∀ {l : List (ShardId × ShardSched)},
    (l.filter fun x => p x.1).lookup k = l.lookup k
  | [] => rfl
  | (j, e) :: l => by
    by_cases hj : p j = true
    · rw [List.filter_cons_of_pos (by simpa using hj), List.lookup_cons, List.lookup_cons, lookup_filter_key hk]
    · have hne : (k == j) = false := by
        rw [beq_eq_false_iff_ne]
        rintro rfl
        exact hj hk
      rw [List.filter_cons_of_neg (by simpa using hj), List.lookup_cons, hne, lookup_filter_key hk]

theorem due_of_allDue {t : Nat} : ∀ {items : List (ShardId × Nat × Option SequenceNumber)} {due : List PoolItem}
    {sched : List (ShardId × ShardSched)}, AllDue sched items t →
    (items.foldl (fun (acc : List PoolItem × List (ShardId × ShardSched)) x =>
      match acc.2.lookup x.1 with
      | some e => (if e.dueAt ≤ t then acc.1 ++ [⟨x.1, x.2.1, x.2.2, t⟩] else acc.1, acc.2)
      | none => (acc.1 ++ [⟨x.1, x.2.1, x.2.2, t⟩], acc.2 ++ [(x.1, ⟨0, t, t⟩)])) (due, sched)).1 =
      due ++ items.map (dueItem t)
  | [], due, _, _ => by simp
  | x :: items, due, sched, h => by
    have hrest : AllDue sched items t := fun y hy => h y (List.mem_cons_of_mem _ hy)
    rw [List.foldl_cons]
    cases hx : sched.lookup x.1 with
    | some e =>
      simp only [if_pos (h x List.mem_cons_self e hx)]
      rw [due_of_allDue hrest]
      simp [dueItem]
    | none =>
      simp only
      rw [due_of_allDue]
      · simp [dueItem]
      · intro y hy e he
        rw [List.lookup_append] at he
        cases hy' : sched.lookup y.1 with
        | some e' =>
          rw [hy', Option.some_or, Option.some.injEq] at he
          exact he ▸ hrest y hy e' hy'
        | none =>
          rw [hy', Option.none_or, List.lookup_cons] at he
          split at he
          · cases he
            exact le_rfl
          · cases he

theorem refreshSched_due {sched : List (ShardId × ShardSched)} {items : List (ShardId × Nat × Option SequenceNumber)}
    {t : Nat} (h : AllDue sched items t) : (refreshSched sched items t).1 = items.map (dueItem t) := by
  unfold refreshSched
  refine (due_of_allDue ?_).trans (List.nil_append _)
  intro x hx e he
  refine h x hx e ?_
  rw [lookup_filter_key (p := fun k => (items.map Prod.fst).contains k)] at he
  · exact he
  · exact List.contains_iff_mem.mpr (List.mem_map_of_mem hx)

/-! ## The bounded path -/

section
variable {P : ShardId → Partner} {store : ShardId → RowStore} {w : Worker} {cfg : FleetConfig} {start : ShardId → Lane}
  {s u : Yard} {k : Nat}

/-- Requests about no shard. -/
def Clerical : Req → Prop
  | .mem _ => True
  | .now => True
  | .sleep _ => True
  | .metric _ => True
  | _ => False

theorem clerical_keeps {r : Req} (hr : Clerical r) {c : Nat} {a : Resp r} (h : laneExec P store w r c s = some (a, u))
    (hs : s.lanes = start ∧ s.active = []) : u.lanes = start ∧ u.active = [] := by
  cases r <;> simp only [Clerical] at hr
  case mem f =>
    cases h
    exact ⟨hs.1, by simp [hs.2]⟩
  case now =>
    cases h
    exact hs
  case sleep ms =>
    cases h
    exact hs
  case metric m =>
    cases h
    exact hs

theorem clerical_run {α : Type} {p q : Fx α} (h : Runs (laneHandler P store) Alone w p s q u) (hp : Uses Clerical p)
    (hs : s.lanes = start ∧ s.active = []) : u.lanes = start ∧ u.active = [] :=
  h.keeps (J := fun s => s.lanes = start ∧ s.active = []) (fun _ hr _ _ _ _ he hs => clerical_keeps (w := w) hr he hs) hp hs

/-- A program about no shard can be brought to its end from wherever it is. -/
theorem clerical_ends {α : Type} {p q : Fx α} (h : Runs (laneHandler P store) Alone w p s q u) (hp : Uses Clerical p)
    (hst : Straight p) : ∃ a v, Runs (laneHandler P store) Alone w q u (.ret a) v := by
  refine straight_runs ?_ (h.straight hst) (h.uses hp) u
  intro r hr v
  cases r <;> simp only [Clerical] at hr
  case mem f => exact ⟨0, _, _, rfl⟩
  case now => exact ⟨0, _, _, rfl⟩
  case sleep ms => exact ⟨0, _, _, rfl⟩
  case metric m => exact ⟨0, _, _, rfl⟩

theorem run_accessMem {β : Type} {f : Memory → β × Memory} {a : β}
    (h : Runs (laneHandler P store) Alone w (accessMem f) s (.ret a) u) : a = (f s.mem).1 ∧ u.mem = (f s.mem).2 := by
  obtain ⟨c, he⟩ := Runs.of_req (R := Req) h
  cases he
  exact ⟨rfl, rfl⟩

/-- Every due item is where its pass brings it alone, and no other lane was touched. -/
structure AllDone (P : ShardId → Partner) (store : ShardId → RowStore) (w : Worker) (cfg : FleetConfig)
    (start : ShardId → Lane) (due : List PoolItem) (lanes : ShardId → Lane) : Prop where
  arrived : ∀ x ∈ due, ∃ o, Along P store w cfg start x (.ret o) (lanes x.shard)
  others : ∀ j, j ∉ due.map PoolItem.shard → lanes j = start j

/-- What holds all along a cycle of the pool. -/
structure Bounded (P : ShardId → Partner) (store : ShardId → RowStore) (w : Worker) (cfg : FleetConfig)
    (start : ShardId → Lane) (due : List PoolItem) (k : Nat) {α : Type} (q : Fx α) (u : Yard) : Prop where
  apart : u.active.Nodup
  capped : u.active.length ≤ k
  complete : ∀ a, q = .ret a → AllDone P store w cfg start due u.lanes ∧ u.active = []
  ends : (∀ x ∈ due, ∃ o lane, Along P store w cfg start x (.ret o) lane) →
    ∃ a v, Runs (laneHandler P store) Alone w q u (.ret a) v

theorem bounded_quiet {due : List PoolItem} {α : Type} {q : Fx α} (hu : u.active = [])
    (hq : ∀ a, q = .ret a → AllDone P store w cfg start due u.lanes)
    (hends : (∀ x ∈ due, ∃ o lane, Along P store w cfg start x (.ret o) lane) →
      ∃ a v, Runs (laneHandler P store) Alone w q u (.ret a) v) : Bounded P store w cfg start due k q u := by
  refine ⟨?_, ?_, fun a ha => ⟨hq a ha, hu⟩, hends⟩
  · rw [hu]
    exact List.nodup_nil
  · rw [hu]
    exact Nat.zero_le k

theorem bounded_bind {due : List PoolItem} {α β : Type} {p : Fx α} {f : α → Fx β} {q : Fx β}
    (h : Runs (laneHandler P store) Alone w (p.bind f) s q u) (hp : Uses Clerical p) (hst : Straight p)
    (hs : s.lanes = start ∧ s.active = []) (hf : ∀ a b, f a ≠ .ret b)
    (hrest : ∀ a v q u, Runs (laneHandler P store) Alone w p s (.ret a) v → v.lanes = start ∧ v.active = [] →
      Runs (laneHandler P store) Alone w (f a) v q u → Bounded P store w cfg start due k q u) : Bounded P store w cfg start due k q u := by
  rcases h.of_bind with ⟨p', rfl, h₁⟩ | ⟨a, v, h₁, h₂⟩
  · refine bounded_quiet (clerical_run h₁ hp hs).2 (fun b e => absurd e (bind_ne_ret hf _ _)) ?_
    intro hends
    obtain ⟨a, v, hv⟩ := clerical_ends h₁ hp hst
    have h₁' := h₁.trans hv
    obtain ⟨b, v', hv'⟩ := (hrest a v _ _ h₁' (clerical_run h₁' hp hs) (.refl _ _)).ends hends
    exact ⟨b, v', hv.seq hv'⟩
  · exact hrest a v q u h₁ (clerical_run h₁ hp hs) h₂

/-- While the pool runs, its workers hold different items. When they have returned, every item is done. -/
theorem pool_bounded (hd : cfg.deferred = false) {due : List PoolItem} (hdue : (due.map PoolItem.shard).Nodup) (hk : 1 ≤ k)
    (hs : s.lanes = start ∧ s.active = []) (hpool : s.mem.pool = due) {q : Fx (List Unit)}
    (h : Runs (laneHandler P store) Alone w (Prog.join (List.replicate k (poolWorker (contractFleet cfg)))) s q u) :
    Bounded P store w cfg start due k q u := by
  have hlen : (List.replicate k (poolWorker (contractFleet cfg))).length = k := List.length_replicate
  have hJ : Pooling P store w cfg start due (List.replicate k (poolWorker (contractFleet cfg))).get s := by
    refine ⟨fun _ => none, [], ?_, hpool ▸ List.suffix_refl _, ?_, ?_, ?_, ?_, ?_, ?_, ?_⟩
    · intro i
      have hget : (List.replicate k (poolWorker (contractFleet cfg))).get i = poolWorker (contractFleet cfg) := by simp
      rw [hget, poolWorker_eq]
      exact .idle
    · intro x hx
      exact Or.inl (hpool ▸ hx)
    · intro i x b hi
      cases hi
    · intro i j x b c hi
      cases hi
    · intro x hx
      cases hx
    · intro x _
      rw [hs.1]
    · intro j _
      rw [hs.1]
    · rw [hs.2]
      exact ⟨List.nodup_nil, fun j hj => by cases hj⟩
  rcases Runs.of_par (Pooling P store w cfg start due) (pooling_call hd hdue) (pooling_silent hdue)
    (fun _ _ _ hi _ => hi.elim) h hJ with ⟨ts', rfl, h'⟩ | ⟨b, v, h', hrest⟩
  · refine ⟨?_, ?_, fun b hb => (by cases hb), ?_⟩
    · obtain ⟨_, _, h'⟩ := h'
      exact h'.active.1
    · obtain ⟨_, _, h'⟩ := h'
      exact hlen ▸ h'.length_active
    · intro hends
      obtain ⟨b, v, hrun, _⟩ := Runs.finish (pooling_call hd hdue) (pooling_silent hdue)
        (fun ts s i hJ => hJ.returns hd hdue hends i) h' (k := fun bs => .ret (List.ofFn bs))
      exact ⟨_, v, hrun⟩
  · obtain ⟨rfl, rfl⟩ := hrest.of_ret
    obtain ⟨_, _, h'⟩ := h'
    obtain ⟨hdone, hact⟩ := h'.all_done (hlen.symm ▸ hk) fun _ => rfl
    exact bounded_quiet hact (fun _ _ => ⟨hdone, h'.others⟩) fun _ => ⟨_, _, .refl _ _⟩

theorem settle_bounded {due : List PoolItem} {q : Fx Unit} (hdone : AllDone P store w cfg start due s.lanes)
    (hs : s.active = []) (h : Runs (laneHandler P store) Alone w (settleOutcomes (contractFleet cfg)) s q u) :
    Bounded P store w cfg start due k q u := by
  have huses : Uses Clerical (settleOutcomes (contractFleet cfg)) := ⟨trivial, fun _ => ⟨trivial, fun _ => trivial⟩⟩
  obtain ⟨hlanes, hact⟩ := clerical_run h huses ⟨rfl, hs⟩
  exact bounded_quiet hact (fun _ _ => hlanes ▸ hdone) fun _ => clerical_ends h huses fun _ _ => trivial

theorem runQueue_bounded (hd : cfg.deferred = false) {due : List PoolItem} (hdue : (due.map PoolItem.shard).Nodup)
    (hk : 1 ≤ k) (hs : s.lanes = start ∧ s.active = []) {q : Fx Unit}
    (h : Runs (laneHandler P store) Alone w (runQueue (contractFleet cfg) k due) s q u) :
    Bounded P store w cfg start due k q u := by
  refine bounded_bind h ⟨trivial, fun _ => trivial⟩ (straight_req _) hs (fun _ _ e => by cases e) ?_
  intro _ v q u _ hv h
  refine bounded_bind h ⟨trivial, fun _ => trivial⟩ (straight_req _) hv (fun _ _ e => by cases e) ?_
  intro _ v' q u h₁ hv' h
  have hpool : v'.mem.pool = due := by
    rw [(run_accessMem h₁).2]
  rcases h.of_bind with ⟨p', rfl, h₂⟩ | ⟨_, v'', h₂, hrest⟩
  · have hb := pool_bounded hd hdue hk hv' hpool h₂
    refine ⟨hb.apart, hb.capped, fun _ e => absurd e (bind_ne_ret (fun _ _ h => by cases h) _ _), ?_⟩
    intro hends
    obtain ⟨b, x, hx⟩ := hb.ends hends
    obtain ⟨hdone, hact⟩ := (pool_bounded hd hdue hk hv' hpool (h₂.trans hx)).complete b rfl
    obtain ⟨_, y, hy⟩ := (settle_bounded (k := k) hdone hact (.refl _ _)).ends hends
    exact ⟨_, y, hx.seq hy⟩
  · obtain ⟨hdone, hact⟩ := (pool_bounded hd hdue hk hv' hpool h₂).complete _ rfl
    exact settle_bounded hdone hact hrest

theorem awaitDue_bounded (hs : s.lanes = start ∧ s.active = []) {q : Fx Unit}
    (h : Runs (laneHandler P store) Alone w (awaitDue (contractFleet cfg)) s q u) :
    Bounded P store w cfg start [] k q u := by
  have huses : Uses Clerical (awaitDue (contractFleet cfg)) ∧ Straight (awaitDue (contractFleet cfg)) := by
    refine ⟨⟨trivial, fun _ => ⟨trivial, fun next => ?_⟩⟩, fun _ next => ?_⟩
    · cases next with
      | none => trivial
      | some t => exact ⟨trivial, fun _ => ⟨trivial, fun _ => trivial⟩⟩
    · cases next with
      | none => trivial
      | some t => exact fun _ _ => trivial
  obtain ⟨hlanes, hact⟩ := clerical_run h huses.1 hs
  refine bounded_quiet hact (fun _ _ => ⟨?_, ?_⟩) fun _ => clerical_ends h huses.1 huses.2
  · intro x hx
    cases hx
  · intro j _
    rw [hlanes]

theorem runBoundedPool_bounded (hd : cfg.deferred = false) {items : List (ShardId × Nat × Option SequenceNumber)}
    (hids : (items.map Prod.fst).Nodup) (hk : 1 ≤ k) {t : Nat} (hdue : AllDue s.mem.sched items t) (hs : s.active = [])
    {q : Fx Unit} (h : Runs (laneHandler P store) Alone w (runBoundedPool (contractFleet cfg) items k t) s q u) :
    Bounded P store w cfg s.lanes (items.map (dueItem t)) k q u := by
  rw [runBoundedPool_eq] at h
  have hshards : ((items.map (dueItem t)).map PoolItem.shard) = items.map Prod.fst := by
    rw [List.map_map]
    rfl
  refine bounded_bind h ⟨trivial, fun _ => trivial⟩ (straight_req _) ⟨rfl, hs⟩ ?_ ?_
  · intro due _ e
    split at e <;> cases e
  · intro due v q u h₁ hv hrest
    have hdue' : due = items.map (dueItem t) := by
      rw [(run_accessMem h₁).1]
      exact refreshSched_due hdue
    subst hdue'
    split at hrest
    · rename_i hempty
      rw [List.isEmpty_iff.mp hempty]
      exact awaitDue_bounded hv hrest
    · exact runQueue_bounded hd (hshards ▸ hids) hk hv hrest

end

/-- With a checkpoint for each batch, a cycle of the pool never runs more than `k` passes or two of one shard, gives every
due shard one pass, and leaves rows, deliveries and callbacks as the unbounded path does. If the unbounded path can come
to its end, so can the pool from wherever it is. -/
theorem bounded_pool_equals_unbounded {P : ShardId → Partner} {store : ShardId → RowStore} {w : Worker} {cfg : FleetConfig}
    (hd : cfg.deferred = false) {items : List (ShardId × Nat × Option SequenceNumber)}
    (hids : (items.map Prod.fst).Nodup) {k : Nat} (hk : 1 ≤ k) {t : Nat} {s : Yard} (hdue : AllDue s.mem.sched items t)
    (hs : s.active = []) :
    (∀ q u, Runs (laneHandler P store) Alone w (runBoundedPool (contractFleet cfg) items k t) s q u →
      u.active.Nodup ∧ u.active.length ≤ k ∧
      ((∃ s' u' b, s'.lanes = s.lanes ∧
        Runs (laneHandler P store) Alone w (Prog.join (items.map (runPass (contractFleet cfg)))) s' (.ret b) u') →
        ∃ v, Runs (laneHandler P store) Alone w q u (.ret ()) v)) ∧
    ∀ u, Runs (laneHandler P store) Alone w (runBoundedPool (contractFleet cfg) items k t) s (.ret ()) u →
      (∀ x ∈ items, passes (u.lanes x.1).calls = passes (s.lanes x.1).calls + 1) ∧
      (∀ j, j ∉ items.map Prod.fst → u.lanes j = s.lanes j) ∧
      ∀ s' u' b, s'.lanes = s.lanes →
        Runs (laneHandler P store) Alone w (Prog.join (items.map (runPass (contractFleet cfg)))) s' (.ret b) u' →
        u'.lanes = u.lanes := by
  have hshards : ((items.map (dueItem t)).map PoolItem.shard) = items.map Prod.fst := by
    rw [List.map_map]
    rfl
  have hpasses : items.map (runPass (contractFleet cfg)) = (items.map (dueItem t)).map (itemPass (contractFleet cfg)) := by
    rw [List.map_map]
    rfl
  rw [hpasses]
  refine ⟨?_, ?_⟩
  · intro q u h
    have hb := runBoundedPool_bounded hd hids hk hdue hs h
    refine ⟨hb.apart, hb.capped, ?_⟩
    rintro ⟨s', u', b, hlanes, h'⟩
    obtain ⟨harrived, _⟩ := unbounded_lanes hd (hshards ▸ hids) hlanes h'
    obtain ⟨_, v, hv⟩ := hb.ends fun x hx => by
      obtain ⟨o, ho⟩ := harrived x hx
      exact ⟨o, _, ho⟩
    exact ⟨v, hv⟩
  · intro u h
    obtain ⟨hdone, _⟩ := (runBoundedPool_bounded hd hids hk hdue hs h).complete () rfl
    refine ⟨?_, ?_, ?_⟩
    · intro x hx
      obtain ⟨o, ho⟩ := hdone.arrived (dueItem t x) (List.mem_map_of_mem hx)
      exact ho.passes_eq hd
    · intro j hj
      exact hdone.others j (hshards ▸ hj)
    · intro s' u' b hlanes h'
      obtain ⟨harrived, hothers⟩ := unbounded_lanes hd (hshards ▸ hids) hlanes h'
      funext j
      by_cases hj : j ∈ (items.map (dueItem t)).map PoolItem.shard
      · obtain ⟨x, hx, rfl⟩ := List.mem_map.mp hj
        obtain ⟨o, ho⟩ := hdone.arrived x hx
        obtain ⟨o', ho'⟩ := harrived x hx
        exact (result_unique ho' ho).2
      · rw [hothers j hj, hdone.others j hj]

/-! ## Two shards with one pool worker -/

def perBatch : FleetConfig := ⟨"a", 10, 30000, 1000, .trimHorizon, some 1, none⟩

def rowOf (k : ShardId) : Lease := ⟨k, some "a", 1, false, none, []⟩

def openYard : Yard := ⟨fun k => ⟨some (rowOf k), [], []⟩, Memory.init perBatch, []⟩

def oneRecord (k : ShardId) : Partner where
  read _ after := .ok ⟨if after = none then [⟨k, "1", []⟩] else [], false, none⟩
  deliver _ _ := .ok (some "1")
  ended _ := .ok ()
  lost _ := .ok ()

def twoItems : List (ShardId × Nat × Option SequenceNumber) := [("r", 1, none), ("s", 1, none)]

def oneByOne : Fx Unit × Yard :=
  follow (laneHandler oneRecord tableStore) "a" (fun _ _ => 7) (List.replicate 40 [[0], []]).flatten
    (runBoundedPool (contractFleet perBatch) twoItems 1 7) openYard

def bothAtOnce : Fx (List PassOutcome) × Yard :=
  follow (laneHandler oneRecord tableStore) "a" (fun _ _ => 7) (List.replicate 30 [[0], [1], []]).flatten
    (Prog.join (twoItems.map (runPass (contractFleet perBatch)))) openYard

theorem bounded_pool_equals_unbounded_two : oneByOne.1 = .ret () ∧ passes (oneByOne.2.lanes "s").calls = 1 ∧
    bothAtOnce.2.lanes = oneByOne.2.lanes := by
  have hend : oneByOne.1 = .ret () := rfl
  have hone : Runs (laneHandler oneRecord tableStore) Alone "a" (runBoundedPool (contractFleet perBatch) twoItems 1 7)
      openYard oneByOne.1 oneByOne.2 := runs_follow
  have hboth : Runs (laneHandler oneRecord tableStore) Alone "a" (Prog.join (twoItems.map (runPass (contractFleet perBatch))))
      openYard bothAtOnce.1 bothAtOnce.2 := runs_follow
  have hdue : AllDue openYard.mem.sched twoItems 7 := fun _ _ _ h => by cases h
  rw [hend] at hone
  obtain ⟨hpasses, _, hsame⟩ := (bounded_pool_equals_unbounded rfl (by decide) le_rfl hdue rfl).2 _ hone
  exact ⟨hend, hpasses ("s", 1, none) (by decide), hsame openYard _ _ rfl hboth⟩

end StreamsConsumer
