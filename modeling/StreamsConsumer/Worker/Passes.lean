import StreamsConsumer.Conc.Joint
import StreamsConsumer.Worker.BoundedPool
import StreamsConsumer.Worker.Routine

/-!
# The passes of one cycle

All passes of a cycle at once, without a bound and in the bounded pool. At most
one of them is a pass over the shard, and what the others do is interference to
it. In the bounded pool the shard waits in the queue until one of the pool
workers takes it.
-/

namespace StreamsConsumer
open Conc

/-! ## What is eligible, and what is due -/

theorem sublist_filterMap {α β : Type} {f : α → Option β} {g : α → ShardId} {g' : β → ShardId}
    (h : ∀ a b, f a = some b → g' b = g a) : ∀ l : List α, ((l.filterMap f).map g').Sublist (l.map g)
  | [] => List.Sublist.refl _
  | a :: l => by
    rw [List.filterMap_cons, List.map_cons]
    cases hf : f a with
    | none => exact (sublist_filterMap h l).cons _
    | some b =>
      simp only [List.map_cons, h a b hf]
      exact (sublist_filterMap h l).cons_cons _

theorem nodup_eligibleOwned {rows : List Lease} {w : Worker} (h : (rows.map Lease.leaseKey).Nodup) :
    ((eligibleOwned rows w).map Prod.fst).Nodup := by
  have hids : ((shardMetasFromLeases rows).map ShardMeta.id).Sublist (rows.map Lease.leaseKey) := by
    unfold shardMetasFromLeases
    rw [List.map_map]
    exact List.filter_sublist.map _
  refine (h.sublist hids).sublist (sublist_filterMap ?_ _)
  intro m it hit
  obtain ⟨r, _, hr⟩ := Option.bind_eq_some_iff.mp hit
  split at hr <;> cases hr
  rfl

theorem foldl_sublist {α β γ : Type} {g : α → β} {step : List β × γ → α → List β × γ}
    (h : ∀ acc x, (step acc x).1 = acc.1 ∨ (step acc x).1 = acc.1 ++ [g x]) : ∀ (items : List α) (acc : List β × γ),
    ∃ l : List α, l.Sublist items ∧ (items.foldl step acc).1 = acc.1 ++ l.map g
  | [], acc => ⟨[], List.Sublist.refl _, by simp⟩
  | x :: items, acc => by
    obtain ⟨l, hl, e⟩ := foldl_sublist h items (step acc x)
    rw [List.foldl_cons, e]
    rcases h acc x with hx | hx
    · exact ⟨l, hl.cons x, by rw [hx]⟩
    · exact ⟨x :: l, hl.cons_cons x, by rw [hx]; simp⟩

theorem refreshSched_sublist (sched : List (ShardId × ShardSched)) (items : List (ShardId × Nat × Option SequenceNumber))
    (t : Nat) : ∃ l : List (ShardId × Nat × Option SequenceNumber),
      l.Sublist items ∧ (refreshSched sched items t).1 = l.map (dueItem t) := by
  unfold refreshSched
  refine foldl_sublist ?_ items ([], _)
  intro acc x
  simp only
  split
  · split
    · exact Or.inr rfl
    · exact Or.inl rfl
  · exact Or.inr rfl

theorem eligibleOwned_allComplete {rows : List Lease} {w : Worker} (h : allComplete rows = true) :
    eligibleOwned rows w = [] := by
  simp only [allComplete, Bool.and_eq_true, List.all_eq_true] at h
  refine List.filterMap_eq_nil_iff.mpr ?_
  intro m hm
  have hdone : m.id ∈ completedKeys rows := by simpa using h.2 m hm
  cases lookupRow (ownedRows rows w) m.id <;> simp [eligible, hdone]

theorem find?_of_nodup {items : List (ShardId × Nat × Option SequenceNumber)} (h : (items.map Prod.fst).Nodup)
    {it : ShardId × Nat × Option SequenceNumber} (hit : it ∈ items) : items.find? (fun x => x.1 = it.1) = some it := by
  cases hx : items.find? fun x => x.1 = it.1 with
  | none => simpa using List.find?_eq_none.mp hx it hit
  | some x =>
    have hkey : x.1 = it.1 := by simpa using List.find?_some hx
    rw [List.inj_on_of_nodup_map h (List.mem_of_find?_eq_some hx) hit hkey]

/-! ## One shard among others -/

def KeepsQueue : Req → Prop
  | .mem f => ∀ m, (f m).2.pool = m.pool
  | _ => True

theorem serving_keepsQueue (shard : ShardId) : Serving KeepsQueue shard where
  now := trivial
  sleep _ := trivial
  metric _ := trivial
  createConsumer := trivial
  deliver _ := trivial
  shardEnded := trivial
  leaseLost := trivial
  checkpoint _ _ _ := trivial
  markComplete _ _ := trivial
  release _ _ := trivial
  defer x f _ := by
    refine asks_req ?_
    intro m
    cases hd : m.ckptDefer <;> simp [hd]

def popItem : Req := .mem fun m => (m.pool.head?, { m with pool := m.pool.tail })

/-- `D` is what a pass over the shard has to keep, whatever goes on beside it. Other processes do what is in `I`, and the
other passes of the worker are interference too. -/
structure Company {σ : Type} (H : Handler Req Resp Worker Choice σ) (w : Worker) (k : ShardId) (D : Duty Req σ)
    (I : σ → σ → Prop) (queue : σ → List PoolItem) : Prop where
  refl : ∀ s, D.others s s
  trans : ∀ a b c, D.others a b → D.others b c → D.others a c
  keeps : D.Stable D.keeps
  others : ∀ {s t}, I s t → D.others s t ∧ queue t = queue s
  asks : ∀ {r s}, Sibling k r → D.asks r s
  sibling : ∀ {r c s t} {a : Resp r}, Sibling k r → D.known s → H.exec w r c s = some (a, t) → D.others s t
  stays : ∀ {r c s t} {a : Resp r}, KeepsQueue r → H.exec w r c s = some (a, t) → queue t = queue s
  asksPop : ∀ s, D.asks popItem s
  pop : ∀ {c s t} {a : Option PoolItem}, H.exec w popItem c s = some (a, t) →
    a = (queue s).head? ∧ queue t = (queue s).tail ∧ D.others s t

theorem Sibling.keepsQueue {k : ShardId} {r : Req} (h : Sibling k r) : KeepsQueue r := by
  cases r with
  | mem f => exact fun m => (h m).2
  | _ => trivial

namespace Company

variable {σ : Type} {H : Handler Req Resp Worker Choice σ} {w : Worker} {k : ShardId} {D : Duty Req σ} {I : σ → σ → Prop}
  {queue : σ → List PoolItem} (hC : Company H w k D I queue) {L : σ → Prop} (hL : D.Stable L)
  (hkeeps : ∀ s, L s → D.keeps s) {F : Fleet} (hF : F.leases = dynamoDbLeaseStore) (hsrc : F.source = contractSource)
  {s t : σ}
include hC hL

theorem stable_passing {α : Type} (p : Fx α) : D.Stable fun s => D.keeps s ∧ joint H w D p (fun _ => L) s := by
  intro s t hs hi ht h
  exact ⟨hC.keeps s t hs hi ht h.1, joint_stable hC.trans p (fun _ => hL) s t hs hi ht h.2⟩

include hkeeps

theorem joint_sibling {α : Type} {p : Fx α} (hp : Asks (Sibling k) p) (h : L s) :
    joint H w D p (fun _ => L) s := by
  refine joint_of_asks hL hkeeps ?_ p hp h
  intro r hr s hs hl
  refine ⟨hC.asks hr, ?_⟩
  intro c a t he ht
  exact hL s t hs (hC.sibling hr hs he) ht hl

/-! ### Without a bound -/

theorem baton_passes {α : Type} : Baton H w { D with others := I } (Asks (Sibling k))
    (fun (p : Fx α) s => D.keeps s ∧ joint H w D p (fun _ => L) s) L where
  rest_stable s t hs hi ht h := hL s t hs (hC.others hi).1 ht h
  holds_stable p s t hs hi ht h := hC.stable_passing hL p s t hs (hC.others hi).1 ht h
  free_call p π x s hs hp hl hf := by
    obtain ⟨hr, hx⟩ := asks_focus hp hf
    refine ⟨hC.asks hr, ?_⟩
    intro c a t he ht
    have hl' := hL s t hs (hC.sibling hr hs he) ht hl
    exact ⟨hkeeps t hl', Or.inl ⟨hl', hx a⟩⟩
  free_beside p π x s p' hs hp h hf := by
    obtain ⟨hr, hx⟩ := asks_focus hp hf
    refine ⟨hC.asks hr, ?_⟩
    intro c a t he ht
    have h' := hC.stable_passing hL p' s t hs (hC.sibling hr hs he) ht h
    exact ⟨h'.1, hx a, h'⟩
  free_silent p π p' hp hsil := asks_silent hp hsil
  holds_call p π x s hs h hf := by
    obtain ⟨ha, hstep⟩ := joint_focus (D := D) hC.refl p hs h.2 hf
    refine ⟨ha, ?_⟩
    intro c a t he ht
    obtain ⟨hl, hx⟩ := hstep c a t he ht
    exact ⟨hl, hl, hx⟩
  holds_silent p π p' s hs h hsil := Or.inr ⟨h.1, joint_silent (D := D) p hs h.2 hsil⟩

include hF hsrc

theorem joint_passes {items : List (ShardId × Nat × Option SequenceNumber)} (hnodup : (items.map Prod.fst).Nodup)
    (hs : D.keeps s) (hpass : ∀ it ∈ items, it.1 = k → joint H w D (runPass F it) (fun _ => L) s)
    (hnone : (∀ it ∈ items, it.1 ≠ k) → L s) :
    joint H w { D with others := I } (Prog.join (items.map (runPass F))) (fun _ => L) s := by
  refine joint_join (hC.baton_passes hL hkeeps) ?_ (fun _ h => h) (fun _ _ h => h.2)
  by_cases hk : ∃ it ∈ items, it.1 = k
  · obtain ⟨it, hmem, rfl⟩ := hk
    obtain ⟨n, hn, rfl⟩ := List.getElem_of_mem hmem
    refine Or.inr ⟨⟨n, by simpa using hn⟩, ?_, ?_⟩
    · simp only [List.get_eq_getElem, List.getElem_map]
      exact ⟨hs, hpass _ hmem rfl⟩
    · intro j hj
      simp only [List.get_eq_getElem, List.getElem_map]
      refine sibling_runPass hF hsrc ?_
      intro e
      -- no other item is about the shard
      have hlen : j.1 < (items.map Prod.fst).length := by simpa using j.2
      have hlen' : n < (items.map Prod.fst).length := by simpa using hn
      have hids : (items.map Prod.fst)[j.1] = (items.map Prod.fst)[n] := by simpa using e
      exact hj (Fin.ext (hnodup.getElem_inj_iff.mp hids))
  · refine Or.inl ⟨hnone fun it hit e => hk ⟨it, hit, e⟩, ?_⟩
    intro i
    simp only [List.get_eq_getElem, List.getElem_map]
    exact sibling_runPass hF hsrc fun e => hk ⟨_, List.getElem_mem _, e⟩

end Company

/-! ## In the bounded pool -/

/-- A pool worker that has not taken the shard. -/
inductive Spare (F : Fleet) (k : ShardId) : Fx Unit → Prop where
  | done : Spare F k (.ret ())
  | pops : Spare F k (.loop (fun _ => poolBody F) (poolBody F) .ret)
  | sibling {cur : Fx (Unit ⊕ Unit)} (h : Asks (Sibling k) cur) : Spare F k (.loop (fun _ => poolBody F) cur .ret)

theorem Spare.focus {F : Fleet} {k : ShardId} {p : Fx Unit} (h : Spare F k p) {π : List Nat}
    {x : (r : Req) × (Resp r → Fx Unit)} (hf : p.focus π = some x) :
    x = ⟨popItem, fun a => .loop (fun _ => poolBody F) (popped F a) .ret⟩ ∨
      Sibling k x.1 ∧ ∀ a, Spare F k (x.2 a) := by
  cases h with
  | done => simp [Prog.focus] at hf
  | pops =>
    refine Or.inl ?_
    simpa [Prog.focus, poolBody, accessMem, Prog.req, Prog.bind, popItem] using hf.symm
  | sibling hcur =>
    simp only [Prog.focus, Option.map_eq_some_iff] at hf
    obtain ⟨y, hy, rfl⟩ := hf
    obtain ⟨hr, hx⟩ := asks_focus hcur hy
    exact Or.inr ⟨hr, fun a => .sibling (hx a)⟩

theorem Spare.silent {F : Fleet} {k : ShardId} {p p' : Fx Unit} (h : Spare F k p) {π : List Nat}
    (hs : p.silent π = some p') : Spare F k p' := by
  cases h with
  | done => simp [Prog.silent] at hs
  | pops => simp [Prog.silent, poolBody, accessMem, Prog.req, Prog.bind, Prog.ret?] at hs
  | sibling hcur =>
    simp only [Prog.silent] at hs
    split at hs
    · cases hs
      exact .pops
    · cases hs
      exact .done
    · obtain ⟨cur', hcur', rfl⟩ := Option.map_eq_some_iff.mp hs
      exact .sibling (asks_silent hcur hcur')

theorem asks_popped {P : Req → Prop} {F : Fleet} (hnow : P .now) (hmetric : ∀ m, P (.metric m))
    (hrecord : ∀ item o, Asks P (record item o)) {item : Option PoolItem}
    (hpass : ∀ it, item = some it → Asks P (itemPass F it)) : Asks P (popped F item) := by
  cases item with
  | none => trivial
  | some it =>
    refine asks_bind (p := now) (asks_req hnow) ?_
    intro t
    refine asks_bind (p := metric _) (asks_req (hmetric _)) ?_
    intro _
    exact asks_bind (hpass it rfl) (hrecord it)

theorem sibling_record (k : ShardId) (item : PoolItem) (o : PassOutcome) : Asks (Sibling k) (record item o) :=
  asks_bind (asks_req fun _ => ⟨rfl, rfl⟩) fun _ => trivial

theorem sibling_popped {F : Fleet} {k : ShardId} (hF : F.leases = dynamoDbLeaseStore) (hsrc : F.source = contractSource)
    {item : Option PoolItem} (h : ∀ it, item = some it → it.shard ≠ k) : Asks (Sibling k) (popped F item) :=
  asks_popped trivial (fun _ => trivial) (sibling_record k) fun it e => sibling_runPass hF hsrc (h it e)

theorem keepsQueue_popped {F : Fleet} (hF : F.leases = dynamoDbLeaseStore) (hsrc : F.source = contractSource)
    (item : Option PoolItem) : Asks KeepsQueue (popped F item) := by
  refine asks_popped trivial (fun _ => trivial) ?_ ?_
  · exact fun _ _ => asks_bind (asks_req fun _ => rfl) fun _ => trivial
  · intro it _
    refine asks_runPass hF (serving_keepsQueue _) ?_
    intro after
    rw [hsrc]
    exact asks_bind (asks_req trivial) fun _ => trivial

/-- The shard waits at most once. -/
structure Queued {σ : Type} (queue : σ → List PoolItem) (k : ShardId) (L : σ → Prop) (Waits : PoolItem → σ → Prop) (s : σ) :
    Prop where
  holds : L s
  nodup : ((queue s).map PoolItem.shard).Nodup
  waits : ∀ it ∈ queue s, it.shard = k → Waits it s

theorem Queued.beside {σ : Type} {queue : σ → List PoolItem} {k : ShardId} {D : Duty Req σ} {L : σ → Prop}
    {Waits : PoolItem → σ → Prop} (hL : D.Stable L) (hW : ∀ it, D.Stable (Waits it)) {s t : σ}
    (h : Queued queue k L Waits s) (hs : D.known s) (hi : D.others s t) (hq : queue t = queue s) (ht : D.known t) :
    Queued queue k L Waits t :=
  ⟨hL s t hs hi ht h.holds, hq ▸ h.nodup, fun it hit e => hW it s t hs hi ht (h.waits it (hq ▸ hit) e)⟩

/-- What a pool worker is at once it has taken the shard. -/
structure Taking {σ : Type} (H : Handler Req Resp Worker Choice σ) (w : Worker) (k : ShardId) (D : Duty Req σ)
    (queue : σ → List PoolItem) (L : σ → Prop) (cur : Fx (Unit ⊕ Unit)) (s : σ) : Prop where
  keeps : D.keeps s
  does : joint H w D cur (fun _ => L) s
  asks : Asks KeepsQueue cur
  nodup : ((queue s).map PoolItem.shard).Nodup
  gone : k ∉ (queue s).map PoolItem.shard

namespace Company

variable {σ : Type} {H : Handler Req Resp Worker Choice σ} {w : Worker} {k : ShardId} {D : Duty Req σ} {I : σ → σ → Prop}
  {queue : σ → List PoolItem} (hC : Company H w k D I queue) {L : σ → Prop} (hL : D.Stable L)
  {F : Fleet} (hF : F.leases = dynamoDbLeaseStore) (hsrc : F.source = contractSource) {s t : σ}
  {Waits : PoolItem → σ → Prop} {cur : Fx (Unit ⊕ Unit)}
include hC hL

theorem taking_beside (h : Taking H w k D queue L cur s) (hs : D.known s) (hi : D.others s t) (hq : queue t = queue s)
    (ht : D.known t) : Taking H w k D queue L cur t := by
  obtain ⟨hl, hd⟩ := hC.stable_passing hL cur s t hs hi ht ⟨h.keeps, h.does⟩
  exact ⟨hl, hd, h.asks, hq ▸ h.nodup, hq ▸ h.gone⟩

omit hL in
theorem taking_call (hs : D.known s) (h : Taking H w k D queue L cur s) {π : List Nat}
    {x : (r : Req) × (Resp r → Fx (Unit ⊕ Unit))} (hf : cur.focus π = some x) :
    D.asks x.1 s ∧ ∀ c a t, H.exec w x.1 c s = some (a, t) → D.known t → Taking H w k D queue L (x.2 a) t := by
  obtain ⟨hr, hx⟩ := asks_focus h.asks hf
  obtain ⟨ha, hstep⟩ := joint_focus (D := D) hC.refl cur hs h.does hf
  refine ⟨ha, ?_⟩
  intro c a t he ht
  obtain ⟨hl, hd⟩ := hstep c a t he ht
  have hq := hC.stays hr he
  exact ⟨hl, hd, hx a, hq ▸ h.nodup, hq ▸ h.gone⟩

include hF hsrc in
theorem taking_pop (hs : D.known s) (h : Taking H w k D queue L cur s) {c : Choice} {a : Option PoolItem}
    (he : H.exec w popItem c s = some (a, t)) (ht : D.known t) :
    Asks (Sibling k) (popped F a) ∧ Taking H w k D queue L cur t := by
  obtain ⟨rfl, hrest, hi⟩ := hC.pop he
  obtain ⟨hl, hd⟩ := hC.stable_passing hL cur s t hs hi ht ⟨h.keeps, h.does⟩
  refine ⟨sibling_popped hF hsrc ?_, hl, hd, h.asks, ?_, ?_⟩
  · rintro it hit rfl
    exact h.gone (List.mem_map_of_mem (List.mem_of_mem_head? hit))
  · rw [hrest, List.map_tail]
    exact h.nodup.tail
  · rw [hrest, List.map_tail]
    exact fun hmem => h.gone (List.mem_of_mem_tail hmem)

variable (hW : ∀ it, D.Stable (Waits it)) (hkeeps : ∀ s, L s → D.keeps s)
  (hpass : ∀ it s, it.shard = k → D.known s → L s → Waits it s → joint H w D (itemPass F it) (fun _ => L) s)
include hW hkeeps hpass

theorem joint_popped {item : PoolItem} (hk : item.shard = k) (hs : D.known s) (hl : L s) (hw : Waits item s) :
    joint H w D (popped F (some item)) (fun _ => L) s := by
  have hboth : D.Stable fun s => L s ∧ Waits item s :=
    fun s t hs hi ht h => ⟨hL s t hs hi ht h.1, hW item s t hs hi ht h.2⟩
  refine joint_seq hs (hC.joint_sibling hboth (fun s h => hkeeps s h.1) (p := now) (asks_req trivial) ⟨hl, hw⟩) ?_
  intro t s₁ hs₁ h₁
  refine joint_seq hs₁ (hC.joint_sibling hboth (fun s h => hkeeps s h.1) (p := metric _) (asks_req trivial) h₁) ?_
  intro _ s₂ hs₂ h₂
  refine joint_seq hs₂ (hpass item s₂ hk hs₂ h₂.1 h₂.2) ?_
  intro o s₃ _ h₃
  exact hC.joint_sibling hL hkeeps (sibling_record k item o) h₃

include hF hsrc

theorem queued_pop (hs : D.known s) (h : Queued queue k L Waits s) {c : Choice} {a : Option PoolItem}
    (he : H.exec w popItem c s = some (a, t)) (ht : D.known t) :
    D.keeps t ∧ (Queued queue k L Waits t ∧ Asks (Sibling k) (popped F a) ∨ Taking H w k D queue L (popped F a) t) := by
  obtain ⟨rfl, hrest, hi⟩ := hC.pop he
  have hl := hL s t hs hi ht h.holds
  have hnodup : ((queue t).map PoolItem.shard).Nodup := by
    rw [hrest, List.map_tail]
    exact h.nodup.tail
  have hwaits : ∀ it ∈ queue s, it.shard = k → Waits it t := fun it hmem e => hW it s t hs hi ht (h.waits it hmem e)
  refine ⟨hkeeps t hl, ?_⟩
  by_cases hk : ∃ it, (queue s).head? = some it ∧ it.shard = k
  · obtain ⟨it, hit, hkey⟩ := hk
    rw [hit]
    refine Or.inr ⟨hkeeps t hl, ?_, keepsQueue_popped hF hsrc _, hnodup, ?_⟩
    · exact hC.joint_popped hL hW hkeeps hpass hkey ht hl (hwaits it (List.mem_of_mem_head? hit) hkey)
    have hfirst := h.nodup
    rw [List.eq_cons_of_mem_head? hit, List.map_cons, List.nodup_cons, hkey] at hfirst
    rw [hrest]
    exact hfirst.1
  · refine Or.inl ⟨⟨hl, hnodup, ?_⟩, sibling_popped hF hsrc fun it hit e => hk ⟨it, hit, e⟩⟩
    intro it hmem
    rw [hrest] at hmem
    exact hwaits it (List.mem_of_mem_tail hmem)

theorem baton_pool : Baton H w { D with others := I } (Spare F k)
    (fun p s => ∃ cur, p = .loop (fun _ => poolBody F) cur .ret ∧ Taking H w k D queue L cur s)
    (Queued queue k L Waits) where
  rest_stable s t hs hi ht h := h.beside hL hW hs (hC.others hi).1 (hC.others hi).2 ht
  holds_stable p s t hs hi ht h := by
    obtain ⟨cur, rfl, h⟩ := h
    exact ⟨cur, rfl, hC.taking_beside hL h hs (hC.others hi).1 (hC.others hi).2 ht⟩
  free_call p π x s hs hp h hf := by
    rcases hp.focus hf with rfl | ⟨hr, hx⟩
    · refine ⟨hC.asksPop s, ?_⟩
      intro c a t he ht
      obtain ⟨hl, hnext⟩ := hC.queued_pop hL hF hsrc hW hkeeps hpass hs h he ht
      refine ⟨hl, ?_⟩
      rcases hnext with ⟨hq, ha⟩ | htaken
      · exact Or.inl ⟨hq, .sibling ha⟩
      · exact Or.inr ⟨_, rfl, htaken⟩
    · refine ⟨hC.asks hr, ?_⟩
      intro c a t he ht
      have h' := h.beside hL hW hs (hC.sibling hr hs he) (hC.stays hr.keepsQueue he) ht
      exact ⟨hkeeps t h'.holds, Or.inl ⟨h', hx a⟩⟩
  free_beside p π x s p' hs hp h hf := by
    obtain ⟨cur, rfl, h⟩ := h
    rcases hp.focus hf with rfl | ⟨hr, hx⟩
    · refine ⟨hC.asksPop s, ?_⟩
      intro c a t he ht
      obtain ⟨ha, h'⟩ := hC.taking_pop hL hF hsrc hs h he ht
      exact ⟨h'.keeps, .sibling ha, cur, rfl, h'⟩
    · refine ⟨hC.asks hr, ?_⟩
      intro c a t he ht
      have h' := hC.taking_beside hL h hs (hC.sibling hr hs he) (hC.stays hr.keepsQueue he) ht
      exact ⟨h'.keeps, hx a, cur, rfl, h'⟩
  free_silent p π p' hp hsil := hp.silent hsil
  holds_call p π x s hs h hf := by
    obtain ⟨cur, rfl, h⟩ := h
    simp only [Prog.focus, Option.map_eq_some_iff] at hf
    obtain ⟨y, hy, rfl⟩ := hf
    obtain ⟨ha, hstep⟩ := hC.taking_call hs h hy
    refine ⟨ha, ?_⟩
    intro c a t he ht
    exact ⟨(hstep c a t he ht).keeps, y.2 a, rfl, hstep c a t he ht⟩
  holds_silent p π p' s hs h hsil := by
    obtain ⟨cur, rfl, h⟩ := h
    have hback : ∀ x, cur.ret? = some x → Queued queue k L Waits s := by
      intro x hx
      obtain rfl := Prog.eq_ret_of_ret? hx
      exact ⟨h.does, h.nodup, fun it hmem e => absurd (e ▸ List.mem_map_of_mem hmem) h.gone⟩
    simp only [Prog.silent] at hsil
    split at hsil
    · rename_i hx
      cases hsil
      exact Or.inl ⟨hback _ hx, .pops⟩
    · rename_i hx
      cases hsil
      exact Or.inl ⟨hback _ hx, .done⟩
    · obtain ⟨cur', hcur', rfl⟩ := Option.map_eq_some_iff.mp hsil
      refine Or.inr ⟨cur', rfl, h.keeps, joint_silent (D := D) cur hs h.does hcur', ?_, h.nodup, h.gone⟩
      exact asks_silent h.asks hcur'

theorem joint_pool {n : Nat} (h : Queued queue k L Waits s) :
    joint H w { D with others := I } (Prog.join (List.replicate n (poolWorker F))) (fun _ => L) s := by
  refine joint_join (hC.baton_pool hL hF hsrc hW hkeeps hpass) (Or.inl ⟨h, ?_⟩) (fun _ h => h.holds) ?_
  · intro i
    rw [List.get_eq_getElem, List.getElem_replicate]
    exact .pops
  · intro b s' hx
    obtain ⟨cur, hcur, _⟩ := hx
    cases hcur

end Company

end StreamsConsumer
