import StreamsConsumer.Graph.Tour
import StreamsConsumer.Worker.Discovery
import StreamsConsumer.Worker.PassUses

/-!
# What the cleanup leaves behind

`cleanup_completed_leases` deletes completed rows on the word of an earlier
scan. A shard waits for a parent only while the parent has a row that is not
completed, so taking completed rows away lets no shard run earlier or later;
and a shard without children keeps its row, so the verdict that all shards are
complete stays what it was.
-/

namespace StreamsConsumer
open Conc

def shardRows (rows : List Lease) : List Lease := rows.filter fun r => isShardKey r.leaseKey

/-- `eligible` on the sets that step 2 computes from a scan. -/
def eligibleIn (rows : List Lease) (m : ShardMeta) : Bool :=
  eligible m (completedKeys (shardRows rows)) ((shardMetasFromLeases (shardRows rows)).map ShardMeta.id)

/-- `p` is a parent of `c` in the table. -/
def ParentIn (rows : List Lease) (p c : ShardId) : Prop := ∃ m ∈ shardMetasFromLeases rows, m.id = c ∧ p ∈ m.parents

/-! ## The deletions -/

/-- From `s` to `t` completed rows with these keys were removed and nothing else changed. -/
def OnlyCollected (keys : List ShardId) (s t : World) : Prop :=
  ∀ k, t.table k = s.table k ∨ t.table k = none ∧ k ∈ keys ∧ ∃ r, s.table k = some r ∧ r.completed = true

section
variable {keys : List ShardId} {s t u : World}

theorem OnlyCollected.refl (keys : List ShardId) (s : World) : OnlyCollected keys s s := fun _ => Or.inl rfl

theorem OnlyCollected.trans (h₁ : OnlyCollected keys s t) (h₂ : OnlyCollected keys t u) : OnlyCollected keys s u := by
  intro k
  rcases h₁ k with h₁ | ⟨h₁, hk, hr⟩
  · rcases h₂ k with h₂ | ⟨h₂, hk, hr⟩
    · exact Or.inl (h₂.trans h₁)
    · rw [h₁] at hr
      exact Or.inr ⟨h₂, hk, hr⟩
  · rcases h₂ k with h₂ | ⟨h₂, _, _⟩
    · exact Or.inr ⟨h₂.trans h₁, hk, hr⟩
    · exact Or.inr ⟨h₂, hk, hr⟩

theorem onlyCollected_delete {w : Worker} {k : ShardId} {c : Choice} {a : Except AwsError Nat} (hk : k ∈ keys)
    (h : execDb w k .deleteLease c s = some (a, t)) : OnlyCollected keys s t := by
  rcases execDb_cases h with ⟨rfl, _⟩ | ⟨row, ha, rfl⟩
  · exact .refl _ _
  intro j
  by_cases hj : j = k
  · subst hj
    rw [World.write_table_self]
    cases hr : s.table j with
    | none =>
      rw [hr] at ha
      cases ha
    | some r =>
      rw [hr] at ha
      simp only [DbOp.apply, Option.ite_none_right_eq_some, Option.some.injEq] at ha
      exact Or.inr ⟨ha.2.symm, hk, r, rfl, ha.1⟩
  · rw [World.write_table_of_ne s hj]
    exact Or.inl rfl

/-- The deletions a scan gives rise to. -/
def collectable (rows : List Lease) : List ShardId := leasesSafeToDelete (shardMetasFromLeases rows) (cleanupState rows)

theorem onlyCollected_cleanup {K : Contract} {w : Worker} {F : Fleet} (hF : F.leases = dynamoDbLeaseStore)
    {rows : List Lease} {log : List ((r : Req) × Resp r)}
    (h : Trail (handler K) Alone w (cleanupCompletedLeases F rows) s log (.ret ()) t) :
    OnlyCollected (collectable rows) s t := by
  have huses : Uses (fun r => ∃ k ∈ collectable rows, r = .db k .deleteLease) (cleanupCompletedLeases F rows) := by
    refine uses_each ?_
    intro k hk
    rw [hF]
    refine uses_bind (uses_bind (uses_conditionalWrite ⟨k, hk, rfl⟩) ?_) ?_
    · intro _
      trivial
    · intro _
      trivial
  refine h.moves.rel (OnlyCollected.refl _) OnlyCollected.trans ?_ ?_
  · intro s s' hi
    exact hi.elim
  · intro e he c s s' hexec
    obtain ⟨k, hk, hreq⟩ := h.uses huses e he
    obtain ⟨r, a⟩ := e
    cases hreq
    exact onlyCollected_delete hk hexec

end

/-! ## What a scan says of the table -/

section
variable {s t : World} {rows before after : List Lease} {keys : List ShardId}

theorem mem_completed_iff (h : Scan s rows) {k : ShardId} :
    k ∈ completedKeys (shardRows rows) ↔ isShardKey k = true ∧ ∃ r, s.table k = some r ∧ r.completed = true := by
  rw [mem_completedKeys]
  unfold shardRows
  constructor
  · rintro ⟨r, hr, hc, rfl⟩
    obtain ⟨hr, hk⟩ := List.mem_filter.mp hr
    exact ⟨hk, r, (h _ _).mpr ⟨hr, rfl⟩, hc⟩
  · rintro ⟨hk, r, hr, hc⟩
    obtain ⟨hmem, rfl⟩ := (h _ _).mp hr
    exact ⟨r, List.mem_filter.mpr ⟨hmem, hk⟩, hc, rfl⟩

theorem mem_metas_iff (h : Scan s rows) {m : ShardMeta} : m ∈ shardMetasFromLeases (shardRows rows) ↔
    isShardKey m.id = true ∧ ∃ r, s.table m.id = some r ∧ r.parents = m.parents := by
  unfold shardMetasFromLeases shardRows
  simp only [List.filter_filter, Bool.and_self, List.mem_map, List.mem_filter]
  constructor
  · rintro ⟨r, ⟨hr, hk⟩, rfl⟩
    exact ⟨hk, r, (h _ _).mpr ⟨hr, rfl⟩, rfl⟩
  · rintro ⟨hk, r, hr, hp⟩
    obtain ⟨hr, hid⟩ := (h _ _).mp hr
    refine ⟨r, ⟨hr, hid ▸ hk⟩, ?_⟩
    rw [hid, hp]

theorem mem_existing_iff (h : Scan s rows) {k : ShardId} :
    k ∈ (shardMetasFromLeases (shardRows rows)).map ShardMeta.id ↔ isShardKey k = true ∧ ∃ r, s.table k = some r := by
  rw [List.mem_map]
  constructor
  · rintro ⟨m, hm, rfl⟩
    obtain ⟨hk, r, hr, _⟩ := (mem_metas_iff h).mp hm
    exact ⟨hk, r, hr⟩
  · rintro ⟨hk, r, hr⟩
    exact ⟨⟨k, r.parents⟩, (mem_metas_iff h).mpr ⟨hk, r, hr, rfl⟩, rfl⟩

theorem eligibleIn_iff (h : Scan s rows) {m : ShardMeta} (hm : m ∈ shardMetasFromLeases (shardRows rows)) :
    eligibleIn rows m = true ↔ (∀ r, s.table m.id = some r → r.completed = false) ∧
      ∀ p ∈ m.parents, isShardKey p = true → ∀ r, s.table p = some r → r.completed = true := by
  obtain ⟨hid, r₀, hr₀, _⟩ := (mem_metas_iff h).mp hm
  unfold eligibleIn eligible
  simp only [Bool.and_eq_true, Bool.not_eq_true', List.all_eq_true, Bool.or_eq_true, List.contains_eq_mem,
    decide_eq_true_eq, decide_eq_false_iff_not, mem_completed_iff h, mem_existing_iff h]
  constructor
  · rintro ⟨hown, hparents⟩
    refine ⟨?_, ?_⟩
    · intro r hr
      by_contra hc
      exact hown ⟨hid, r, hr, by simpa using hc⟩
    · intro p hp hk r hr
      rcases hparents p hp with ⟨_, r', hr', hc⟩ | hnone
      · rw [hr] at hr'
        cases hr'
        exact hc
      · exact absurd ⟨hk, r, hr⟩ hnone
  · rintro ⟨hown, hparents⟩
    refine ⟨?_, ?_⟩
    · rintro ⟨_, r, hr, hc⟩
      rw [hown r hr] at hc
      cases hc
    · intro p hp
      by_cases hrow : isShardKey p = true ∧ ∃ r, s.table p = some r
      · obtain ⟨hk, r, hr⟩ := hrow
        exact Or.inl ⟨hk, r, hr, hparents p hp hk r hr⟩
      · exact Or.inr hrow

theorem allComplete_iff (h : Scan s rows) : allComplete (shardRows rows) = true ↔
    (∃ k r, isShardKey k = true ∧ s.table k = some r) ∧
      ∀ k r, isShardKey k = true → s.table k = some r → r.completed = true := by
  unfold allComplete
  simp only [Bool.and_eq_true, Bool.not_eq_true', List.all_eq_true, List.contains_eq_mem, decide_eq_true_eq,
    mem_completed_iff h]
  constructor
  · rintro ⟨hne, hall⟩
    have hall' : ∀ k r, isShardKey k = true → s.table k = some r → r.completed = true := by
      intro k r hk hr
      obtain ⟨_, r', hr', hc⟩ := hall ⟨k, r.parents⟩ ((mem_metas_iff h).mpr ⟨hk, r, hr, rfl⟩)
      rw [hr] at hr'
      cases hr'
      exact hc
    refine ⟨?_, hall'⟩
    obtain ⟨m, hm⟩ := List.exists_mem_of_ne_nil _ (List.isEmpty_eq_false_iff.mp hne)
    obtain ⟨hk, r, hr, _⟩ := (mem_metas_iff h).mp hm
    exact ⟨m.id, r, hk, hr⟩
  · rintro ⟨⟨k, r, hk, hr⟩, hall⟩
    refine ⟨?_, ?_⟩
    · rw [List.isEmpty_eq_false_iff]
      have hm : ⟨k, r.parents⟩ ∈ shardMetasFromLeases (shardRows rows) := (mem_metas_iff h).mpr ⟨hk, r, hr, rfl⟩
      exact List.ne_nil_of_mem hm
    · intro m hm
      obtain ⟨hk, r, hr, _⟩ := (mem_metas_iff h).mp hm
      exact ⟨hk, r, hr, hall m.id r hk hr⟩


/-! ## Before and after -/

theorem OnlyCollected.kept (h : OnlyCollected keys s t) {k : ShardId} {r : Lease} (hr : s.table k = some r)
    (hc : r.completed = false) : t.table k = some r := by
  rcases h k with hk | ⟨_, _, r', hr', hc'⟩
  · rw [hk, hr]
  · rw [hr] at hr'
    cases hr'
    rw [hc] at hc'
    cases hc'

theorem OnlyCollected.row (h : OnlyCollected keys s t) {k : ShardId} {r : Lease} (hr : t.table k = some r) :
    s.table k = some r := by
  rcases h k with hk | ⟨hnone, _⟩
  · rw [← hk, hr]
  · rw [hr] at hnone
    cases hnone

theorem eligibleIn_collected (h : OnlyCollected keys s t) (hb : Scan s before) (ha : Scan t after) {m : ShardMeta}
    (hm : m ∈ shardMetasFromLeases (shardRows after)) : eligibleIn before m = eligibleIn after m := by
  obtain ⟨hid, r, hr, hp⟩ := (mem_metas_iff ha).mp hm
  have hm' : m ∈ shardMetasFromLeases (shardRows before) := (mem_metas_iff hb).mpr ⟨hid, r, h.row hr, hp⟩
  rw [Bool.eq_iff_iff, eligibleIn_iff hb hm', eligibleIn_iff ha hm, hr, h.row hr]
  -- a parent whose row went was completed, and one without a row holds nothing back
  have hparent : ∀ p, (∀ r, s.table p = some r → r.completed = true) ↔ ∀ r, t.table p = some r → r.completed = true := by
    intro p
    constructor
    · intro hall r hr
      exact hall r (h.row hr)
    · intro hall r hr
      by_contra hc
      exact hc (hall r (h.kept hr (by simpa using hc)))
  simp only [hparent]

theorem exists_child_of_collectable {k : ShardId} (hk : k ∈ collectable rows) : ∃ c, ParentIn rows k c := by
  unfold collectable leasesSafeToDelete at hk
  rw [List.mem_insertionSort] at hk
  simp only [List.mem_map, List.mem_filter, Bool.and_eq_true, Bool.not_eq_true'] at hk
  obtain ⟨m, ⟨_, hne, _⟩, rfl⟩ := hk
  obtain ⟨c, hc⟩ := List.exists_mem_of_ne_nil _ (List.isEmpty_eq_false_iff.mp hne)
  unfold childrenOf at hc
  simp only [List.mem_flatMap, List.mem_map, List.mem_filter, decide_eq_true_eq] at hc
  obtain ⟨child, hchild, p, ⟨hp, rfl⟩, rfl⟩ := hc
  exact ⟨child.id, child, hchild, rfl, hp⟩

theorem exists_kept_shard (hb : Scan s rows) (hac : ∀ k, ¬ Relation.TransGen (ParentIn rows) k k)
    (h : OnlyCollected (collectable rows) s t) (hne : ∃ k r, isShardKey k = true ∧ s.table k = some r) :
    ∃ k r, isShardKey k = true ∧ s.table k = some r ∧ t.table k = some r := by
  have hgraph : Graph.Acyclic ((shardMetasFromLeases (shardRows rows)).map ShardMeta.id) (Function.swap (ParentIn rows)) := by
    refine ⟨?_, ?_⟩
    · rintro c p _ ⟨m, hm, rfl, _⟩
      obtain ⟨r, hr, hk, hid, _⟩ := mem_shardMetas hm
      exact (mem_existing_iff hb).mpr ⟨hid ▸ hk, r, (hb _ _).mpr ⟨hr, hid⟩⟩
    · intro k hk
      rw [Relation.transGen_swap] at hk
      exact hac k hk
  obtain ⟨k₀, r₀, hk₀, hr₀⟩ := hne
  have hsome : ∃ k ∈ (shardMetasFromLeases (shardRows rows)).map ShardMeta.id, True :=
    ⟨k₀, (mem_existing_iff hb).mpr ⟨hk₀, r₀, hr₀⟩, trivial⟩
  obtain ⟨k, hk, _, hleaf⟩ := hgraph.exists_ready hsome
  obtain ⟨hshard, r, hr⟩ := (mem_existing_iff hb).mp hk
  refine ⟨k, r, hshard, hr, ?_⟩
  rcases h k with hsame | ⟨_, hmem, _⟩
  · rw [hsame, hr]
  · obtain ⟨c, hc⟩ := exists_child_of_collectable hmem
    exact absurd trivial (hleaf c hc)

theorem allComplete_collected (hb : Scan s rows) (ha : Scan t after)
    (hac : ∀ k, ¬ Relation.TransGen (ParentIn rows) k k) (h : OnlyCollected (collectable rows) s t) :
    allComplete (shardRows rows) = allComplete (shardRows after) := by
  rw [Bool.eq_iff_iff, allComplete_iff hb, allComplete_iff ha]
  constructor
  · rintro ⟨hne, hall⟩
    obtain ⟨k, r, hk, _, hr⟩ := exists_kept_shard hb hac h hne
    exact ⟨⟨k, r, hk, hr⟩, fun j r hj hr => hall j r hj (h.row hr)⟩
  · rintro ⟨⟨k, r, hk, hr⟩, hall⟩
    refine ⟨⟨k, r, hk, h.row hr⟩, ?_⟩
    intro j r' hj hr'
    by_contra hc
    exact hc (hall j r' hj (h.kept hr' (by simpa using hc)))

end

/-- The cleanup removes no row that is not completed, moves no shard that still has a row in or out of eligibility,
whatever scan it went by, and leaves the verdict on an acyclic table as it was. -/
theorem cleanup_invisible {K : Contract} {w : Worker} {F : Fleet} (hF : F.leases = dynamoDbLeaseStore) {rows : List Lease}
    {s t : World} {log : List ((r : Req) × Resp r)}
    (h : Trail (handler K) Alone w (cleanupCompletedLeases F rows) s log (.ret ()) t) :
    (∀ k r, s.table k = some r → r.completed = false → t.table k = some r) ∧
      (∀ before after, Scan s before → Scan t after → ∀ m ∈ shardMetasFromLeases (shardRows after),
        eligibleIn before m = eligibleIn after m) ∧
      ∀ after, Scan s rows → Scan t after → (∀ k, ¬ Relation.TransGen (ParentIn rows) k k) →
        allComplete (shardRows rows) = allComplete (shardRows after) := by
  have hc := onlyCollected_cleanup hF h
  refine ⟨fun k r hr hn => hc.kept hr hn, ?_, ?_⟩
  · intro before after hb ha m hm
    exact eligibleIn_collected hc hb ha hm
  · intro after hb ha hac
    exact allComplete_collected hb ha hac hc

def handedOver : List Lease := [⟨"p", none, 4, true, some "9", []⟩, ⟨"c", some "a", 2, false, some "10", ["p"]⟩]

def handedOverWorld : World := { plainFleet.init with table := fun k => handedOver.find? fun r => r.leaseKey = k }

theorem scan_handedOver : Scan handedOverWorld handedOver := by
  have hkeys : (handedOver.map Lease.leaseKey).Nodup := by decide
  intro k r
  show handedOver.find? (fun r => r.leaseKey = k) = some r ↔ _
  constructor
  · intro hr
    exact ⟨List.mem_of_find?_eq_some hr, by simpa using List.find?_some hr⟩
  · rintro ⟨hr, rfl⟩
    cases hf : handedOver.find? fun r' => r'.leaseKey = r.leaseKey with
    | none =>
      have hnone := List.find?_eq_none.mp hf r hr
      simp at hnone
    | some r' =>
      have hkey : r'.leaseKey = r.leaseKey := by simpa using List.find?_some hf
      rw [List.inj_on_of_nodup_map hkeys (List.mem_of_find?_eq_some hf) hr hkey]

theorem cleanup_invisible_handedOver : ∃ t log,
    Trail (handler exactContract) Alone "a" (cleanupCompletedLeases (plainFleet.fleet "a") handedOver) handedOverWorld log
      (.ret ()) t ∧ t.table "p" = none ∧ t.table "c" = some ⟨"c", some "a", 2, false, some "10", ["p"]⟩ ∧
    ∀ after, Scan t after → ∀ m ∈ shardMetasFromLeases (shardRows after), eligibleIn handedOver m = eligibleIn after m := by
  have hrun : (script (handler exactContract) "a" (cleanupCompletedLeases (plainFleet.fleet "a") handedOver) [.ok]
      handedOverWorld).map (fun x => x.2.2.table "p") = some none := by decide +kernel
  obtain ⟨⟨log, r, t⟩, hs, he⟩ := Option.map_eq_some_iff.mp hrun
  have h : Trail (handler exactContract) Alone "a" _ _ log (.ret r) t := Trail.of_script hs
  obtain ⟨hkept, hsame, _⟩ := cleanup_invisible rfl h
  exact ⟨t, log, h, he, hkept "c" _ (by decide) rfl, fun after ha => hsame handedOver after scan_handedOver ha⟩

end StreamsConsumer
