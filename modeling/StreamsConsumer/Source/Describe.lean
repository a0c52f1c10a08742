import StreamsConsumer.Dynamo.Listing
import StreamsConsumer.Source.ShardGraph
import StreamsConsumer.Worker.Order
import StreamsConsumer.Worker.Rules

/-!
# Shards in pages

`describe_shards` and `describe_child_shards` of `source-ddbstreams/src/aws.rs`.
They read `DescribeStream` page by page while the stream goes on. What the loop
returns is what the one request of the model answers at the time of one of its
calls, if no shard is trimmed on the way.
-/

namespace StreamsConsumer
open Conc Dynamo

structure SequenceNumberRange where
  endingSequenceNumber : Option String

structure SdkShard where
  shardId : Option ShardId
  parentShardId : Option ShardId
  sequenceNumberRange : Option SequenceNumberRange

structure StreamDescription where
  shards : List SdkShard
  lastEvaluatedShardId : Option ShardId

structure DescribeStreamInput where
  /-- The parent of a `CHILD_SHARDS` filter. -/
  shardFilter : Option ShardId
  exclusiveStartShardId : Option ShardId

/-- What one call of `DescribeStream` would answer, as the stream is at its time. -/
abbrev DescribeCall := DescribeStreamInput → Except AwsError (Option StreamDescription)

namespace DdbStreamsSource

/-- The page loop, over the calls it makes; nothing while the last one leaves more to read. -/
def describePages {α : Type} (push : SdkShard → Option α) (filter : Option ShardId) :
    Option ShardId → List DescribeCall → Option (Except BoxError (List α))
  | _, [] => none
  | start, send :: later =>
    match send ⟨filter, start⟩ with
    | .error e => some (.error (.sdk e))
    | .ok none => some (.ok [])
    | .ok (some desc) =>
      let page := desc.shards.filterMap push
      match desc.lastEvaluatedShardId with
      | some id => (describePages push filter (some id) later).map fun r => r.map (page ++ ·)
      | none => some (.ok page)

def rawShard (s : SdkShard) : Option DdbShard :=
  let shardId := s.shardId.getD ""
  if shardId = "" then none
  else some ⟨shardId, s.parentShardId, s.sequenceNumberRange.bind SequenceNumberRange.endingSequenceNumber⟩

def describeShards (calls : List DescribeCall) : Option (Except BoxError (List ShardMeta)) :=
  (describePages rawShard none none calls).map fun r => r.map fun raw => buildShardGraph [closeOpenParents raw]

def childShard (s : SdkShard) : Option ShardMeta :=
  let shardId := s.shardId.getD ""
  if shardId = "" then none else some ⟨shardId, s.parentShardId.toList⟩

/-- The children keep their parent although it is not among them. -/
def describeChildShards (parent : ShardId) (calls : List DescribeCall) : Option (Except BoxError (List ShardMeta)) :=
  describePages childShard (some parent) none calls

end DdbStreamsSource

/-! ## The service -/

def SdkShard.shardMeta (s : SdkShard) : ShardMeta := ⟨s.shardId.getD "", s.parentShardId.toList⟩

def DdbShard.shardMeta (s : DdbShard) : ShardMeta := ⟨s.shardId, s.parentShardId.toList⟩

def StreamDescription.window (desc : StreamDescription) : Window ShardMeta ShardId :=
  ⟨desc.shards.map SdkShard.shardMeta, desc.lastEvaluatedShardId⟩

def Stream.listing (st : Stream) (filter : Option ShardId) : Snapshot ShardMeta :=
  ⟨st.metas, fun m => st.listed.contains m.id && filter.all fun p => m.parents.contains p⟩

/-- Every answer that is not an error describes a page of the listing. -/
def Stream.Serves (st : Stream) (send : DescribeCall) : Prop :=
  ∀ input r, send input = .ok r → ∃ desc, r = some desc ∧
    IsWindow ShardMeta.id (st.listing input.shardFilter) input.exclusiveStartShardId desc.window

theorem rawShard_view (s : SdkShard) (h : s.shardMeta.id ≠ "") :
    (DdbStreamsSource.rawShard s).map DdbShard.shardMeta = some s.shardMeta := by
  have hid : s.shardId.getD "" ≠ "" := h
  simp only [DdbStreamsSource.rawShard, if_neg hid]
  rfl

theorem childShard_view (s : SdkShard) (h : s.shardMeta.id ≠ "") :
    (DdbStreamsSource.childShard s).map id = some s.shardMeta := by
  have hid : s.shardId.getD "" ≠ "" := h
  simp only [DdbStreamsSource.childShard, if_neg hid]
  rfl

section
variable {α : Type} {push : SdkShard → Option α} {view : α → ShardMeta}

theorem map_filterMap_push (hpush : ∀ s, s.shardMeta.id ≠ "" → (push s).map view = some s.shardMeta)
    {shards : List SdkShard} (h : ∀ m ∈ shards.map SdkShard.shardMeta, m.id ≠ "") :
    (shards.filterMap push).map view = shards.map SdkShard.shardMeta := by
  rw [List.map_filterMap, ← List.filterMap_eq_map]
  refine List.filterMap_congr fun s hs => ?_
  exact hpush s (h _ (List.mem_map_of_mem hs))

theorem listing_of_describePages (hpush : ∀ s, s.shardMeta.id ≠ "" → (push s).map view = some s.shardMeta)
    {filter : Option ShardId} : ∀ {start : Option ShardId} {calls : List (FleetPool × DescribeCall)} {r : Except BoxError (List α)},
    (∀ x ∈ calls, x.1.world.stream.Serves x.2 ∧ ∀ m ∈ x.1.world.stream.metas, m.id ≠ "") →
    DdbStreamsSource.describePages push filter start (calls.map Prod.snd) = some r →
    (calls ≠ [] ∧ ∃ e, r = .error (.sdk e)) ∨ ∃ xs ps, r = .ok xs ∧ xs.map view = covered ps ∧
      ListingPages ShardMeta.id start ps ∧
      ps.map Prod.fst <+: calls.map fun x => x.1.world.stream.listing filter
  | _, [], _, _, h => by cases h
  | start, (p, send) :: calls, r, hcalls, h => by
    obtain ⟨hserve, hids⟩ := hcalls _ List.mem_cons_self
    rw [List.map_cons, DdbStreamsSource.describePages] at h
    cases hsend : send ⟨filter, start⟩ with
    | error e =>
      simp only [hsend, Option.some.injEq] at h
      exact Or.inl ⟨List.cons_ne_nil _ _, e, h.symm⟩
    | ok answer =>
      obtain ⟨desc, rfl, hwindow⟩ := hserve _ _ hsend
      have hpage : (desc.shards.filterMap push).map view = desc.window.items :=
        map_filterMap_push hpush fun m hm => hids m (hwindow.mem m hm)
      simp only [hsend] at h
      cases hlast : desc.lastEvaluatedShardId with
      | none =>
        simp only [hlast, Option.some.injEq] at h
        refine Or.inr ⟨_, [(p.world.stream.listing filter, desc.window)], h.symm, ?_, ⟨hwindow, ?_⟩, ?_⟩
        · simpa [covered] using hpage
        · simp [StreamDescription.window, hlast]
        · simp
      | some id =>
        simp only [hlast, Option.map_eq_some_iff] at h
        obtain ⟨r', hr', rfl⟩ := h
        rcases listing_of_describePages hpush (fun x hx => hcalls x (List.mem_cons_of_mem _ hx)) hr' with
          ⟨-, e, rfl⟩ | ⟨xs, ps, rfl, hxs, hps, hpre⟩
        · exact Or.inl ⟨List.cons_ne_nil _ _, e, rfl⟩
        · refine Or.inr ⟨_, (p.world.stream.listing filter, desc.window) :: ps, rfl, ?_, ⟨hwindow, ?_⟩, ?_⟩
          · rw [List.map_append, hpage, hxs]
            rfl
          · simpa [StreamDescription.window, hlast] using hps
          · simpa using hpre

/-- Every page that asks for more leaves less to read, so the loop ends before it has made more calls than
there are shards. -/
theorem describePages_ends {filter : Option ShardId} : ∀ {start : Option ShardId} {calls : List (FleetPool × DescribeCall)},
    calls ≠ [] → (∀ x ∈ calls, x.1.world.stream.Serves x.2 ∧ (x.1.world.stream.metas.map ShardMeta.id).Nodup ∧
      StartsIn ShardMeta.id start x.1.world.stream.metas ∧
      (behind ShardMeta.id start x.1.world.stream.metas).length < calls.length) →
    (calls.Pairwise fun x y => (x.1.world.stream.listing filter).Grows (y.1.world.stream.listing filter)) →
    (DdbStreamsSource.describePages push filter start (calls.map Prod.snd)).isSome
  | _, [], hne, _, _ => absurd rfl hne
  | start, (p, send) :: calls, _, hcalls, hgrow => by
    obtain ⟨hserve, hn, hs, hlen⟩ := hcalls _ List.mem_cons_self
    rw [List.pairwise_cons] at hgrow
    rw [List.map_cons, DdbStreamsSource.describePages]
    cases hsend : send ⟨filter, start⟩ with
    | error e => simp [hsend]
    | ok answer =>
      obtain ⟨desc, rfl, hwindow⟩ := hserve _ _ hsend
      cases hlast : desc.lastEvaluatedShardId with
      | none => simp [hsend, hlast]
      | some id =>
        have hleft : ∀ {q : FleetPool}, (p.world.stream.listing filter).Grows (q.world.stream.listing filter) →
            (q.world.stream.metas.map ShardMeta.id).Nodup →
            (behind ShardMeta.id (some id) q.world.stream.metas).length <
              (behind ShardMeta.id start q.world.stream.metas).length := by
          intro q hq hnq
          obtain ⟨-, front, hfront, -, hb⟩ := hwindow.next hlast hq hnq hs
          have hpos := List.length_pos_of_ne_nil hfront
          have := congrArg List.length hb
          rw [List.length_append] at this
          change (behind ShardMeta.id start q.world.stream.metas).length =
            front.length + (behind ShardMeta.id (some id) q.world.stream.metas).length at this
          omega
        have hstart := (hwindow.next hlast (.refl _) hn hs).1
        simp only [hsend, hlast, Option.isSome_map]
        refine describePages_ends ?_ ?_ hgrow.2
        · rintro rfl
          have := hleft (.refl _) hn
          simp only [List.length_cons, List.length_nil] at hlen
          omega
        · intro x hx
          obtain ⟨hserve', hn', -, hlen'⟩ := hcalls x (List.mem_cons_of_mem _ hx)
          have := hleft (hgrow.1 x hx) hn'
          refine ⟨hserve', hn', hstart.mono (hgrow.1 x hx).1, ?_⟩
          rw [List.length_cons] at hlen'
          omega

end

/-! ## Against the requests of the model -/

theorem sane_of_reachable {D : Deployment} {K : Contract} {p : FleetPool} (hp : D.Reachable K p) : Sane p.world := by
  refine Pool.Reaches.invariant ?_ (fun _ _ _ h he => h.env he) (fun w _ h => h.setMem w _) hp (Sane.init D)
  intro w r c s a s' hs h
  rcases exec_cases h with rfl | ⟨_, f, -, rfl⟩ | ⟨key, op, row, -, ha, rfl⟩ | ⟨_, _, _, -, rfl⟩ | ⟨_, _, _, rfl⟩ |
    ⟨_, -, rfl⟩
  · exact hs
  · exact hs.setMem w _
  · exact hs.write ha
  · exact hs.record nofun
  · exact hs.record nofun
  · exact hs.record nofun

theorem extends_of_reaches {D : Deployment} {K : Contract} {p q : FleetPool} (h : p.Reaches (D.machine K) q) :
    Extends p.world q.world := by
  refine Pool.Reaches.invariant (I := fun s => Extends p.world s) ?_ ?_ ?_ h (Extends.refl _)
  · intro w r c s a s' hs hx
    refine hs.trans ?_
    rcases exec_cases hx with rfl | ⟨_, f, -, rfl⟩ | ⟨key, op, row, -, ha, rfl⟩ | ⟨_, _, _, -, rfl⟩ | ⟨_, _, _, rfl⟩ |
      ⟨_, -, rfl⟩
    · exact Extends.refl _
    · exact Extends.setMem ..
    · exact Extends.write ..
    · exact Extends.record ..
    · exact Extends.record ..
    · exact Extends.record ..
  · exact fun e s s' hs he => hs.trans (Extends.env he)
  · exact fun w s hs => hs.trans (Extends.setMem ..)

theorem Stream.listing_grows {s t : World} (hs : Sane s) (ht : Sane t) (h : Extends s t)
    (hkeep : ∀ k ∈ s.stream.listed, k ∈ t.stream.listed) (filter : Option ShardId) :
    (s.stream.listing filter).Grows (t.stream.listing filter) := by
  refine ⟨h.metas, fun m hm => ?_⟩
  have hiff : m.id ∈ s.stream.listed ↔ m.id ∈ t.stream.listed := by
    refine ⟨hkeep m.id, fun hin => (hs.trimmed m hm).resolve_right fun htrim => ?_⟩
    exact (ht.gone m.id (h.mem_trace htrim)).2 hin
  simp only [Stream.listing, List.contains_eq_mem, hiff]

theorem parentsOf_eq_filter (s : DdbShard) (present : List ShardId) :
    parentsOf s present = s.shardMeta.parents.filter fun p => decide (p ∈ present) := by
  unfold parentsOf DdbShard.shardMeta
  cases s.parentShardId with
  | none => rfl
  | some p => by_cases hp : p ∈ present <;> simp [hp]

theorem buildShardGraph_listing {s : World} (hs : Sane s) {raw : List DdbShard}
    (hraw : raw.map DdbShard.shardMeta = s.stream.metas.filter (s.stream.listing none).visible) :
    buildShardGraph [closeOpenParents raw] = s.stream.describe := by
  have hids : raw.map DdbShard.shardId = (raw.map DdbShard.shardMeta).map ShardMeta.id := by
    rw [List.map_map]
    rfl
  have hnodup : (raw.map DdbShard.shardId).Nodup := by
    rw [hids, hraw]
    exact hs.ids.sublist (List.filter_sublist.map _)
  have hpresent : ∀ p, p ∈ raw.map DdbShard.shardId ↔ p ∈ s.stream.listed := by
    intro p
    rw [hids, hraw]
    constructor
    · intro h
      obtain ⟨m, hm, rfl⟩ := List.mem_map.mp h
      simpa [Stream.listing] using (List.mem_filter.mp hm).2
    · intro h
      obtain ⟨m, hm, rfl⟩ := List.mem_map.mp (hs.listed p h)
      exact List.mem_map_of_mem (List.mem_filter.mpr ⟨hm, by simpa [Stream.listing] using h⟩)
  rw [buildShardGraph_closeOpenParents, buildShardGraph_eq, List.flatten_singleton,
    firstsBy_of_nodup hnodup fun _ _ h => by cases h]
  have hfilter : s.stream.metas.filter (fun m => s.stream.listed.contains m.id) = raw.map DdbShard.shardMeta := by
    rw [hraw]
    simp [Stream.listing]
  rw [Stream.describe, hfilter, List.map_map]
  refine List.map_congr_left fun x _ => ?_
  simp only [parentsOf_eq_filter, Function.comp, hpresent, List.contains_eq_mem]
  rfl

/-- Calls of `DescribeStream` at successive times of a run, none of whose shards is trimmed on the way. -/
structure Describing (D : Deployment) (K : Contract) (calls : List (FleetPool × DescribeCall)) : Prop where
  reachable : ∀ x ∈ calls, D.Reachable K x.1
  served : ∀ x ∈ calls, x.1.world.stream.Serves x.2
  named : ∀ x ∈ calls, ∀ m ∈ x.1.world.stream.metas, m.id ≠ ""
  chain : calls.Pairwise fun x y => x.1.Reaches (D.machine K) y.1 ∧
    ∀ k ∈ x.1.world.stream.listed, k ∈ y.1.world.stream.listed

section
variable {D : Deployment} {K : Contract} {calls : List (FleetPool × DescribeCall)}

theorem Describing.grows (h : Describing D K calls) (filter : Option ShardId) :
    calls.Pairwise fun x y => (x.1.world.stream.listing filter).Grows (y.1.world.stream.listing filter) := by
  refine h.chain.imp_of_mem ?_
  intro x y hx hy hxy
  exact Stream.listing_grows (sane_of_reachable (h.reachable x hx)) (sane_of_reachable (h.reachable y hy))
    (extends_of_reaches hxy.1) hxy.2 filter

theorem Describing.pages (h : Describing D K calls) {α : Type} {push : SdkShard → Option α} {view : α → ShardMeta}
    (hpush : ∀ s, s.shardMeta.id ≠ "" → (push s).map view = some s.shardMeta) {filter : Option ShardId}
    {r : Except BoxError (List α)} (hr : DdbStreamsSource.describePages push filter none (calls.map Prod.snd) = some r) :
    ∃ x ∈ calls, (∃ e, r = .error (.sdk e)) ∨ ∃ xs, r = .ok xs ∧
      xs.map view = x.1.world.stream.metas.filter (x.1.world.stream.listing filter).visible := by
  rcases listing_of_describePages hpush (fun x hx => ⟨h.served x hx, h.named x hx⟩) hr with
    ⟨hne, he⟩ | ⟨xs, ps, rfl, hxs, hps, hpre⟩
  · obtain ⟨x, hx⟩ := List.exists_mem_of_ne_nil _ hne
    exact ⟨x, hx, Or.inl he⟩
  have hmem : ∀ a ∈ ps, ∃ x ∈ calls, x.1.world.stream.listing filter = a.1 := by
    intro a ha
    exact List.mem_map.mp (hpre.mem (List.mem_map_of_mem ha))
  have hgrow : ps.Pairwise fun a b => a.1.Grows b.1 := by
    rw [← List.pairwise_map (f := Prod.fst)]
    refine List.Pairwise.sublist hpre.sublist ?_
    rw [List.pairwise_map]
    exact h.grows filter
  obtain ⟨a, ha, hcov⟩ := hps.whole (fun a ha => by
    obtain ⟨x, hx, he⟩ := hmem a ha
    rw [← he]
    exact ⟨(sane_of_reachable (h.reachable x hx)).ids, nofun⟩) hgrow
  obtain ⟨x, hx, he⟩ := hmem a ha
  rw [← he] at hcov
  exact ⟨x, hx, Or.inr ⟨xs, rfl, hxs.trans hcov⟩⟩

theorem Describing.ends (h : Describing D K calls) (hne : calls ≠ [])
    (hlen : ∀ x ∈ calls, x.1.world.stream.metas.length < calls.length) {α : Type} (push : SdkShard → Option α)
    (filter : Option ShardId) : (DdbStreamsSource.describePages push filter none (calls.map Prod.snd)).isSome :=
  describePages_ends hne (fun x hx => ⟨h.served x hx, (sane_of_reachable (h.reachable x hx)).ids, nofun, hlen x hx⟩)
    (h.grows filter)

/-- Whatever the two page loops return is an answer of the model's request at the time of one of the calls,
and they return once there are more calls than shards. -/
theorem paged_describe (h : Describing D K calls) (w : Worker) :
    (∀ r, DdbStreamsSource.describeShards (calls.map Prod.snd) = some r →
      ∃ x ∈ calls, ∃ c a, exec K w .describeShards c x.1.world = some (a, x.1.world) ∧ r = a.mapError BoxError.sdk) ∧
    (∀ parent r, DdbStreamsSource.describeChildShards parent (calls.map Prod.snd) = some r →
      ∃ x ∈ calls, ∃ c a t, exec K w (.describeChildShards parent) c x.1.world = some (a, t) ∧
        r = a.mapError BoxError.sdk) ∧
    (calls ≠ [] → (∀ x ∈ calls, x.1.world.stream.metas.length < calls.length) →
      (DdbStreamsSource.describeShards (calls.map Prod.snd)).isSome ∧
      ∀ parent, (DdbStreamsSource.describeChildShards parent (calls.map Prod.snd)).isSome) := by
  refine ⟨?_, ?_, ?_⟩
  · intro r hr
    obtain ⟨r', hr', rfl⟩ := Option.map_eq_some_iff.mp hr
    obtain ⟨x, hx, ⟨e, rfl⟩ | ⟨raw, rfl, hraw⟩⟩ := h.pages rawShard_view hr'
    · exact ⟨x, hx, .fault e, .error e, rfl, rfl⟩
    · refine ⟨x, hx, .ok, .ok x.1.world.stream.describe, rfl, ?_⟩
      exact congrArg Except.ok (buildShardGraph_listing (sane_of_reachable (h.reachable x hx)) hraw)
  · intro parent r hr
    obtain ⟨x, hx, ⟨e, rfl⟩ | ⟨xs, rfl, hxs⟩⟩ := h.pages childShard_view hr
    · exact ⟨x, hx, .fault e, .error e, _, rfl, rfl⟩
    · rw [List.map_id] at hxs
      refine ⟨x, hx, .ok, .ok (x.1.world.stream.children parent), _, rfl, ?_⟩
      rw [hxs]
      rfl
  · intro hne hlen
    refine ⟨?_, fun parent => h.ends hne hlen _ _⟩
    rw [DdbStreamsSource.describeShards, Option.isSome_map]
    exact h.ends hne hlen _ _

end

def rootOnly : FleetPool :=
  plainFleet.envs exactContract [.appear ⟨"root", []⟩] (Pool.idle plainFleet.init)

def rootAndChild : FleetPool := plainFleet.envs exactContract [.appear ⟨"child", ["root"]⟩] rootOnly

def firstCall : DescribeCall
  | ⟨none, none⟩ => .ok (some ⟨[⟨some "root", none, some ⟨none⟩⟩], some "root"⟩)
  | _ => .error ⟨none⟩

def secondCall : DescribeCall
  | ⟨none, some "root"⟩ => .ok (some ⟨[⟨some "child", some "root", some ⟨none⟩⟩], none⟩)
  | _ => .error ⟨none⟩

/-- The child that appeared between the two pages is in the answer. -/
theorem paged_describe_split : ∃ x ∈ [(rootOnly, firstCall), (rootAndChild, secondCall)], ∃ c a,
    exec exactContract "a" .describeShards c x.1.world = some (a, x.1.world) ∧
      Except.ok [⟨"root", []⟩, ⟨"child", ["root"]⟩] = a.mapError BoxError.sdk := by
  have hroot : plainFleet.Reachable exactContract rootOnly :=
    Deployment.reachable_envs (Deployment.reachable_idle _ _)
  refine (@paged_describe plainFleet exactContract [(rootOnly, firstCall), (rootAndChild, secondCall)] ⟨?_, ?_, ?_, ?_⟩
    "a").1 _ rfl
  · simp only [List.forall_mem_cons, List.not_mem_nil, false_implies, implies_true, and_true]
    exact ⟨hroot, Deployment.reachable_envs hroot⟩
  · simp only [List.forall_mem_cons, List.not_mem_nil, false_implies, implies_true, and_true]
    refine ⟨?_, ?_⟩
    · intro input r h
      unfold firstCall at h
      split at h <;> cases h
      exact ⟨_, rfl, [⟨"root", []⟩], [], by decide +kernel, by decide +kernel, rfl⟩
    · intro input r h
      unfold secondCall at h
      split at h <;> cases h
      exact ⟨_, rfl, [⟨"child", ["root"]⟩], [], by decide +kernel, by decide +kernel, rfl⟩
  · decide +kernel
  · simp only [List.pairwise_cons, List.forall_mem_cons, List.not_mem_nil, false_implies, implies_true, and_true,
      List.Pairwise.nil]
    exact ⟨Deployment.reaches_envs _, by decide +kernel⟩

end StreamsConsumer
