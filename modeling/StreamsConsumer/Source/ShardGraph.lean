import Mathlib.Data.List.Basic
import StreamsConsumer.Core.Position

/-!
# The shard graph

`build_shard_graph` and `merge_child_shards` of `source-ddbstreams/src/lib.rs`.
Both keep the first shard of each id, against a set that grows as they go, and
drop a parent that is not present. What is kept is `firstsBy`, so that a graph
extended by newly discovered shards can be compared with the full scan.
-/

namespace StreamsConsumer

structure DdbShard where
  shardId : ShardId
  parentShardId : Option ShardId
  endingSequenceNumber : Option String
  deriving DecidableEq, Repr

def DdbShard.isOpen (s : DdbShard) : Bool := s.endingSequenceNumber.isNone

def parentsOf (s : DdbShard) (present : List ShardId) : List ShardId :=
  match s.parentShardId with
  | some p => if p ∈ present then [p] else []
  | none => []

/-- The body of the page loop: the ids seen and the shards kept. -/
def collectShard (acc : List ShardId × List DdbShard) (s : DdbShard) : List ShardId × List DdbShard :=
  if s.shardId ∈ acc.1 then acc else (s.shardId :: acc.1, acc.2 ++ [s])

def buildShardGraph (pages : List (List DdbShard)) : List ShardMeta :=
  let shards := (pages.foldl (fun acc page => page.foldl collectShard acc) ([], [])).2
  let present := shards.map DdbShard.shardId
  shards.map fun s => ⟨s.shardId, parentsOf s present⟩

def mergeShard (present : List ShardId) (acc : List ShardId × List ShardMeta) (s : DdbShard) :
    List ShardId × List ShardMeta :=
  if s.shardId ∈ acc.1 then acc else (s.shardId :: acc.1, acc.2 ++ [⟨s.shardId, parentsOf s present⟩])

def mergeChildShards (existing : List ShardMeta) (discovered : List DdbShard) : List ShardMeta :=
  let seen := existing.map ShardMeta.id
  let present := seen ++ discovered.map DdbShard.shardId
  (discovered.foldl (mergeShard present) (seen, existing)).2

def closedByShardSync : String := "__closed_by_shard_sync__"

def closeOpenParents (shards : List DdbShard) : List DdbShard :=
  let parentIds := shards.filterMap DdbShard.parentShardId
  shards.map fun s =>
    if s.isOpen ∧ s.shardId ∈ parentIds then { s with endingSequenceNumber := some closedByShardSync } else s

/-! ## First occurrences -/

section
variable {α β : Type} [DecidableEq β]

/-- The elements whose key is neither among `seen` nor the key of an earlier element. -/
def firstsBy (key : α → β) : List β → List α → List α
  | _, [] => []
  | seen, x :: xs => if key x ∈ seen then firstsBy key seen xs else x :: firstsBy key (key x :: seen) xs

variable {key : α → β} {seen seen' : List β} {xs ys : List α} {x : α}

theorem firstsBy_congr : ∀ {xs : List α} {seen seen' : List β}, (∀ k, k ∈ seen ↔ k ∈ seen') →
    firstsBy key seen xs = firstsBy key seen' xs
  | [], _, _, _ => rfl
  | x :: xs, seen, seen', h => by
    unfold firstsBy
    by_cases hx : key x ∈ seen
    · rw [if_pos hx, if_pos ((h _).mp hx)]
      exact firstsBy_congr h
    · rw [if_neg hx, if_neg fun hx' => hx ((h _).mpr hx')]
      congr 1
      apply firstsBy_congr
      intro k
      simp [h k]

theorem firstsBy_append : ∀ {xs : List α} {seen : List β},
    firstsBy key seen (xs ++ ys) = firstsBy key seen xs ++ firstsBy key (xs.map key ++ seen) ys
  | [], _ => rfl
  | x :: xs, seen => by
    simp only [List.cons_append, firstsBy]
    by_cases hx : key x ∈ seen
    · rw [if_pos hx, if_pos hx, firstsBy_append]
      congr 1
      apply firstsBy_congr
      intro k
      simp only [List.map_cons, List.cons_append, List.mem_cons, List.mem_append]
      constructor
      · exact Or.inr
      · rintro (rfl | h)
        · exact Or.inr hx
        · exact h
    · rw [if_neg hx, if_neg hx, firstsBy_append, List.cons_append]
      congr 2
      apply firstsBy_congr
      intro k
      simp only [List.map_cons, List.cons_append, List.mem_cons, List.mem_append]
      tauto

theorem mem_keys_firstsBy : ∀ {xs : List α} {seen : List β} {k : β},
    k ∈ (firstsBy key seen xs).map key ↔ k ∈ xs.map key ∧ k ∉ seen
  | [], _, _ => by simp [firstsBy]
  | x :: xs, seen, k => by
    unfold firstsBy
    by_cases hx : key x ∈ seen
    · rw [if_pos hx, mem_keys_firstsBy, List.map_cons, List.mem_cons]
      constructor
      · exact fun h => ⟨Or.inr h.1, h.2⟩
      · rintro ⟨rfl | h, hk⟩
        · exact absurd hx hk
        · exact ⟨h, hk⟩
    · rw [if_neg hx, List.map_cons, List.mem_cons, mem_keys_firstsBy, List.map_cons, List.mem_cons, List.mem_cons]
      constructor
      · rintro (rfl | ⟨h, hk⟩)
        · exact ⟨Or.inl rfl, hx⟩
        · exact ⟨Or.inr h, fun h' => hk (Or.inr h')⟩
      · rintro ⟨rfl | h, hk⟩
        · exact Or.inl rfl
        · by_cases he : k = key x
          · exact Or.inl he
          · exact Or.inr ⟨h, fun h' => h'.elim he hk⟩

theorem exists_of_mem_firstsBy : ∀ {xs : List α} {seen : List β}, x ∈ firstsBy key seen xs →
    ∃ before after, xs = before ++ x :: after ∧ key x ∉ before.map key
  | [], _, h => by cases h
  | y :: xs, seen, h => by
    unfold firstsBy at h
    by_cases hy : key y ∈ seen
    · rw [if_pos hy] at h
      have hx : key x ∉ seen := (mem_keys_firstsBy.mp (List.mem_map_of_mem h)).2
      obtain ⟨before, after, rfl, hnot⟩ := exists_of_mem_firstsBy h
      refine ⟨y :: before, after, rfl, ?_⟩
      rw [List.map_cons, List.mem_cons]
      rintro (he | hmem)
      · exact hx (he ▸ hy)
      · exact hnot hmem
    · rw [if_neg hy] at h
      rcases List.mem_cons.mp h with rfl | h
      · exact ⟨[], xs, rfl, by simp⟩
      have hx : key x ∉ key y :: seen := (mem_keys_firstsBy.mp (List.mem_map_of_mem h)).2
      obtain ⟨before, after, rfl, hnot⟩ := exists_of_mem_firstsBy h
      refine ⟨y :: before, after, rfl, ?_⟩
      rw [List.map_cons, List.mem_cons]
      rintro (he | hmem)
      · exact hx (he ▸ List.mem_cons_self)
      · exact hnot hmem


theorem firstsBy_map {f : α → α} (hf : ∀ x, key (f x) = key x) : ∀ {xs : List α} {seen : List β},
    firstsBy key seen (xs.map f) = (firstsBy key seen xs).map f
  | [], _ => rfl
  | x :: xs, seen => by
    simp only [List.map_cons, firstsBy, hf, firstsBy_map hf]
    by_cases hx : key x ∈ seen
    · rw [if_pos hx, if_pos hx]
    · rw [if_neg hx, if_neg hx, List.map_cons]

theorem firstsBy_of_nodup : ∀ {xs : List α} {seen : List β}, (xs.map key).Nodup → (∀ x ∈ xs, key x ∉ seen) →
    firstsBy key seen xs = xs
  | [], _, _, _ => rfl
  | x :: xs, seen, hn, hs => by
    rw [List.map_cons, List.nodup_cons] at hn
    rw [firstsBy, if_neg (hs x List.mem_cons_self), firstsBy_of_nodup hn.2]
    intro y hy hmem
    rcases List.mem_cons.mp hmem with he | hmem
    · exact hn.1 (he ▸ List.mem_map_of_mem hy)
    · exact hs y (List.mem_cons_of_mem _ hy) hmem

theorem pairwise_firstsBy : ∀ {xs : List α} {seen : List β},
    ((firstsBy key seen xs).map key).Pairwise fun a b => (xs.map key).idxOf a < (xs.map key).idxOf b
  | [], _ => List.Pairwise.nil
  | x :: xs, seen => by
    have hshift : ∀ {seen : List β}, key x ∈ seen → ((firstsBy key seen xs).map key).Pairwise
        fun a b => ((x :: xs).map key).idxOf a < ((x :: xs).map key).idxOf b := by
      intro seen hx
      refine pairwise_firstsBy.imp_of_mem ?_
      intro a b ha hb hlt
      have hne : ∀ k, k ∈ (firstsBy key seen xs).map key → key x ≠ k := fun k hk he =>
        (mem_keys_firstsBy.mp hk).2 (he ▸ hx)
      rw [List.map_cons, List.idxOf_cons_ne _ (hne a ha), List.idxOf_cons_ne _ (hne b hb)]
      exact Nat.succ_lt_succ hlt
    unfold firstsBy
    by_cases hx : key x ∈ seen
    · rw [if_pos hx]
      exact hshift hx
    · rw [if_neg hx]
      refine List.Pairwise.cons ?_ (hshift List.mem_cons_self)
      intro k hk
      have hne : key x ≠ k := fun he => (mem_keys_firstsBy.mp hk).2 (he ▸ List.mem_cons_self)
      rw [List.map_cons, List.idxOf_cons_self, List.idxOf_cons_ne _ hne]
      exact Nat.succ_pos _

end

/-! ## The two loops -/

theorem foldl_collectShard (shards : List DdbShard) : ∀ (acc : List ShardId × List DdbShard),
    (shards.foldl collectShard acc).2 = acc.2 ++ firstsBy DdbShard.shardId acc.1 shards := by
  induction shards with
  | nil => simp [firstsBy]
  | cons s shards ih =>
    intro acc
    rw [List.foldl_cons, ih, firstsBy, collectShard]
    by_cases hs : s.shardId ∈ acc.1
    · rw [if_pos hs, if_pos hs]
    · rw [if_neg hs, if_neg hs]
      simp

theorem foldl_mergeShard (present : List ShardId) (shards : List DdbShard) : ∀ (acc : List ShardId × List ShardMeta),
    (shards.foldl (mergeShard present) acc).2 =
      acc.2 ++ (firstsBy DdbShard.shardId acc.1 shards).map fun s => ⟨s.shardId, parentsOf s present⟩ := by
  induction shards with
  | nil => simp [firstsBy]
  | cons s shards ih =>
    intro acc
    rw [List.foldl_cons, ih, firstsBy, mergeShard]
    by_cases hs : s.shardId ∈ acc.1
    · rw [if_pos hs, if_pos hs]
    · rw [if_neg hs, if_neg hs]
      simp

theorem parentsOf_congr {s : DdbShard} {present present' : List ShardId}
    (h : ∀ p, s.parentShardId = some p → (p ∈ present ↔ p ∈ present')) : parentsOf s present = parentsOf s present' := by
  unfold parentsOf
  cases hp : s.parentShardId with
  | none => rfl
  | some p =>
    simp only
    by_cases hmem : p ∈ present
    · rw [if_pos hmem, if_pos ((h p hp).mp hmem)]
    · rw [if_neg hmem, if_neg fun h' => hmem ((h p hp).mpr h')]

theorem mem_of_mem_parentsOf {s : DdbShard} {present : List ShardId} {p : ShardId} (h : p ∈ parentsOf s present) :
    p ∈ present := by
  unfold parentsOf at h
  split at h
  · split at h
    · rename_i hmem
      rw [List.mem_singleton.mp h]
      exact hmem
    · cases h
  · cases h

theorem buildShardGraph_eq (pages : List (List DdbShard)) : buildShardGraph pages =
    (firstsBy DdbShard.shardId [] pages.flatten).map fun s =>
      ⟨s.shardId, parentsOf s (pages.flatten.map DdbShard.shardId)⟩ := by
  unfold buildShardGraph
  have hfold : (pages.foldl (fun acc page => page.foldl collectShard acc) ([], [])).2 =
      firstsBy DdbShard.shardId [] pages.flatten := by
    rw [← List.foldl_flatten, foldl_collectShard]
    rfl
  simp only [hfold]
  apply List.map_congr_left
  intro s _
  congr 1
  apply parentsOf_congr
  intro p _
  rw [mem_keys_firstsBy]
  simp

theorem ids_buildShardGraph (pages : List (List DdbShard)) :
    (buildShardGraph pages).map ShardMeta.id = (firstsBy DdbShard.shardId [] pages.flatten).map DdbShard.shardId := by
  rw [buildShardGraph_eq, List.map_map]
  rfl

theorem mem_ids_buildShardGraph {pages : List (List DdbShard)} {k : ShardId} :
    k ∈ (buildShardGraph pages).map ShardMeta.id ↔ k ∈ pages.flatten.map DdbShard.shardId := by
  rw [ids_buildShardGraph, mem_keys_firstsBy]
  simp

theorem buildShardGraph_closeOpenParents (shards : List DdbShard) :
    buildShardGraph [closeOpenParents shards] = buildShardGraph [shards] := by
  have hkeep : ∀ s : DdbShard, (if s.isOpen ∧ s.shardId ∈ shards.filterMap DdbShard.parentShardId then
      { s with endingSequenceNumber := some closedByShardSync } else s).shardId = s.shardId := by
    intro s
    split <;> rfl
  have hids : (closeOpenParents shards).map DdbShard.shardId = shards.map DdbShard.shardId := by
    unfold closeOpenParents
    rw [List.map_map]
    exact List.map_congr_left fun s _ => hkeep s
  rw [buildShardGraph_eq, buildShardGraph_eq, List.flatten_singleton, List.flatten_singleton, hids]
  unfold closeOpenParents
  rw [firstsBy_map hkeep, List.map_map]
  apply List.map_congr_left
  intro s _
  simp only [Function.comp, hkeep]
  by_cases hclose : s.isOpen ∧ s.shardId ∈ shards.filterMap DdbShard.parentShardId
  · rw [if_pos hclose]
    rfl
  · rw [if_neg hclose]

/-! ## Incremental discovery -/

/-- No shard that occurs in `A` first names a parent absent from `A` and present in `B`. -/
def ParentsSettled (A B : List DdbShard) : Prop :=
  ∀ before s after, A = before ++ s :: after → s.shardId ∉ before.map DdbShard.shardId →
    ∀ p, s.parentShardId = some p → p ∈ B.map DdbShard.shardId → p ∈ A.map DdbShard.shardId

theorem mergeChildShards_eq_build {A B : List DdbShard} (h : ParentsSettled A B) :
    mergeChildShards (buildShardGraph [A]) B = buildShardGraph [A ++ B] := by
  unfold mergeChildShards
  rw [foldl_mergeShard, buildShardGraph_eq [A ++ B]]
  simp only [List.flatten_singleton]
  have hids : ∀ k, k ∈ (buildShardGraph [A]).map ShardMeta.id ↔ k ∈ A.map DdbShard.shardId := by
    intro k
    rw [mem_ids_buildShardGraph, List.flatten_singleton]
  rw [firstsBy_append, List.map_append, List.append_nil]
  congr 1
  · -- the shards known before keep their parents
    rw [buildShardGraph_eq, List.flatten_singleton]
    apply List.map_congr_left
    intro s hs
    obtain ⟨before, after, hA, hfirst⟩ := exists_of_mem_firstsBy hs
    congr 1
    apply parentsOf_congr
    intro p hp
    rw [List.map_append, List.mem_append]
    constructor
    · exact Or.inl
    · rintro (hmem | hmem)
      · exact hmem
      · exact h before s after hA hfirst p hp hmem
  · rw [firstsBy_congr hids]
    apply List.map_congr_left
    intro s _
    congr 1
    apply parentsOf_congr
    intro p _
    rw [List.mem_append, hids, List.map_append, List.mem_append]

/-- Each shard id of the pages once, in the order first seen, with parents among them. -/
structure ListsOnce (pages : List (List DdbShard)) (graph : List ShardMeta) : Prop where
  nodup : (graph.map ShardMeta.id).Nodup
  ids : ∀ k, k ∈ graph.map ShardMeta.id ↔ k ∈ pages.flatten.map DdbShard.shardId
  firstSeen : (graph.map ShardMeta.id).Pairwise fun a b =>
    (pages.flatten.map DdbShard.shardId).idxOf a < (pages.flatten.map DdbShard.shardId).idxOf b
  parents : ∀ m ∈ graph, ∀ p ∈ m.parents, ∃ m' ∈ graph, m'.id = p

theorem listsOnce_build (pages : List (List DdbShard)) : ListsOnce pages (buildShardGraph pages) := by
  have hfirst : ((buildShardGraph pages).map ShardMeta.id).Pairwise fun a b =>
      (pages.flatten.map DdbShard.shardId).idxOf a < (pages.flatten.map DdbShard.shardId).idxOf b := by
    rw [ids_buildShardGraph]
    exact pairwise_firstsBy
  refine ⟨?_, fun k => mem_ids_buildShardGraph, hfirst, ?_⟩
  · apply hfirst.imp
    intro a b hlt he
    rw [he] at hlt
    exact Nat.lt_irrefl _ hlt
  · intro m hm p hp
    have hmem : p ∈ (buildShardGraph pages).map ShardMeta.id := by
      rw [buildShardGraph_eq] at hm
      obtain ⟨s, _, rfl⟩ := List.mem_map.mp hm
      exact mem_ids_buildShardGraph.mpr (mem_of_mem_parentsOf hp)
    exact List.mem_map.mp hmem

/-- Discovery by children agrees with the scan, and the scan depends on its shards in their order only. -/
theorem shard_discovery_agrees :
    (∀ A B, ParentsSettled A B → mergeChildShards (buildShardGraph [A]) B = buildShardGraph [A ++ B]) ∧
      (∀ pages pages', pages.flatten = pages'.flatten → buildShardGraph pages = buildShardGraph pages') ∧
        ∀ pages, ListsOnce pages (buildShardGraph pages) := by
  refine ⟨fun A B h => mergeChildShards_eq_build h, ?_, listsOnce_build⟩
  intro pages pages' h
  rw [buildShardGraph_eq, buildShardGraph_eq, h]

/-- A split of `p`, discovered with a conflicting copy of `c1` and a parent that is not known. -/
theorem shard_discovery_agrees_split :
    let A : List DdbShard := [⟨"p", none, some "9"⟩, ⟨"c1", some "p", none⟩]
    let B : List DdbShard := [⟨"c1", some "x", none⟩, ⟨"c2", some "p", none⟩, ⟨"c3", some "y", none⟩]
    mergeChildShards (buildShardGraph [A]) B = [⟨"p", []⟩, ⟨"c1", ["p"]⟩, ⟨"c2", ["p"]⟩, ⟨"c3", []⟩] ∧
      mergeChildShards (buildShardGraph [A]) B = buildShardGraph [A ++ B] := by
  refine ⟨by decide, shard_discovery_agrees.1 _ _ ?_⟩
  intro before s after hA _ p hp hmem
  have hs : s ∈ before ++ s :: after := by simp
  rw [← hA] at hs
  simp only [List.mem_cons, List.not_mem_nil, or_false] at hs
  rcases hs with rfl | rfl
  · cases hp
  · cases hp
    decide

end StreamsConsumer
