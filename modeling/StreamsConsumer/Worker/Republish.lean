import StreamsConsumer.Worker.Renewal
import StreamsConsumer.Worker.SyncTrail

/-!
# Publications that failed

The results of `create_shard_lease` are dropped at all three call sites of
`leader_shard_sync`, while `seeded`, `child_synced` and the rows of siblings
count as progress. `failed_publication_retried_iff` says after which failures a
next sync still reaches the shard.
-/

namespace StreamsConsumer
open Conc

/-- A sync without failures gets to the shard: once seeded, through a completed parent that is neither synced nor
named by a row; before that, through the full listing. -/
def Sought (st : Stream) (completed published : List ShardId) (seeded : Bool) (synced : ShardId → Prop)
    (k : ShardId) : Prop :=
  if seeded then ∃ p ∈ completed, ¬ synced p ∧ p ∉ published ∧ ∃ c ∈ st.children p, c.id = k
  else ∃ m ∈ st.describe, m.id = k ∧ ∀ p ∈ m.parents, p ∈ completed

/-! ## What a sync leaves alone -/

def Discovering : Req → Prop
  | .db _ (.createShardLease _ _) => True
  | .mem _ => True
  | .hashOrder => True
  | .metric _ => True
  | .describeShards => True
  | .describeChildShards _ => True
  | _ => False

/-- From `s` to `t` rows were added, none of them completed, and `w` worked on its own memory. -/
structure Grows (w : Worker) (s t : World) : Prop where
  kept : ∀ k r, s.table k = some r → t.table k = some r
  fresh : ∀ k r, t.table k = some r → s.table k = some r ∨ r.completed = false
  stream : t.stream = s.stream
  others : ∀ v, v ≠ w → t.mem v = s.mem v

theorem Grows.refl (w : Worker) (s : World) : Grows w s s := ⟨fun _ _ h => h, fun _ _ h => Or.inl h, rfl, fun _ _ => rfl⟩

theorem Grows.trans {w : Worker} {s t u : World} (h₁ : Grows w s t) (h₂ : Grows w t u) : Grows w s u where
  kept k r h := h₂.kept k r (h₁.kept k r h)
  fresh k r h := by
    rcases h₂.fresh k r h with h | h
    · exact h₁.fresh k r h
    · exact Or.inr h
  stream := h₂.stream.trans h₁.stream
  others v hv := (h₂.others v hv).trans (h₁.others v hv)

section
variable {D : Deployment} {K : Contract} {w v : Worker} {s t : World} {rows : List Lease} {k : ShardId}
  {log : List ((r : Req) × Resp r)}

theorem exec_grows {r : Req} (hr : Discovering r) {c : Choice} {a : Resp r} (h : exec K w r c s = some (a, t)) :
    Grows w s t := by
  cases r with
  | db key op =>
    cases op <;> simp only [Discovering] at hr
    rename_i ps cp
    rcases create_adds h with rfl | ⟨hnone, rfl⟩
    · exact .refl w t
    · refine ⟨?_, ?_, rfl, fun _ _ => rfl⟩
      · intro k r hk
        have hne : k ≠ key := by
          rintro rfl
          rw [hnone] at hk
          cases hk
        simpa [World.write, hne] using hk
      · intro k r hk
        by_cases hkey : k = key
        · subst hkey
          simp only [World.write, Function.update_self, Option.some.injEq] at hk
          subst hk
          exact Or.inr rfl
        · left
          simpa [World.write, hkey] using hk
  | mem f =>
    cases h
    refine ⟨fun _ _ h => h, fun _ _ h => Or.inl h, rfl, ?_⟩
    intro v hv
    simp [World.setMem, hv]
  | hashOrder =>
    obtain rfl := harmless_hashOrder c s a t h
    exact .refl w t
  | metric m =>
    obtain rfl := harmless_metric m c s a t h
    exact .refl w t
  | describeShards =>
    obtain rfl := (execRead_eq h).1
    exact .refl w t
  | describeChildShards p =>
    rcases execChildShards_cases h with ⟨rfl, _⟩ | ⟨_, rfl⟩
    · exact .refl w t
    · exact ⟨fun _ _ h => h, fun _ _ h => Or.inl h, rfl, fun _ _ => rfl⟩
  | _ => exact hr.elim

theorem syncing_discovering : Syncing Discovering := ⟨fun _ => trivial, trivial, fun _ => trivial, fun _ _ _ => trivial⟩

theorem grows_of_moves (h : Moves (handler K) Alone w s log t) (hlog : ∀ e ∈ log, Discovering e.1) : Grows w s t :=
  h.rel (Grows.refl w) Grows.trans (fun _ _ hi => hi.elim) fun e he _ _ _ hx => exec_grows (hlog e he) hx

theorem leaderShardSync_discovering (hsrc : D.source = contractSource) {r : Except WorkerError Unit}
    (h : Trail (handler K) Alone w (leaderShardSync (D.fleet w) rows) s log (.ret r) t) :
    ∀ e ∈ log, Discovering e.1 :=
  h.uses (uses_leaderShardSync syncing_discovering (fun _ => trivial) trivial rfl hsrc)

theorem row_of_grows (h : Grows w s t) (hk : s.table k ≠ none) : t.table k ≠ none := by
  obtain ⟨r, hr⟩ := Option.ne_none_iff_exists'.mp hk
  simp [h.kept k r hr]

theorem scan_row (h : Scan s rows) : k ∈ rows.map Lease.leaseKey ↔ s.table k ≠ none := by
  rw [Option.ne_none_iff_exists']
  simp only [List.mem_map, h k]

theorem completedKeys_of_grows {rows' : List Lease} (h : Grows w s t) (hs : Scan s rows) (ht : Scan t rows') :
    k ∈ completedKeys rows' ↔ k ∈ completedKeys rows := by
  simp only [mem_completedKeys]
  constructor
  · intro hk
    obtain ⟨r, hr, hc, hkey⟩ := hk
    rcases h.fresh k r ((ht k r).mpr ⟨hr, hkey⟩) with hk | hk
    · exact ⟨r, ((hs k r).mp hk).1, hc, hkey⟩
    · rw [hc] at hk
      cases hk
  · intro hk
    obtain ⟨r, hr, hc, hkey⟩ := hk
    exact ⟨r, ((ht k r).mp (h.kept k r ((hs k r).mpr ⟨hr, hkey⟩))).1, hc, hkey⟩

/-! ## What a sync notes down -/

theorem mem_of_moves (h : Moves (handler K) Alone w s log t) (hlog : ∀ e ∈ log, Outer e.1) : t.mem = s.mem := by
  refine h.rel (L := fun s t => t.mem = s.mem) ?_ ?_ ?_ ?_
  · intro _
    rfl
  · intro _ _ _ h₁ h₂
    exact h₂.trans h₁
  · intro _ _ hi
    exact hi.elim
  · intro e he _ _ _ hx
    exact exec_outer (hlog e he) hx

theorem answered_of_inner {pre mid post : List ((r : Req) × Resp r)} (h : ∀ e ∈ pre ++ post, Inner e.1)
    {p : ShardId} : Answered (pre ++ mid ++ post) p ↔ Answered mid p := by
  have hno : ∀ cs, (⟨.describeChildShards p, .ok cs⟩ : (r : Req) × Resp r) ∉ pre ++ post := fun cs hcs => h _ hcs
  simp only [List.mem_append, not_or] at hno
  unfold Answered
  simp only [List.mem_append, hno, false_or, or_false]

/-- After a sync that tried to publish something, the leader is seeded and has noted the parents that were answered. -/
theorem noted_of_sync (hsrc : D.source = contractSource) {r : Except WorkerError Unit}
    (h : Trail (handler K) Alone w (leaderShardSync (D.fleet w) rows) s log (.ret r) t)
    (hpub : ∃ e ∈ log, ¬ Inner e.1) :
    (t.mem w).syncState.seeded = true ∧ ∀ p, p ∈ (t.mem w).syncState.childSynced ↔
      p ∈ (s.mem w).syncState.childSynced ∨ Answered log p := by
  rcases trail_leaderShardSync hsrc h with ⟨d⟩ | ⟨d⟩ | ⟨hin, _⟩
  · obtain ⟨at₁, at₂, at₃, at₄, order, newly, pre, mid, post, rfl, hinner, hseed, h₁, h₂, hrun, h₃, h₄⟩ := d
    obtain rfl := eq_of_alone h₁
    obtain rfl := eq_of_alone h₂
    obtain rfl := eq_of_alone h₃
    obtain rfl := eq_of_alone h₄
    have hmem : at₄.mem = at₂.mem := mem_of_moves hrun.moves (hrun.uses (uses_syncParents syncing_outer rfl hsrc _))
    refine ⟨by simp [World.setMem, hmem, hseed], ?_⟩
    intro p
    rw [answered_of_inner hinner, ← mem_synced_iff hsrc hrun]
    simp [World.setMem, hmem, or_comm]
  · obtain ⟨at₁, at₂, at₃, at₄, pre, mid, post, rfl, hinner, hseed, h₁, h₂, hrun, h₃, h₄⟩ := d
    obtain rfl := eq_of_alone h₁
    obtain rfl := eq_of_alone h₂
    obtain rfl := eq_of_alone h₃
    obtain rfl := eq_of_alone h₄
    have hmem : at₄.mem = at₂.mem :=
      mem_of_moves hrun.moves (hrun.uses (uses_seedRoots rfl fun m _ _ => syncing_outer.create _ _ _))
    refine ⟨by simp [World.setMem], ?_⟩
    intro p
    have hnone : ¬ Answered mid p := by
      intro ha
      obtain ⟨cs, hcs⟩ := ha
      exact hrun.uses (P := fun r => r ≠ .describeChildShards p)
        (uses_seedRoots rfl fun m _ _ => by simp) _ hcs rfl
    rw [answered_of_inner hinner]
    simp [World.setMem, hmem, hnone]
  · obtain ⟨e, he, hne⟩ := hpub
    exact absurd (hin e he) hne

/-! ## What a sync without failures publishes -/

theorem row_of_moves (h : Moves (handler K) Alone w s log t) (hk : t.table k ≠ none) :
    s.table k ≠ none ∨ ∃ op a, (⟨.db k op, a⟩ : (r : Req) × Resp r) ∈ log := by
  induction h with
  | refl => exact Or.inl hk
  | other hi => exact hi.elim
  | @call s s' t r c a log he _ ih =>
    rcases ih hk with hk | ⟨op, a, ha⟩
    · rcases exec_cases he with rfl | ⟨_, f, _, rfl⟩ | ⟨key, op, row, rfl, _, rfl⟩ | ⟨_, _, _, _, rfl⟩ |
        ⟨_, _, _, rfl⟩ | ⟨_, _, rfl⟩
      case inr.inr.inl =>
        by_cases hkey : k = key
        · subst hkey
          exact Or.inr ⟨op, a, List.mem_cons_self⟩
        · left
          simpa [World.write, hkey] using hk
      all_goals exact Or.inl hk
    · exact Or.inr ⟨op, a, List.mem_cons_of_mem _ ha⟩

theorem asked_of_syncParents (hsrc : D.source = contractSource) {skip : List ShardId} {completed existing : List ShardId} :
    ∀ {ps newly : List ShardId} {s t : World} {log : List ((r : Req) × Resp r)},
      Trail (handler K) Alone w (syncParents (D.fleet w) rows completed existing skip ps) s log (.ret newly) t →
      (∀ e ∈ log, ¬ Failed e) → ∀ {op : DbOp} {a : Except AwsError Nat},
      (⟨.db k op, a⟩ : (r : Req) × Resp r) ∈ log → ∃ p ∈ ps, p ∉ skip ∧ ∃ c ∈ s.stream.children p, c.id = k
  | [], newly, s, t, log, h, _, op, a, ha => by
    obtain ⟨rfl, _, _⟩ := h.of_ret
    cases ha
  | p :: ps, newly, s, t, log, h, hok, op, a, ha => by
    unfold syncParents at h
    split at h
    · obtain ⟨q, hq, hrest⟩ := asked_of_syncParents hsrc h hok ha
      exact ⟨q, List.mem_cons_of_mem _ hq, hrest⟩
    · rename_i hskip
      obtain ⟨b, u, l₁, l₂, rfl, hp, hk⟩ := h.of_bind
      obtain ⟨rest, u', l₃, l₄, rfl, hrest, hret⟩ := hk.of_bind
      obtain ⟨rfl, rfl, _⟩ := hret.of_ret
      have hgrows : Grows w s u :=
        grows_of_moves hp.moves (hp.uses (uses_syncParent syncing_discovering rfl hsrc p))
      rw [List.append_nil] at ha hok
      rcases List.mem_append.mp ha with ha | ha
      · refine ⟨p, List.mem_cons_self, by simpa using hskip, ?_⟩
        rcases trail_syncParent hsrc hp with ⟨s₁, l, h₁, _, rfl, hpub⟩ | ⟨_, e, l, rfl, _⟩
        · obtain rfl := eq_of_alone h₁
          have hchild := hpub.uses (P := fun r => ∀ op, r = .db k op → ∃ c ∈ s₁.stream.children p, c.id = k)
            (uses_publishChildren rfl fun c hc op e => by
              cases e
              exact ⟨c, hc, rfl⟩)
          rcases List.mem_cons.mp ha with ha | ha
          · cases ha
          rcases List.mem_cons.mp ha with ha | ha
          · cases ha
          exact hchild _ ha op rfl
        · exact absurd trivial (hok ⟨.describeChildShards p, .error e⟩ (by simp))
      · obtain ⟨q, hq, hqs, hc⟩ :=
          asked_of_syncParents hsrc hrest (fun e he => hok e (List.mem_append_right _ he)) ha
        rw [hgrows.stream] at hc
        exact ⟨q, List.mem_cons_of_mem _ hq, hqs, hc⟩

theorem row_iff_discovers (hsrc : D.source = contractSource) (d : Discovers D K w Alone rows s log t) (hs : Scan s rows)
    (hok : ∀ e ∈ log, ¬ Failed e) : t.table k ≠ none ↔ s.table k ≠ none ∨
      ∃ p ∈ completedKeys rows, p ∉ (s.mem w).syncState.childSynced ∧ p ∉ rows.flatMap Lease.parents ∧
        ∃ c ∈ s.stream.children p, c.id = k := by
  obtain ⟨at₁, at₂, at₃, at₄, order, newly, pre, mid, post, rfl, _, _, h₁, h₂, hrun, h₃, h₄⟩ := d
  obtain rfl := eq_of_alone h₁
  obtain rfl := eq_of_alone h₂
  obtain rfl := eq_of_alone h₃
  obtain rfl := eq_of_alone h₄
  have hmid : ∀ e ∈ mid, ¬ Failed e := fun e he => hok e (by simp [he])
  have hdisc : ∀ e ∈ mid, Discovering e.1 := hrun.uses (uses_syncParents syncing_discovering rfl hsrc _)
  change at₄.table k ≠ none ↔ _
  constructor
  · intro hk
    rcases row_of_moves hrun.moves hk with hk | ⟨op, a, ha⟩
    · exact Or.inl hk
    · obtain ⟨p, hp, hskip, hc⟩ := asked_of_syncParents hsrc hrun hmid ha
      rw [List.mem_append, not_or] at hskip
      exact Or.inr ⟨p, List.mem_dedup.mp (mem_of_mem_hashIter hp), hskip.1, hskip.2, hc⟩
  · intro hk
    rcases hk with hk | ⟨p, hp, hsync, hpar, c, hc, rfl⟩
    · exact row_of_grows (grows_of_moves hrun.moves hdisc) hk
    have hskip : p ∉ (at₂.mem w).syncState.childSynced ++ rows.flatMap Lease.parents := by
      rw [List.mem_append, not_or]
      exact ⟨hsync, hpar⟩
    obtain ⟨s₁, t₁, l₁, l, l₂, b, rfl, hm₁, hpar, hm₂⟩ :=
      moves_syncParents hskip hrun (mem_hashIter_dedup hp)
    have hg₁ : Grows w at₂ s₁ := grows_of_moves hm₁ fun e he => hdisc e (by simp [he])
    have hg₂ : Grows w t₁ at₄ := grows_of_moves hm₂ fun e he => hdisc e (by simp [he])
    obtain ⟨s₂, _, _, rfl, hs₂, _, _, hrows⟩ := rows_of_parent hsrc hpar fun e he => hmid e (by simp [he])
    obtain rfl := eq_of_alone hs₂
    by_cases hex : c.id ∈ rows.map Lease.leaseKey
    · exact row_of_grows (grows_of_moves hrun.moves hdisc) ((scan_row hs).mp hex)
    · obtain ⟨u, l₃, l₄, heq, _, hu, hm⟩ := hrows c (by rwa [hg₁.stream]) hex
      have hl₄ : ∀ e ∈ l₄, Discovering e.1 := by
        intro e he
        refine hdisc e ?_
        rw [heq]
        simp [he]
      exact row_of_grows ((grows_of_moves hm hl₄).trans hg₂) hu

theorem row_iff_seeds (d : Seeds D K w Alone rows s log t) (hs : Scan s rows) (hok : ∀ e ∈ log, ¬ Failed e) :
    t.table k ≠ none ↔ s.table k ≠ none ∨
      ∃ m ∈ s.stream.describe, m.id = k ∧ ∀ p ∈ m.parents, p ∈ completedKeys rows := by
  obtain ⟨at₁, at₂, at₃, at₄, pre, mid, post, rfl, _, _, h₁, h₂, hrun, h₃, h₄⟩ := d
  obtain rfl := eq_of_alone h₁
  obtain rfl := eq_of_alone h₂
  obtain rfl := eq_of_alone h₃
  obtain rfl := eq_of_alone h₄
  have hmid : ∀ e ∈ mid, ¬ Failed e := fun e he => hok e (by simp [he])
  have hdisc : ∀ e ∈ mid, Discovering e.1 :=
    hrun.uses (uses_seedRoots rfl fun m _ _ => syncing_discovering.create _ _ _)
  have hpub : ∀ m : ShardMeta, publishable (completedKeys rows) (rows.map Lease.leaseKey) m = true ↔
      (∀ p ∈ m.parents, p ∈ completedKeys rows) ∧ m.id ∉ rows.map Lease.leaseKey := by
    simp [publishable]
  change at₄.table k ≠ none ↔ _
  constructor
  · intro hk
    rcases row_of_moves hrun.moves hk with hk | ⟨op, a, ha⟩
    · exact Or.inl hk
    · have hasked := hrun.uses (P := fun r => ∀ op, r = .db k op →
          ∃ m ∈ at₂.stream.describe, m.id = k ∧ ∀ p ∈ m.parents, p ∈ completedKeys rows)
        (uses_seedRoots rfl fun m hm hp op e => by
          cases e
          exact ⟨m, hm, rfl, ((hpub m).mp hp).1⟩)
      exact Or.inr (hasked _ ha op rfl)
  · intro hk
    rcases hk with hk | ⟨m, hm, rfl, hpar⟩
    · exact row_of_grows (grows_of_moves hrun.moves hdisc) hk
    by_cases hex : m.id ∈ rows.map Lease.leaseKey
    · exact row_of_grows (grows_of_moves hrun.moves hdisc) ((scan_row hs).mp hex)
    · have hp : publishable (completedKeys rows) (rows.map Lease.leaseKey) m = true := (hpub m).mpr ⟨hpar, hex⟩
      obtain ⟨u, l₁, l₂, rfl, _, hu, hmv⟩ := row_of_each hrun hm (if_pos hp) hmid
      exact row_of_grows (grows_of_moves hmv fun e he => hdisc e (by simp [he])) hu

theorem row_iff_sync (hsrc : D.source = contractSource) {r : Except WorkerError Unit}
    (h : Trail (handler K) Alone w (leaderShardSync (D.fleet w) rows) s log (.ret r) t) (hs : Scan s rows)
    (hok : ∀ e ∈ log, ¬ Failed e) : t.table k ≠ none ↔ s.table k ≠ none ∨
      Sought s.stream (completedKeys rows) (rows.flatMap Lease.parents) (s.mem w).syncState.seeded
        (· ∈ (s.mem w).syncState.childSynced) k := by
  unfold Sought
  rcases trail_leaderShardSync hsrc h with ⟨⟨d⟩⟩ | ⟨⟨d⟩⟩ | ⟨_, e, he, hf⟩
  · have hseed : (s.mem w).syncState.seeded = true := eq_of_alone d.first ▸ d.seeded
    rw [if_pos hseed]
    exact row_iff_discovers hsrc d hs hok
  · have hseed : (s.mem w).syncState.seeded = false := eq_of_alone d.first ▸ d.unseeded
    rw [hseed]
    exact row_iff_seeds d hs hok
  · exact absurd hf (hok e he)

/-! ## Publications that are retried -/

/-- A publication of `k` that failed in a sync of `w` is made up for by the next sync, of `v`, exactly when the failed
write took effect all the same, or that sync still gets to the shard: `w` itself is seeded and has noted every parent
that was answered, another leader goes by what it noted before. -/
theorem failed_publication_retried_iff (hsrc : D.source = contractSource) {s s' s'' : World} {rows rows' : List Lease}
    {log log' : List ((r : Req) × Resp r)} {r r' : Except WorkerError Unit} {ps : List ShardId}
    {cp : Option SequenceNumber} {e : AwsError} (hs : Scan s rows)
    (h : Trail (handler K) Alone w (leaderShardSync (D.fleet w) rows) s log (.ret r) s')
    (he : (⟨.db k (.createShardLease ps cp), .error e⟩ : (r : Req) × Resp r) ∈ log) (hs' : Scan s' rows')
    (h' : Trail (handler K) Alone v (leaderShardSync (D.fleet v) rows') s' log' (.ret r') s'')
    (hok : ∀ e ∈ log', ¬ Failed e) :
    s''.table k ≠ none ↔ s'.table k ≠ none ∨
      Sought s.stream (completedKeys rows) (rows'.flatMap Lease.parents)
        (decide (v = w) || (s.mem v).syncState.seeded)
        (fun p => p ∈ (s.mem v).syncState.childSynced ∨ v = w ∧ Answered log p) k := by
  have hgrows : Grows w s s' := grows_of_moves h.moves (leaderShardSync_discovering hsrc h)
  have hnoted := noted_of_sync hsrc h ⟨_, he, fun hi => hi⟩
  have hcompleted : ∀ p, p ∈ completedKeys rows' ↔ p ∈ completedKeys rows :=
    fun p => completedKeys_of_grows hgrows hs hs'
  rw [row_iff_sync hsrc h' hs' hok]
  unfold Sought
  simp only [hgrows.stream, hcompleted]
  by_cases hv : v = w
  · subst hv
    simp only [hnoted.1, hnoted.2, decide_true, Bool.true_or, if_true, true_and]
  · simp only [hgrows.others v hv, hv, decide_false, Bool.false_or, false_and, or_false]

end

def rootWorld : World :=
  { plainFleet.init with stream := ⟨[⟨"a", []⟩], ["a"], fun _ => [], fun _ => false⟩ }

theorem rootWorld_scan : Scan rootWorld [] := by
  intro k r
  simp [rootWorld, Deployment.init]

def unpublishedRoot : World := syncedWorld [] "w" [.ok, .ok, .ok, .fault ⟨none⟩, .ok] rootWorld

/-- The seed of another leader makes up for it. -/
theorem failed_publication_retried_other_leader :
    unpublishedRoot.table "a" = none ∧
      (syncedWorld [] "v" [.ok, .ok, .ok, .ok, .ok] unpublishedRoot).table "a" ≠ none := by
  have h : Trail (handler exactContract) Alone "w" (leaderShardSync (plainFleet.fleet "w") []) rootWorld _ (.ret _)
      unpublishedRoot := .of_script (l := [.ok, .ok, .ok, .fault ⟨none⟩, .ok]) rfl
  have h' : Trail (handler exactContract) Alone "v" (leaderShardSync (plainFleet.fleet "v") []) unpublishedRoot _
      (.ret _) (syncedWorld [] "v" [.ok, .ok, .ok, .ok, .ok] unpublishedRoot) :=
    .of_script (l := [.ok, .ok, .ok, .ok, .ok]) rfl
  have hfailed : ∀ l, (⟨.db "a" (.createShardLease [] none), .error ⟨none⟩⟩ : (r : Req) × Resp r) ∈
      ⟨.db "a" (.createShardLease [] none), .error ⟨none⟩⟩ :: l := fun l => List.mem_cons_self
  refine ⟨rfl, ?_⟩
  refine (failed_publication_retried_iff rfl rootWorld_scan h (List.mem_cons_of_mem _ (List.mem_cons_of_mem _
    (List.mem_cons_of_mem _ (hfailed _)))) rootWorld_scan h' ?_).mpr (Or.inr ?_)
  · simp [Failed]
  · exact ⟨⟨"a", []⟩, by decide, rfl, by decide⟩

/-- The same leader counts as seeded and never looks at the root again. -/
theorem failed_publication_hidden :
    ¬ ∀ (D : Deployment) (K : Contract) (w v : Worker) (s s' s'' : World) (rows rows' : List Lease)
      (log log' : List ((r : Req) × Resp r)) (r r' : Except WorkerError Unit) (k : ShardId) (ps : List ShardId)
      (cp : Option SequenceNumber) (e : AwsError), D.source = contractSource → Scan s rows →
      Trail (handler K) Alone w (leaderShardSync (D.fleet w) rows) s log (.ret r) s' →
      (⟨.db k (.createShardLease ps cp), .error e⟩ : (r : Req) × Resp r) ∈ log →
      e.code ≠ some CONDITIONAL_CHECK_FAILED → Scan s' rows' →
      Trail (handler K) Alone v (leaderShardSync (D.fleet v) rows') s' log' (.ret r') s'' →
      (∀ e ∈ log', ¬ Failed e) → s''.table k ≠ none := by
  intro hall
  have h : Trail (handler exactContract) Alone "w" (leaderShardSync (plainFleet.fleet "w") []) rootWorld _ (.ret _)
      unpublishedRoot := .of_script (l := [.ok, .ok, .ok, .fault ⟨none⟩, .ok]) rfl
  have h' : Trail (handler exactContract) Alone "w" (leaderShardSync (plainFleet.fleet "w") []) unpublishedRoot _
      (.ret _) (syncedWorld [] "w" [.ok, .order [], .ok] unpublishedRoot) := .of_script (l := [.ok, .order [], .ok]) rfl
  refine hall plainFleet exactContract "w" "w" _ _ _ [] [] _ _ _ _ "a" [] none ⟨none⟩ rfl rootWorld_scan h ?_ (by decide)
    rootWorld_scan h' ?_ rfl
  · exact List.mem_cons_of_mem _ (List.mem_cons_of_mem _ (List.mem_cons_of_mem _ List.mem_cons_self))
  · simp [Failed]

end StreamsConsumer
