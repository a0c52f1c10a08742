import StreamsConsumer.Worker.Order
import StreamsConsumer.Worker.SyncTrail

/-!
# What a leader discovers

A leader asks for the children of a completed parent once, and not at all while
some row names the parent. `discovery_complete` says that these are the only
ways to miss a child: whatever the other workers do meanwhile, every other child
of a completed parent has a row, or had one that was completed.
-/

namespace StreamsConsumer
open Conc

/-- The shard has a row, or had one that was marked completed. -/
def Had (s : World) (k : ShardId) : Prop := s.table k ≠ none ∨ MarkedIn s.trace k

/-- Rows disappear only once they are completed, and the trace remembers who completed them. -/
structure Accounted (s : World) : Prop where
  sane : Sane s
  completed : ∀ r ∈ s.history, r.completed = true → MarkedIn s.trace r.leaseKey
  had : ∀ r ∈ s.history, Had s r.leaseKey
  deleted : ∀ v k row, Event.wrote v k .deleteLease row ∈ s.trace → MarkedIn s.trace k

section
variable {D : Deployment} {K : Contract} {w v : Worker} {s t : World} {k : ShardId}

theorem Had.mono (h : Had s k) (ht : s.table k ≠ none → t.table k ≠ none) (hx : s.trace <:+ t.trace) : Had t k :=
  h.imp ht fun hm => hm.mono hx

theorem Accounted.init (D : Deployment) : Accounted D.init where
  sane := Sane.init D
  completed _ h := by cases h
  had _ h := by cases h
  deleted _ _ _ h := by cases h

theorem Accounted.marked (hi : Accounted s) {r : Lease} (hr : s.table k = some r) (hc : r.completed = true) :
    MarkedIn s.trace k := by
  obtain ⟨hm, hkey⟩ := hi.sane.held k r hr
  have hmark := hi.completed r hm hc
  rwa [hkey] at hmark

theorem Accounted.marked_delete (hi : Accounted s) {row : Option Lease}
    (ha : DbOp.deleteLease.apply k (s.table k) = some row) : MarkedIn s.trace k := by
  cases hr : s.table k with
  | none => simp [hr, DbOp.apply] at ha
  | some r =>
    simp only [hr, DbOp.apply, Option.ite_none_right_eq_some] at ha
    exact hi.marked hr ha.1

theorem Accounted.had_write (hi : Accounted s) {key : ShardId} {op : DbOp} {row : Option Lease}
    (ha : op.apply key (s.table key) = some row) (h : Had s k) : Had (s.write w key op row) k := by
  by_cases hk : k = key
  · subst hk
    by_cases hd : op = .deleteLease
    · subst hd
      exact Or.inr ((hi.marked_delete ha).mono (List.suffix_cons _ _))
    · left
      rw [World.write_table_self]
      cases hr : s.table k with
      | none =>
        rw [hr] at ha
        cases op <;> simp [DbOp.apply] at ha
        all_goals simp [← ha]
      | some r =>
        rw [hr] at ha
        obtain ⟨r', rfl, _⟩ := DbOp.apply_some ha hd
        simp
  · refine h.mono ?_ (List.suffix_cons _ _)
    intro hne
    rwa [World.write_table_of_ne s hk]

theorem Accounted.write (hi : Accounted s) {key : ShardId} {op : DbOp} {row : Option Lease}
    (ha : op.apply key (s.table key) = some row) : Accounted (s.write w key op row) := by
  have hkey : ∀ r, row = some r → r.leaseKey = key := by
    rintro r rfl
    exact DbOp.apply_key ha fun r₀ h₀ => (hi.sane.held key r₀ h₀).2
  refine ⟨hi.sane.write ha, ?_, ?_, ?_⟩
  · intro r hr hc
    rcases World.mem_write_history hr with rfl | hr
    · rw [hkey r rfl]
      rcases (DbOp.apply_origin ha).2 hc with ⟨r₀, hr₀, hc₀⟩ | ⟨o, c, rfl⟩
      · exact (hi.marked hr₀ hc₀).mono (List.suffix_cons _ _)
      · exact ⟨w, o, c, _, List.mem_cons_self⟩
    · exact (hi.completed r hr hc).mono (List.suffix_cons _ _)
  · intro r hr
    rcases World.mem_write_history hr with rfl | hr
    · rw [hkey r rfl]
      exact Or.inl (by simp)
    · exact hi.had_write ha (hi.had r hr)
  · intro v k row' hm
    rcases List.mem_cons.mp hm with e | hm
    · cases e
      exact (hi.marked_delete ha).mono (List.suffix_cons _ _)
    · exact (hi.deleted v k row' hm).mono (List.suffix_cons _ _)

theorem Accounted.keep (hi : Accounted s) (hs : Sane t) (ht : t.table = s.table) (hh : t.history = s.history)
    (hx : s.trace <:+ t.trace) (hd : ∀ v k row, Event.wrote v k .deleteLease row ∈ t.trace →
      Event.wrote v k .deleteLease row ∈ s.trace) : Accounted t where
  sane := hs
  completed r hr hc := (hi.completed r (hh ▸ hr) hc).mono hx
  had r hr := (hi.had r (hh ▸ hr)).mono (fun h => ht ▸ h) hx
  deleted v k row hm := (hi.deleted v k row (hd v k row hm)).mono hx

/-! ## The world moves on -/

/-- From `s` to `t` nothing was forgotten. -/
structure Ahead (s t : World) : Prop where
  extend : Extends s t
  accounted : Accounted s → Accounted t
  had : Accounted s → ∀ k, Had s k → Had t k

theorem Ahead.refl (s : World) : Ahead s s := ⟨.refl s, fun h => h, fun _ _ h => h⟩

theorem Ahead.trans {u : World} (h₁ : Ahead s t) (h₂ : Ahead t u) : Ahead s u where
  extend := h₁.extend.trans h₂.extend
  accounted hi := h₂.accounted (h₁.accounted hi)
  had hi k hk := h₂.had (h₁.accounted hi) k (h₁.had hi k hk)

theorem Ahead.setMem (s : World) (w : Worker) (m : Memory) : Ahead s (s.setMem w m) :=
  ⟨.setMem s w m, fun hi => hi.keep (hi.sane.setMem w m) rfl rfl List.suffix_rfl fun _ _ _ h => h, fun _ _ hk => hk⟩

theorem Ahead.record (s : World) {e : Event} (he : ∀ k, e ≠ .trimmed k)
    (hd : ∀ v k row, e ≠ .wrote v k .deleteLease row) : Ahead s (s.record e) := by
  refine ⟨.record s e, ?_, ?_⟩
  · intro hi
    refine hi.keep (hi.sane.record he) rfl rfl (List.suffix_cons _ _) ?_
    intro v k row hm
    rcases List.mem_cons.mp hm with e' | hm
    · exact absurd e'.symm (hd v k row)
    · exact hm
  · intro _ k hk
    exact hk.mono (fun h => h) (List.suffix_cons _ _)

theorem Ahead.exec {r : Req} {c : Choice} {a : Resp r} (h : exec K v r c s = some (a, t)) : Ahead s t := by
  rcases exec_cases h with rfl | ⟨_, f, _, rfl⟩ | ⟨key, op, row, _, ha, rfl⟩ | ⟨_, _, _, _, rfl⟩ | ⟨_, _, _, rfl⟩ |
    ⟨_, _, rfl⟩
  · exact .refl _
  · exact .setMem s v _
  · exact ⟨.write s v key op row, fun hi => hi.write ha, fun hi k hk => hi.had_write ha hk⟩
  · exact .record s (by simp) (by simp)
  · exact .record s (by simp) (by simp)
  · exact .record s (by simp) (by simp)

theorem Ahead.env {e : Env} (h : envStep e s = some t) : Ahead s t := by
  obtain ⟨ht, hh, _, htr⟩ := envStep_frame h
  have hx := Extends.env h
  refine ⟨hx, ?_, ?_⟩
  · intro hi
    refine hi.keep (hi.sane.env h) ht hh hx.trace ?_
    intro v k row hm
    rcases htr _ hm with hm | ⟨_, e'⟩
    · exact hm
    · cases e'
  · intro _ k hk
    exact hk.mono (fun hne => ht ▸ hne) hx.trace

theorem accounted_of_reachable {p : FleetPool} (hp : D.Reachable K p) : Accounted p.world := by
  refine Pool.Reaches.invariant ?_ ?_ ?_ hp (Accounted.init D)
  · intro w r c s a s' hi h
    exact (Ahead.exec h).accounted hi
  · intro e s s' hi h
    exact (Ahead.env h).accounted hi
  · intro w s hi
    exact (Ahead.setMem s w _).accounted hi

end

/-! ## The run of a leader -/

/-- What happens around the syncs of `w`: steps of the stream, of other workers, and of `w` itself as far as they
leave its sync state alone. -/
inductive Around (D : Deployment) (K : Contract) (w : Worker) : World → World → Prop where
  | exec {s t : World} {v : Worker} {r : Req} {c : Choice} {a : Resp r} (h : exec K v r c s = some (a, t))
      (hsync : (t.mem w).syncState = (s.mem w).syncState) (hask : v = w → ∀ p, r ≠ .describeChildShards p) :
      Around D K w s t
  | env {s t : World} {e : Env} (h : envStep e s = some t) : Around D K w s t
  | reset (s : World) {v : Worker} (hv : v ≠ w) : Around D K w s (s.setMem v (Memory.init (D.config v)))

/-- A run of one leader in which no call of its syncs fails. The rows of a sync come from a scan. -/
inductive LeaderRun (D : Deployment) (K : Contract) (w : Worker) (s₀ : World) : World → Prop where
  | start : LeaderRun D K w s₀ s₀
  | around {s t : World} (h : LeaderRun D K w s₀ s) (ha : Around D K w s t) : LeaderRun D K w s₀ t
  | sync {s t : World} {rows : List Lease} {log : List ((r : Req) × Resp r)} {r : Except WorkerError Unit}
      (h : LeaderRun D K w s₀ s) (hrows : ∀ r ∈ rows, r ∈ s.history)
      (ht : Trail (handler K) (Around D K w) w (leaderShardSync (D.fleet w) rows) s log (.ret r) t)
      (hok : ∀ e ∈ log, ¬ Failed e) : LeaderRun D K w s₀ t

/-- Since `s₀` the leader was told the children of `p`. -/
def Asked (s₀ t : World) (w : Worker) (p : ShardId) (cs : List ShardMeta) : Prop :=
  ∃ new, t.trace = new ++ s₀.trace ∧ Event.listed w p cs ∈ new

/-- Every parent that counts as synced was asked for its children, and they are all accounted for. -/
structure Discovered (w : Worker) (s₀ s : World) : Prop where
  accounted : Accounted s
  since : s₀.trace <:+ s.trace
  synced : ∀ q ∈ (s.mem w).syncState.childSynced, ∃ cs, Asked s₀ s w q cs ∧ ∀ c ∈ cs, Had s c.id

section
variable {D : Deployment} {K : Contract} {w : Worker} {s₀ s t : World} {rows : List Lease} {p : ShardId}
  {cs : List ShardMeta} {log : List ((r : Req) × Resp r)}

theorem Asked.mono (h : Asked s₀ s w p cs) (hx : s.trace <:+ t.trace) : Asked s₀ t w p cs := by
  obtain ⟨new, e, hm⟩ := h
  obtain ⟨new', e'⟩ := hx
  refine ⟨new' ++ new, ?_, List.mem_append_right _ hm⟩
  rw [← e', e, List.append_assoc]

theorem Around.ahead (h : Around D K w s t) : Ahead s t ∧ (t.mem w).syncState = (s.mem w).syncState := by
  cases h with
  | exec h hsync _ => exact ⟨.exec h, hsync⟩
  | env h => exact ⟨.env h, by rw [(envStep_frame h).2.2.1]⟩
  | reset hv => exact ⟨.setMem s _ _, by simp [World.setMem, Ne.symm hv]⟩

theorem ahead_of_moves (h : Moves (handler K) (Around D K w) w s log t) : Ahead s t := by
  refine h.rel Ahead.refl Ahead.trans ?_ ?_
  · intro _ _ ha
    exact ha.ahead.1
  · intro _ _ _ _ _ he
    exact .exec he

theorem sync_of_moves (h : Moves (handler K) (Around D K w) w s log t) (hlog : ∀ e ∈ log, Outer e.1) :
    (t.mem w).syncState = (s.mem w).syncState := by
  refine h.rel (L := fun s t => (t.mem w).syncState = (s.mem w).syncState) ?_ ?_ ?_ ?_
  · intro _
    rfl
  · intro _ _ _ h₁ h₂
    exact h₂.trans h₁
  · intro _ _ ha
    exact ha.ahead.2
  · intro e he _ _ _ hx
    rw [exec_outer (hlog e he) hx]

theorem Discovered.ahead (hi : Discovered w s₀ s) (h : Ahead s t) (hsync : (t.mem w).syncState = (s.mem w).syncState) :
    Discovered w s₀ t where
  accounted := h.accounted hi.accounted
  since := hi.since.trans h.extend.trace
  synced q hq := by
    rw [hsync] at hq
    obtain ⟨cs, hcs, hhad⟩ := hi.synced q hq
    exact ⟨cs, hcs.mono h.extend.trace, fun c hc => h.had hi.accounted c.id (hhad c hc)⟩

theorem asked_of_parent (hsrc : D.source = contractSource) {skip ps newly : List ShardId} {completed : List ShardId}
    (hi : Accounted s) (hs : s₀.trace <:+ s.trace) (hrows : ∀ r ∈ rows, r ∈ s.history)
    (h : Trail (handler K) (Around D K w) w
      (syncParents (D.fleet w) rows completed (rows.map Lease.leaseKey) skip ps) s log (.ret newly) t)
    (hok : ∀ e ∈ log, ¬ Failed e) (hp : p ∈ ps) (hskip : p ∉ skip) :
    ∃ cs, Asked s₀ t w p cs ∧ ∀ c ∈ cs, Had t c.id := by
  obtain ⟨s₁, t₁, l₁, l, l₂, b, rfl, hm₁, hrun, hm₂⟩ := moves_syncParents hskip h hp
  have h₁ : Ahead s s₁ := ahead_of_moves hm₁
  have h₂ : Ahead t₁ t := ahead_of_moves hm₂
  obtain ⟨s₂, l₃, l₄, _, hs₂, _, hm₄, hchildren⟩ := rows_of_parent hsrc hrun fun e he => hok e (by simp [he])
  have hlast : Ahead (s₂.record (.listed w p (s₂.stream.children p))) t := (ahead_of_moves hm₄).trans h₂
  refine ⟨s₂.stream.children p, ?_, ?_⟩
  · have hahead : Ahead s s₂ := h₁.trans (ahead_of_moves (Moves.others hs₂))
    obtain ⟨new, e⟩ := hs.trans hahead.extend.trace
    have hnow : Asked s₀ (s₂.record (.listed w p (s₂.stream.children p))) w p (s₂.stream.children p) :=
      ⟨.listed w p (s₂.stream.children p) :: new, by simp [World.record, ← e], List.mem_cons_self⟩
    exact hnow.mono hlast.extend.trace
  · intro c hc
    by_cases hex : c.id ∈ rows.map Lease.leaseKey
    · obtain ⟨r, hr, hkey⟩ := List.mem_map.mp hex
      have hhad := hi.had r (hrows r hr)
      rw [hkey] at hhad
      exact (ahead_of_moves h.moves).had hi c.id hhad
    · obtain ⟨u, l₅, l₆, _, hm₅, hu, hm₆⟩ := hchildren c hc hex
      have hiu : Accounted u := (h₁.trans (ahead_of_moves hm₅)).accounted hi
      exact ((ahead_of_moves hm₆).trans h₂).had hiu c.id (Or.inl hu)

/-- What a seeded sync without failures leaves: each completed parent that no row names was asked at some time, and
its children are accounted for. -/
theorem discovered_of_discovers (hsrc : D.source = contractSource) (hi : Discovered w s₀ s)
    (hrows : ∀ r ∈ rows, r ∈ s.history) (d : Discovers D K w (Around D K w) rows s log t)
    (hok : ∀ e ∈ log, ¬ Failed e) : Discovered w s₀ t ∧
      ∀ q ∈ completedKeys rows, q ∉ rows.flatMap Lease.parents → ∃ cs, Asked s₀ t w q cs ∧ ∀ c ∈ cs, Had t c.id := by
  obtain ⟨at₁, at₂, at₃, at₄, order, newly, pre, mid, post, rfl, _, _, h₁, h₂, hrun, h₃, h₄⟩ := d
  have hmid : ∀ e ∈ mid, ¬ Failed e := fun e he => hok e (by simp [he])
  have hout : ∀ e ∈ mid, Outer e.1 := hrun.uses (uses_syncParents syncing_outer rfl hsrc _)
  have hread : Moves (handler K) (Around D K w) w s [] at₁ := Moves.others h₁
  have hfirst : Moves (handler K) (Around D K w) w s [] at₂ := Moves.others (h₁.trans h₂)
  have hthird : Moves (handler K) (Around D K w) w at₃ [] at₄ := Moves.others h₃
  have hlast : Moves (handler K) (Around D K w) w _ [] t := Moves.others h₄
  have hd₂ : Discovered w s₀ at₂ := hi.ahead (ahead_of_moves hfirst) (sync_of_moves hfirst (by simp))
  have hd₃ : Discovered w s₀ at₃ := hd₂.ahead (ahead_of_moves hrun.moves) (sync_of_moves hrun.moves hout)
  have hd₄ : Discovered w s₀ at₄ := hd₃.ahead (ahead_of_moves hthird) (sync_of_moves hthird (by simp))
  have hfour : Ahead at₄ t := (Ahead.setMem at₄ w _).trans (ahead_of_moves hlast)
  have hthree : Ahead at₃ t := (ahead_of_moves hthird).trans hfour
  -- what was noted before is the same at every point of the sync
  have hsame : (at₄.mem w).syncState = (at₁.mem w).syncState := by
    rw [sync_of_moves hread (by simp), sync_of_moves hthird (by simp), sync_of_moves hrun.moves hout,
      sync_of_moves hfirst (by simp)]
  have hold : ∀ q ∈ (at₄.mem w).syncState.childSynced, ∃ cs, Asked s₀ t w q cs ∧ ∀ c ∈ cs, Had t c.id := by
    intro q hq
    obtain ⟨cs, hcs, hhad⟩ := hd₄.synced q hq
    exact ⟨cs, hcs.mono hfour.extend.trace, fun c hc => hfour.had hd₄.accounted c.id (hhad c hc)⟩
  have hnew : ∀ q ∈ hashIter order id (completedKeys rows).dedup,
      q ∉ (at₁.mem w).syncState.childSynced ++ rows.flatMap Lease.parents →
      ∃ cs, Asked s₀ t w q cs ∧ ∀ c ∈ cs, Had t c.id := by
    intro q hq hskip
    have hrows₂ : ∀ r ∈ rows, r ∈ at₂.history := fun r hr => (ahead_of_moves hfirst).extend.history.mem (hrows r hr)
    obtain ⟨cs, hcs, hhad⟩ := asked_of_parent hsrc hd₂.accounted hd₂.since hrows₂ hrun hmid hq hskip
    exact ⟨cs, hcs.mono hthree.extend.trace, fun c hc => hthree.had hd₃.accounted c.id (hhad c hc)⟩
  constructor
  · refine ⟨hfour.accounted hd₄.accounted, hd₄.since.trans hfour.extend.trace, ?_⟩
    intro q hq
    rw [sync_of_moves hlast (by simp)] at hq
    have hq' : q ∈ newly ∨ q ∈ (at₄.mem w).syncState.childSynced := by simpa [World.setMem] using hq
    rcases hq' with hq | hq
    · obtain ⟨hps, hskip⟩ := mem_of_synced hrun hq
      exact hnew q hps hskip
    · exact hold q hq
  · intro q hq hpar
    by_cases hs : q ∈ (at₁.mem w).syncState.childSynced
    · rw [← hsame] at hs
      exact hold q hs
    · refine hnew q (mem_hashIter_dedup hq) ?_
      rw [List.mem_append, not_or]
      exact ⟨hs, hpar⟩

theorem discovered_of_seeds (hi : Discovered w s₀ s) (d : Seeds D K w (Around D K w) rows s log t) :
    Discovered w s₀ t := by
  obtain ⟨at₁, at₂, at₃, at₄, pre, mid, post, rfl, _, _, h₁, h₂, hrun, h₃, h₄⟩ := d
  have hout : ∀ e ∈ mid, Outer e.1 := hrun.uses (uses_seedRoots rfl fun m _ _ => syncing_outer.create _ _ _)
  have hfirst : Moves (handler K) (Around D K w) w s [] at₂ := Moves.others (h₁.trans h₂)
  have hmoves : Moves (handler K) (Around D K w) w s ([] ++ mid ++ []) at₄ :=
    (hfirst.trans hrun.moves).trans (Moves.others h₃)
  have hlast : Moves (handler K) (Around D K w) w _ [] t := Moves.others h₄
  have hd₄ : Discovered w s₀ at₄ := hi.ahead (ahead_of_moves hmoves) (sync_of_moves hmoves (by simpa using hout))
  have hfour : Ahead at₄ t := (Ahead.setMem at₄ w _).trans (ahead_of_moves hlast)
  refine ⟨hfour.accounted hd₄.accounted, hd₄.since.trans hfour.extend.trace, ?_⟩
  intro q hq
  rw [sync_of_moves hlast (by simp)] at hq
  have hq' : q ∈ (at₄.mem w).syncState.childSynced := by simpa [World.setMem] using hq
  obtain ⟨cs, hcs, hhad⟩ := hd₄.synced q hq'
  exact ⟨cs, hcs.mono hfour.extend.trace, fun c hc => hfour.had hd₄.accounted c.id (hhad c hc)⟩

theorem LeaderRun.discovered (hsrc : D.source = contractSource) (hrun : LeaderRun D K w s₀ s)
    (h₀ : Discovered w s₀ s₀) : Discovered w s₀ s := by
  induction hrun with
  | start => exact h₀
  | around _ ha ih => exact ih.ahead ha.ahead.1 ha.ahead.2
  | sync _ hrows ht hok ih =>
    rcases trail_leaderShardSync hsrc ht with ⟨⟨d⟩⟩ | ⟨⟨d⟩⟩ | ⟨_, e, he, hf⟩
    · exact (discovered_of_discovers hsrc ih hrows d hok).1
    · exact discovered_of_seeds ih d
    · exact absurd hf (hok e he)

/-- After each sync that follows the seed, a child of completed parents has a row, or had one that was marked
completed, or every one of its parents was passed over: some row names it, or this leader was told its children when
the child was not among them. -/
theorem discovery_complete (hsrc : D.source = contractSource) {p : FleetPool} (hp : D.Reachable K p)
    (hfresh : (p.world.mem w).syncState = (Memory.init (D.config w)).syncState) (hrun : LeaderRun D K w p.world s)
    (hseed : (s.mem w).syncState.seeded = true) (hrows : ∀ r ∈ rows, r ∈ s.history) {r : Except WorkerError Unit}
    (h : Trail (handler K) (Around D K w) w (leaderShardSync (D.fleet w) rows) s log (.ret r) t)
    (hok : ∀ e ∈ log, ¬ Failed e) {m : ShardMeta} (hdone : ∀ q ∈ m.parents, q ∈ completedKeys rows) :
    t.table m.id ≠ none ∨ MarkedIn t.trace m.id ∨ ∀ q ∈ m.parents, q ∈ rows.flatMap Lease.parents ∨
      ∃ cs, Asked p.world t w q cs ∧ m ∉ cs := by
  have h₀ : Discovered w p.world p.world := by
    refine ⟨accounted_of_reachable hp, List.suffix_rfl, ?_⟩
    intro q hq
    rw [hfresh] at hq
    cases hq
  have hi : Discovered w p.world s := hrun.discovered hsrc h₀
  rw [← or_assoc, or_iff_not_imp_left]
  intro hnot q hq
  rw [or_iff_not_imp_left]
  intro hpar
  rcases trail_leaderShardSync hsrc h with ⟨⟨d⟩⟩ | ⟨⟨d⟩⟩ | ⟨_, e, he, hf⟩
  · obtain ⟨cs, hcs, hhad⟩ := (discovered_of_discovers hsrc hi hrows d hok).2 q (hdone q hq) hpar
    exact ⟨cs, hcs, fun hm => hnot (hhad m hm)⟩
  · have hsame : (d.at₁.mem w).syncState = (s.mem w).syncState :=
      sync_of_moves (Moves.others (H := handler K) d.first) (by simp)
    have hun := d.unseeded
    rw [hsame, hseed] at hun
    cases hun
  · exact absurd hf (hok e he)

end

/-! ## A child that is seen too late -/

def moved (e : Env) (s : World) : World := (envStep e s).getD s

def served (v : Worker) (r : Req) (s : World) : World := ((exec exactContract v r .ok s).map Prod.snd).getD s

def rootSeeded : World := syncedWorld [] "w" [.ok, .ok, .ok, .ok, .ok] (moved (.appear ⟨"root", []⟩) plainFleet.init)

def rootDone : World :=
  served "v" (.db "root" (.markComplete "v" 1)) (served "v" (.db "root" (.claim "v" 0)) rootSeeded)

def rootDoneRows : List Lease := [⟨"root", some "v", 1, true, none, []⟩]

theorem rootDone_run : LeaderRun plainFleet exactContract "w" plainFleet.init rootDone := by
  have hseed : Trail (handler exactContract) (Around plainFleet exactContract "w") "w"
      (leaderShardSync (plainFleet.fleet "w") []) (moved (.appear ⟨"root", []⟩) plainFleet.init) _ (.ret _) rootSeeded :=
    .of_script (l := [.ok, .ok, .ok, .ok, .ok]) rfl
  have hrun : LeaderRun plainFleet exactContract "w" plainFleet.init rootSeeded := by
    refine .sync (.around .start (.env (e := .appear ⟨"root", []⟩) rfl)) (by simp) hseed ?_
    simp [Failed]
  have hclaim : Around plainFleet exactContract "w" rootSeeded (served "v" (.db "root" (.claim "v" 0)) rootSeeded) :=
    .exec (v := "v") (r := .db "root" (.claim "v" 0)) (c := .ok) rfl rfl (by simp)
  have hdone : Around plainFleet exactContract "w" (served "v" (.db "root" (.claim "v" 0)) rootSeeded) rootDone :=
    .exec (v := "v") (r := .db "root" (.markComplete "v" 1)) (c := .ok) rfl rfl (by simp)
  exact .around (.around hrun hclaim) hdone

def childMeta : ShardMeta := ⟨"child", ["root"]⟩

theorem rootDone_row : ∀ r ∈ rootDoneRows, r ∈ rootDone.history := by decide

def childSeen : World := moved (.appear childMeta) rootDone

theorem discovery_complete_child :
    (syncedWorld rootDoneRows "w" [.ok, .order [], .ok, .ok, .ok, .ok] childSeen).table "child" ≠ none ∨
      MarkedIn (syncedWorld rootDoneRows "w" [.ok, .order [], .ok, .ok, .ok, .ok] childSeen).trace "child" ∨
      ∀ q ∈ ["root"], q ∈ rootDoneRows.flatMap Lease.parents ∨ ∃ cs, Asked plainFleet.init
        (syncedWorld rootDoneRows "w" [.ok, .order [], .ok, .ok, .ok, .ok] childSeen) "w" q cs ∧ childMeta ∉ cs := by
  have hrun : LeaderRun plainFleet exactContract "w" plainFleet.init childSeen :=
    .around rootDone_run (.env (e := .appear childMeta) rfl)
  have h : Trail (handler exactContract) (Around plainFleet exactContract "w") "w"
      (leaderShardSync (plainFleet.fleet "w") rootDoneRows) childSeen _ (.ret _)
      (syncedWorld rootDoneRows "w" [.ok, .order [], .ok, .ok, .ok, .ok] childSeen) :=
    .of_script (l := [.ok, .order [], .ok, .ok, .ok, .ok]) rfl
  refine discovery_complete (m := childMeta) rfl (Deployment.reachable_idle plainFleet exactContract) rfl hrun rfl
    rootDone_row h ?_ (by decide)
  simp [Failed]

def childLate : World := moved (.appear childMeta) (syncedWorld rootDoneRows "w" [.ok, .order [], .ok, .ok, .ok] rootDone)

theorem late_child_not_published :
    ¬ ∀ (D : Deployment) (K : Contract) (w : Worker) (p : FleetPool) (s t : World) (rows : List Lease)
      (log : List ((r : Req) × Resp r)) (r : Except WorkerError Unit), D.source = contractSource → D.Reachable K p →
      (p.world.mem w).syncState = (Memory.init (D.config w)).syncState → LeaderRun D K w p.world s →
      (s.mem w).syncState.seeded = true → (∀ r ∈ rows, r ∈ s.history) →
      Trail (handler K) (Around D K w) w (leaderShardSync (D.fleet w) rows) s log (.ret r) t →
      (∀ e ∈ log, ¬ Failed e) → (∀ k, Event.trimmed k ∉ t.trace) →
      ∀ m ∈ t.stream.metas, m.id ∈ t.stream.listed → m.parents ≠ [] → (∀ q ∈ m.parents, q ∈ completedKeys rows) →
        t.table m.id ≠ none ∨ MarkedIn t.trace m.id := by
  intro hall
  have hasked : Trail (handler exactContract) (Around plainFleet exactContract "w") "w"
      (leaderShardSync (plainFleet.fleet "w") rootDoneRows) rootDone _ (.ret _)
      (syncedWorld rootDoneRows "w" [.ok, .order [], .ok, .ok, .ok] rootDone) :=
    .of_script (l := [.ok, .order [], .ok, .ok, .ok]) rfl
  have hrun : LeaderRun plainFleet exactContract "w" plainFleet.init childLate := by
    refine .around (.sync rootDone_run rootDone_row hasked ?_) (.env (e := .appear childMeta) rfl)
    simp [Failed]
  have h : Trail (handler exactContract) (Around plainFleet exactContract "w") "w"
      (leaderShardSync (plainFleet.fleet "w") rootDoneRows) childLate _ (.ret _)
      (syncedWorld rootDoneRows "w" [.ok, .order [], .ok] childLate) := .of_script (l := [.ok, .order [], .ok]) rfl
  have htrace : (syncedWorld rootDoneRows "w" [.ok, .order [], .ok] childLate).trace =
      [.listed "w" "root" [], .wrote "v" "root" (.markComplete "v" 1) (some ⟨"root", some "v", 1, true, none, []⟩),
        .wrote "v" "root" (.claim "v" 0) (some ⟨"root", some "v", 1, false, none, []⟩),
        .wrote "w" "root" (.createShardLease [] none) (some ⟨"root", none, 0, false, none, []⟩)] := rfl
  have hhad := hall plainFleet exactContract "w" (Pool.idle plainFleet.init) childLate _ rootDoneRows _ _ rfl
    (Deployment.reachable_idle plainFleet exactContract) rfl hrun rfl rootDone_row h (by simp [Failed])
    (by simp [htrace]) childMeta (by decide) (by decide) (by decide) (by decide)
  rcases hhad with hrow | ⟨v, o, c, row, hmark⟩
  · exact hrow rfl
  · simp [htrace, childMeta] at hmark

end StreamsConsumer
