import Mathlib.Data.List.Dedup
import StreamsConsumer.Conc.Trail
import StreamsConsumer.Worker.Rules

/-!
# Runs of the shard sync

The requests of `leader_shard_sync` and the runs of its parts. A parent counts
as synced exactly when its CHILD_SHARDS call was answered, and without a failed
call every shard that passes the guard of its path has a row afterwards.
-/

namespace StreamsConsumer
open Conc

/-! ## The requests -/

structure Syncing (P : Req → Prop) : Prop where
  metric : ∀ m, P (.metric m)
  describeShards : P .describeShards
  describeChildShards : ∀ p, P (.describeChildShards p)
  create : ∀ k ps cp, P (.db k (.createShardLease ps cp))

section
variable {P : Req → Prop} {F : Fleet} {rows : List Lease} {completed existing : List ShardId}

theorem uses_req {r : Req} (h : P r) : Uses P (Prog.req r : Fx (Resp r)) := ⟨h, fun _ => trivial⟩

theorem uses_publish {x : ShardMeta} {cp : Option SequenceNumber} (h : P (.db x.id (.createShardLease x.parents cp)))
    (hF : F.leases = dynamoDbLeaseStore) : Uses P (publish F x cp) := by
  unfold publish
  rw [hF]
  apply uses_bind
  · apply uses_bind
    · refine ⟨h, ?_⟩
      intro a
      cases a with
      | ok n => trivial
      | error e =>
        by_cases he : e.code = some CONDITIONAL_CHECK_FAILED
        · simp [he, Prog.bind, Uses]
        · simp [he, Prog.bind, Uses]
    · intro _
      trivial
  · intro _
    trivial

theorem uses_each {β : Type} {f : β → Fx Unit} : ∀ {xs : List β}, (∀ x ∈ xs, Uses P (f x)) → Uses P (Prog.each f xs)
  | [], _ => trivial
  | x :: xs, h => by
    refine uses_bind (h x List.mem_cons_self) ?_
    intro _
    exact uses_each fun y hy => h y (List.mem_cons_of_mem _ hy)

theorem uses_publishChildren {cs : List ShardMeta} (hF : F.leases = dynamoDbLeaseStore)
    (h : ∀ c ∈ cs, P (.db c.id (.createShardLease c.parents (childCp rows c.parents)))) :
    Uses P (publishChildren F rows existing cs) := by
  refine uses_each fun x hx => ?_
  split
  · trivial
  · exact uses_publish (h x hx) hF

theorem uses_publishFallback {ms : List ShardMeta} (hF : F.leases = dynamoDbLeaseStore)
    (h : ∀ k ps cp, P (.db k (.createShardLease ps cp))) :
    Uses P (publishFallback F rows completed existing ms) := by
  refine uses_each fun x _ => ?_
  split
  · exact uses_publish (h _ _ _) hF
  · trivial

theorem uses_seedRoots {ms : List ShardMeta} (hF : F.leases = dynamoDbLeaseStore)
    (h : ∀ m ∈ ms, publishable completed existing m = true →
      P (.db m.id (.createShardLease m.parents F.config.initialPosition.seedCheckpoint))) :
    Uses P (seedRoots F completed existing ms) := by
  refine uses_each fun x hx => ?_
  split
  · rename_i hp
    exact uses_publish (h x hx hp) hF
  · trivial

theorem uses_describeShards (h : Syncing P) : Uses P contractSource.describeShards := by
  apply uses_bind
  · exact uses_req h.describeShards
  · intro _
    trivial

theorem uses_describeChildShards (h : Syncing P) (p : ShardId) : Uses P (contractSource.describeChildShards p) := by
  apply uses_bind
  · exact uses_req (h.describeChildShards p)
  · intro _
    trivial

theorem uses_syncParent (h : Syncing P) (hF : F.leases = dynamoDbLeaseStore) (hS : F.source = contractSource)
    (p : ShardId) : Uses P (syncParent F rows completed existing p) := by
  unfold syncParent
  rw [hS]
  refine uses_bind (uses_req (h.metric _)) fun _ => uses_bind (uses_describeChildShards h p) ?_
  intro r
  cases r with
  | ok cs =>
    refine uses_bind (uses_publishChildren hF fun c _ => h.create _ _ _) ?_
    intro _
    trivial
  | error e =>
    refine uses_bind (uses_req (h.metric _)) fun _ => uses_bind (uses_describeShards h) ?_
    intro r
    cases r with
    | ok ms =>
      refine uses_bind (uses_publishFallback hF h.create) ?_
      intro _
      trivial
    | error e => trivial

theorem uses_syncParents (h : Syncing P) (hF : F.leases = dynamoDbLeaseStore) (hS : F.source = contractSource)
    {skip : List ShardId} : ∀ (ps : List ShardId), Uses P (syncParents F rows completed existing skip ps)
  | [] => trivial
  | p :: ps => by
    unfold syncParents
    split
    · exact uses_syncParents h hF hS ps
    · refine uses_bind (uses_syncParent h hF hS p) ?_
      intro b
      refine uses_bind (uses_syncParents h hF hS ps) ?_
      intro rest
      trivial

theorem uses_leaderShardSync (h : Syncing P) (hm : ∀ {β : Type} (f : Memory → β × Memory), P (.mem f))
    (ho : P .hashOrder) (hF : F.leases = dynamoDbLeaseStore) (hS : F.source = contractSource) :
    Uses P (leaderShardSync F rows) := by
  unfold leaderShardSync
  refine uses_bind (uses_req (hm _)) ?_
  intro sync
  split
  · refine uses_bind (uses_req ho) fun order => uses_bind (uses_syncParents h hF hS _) fun newly => ?_
    refine uses_bind (uses_req (hm _)) ?_
    intro _
    trivial
  · refine uses_bind (uses_req (h.metric _)) fun _ => ?_
    rw [hS]
    refine uses_bind (uses_describeShards h) ?_
    intro r
    cases r with
    | error e => trivial
    | ok ms =>
      refine uses_bind (uses_seedRoots hF fun m _ _ => h.create _ _ _) fun _ => uses_bind (uses_req (hm _)) ?_
      intro _
      trivial

end

theorem mem_hashIter_dedup {order xs : List String} {x : String} (h : x ∈ xs) : x ∈ hashIter order id xs.dedup :=
  mem_hashIter (by simpa using List.nodup_dedup xs) (List.mem_dedup.mpr h)

def Outer : Req → Prop
  | .mem _ => False
  | _ => True

theorem syncing_outer : Syncing Outer := ⟨fun _ => trivial, trivial, fun _ => trivial, fun _ _ _ => trivial⟩

theorem exec_outer {K : Contract} {w : Worker} {s t : World} {r : Req} (hr : Outer r) {c : Choice} {a : Resp r} (h : exec K w r c s = some (a, t)) :
    t.mem = s.mem := by
  rcases exec_cases h with rfl | ⟨_, f, rfl, rfl⟩ | ⟨_, _, _, _, _, rfl⟩ | ⟨_, _, _, _, rfl⟩ | ⟨_, _, _, rfl⟩ |
    ⟨_, _, rfl⟩
  · rfl
  · exact hr.elim
  · rfl
  · rfl
  · rfl
  · rfl

/-! ## The runs -/

/-- A call that failed. A conditional write on a row that is there counts as an answer. -/
def Failed : (e : (r : Req) × Resp r) → Prop
  | ⟨.db _ _, .error e⟩ => e.code ≠ some CONDITIONAL_CHECK_FAILED
  | ⟨.describeShards, .error _⟩ => True
  | ⟨.describeChildShards _, .error _⟩ => True
  | _ => False

/-- CHILD_SHARDS was answered for this parent. -/
def Answered (log : List ((r : Req) × Resp r)) (p : ShardId) : Prop :=
  ∃ cs, (⟨.describeChildShards p, .ok cs⟩ : (r : Req) × Resp r) ∈ log

section
variable {D : Deployment} {K : Contract} {w : Worker} {I : World → World → Prop} {s t : World}
  {log : List ((r : Req) × Resp r)} {rows : List Lease} {completed existing : List ShardId}

theorem trail_publish {x : ShardMeta} {cp : Option SequenceNumber}
    (h : Trail (handler K) I w (publish (D.fleet w) x cp) s log (.ret ()) t) : ∃ s₁ c a s₂,
      Relation.ReflTransGen I s s₁ ∧ execDb w x.id (.createShardLease x.parents cp) c s₁ = some (a, s₂) ∧
        log = [⟨.db x.id (.createShardLease x.parents cp), a⟩] ∧ Relation.ReflTransGen I s₂ t := by
  obtain ⟨s₁, c, a, s₂, l, h₁, he, rfl, hk⟩ := h.of_call
  cases a with
  | ok n =>
    obtain ⟨rfl, _, h₂⟩ := hk.of_ret
    exact ⟨s₁, c, _, s₂, h₁, he, rfl, h₂⟩
  | error e =>
    by_cases hcode : e.code = some CONDITIONAL_CHECK_FAILED
    · simp only [Prog.bind, hcode, if_true] at hk
      obtain ⟨rfl, _, h₂⟩ := hk.of_ret
      exact ⟨s₁, c, _, s₂, h₁, he, rfl, h₂⟩
    · simp only [Prog.bind, hcode, if_false] at hk
      obtain ⟨rfl, _, h₂⟩ := hk.of_ret
      exact ⟨s₁, c, _, s₂, h₁, he, rfl, h₂⟩

theorem row_of_create {k : ShardId} {ps : List ShardId} {cp : Option SequenceNumber} {c : Choice}
    {a : Except AwsError Nat} (h : execDb w k (.createShardLease ps cp) c s = some (a, t))
    (hok : ¬ Failed ⟨.db k (.createShardLease ps cp), a⟩) : t.table k ≠ none := by
  cases hrow : s.table k with
  | none =>
    cases c <;> simp only [execDb, hrow, DbOp.apply, reduceCtorEq] at h
    case ok =>
      cases h
      simp [World.write]
    case fault e =>
      split at h
      · cases h
      · rename_i hcode
        cases h
        exact absurd hcode hok
    case lostReply e =>
      cases h
      simp [World.write]
  | some r =>
    rcases execDb_cases h with ⟨rfl, _⟩ | ⟨row, happ, rfl⟩
    · simp [hrow]
    · simp [hrow, DbOp.apply] at happ

theorem create_adds {k : ShardId} {ps : List ShardId} {cp : Option SequenceNumber} {c : Choice}
    {a : Except AwsError Nat} (h : execDb w k (.createShardLease ps cp) c s = some (a, t)) :
    t = s ∨ (s.table k = none ∧
      t = s.write w k (.createShardLease ps cp) (some ⟨k, none, 0, false, cp, ps⟩)) := by
  rcases execDb_cases h with ⟨rfl, _⟩ | ⟨row, happ, rfl⟩
  · exact Or.inl rfl
  · right
    cases hrow : s.table k with
    | none =>
      simp only [hrow, DbOp.apply, Option.some.injEq] at happ
      exact ⟨rfl, by rw [happ]⟩
    | some r => simp [hrow, DbOp.apply] at happ

theorem trail_syncParent (hsrc : D.source = contractSource) {p : ShardId} {b : Bool}
    (h : Trail (handler K) I w (syncParent (D.fleet w) rows completed existing p) s log (.ret b) t) :
    (∃ s₁ l, Relation.ReflTransGen I s s₁ ∧ b = true ∧
      log = ⟨.metric .describeStream, ()⟩ :: ⟨.describeChildShards p, .ok (s₁.stream.children p)⟩ :: l ∧
      Trail (handler K) I w (publishChildren (D.fleet w) rows existing (s₁.stream.children p))
        (s₁.record (.listed w p (s₁.stream.children p))) l (.ret ()) t) ∨
    (b = false ∧ ∃ e l, log = ⟨.metric .describeStream, ()⟩ :: ⟨.describeChildShards p, .error e⟩ :: l ∧
      ∀ q, ¬ Answered l q) := by
  unfold syncParent at h
  obtain ⟨s₁, c₁, a₁, s₂, l₁, h₁, he₁, rfl, hk₁⟩ := h.of_req
  cases he₁
  have hsource : (D.fleet w).source = contractSource := hsrc
  rw [hsource] at hk₁
  obtain ⟨s₃, c₃, a₃, s₄, l₃, h₃, he₃, rfl, hk₃⟩ := hk₁.of_call
  rcases execChildShards_cases he₃ with ⟨rfl, e, rfl⟩ | ⟨rfl, rfl⟩
  · right
    simp only [Prog.bind, Except.mapError] at hk₃
    obtain ⟨s₅, c₅, a₅, s₆, l₅, _, _, rfl, hk₅⟩ := hk₃.of_req
    obtain ⟨s₇, c₇, a₇, s₈, l₇, _, _, rfl, hk₇⟩ := hk₅.of_call
    have hrest : b = false ∧ ∀ q, ¬ Answered l₇ q := by
      cases a₇ with
      | error e' =>
        obtain ⟨rfl, hb, _⟩ := hk₇.of_ret
        refine ⟨hb, fun q hq => ?_⟩
        obtain ⟨cs, hcs⟩ := hq
        cases hcs
      | ok metas =>
        simp only [Prog.bind, Except.mapError] at hk₇
        obtain ⟨_, u, l₈, l₉, rfl, hpub, hret⟩ := hk₇.of_bind
        obtain ⟨rfl, hb, _⟩ := hret.of_ret
        refine ⟨hb, fun q hq => ?_⟩
        obtain ⟨cs, hcs⟩ := hq
        rw [List.append_nil] at hcs
        have hcreate : ∀ k ps cp, Req.db k (.createShardLease ps cp) ≠ .describeChildShards q := by simp
        exact hpub.uses (P := fun r => r ≠ .describeChildShards q) (uses_publishFallback rfl hcreate) _ hcs rfl
    refine ⟨hrest.1, e, _, rfl, ?_⟩
    intro q hq
    obtain ⟨cs, hcs⟩ := hq
    rcases List.mem_cons.mp hcs with hcs | hcs
    · cases hcs
    rcases List.mem_cons.mp hcs with hcs | hcs
    · cases hcs
    exact hrest.2 q ⟨cs, hcs⟩
  · left
    simp only [Prog.bind, Except.mapError] at hk₃
    obtain ⟨_, u, l₅, l₆, rfl, hpub, hret⟩ := hk₃.of_bind
    obtain ⟨rfl, hb, hu⟩ := hret.of_ret
    rw [List.append_nil]
    refine ⟨s₃, l₅, h₁.trans h₃, hb, rfl, ?_⟩
    have := hpub.trans (.others hu (.ret ()))
    rwa [List.append_nil] at this

theorem answered_syncParent (hsrc : D.source = contractSource) {p q : ShardId} {b : Bool}
    (h : Trail (handler K) I w (syncParent (D.fleet w) rows completed existing p) s log (.ret b) t) :
    Answered log q ↔ b = true ∧ q = p := by
  unfold Answered
  rcases trail_syncParent hsrc h with ⟨s₁, l, _, rfl, rfl, hpub⟩ | ⟨rfl, e, l, rfl, hnone⟩
  · have hcreate : ∀ k ps cp, Req.db k (.createShardLease ps cp) ≠ .describeChildShards q := by simp
    have hnone := hpub.uses (P := fun r => r ≠ .describeChildShards q) (uses_publishChildren rfl fun c _ => hcreate _ _ _)
    constructor
    · intro hq
      obtain ⟨cs, hcs⟩ := hq
      rcases List.mem_cons.mp hcs with hcs | hcs
      · cases hcs
      rcases List.mem_cons.mp hcs with hcs | hcs
      · cases hcs
        exact ⟨rfl, rfl⟩
      · exact absurd rfl (hnone _ hcs)
    · intro hq
      obtain ⟨_, rfl⟩ := hq
      exact ⟨_, List.mem_cons_of_mem _ List.mem_cons_self⟩
  · constructor
    · intro hq
      obtain ⟨cs, hcs⟩ := hq
      rcases List.mem_cons.mp hcs with hcs | hcs
      · cases hcs
      rcases List.mem_cons.mp hcs with hcs | hcs
      · cases hcs
      · exact absurd ⟨cs, hcs⟩ (hnone q)
    · intro hq
      cases hq.1

theorem mem_synced_iff (hsrc : D.source = contractSource) {skip : List ShardId} {q : ShardId} :
    ∀ {ps newly : List ShardId} {s t : World} {log : List ((r : Req) × Resp r)},
      Trail (handler K) I w (syncParents (D.fleet w) rows completed existing skip ps) s log (.ret newly) t →
      (q ∈ newly ↔ Answered log q)
  | [], newly, s, t, log, h => by
    obtain ⟨rfl, rfl, _⟩ := h.of_ret
    simp [Answered]
  | p :: ps, newly, s, t, log, h => by
    unfold syncParents at h
    split at h
    · exact mem_synced_iff hsrc h
    · obtain ⟨b, u, l₁, l₂, rfl, hp, hk⟩ := h.of_bind
      obtain ⟨rest, u', l₃, l₄, rfl, hrest, hret⟩ := hk.of_bind
      obtain ⟨rfl, rfl, _⟩ := hret.of_ret
      have hhead : Answered l₁ q ↔ b = true ∧ q = p := answered_syncParent hsrc hp
      have htail : q ∈ rest ↔ Answered l₃ q := mem_synced_iff hsrc hrest
      have happ : Answered (l₁ ++ (l₃ ++ [])) q ↔ Answered l₁ q ∨ Answered l₃ q := by
        unfold Answered
        simp only [List.append_nil, List.mem_append, exists_or]
      rw [happ, hhead, ← htail]
      by_cases hb : b = true
      · simp [hb]
      · simp [hb]

/-! ## Without a failed call -/

theorem row_of_each {f : ShardMeta → Fx Unit} {xs : List ShardMeta}
    (h : Trail (handler K) I w (Prog.each f xs) s log (.ret ()) t) {x : ShardMeta} (hx : x ∈ xs)
    {cp : Option SequenceNumber} (hf : f x = publish (D.fleet w) x cp) (hok : ∀ e ∈ log, ¬ Failed e) :
    ∃ u l₁ l₂, log = l₁ ++ l₂ ∧ Moves (handler K) I w s l₁ u ∧ u.table x.id ≠ none ∧
      Moves (handler K) I w u l₂ t := by
  obtain ⟨pre, post, s₁, t₁, l₁, l, l₂, rfl, rfl, hpre, hpub, hpost⟩ := h.of_each hx
  rw [hf] at hpub
  obtain ⟨s₂, c, a, u, hs₂, he, rfl, hu⟩ := trail_publish hpub
  refine ⟨u, l₁ ++ [⟨.db x.id (.createShardLease x.parents cp), a⟩], l₂, by simp, ?_, ?_, ?_⟩
  · exact hpre.moves.trans ((Moves.others hs₂).trans (.call (c := c) he (.refl u)))
  · exact row_of_create he (hok _ (by simp))
  · exact (Moves.others hu).trans hpost.moves

theorem rows_of_parent (hsrc : D.source = contractSource) {p : ShardId} {b : Bool}
    (h : Trail (handler K) I w (syncParent (D.fleet w) rows completed existing p) s log (.ret b) t)
    (hok : ∀ e ∈ log, ¬ Failed e) : ∃ s₁ l₁ l₂, log = l₁ ++ l₂ ∧ Relation.ReflTransGen I s s₁ ∧
      Moves (handler K) I w s l₁ (s₁.record (.listed w p (s₁.stream.children p))) ∧
      Moves (handler K) I w (s₁.record (.listed w p (s₁.stream.children p))) l₂ t ∧
      ∀ c ∈ s₁.stream.children p, c.id ∉ existing → ∃ u l₃ l₄, log = l₃ ++ l₄ ∧
        Moves (handler K) I w s l₃ u ∧ u.table c.id ≠ none ∧ Moves (handler K) I w u l₄ t := by
  rcases trail_syncParent hsrc h with ⟨s₁, l, h₁, _, rfl, hpub⟩ | ⟨_, e, l, rfl, _⟩
  · have hasked : Moves (handler K) I w s [⟨.metric .describeStream, ()⟩,
        ⟨.describeChildShards p, .ok (s₁.stream.children p)⟩] (s₁.record (.listed w p (s₁.stream.children p))) :=
      .call (c := .ok) rfl ((Moves.others h₁).trans (.call (c := .ok) rfl (.refl _)))
    refine ⟨s₁, [_, _], l, rfl, h₁, hasked, hpub.moves, ?_⟩
    intro c hc hn
    have hf : (if existing.contains c.id then .ret () else publish (D.fleet w) c (childCp rows c.parents)) =
        publish (D.fleet w) c (childCp rows c.parents) := by simp [hn]
    obtain ⟨u, l₃, l₄, rfl, hu₁, hu, hu₂⟩ := row_of_each hpub hc hf fun e he => hok e (by simp [he])
    exact ⟨u, _, l₄, rfl, hasked.trans hu₁, hu, hu₂⟩
  · exact absurd trivial (hok ⟨.describeChildShards p, .error e⟩ (by simp))

theorem moves_syncParents {skip : List ShardId} {p : ShardId} (hskip : p ∉ skip) :
    ∀ {ps newly : List ShardId} {s t : World} {log : List ((r : Req) × Resp r)},
      Trail (handler K) I w (syncParents (D.fleet w) rows completed existing skip ps) s log (.ret newly) t → p ∈ ps →
      ∃ s₁ t₁ l₁ l l₂ b, log = l₁ ++ (l ++ l₂) ∧ Moves (handler K) I w s l₁ s₁ ∧
        Trail (handler K) I w (syncParent (D.fleet w) rows completed existing p) s₁ l (.ret b) t₁ ∧
        Moves (handler K) I w t₁ l₂ t
  | [], newly, s, t, log, _, hp => by cases hp
  | q :: qs, newly, s, t, log, h, hp => by
    unfold syncParents at h
    split at h
    · rename_i hq
      have hne : p ≠ q := by
        intro e
        subst e
        simp [hskip] at hq
      exact moves_syncParents hskip h (List.mem_of_ne_of_mem hne hp)
    · obtain ⟨b, u, l₁, l₂, rfl, hq, hk⟩ := h.of_bind
      obtain ⟨rest, u', l₃, l₄, rfl, hrest, hret⟩ := hk.of_bind
      obtain ⟨rfl, rfl, hend⟩ := hret.of_ret
      by_cases hpq : p = q
      · subst hpq
        refine ⟨s, u, [], l₁, l₃, b, by simp, .refl _, hq, ?_⟩
        have := hrest.moves.trans (Moves.others hend)
        rwa [List.append_nil] at this
      · obtain ⟨s₁, t₁, m₁, m, m₂, b', rfl, hm₁, hrun, hm₂⟩ :=
          moves_syncParents hskip hrest (List.mem_of_ne_of_mem hpq hp)
        refine ⟨s₁, t₁, l₁ ++ m₁, m, m₂, b', by simp, hq.moves.trans hm₁, hrun, ?_⟩
        have := hm₂.trans (Moves.others hend)
        rwa [List.append_nil] at this

theorem mem_of_synced {skip : List ShardId} {p : ShardId} :
    ∀ {ps newly : List ShardId} {s t : World} {log : List ((r : Req) × Resp r)},
      Trail (handler K) I w (syncParents (D.fleet w) rows completed existing skip ps) s log (.ret newly) t →
      p ∈ newly → p ∈ ps ∧ p ∉ skip
  | [], newly, s, t, log, h, hp => by
    obtain ⟨_, rfl, _⟩ := h.of_ret
    cases hp
  | q :: qs, newly, s, t, log, h, hp => by
    unfold syncParents at h
    split at h
    · obtain ⟨hq, hs⟩ := mem_of_synced h hp
      exact ⟨List.mem_cons_of_mem _ hq, hs⟩
    · rename_i hskip
      obtain ⟨b, u, l₁, l₂, rfl, _, hk⟩ := h.of_bind
      obtain ⟨rest, u', l₃, l₄, rfl, hrest, hret⟩ := hk.of_bind
      obtain ⟨_, rfl, _⟩ := hret.of_ret
      have hcase : p = q ∨ p ∈ rest := by
        by_cases hb : b = true
        · simpa [hb] using hp
        · right
          simpa [hb] using hp
      rcases hcase with rfl | hp
      · exact ⟨List.mem_cons_self, by simpa using hskip⟩
      · obtain ⟨hq, hs⟩ := mem_of_synced hrest hp
        exact ⟨List.mem_cons_of_mem _ hq, hs⟩

/-! ## A whole sync -/

/-- A request that writes no row and asks for no children. -/
def Inner : Req → Prop
  | .mem _ => True
  | .hashOrder => True
  | .metric _ => True
  | .describeShards => True
  | _ => False

/-- The discovery of a sync that is seeded. -/
structure Discovers (D : Deployment) (K : Contract) (w : Worker) (I : World → World → Prop) (rows : List Lease)
    (s : World) (log : List ((r : Req) × Resp r)) (t : World) where
  at₁ : World
  at₂ : World
  at₃ : World
  at₄ : World
  order : List String
  newly : List ShardId
  pre : List ((r : Req) × Resp r)
  mid : List ((r : Req) × Resp r)
  post : List ((r : Req) × Resp r)
  log_eq : log = pre ++ mid ++ post
  inner : ∀ e ∈ pre ++ post, Inner e.1
  seeded : (at₁.mem w).syncState.seeded = true
  first : Relation.ReflTransGen I s at₁
  second : Relation.ReflTransGen I at₁ at₂
  run : Trail (handler K) I w (syncParents (D.fleet w) rows (completedKeys rows) (rows.map Lease.leaseKey)
    ((at₁.mem w).syncState.childSynced ++ rows.flatMap Lease.parents) (hashIter order id (completedKeys rows).dedup))
    at₂ mid (.ret newly) at₃
  third : Relation.ReflTransGen I at₃ at₄
  last : Relation.ReflTransGen I (at₄.setMem w { at₄.mem w with
    syncState := { (at₄.mem w).syncState with childSynced := newly ++ (at₄.mem w).syncState.childSynced } }) t

structure Seeds (D : Deployment) (K : Contract) (w : Worker) (I : World → World → Prop) (rows : List Lease)
    (s : World) (log : List ((r : Req) × Resp r)) (t : World) where
  at₁ : World
  at₂ : World
  at₃ : World
  at₄ : World
  pre : List ((r : Req) × Resp r)
  mid : List ((r : Req) × Resp r)
  post : List ((r : Req) × Resp r)
  log_eq : log = pre ++ mid ++ post
  inner : ∀ e ∈ pre ++ post, Inner e.1
  unseeded : (at₁.mem w).syncState.seeded = false
  first : Relation.ReflTransGen I s at₁
  second : Relation.ReflTransGen I at₁ at₂
  run : Trail (handler K) I w (seedRoots (D.fleet w) (completedKeys rows) (rows.map Lease.leaseKey)
    at₂.stream.describe) at₂ mid (.ret ()) at₃
  third : Relation.ReflTransGen I at₃ at₄
  last : Relation.ReflTransGen I (at₄.setMem w { at₄.mem w with
    syncState := { (at₄.mem w).syncState with seeded := true } }) t

theorem trail_leaderShardSync (hsrc : D.source = contractSource) {r : Except WorkerError Unit}
    (h : Trail (handler K) I w (leaderShardSync (D.fleet w) rows) s log (.ret r) t) :
    Nonempty (Discovers D K w I rows s log t) ∨ Nonempty (Seeds D K w I rows s log t) ∨
      ((∀ e ∈ log, Inner e.1) ∧ ∃ e ∈ log, Failed e) := by
  unfold leaderShardSync at h
  obtain ⟨s₁, c₁, sync, s₂, l₁, h₁, he₁, rfl, hk₁⟩ := h.of_req
  cases he₁
  rw [setMem_self] at hk₁
  have hsource : (D.fleet w).source = contractSource := hsrc
  rw [hsource] at hk₁
  by_cases hseed : (s₁.mem w).syncState.seeded = true
  · left
    simp only [hseed, if_true] at hk₁
    obtain ⟨s₂, c₂, order, s₃, l₂, h₂, he₂, rfl, hk₂⟩ := hk₁.of_req
    obtain rfl := harmless_hashOrder c₂ s₂ order s₃ he₂
    obtain ⟨newly, s₄, l₃, l₄, rfl, hrun, hk₃⟩ := hk₂.of_bind
    obtain ⟨s₅, c₅, u, s₆, l₅, h₅, he₅, rfl, hk₅⟩ := hk₃.of_req
    cases he₅
    obtain ⟨rfl, rfl, h₆⟩ := hk₅.of_ret
    refine ⟨{ at₁ := s₁, at₂ := s₃, at₃ := s₄, at₄ := s₅, order, newly, pre := [_, _], mid := l₃, post := [_],
              log_eq := rfl, inner := ?_, seeded := hseed, first := h₁, second := h₂, run := hrun,
              third := h₅, last := h₆ }⟩
    simp [Inner]
  · right
    simp only [hseed] at hk₁
    obtain ⟨s₂, c₂, a₂, s₃, l₂, h₂, he₂, rfl, hk₂⟩ := hk₁.of_req
    cases he₂
    obtain ⟨s₃, c₃, a₃, s₄, l₃, h₃, he₃, rfl, hk₃⟩ := hk₂.of_call
    obtain ⟨rfl, hdesc⟩ := execRead_eq he₃
    cases a₃ with
    | error e =>
      obtain ⟨rfl, _, _⟩ := hk₃.of_ret
      right
      refine ⟨by simp [Inner], _, List.mem_cons_of_mem _ (List.mem_cons_of_mem _ List.mem_cons_self), trivial⟩
    | ok ms =>
      obtain rfl := hdesc ms rfl
      left
      simp only [Prog.bind, Except.mapError] at hk₃
      obtain ⟨_, s₅, l₄, l₅, rfl, hrun, hk₅⟩ := hk₃.of_bind
      obtain ⟨s₆, c₆, u, s₇, l₆, h₆, he₆, rfl, hk₆⟩ := hk₅.of_req
      cases he₆
      obtain ⟨rfl, rfl, h₇⟩ := hk₆.of_ret
      refine ⟨{ at₁ := s₁, at₂ := s₄, at₃ := s₅, at₄ := s₆, pre := [_, _, _], mid := l₄, post := [_],
                log_eq := rfl, inner := ?_, unseeded := by simpa using hseed, first := h₁,
                second := h₂.trans h₃, run := hrun, third := h₆, last := h₇ }⟩
      simp [Inner]

end

def syncedWorld (rows : List Lease) (w : Worker) (choices : List Choice) (s : World) : World :=
  ((script (handler exactContract) w (leaderShardSync (plainFleet.fleet w) rows) choices s).map fun x => x.2.2).getD s

end StreamsConsumer
