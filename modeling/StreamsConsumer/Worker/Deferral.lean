import StreamsConsumer.Worker.Book

/-!
# Deferred and immediate checkpoints

What a worker reads and delivers does not depend on when it writes its
checkpoints: two runs over one shard are somewhere in the same book. A flush,
at the end of the shard or in `release_owned`, brings the row up to the book.
-/

namespace StreamsConsumer
open Conc

/-! ## Graceful release -/

/-- Requests that ask nothing of a source or a consumer. -/
def Unasking : Req → Prop
  | .db _ _ => True
  | .mem _ => True
  | .sleep _ => True
  | _ => False

/-- Requests that leave a shard alone. -/
def Aside (k : ShardId) : Req → Prop
  | .db key _ => key ≠ k
  | .mem f => ∀ m, (f m).2.pending k = m.pending k ∧ (f m).2.ckptDefer.isSome = m.ckptDefer.isSome
  | .sleep _ => True
  | _ => False

section
variable {P : ShardId → Partner} {w : Worker} {k : ShardId} {B : List Call → Prop} {s t : Site}

theorem calls_unasking {r : Req} (hr : Unasking r) {c : Choice} {a : Resp r} (h : siteExec P w r c s = some (a, t)) :
    t.calls = s.calls := by
  cases r <;> simp only [Unasking] at hr
  case db key op =>
    obtain ⟨⟨a', u⟩, _, hx⟩ := Option.map_eq_some_iff.mp h
    cases hx
    cases a' <;> rfl
  case mem f =>
    cases h
    rfl
  case sleep ms =>
    cases h
    rfl

theorem apart_aside {r : Req} (hr : Aside k r) {c : Choice} {a : Resp r} (h : siteExec P w r c s = some (a, t)) :
    Apart w k s t := by
  cases r <;> simp only [Aside] at hr
  case db key op =>
    obtain ⟨⟨a', u⟩, hdb, hx⟩ := Option.map_eq_some_iff.mp h
    cases hx
    have hu : u.table k = s.world.table k ∧ u.mem = s.world.mem := by
      rcases execDb_cases hdb with ⟨rfl, _⟩ | ⟨row, _, rfl⟩
      · exact ⟨rfl, rfl⟩
      · simp [World.write, hr.symm]
    cases a' with
    | ok n => exact ⟨hu.1, rfl, rfl, by simp [Site.wrote, Site.mem, hu.2], by simp [Site.wrote, Site.mem, hu.2]⟩
    | error e =>
      exact ⟨hu.1, rfl, by simp [Site.wrote, hr.symm], by simp [Site.wrote, Site.mem, hu.2],
        by simp [Site.wrote, Site.mem, hu.2]⟩
  case mem f =>
    cases h
    have hf := hr (s.world.mem w)
    exact ⟨rfl, rfl, rfl, by simpa [Site.mem, World.setMem] using hf.1, by simpa [Site.mem, World.setMem] using hf.2⟩
  case sleep ms =>
    cases h
    exact .refl w k s

theorem undisturbed_aside {α : Type} {p : Fx α} (hp : Uses (Aside k) p) {K : Site → Prop}
    (hK : ∀ s s', Apart w k s s' → K s → K s') (hB : ∀ s, K s → B (s.calls k)) (h : K s) :
    Undisturbed P w k B p (fun _ => K) s := by
  refine solo_of_uses hK hB ?_ p hp h
  intro r hr c s a s' h he
  exact hK s s' (apart_aside hr (Handler.exec_within.mp he).1) h

/-- A lease call about the shard has failed since there were `n` mishaps. -/
def Mishapped (k : ShardId) (l : List Call) (n : Nat) (s : Site) : Prop := s.calls k = l ∧ n < (s.mishaps k).length

theorem undisturbed_mishapped {α : Type} {p : Fx α} (hp : Uses Unasking p) {l : List Call} {n : Nat}
    (h : Mishapped k l n s) (hB : B l) : Undisturbed P w k B p (fun _ => Mishapped k l n) s := by
  refine solo_of_uses (K := Mishapped k l n) ?_ ?_ ?_ p hp h
  · intro s s' ha h
    exact ⟨ha.calls.trans h.1, ha.mishaps ▸ h.2⟩
  · intro s h
    exact h.1.symm ▸ hB
  · intro r hr c s a s' h he
    obtain ⟨he, _⟩ := Handler.exec_within.mp he
    refine ⟨by rw [calls_unasking hr he]; exact h.1, ?_⟩
    exact Nat.lt_of_lt_of_le h.2 (siteExec_grows (k := k) he).2.length_le

theorem uses_releaseRow {R : Req → Prop} {cfg : FleetConfig} {r : Lease} (hdb : ∀ op, R (.db r.leaseKey op))
    (hsleep : ∀ ms, R (.sleep ms)) (htake : Uses R (withDefer none fun d => d.takePending r.leaseKey))
    (hforget : Uses R (forgetPending r.leaseKey)) :
    Uses R (releaseRow ⟨contractSource, dynamoDbLeaseStore, cfg⟩ r) := by
  have hcheckpoint : ∀ q, Uses R (dynamoDbLeaseStore.checkpoint r.leaseKey cfg.owner r.leaseCounter q) := by
    intro q
    refine uses_bind (uses_retryThrottled (uses_conditionalWrite (hdb _)) hsleep _ _) ?_
    intro _
    trivial
  have hflush : Uses R (flushPending ⟨contractSource, dynamoDbLeaseStore, cfg⟩ r) := by
    unfold flushPending
    split
    · have hkeep : ∀ c, Uses R ((forgetPending r.leaseKey).bind fun _ => (.ret c : Fx Nat)) := by
        intro c
        exact uses_bind hforget fun _ => trivial
      refine uses_bind htake ?_
      intro a
      cases a with
      | none => exact hkeep _
      | some q =>
        refine uses_bind (hcheckpoint q) ?_
        intro x
        cases x <;> exact hkeep _
    · trivial
  unfold releaseRow
  refine uses_bind hflush ?_
  intro counter
  refine uses_bind (uses_bind (uses_conditionalWrite (hdb _)) fun _ => trivial) ?_
  intro x
  cases x <;> trivial

theorem unasking_releaseRow (cfg : FleetConfig) (r : Lease) :
    Uses Unasking (releaseRow ⟨contractSource, dynamoDbLeaseStore, cfg⟩ r) :=
  uses_releaseRow (fun _ => trivial) (fun _ => trivial) ⟨trivial, fun _ => trivial⟩ ⟨trivial, fun _ => trivial⟩

theorem aside_withDefer {β : Type} {x : β} {f : CkptDefer → β × CkptDefer}
    (hf : ∀ d : CkptDefer, (f d).2.resumeFrom k = d.resumeFrom k) : Uses (Aside k) (withDefer x f) := by
  refine ⟨?_, fun _ => trivial⟩
  intro m
  cases hd : m.ckptDefer with
  | none => simp [hd]
  | some d => simp [hd, Memory.pending, hf]

theorem aside_releaseRow (cfg : FleetConfig) {r : Lease} (hr : r.leaseKey ≠ k) :
    Uses (Aside k) (releaseRow ⟨contractSource, dynamoDbLeaseStore, cfg⟩ r) := by
  refine uses_releaseRow (fun _ => hr) (fun _ => trivial) (aside_withDefer ?_) (aside_withDefer ?_)
  · intro d
    unfold CkptDefer.takePending CkptDefer.resumeFrom
    split
    · simp [hr.symm]
    · rfl
  · intro d
    simp [CkptDefer.forget, CkptDefer.resumeFrom, hr.symm]

end

section
variable {P : ShardId → Partner} {w : Worker} {k : ShardId} {B : List Call → Prop} {deferred : Bool} {c n : Nat}
  {l : List Call} {y z p : Option SequenceNumber} {s t : Site}

/-- The shard's durable checkpoint is `p`. -/
def Freed (k : ShardId) (l : List Call) (p : Option SequenceNumber) (s : Site) : Prop := s.calls k = l ∧ s.checkpoint k = p

theorem Freed.apart (h : Freed k l p s) (ha : Apart w k s t) : Freed k l p t := by
  refine ⟨ha.calls.trans h.1, ?_⟩
  unfold Site.checkpoint
  rw [ha.row]
  exact h.2

theorem mishaps_frame {α : Type} {p : Fx α} {Q : α → Site → Prop} (h : Undisturbed P w k B p Q s)
    (hn : n ≤ (s.mishaps k).length) :
    Undisturbed P w k B p (fun a s' => Q a s' ∧ n ≤ (s'.mishaps k).length) s := by
  refine solo_frame (F := fun s => n ≤ (s.mishaps k).length) ?_ ?_ p hn h
  · intro s s' ha hn
    exact ha.mishaps ▸ hn
  · intro r c s a s' he hn
    exact hn.trans (siteExec_grows (Handler.exec_within.mp he).1).2.length_le

theorem undisturbed_flushPending {cfg : FleetConfig} {r : Lease} (hk : r.leaseKey = k)
    (h : Holding cfg.owner k cfg.deferred r.leaseCounter l y z s) (hn : n ≤ (s.mishaps k).length) (hB : B l) :
    Undisturbed P cfg.owner k B (flushPending ⟨contractSource, dynamoDbLeaseStore, cfg⟩ r) (fun c s' =>
      (Mishapped k l n s' ∨ Holding cfg.owner k cfg.deferred c l none (y.or z) s') ∧ n ≤ (s'.mishaps k).length) s := by
  subst hk
  refine mishaps_frame ?_ hn
  unfold flushPending
  simp only
  split
  · rename_i hd
    rw [hd] at h ⊢
    have hkeep : ∀ {c z s}, Holding cfg.owner r.leaseKey true c l none z s → Undisturbed P cfg.owner r.leaseKey B
        ((forgetPending r.leaseKey).bind fun _ => (.ret c : Fx Nat))
        (fun c s' => Mishapped r.leaseKey l n s' ∨ Holding cfg.owner r.leaseKey true c l none z s') s := by
      intro c z s h
      refine solo_seq (undisturbed_forgetPending h hB) ?_
      intro _ s' h'
      exact Or.inr h'
    refine solo_seq (mishaps_frame (undisturbed_takePending h hB) hn) ?_
    intro a s₁ ⟨⟨ha, h₁⟩, hn₁⟩
    subst ha
    cases a with
    | none => exact hkeep h₁
    | some q =>
      refine solo_seq (undisturbed_checkpoint h₁ hB) ?_
      intro x s₂ hx
      rcases hx with ⟨rfl, h₂⟩ | ⟨⟨e, rfl⟩, hl, hlt⟩
      · exact hkeep h₂
      · have hforget : Uses Unasking ((forgetPending r.leaseKey).bind fun _ => (.ret r.leaseCounter : Fx Nat)) :=
          ⟨trivial, fun _ => trivial⟩
        exact solo_mono _ (fun _ _ h => Or.inl h) (undisturbed_mishapped hforget ⟨hl, Nat.lt_of_le_of_lt hn₁ hlt⟩ hB)
  · rename_i hd
    rw [Bool.not_eq_true] at hd
    rw [hd] at h ⊢
    obtain rfl := h.pending_eq
    exact Or.inr h

theorem undisturbed_release (h : Holding w k deferred c l none p s) (hn : n ≤ (s.mishaps k).length) (hB : B l) :
    Undisturbed P w k B (dynamoDbLeaseStore.release k w c) (fun _ s' => Mishapped k l n s' ∨ Freed k l p s') s := by
  refine solo_bind _ _ (solo_bind _ _ (undisturbed_dbRequest (h.calls ▸ hB) ?_))
  intro s₁ h₁ a u hu
  have hs₁ := h.apart h₁
  have hn₁ : n ≤ (s₁.mishaps k).length := h₁.mishaps ▸ hn
  have hcalls : (s₁.wrote k (.release w c) u a).calls k = l := by
    cases a <;> exact hs₁.calls
  cases a with
  | error e =>
    refine Or.inl ⟨hcalls, ?_⟩
    rw [length_wrote_error]
    exact Nat.lt_succ_of_le hn₁
  | ok m =>
    rcases hu with ⟨_, e, he⟩ | ⟨row, hrow, rfl⟩
    · cases he
    · obtain ⟨r, hr, _, howner, hc, _, hp⟩ := hs₁.row
      rw [hr, DbOp.apply, if_pos ⟨hc, howner⟩] at hrow
      cases hrow
      refine Or.inr ⟨hcalls, ?_⟩
      unfold Site.checkpoint
      rw [row_wrote]
      exact hp

theorem undisturbed_releaseRow {cfg : FleetConfig} {r : Lease} (hk : r.leaseKey = k)
    (h : Holding cfg.owner k cfg.deferred r.leaseCounter l y z s) (hn : n ≤ (s.mishaps k).length) (hB : B l) :
    Undisturbed P cfg.owner k B (releaseRow ⟨contractSource, dynamoDbLeaseStore, cfg⟩ r) (fun _ s' =>
      Mishapped k l n s' ∨ Freed k l (y.or z) s') s := by
  unfold releaseRow
  refine solo_seq (undisturbed_flushPending hk h hn hB) ?_
  intro c s₁ ⟨h₁, hn₁⟩
  subst hk
  refine solo_seq (P := fun _ s' => Mishapped r.leaseKey l n s' ∨ Freed r.leaseKey l (y.or z) s') ?_ ?_
  · rcases h₁ with h₁ | h₁
    · have hrelease : Uses Unasking (dynamoDbLeaseStore.release r.leaseKey cfg.owner c) :=
        uses_bind (uses_conditionalWrite trivial) fun _ => trivial
      exact solo_mono _ (fun _ _ h => Or.inl h) (undisturbed_mishapped hrelease h₁ hB)
    · exact undisturbed_release h₁ hn₁ hB
  · intro x s₂ h₂
    cases x with
    | ok _ => exact h₂
    | error _ => exact h₂

theorem uses_releaseRows {R : Req → Prop} {F : Fleet} : ∀ {rows : List Lease} {released : Nat},
    (∀ r ∈ rows, Uses R (releaseRow F r)) → Uses R (releaseRows F rows released)
  | [], _, _ => trivial
  | r :: rs, released, h => by
    unfold releaseRows
    have hrs : ∀ n, Uses R (releaseRows F rs n) := fun n => uses_releaseRows fun x hx => h x (List.mem_cons_of_mem _ hx)
    split
    · exact uses_bind (h r List.mem_cons_self) fun _ => hrs _
    · exact hrs _

theorem undisturbed_releaseRows {cfg : FleetConfig} (hB : B l) : ∀ {rows : List Lease} {released : Nat} {s : Site},
    Shows cfg.owner k cfg.deferred l p rows s → n ≤ (s.mishaps k).length →
    Undisturbed P cfg.owner k B (releaseRows ⟨contractSource, dynamoDbLeaseStore, cfg⟩ rows released) (fun _ s' =>
      Mishapped k l n s' ∨ Freed k l p s') s
  | [], _, _, h, _ => by
    obtain ⟨r, hr, _⟩ := h
    cases hr
  | r :: rs, released, s, h, hn => by
    obtain ⟨x, hx, hkey, hnodup, hstate⟩ := h
    rw [List.map_cons, List.nodup_cons] at hnodup
    have hmishapped : ∀ {m s'}, Mishapped k l n s' → Undisturbed P cfg.owner k B
        (releaseRows ⟨contractSource, dynamoDbLeaseStore, cfg⟩ rs m)
        (fun _ s' => Mishapped k l n s' ∨ Freed k l p s') s' := by
      intro m s' h'
      have huses : Uses Unasking (releaseRows ⟨contractSource, dynamoDbLeaseStore, cfg⟩ rs m) :=
        uses_releaseRows fun r _ => unasking_releaseRow cfg r
      exact solo_mono _ (fun _ _ h => Or.inl h) (undisturbed_mishapped huses h' hB)
    unfold releaseRows
    by_cases hrk : r.leaseKey = k
    · -- the row of the shard itself; no other row has its key
      obtain rfl : x = r := by
        rcases List.mem_cons.mp hx with rfl | hx
        · rfl
        · exact absurd (List.mem_map.mpr ⟨x, hx, hkey.trans hrk.symm⟩) hnodup.1
      have hfreed : ∀ {m s'}, Freed k l p s' → Undisturbed P cfg.owner k B
          (releaseRows ⟨contractSource, dynamoDbLeaseStore, cfg⟩ rs m)
          (fun _ s' => Mishapped k l n s' ∨ Freed k l p s') s' := by
        intro m s' h'
        have huses : Uses (Aside k) (releaseRows ⟨contractSource, dynamoDbLeaseStore, cfg⟩ rs m) := by
          refine uses_releaseRows fun r hr => aside_releaseRow cfg ?_
          intro he
          exact hnodup.1 (List.mem_map.mpr ⟨r, hr, he.trans hkey.symm⟩)
        refine solo_mono _ (fun _ _ h => Or.inr h) (undisturbed_aside huses (fun _ _ ha h => h.apart ha) ?_ h')
        intro s h
        exact h.1.symm ▸ hB
      rcases hstate with ⟨y, e, howner, hcomp, h⟩ | ⟨hcomp, h⟩
      · simp only [howner, hcomp, beq_self_eq_true, Bool.not_false, Bool.and_self, if_true]
        refine solo_seq (undisturbed_releaseRow hkey h hn hB) ?_
        intro ok s₁ h₁
        rcases h₁ with h₁ | h₁
        · exact hmishapped h₁
        · exact hfreed (e ▸ h₁)
      · simp only [hcomp, Bool.not_true, Bool.and_false, Bool.false_eq_true, if_false]
        obtain ⟨r', hr', _, _, hp⟩ := h.row
        refine hfreed ⟨h.calls, ?_⟩
        unfold Site.checkpoint
        rw [hr']
        exact hp
    · have hx' : x ∈ rs := by
        rcases List.mem_cons.mp hx with rfl | hx
        · exact absurd hkey hrk
        · exact hx
      have hrest : Shows cfg.owner k cfg.deferred l p rs s := ⟨x, hx', hkey, hnodup.2, hstate⟩
      split
      · refine solo_seq (P := fun _ s' => Shows cfg.owner k cfg.deferred l p rs s' ∧ n ≤ (s'.mishaps k).length) ?_ ?_
        · refine undisturbed_aside (aside_releaseRow cfg hrk) ?_ ?_ ⟨hrest, hn⟩
          · intro s s' ha h
            exact ⟨h.1.apart ha, ha.mishaps ▸ h.2⟩
          · intro s h
            exact h.1.resting.calls ▸ hB
        · intro ok s₁ h₁
          exact undisturbed_releaseRows hB h₁.1 h₁.2
      · exact undisturbed_releaseRows hB hrest hn

theorem undisturbed_releaseOwned {cfg : FleetConfig} (hB : B l) (h : Resting cfg.owner k cfg.deferred l p s)
    (hn : n ≤ (s.mishaps k).length) :
    Undisturbed P cfg.owner k B (releaseOwned ⟨contractSource, dynamoDbLeaseStore, cfg⟩) (fun _ s' =>
      Mishapped k l n s' ∨ Freed k l p s') s := by
  refine solo_seq (mishaps_frame (undisturbed_list h hB) hn) ?_
  intro x s₁ ⟨hx, hn₁⟩
  rcases hx with ⟨⟨e, rfl⟩, h₁, hlt⟩ | ⟨rows, rfl, h₁⟩
  · exact Or.inl ⟨h₁.calls, Nat.lt_of_le_of_lt hn hlt⟩
  · refine solo_seq (undisturbed_releaseRows hB h₁ hn₁) ?_
    intro m s₂ h₂
    exact h₂

end

/-! ## Two workers at the same shard -/

/-- The worker owns the row `r` of a shard that it has not read yet. -/
structure Opening (cfg : FleetConfig) (k : ShardId) (r : Lease) (s : Site) : Prop where
  shard : isShardKey k = true
  row : s.row k = some r
  key : r.leaseKey = k
  owner : r.owner = some cfg.owner
  unfinished : r.completed = false
  calls : s.calls k = []
  mishaps : s.mishaps k = []
  deferring : (s.mem cfg.owner).ckptDefer.isSome = cfg.deferred
  pending : (s.mem cfg.owner).pending k = none

/-- A run of `n` cycles over the shard, which `q` is left of. -/
def Served (P : ShardId → Partner) (cfg : FleetConfig) (k : ShardId) (n : Nat) (s : Site) (q : Fx Unit) (t : Site) : Prop :=
  Runs (siteHandler P) (Apart cfg.owner k) cfg.owner (shardCycles (contractFleet cfg) k n) s q t

/-- `release_owned` has returned, and no call about the shard failed. -/
def ReleasedClean (P : ShardId → Partner) (cfg : FleetConfig) (k : ShardId) (t u : Site) : Prop :=
  (∃ a, Runs (siteHandler P) (Apart cfg.owner k) cfg.owner (releaseOwned (contractFleet cfg)) t (.ret a) u) ∧
    u.undisturbed k = true ∧ u.mishaps k = t.mishaps k

section
variable {P : ShardId → Partner} {cfg : FleetConfig} {k : ShardId} {r : Lease} {n : Nat} {s t u : Site} {q : Fx Unit}

theorem within_undisturbed {α : Type} {w : Worker} {p q : Fx α} (h : Runs (siteHandler P) (Apart w k) w p s q t)
    (ht : t.undisturbed k = true) : Runs ((siteHandler P).within (Site.undisturbed k)) (Apart w k) w p s q t :=
  (h.within (fun _ _ _ _ _ he => undisturbed_of_exec he) (fun _ _ ha => undisturbed_of_apart ha) ht).2

/-- A run that is not disturbed goes along the book that starts at the checkpoint of the row. -/
theorem Served.follows (h : Served P cfg k n s q t) (ho : Opening cfg k r s) (ht : t.undisturbed k = true) :
    InBook (P k) ⟨[], none, r.checkpoint⟩ (t.calls k) ∧
      (q = .ret () → BetweenPasses P ⟨[], none, r.checkpoint⟩ cfg.owner k cfg.deferred t) := by
  have hstart : BetweenPasses P ⟨[], none, r.checkpoint⟩ cfg.owner k cfg.deferred s := by
    refine ⟨0, rfl, Or.inl ⟨r.leaseCounter, none, r.checkpoint, rfl, ho.calls, ho.deferring, ho.pending,
      ⟨r, ho.row, ho.key, ho.owner, rfl, ho.unfinished, rfl⟩, ?_⟩⟩
    intro he
    cases he
  have hrun := within_undisturbed h ht
  have hsolo := undisturbed_shardCycles ho.shard n hstart
  refine ⟨?_, ?_⟩
  · refine hrun.safe (Apart.refl _ _) (fun _ _ _ => Apart.trans) ?_ ?_ (solo_mono _ (fun _ _ _ => trivial) hsolo)
    · intro s s' ha h
      exact ha.calls ▸ h
    · exact ho.calls ▸ inBook_page 0
  · intro hq
    subst hq
    exact hrun.solo (Apart.refl _ _) (fun _ _ _ => Apart.trans) (fun _ _ _ ha h => h.apart ha) hsolo

theorem same_page {b : Book} {P : Partner} {m m' : Nat} (hm : (b.page P m).reading = none)
    (hm' : (b.page P m').reading = none) (h : passes (b.page P m).calls = passes (b.page P m').calls) : m = m' := by
  -- the page after the earlier one starts one more pass
  have hlt : ∀ {i j}, (b.page P i).reading = none → i < j → passes (b.page P i).calls < passes (b.page P j).calls := by
    intro i j hi hij
    have hnext : (b.page P (i + 1)).calls = (b.page P i).calls ++ [.created] := by
      rw [Book.page_succ]
      exact (Book.created_round hi).1
    have hle : passes (b.page P (i + 1)).calls ≤ passes (b.page P j).calls :=
      (Book.calls_page P b (Nat.succ_le_of_lt hij)).sublist.countP_le
    have hone : passes (b.page P (i + 1)).calls = passes (b.page P i).calls + 1 := by
      rw [hnext]
      simp [passes, Call.isCreated]
    omega
  rcases Nat.lt_trichotomy m m' with hmm | hmm | hmm
  · have := hlt hm hmm
    omega
  · exact hmm
  · have := hlt hm' hmm
    omega

/-- Two runs that came to the end of the shard for the first time made the same calls. -/
theorem same_end {l l' : List Call} (h : Call.ended ∉ l) (h' : Call.ended ∉ l')
    (hcmp : l ++ [.ended] <+: l' ++ [.ended] ∨ l' ++ [.ended] <+: l ++ [.ended]) : l = l' := by
  have hle : ∀ {l l' : List Call}, Call.ended ∉ l' → l ++ [.ended] <+: l' ++ [.ended] → l = l' := by
    intro l l' h' hp
    rcases List.prefix_concat_iff.mp hp with e | hp
    · exact List.append_cancel_right e
    · exact absurd (hp.subset (List.mem_append.mpr (Or.inr (List.mem_singleton.mpr rfl)))) h'
  rcases hcmp with hp | hp
  · exact hle h' hp
  · exact (hle h hp).symm

theorem Resting.completed_eq {w : Worker} {deferred : Bool} {l : List Call} {p : Option SequenceNumber}
    (h : Resting w k deferred l p s) (hc : s.completed k = true) : Concluded w k deferred l p s := by
  rcases h with ⟨c, y, z, _, h⟩ | h
  · obtain ⟨r, hr, _, _, _, hcomp, _⟩ := h.row
    simp [Site.completed, hr, hcomp] at hc
  · exact h

theorem Concluded.checkpoint_eq {w : Worker} {deferred : Bool} {l : List Call} {p : Option SequenceNumber}
    (h : Concluded w k deferred l p s) : s.checkpoint k = p := by
  obtain ⟨r, hr, _, _, hp⟩ := h.row
  simp [Site.checkpoint, hr, hp]

theorem ReleasedClean.freed {l : List Call} {p : Option SequenceNumber} (h : ReleasedClean P cfg k t u)
    (ht : Resting cfg.owner k cfg.deferred l p t) : Freed k l p u := by
  obtain ⟨⟨a, hrun⟩, hu, hm⟩ := h
  have hsolo := undisturbed_releaseOwned (P := P) (B := fun _ => True) trivial ht le_rfl
  have hpost := (within_undisturbed hrun hu).solo (Apart.refl _ _) (fun _ _ _ => Apart.trans) ?_ hsolo
  · rcases hpost with hpost | hpost
    · have := hpost.2
      rw [hm] at this
      exact absurd this (lt_irrefl _)
    · exact hpost
  · intro _ s s' ha h
    rcases h with h | h
    · exact Or.inl ⟨ha.calls.trans h.1, ha.mishaps ▸ h.2⟩
    · exact Or.inr (h.apart ha)

end

/-- Deferring checkpoints changes no delivery. Two runs over one shard, against the same source and consumer and from the
same row, whose workers may defer their checkpoints or not: as long as no delivery fails, the lease is not lost and no
scan is stale, what one has read and delivered is a beginning of what the other has. After the same number of passes both
have made the same calls, and hold the same durable checkpoint once the shard is completed, or once `release_owned` has
returned without a failed call. Where no completion failed, the completed shard has the same checkpoint in any case. -/
theorem deferral_changes_no_delivery {P : ShardId → Partner} {k : ShardId} {r : Lease} {cfg cfg' : FleetConfig}
    {s s' : Site} (ho : Opening cfg k r s) (ho' : Opening cfg' k r s') {n n' : Nat} {q q' : Fx Unit} {t t' : Site}
    (h : Served P cfg k n s q t) (h' : Served P cfg' k n' s' q' t') (ht : t.undisturbed k = true)
    (ht' : t'.undisturbed k = true) :
    (t.calls k <+: t'.calls k ∨ t'.calls k <+: t.calls k) ∧
    (q = .ret () → q' = .ret () → passes (t.calls k) = passes (t'.calls k) → t.calls k = t'.calls k ∧
      (t.completed k = true → t'.completed k = true → t.checkpoint k = t'.checkpoint k) ∧
      ∀ u u', ReleasedClean P cfg k t u → ReleasedClean P cfg' k t' u' →
        u.calls k = u'.calls k ∧ u.checkpoint k = u'.checkpoint k) ∧
    (q = .ret () → q' = .ret () → t.completed k = true → t'.completed k = true → ¬ Slipped k t → ¬ Slipped k t' →
      t.calls k = t'.calls k ∧ t.checkpoint k = t'.checkpoint k) := by
  obtain ⟨hbook, hbetween⟩ := h.follows ho ht
  obtain ⟨hbook', hbetween'⟩ := h'.follows ho' ht'
  have hcmp := hbook.comparable hbook'
  refine ⟨hcmp, ?_, ?_⟩
  · intro hq hq' hpasses
    obtain ⟨m, hm, hrest⟩ := hbetween hq
    obtain ⟨m', hm', hrest'⟩ := hbetween' hq'
    rw [hrest.calls, hrest'.calls] at hpasses
    obtain rfl := same_page hm hm' hpasses
    refine ⟨hrest.calls.trans hrest'.calls.symm, ?_, ?_⟩
    · intro hc hc'
      rw [(hrest.completed_eq hc).checkpoint_eq, (hrest'.completed_eq hc').checkpoint_eq]
    · intro u u' hu hu'
      have hf := hu.freed hrest
      have hf' := hu'.freed hrest'
      exact ⟨hf.1.trans hf'.1.symm, hf.2.trans hf'.2.symm⟩
  · intro hq hq' hc hc' hslip hslip'
    obtain ⟨m, hm, hrest⟩ := hbetween hq
    obtain ⟨m', hm', hrest'⟩ := hbetween' hq'
    have hend := hrest.completed_eq hc
    have hend' := hrest'.completed_eq hc'
    obtain ⟨l, hl, hnew⟩ := hend.ended
    obtain ⟨l', hl', hnew'⟩ := hend'.ended
    rw [hrest.calls, hrest'.calls, hl, hl'] at hcmp
    have hll : l = l' := same_end (fun hx => hslip (hnew hx)) (fun hx => hslip' (hnew' hx)) hcmp
    have hcalls : t.calls k = t'.calls k := by rw [hrest.calls, hrest'.calls, hl, hl', hll]
    have hpasses : passes (t.calls k) = passes (t'.calls k) := by rw [hcalls]
    rw [hrest.calls, hrest'.calls] at hpasses
    obtain rfl := same_page hm hm' hpasses
    exact ⟨hcalls, by rw [hend.checkpoint_eq, hend'.checkpoint_eq]⟩

/-! ## A shard with one record -/

def intervalConfig (ms : Nat) : FleetConfig := ⟨"a", 10, 30000, 1000, .trimHorizon, none, some ms⟩

def firstRow : Lease := ⟨"s", some "a", 1, false, none, []⟩

def openSite (cfg : FleetConfig) : Site where
  world := ⟨Function.update (fun _ => none) "s" (some firstRow), [firstRow], ⟨[], [], fun _ => [], fun _ => false⟩,
    fun _ => Memory.init cfg, 0, []⟩
  calls := fun _ => []
  mishaps := fun _ => []

def Call.isDelivered : Call → Bool
  | .delivered _ _ => true
  | _ => false

def ackOnce (_ : ShardId) : Partner where
  read _ after := .ok ⟨if after = none then [⟨"s", "1", []⟩] else [], false, none⟩
  deliver l _ := .ok (if l.any Call.isDelivered then none else some "1")
  ended _ := .ok ()
  lost _ := .ok ()

def freshScan (s : Site) : Req → Choice
  | .scan => .rows (s.row "s").toList
  | _ => .ok

def oldScan (_ : Site) : Req → Choice
  | .scan => .rows [firstRow]
  | _ => .ok

def onePass (ms : Nat) : Fx Unit × Site :=
  drive (siteHandler ackOnce) "a" freshScan 20 (shardCycles (contractFleet (intervalConfig ms)) "s" 1)
    (openSite (intervalConfig ms))

def onePassReleased (ms : Nat) : Fx (Except WorkerError Nat) × Site :=
  drive (siteHandler ackOnce) "a" freshScan 20 (releaseOwned (contractFleet (intervalConfig ms))) (onePass ms).2

def twoPassesOld (ms : Nat) : Fx Unit × Site :=
  drive (siteHandler ackOnce) "a" oldScan 40 (shardCycles (contractFleet (intervalConfig ms)) "s" 2)
    (openSite (intervalConfig ms))

theorem opening_openSite (ms : Nat) : Opening (intervalConfig ms) "s" firstRow (openSite (intervalConfig ms)) := by
  refine ⟨by decide, rfl, rfl, rfl, rfl, rfl, rfl, ?_, ?_⟩
  · simp only [openSite, Site.mem, Memory.init]
    split <;> simp_all
  · simp only [openSite, Site.mem, Memory.init, Memory.pending]
    split <;> rfl

theorem served_onePass (ms : Nat) : Served ackOnce (intervalConfig ms) "s" 1 (openSite (intervalConfig ms))
    (onePass ms).1 (onePass ms).2 := runs_drive

theorem served_twoPassesOld (ms : Nat) : Served ackOnce (intervalConfig ms) "s" 2 (openSite (intervalConfig ms))
    (twoPassesOld ms).1 (twoPassesOld ms).2 := runs_drive

theorem releasedClean_onePass {ms : Nat} {a : Except WorkerError Nat} (ha : (onePassReleased ms).1 = .ret a)
    (hu : (onePassReleased ms).2.undisturbed "s" = true)
    (hm : (onePassReleased ms).2.mishaps "s" = (onePass ms).2.mishaps "s") :
    ReleasedClean ackOnce (intervalConfig ms) "s" (onePass ms).2 (onePassReleased ms).2 := by
  refine ⟨⟨a, ?_⟩, hu, hm⟩
  rw [← ha]
  exact runs_drive

theorem deferral_changes_no_delivery_once :
    (onePass 5).2.checkpoint "s" = none ∧ (onePass 0).2.checkpoint "s" = some "1" ∧
      (onePass 5).2.calls "s" = (onePass 0).2.calls "s" ∧
      (onePassReleased 5).2.checkpoint "s" = (onePassReleased 0).2.checkpoint "s" := by
  obtain ⟨_, hsame, _⟩ := deferral_changes_no_delivery (opening_openSite 5) (opening_openSite 0) (served_onePass 5)
    (served_onePass 0) rfl rfl
  obtain ⟨hcalls, _, hreleased⟩ := hsame rfl rfl rfl
  have hcheckpoint := hreleased _ _ (releasedClean_onePass rfl rfl rfl) (releasedClean_onePass rfl rfl rfl)
  exact ⟨rfl, rfl, hcalls, hcheckpoint.2⟩

/-- A scan that still shows the row as it was before the first checkpoint sends the worker without deferral back to the
start. The one that defers has written nothing and goes on after its pending ack. -/
theorem deferral_differs_on_stale_scan : ¬ ∀ (n n' : Nat) (q q' : Fx Unit) (t t' : Site),
    Served ackOnce (intervalConfig 5) "s" n (openSite (intervalConfig 5)) q t →
    Served ackOnce (intervalConfig 0) "s" n' (openSite (intervalConfig 0)) q' t' →
    (t.calls "s").all Call.smooth = true → (t'.calls "s").all Call.smooth = true →
    t.calls "s" <+: t'.calls "s" ∨ t'.calls "s" <+: t.calls "s" := by
  intro h
  have hcmp := h 2 2 _ _ _ _ (served_twoPassesOld 5) (served_twoPassesOld 0) rfl rfl
  revert hcmp
  decide

end StreamsConsumer
