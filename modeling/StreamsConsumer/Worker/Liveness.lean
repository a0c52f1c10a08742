import StreamsConsumer.Worker.Beats
import StreamsConsumer.Worker.Ticks

/-!
# A worker that works is alive

Worker `v` judges worker `w` by the heartbeat row that its scans show. A run of
the fleet is watched: when `w` last did something, when its heartbeat row last
changed, and what that row was at every moment. As long as each tick of `v` sees
a heartbeat that is recent enough, `w` never counts as expired. One heartbeat is
written in a cycle, so a long cycle of small calls is not enough.
-/

namespace StreamsConsumer
open Conc

structure Moment where
  clock : Nat
  /-- When the heartbeat row last changed. -/
  beat : Nat
  row : Option Lease

structure Watch where
  pool : FleetPool
  /-- When the watched worker made its last step. -/
  active : Nat
  beat : Nat
  /-- All moments of the run, the latest first. -/
  past : List Moment

namespace Watch

def world (x : Watch) : World := x.pool.world

def moment (w : Worker) (x : Watch) : Moment := ⟨x.world.clock, x.beat, x.world.table (heartbeatKey w)⟩

def start (w : Worker) (p : FleetPool) : Watch :=
  ⟨p, p.world.clock, p.world.clock, [⟨p.world.clock, p.world.clock, p.world.table (heartbeatKey w)⟩]⟩

def next (w : Worker) (x : Watch) (l : Label Worker Choice Env Job) (q : FleetPool) : Watch :=
  let beat := if q.world.table (heartbeatKey w) = x.world.table (heartbeatKey w) then x.beat else q.world.clock
  ⟨q, if l.proc = some w then q.world.clock else x.active, beat,
    ⟨q.world.clock, beat, q.world.table (heartbeatKey w)⟩ :: x.past⟩

end Watch

/-- With this step `v` makes the tick `t`. -/
def TicksNow (v : Worker) (p : FleetPool) (l : Label Worker Choice Env Job) (t : Tick) : Prop :=
  ∃ π c y, l = .call v π c ∧ (p.procs v).focus π = some y ∧ Ticking t y.1

/-- The runs in which `w` keeps working: it is neither stopped nor does it crash, and each of its steps comes at most
`lim` after the one before. `ok` says which ticks of `v` there are. -/
inductive Course (D : Deployment) (K : Contract) (v w : Worker) (lim : Nat) (ok : List Moment → Tick → Prop) :
    Watch → Prop where
  | start {p : FleetPool} (hp : D.Reachable K p) (hnew : (p.world.mem v).coordinator.seen w = none) :
      Course D K v w lim ok (.start w p)
  | step {x : Watch} {l : Label Worker Choice Env Job} {q : FleetPool} (h : Course D K v w lim ok x)
      (hs : x.pool.step (D.machine K) l = some q) (hpace : q.world.clock ≤ x.active + lim)
      (hrun : l ≠ .stop w ∧ l ≠ .crash w)
      (htick : ∀ t, TicksNow v x.pool l t → ∃ t', TicksNow v x.pool l t' ∧ ok x.past t') :
      Course D K v w lim ok (x.next w l q)

/-- The tick shows no row of `w`, or its heartbeat row as it was at a moment at most `delay` after the time of the tick
and at most `gap` after a heartbeat. -/
def Prompt (w : Worker) (gap delay : Nat) (past : List Moment) (t : Tick) : Prop :=
  ownsRow w t = false ∨ ∃ m ∈ past, ∃ r, m.row = some r ∧ beatRows w t = [r] ∧ t.nowMs ≤ m.clock ∧
    m.clock ≤ t.nowMs + delay ∧ m.clock ≤ m.beat + gap

/-! ## One step -/

section
variable {D : Deployment} {K : Contract} {v w : Worker} {p q : FleetPool} {l : Label Worker Choice Env Job}

theorem clock_step (h : p.step (D.machine K) l = some q) : p.world.clock ≤ q.world.clock := by
  refine Pool.invariant_step (M := D.machine K) (I := fun s => p.world.clock ≤ s.clock) ?_ ?_ ?_ (le_refl _) h
  · intro u r c s a s' hs he
    rcases exec_cases he with rfl | ⟨_, f, _, rfl⟩ | ⟨key, op, row, rfl, ha, rfl⟩ | ⟨_, _, _, _, rfl⟩ |
      ⟨_, _, _, rfl⟩ | ⟨_, _, rfl⟩ <;> exact hs
  · intro e s s' hs he
    change envStep e s = some s' at he
    cases e <;> simp only [envStep, Option.ite_none_right_eq_some, Option.some.injEq] at he
    case advance ms =>
      subst he
      exact hs.trans (Nat.le_add_right _ _)
    all_goals first | (subst he; exact hs) | (obtain ⟨_, rfl⟩ := he; exact hs)
  · exact fun _ _ hs => hs

theorem coordinator_exec {u : Worker} {r : Req} {c : Choice} {s s' : World} {a : Resp r} (hr : Tends r)
    (h : exec K u r c s = some (a, s')) : (s'.mem v).coordinator = (s.mem v).coordinator ∨
      u = v ∧ ∃ t, Ticking t r ∧ ∀ t', Ticking t' r →
        (s'.mem v).coordinator = (s.mem v).coordinator.observe t'.rows t'.nowMs := by
  rcases exec_cases h with rfl | ⟨_, f, rfl, rfl⟩ | ⟨key, op, row, rfl, ha, rfl⟩ | ⟨_, _, _, _, rfl⟩ | ⟨_, _, _, rfl⟩ |
    ⟨_, _, rfl⟩
  case inr.inl =>
    by_cases hu : u = v
    · subst hu
      rcases hr with hkeep | ⟨t, ht⟩
      · left
        simp [World.setMem, hkeep]
      · right
        refine ⟨rfl, t, ht, ?_⟩
        intro t' ht'
        simp only [World.setMem, Function.update_self]
        rw [ht']
    · left
      simp [World.setMem, Ne.symm hu]
  all_goals exact Or.inl rfl

theorem coordinator_step (hp : ∀ u, Asks Tends (p.procs u)) (h : p.step (D.machine K) l = some q) :
    (q.world.mem v).coordinator = (p.world.mem v).coordinator ∨
      (q.world.mem v).coordinator = (Memory.init (D.config v)).coordinator ∨
      ∃ t, TicksNow v p l t ∧ ∀ t', TicksNow v p l t' →
        (q.world.mem v).coordinator = (p.world.mem v).coordinator.observe t'.rows t'.nowMs := by
  cases l <;> simp only [Pool.step] at h
  case call u π c =>
    split at h
    · cases h
    rename_i y hf
    split at h
    · cases h
    rename_i a s he
    cases h
    rcases coordinator_exec (v := v) (asks_focus (hp u) hf).1 he with hkeep | ⟨rfl, t, ht, hall⟩
    · exact Or.inl hkeep
    · refine Or.inr (Or.inr ⟨t, ⟨π, c, y, rfl, hf, ht⟩, ?_⟩)
      rintro t' ⟨π', c', y', hl, hf', ht'⟩
      cases hl
      rw [hf] at hf'
      cases hf'
      exact hall t' ht'
  case silent u π =>
    split at h <;> cases h
    exact Or.inl rfl
  case start u j =>
    split at h <;> cases h
    exact Or.inl rfl
  case stop u =>
    cases h
    exact Or.inl rfl
  case crash u =>
    cases h
    by_cases hu : v = u
    · subst hu
      exact Or.inr (Or.inl (by simp [Deployment.machine, World.setMem]))
    · exact Or.inl (by simp [Deployment.machine, World.setMem, hu])
  case env e =>
    split at h
    · cases h
    rename_i s hs
    cases h
    left
    rw [(envStep_frame hs).2.2.1]

end

/-! ## What is known of a worker -/

/-- Between two moments the heartbeat row stays as it is, or its counter moves up. -/
def MovesOn (m' m : Moment) : Prop :=
  m.clock ≤ m'.clock ∧ (m'.row = m.row ∧ m'.beat = m.beat ∨ beatCount m.row < beatCount m'.row)

theorem MovesOn.trans {a b c : Moment} (h₁ : MovesOn a b) (h₂ : MovesOn b c) : MovesOn a c := by
  refine ⟨h₂.1.trans h₁.1, ?_⟩
  rcases h₁.2 with ⟨hr, hb⟩ | hlt
  · rw [hr, hb]
    exact h₂.2
  · rcases h₂.2 with ⟨hr, _⟩ | hlt'
    · rw [← hr]
      exact Or.inr hlt
    · exact Or.inr (hlt'.trans hlt)

structure Watching (D : Deployment) (K : Contract) (v w : Worker) (delay : Nat) (x : Watch) : Prop where
  reachable : D.Reachable K x.pool
  now : ∃ rest, x.past = x.moment w :: rest
  ordered : x.past.Pairwise MovesOn
  beats : ∀ m ∈ x.past, m.beat ≤ m.clock
  me : (x.world.mem v).coordinator.me = v
  duration : (x.world.mem v).coordinator.leaseDurationMs = (D.config v).leaseDurationMs
  /-- The counter that `v` remembers was read from the row at some moment, soon after the time it remembers. -/
  seen : ∀ s, (x.world.mem v).coordinator.seen w = some s →
    ∃ m ∈ x.past, ∃ r, m.row = some r ∧ r.leaseCounter = s.counter ∧ m.clock ≤ s.lastChangeMs + delay

section
variable {D : Deployment} {K : Contract} {v w : Worker} {gap delay : Nat} {x : Watch} {t : Tick}

theorem Watching.same_beat (h : Watching D K v w delay x) {m m' : Moment} (hm : m ∈ x.past) (hm' : m' ∈ x.past)
    {r r' : Lease} (hr : m.row = some r) (hr' : m'.row = some r') (hc : r.leaseCounter = r'.leaseCounter) :
    m.beat = m'.beat := by
  have hcount : beatCount m.row = beatCount m'.row := by rw [hr, hr']; exact hc
  have hlater : ∀ {a b : Moment}, beatCount a.row = beatCount b.row → MovesOn a b → a.beat = b.beat := by
    intro a b he hl
    rcases hl.2 with ⟨_, hb⟩ | hlt
    · exact hb
    · omega
  by_cases he : m = m'
  · rw [he]
  · have hpair := List.Pairwise.forall_of_forall_of_flip (R := fun a b => a = b ∨ MovesOn a b ∨ MovesOn b a) (l := x.past)
      (fun _ _ => Or.inl rfl) (h.ordered.imp fun hl => Or.inr (Or.inl hl)) (h.ordered.imp fun hl => Or.inr (Or.inr hl))
    rcases hpair hm hm' with he' | hl | hl
    · exact absurd he' he
    · exact hlater hcount hl
    · exact (hlater hcount.symm hl).symm

theorem seen_prompt (hvw : w ≠ v) (hme : (x.world.mem v).coordinator.me = v) (ht : Prompt w gap delay x.past t) :
    ((x.world.mem v).coordinator.observe t.rows t.nowMs).seen w = nextSeen w ((x.world.mem v).coordinator.seen w) t := by
  refine seen_observe (by rw [hme]; exact hvw) ?_
  rcases ht with hown | ⟨m, _, r, _, hb, _⟩
  · have hnil : beatRows w t = [] := by
      unfold beatRows
      rw [List.filter_eq_nil_iff]
      intro r hr
      unfold ownsRow at hown
      have := List.any_eq_false.mp hown r hr
      simp_all
    rw [hnil]
    exact Nat.zero_le _
  · rw [hb]
    exact le_refl _

theorem owns_of_beatRows {r : Lease} (h : beatRows w t = [r]) : ownsRow w t = true := by
  have hr : r ∈ beatRows w t := by rw [h]; exact List.mem_singleton_self r
  obtain ⟨hmem, ho⟩ := List.mem_filter.mp hr
  simp only [Bool.and_eq_true] at ho
  exact List.any_eq_true.mpr ⟨r, hmem, ho.2⟩

theorem nextSeen_beat {r : Lease} (h : beatRows w t = [r]) (s : Option Seen) :
    nextSeen w s t = noteBeat t.nowMs s r.leaseCounter := by
  unfold nextSeen
  rw [if_pos (owns_of_beatRows h)]
  simp [beatOf, h]

/-- After a prompt tick, what is known of `w` was read from its row, and is not older than the lease duration. -/
theorem Watching.tick (h : Watching D K v w delay x) (hvw : w ≠ v) (ht : Prompt w gap delay x.past t) {s : Seen}
    (hs : ((x.world.mem v).coordinator.observe t.rows t.nowMs).seen w = some s) : t.nowMs ≤ s.lastChangeMs + (gap + delay) ∧
      ∃ m ∈ x.past, ∃ r, m.row = some r ∧ r.leaseCounter = s.counter ∧ m.clock ≤ s.lastChangeMs + delay := by
  rw [seen_prompt hvw h.me ht] at hs
  rcases ht with hown | ⟨m, hm, r, hr, hb, _, hdelay, hgap⟩
  · simp [nextSeen, hown] at hs
  have hnew : s = ⟨r.leaseCounter, t.nowMs⟩ → t.nowMs ≤ s.lastChangeMs + (gap + delay) ∧
      ∃ m ∈ x.past, ∃ r, m.row = some r ∧ r.leaseCounter = s.counter ∧ m.clock ≤ s.lastChangeMs + delay := by
    rintro rfl
    exact ⟨Nat.le_add_right _ _, m, hm, r, hr, rfl, hdelay⟩
  rw [nextSeen_beat hb] at hs
  unfold noteBeat at hs
  split at hs
  · rename_i s₀ hs₀
    split at hs
    · exact hnew (Option.some.inj hs).symm
    · rename_i hc
      obtain rfl := Option.some.inj hs
      obtain ⟨m₀, hm₀, r₀, hr₀, hc₀, hclock⟩ := h.seen s₀ hs₀
      have hbeat := h.same_beat hm hm₀ hr hr₀ (by rw [hc₀]; simpa using hc)
      have hold := h.beats m₀ hm₀
      exact ⟨by omega, m₀, hm₀, r₀, hr₀, hc₀, hclock⟩
  · exact hnew (Option.some.inj hs).symm

theorem coordinator_reachable (hsrc : D.source = contractSource) {p : FleetPool} (hp : D.Reachable K p) :
    (p.world.mem v).coordinator.me = v ∧
      (p.world.mem v).coordinator.leaseDurationMs = (D.config v).leaseDurationMs := by
  have hinit : (Memory.init (D.config v)).coordinator.me = v := D.owner_eq v
  obtain ⟨ls, hl⟩ := hp
  induction ls using List.reverseRecOn generalizing p with
  | nil =>
    cases hl
    exact ⟨hinit, rfl⟩
  | append_singleton ls l ih =>
    rw [Pool.run_append] at hl
    obtain ⟨p₀, hp₀, hstep⟩ := Option.bind_eq_some_iff.mp hl
    simp only [Pool.run] at hstep
    split at hstep
    · cases hstep
    rename_i q hq
    cases hstep
    have hasks := asks_reachable (K := K) (hsrc ▸ uninvolved_contractSource) ⟨ls, hp₀⟩
    rcases coordinator_step (v := v) hasks hq with he | he | ⟨t, ht, he⟩
    · rw [he]
      exact ih hp₀
    · rw [he]
      exact ⟨hinit, rfl⟩
    · rw [he t ht]
      exact ih hp₀

theorem Watching.next (hsrc : D.source = contractSource) (hvw : w ≠ v) (h : Watching D K v w delay x)
    {l : Label Worker Choice Env Job} {q : FleetPool} (hs : x.pool.step (D.machine K) l = some q)
    (htick : ∀ t, TicksNow v x.pool l t → ∃ t', TicksNow v x.pool l t' ∧ Prompt w gap delay x.past t') :
    Watching D K v w delay (x.next w l q) := by
  have hreach : D.Reachable K q := h.reachable.trans _ ⟨[l], by simp [Pool.run, hs]⟩
  have hclock := clock_step hs
  have hbeat := beatUp_step hsrc w h.reachable hs
  obtain ⟨rest, hnow⟩ := h.now
  have hme := coordinator_reachable (v := v) hsrc hreach
  have hlast : MovesOn ((x.next w l q).moment w) (x.moment w) := by
    refine ⟨hclock, ?_⟩
    rcases hbeat with hsame | hup
    · exact Or.inl ⟨hsame, if_pos hsame⟩
    · exact Or.inr hup
  have hall : ∀ m ∈ x.past, MovesOn ((x.next w l q).moment w) m := by
    intro m hm
    have hord := h.ordered
    rw [hnow] at hm hord
    rcases List.mem_cons.mp hm with rfl | hm
    · exact hlast
    · exact hlast.trans (List.rel_of_pairwise_cons hord hm)
  have hbeats : ((x.next w l q).moment w).beat ≤ q.world.clock := by
    have hold := h.beats (x.moment w) (by rw [hnow]; exact List.mem_cons_self)
    change (if _ then x.beat else q.world.clock) ≤ _
    split
    · exact hold.trans hclock
    · exact le_refl _
  refine ⟨hreach, ⟨x.past, rfl⟩, List.pairwise_cons.mpr ⟨hall, h.ordered⟩, ?_, hme.1, hme.2, ?_⟩
  · intro m hm
    rcases List.mem_cons.mp hm with rfl | hm
    · exact hbeats
    · exact h.beats m hm
  · intro s hseen
    have hmono : ∀ {P : Moment → Prop}, (∃ m ∈ x.past, P m) → ∃ m ∈ (x.next w l q).past, P m := by
      rintro P ⟨m, hm, hP⟩
      exact ⟨m, List.mem_cons_of_mem _ hm, hP⟩
    change (q.world.mem v).coordinator.seen w = some s at hseen
    have hasks := asks_reachable (K := K) (hsrc ▸ uninvolved_contractSource) h.reachable
    rcases coordinator_step (v := v) hasks hs with he | he | ⟨t, ht, he⟩
    · rw [he] at hseen
      exact hmono (h.seen s hseen)
    · rw [he] at hseen
      cases hseen
    · obtain ⟨t', ht', hprompt⟩ := htick t ht
      rw [he t' ht'] at hseen
      exact hmono (h.tick hvw hprompt hseen).2

theorem Course.watching (hsrc : D.source = contractSource) (hvw : w ≠ v) {lim : Nat}
    (h : Course D K v w lim (Prompt w gap delay) x) : Watching D K v w delay x := by
  induction h with
  | @start p hp hnew =>
    have hme := coordinator_reachable (v := v) hsrc hp
    refine ⟨hp, ⟨[], rfl⟩, List.pairwise_singleton _ _, ?_, hme.1, hme.2, ?_⟩
    · intro m hm
      rw [List.mem_singleton.mp hm]
    · intro s hs
      change (p.world.mem v).coordinator.seen w = some s at hs
      rw [hnew] at hs
      cases hs
  | step _ hs _ _ htick ih => exact ih.next hsrc hvw hs htick

/-- In every run whose ticks of `v` are prompt, no tick of `v` counts `w` as expired, and none of its leases. -/
theorem working_worker_alive (hsrc : D.source = contractSource) (hvw : w ≠ v) {lim : Nat}
    (hdur : gap + delay ≤ (D.config v).leaseDurationMs) (hx : Course D K v w lim (Prompt w gap delay) x)
    (ht : Prompt w gap delay x.past t) :
    ((x.world.mem v).coordinator.observe t.rows t.nowMs).isOwnerExpired (some w) t.nowMs = false ∧
      ∀ l ∈ ((x.world.mem v).coordinator.observe t.rows t.nowMs).snapshot t.rows t.nowMs,
        l.owner = some w → l.expired = false := by
  have h := hx.watching hsrc hvw
  have halive : ((x.world.mem v).coordinator.observe t.rows t.nowMs).isOwnerExpired (some w) t.nowMs = false := by
    have hme : ((x.world.mem v).coordinator.observe t.rows t.nowMs).me = v := h.me
    have hd : ((x.world.mem v).coordinator.observe t.rows t.nowMs).leaseDurationMs = (D.config v).leaseDurationMs :=
      h.duration
    unfold LeaseCoordinator.isOwnerExpired
    simp only [hme, hvw, if_false, hd]
    split
    · rename_i s hs
      have hold := (h.tick hvw ht hs).1
      simp only [decide_eq_false_iff_not]
      omega
    · rfl
  refine ⟨halive, ?_⟩
  intro l hl ho
  obtain ⟨r, _, rfl⟩ := List.mem_map.mp hl
  simp only at ho ⊢
  rw [ho]
  exact halive

end

/-! ## A long cycle of small calls -/

namespace Watch

def attempt (D : Deployment) (K : Contract) (w : Worker) (lim : Nat) (x : Watch) (l : Label Worker Choice Env Job) : Watch :=
  match x.pool.step (D.machine K) l with
  | none => x
  | some q => if q.world.clock ≤ x.active + lim then x.next w l q else x

def drive (D : Deployment) (K : Contract) (w : Worker) (lim : Nat) (u : Worker) : Nat → Watch → Watch
  | 0, x => x
  | n + 1, x =>
    match x.pool.next World.serve u [[], [0]] with
    | none => x
    | some l => drive D K w lim u n (x.attempt D K w lim l)

end Watch

section
variable {D : Deployment} {K : Contract} {v w u : Worker} {lim : Nat} {ok : List Moment → Tick → Prop} {x : Watch}
  {l : Label Worker Choice Env Job}

theorem Course.attempt (h : Course D K v w lim ok x) (hrun : l ≠ .stop w ∧ l ≠ .crash w)
    (htick : ∀ t, TicksNow v x.pool l t → ∃ t', TicksNow v x.pool l t' ∧ ok x.past t') :
    Course D K v w lim ok (x.attempt D K w lim l) := by
  unfold Watch.attempt
  split
  · exact h
  · rename_i q hq
    split
    · rename_i hpace
      exact h.step hq hpace hrun htick
    · exact h

theorem next_cases {oracle : World → Req → Choice} {p : FleetPool} : ∀ {πs : List (List Nat)},
    p.next oracle u πs = some l → (∃ π c, l = .call u π c) ∨ ∃ π, l = .silent u π
  | [], h => by cases h
  | π :: πs, h => by
    unfold Pool.next at h
    split at h
    · cases h
      exact Or.inl ⟨_, _, rfl⟩
    · split at h
      · cases h
        exact Or.inr ⟨_, rfl⟩
      · exact next_cases h

theorem Course.drive (hok : u ≠ v ∨ ∀ past t, ok past t) : ∀ {n : Nat} {x : Watch}, Course D K v w lim ok x →
    Course D K v w lim ok (x.drive D K w lim u n)
  | 0, _, h => h
  | n + 1, x, h => by
    unfold Watch.drive
    split
    · exact h
    · rename_i l hl
      refine Course.drive hok (h.attempt ?_ ?_)
      · rcases next_cases hl with ⟨π, c, rfl⟩ | ⟨π, rfl⟩
        · exact ⟨nofun, nofun⟩
        · exact ⟨nofun, nofun⟩
      · intro t ht
        rcases hok with hne | hall
        · obtain ⟨π, c, y, rfl, _⟩ := ht
          rcases next_cases hl with ⟨π', c', e⟩ | ⟨π', e⟩
          · cases e
            exact absurd rfl hne
          · cases e
        · exact ⟨t, ht, hall x.past t⟩

theorem Course.other (h : Course D K v w lim ok x) (hl : (∃ e, l = .env e) ∨ ∃ u j, l = .start u j) :
    Course D K v w lim ok (x.attempt D K w lim l) := by
  refine h.attempt ?_ ?_
  · rcases hl with ⟨e, rfl⟩ | ⟨u, j, rfl⟩
    · exact ⟨nofun, nofun⟩
    · exact ⟨nofun, nofun⟩
  · rintro t ⟨π, c, y, rfl, _⟩
    rcases hl with ⟨e, he⟩ | ⟨u, j, he⟩
    · cases he
    · cases he

end

def small : Nat := 7000

def watched (x : Watch) : Label Worker Choice Env Job → Watch := x.attempt plainFleet exactContract "w" small

def stepping (u : Worker) (n : Nat) (x : Watch) : Watch := x.drive plainFleet exactContract "w" small u n

def claimed : Watch :=
  stepping "v" 7 (watched (stepping "w" 19 (watched (watched (watched (.start "w" (Pool.idle plainFleet.init))
    (.env (.appear ⟨"s", []⟩))) (.env (.append "s" ⟨"s", "1", []⟩))) (.start "w" .cycle))) (.start "v" .cycle))

def slow (n : Nat) (x : Watch) : Watch := stepping "w" n (watched x (.env (.advance small)))

def shownRows (x : Watch) (t : Nat) : Tick := ⟨x.world.rows.filter fun r => r.leaseKey ≠ LEADER_LEASE_KEY, t⟩

def shortCycle : Watch := slow 1 (slow 7 (watched (.start "w" claimed.pool) (.call "v" [] .ok)))

def longCycle : Watch :=
  stepping "v" 13 (watched (slow 0 (slow 3 (slow 1 (slow 1 (slow 7 (stepping "v" 20 claimed)))))) (.start "v" .cycle))

theorem course_claimed {ok : List Moment → Tick → Prop} (hok : ∀ past t, ok past t) :
    Course plainFleet exactContract "v" "w" small ok claimed := by
  have hstart : Course plainFleet exactContract "v" "w" small ok (.start "w" (Pool.idle plainFleet.init)) :=
    .start (Deployment.reachable_idle _ _) rfl
  have hopen := (hstart.other (Or.inl ⟨.appear ⟨"s", []⟩, rfl⟩)).other (Or.inl ⟨.append "s" ⟨"s", "1", []⟩, rfl⟩)
  have hclaim := (hopen.other (Or.inr ⟨"w", .cycle, rfl⟩)).drive (u := "w") (n := 19) (Or.inr hok)
  exact (hclaim.other (Or.inr ⟨"v", .cycle, rfl⟩)).drive (Or.inr hok)

theorem Course.slow {ok : List Moment → Tick → Prop} {x : Watch} (h : Course plainFleet exactContract "v" "w" small ok x)
    (n : Nat) : Course plainFleet exactContract "v" "w" small ok (slow n x) :=
  (h.other (Or.inl ⟨_, rfl⟩)).drive (Or.inl (by decide))

theorem Course.reachable {D : Deployment} {K : Contract} {v w : Worker} {lim : Nat} {ok : List Moment → Tick → Prop}
    {x : Watch} (h : Course D K v w lim ok x) : D.Reachable K x.pool := by
  induction h with
  | start hp _ => exact hp
  | @step x l q _ hs _ _ _ ih =>
    have hstep : x.pool.run (D.machine K) [l] = some q := by simp [Pool.run, hs]
    exact ih.trans _ ⟨[l], hstep⟩

theorem course_shortCycle : Course plainFleet exactContract "v" "w" small (Prompt "w" 14000 0) shortCycle := by
  have hclaimed : Course plainFleet exactContract "v" "w" small (fun _ _ => True) claimed :=
    course_claimed fun _ _ => trivial
  have hstart : Course plainFleet exactContract "v" "w" small (Prompt "w" 14000 0) (.start "w" claimed.pool) :=
    .start hclaimed.reachable rfl
  have hfirst : TicksNow "v" claimed.pool (.call "v" [] .ok) (shownRows claimed 0) := ⟨[], .ok, _, rfl, rfl, fun _ => rfl⟩
  have hprompt : Prompt "w" 14000 0 (Watch.start "w" claimed.pool).past (shownRows claimed 0) :=
    Or.inr ⟨_, List.mem_cons_self, _, rfl, rfl, by decide +kernel, by decide +kernel, by decide +kernel⟩
  have htick := hstart.attempt (l := .call "v" [] .ok) ⟨nofun, nofun⟩ fun _ _ => ⟨_, hfirst, hprompt⟩
  exact (htick.slow 7).slow 1

theorem working_worker_alive_short : shortCycle.world.clock = 14000 ∧
    ((shortCycle.world.mem "v").coordinator.observe (shownRows shortCycle 14000).rows 14000).isOwnerExpired (some "w") 14000 =
      false := by
  have hprompt : Prompt "w" 14000 0 shortCycle.past (shownRows shortCycle 14000) :=
    Or.inr ⟨_, List.mem_cons_self, _, rfl, rfl, by decide +kernel, by decide +kernel, by decide +kernel⟩
  have halive := working_worker_alive (D := plainFleet) (K := exactContract) rfl (by decide) (by decide) course_shortCycle
    hprompt
  exact ⟨rfl, halive.1⟩

/-- A lease duration of 30000, calls of at most 7000 each: `v` counts `w` as expired in the middle of its cycle, and takes
its lease. -/
theorem working_worker_expired : 4 * small < (plainFleet.config "v").leaseDurationMs ∧
    Course plainFleet exactContract "v" "w" small (fun _ _ => True) longCycle ∧
    TicksNow "v" longCycle.pool (.call "v" [] .ok) (shownRows longCycle 35000) ∧
    ((longCycle.world.mem "v").coordinator.observe (shownRows longCycle 35000).rows 35000).isOwnerExpired (some "w") 35000 =
      true ∧
    ((longCycle.world.mem "v").coordinator.tick [] (shownRows longCycle 35000).rows 35000).1 = ["s"] := by
  refine ⟨by decide, ?_, ⟨[], .ok, _, rfl, rfl, fun _ => rfl⟩, by decide +kernel, by decide +kernel⟩
  have hall : ∀ (_ : List Moment) (_ : Tick), True := fun _ _ => trivial
  have hclaimed : Course plainFleet exactContract "v" "w" small (fun _ _ => True) claimed := course_claimed hall
  have hfirst := hclaimed.drive (u := "v") (n := 20) (Or.inr hall)
  have hcalls := ((((hfirst.slow 7).slow 1).slow 1).slow 3).slow 0
  exact (hcalls.other (Or.inr ⟨"v", .cycle, rfl⟩)).drive (Or.inr hall)

end StreamsConsumer
