import StreamsConsumer.Formal.Multiplexing
import Mathlib.Algebra.BigOperators.Group.Finset.Basic
import Mathlib.Algebra.Order.BigOperators.Group.Finset

/-!
# Every shard is drained

`Termination` of `formal/Multiplexing.tla`: crashes and handoffs are bounded,
so after the last of them leases stay where they are and acked marks only
rise. Were no mark to rise again, no pass would complete; then nobody could be
in a pass, and an eligible shard would be leased, started and completed.
Weak fairness is enough for this.
-/

namespace StreamsConsumer
open Conc

namespace Multiplexing

section
variable {Worker Shard : Type} [DecidableEq Worker] [DecidableEq Shard] {C : Constants Shard}

/-- `Spec` with weak fairness in the place of strong. -/
structure WeakSpec (C : Constants Shard) (e : ℕ → State Worker Shard) : Prop where
  init : e 0 = State.init
  next : ∀ n, Stutter (Next C) (e n) (e (n + 1))
  acquire : ∀ s, WeaklyFair (AcquireSome C s) e
  start : ∀ w s, WeaklyFair (StartProcess C w s) e
  complete : ∀ w s, WeaklyFair (Complete C w s) e

theorem Spec.weak {e : ℕ → State Worker Shard} (h : Spec C e) : WeakSpec C e :=
  ⟨h.init, h.next, fun s => (h.acquire s).weaklyFair, fun w s => (h.start w s).weaklyFair,
    fun w s => (h.complete w s).weaklyFair⟩

theorem WeakSpec.inv {e : ℕ → State Worker Shard} (h : WeakSpec C e) : ∀ n, Inv C (e n) :=
  always_of_step (h.init ▸ Inv.init) h.next fun _ _ hi ⟨_, ha⟩ => hi.step ha

def Quiet (σ σ' : State Worker Shard) : Prop := σ'.crashes = σ.crashes ∧ σ'.handoffs = σ.handoffs

theorem counters_le {a : Action Worker Shard} {σ σ' : State Worker Shard} (h : perform C a σ = some σ') :
    σ.crashes ≤ σ'.crashes ∧ σ.handoffs ≤ σ'.handoffs := by
  cases a <;> simp only [perform, Option.ite_none_right_eq_some, Option.some.injEq] at h
  all_goals
    obtain ⟨-, rfl⟩ := h
    simp

theorem quiet_step {a : Action Worker Shard} {σ σ' : State Worker Shard} (hi : Inv C σ)
    (h : perform C a σ = some σ') (hq : Quiet σ σ') (t : Shard) :
    (∀ w, σ.owner t = some w → σ'.owner t = some w) ∧ σ.acked t ≤ σ'.acked t ∧
      ∀ w, t ∈ σ.inflight w → t ∈ σ'.inflight w ∨ σ.acked t < σ'.acked t := by
  have hu := (hi.shard t).unowned
  cases a <;> simp only [perform, Option.ite_none_right_eq_some, Option.some.injEq] at h
  all_goals
    obtain ⟨hg, rfl⟩ := h
    unfold Quiet at hq
    refine ⟨fun w => ?_, ?_, fun w => ?_⟩ <;> grind [Function.update_apply]

theorem AcquireSome.ne {s : Shard} {σ σ' : State Worker Shard} (h : AcquireSome C s σ σ') : σ' ≠ σ := by
  obtain ⟨w, h⟩ := h
  simp only [perform, Option.ite_none_right_eq_some, Option.some.injEq] at h
  obtain ⟨hg, rfl⟩ := h
  intro he
  simpa [hg.1] using congrFun (congrArg State.owner he) s

theorem StartProcess.ne {w : Worker} {s : Shard} {σ σ' : State Worker Shard} (h : StartProcess C w s σ σ') :
    σ' ≠ σ := by
  simp only [StartProcess, perform, Option.ite_none_right_eq_some, Option.some.injEq] at h
  obtain ⟨hg, rfl⟩ := h
  intro he
  have hs := congrFun (congrArg State.inflight he) w
  simp only [Function.update_self] at hs
  exact hg.2.1 (hs ▸ Finset.mem_insert_self s _)

theorem Complete.acked {w : Worker} {s : Shard} {σ σ' : State Worker Shard} (h : Complete C w s σ σ') :
    σ'.acked s = σ.acked s + 1 := by
  obtain ⟨persist, h⟩ := h
  simp only [perform, Option.ite_none_right_eq_some, Option.some.injEq] at h
  obtain ⟨-, rfl⟩ := h
  simp

theorem Complete.ne {w : Worker} {s : Shard} {σ σ' : State Worker Shard} (h : Complete C w s σ σ') :
    σ' ≠ σ := by
  intro he
  have := h.acked
  rw [he] at this
  omega

/-! ## After the last crash and the last handoff -/

section
variable {e : ℕ → State Worker Shard} (h : WeakSpec C e)
include h

theorem WeakSpec.quiet : ∃ N, ∀ n ≥ N, Quiet (e n) (e (n + 1)) := by
  have hstep : ∀ n, (e n).crashes ≤ (e (n + 1)).crashes ∧ (e n).handoffs ≤ (e (n + 1)).handoffs := by
    intro n
    rcases h.next n with ⟨a, ha⟩ | he
    · exact counters_le ha
    · rw [he]; exact ⟨le_refl _, le_refl _⟩
  obtain ⟨N₁, h₁⟩ := eventually_constant (fun n => (hstep n).1) fun n => (h.inv n).crashes
  obtain ⟨N₂, h₂⟩ := eventually_constant (fun n => (hstep n).2) fun n => (h.inv n).handoffs
  refine ⟨max N₁ N₂, fun n hn => ⟨?_, ?_⟩⟩
  · rw [h₁ n (by omega), h₁ (n + 1) (by omega)]
  · rw [h₂ n (by omega), h₂ (n + 1) (by omega)]

theorem WeakSpec.checkpoint_le {n m : ℕ} (hm : n ≤ m) (t : Shard) :
    (e n).checkpoint t ≤ (e m).checkpoint t := by
  refine monotone_nat_of_le_succ (f := fun k => (e k).checkpoint t) (fun k => ?_) hm
  rcases h.next k with ⟨a, ha⟩ | he
  · exact Multiplexing.checkpoint_le (h.inv k) ha t
  · rw [he]

variable {N : ℕ} (hq : ∀ n ≥ N, Quiet (e n) (e (n + 1)))
include hq

theorem WeakSpec.tail_step {n : ℕ} (hn : N ≤ n) (t : Shard) :
    (∀ w, (e n).owner t = some w → (e (n + 1)).owner t = some w) ∧ (e n).acked t ≤ (e (n + 1)).acked t ∧
      ∀ w, t ∈ (e n).inflight w → t ∈ (e (n + 1)).inflight w ∨ (e n).acked t < (e (n + 1)).acked t := by
  rcases h.next n with ⟨a, ha⟩ | he
  · exact quiet_step (h.inv n) ha (hq n hn) t
  · rw [he]; exact ⟨fun _ ho => ho, le_refl _, fun _ hi => Or.inl hi⟩

theorem WeakSpec.acked_le {n m : ℕ} (hn : N ≤ n) (hm : n ≤ m) (t : Shard) : (e n).acked t ≤ (e m).acked t := by
  induction m, hm using Nat.le_induction with
  | base => exact le_refl _
  | succ m hm ih => exact ih.trans (h.tail_step hq (hn.trans hm) t).2.1

theorem WeakSpec.pass_completes {n : ℕ} (hn : N ≤ n) {w : Worker} {s : Shard} (hs : s ∈ (e n).inflight w) :
    ∃ m ≥ n, (e n).acked s < (e m).acked s := by
  by_contra hno
  push Not at hno
  have hstay : ∀ m ≥ n, s ∈ (e m).inflight w := by
    refine persists (fun m hm hi => ?_) (le_refl n) hs
    refine ((h.tail_step hq (hn.trans hm) s).2.2 w hi).resolve_right fun hlt => ?_
    have := hno (m + 1) (by omega)
    have := h.acked_le hq hn hm s
    omega
  obtain ⟨m, hm, hc⟩ := (h.complete w s).occurs (fun m hm => by
    have hlt := (((h.inv m).shard s).inflight w (hstay m hm)).2
    exact ⟨_, false, by rw [perform, if_pos ⟨hstay m hm, hlt⟩]⟩) fun _ _ => Complete.ne
  have h₁ := hc.acked
  have h₂ := hno (m + 1) (by omega)
  have h₃ := h.acked_le hq hn hm s
  omega

theorem WeakSpec.mark_rises [Nonempty Worker]
    (hwf : WellFounded fun p c : Shard => (c, p) ∈ C.ParentOf) {n : ℕ} (hn : N ≤ n) (hd : ¬ Done C (e n)) :
    ∃ m ≥ n, ∃ t, (e n).acked t < (e m).acked t := by
  by_contra hno
  push Not at hno
  have hidle : ∀ m ≥ n, ∀ w t, t ∉ (e m).inflight w := by
    intro m hm w t ht
    obtain ⟨k, hk, hlt⟩ := h.pass_completes hq (hn.trans hm) ht
    have := hno k (hm.trans hk) t
    have := h.acked_le hq hn hm t
    omega
  -- a first unfinished shard: its parents are done, so it is eligible from now on
  obtain ⟨s, hs, hmin⟩ := hwf.has_min {s | (e n).checkpoint s ≠ C.MaxSeq} (by
    unfold Done at hd; push Not at hd; exact hd)
  have hlt : ∀ m ≥ n, (e m).acked s < C.MaxSeq := by
    intro m hm
    have h₁ := ((h.inv n).shard s).acked_le
    have h₂ := ((h.inv n).shard s).flushed
    have h₃ := hno m hm s
    have : (e n).acked s ≠ C.MaxSeq := fun he => hs (h₂ he)
    omega
  have hel : ∀ m ≥ n, Eligible C (e m) s := by
    intro m hm
    refine ⟨((h.inv m).shard s).pending.trans_lt (hlt m hm), fun pr hpr hps => ?_⟩
    have hdone : (e n).checkpoint pr.2 = C.MaxSeq := by
      by_contra hne
      exact hmin pr.2 hne (by rw [← hps]; exact hpr)
    have h₁ := h.checkpoint_le hm pr.2
    have h₂ := (((h.inv m).shard pr.2).pending).trans ((h.inv m).shard pr.2).acked_le
    omega
  obtain ⟨m, hm, w, hw⟩ : ∃ m ≥ n, ∃ w, (e m).owner s = some w := by
    by_contra hun
    push Not at hun
    obtain ⟨m, hm, w, hw⟩ := (h.acquire s).occurs (fun m hm => by
      have ho : (e m).owner s = none := by
        rw [Option.eq_none_iff_forall_ne_some]; exact fun w => hun m hm w
      exact ⟨_, Classical.arbitrary Worker, by rw [perform, if_pos ⟨ho, hel m hm⟩]⟩) fun _ _ => AcquireSome.ne
    simp only [perform, Option.ite_none_right_eq_some, Option.some.injEq] at hw
    obtain ⟨-, he⟩ := hw
    exact hun (m + 1) (by omega) w (by rw [← he]; simp)
  have hown : ∀ k ≥ m, (e k).owner s = some w :=
    persists (P := fun σ => σ.owner s = some w) (e := e) (fun k hk => (h.tail_step hq (by omega) s).1 w)
      (le_refl m) hw
  obtain ⟨k, hk, hst⟩ := (h.start w s).occurs (n := m) (fun k hk => by
    have hi : (e k).inflight w = ∅ := Finset.eq_empty_of_forall_notMem (hidle k (by omega) w)
    refine ⟨_, by rw [StartProcess, perform, if_pos ⟨hown k hk, hidle k (by omega) w s, hlt k (by omega), ?_⟩]⟩
    rw [hi, Finset.card_empty]
    exact ((h.inv k).cap w).1) fun _ _ => StartProcess.ne
  simp only [StartProcess, perform, Option.ite_none_right_eq_some, Option.some.injEq] at hst
  obtain ⟨-, he⟩ := hst
  exact hidle (k + 1) (by omega) w s (by rw [← he]; simp)

end

/-! ## The result -/

def remaining [Fintype Shard] (C : Constants Shard) (σ : State Worker Shard) : ℕ := ∑ s, (C.MaxSeq - σ.acked s)

theorem WeakSpec.eventually_done [Fintype Shard] [Nonempty Worker]
    (hwf : WellFounded fun p c : Shard => (c, p) ∈ C.ParentOf) {e : ℕ → State Worker Shard} (h : WeakSpec C e) :
    ∃ n, ∀ m ≥ n, Done C (e m) := by
  obtain ⟨N, hq⟩ := h.quiet
  obtain ⟨n, hn, hd⟩ := eventually_of_rank (Done C) (remaining C) (e := e) (N := N) (fun n hn hd => by
    obtain ⟨m, hm, t, ht⟩ := h.mark_rises hq hwf hn hd
    refine ⟨m, hm, Finset.sum_lt_sum (fun s _ => ?_) ⟨t, Finset.mem_univ t, ?_⟩⟩
    · exact Nat.sub_le_sub_left (h.acked_le hq hn hm s) _
    · have := ((h.inv m).shard t).acked_le
      omega)
  refine ⟨n, fun m hm s => le_antisymm ?_ ?_⟩
  · exact ((h.inv m).shard s).pending.trans ((h.inv m).shard s).acked_le
  · rw [← hd s]; exact h.checkpoint_le hm s

/-- `Termination`: every shard is processed to its end, and stays so. -/
theorem termination [Fintype Shard] [Nonempty Worker]
    (hwf : WellFounded fun p c : Shard => (c, p) ∈ C.ParentOf) {e : ℕ → State Worker Shard} (h : Spec C e) :
    ∃ n, ∀ m ≥ n, Done C (e m) := h.weak.eventually_done hwf

/-! ## Schedules that end -/

theorem Inv.drained {σ : State Worker Shard} (hi : Inv C σ) (hd : Done C σ) (s : Shard) :
    (∀ σ', ¬ AcquireSome C s σ σ') ∧ ∀ w, (∀ σ', ¬ StartProcess C w s σ σ') ∧ ∀ σ', ¬ Complete C w s σ σ' := by
  have hp := (hi.shard s).pending
  rw [hd s] at hp
  refine ⟨?_, fun w => ⟨?_, ?_⟩⟩
  · rintro σ' ⟨w, h⟩
    simp [perform, Eligible, hd s] at h
  · intro σ' h
    simp [StartProcess, perform, Nat.not_lt.mpr hp] at h
  · rintro σ' ⟨persist, h⟩
    simp [perform, Nat.not_lt.mpr hp] at h

theorem spec_of_schedule {as : List (Action Worker Shard)} (hd : Done C (replay C as)) :
    Spec C fun n => replay C (as.take n) := by
  have hend : ∀ m ≥ as.length, replay C (as.take m) = replay C as := by
    intro m hm
    rw [List.take_of_length_le hm]
  have hoff := (replay_reachable C as).inv.drained hd
  refine ⟨rfl, replay_next C as, fun s => ?_, fun w s => ?_, fun w s => ?_⟩
  all_goals refine stronglyFair_of_disabled (n := as.length) fun m hm => ?_
  all_goals
    rintro ⟨σ', h⟩
    rw [hend m hm] at h
  · exact (hoff s).1 σ' h
  · exact ((hoff s).2 w).1 σ' h
  · exact ((hoff s).2 w).2 σ' h

end

def fixedSchedule : List (Action FixedWorker FixedShard) :=
  [.acquireLease .w1 .r1, .startProcess .w1 .r1, .crash .w1 .r1, .acquireLease .w2 .r1, .startProcess .w2 .r1,
    .complete .w2 .r1 false, .loseLease .w2 .r1, .acquireLease .w1 .r1, .startProcess .w1 .r1, .resize .w1 2,
    .acquireLease .w1 .r2, .startProcess .w1 .r2, .complete .w1 .r1 false, .startProcess .w1 .r1,
    .complete .w1 .r2 true, .complete .w1 .r1 false, .startProcess .w1 .r2, .complete .w1 .r2 true,
    .acquireLease .w2 .c1, .startProcess .w2 .c1, .complete .w2 .c1 false, .flush .w2 .c1, .startProcess .w2 .c1,
    .complete .w2 .c1 false]

theorem termination_fixed :
    ∃ n, ∀ m ≥ n, Done fixedConstants (replay fixedConstants (fixedSchedule.take m)) :=
  haveI : Nonempty FixedWorker := ⟨.w1⟩
  have hwf : WellFounded fun p c : FixedShard => (c, p) ∈ fixedConstants.ParentOf :=
    Subrelation.wf (r := fun p c => p.ctorIdx < c.ctorIdx)
      (by intro p c h; revert p c; decide) (measure FixedShard.ctorIdx).wf
  termination hwf (spec_of_schedule (by unfold Done; decide))

end Multiplexing

end StreamsConsumer
