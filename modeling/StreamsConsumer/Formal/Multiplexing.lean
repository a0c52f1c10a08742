import StreamsConsumer.Conc.Temporal
import Mathlib.Data.Fintype.Defs
import Mathlib.Tactic.Ring

/-!
# The multiplexing specification

`formal/Multiplexing.tla` over any workers, shards and parents. Its own check
fixes two workers and three shards; what it states there as invariants holds
for all of them.
-/

namespace StreamsConsumer
open Conc

namespace Multiplexing

/-- The constants of the specification. `ParentOf` holds the pairs of a child and one of its parents. -/
structure Constants (Shard : Type) where
  ParentOf : Finset (Shard × Shard)
  MaxSeq : ℕ
  MaxCap : ℕ
  MaxCrashes : ℕ
  MaxHandoffs : ℕ
  CapOK : 1 ≤ MaxCap
  SeqOK : 1 ≤ MaxSeq

structure State (Worker Shard : Type) where
  owner : Shard → Option Worker
  inflight : Worker → Finset Shard
  cap : Worker → ℕ
  checkpoint : Shard → ℕ
  acked : Shard → ℕ
  delivered : Shard → ℕ
  crashes : ℕ
  handoffs : ℕ

inductive Action (Worker Shard : Type) where
  | acquireLease (w : Worker) (s : Shard)
  | startProcess (w : Worker) (s : Shard)
  /-- `persist` says whether the interval persist fired. -/
  | complete (w : Worker) (s : Shard) (persist : Bool)
  | flush (w : Worker) (s : Shard)
  | crash (w : Worker) (s : Shard)
  | loseLease (w : Worker) (s : Shard)
  | resize (w : Worker) (k : ℕ)
  deriving DecidableEq, Repr

def State.init {Worker Shard : Type} : State Worker Shard where
  owner := fun _ => none
  inflight := fun _ => ∅
  cap := fun _ => 1
  checkpoint := fun _ => 0
  acked := fun _ => 0
  delivered := fun _ => 0
  crashes := 0
  handoffs := 0

section
variable {Worker Shard : Type} [DecidableEq Worker] [DecidableEq Shard] (C : Constants Shard)

def ParentComplete (σ : State Worker Shard) (s : Shard) : Prop :=
  ∀ pr ∈ C.ParentOf, pr.1 = s → σ.checkpoint pr.2 = C.MaxSeq

def Eligible (σ : State Worker Shard) (s : Shard) : Prop :=
  σ.checkpoint s < C.MaxSeq ∧ ParentComplete C σ s

instance (σ : State Worker Shard) (s : Shard) : Decidable (ParentComplete C σ s) :=
  inferInstanceAs (Decidable (∀ pr ∈ C.ParentOf, pr.1 = s → σ.checkpoint pr.2 = C.MaxSeq))

instance (σ : State Worker Shard) (s : Shard) : Decidable (Eligible C σ s) :=
  inferInstanceAs (Decidable (_ ∧ _))

def perform : Action Worker Shard → State Worker Shard → Option (State Worker Shard)
  | .acquireLease w s, σ =>
    if σ.owner s = none ∧ Eligible C σ s then
      some { σ with
        owner := Function.update σ.owner s (some w)
        acked := Function.update σ.acked s (σ.checkpoint s) }
    else none
  | .startProcess w s, σ =>
    if σ.owner s = some w ∧ s ∉ σ.inflight w ∧ σ.acked s < C.MaxSeq ∧ (σ.inflight w).card < σ.cap w then
      some { σ with inflight := Function.update σ.inflight w (insert s (σ.inflight w)) }
    else none
  | .complete w s persist, σ =>
    if s ∈ σ.inflight w ∧ σ.acked s < C.MaxSeq then
      some { σ with
        delivered := Function.update σ.delivered s (σ.delivered s + 1)
        acked := Function.update σ.acked s (σ.acked s + 1)
        checkpoint :=
          -- the last record of a shard is always persisted
          if σ.acked s + 1 = C.MaxSeq then Function.update σ.checkpoint s C.MaxSeq
          else if persist then Function.update σ.checkpoint s (σ.acked s + 1)
          else σ.checkpoint
        inflight := Function.update σ.inflight w ((σ.inflight w).erase s) }
    else none
  | .flush w s, σ =>
    if σ.owner s = some w ∧ σ.checkpoint s < σ.acked s then
      some { σ with checkpoint := Function.update σ.checkpoint s (σ.acked s) }
    else none
  | .crash w s, σ =>
    if s ∈ σ.inflight w ∧ σ.crashes < C.MaxCrashes then
      some { σ with
        delivered := Function.update σ.delivered s (σ.delivered s + 1)
        acked := Function.update σ.acked s (σ.checkpoint s)
        inflight := Function.update σ.inflight w ((σ.inflight w).erase s)
        owner := Function.update σ.owner s none
        crashes := σ.crashes + 1 }
    else none
  | .loseLease w s, σ =>
    if σ.owner s = some w ∧ s ∉ σ.inflight w ∧ σ.handoffs < C.MaxHandoffs then
      some { σ with
        owner := Function.update σ.owner s none
        acked := Function.update σ.acked s (σ.checkpoint s)
        handoffs := σ.handoffs + 1 }
    else none
  | .resize w k, σ =>
    if (1 ≤ k ∧ k ≤ C.MaxCap) ∧ k ≠ σ.cap w ∧ (σ.inflight w).card ≤ k then
      some { σ with cap := Function.update σ.cap w k }
    else none

def Next (σ σ' : State Worker Shard) : Prop := ∃ a, perform C a σ = some σ'

def AcquireSome (s : Shard) (σ σ' : State Worker Shard) : Prop :=
  ∃ w, perform C (.acquireLease w s) σ = some σ'

def StartProcess (w : Worker) (s : Shard) (σ σ' : State Worker Shard) : Prop :=
  perform C (.startProcess w s) σ = some σ'

def Complete (w : Worker) (s : Shard) (σ σ' : State Worker Shard) : Prop :=
  ∃ persist, perform C (.complete w s persist) σ = some σ'

/-- `Spec`: the runs of the system with its fairness. -/
structure Spec (e : ℕ → State Worker Shard) : Prop where
  init : e 0 = State.init
  next : ∀ n, Stutter (Next C) (e n) (e (n + 1))
  acquire : ∀ s, StronglyFair (AcquireSome C s) e
  start : ∀ w s, StronglyFair (StartProcess C w s) e
  complete : ∀ w s, StronglyFair (Complete C w s) e

def Done (σ : State Worker Shard) : Prop := ∀ s, σ.checkpoint s = C.MaxSeq

/-! ## Invariants -/

structure TypeOK (σ : State Worker Shard) : Prop where
  cap : ∀ w, 1 ≤ σ.cap w ∧ σ.cap w ≤ C.MaxCap
  checkpoint : ∀ s, σ.checkpoint s ≤ C.MaxSeq
  acked : ∀ s, σ.acked s ≤ C.MaxSeq
  delivered : ∀ s, σ.delivered s ≤ C.MaxSeq * (1 + C.MaxCrashes + C.MaxHandoffs)
  crashes : σ.crashes ≤ C.MaxCrashes
  handoffs : σ.handoffs ≤ C.MaxHandoffs

structure Safe (σ : State Worker Shard) : Prop where
  typeOK : TypeOK C σ
  perWorkerBound : ∀ w, (σ.inflight w).card ≤ σ.cap w
  mutualExclusion : ∀ w₁ w₂, w₁ ≠ w₂ → Disjoint (σ.inflight w₁) (σ.inflight w₂)
  ownedWhileProc : ∀ w, ∀ s ∈ σ.inflight w, σ.owner s = some w
  parentBeforeChild : ∀ pr ∈ C.ParentOf, (0 < σ.checkpoint pr.1 ∨ ∃ w, pr.1 ∈ σ.inflight w) →
    σ.checkpoint pr.2 = C.MaxSeq
  deferralOK : ∀ s, σ.checkpoint s ≤ σ.acked s
  atLeastOnce : ∀ s, σ.acked s ≤ σ.delivered s

/-- One shard in a reachable state. A shard without an owner has nothing pending, and each crash or
handoff costs at most `MaxSeq` deliveries. -/
structure ShardInv (σ : State Worker Shard) (s : Shard) : Prop where
  pending : σ.checkpoint s ≤ σ.acked s
  acked_le : σ.acked s ≤ C.MaxSeq
  acked_delivered : σ.acked s ≤ σ.delivered s
  delivered_le : σ.delivered s ≤ σ.acked s + C.MaxSeq * (σ.crashes + σ.handoffs)
  unowned : σ.owner s = none → σ.acked s = σ.checkpoint s
  flushed : σ.acked s = C.MaxSeq → σ.checkpoint s = C.MaxSeq
  parents : σ.owner s ≠ none ∨ 0 < σ.checkpoint s → ParentComplete C σ s
  inflight : ∀ w, s ∈ σ.inflight w → σ.owner s = some w ∧ σ.acked s < C.MaxSeq

structure Inv (σ : State Worker Shard) : Prop where
  shard : ∀ s, ShardInv C σ s
  cap : ∀ w, 1 ≤ σ.cap w ∧ σ.cap w ≤ C.MaxCap
  bound : ∀ w, (σ.inflight w).card ≤ σ.cap w
  crashes : σ.crashes ≤ C.MaxCrashes
  handoffs : σ.handoffs ≤ C.MaxHandoffs

variable {C}

theorem checkpoint_le {a : Action Worker Shard} {σ σ' : State Worker Shard} (hi : Inv C σ)
    (h : perform C a σ = some σ') (t : Shard) : σ.checkpoint t ≤ σ'.checkpoint t := by
  have hp := (hi.shard t).pending
  have ha := (hi.shard t).acked_le
  cases a <;> simp only [perform, Option.ite_none_right_eq_some, Option.some.injEq] at h
  all_goals
    obtain ⟨hg, rfl⟩ := h
    grind [Function.update_apply]

theorem checkpoint_le_maxSeq {a : Action Worker Shard} {σ σ' : State Worker Shard} (hi : Inv C σ)
    (h : perform C a σ = some σ') (t : Shard) : σ'.checkpoint t ≤ C.MaxSeq := by
  have hp := (hi.shard t).pending
  have ha := (hi.shard t).acked_le
  cases a <;> simp only [perform, Option.ite_none_right_eq_some, Option.some.injEq] at h
  all_goals
    obtain ⟨hg, rfl⟩ := h
    grind [Function.update_apply]

theorem ParentComplete.step {a : Action Worker Shard} {σ σ' : State Worker Shard} (hi : Inv C σ)
    (h : perform C a σ = some σ') {s : Shard} (hp : ParentComplete C σ s) : ParentComplete C σ' s := by
  intro pr hpr hs
  have := checkpoint_le hi h pr.2
  rw [hp pr hpr hs] at this
  exact le_antisymm (checkpoint_le_maxSeq hi h pr.2) this

theorem ShardInv.step {a : Action Worker Shard} {σ σ' : State Worker Shard} (hi : Inv C σ)
    (h : perform C a σ = some σ') (t : Shard) : ShardInv C σ' t := by
  obtain ⟨h1, h2, h3, h4, h5, h6, h7, h8⟩ := hi.shard t
  have hpc := fun hp => ParentComplete.step hi h (s := t) hp
  -- what one more crash, or one more handoff, adds to the bound on deliveries
  have hc : C.MaxSeq * (σ.crashes + 1 + σ.handoffs) = C.MaxSeq * (σ.crashes + σ.handoffs) + C.MaxSeq := by ring
  have hh : C.MaxSeq * (σ.crashes + (σ.handoffs + 1)) = C.MaxSeq * (σ.crashes + σ.handoffs) + C.MaxSeq := by ring
  cases a <;> simp only [perform, Option.ite_none_right_eq_some, Option.some.injEq] at h
  all_goals
    obtain ⟨hg, rfl⟩ := h
    constructor
    all_goals grind [Function.update_apply, Eligible]

theorem Inv.step {a : Action Worker Shard} {σ σ' : State Worker Shard} (hi : Inv C σ)
    (h : perform C a σ = some σ') : Inv C σ' := by
  have hs := fun t => ShardInv.step hi h t
  obtain ⟨-, hcap, hb, hc, hh⟩ := hi
  cases a <;> simp only [perform, Option.ite_none_right_eq_some, Option.some.injEq] at h
  case startProcess w s =>
    obtain ⟨⟨-, hn, -, hlt⟩, rfl⟩ := h
    refine ⟨hs, hcap, fun v => ?_, hc, hh⟩
    by_cases hv : v = w
    · subst hv
      simp only [Function.update_self, Finset.card_insert_of_notMem hn]
      exact hlt
    · simpa [hv] using hb v
  case complete w s persist =>
    obtain ⟨-, rfl⟩ := h
    refine ⟨hs, hcap, fun v => ?_, hc, hh⟩
    by_cases hv : v = w
    · subst hv
      simpa using (Finset.card_erase_le).trans (hb v)
    · simpa [hv] using hb v
  case crash w s =>
    obtain ⟨hg, rfl⟩ := h
    refine ⟨hs, hcap, fun v => ?_, hg.2, hh⟩
    by_cases hv : v = w
    · subst hv
      simpa using (Finset.card_erase_le).trans (hb v)
    · simpa [hv] using hb v
  case loseLease w s =>
    obtain ⟨hg, rfl⟩ := h
    exact ⟨hs, hcap, hb, hc, hg.2.2⟩
  case resize w k =>
    obtain ⟨⟨hk, -, hle⟩, rfl⟩ := h
    refine ⟨hs, fun v => ?_, fun v => ?_, hc, hh⟩
    all_goals by_cases hv : v = w
    · subst hv; simpa using hk
    · simpa [hv] using hcap v
    · subst hv; simpa using hle
    · simpa [hv] using hb v
  all_goals
    obtain ⟨-, rfl⟩ := h
    exact ⟨hs, hcap, hb, hc, hh⟩

omit [DecidableEq Worker] [DecidableEq Shard] in
theorem Inv.safe {σ : State Worker Shard} (hi : Inv C σ) : Safe C σ where
  typeOK := by
    refine ⟨hi.cap, fun s => ?_, fun s => (hi.shard s).acked_le, fun s => ?_, hi.crashes, hi.handoffs⟩
    · exact (hi.shard s).pending.trans (hi.shard s).acked_le
    · calc
        σ.delivered s ≤ σ.acked s + C.MaxSeq * (σ.crashes + σ.handoffs) := (hi.shard s).delivered_le
        _ ≤ C.MaxSeq + C.MaxSeq * (C.MaxCrashes + C.MaxHandoffs) :=
          Nat.add_le_add (hi.shard s).acked_le (Nat.mul_le_mul_left _ (Nat.add_le_add hi.crashes hi.handoffs))
        _ = C.MaxSeq * (1 + C.MaxCrashes + C.MaxHandoffs) := by ring
  perWorkerBound := hi.bound
  mutualExclusion w₁ w₂ hw := by
    rw [Finset.disjoint_left]
    intro s h₁ h₂
    have := ((hi.shard s).inflight w₁ h₁).1.symm.trans ((hi.shard s).inflight w₂ h₂).1
    exact hw (Option.some.inj this)
  ownedWhileProc w s hs := ((hi.shard s).inflight w hs).1
  parentBeforeChild pr hpr h := by
    refine (hi.shard pr.1).parents ?_ pr hpr rfl
    rcases h with h | ⟨w, hw⟩
    · exact Or.inr h
    · exact Or.inl (by simp [((hi.shard pr.1).inflight w hw).1])
  deferralOK s := (hi.shard s).pending
  atLeastOnce s := (hi.shard s).acked_delivered

end

theorem Inv.init {Worker Shard : Type} {C : Constants Shard} : Inv C (State.init : State Worker Shard) where
  shard s := ⟨le_refl _, Nat.zero_le _, le_refl _, Nat.zero_le _, fun _ => rfl,
    fun h => h, fun h => by simp [State.init] at h, fun w h => by simp [State.init] at h⟩
  cap w := ⟨le_refl _, C.CapOK⟩
  bound w := by simp [State.init]
  crashes := Nat.zero_le _
  handoffs := Nat.zero_le _

section
variable {Worker Shard : Type} [DecidableEq Worker] [DecidableEq Shard] {C : Constants Shard}

inductive Reachable (C : Constants Shard) : State Worker Shard → Prop where
  | init : Reachable C State.init
  | step {σ σ' : State Worker Shard} : Reachable C σ → Next C σ σ' → Reachable C σ'

theorem Reachable.inv {σ : State Worker Shard} (h : Reachable C σ) : Inv C σ := by
  induction h with
  | init => exact Inv.init
  | step _ h ih =>
    obtain ⟨a, ha⟩ := h
    exact ih.step ha

/-- The safety properties hold in every state of every run, whatever the workers, the shards, their
parents and the bounds. -/
theorem safe_of_reachable {σ : State Worker Shard} (h : Reachable C σ) : Safe C σ := h.inv.safe

/-- The state after some actions; those that are not enabled are passed over. -/
def replay (C : Constants Shard) (as : List (Action Worker Shard)) : State Worker Shard :=
  as.foldl (fun σ a => (perform C a σ).getD σ) State.init

theorem replay_next (C : Constants Shard) (as : List (Action Worker Shard)) (n : ℕ) :
    Stutter (Next C) (replay C (as.take n)) (replay C (as.take (n + 1))) := by
  by_cases hn : n < as.length
  · rw [List.take_succ_eq_append_getElem hn]
    simp only [replay, List.foldl_append, List.foldl_cons, List.foldl_nil]
    cases hp : perform C as[n] ((as.take n).foldl (fun σ a => (perform C a σ).getD σ) State.init) with
    | none => exact Or.inr rfl
    | some σ' => exact Or.inl ⟨_, hp⟩
  · rw [List.take_of_length_le (by omega), List.take_of_length_le (by omega)]
    exact Or.inr rfl

theorem replay_reachable (C : Constants Shard) (as : List (Action Worker Shard)) : Reachable C (replay C as) := by
  have hn : ∀ n, Reachable C (replay C (as.take n)) :=
    always_of_step Reachable.init (replay_next C as) fun _ _ hr h => hr.step h
  simpa using hn as.length

end

/-! ## Actions in a row -/

section
variable {Worker Shard : Type} [DecidableEq Worker] [DecidableEq Shard] (C : Constants Shard)

/-- The state after some actions, each of them enabled when its turn comes. -/
def performAll (as : List (Action Worker Shard)) (σ : State Worker Shard) : Option (State Worker Shard) :=
  as.foldlM (fun σ a => perform C a σ) σ

def pass (w : Worker) (s : Shard) : List (Action Worker Shard) := [.startProcess w s, .complete w s true]

def passes (w : Worker) (s : Shard) (n : ℕ) : List (Action Worker Shard) := (List.replicate n (pass w s)).flatten

/-- Nothing is in flight and nothing is pending. -/
structure Resting (σ : State Worker Shard) : Prop where
  inflight : ∀ w, σ.inflight w = ∅
  acked : ∀ s, σ.acked s = σ.checkpoint s
  cap : ∀ w, 1 ≤ σ.cap w

/-- The actions take `s` to the owner `o` and the checkpoint `n` with at most `h` handoffs, and leave the other shards
alone. -/
def Brings (as : List (Action Worker Shard)) (σ : State Worker Shard) (s : Shard) (o : Option Worker) (n h : ℕ) : Prop :=
  ∃ σ', performAll C as σ = some σ' ∧ Resting σ' ∧ σ'.owner = Function.update σ.owner s o ∧
    σ'.checkpoint = Function.update σ.checkpoint s n ∧ σ'.handoffs ≤ σ.handoffs + h

variable {C} {σ : State Worker Shard} {s : Shard} {w : Worker}

theorem performAll_append {as bs : List (Action Worker Shard)} :
    performAll C (as ++ bs) σ = (performAll C as σ).bind (performAll C bs) := by
  unfold performAll
  rw [List.foldlM_append]
  rfl

theorem Brings.nil (hr : Resting σ) : Brings C [] σ s (σ.owner s) (σ.checkpoint s) 0 :=
  ⟨σ, rfl, hr, by simp, by simp, le_refl _⟩

theorem Brings.mono {as : List (Action Worker Shard)} {o : Option Worker} {n h h' : ℕ} (has : Brings C as σ s o n h)
    (hle : h ≤ h') : Brings C as σ s o n h' := by
  obtain ⟨σ', hp, hr, ho, hc, hh⟩ := has
  exact ⟨σ', hp, hr, ho, hc, by omega⟩

theorem Brings.append {as bs : List (Action Worker Shard)} {o o' : Option Worker} {n n' h h' : ℕ}
    (has : Brings C as σ s o n h)
    (hbs : ∀ σ', Resting σ' → σ'.owner = Function.update σ.owner s o → σ'.checkpoint = Function.update σ.checkpoint s n →
      σ'.handoffs ≤ σ.handoffs + h → Brings C bs σ' s o' n' h') :
    Brings C (as ++ bs) σ s o' n' (h + h') := by
  obtain ⟨σ₁, hp₁, hr₁, ho₁, hc₁, hh₁⟩ := has
  obtain ⟨σ₂, hp₂, hr₂, ho₂, hc₂, hh₂⟩ := hbs σ₁ hr₁ ho₁ hc₁ hh₁
  refine ⟨σ₂, ?_, hr₂, ?_, ?_, by omega⟩
  · rw [performAll_append, hp₁]
    exact hp₂
  · rw [ho₂, ho₁, Function.update_idem]
  · rw [hc₂, hc₁, Function.update_idem]

omit [DecidableEq Worker] [DecidableEq Shard] in
theorem Resting.acked_eq (hr : Resting σ) : σ.acked = σ.checkpoint := funext hr.acked

theorem brings_acquire (hr : Resting σ) (ho : σ.owner s = none) (he : Eligible C σ s) :
    Brings C [.acquireLease w s] σ s (some w) (σ.checkpoint s) 0 := by
  refine ⟨{ σ with
    owner := Function.update σ.owner s (some w)
    acked := Function.update σ.acked s (σ.checkpoint s) }, ?_, ⟨hr.inflight, ?_, hr.cap⟩, rfl, by simp, le_refl _⟩
  · simp [performAll, perform, ho, he]
  · intro t
    rw [hr.acked_eq, Function.update_eq_self]

theorem brings_lose (hr : Resting σ) (ho : σ.owner s = some w) (hh : σ.handoffs < C.MaxHandoffs) :
    Brings C [.loseLease w s] σ s none (σ.checkpoint s) 1 := by
  refine ⟨{ σ with
    owner := Function.update σ.owner s none
    acked := Function.update σ.acked s (σ.checkpoint s)
    handoffs := σ.handoffs + 1 }, ?_, ⟨hr.inflight, ?_, hr.cap⟩, rfl, by simp, le_refl _⟩
  · simp [performAll, perform, ho, hh, hr.inflight]
  · intro t
    rw [hr.acked_eq, Function.update_eq_self]

theorem brings_pass (hr : Resting σ) (ho : σ.owner s = some w) (hlt : σ.checkpoint s < C.MaxSeq) :
    Brings C (pass w s) σ s (some w) (σ.checkpoint s + 1) 0 := by
  have hcap : 0 < σ.cap w := hr.cap w
  have hacked : σ.acked s < C.MaxSeq := by rw [hr.acked]; exact hlt
  refine ⟨{ σ with
    delivered := Function.update σ.delivered s (σ.delivered s + 1)
    acked := Function.update σ.acked s (σ.checkpoint s + 1)
    checkpoint := Function.update σ.checkpoint s (σ.checkpoint s + 1) }, ?_, ⟨hr.inflight, ?_, hr.cap⟩, ?_, rfl, le_refl _⟩
  · have hin : σ.inflight = Function.update σ.inflight w ∅ := by rw [← hr.inflight w, Function.update_eq_self]
    by_cases hlast : σ.checkpoint s + 1 = C.MaxSeq
    · simp [performAll, pass, perform, ho, hr.inflight, hr.acked, hlt, hcap, hlast, ← hin]
    · simp [performAll, pass, perform, ho, hr.inflight, hr.acked, hlt, hcap, hlast, ← hin]
  · intro t
    rw [hr.acked_eq]
  · rw [← ho, Function.update_eq_self]

theorem brings_passes (hr : Resting σ) (ho : σ.owner s = some w) : ∀ {n : ℕ}, σ.checkpoint s + n ≤ C.MaxSeq →
    Brings C (passes w s n) σ s (some w) (σ.checkpoint s + n) 0
  | 0, _ => by
    rw [← ho]
    exact Brings.nil hr
  | n + 1, hn => by
    have hsplit : passes w s (n + 1) = passes w s n ++ pass w s := by
      simp [passes, List.replicate_succ']
    have hnext : Brings C (passes w s n ++ pass w s) σ s (some w) (σ.checkpoint s + n + 1) (0 + 0) := by
      refine (brings_passes hr ho (n := n) (by omega)).append fun σ' hr' ho' hc' _ => ?_
      have hc : σ'.checkpoint s = σ.checkpoint s + n := by rw [hc', Function.update_self]
      rw [← hc]
      exact brings_pass hr' (by rw [ho', Function.update_self]) (by omega)
    rw [hsplit]
    exact hnext

theorem reachable_of_performAll {as : List (Action Worker Shard)} {τ : State Worker Shard} (hσ : Reachable C σ)
    (h : performAll C as σ = some τ) : Reachable C τ := by
  induction as generalizing σ with
  | nil =>
    cases h
    exact hσ
  | cons a as ih =>
    simp only [performAll, List.foldlM_cons] at h
    obtain ⟨σ', ha, hrest⟩ := Option.bind_eq_some_iff.mp h
    exact ih (hσ.step ⟨a, ha⟩) hrest

end

/-! ## The topology of the specification -/

inductive FixedWorker where
  | w1
  | w2
  deriving DecidableEq, Repr

inductive FixedShard where
  | r1
  | r2
  | c1
  deriving DecidableEq, Repr

instance : Fintype FixedShard := ⟨{.r1, .r2, .c1}, by intro s; cases s <;> decide⟩

/-- The topology of `Multiplexing.tla` under the bounds of `Multiplexing.cfg`. -/
def fixedConstants : Constants FixedShard := ⟨{(.c1, .r1)}, 2, 2, 1, 1, by decide, by decide⟩

theorem safe_of_reachable_fixed :
    Safe fixedConstants (replay fixedConstants
      [.acquireLease FixedWorker.w1 .r1, .startProcess .w1 .r1, .complete .w1 .r1 false, .flush .w1 .r1]) :=
  safe_of_reachable (replay_reachable _ _)

end Multiplexing

end StreamsConsumer
