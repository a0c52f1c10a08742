import StreamsConsumer.Worker.World
import Mathlib.Data.List.Induction

/-!
# Two workers after one lease

Both workers saw the same row and both call `acquire`. `acquire` does not carry
the counter of the scan: it reads the row again and claims on what it read.
Between the scan and the end of both calls nobody else writes to the row. A
small machine of the phases of both calls is refined by the interleaved runs of
the real calls; it decides which interleavings have one winner.
-/

namespace StreamsConsumer
open Conc

/-- The two calls under way, `false` and `true`, and the world between their requests. -/
structure Race where
  world : World
  call : Bool → Fx (Except LeaseError Lease)

namespace Race

def start (name : Bool → Worker) (key : ShardId) (s : World) : Race :=
  ⟨s, fun x => DynamoDbLeaseStore.acquire key (name x)⟩

def step (K : Contract) (name : Bool → Worker) (R : Race) (x : Bool) (c : Choice) : Option Race :=
  match (R.call x).focus [] with
  | none => none
  | some y =>
    match exec K (name x) y.1 c R.world with
    | none => none
    | some (a, s) => some ⟨s, Function.update R.call x (y.2 a)⟩

def run (K : Contract) (name : Bool → Worker) (R : Race) : List (Bool × Choice) → Option Race
  | [] => some R
  | (x, c) :: sched =>
    match R.step K name x c with
    | none => none
    | some R' => R'.run K name sched

def won (R : Race) (x : Bool) : Option Nat :=
  match (R.call x).ret? with
  | some (.ok l) => some l.leaseCounter
  | _ => none

end Race

/-! ## The phases of both calls -/

inductive AcquirePhase where
  | put
  | get
  | claim (seen : Nat)
  | done (won : Option Nat)
  deriving DecidableEq, Repr

def AcquirePhase.step (n : Nat) : AcquirePhase → Choice → Option (AcquirePhase × Nat)
  | .put, .ok => some (.get, n)
  | .put, .fault _ => some (.done none, n)
  | .get, .ok => some (.claim n, n)
  | .get, .fault _ => some (.done none, n)
  | .claim m, .ok => some (if n = m then (.done (some (m + 1)), n + 1) else (.done none, n))
  | .claim _, .fault _ => some (.done none, n)
  | .claim m, .lostReply _ => if n = m then some (.done none, n + 1) else none
  | _, _ => none

structure Phases where
  phase : Bool → AcquirePhase
  counter : Nat

def Phases.step (A : Phases) (x : Bool) (c : Choice) : Option Phases :=
  ((A.phase x).step A.counter c).map fun y => ⟨Function.update A.phase x y.1, y.2⟩

def Phases.run (A : Phases) : List (Bool × Choice) → Option Phases
  | [] => some A
  | (x, c) :: sched => (A.step x c).bind fun A' => A'.run sched

theorem Phases.run_append {A : Phases} : ∀ {l₁ l₂ : List (Bool × Choice)},
    A.run (l₁ ++ l₂) = (A.run l₁).bind fun A' => A'.run l₂
  | [], _ => rfl
  | (x, c) :: l₁, l₂ => by
    simp only [List.cons_append, Phases.run]
    cases A.step x c with
    | none => rfl
    | some A' => exact Phases.run_append

def AcquirePhase.Prog (key : ShardId) (w : Worker) (p : Fx (Except LeaseError Lease)) : AcquirePhase → Prop
  | .put => p = DynamoDbLeaseStore.acquire key w
  | .get => p = (DynamoDbLeaseStore.get key).bind fun
      | .error e => .ret (.error (.aws (.sdk e)))
      | .ok none => .ret (.error (.aws (.text "lease vanished")))
      | .ok (some current) => DynamoDbLeaseStore.claim key w current.leaseCounter
  | .claim m => p = DynamoDbLeaseStore.claim key w m
  | .done won => ∃ r, p = .ret r ∧ won = r.toOption.map Lease.leaseCounter

def Phases.Models (key : ShardId) (name : Bool → Worker) (A : Phases) (R : Race) : Prop :=
  (∀ x, (A.phase x).Prog key (name x) (R.call x)) ∧
    ∃ r, R.world.table key = some r ∧ r.leaseCounter = A.counter

section
variable {K : Contract} {name : Bool → Worker} {key : ShardId}

theorem Phases.Models.update {A : Phases} {R : Race} (h : A.Models key name R) {x : Bool} {ph : AcquirePhase}
    {p : Fx (Except LeaseError Lease)} {s : World} {r : Lease} (hp : ph.Prog key (name x) p)
    (hr : s.table key = some r) :
    Phases.Models key name ⟨Function.update A.phase x ph, r.leaseCounter⟩ ⟨s, Function.update R.call x p⟩ := by
  refine ⟨fun y => ?_, r, hr, rfl⟩
  by_cases hy : y = x
  · subst hy; simpa using hp
  · simpa [Function.update_of_ne hy] using h.1 y

theorem Race.step_call {R R' : Race} {x : Bool} {c : Choice} {r : Req} {k : Resp r → Fx (Except LeaseError Lease)}
    (hc : R.call x = .call r k) (hs : R.step K name x c = some R') :
    ∃ a s, exec K (name x) r c R.world = some (a, s) ∧ R' = ⟨s, Function.update R.call x (k a)⟩ := by
  unfold Race.step at hs
  rw [hc] at hs
  simp only [Prog.focus] at hs
  split at hs
  · cases hs
  · rename_i a s he
    cases hs
    exact ⟨a, s, he, rfl⟩

theorem Race.put_models {A : Phases} {R R' : Race} (h : A.Models key name R) {x : Bool} {c : Choice}
    (hph : A.phase x = .put) (hs : R.step K name x c = some R') :
    ∃ A', A.step x c = some A' ∧ A'.Models key name R' := by
  obtain ⟨r, hr, hn⟩ := h.2
  have hp := h.1 x
  rw [hph] at hp
  obtain ⟨a, s, he, rfl⟩ := Race.step_call hp hs
  unfold Phases.step
  rw [hph]
  change execDb (name x) key (.put (name x)) c R.world = some (a, s) at he
  cases c <;> simp only [execDb, hr, DbOp.apply, reduceCtorEq] at he
  case ok =>
    cases he
    exact ⟨_, rfl, hn ▸ h.update rfl hr⟩
  case fault e =>
    split at he
    · cases he
    · rename_i hne
      cases he
      refine ⟨_, rfl, hn ▸ h.update ⟨.error (.aws (.sdk e)), ?_, rfl⟩ hr⟩
      exact if_pos hne

theorem Race.get_models {A : Phases} {R R' : Race} (h : A.Models key name R) {x : Bool} {c : Choice}
    (hph : A.phase x = .get) (hs : R.step K name x c = some R') :
    ∃ A', A.step x c = some A' ∧ A'.Models key name R' := by
  obtain ⟨r, hr, hn⟩ := h.2
  have hp := h.1 x
  rw [hph] at hp
  obtain ⟨a, s, he, rfl⟩ := Race.step_call hp hs
  unfold Phases.step
  rw [hph]
  change execRead (R.world.table key) c R.world = some (a, s) at he
  cases c <;> simp only [execRead, hr, reduceCtorEq] at he
  case ok =>
    cases he
    exact ⟨_, rfl, hn ▸ h.update rfl hr⟩
  case fault e =>
    cases he
    exact ⟨_, rfl, hn ▸ h.update ⟨_, rfl, rfl⟩ hr⟩

theorem Race.claim_models {A : Phases} {R R' : Race} (h : A.Models key name R) {x : Bool} {c : Choice} {m : Nat}
    (hph : A.phase x = .claim m) (hs : R.step K name x c = some R') :
    ∃ A', A.step x c = some A' ∧ A'.Models key name R' := by
  obtain ⟨r, hr, hn⟩ := h.2
  have hp := h.1 x
  rw [hph] at hp
  obtain ⟨a, s, he, rfl⟩ := Race.step_call hp hs
  unfold Phases.step
  rw [hph]
  change execDb (name x) key (.claim (name x) m) c R.world = some (a, s) at he
  have hdone : ∀ res, AcquirePhase.Prog key (name x) (.ret res) (.done (res.toOption.map Lease.leaseCounter)) :=
    fun res => ⟨res, rfl, rfl⟩
  have hstay : ∀ e, Phases.Models key name ⟨Function.update A.phase x (.done none), A.counter⟩
      ⟨R.world, Function.update R.call x (.ret (.error e))⟩ := fun e => hn ▸ h.update (hdone (.error e)) hr
  by_cases hm : r.leaseCounter = m
  · have hmove : ∀ res, Phases.Models key name
        ⟨Function.update A.phase x (.done (res.toOption.map Lease.leaseCounter)), m + 1⟩
        ⟨R.world.write (name x) key (.claim (name x) m)
          (some { r with owner := some (name x), leaseCounter := m + 1 }), Function.update R.call x (.ret res)⟩ := by
      intro res
      refine h.update (r := { r with owner := some (name x), leaseCounter := m + 1 }) (hdone res) ?_
      simp [World.write]
    have hcm : A.counter = m := hn ▸ hm
    cases c <;> simp only [execDb, hr, DbOp.apply, hm, if_true, reduceCtorEq] at he
    case ok =>
      cases he
      refine ⟨_, by simp [AcquirePhase.step, hcm, Except.toOption], hmove (.ok ⟨key, some (name x), m + 1, false, none, []⟩)⟩
    case fault e =>
      split at he <;> cases he
      exact ⟨_, rfl, hstay _⟩
    case lostReply e =>
      cases he
      refine ⟨_, by simp [AcquirePhase.step, hcm, Except.toOption], hmove (.error (classify e))⟩
  · have hcm : A.counter ≠ m := hn ▸ hm
    cases c <;> simp only [execDb, hr, DbOp.apply, hm, if_false, reduceCtorEq] at he
    case ok =>
      cases he
      exact ⟨_, by simp [AcquirePhase.step, hcm], hstay _⟩
    case fault e =>
      split at he <;> cases he
      exact ⟨_, rfl, hstay _⟩

theorem Race.step_models {A : Phases} {R R' : Race} (h : A.Models key name R) {x : Bool} {c : Choice}
    (hs : R.step K name x c = some R') : ∃ A', A.step x c = some A' ∧ A'.Models key name R' := by
  cases hph : A.phase x with
  | put => exact Race.put_models h hph hs
  | get => exact Race.get_models h hph hs
  | claim m => exact Race.claim_models h hph hs
  | done won =>
    have hp := h.1 x
    rw [hph] at hp
    obtain ⟨a, ha, _⟩ := hp
    unfold Race.step at hs
    rw [ha] at hs
    simp [Prog.focus] at hs

theorem Race.run_models : ∀ {sched : List (Bool × Choice)} {A : Phases} {R R' : Race}, A.Models key name R →
    R.run K name sched = some R' → ∃ A', A.run sched = some A' ∧ A'.Models key name R'
  | [], A, _, _, h, hs => by
    cases hs
    exact ⟨A, rfl, h⟩
  | (x, c) :: sched, A, R, R', h, hs => by
    simp only [Race.run] at hs
    split at hs
    · cases hs
    rename_i R₁ h₁
    obtain ⟨A₁, ha, hm⟩ := Race.step_models h h₁
    obtain ⟨A', ha', hm'⟩ := Race.run_models hm hs
    exact ⟨A', by simp [Phases.run, ha, ha'], hm'⟩

theorem Phases.Models.won {A : Phases} {R : Race} (h : A.Models key name R) {x : Bool} {v : Nat} :
    R.won x = some v ↔ A.phase x = .done (some v) := by
  have hp := h.1 x
  unfold Race.won
  cases hph : A.phase x with
  | done won =>
    rw [hph] at hp
    obtain ⟨a, ha, rfl⟩ := hp
    rw [ha]
    cases a <;> simp [Prog.ret?, Except.toOption]
  | put =>
    have hr : (R.call x).ret? = none := by
      rw [hph] at hp
      rw [show R.call x = DynamoDbLeaseStore.acquire key (name x) from hp]
      rfl
    simp [hr]
  | get =>
    have hr : (R.call x).ret? = none := by
      rw [hph] at hp
      simp only [AcquirePhase.Prog] at hp
      rw [hp]
      rfl
    simp [hr]
  | claim m =>
    have hr : (R.call x).ret? = none := by
      rw [hph] at hp
      rw [show R.call x = DynamoDbLeaseStore.claim key (name x) m from hp]
      rfl
    simp [hr]

end

/-! ## Which interleavings have one winner -/

def Choice.isFault : Choice → Bool
  | .fault _ => true
  | _ => false

/-- How the requests of `x` were answered, in order: its put, its read, its claim. -/
def answers (sched : List (Bool × Choice)) (x : Bool) : List Choice :=
  (sched.filter fun y => y.1 == x).map Prod.snd

def ReadsLate (sched : List (Bool × Choice)) (x : Bool) : Prop :=
  ∃ l₁ c l₂, sched = l₁ ++ (!x, c) :: l₂ ∧ (answers l₁ (!x)).length = 2 ∧ c.isFault = false ∧
    (answers l₁ x).length ≤ 1

/-- `x` reads the row only after the claim of the other call, and all its requests are answered. -/
def Overtakes (sched : List (Bool × Choice)) (x : Bool) : Prop :=
  ReadsLate sched x ∧ answers sched x = [.ok, .ok, .ok]

theorem answers_snoc (sched : List (Bool × Choice)) (x y : Bool) (c : Choice) :
    answers (sched ++ [(y, c)]) x = if y = x then answers sched x ++ [c] else answers sched x := by
  unfold answers
  by_cases h : y = x <;> simp [h]

theorem readsLate_snoc {sched : List (Bool × Choice)} {x y : Bool} {c : Choice} :
    ReadsLate (sched ++ [(y, c)]) x ↔ ReadsLate sched x ∨
      (y = !x ∧ (answers sched (!x)).length = 2 ∧ c.isFault = false ∧ (answers sched x).length ≤ 1) := by
  constructor
  · intro h
    obtain ⟨l₁, d, l₂, e, hy, hf, hx⟩ := h
    rcases List.eq_nil_or_concat l₂ with rfl | ⟨l₃, z, rfl⟩
    · obtain ⟨rfl, e'⟩ := List.append_inj' e rfl
      cases e'
      exact Or.inr ⟨rfl, hy, hf, hx⟩
    · rw [List.concat_eq_append, ← List.cons_append, ← List.append_assoc] at e
      obtain ⟨rfl, _⟩ := List.append_inj' e rfl
      exact Or.inl ⟨l₁, d, l₃, rfl, hy, hf, hx⟩
  · intro h
    rcases h with ⟨l₁, d, l₂, rfl, hy, hf, hx⟩ | ⟨rfl, hy, hf, hx⟩
    · exact ⟨l₁, d, l₂ ++ [(y, c)], by simp, hy, hf, hx⟩
    · exact ⟨sched, c, [], by simp, hy, hf, hx⟩

/-- Where a call is, told from the schedule alone; `n` is the counter both calls started from, `m` the
counter of the row now. -/
def AcquirePhase.Fits (n m : Nat) (late : Prop) (as : List Choice) : AcquirePhase → Prop
  | .put => as = [] ∧ (late ∧ m = n + 1 ∨ ¬late ∧ m = n)
  | .get => as = [.ok] ∧ (late ∧ m = n + 1 ∨ ¬late ∧ m = n)
  | .claim seen => as = [.ok, .ok] ∧ (late ∧ seen = n + 1 ∧ m = n + 1 ∨ ¬late ∧ seen = n)
  | .done none => as ≠ [.ok, .ok, .ok] ∨ ¬late
  | .done (some v) => as = [.ok, .ok, .ok] ∧ (late ∧ v = n + 2 ∨ ¬late ∧ v = n + 1 ∧ n + 1 ≤ m)

theorem AcquirePhase.fits_claimed {n m m' seen : Nat} {late late' : Prop} {as : List Choice} {q : AcquirePhase}
    (hq : q.Fits n m late' as) (hn : ¬late')
    (hp : late ∧ seen = n + 1 ∧ m = n + 1 ∨ ¬late ∧ seen = n) (hm : m = seen ∧ m' = m + 1 ∨ m ≠ seen ∧ m' = m) :
    q.Fits n m' (late' ∨ as.length ≤ 1) as := by
  cases q with
  | done won => cases won <;> simp only [AcquirePhase.Fits] at hq ⊢ <;> grind
  | _ => simp only [AcquirePhase.Fits] at hq ⊢; grind

theorem AcquirePhase.fits_step {n m m' : Nat} {late late' : Prop} {as as' : List Choice} {p p' q : AcquirePhase}
    {c : Choice} (hp : p.Fits n m late as) (hq : q.Fits n m late' as')
    (hl : late' → 3 ≤ as.length) (hs : p.step m c = some (p', m')) :
    p'.Fits n m' late (as ++ [c]) ∧
      q.Fits n m' (late' ∨ (as.length = 2 ∧ c.isFault = false ∧ as'.length ≤ 1)) as' ∧
      ((∃ v, p' = .done (some v)) → (∃ v, q = .done (some v)) → late) := by
  -- before its claim a call changes neither the row nor what the other one can see
  have hsame : as.length ≠ 2 → (late' ∨ (as.length = 2 ∧ c.isFault = false ∧ as'.length ≤ 1)) = late' := by
    intro hne
    simp [hne]
  cases p with
  | put =>
    obtain ⟨rfl, hp⟩ := hp
    rw [hsame (by simp)]
    cases c <;> simp only [AcquirePhase.step, reduceCtorEq, Option.some.injEq, Prod.mk.injEq] at hs
    all_goals
      obtain ⟨rfl, rfl⟩ := hs
      refine ⟨?_, hq, ?_⟩
      · simp [AcquirePhase.Fits, hp]
      · simp
  | get =>
    obtain ⟨rfl, hp⟩ := hp
    rw [hsame (by simp)]
    cases c <;> simp only [AcquirePhase.step, reduceCtorEq, Option.some.injEq, Prod.mk.injEq] at hs
    all_goals
      obtain ⟨rfl, rfl⟩ := hs
      refine ⟨?_, hq, ?_⟩
      · simp only [AcquirePhase.Fits]
        grind
      · simp
  | claim seen =>
    obtain ⟨rfl, hp⟩ := hp
    have hn : ¬late' := fun h => by simpa using hl h
    cases c <;> simp only [AcquirePhase.step, reduceCtorEq, Option.some.injEq] at hs
    case ok =>
      split at hs
      · rename_i hm
        cases hs
        refine ⟨?_, ?_, ?_⟩
        · simp only [AcquirePhase.Fits]
          grind
        · simpa [Choice.isFault] using fits_claimed hq hn hp (Or.inl ⟨hm, rfl⟩)
        · intro _ hv
          obtain ⟨v, rfl⟩ := hv
          simp only [AcquirePhase.Fits] at hq
          grind
      · rename_i hm
        cases hs
        refine ⟨?_, ?_, by simp⟩
        · simp only [AcquirePhase.Fits]
          grind
        · simpa [Choice.isFault] using fits_claimed hq hn hp (Or.inr ⟨hm, rfl⟩)
    case fault e =>
      cases hs
      refine ⟨?_, ?_, by simp⟩
      · simp [AcquirePhase.Fits]
      · simpa [Choice.isFault] using hq
    case lostReply e =>
      split at hs
      · rename_i hm
        cases hs
        refine ⟨?_, ?_, by simp⟩
        · simp [AcquirePhase.Fits]
        · simpa [Choice.isFault] using fits_claimed hq hn hp (Or.inl ⟨hm, rfl⟩)
      · cases hs
  | done won => simp [AcquirePhase.step] at hs

theorem ReadsLate.answers {sched : List (Bool × Choice)} {x : Bool} (h : ReadsLate sched x) :
    3 ≤ (answers sched (!x)).length := by
  obtain ⟨l₁, c, l₂, rfl, hl, _⟩ := h
  unfold StreamsConsumer.answers at hl ⊢
  simp only [List.length_map] at hl
  simp [hl]
  omega

structure Phases.Fit (n : Nat) (sched : List (Bool × Choice)) (A : Phases) : Prop where
  phase : ∀ x, (A.phase x).Fits n A.counter (ReadsLate sched x) (answers sched x)
  both : ∀ x, (∃ v, A.phase x = .done (some v)) → (∃ v, A.phase (!x) = .done (some v)) →
    ReadsLate sched x ∨ ReadsLate sched (!x)

theorem Phases.Fit.step {n : Nat} {sched : List (Bool × Choice)} {A A' : Phases} (h : A.Fit n sched) {x : Bool}
    {c : Choice} (hs : A.step x c = some A') : A'.Fit n (sched ++ [(x, c)]) := by
  unfold Phases.step at hs
  obtain ⟨⟨p, m⟩, hp, rfl⟩ := Option.map_eq_some_iff.mp hs
  have hl : ReadsLate sched (!x) → 3 ≤ (answers sched x).length := fun h => by simpa using h.answers
  obtain ⟨hx, hy, hboth⟩ := AcquirePhase.fits_step (h.phase x) (h.phase (!x)) hl hp
  have hlate : ReadsLate (sched ++ [(x, c)]) x ↔ ReadsLate sched x := by
    rw [readsLate_snoc]
    simp
  have hlate' : ReadsLate (sched ++ [(x, c)]) (!x) ↔ ReadsLate sched (!x) ∨
      ((answers sched x).length = 2 ∧ c.isFault = false ∧ (answers sched (!x)).length ≤ 1) := by
    rw [readsLate_snoc]
    simp
  have hne : (!x) ≠ x := by simp
  have hcases : ∀ y : Bool, y = x ∨ y = !x := by cases x <;> decide
  refine ⟨fun y => ?_, fun y h₁ h₂ => ?_⟩
  · rcases hcases y with rfl | rfl
    · simpa [answers_snoc, hlate] using hx
    · simpa [answers_snoc, hlate', Function.update_of_ne hne] using hy
  · have hxy : (∃ v, p = .done (some v)) ∧ (∃ v, A.phase (!x) = .done (some v)) := by
      rcases hcases y with rfl | rfl
      · exact ⟨by simpa using h₁, by simpa [Function.update_of_ne hne] using h₂⟩
      · exact ⟨by simpa using h₂, by simpa [Function.update_of_ne hne] using h₁⟩
    have hx' := hlate.mpr (hboth hxy.1 hxy.2)
    rcases hcases y with rfl | rfl
    · exact Or.inl hx'
    · exact Or.inr (by simpa using hx')

theorem Phases.fit_run {n : Nat} {sched : List (Bool × Choice)} {A : Phases}
    (h : Phases.run ⟨fun _ => .put, n⟩ sched = some A) : A.Fit n sched := by
  induction sched using List.reverseRecOn generalizing A with
  | nil =>
    cases h
    refine ⟨fun x => ⟨rfl, Or.inr ⟨?_, rfl⟩⟩, fun x h => by simp at h⟩
    intro hl
    simpa [answers] using hl.answers
  | append_singleton sched y ih =>
    rw [Phases.run_append] at h
    obtain ⟨A₁, h₁, h₂⟩ := Option.bind_eq_some_iff.mp h
    simp only [Phases.run, Option.bind_fun_some] at h₂
    exact (ih h₁).step h₂

/-- One winner per observed lease state, exactly: in an interleaving of two `acquire` calls on a row with
counter `r.leaseCounter`, at most one call succeeds and only on that counter if and only if neither call reads
the row after the other call's claim and then goes through. -/
theorem acquire_one_winner_iff (K : Contract) (name : Bool → Worker) (key : ShardId) (s : World) (r : Lease)
    (sched : List (Bool × Choice)) (R : Race) (hrow : s.table key = some r)
    (hrun : (Race.start name key s).run K name sched = some R) :
    ((∀ x v, R.won x = some v → v = r.leaseCounter + 1) ∧ ¬((R.won false).isSome ∧ (R.won true).isSome)) ↔
      ∀ x, ¬Overtakes sched x := by
  have h₀ : Phases.Models key name ⟨fun _ => .put, r.leaseCounter⟩ (Race.start name key s) :=
    ⟨fun _ => rfl, r, hrow, rfl⟩
  obtain ⟨A, hA, hm⟩ := Race.run_models h₀ hrun
  have hfit := Phases.fit_run hA
  have hwon : ∀ x v, R.won x = some v ↔ A.phase x = .done (some v) := fun x v => hm.won
  constructor
  · intro ⟨hcounter, _⟩ x ⟨hlate, hans⟩
    have hx := hfit.phase x
    cases hph : A.phase x with
    | done won =>
      rw [hph] at hx
      cases won with
      | none => exact hx.elim (fun h => h hans) (fun h => h hlate)
      | some v =>
        have hv := hcounter x v ((hwon x v).mpr hph)
        rcases hx.2 with h | h
        · omega
        · exact h.1 hlate
    | _ =>
      rw [hph] at hx
      have := hx.1
      rw [hans] at this
      simp at this
  · intro hno
    have hlate : ∀ x v, R.won x = some v → ¬ReadsLate sched x ∧ v = r.leaseCounter + 1 := by
      intro x v hv
      have hx := hfit.phase x
      rw [(hwon x v).mp hv] at hx
      have hn : ¬ReadsLate sched x := fun hl => hno x ⟨hl, hx.1⟩
      rcases hx.2 with h | h
      · exact absurd h.1 hn
      · exact ⟨hn, h.2.1⟩
    refine ⟨fun x v hv => (hlate x v hv).2, ?_⟩
    intro ⟨h₁, h₂⟩
    obtain ⟨v₁, h₁⟩ := Option.isSome_iff_exists.mp h₁
    obtain ⟨v₂, h₂⟩ := Option.isSome_iff_exists.mp h₂
    rcases hfit.both false ⟨v₁, (hwon _ _).mp h₁⟩ ⟨v₂, (hwon _ _).mp h₂⟩ with h | h
    · exact (hlate _ _ h₁).1 h
    · exact (hlate _ _ h₂).1 h

/-! ## A steal of a live lease -/

def expiredRow : Lease := ⟨"shard-0", some "dead", 4, false, some "17", []⟩

def expiredWorld : World where
  table := fun k => if k = "shard-0" then some expiredRow else none
  history := [expiredRow]
  stream := ⟨[⟨"shard-0", []⟩], ["shard-0"], fun _ => [], fun _ => false⟩
  mem := fun w => Memory.init ⟨w, 10, 30000, 1000, .trimHorizon, none, none⟩
  clock := 0
  trace := []

def raceName (x : Bool) : Worker := if x then "b" else "a"

/-- `a` takes the lease; `b`, which decided on the same scan, takes it right back from `a`. -/
theorem both_acquires_succeed : ∃ R,
    (Race.start raceName "shard-0" expiredWorld).run ⟨fun _ _ _ _ _ _ => true, fun _ _ => true⟩ raceName
      [(false, .ok), (false, .ok), (false, .ok), (true, .ok), (true, .ok), (true, .ok)] = some R ∧
      R.won false = some 5 ∧ R.won true = some 6 :=
  ⟨_, rfl, rfl, rfl⟩

theorem acquire_one_winner_iff_interleaved : ∃ R,
    (Race.start raceName "shard-0" expiredWorld).run ⟨fun _ _ _ _ _ _ => true, fun _ _ => true⟩ raceName
      [(false, .ok), (true, .ok), (false, .ok), (true, .ok), (false, .ok), (true, .ok)] = some R ∧
      ∀ x, ¬Overtakes [(false, .ok), (true, .ok), (false, .ok), (true, .ok), (false, .ok), (true, .ok)] x := by
  refine ⟨_, rfl, ?_⟩
  refine (acquire_one_winner_iff ⟨fun _ _ _ _ _ _ => true, fun _ _ => true⟩ raceName "shard-0" expiredWorld
    expiredRow _ _ rfl rfl).mp ⟨?_, ?_⟩
  · intro x v hv
    cases x <;> revert v <;> decide
  · decide

end StreamsConsumer
