import StreamsConsumer.Conc.Logic

/-!
# Pools of processes over a shared state

Each process of a pool runs one program; a step is one request of one thread,
one silent step, or a move of the environment. Processes start jobs when idle,
are stopped, or crash and lose their memory. If every job meets its
precondition and the environment follows the protocol, every run keeps the
invariant and moves the state up along the order.
-/

namespace Conc

structure Machine (R : Type 1) (A : R → Type) (W C σ E J : Type) extends Handler R A W C σ where
  job : W → J → Prog R A Unit
  env : E → σ → Option σ
  /-- What a crash of the process takes with it. -/
  reset : W → σ → σ

structure Pool (R : Type 1) (A : R → Type) (W σ : Type) where
  world : σ
  procs : W → Prog R A Unit

inductive Label (W C E J : Type) where
  | call (w : W) (π : List Nat) (c : C)
  | silent (w : W) (π : List Nat)
  | start (w : W) (j : J)
  | stop (w : W)
  | crash (w : W)
  | env (e : E)

def Label.proc {W C E J : Type} : Label W C E J → Option W
  | .call w _ _ => some w
  | .silent w _ => some w
  | .start w _ => some w
  | .stop w => some w
  | .crash w => some w
  | .env _ => none

section
variable {R : Type 1} {A : R → Type} {W C σ E J : Type} [DecidableEq W] (M : Machine R A W C σ E J)

def Pool.step (p : Pool R A W σ) : Label W C E J → Option (Pool R A W σ)
  | .call w π c =>
    match (p.procs w).focus π with
    | none => none
    | some x =>
      match M.exec w x.1 c p.world with
      | none => none
      | some (a, s) => some ⟨s, Function.update p.procs w (x.2 a)⟩
  | .silent w π =>
    match (p.procs w).silent π with
    | none => none
    | some q => some ⟨p.world, Function.update p.procs w q⟩
  | .start w j =>
    match (p.procs w).ret? with
    | none => none
    | some _ => some ⟨p.world, Function.update p.procs w (M.job w j)⟩
  | .stop w => some ⟨p.world, Function.update p.procs w (.ret ())⟩
  | .crash w => some ⟨M.reset w p.world, Function.update p.procs w (.ret ())⟩
  | .env e =>
    match M.env e p.world with
    | none => none
    | some s => some ⟨s, p.procs⟩

theorem Pool.step_procs {p q : Pool R A W σ} {l : Label W C E J} (h : p.step M l = some q) {w : W}
    (hw : l.proc ≠ some w) : q.procs w = p.procs w := by
  cases l <;> simp only [Pool.step] at h
  case call v π c =>
    split at h
    · cases h
    split at h
    · cases h
    cases h
    exact Function.update_of_ne (fun e => hw (congrArg some e.symm)) _ _
  case silent v π =>
    split at h <;> cases h
    exact Function.update_of_ne (fun e => hw (congrArg some e.symm)) _ _
  case start v j =>
    split at h <;> cases h
    exact Function.update_of_ne (fun e => hw (congrArg some e.symm)) _ _
  case stop v =>
    cases h
    exact Function.update_of_ne (fun e => hw (congrArg some e.symm)) _ _
  case crash v =>
    cases h
    exact Function.update_of_ne (fun e => hw (congrArg some e.symm)) _ _
  case env e =>
    split at h <;> cases h
    rfl

def Pool.run (p : Pool R A W σ) : List (Label W C E J) → Option (Pool R A W σ)
  | [] => some p
  | l :: ls =>
    match p.step M l with
    | none => none
    | some q => q.run ls

def Pool.idle (s : σ) : Pool R A W σ := ⟨s, fun _ => .ret ()⟩

def Pool.Reaches (p q : Pool R A W σ) : Prop := ∃ ls, p.run M ls = some q

theorem Pool.run_append {p : Pool R A W σ} : ∀ {ls ms : List (Label W C E J)},
    p.run M (ls ++ ms) = (p.run M ls).bind fun q => q.run M ms
  | [], _ => rfl
  | l :: ls, ms => by
    simp only [List.cons_append, Pool.run]
    cases p.step M l with
    | none => rfl
    | some q => exact Pool.run_append

theorem Pool.Reaches.trans {p q r : Pool R A W σ} (h₁ : p.Reaches M q) (h₂ : q.Reaches M r) :
    p.Reaches M r := by
  obtain ⟨ls, hl⟩ := h₁
  obtain ⟨ms, hm⟩ := h₂
  exact ⟨ls ++ ms, by rw [Pool.run_append, hl]; exact hm⟩

/-! ## Schedules that run by themselves -/

def Pool.attempt (p : Pool R A W σ) (l : Label W C E J) : Pool R A W σ := (p.step M l).getD p

theorem Pool.reaches_attempt (p : Pool R A W σ) (l : Label W C E J) : p.Reaches M (p.attempt M l) := by
  unfold Pool.attempt
  cases h : p.step M l with
  | none => exact ⟨[], rfl⟩
  | some q => exact ⟨[l], by simp [Pool.run, h]⟩

/-- The next step of `w`: the first of the given threads that can move, answered by `oracle`. -/
def Pool.next (oracle : σ → R → C) (p : Pool R A W σ) (w : W) : List (List Nat) → Option (Label W C E J)
  | [] => none
  | π :: πs =>
    match (p.procs w).focus π with
    | some x => some (.call w π (oracle p.world x.1))
    | none =>
      match (p.procs w).silent π with
      | some _ => some (.silent w π)
      | none => p.next oracle w πs

def Pool.drive (oracle : σ → R → C) (w : W) (πs : List (List Nat)) : Nat → Pool R A W σ → Pool R A W σ
  | 0, p => p
  | n + 1, p =>
    match p.next (E := E) (J := J) oracle w πs with
    | none => p
    | some l => Pool.drive oracle w πs n (p.attempt M l)

theorem Pool.reaches_drive {oracle : σ → R → C} {w : W} {πs : List (List Nat)} : ∀ {n : Nat} {p : Pool R A W σ},
    p.Reaches M (Pool.drive M oracle w πs n p)
  | 0, _ => ⟨[], rfl⟩
  | n + 1, p => by
    unfold Pool.drive
    split
    · exact ⟨[], rfl⟩
    · exact (Pool.reaches_attempt M p _).trans M Pool.reaches_drive

/-- The obligations of a protocol: the moves of the environment follow it, and every job may be
started in every state. -/
structure Follows (L : Rely σ) : Prop where
  env : ∀ e s s', L.Inv s → M.env e s = some s' → L.Inv s' ∧ L.le s s'
  reset : ∀ w s, L.Inv s → L.Inv (M.reset w s) ∧ L.le s (M.reset w s)
  job : ∀ w j s, L.Inv s → wp M.toHandler L w (M.job w j) (fun _ _ => True) s

def Pool.Safe (L : Rely σ) (p : Pool R A W σ) : Prop :=
  L.Inv p.world ∧ ∀ w, wp M.toHandler L w (p.procs w) (fun _ _ => True) p.world

variable {M}

omit [DecidableEq W] in
theorem Pool.safe_idle {L : Rely σ} {s : σ} (h : L.Inv s) : (Pool.idle s : Pool R A W σ).Safe M L :=
  ⟨h, fun _ => trivial⟩

theorem Pool.Safe.update {L : Rely σ} {p : Pool R A W σ} (hp : p.Safe M L) {w : W} {q : Prog R A Unit}
    {s : σ} (hi : L.Inv s) (hl : L.le p.world s) (hq : wp M.toHandler L w q (fun _ _ => True) s) :
    Pool.Safe M L ⟨s, Function.update p.procs w q⟩ := by
  refine ⟨hi, fun v => ?_⟩
  by_cases hv : v = w
  · subst hv; simpa using hq
  · simp only [Function.update_of_ne hv]
    exact wp_up _ (fun _ _ _ _ _ h => h) _ _ hl hi (hp.2 v)

theorem Pool.safe_step {L : Rely σ} (F : Follows M L) {p q : Pool R A W σ} {l : Label W C E J}
    (hp : p.Safe M L) (h : p.step M l = some q) : q.Safe M L ∧ L.le p.world q.world := by
  cases l with
  | call w π c =>
    simp only [Pool.step] at h
    split at h
    · cases h
    rename_i x hx
    split at h
    · cases h
    rename_i a s he
    cases h
    obtain ⟨hi, hl, hq⟩ := wp_focus _ (fun _ _ _ _ _ h => h) hp.1 (hp.2 w) hx he
    exact ⟨hp.update hi hl hq, hl⟩
  | silent w π =>
    simp only [Pool.step] at h
    split at h
    · cases h
    rename_i r hr
    cases h
    exact ⟨hp.update hp.1 (L.refl _) (wp_silent _ hp.1 (hp.2 w) hr), L.refl _⟩
  | start w j =>
    simp only [Pool.step] at h
    split at h
    · cases h
    cases h
    exact ⟨hp.update hp.1 (L.refl _) (F.job w j _ hp.1), L.refl _⟩
  | stop w =>
    cases h
    exact ⟨hp.update hp.1 (L.refl _) trivial, L.refl _⟩
  | crash w =>
    cases h
    obtain ⟨hi, hl⟩ := F.reset w p.world hp.1
    exact ⟨hp.update hi hl trivial, hl⟩
  | env e =>
    simp only [Pool.step] at h
    split at h
    · cases h
    rename_i s hs
    cases h
    obtain ⟨hi, hl⟩ := F.env e p.world s hp.1 hs
    exact ⟨⟨hi, fun w => wp_up _ (fun _ _ _ _ _ h => h) _ _ hl hi (hp.2 w)⟩, hl⟩

theorem Pool.safe_run {L : Rely σ} (F : Follows M L) : ∀ {ls : List (Label W C E J)} {p q : Pool R A W σ},
    p.Safe M L → p.run M ls = some q → q.Safe M L ∧ L.le p.world q.world
  | [], p, q, hp, h => by
    cases h
    exact ⟨hp, L.refl _⟩
  | l :: ls, p, q, hp, h => by
    simp only [Pool.run] at h
    split at h
    · cases h
    rename_i r hr
    obtain ⟨hs, hl⟩ := Pool.safe_step F hp hr
    obtain ⟨hs', hl'⟩ := Pool.safe_run F hs h
    exact ⟨hs', L.trans hl hl'⟩

/-! ## Invariants of the shared state alone -/

theorem Pool.invariant_step {I : σ → Prop} (hcall : ∀ w r c s a s', I s → M.exec w r c s = some (a, s') → I s')
    (henv : ∀ e s s', I s → M.env e s = some s' → I s') (hreset : ∀ w s, I s → I (M.reset w s))
    {p q : Pool R A W σ} {l : Label W C E J} (hp : I p.world) (h : p.step M l = some q) : I q.world := by
  cases l with
  | call w π c =>
    simp only [Pool.step] at h
    split at h
    · cases h
    split at h
    · cases h
    rename_i a s he
    cases h
    exact hcall _ _ _ _ _ _ hp he
  | silent w π =>
    simp only [Pool.step] at h
    split at h <;> cases h
    exact hp
  | start w j =>
    simp only [Pool.step] at h
    split at h <;> cases h
    exact hp
  | stop w =>
    cases h
    exact hp
  | crash w =>
    cases h
    exact hreset w _ hp
  | env e =>
    simp only [Pool.step] at h
    split at h
    · cases h
    rename_i s hs
    cases h
    exact henv e _ _ hp hs

/-- What every answer, every move of the environment and every crash keeps holds in every run, whatever
the programs do. -/
theorem Pool.Reaches.invariant {I : σ → Prop} (hcall : ∀ w r c s a s', I s → M.exec w r c s = some (a, s') → I s')
    (henv : ∀ e s s', I s → M.env e s = some s' → I s') (hreset : ∀ w s, I s → I (M.reset w s))
    {p q : Pool R A W σ} (h : p.Reaches M q) (hp : I p.world) : I q.world := by
  obtain ⟨ls, hl⟩ := h
  induction ls generalizing p with
  | nil =>
    cases hl
    exact hp
  | cons l ls ih =>
    simp only [Pool.run] at hl
    split at hl
    · cases hl
    rename_i r hr
    exact ih (Pool.invariant_step hcall henv hreset hp hr) hl

theorem Pool.step_world {p q : Pool R A W σ} {l : Label W C E J} (h : p.step M l = some q) :
    q.world = p.world ∨ (∃ w r c a, M.exec w r c p.world = some (a, q.world)) ∨ (∃ e, M.env e p.world = some q.world) ∨
      ∃ w, q.world = M.reset w p.world := by
  cases l with
  | call w π c =>
    simp only [Pool.step] at h
    split at h
    · cases h
    rename_i x _
    split at h
    · cases h
    rename_i a s he
    cases h
    exact Or.inr (Or.inl ⟨w, x.1, c, a, he⟩)
  | silent w π =>
    simp only [Pool.step] at h
    split at h <;> cases h
    exact Or.inl rfl
  | start w j =>
    simp only [Pool.step] at h
    split at h <;> cases h
    exact Or.inl rfl
  | stop w =>
    cases h
    exact Or.inl rfl
  | crash w =>
    cases h
    exact Or.inr (Or.inr (Or.inr ⟨w, rfl⟩))
  | env e =>
    simp only [Pool.step] at h
    split at h
    · cases h
    rename_i s hs
    cases h
    exact Or.inr (Or.inr (Or.inl ⟨e, hs⟩))

/-- What holds first and is kept by every step of the run holds at its end. -/
theorem Pool.Reaches.induction {I : Pool R A W σ → Prop} {p q : Pool R A W σ} (h : p.Reaches M q) (hp : I p)
    (hstep : ∀ r r' l, p.Reaches M r → r.step M l = some r' → I r → I r') : I q := by
  have hrun : ∀ (ls : List (Label W C E J)) (r : Pool R A W σ), p.Reaches M r → I r → r.run M ls = some q → I q := by
    intro ls
    induction ls with
    | nil =>
      intro r _ hr hl
      cases hl
      exact hr
    | cons l ls ih =>
      intro r hpr hr hl
      simp only [Pool.run] at hl
      split at hl
      · cases hl
      rename_i r' hr'
      exact ih r' (hpr.trans M ⟨[l], by simp [Pool.run, hr']⟩) (hstep r r' l hpr hr' hr) hl
  obtain ⟨ls, hl⟩ := h
  exact hrun ls p ⟨[], rfl⟩ hp hl

theorem Pool.Reaches.safe {L : Rely σ} (F : Follows M L) {p q : Pool R A W σ} (h : p.Reaches M q)
    (hp : p.Safe M L) : q.Safe M L ∧ L.le p.world q.world := by
  obtain ⟨ls, hl⟩ := h
  exact Pool.safe_run F hp hl

end

/-! ## What the processes ask -/

section
variable {R : Type 1} {A : R → Type} {W C σ E J α β γ : Type} {P : R → Prop}

/-- Every request of the program, whatever it is answered, satisfies `P`. -/
def Asks (P : R → Prop) : {α : Type} → Prog R A α → Prop
  | _, .ret _ => True
  | _, .call r k => P r ∧ ∀ a, Asks P (k a)
  | _, .loop body cur k => (∀ b, Asks P (body b)) ∧ Asks P cur ∧ ∀ c, Asks P (k c)
  | _, .par _ ts k => (∀ i, Asks P (ts i)) ∧ ∀ b, Asks P (k b)

theorem asks_bind : ∀ {α : Type} {p : Prog R A α} {f : α → Prog R A β}, Asks P p → (∀ a, Asks P (f a)) →
    Asks P (p.bind f)
  | _, .ret a, _, _, hf => hf a
  | _, .call _ _, _, hp, hf => ⟨hp.1, fun a => asks_bind (hp.2 a) hf⟩
  | _, .loop _ _ _, _, hp, hf => ⟨hp.1, hp.2.1, fun c => asks_bind (hp.2.2 c) hf⟩
  | _, .par _ _ _, _, hp, hf => ⟨hp.1, fun b => asks_bind (hp.2 b) hf⟩

theorem asks_req {r : R} (h : P r) : Asks P (Prog.req r : Prog R A (A r)) := ⟨h, fun _ => trivial⟩

theorem asks_iter {body : β → Prog R A (β ⊕ γ)} {b : β} (h : ∀ b, Asks P (body b)) : Asks P (Prog.iter body b) :=
  ⟨h, h b, fun _ => trivial⟩

theorem asks_join {ts : List (Prog R A β)} (h : ∀ t ∈ ts, Asks P t) : Asks P (Prog.join ts) :=
  ⟨fun i => h _ (List.get_mem ts i), fun _ => trivial⟩

theorem asks_each {f : β → Prog R A Unit} : ∀ {xs : List β}, (∀ x ∈ xs, Asks P (f x)) → Asks P (Prog.each f xs)
  | [], _ => trivial
  | x :: _, h => asks_bind (h x List.mem_cons_self) fun _ => asks_each fun y hy => h y (List.mem_cons_of_mem _ hy)

theorem asks_focus : ∀ {α : Type} {p : Prog R A α} {π : List Nat} {x : (r : R) × (A r → Prog R A α)}, Asks P p →
    p.focus π = some x → P x.1 ∧ ∀ a, Asks P (x.2 a)
  | _, .ret _, _, _, _, hf => by simp [Prog.focus] at hf
  | _, .call r k, _, x, hp, hf => by
    simp only [Prog.focus, Option.some.injEq] at hf
    subst hf
    exact hp
  | _, .loop body cur k, π, x, hp, hf => by
    simp only [Prog.focus, Option.map_eq_some_iff] at hf
    obtain ⟨y, hy, rfl⟩ := hf
    obtain ⟨hr, hk⟩ := asks_focus hp.2.1 hy
    exact ⟨hr, fun a => ⟨hp.1, hk a, hp.2.2⟩⟩
  | _, .par n ts k, [], _, _, hf => by simp [Prog.focus] at hf
  | _, .par n ts k, i :: π, x, hp, hf => by
    simp only [Prog.focus] at hf
    split at hf
    case isFalse => cases hf
    rename_i hi
    obtain ⟨y, hy, rfl⟩ := Option.map_eq_some_iff.mp hf
    obtain ⟨hr, hk⟩ := asks_focus (hp.1 ⟨i, hi⟩) hy
    refine ⟨hr, fun a => ⟨fun j => ?_, hp.2⟩⟩
    by_cases hj : j = ⟨i, hi⟩
    · subst hj
      simpa using hk a
    · simpa [hj] using hp.1 j

theorem asks_silent : ∀ {α : Type} {p p' : Prog R A α} {π : List Nat}, Asks P p → p.silent π = some p' → Asks P p'
  | _, .ret _, _, _, _, hs => by simp [Prog.silent] at hs
  | _, .call _ _, _, _, _, hs => by simp [Prog.silent] at hs
  | _, .loop body cur k, p', π, hp, hs => by
    simp only [Prog.silent] at hs
    split at hs
    · cases hs
      exact ⟨hp.1, hp.1 _, hp.2.2⟩
    · cases hs
      exact hp.2.2 _
    · obtain ⟨cur', hc, rfl⟩ := Option.map_eq_some_iff.mp hs
      exact ⟨hp.1, asks_silent hp.2.1 hc, hp.2.2⟩
  | _, .par n ts k, p', [], hp, hs => by
    obtain ⟨b, _, rfl⟩ := Option.map_eq_some_iff.mp hs
    exact hp.2 b
  | _, .par n ts k, p', i :: π, hp, hs => by
    simp only [Prog.silent] at hs
    split at hs
    case isFalse => cases hs
    rename_i hi
    obtain ⟨t, ht, rfl⟩ := Option.map_eq_some_iff.mp hs
    refine ⟨fun j => ?_, hp.2⟩
    by_cases hj : j = ⟨i, hi⟩
    · subst hj
      simpa using asks_silent (hp.1 ⟨i, hi⟩) ht
    · simpa [hj] using hp.1 j

variable [DecidableEq W] {M : Machine R A W C σ E J}

theorem Pool.asks_step (hjob : ∀ w j, Asks P (M.job w j)) {p q : Pool R A W σ} {l : Label W C E J}
    (hp : ∀ w, Asks P (p.procs w)) (h : p.step M l = some q) : ∀ w, Asks P (q.procs w) := by
  have hupdate : ∀ {v : W} {r : Prog R A Unit}, Asks P r → ∀ w, Asks P (Function.update p.procs v r w) := by
    intro v r hr w
    by_cases hw : w = v
    · subst hw
      simpa using hr
    · simpa [hw] using hp w
  cases l <;> simp only [Pool.step] at h
  case call v π c =>
    split at h
    · cases h
    rename_i hf
    split at h
    · cases h
    cases h
    exact hupdate ((asks_focus (hp v) hf).2 _)
  case silent v π =>
    split at h <;> cases h
    rename_i hs
    exact hupdate (asks_silent (hp v) hs)
  case start v j =>
    split at h <;> cases h
    exact hupdate (hjob v j)
  case stop v =>
    cases h
    exact hupdate (r := .ret ()) trivial
  case crash v =>
    cases h
    exact hupdate (r := .ret ()) trivial
  case env e =>
    split at h <;> cases h
    exact hp

theorem Pool.Reaches.asks (hjob : ∀ w j, Asks P (M.job w j)) {p q : Pool R A W σ} (h : p.Reaches M q)
    (hp : ∀ w, Asks P (p.procs w)) : ∀ w, Asks P (q.procs w) := by
  obtain ⟨ls, hl⟩ := h
  induction ls generalizing p with
  | nil =>
    cases hl
    exact hp
  | cons l ls ih =>
    simp only [Pool.run] at hl
    split at hl
    · cases hl
    rename_i r hr
    exact ih (Pool.asks_step hjob hp hr) hl

end

end Conc
