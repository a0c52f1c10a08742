import StreamsConsumer.Conc.Trail

/-!
# Branches side by side

Runs of a `par`, branch by branch. A branch that issues requests about one
component of the state only, and is answered by a function of that component,
makes the same steps there as it would make alone. What it arrives at does not
depend on the other branches.
-/

namespace Conc

section
variable {R : Type 1} {A : R → Type} {W C σ τ α β : Type}

/-! ## One step at a time -/

theorem silent_of_focus : ∀ {α : Type} {p : Prog R A α} {π : List Nat} {x : (r : R) × (A r → Prog R A α)},
    p.focus π = some x → p.silent π = none
  | _, .ret _, _, _, h => by simp [Prog.focus] at h
  | _, .call _ _, _, _, _ => rfl
  | _, .loop body cur k, π, x, h => by
    simp only [Prog.focus, Option.map_eq_some_iff] at h
    obtain ⟨y, hy, _⟩ := h
    have hret : cur.ret? = none := by
      cases cur with
      | ret _ => simp [Prog.focus] at hy
      | _ => rfl
    simp [Prog.silent, hret, silent_of_focus hy]
  | _, .par _ _ _, [], _, h => by simp [Prog.focus] at h
  | _, .par n ts k, i :: π, x, h => by
    simp only [Prog.focus] at h
    split at h
    · rename_i hi
      obtain ⟨y, hy, _⟩ := Option.map_eq_some_iff.mp h
      simp [Prog.silent, hi, silent_of_focus hy]
    · cases h

theorem focus_path {P : R → Prop} : ∀ {α : Type} {p : Prog R A α}, Uses P p → ∀ π, p.focus π = p.focus []
  | _, .ret _, _, _ => rfl
  | _, .call _ _, _, _ => rfl
  | _, .loop body cur k, hp, π => by simp only [Prog.focus, focus_path hp.2.1 π]
  | _, .par _ _ _, hp, _ => hp.elim

theorem silent_path {P : R → Prop} : ∀ {α : Type} {p : Prog R A α}, Uses P p → ∀ π, p.silent π = p.silent []
  | _, .ret _, _, _ => rfl
  | _, .call _ _, _, _ => rfl
  | _, .loop body cur k, hp, π => by simp only [Prog.silent, silent_path hp.2.1 π]
  | _, .par _ _ _, hp, _ => hp.elim

/-- The next step of a program without branches that is alone with `K`. -/
inductive Step (K : Handler R A W Unit τ) (w : W) : Prog R A α × τ → Prog R A α × τ → Prop where
  | call {p : Prog R A α} {u v : τ} {x : (r : R) × (A r → Prog R A α)} {a : A x.1} (hf : p.focus [] = some x)
      (he : K.exec w x.1 () u = some (a, v)) : Step K w (p, u) (x.2 a, v)
  | silent {p q : Prog R A α} {u : τ} (hs : p.silent [] = some q) : Step K w (p, u) (q, u)

variable {K : Handler R A W Unit τ} {w : W}

theorem step_rightUnique : Relator.RightUnique (Step (α := α) K w) := by
  intro x y z hy hz
  cases hy with
  | call hf he =>
    cases hz with
    | call hf' he' =>
      cases hf.symm.trans hf'
      cases he.symm.trans he'
      rfl
    | silent hs => cases (silent_of_focus hf).symm.trans hs
  | silent hs =>
    cases hz with
    | call hf _ => cases (silent_of_focus hf).symm.trans hs
    | silent hs' =>
      cases hs.symm.trans hs'
      rfl

theorem step_ret {a : α} {u : τ} {y : Prog R A α × τ} : ¬ Step K w (.ret a, u) y := by
  intro h
  cases h with
  | call hf _ => simp [Prog.focus] at hf
  | silent hs => simp [Prog.silent] at hs

theorem result_unique {x : Prog R A α × τ} {a b : α} {u v : τ} (h : Relation.ReflTransGen (Step K w) x (.ret a, u))
    (h' : Relation.ReflTransGen (Step K w) x (.ret b, v)) : a = b ∧ u = v := by
  have hstuck : ∀ {c : α} {u : τ} {y : Prog R A α × τ}, Relation.ReflTransGen (Step K w) (.ret c, u) y →
      y = (.ret c, u) := by
    intro c u y hy
    rcases Relation.ReflTransGen.cases_head hy with e | ⟨z, hz, _⟩
    · exact e.symm
    · exact absurd hz step_ret
  have heq : (Prog.ret a, u) = ((Prog.ret b, v) : Prog R A α × τ) := by
    rcases Relation.ReflTransGen.total_of_right_unique step_rightUnique h h' with hab | hba
    · exact (hstuck hab).symm
    · exact hstuck hba
  cases heq
  exact ⟨rfl, rfl⟩

/-! ## The steps of a branch -/

/-- The requests in `P` are about the component `get` only, where `K` answers them. -/
structure Local (H : Handler R A W C σ) (K : Handler R A W Unit τ) (w : W) (P : R → Prop) (get : σ → τ) : Prop where
  answer : ∀ r, P r → ∀ c s a s', H.exec w r c s = some (a, s') → K.exec w r () (get s) = some (a, get s')

variable {H : Handler R A W C σ} {P : R → Prop} {get : σ → τ}

theorem Local.call (hL : Local H K w P get) {p : Prog R A α} (hp : Uses P p) {π : List Nat}
    {x : (r : R) × (A r → Prog R A α)} (hf : p.focus π = some x) {c : C} {s s' : σ} {a : A x.1}
    (he : H.exec w x.1 c s = some (a, s')) : Step K w (p, get s) (x.2 a, get s') ∧ Uses P (x.2 a) := by
  obtain ⟨hr, hk⟩ := uses_focus hp hf
  rw [focus_path hp] at hf
  exact ⟨.call hf (hL.answer x.1 hr c s a s' he), hk a⟩

theorem Local.silent {p q : Prog R A α} (hp : Uses P p) {π : List Nat} (hs : p.silent π = some q) (u : τ) :
    Step K w (p, u) (q, u) ∧ Uses P q := by
  have hq := uses_silent hp hs
  rw [silent_path hp] at hs
  exact ⟨.silent hs, hq⟩

/-! ## Runs of all branches -/

variable {I : σ → σ → Prop}

theorem Runs.of_par {n : Nat} {ts : Fin n → Prog R A β} {k : (Fin n → β) → Prog R A α} {q : Prog R A α} {s t : σ}
    (J : (Fin n → Prog R A β) → σ → Prop)
    (hcall : ∀ ts s i π x c a s', J ts s → (ts i).focus π = some x → H.exec w x.1 c s = some (a, s') →
      J (Function.update ts i (x.2 a)) s')
    (hsilent : ∀ ts s i π p, J ts s → (ts i).silent π = some p → J (Function.update ts i p) s)
    (hI : ∀ ts s s', I s s' → J ts s → J ts s') (h : Runs H I w (.par n ts k) s q t) (hJ : J ts s) :
    (∃ ts', q = .par n ts' k ∧ J ts' t) ∨ ∃ b u, J (fun i => .ret (b i)) u ∧ Runs H I w (k b) u q t := by
  generalize hp : Prog.par n ts k = p at h
  induction h generalizing ts with
  | refl =>
    subst hp
    exact Or.inl ⟨ts, rfl, hJ⟩
  | @call p q s s' t π x c a hf he h ih =>
    subst hp
    cases π with
    | nil => simp [Prog.focus] at hf
    | cons i π =>
      simp only [Prog.focus] at hf
      split at hf
      · rename_i hi
        obtain ⟨y, hy, rfl⟩ := Option.map_eq_some_iff.mp hf
        exact ih (hcall ts s ⟨i, hi⟩ π y c a s' hJ hy he) rfl
      · cases hf
  | @silent p p' q s t π hs h ih =>
    subst hp
    cases π with
    | nil =>
      simp only [Prog.silent, Option.map_eq_some_iff] at hs
      obtain ⟨b, hb, rfl⟩ := hs
      have hts : ts = fun i => .ret (b i) := funext (Prog.results_eq hb)
      exact Or.inr ⟨b, s, hts ▸ hJ, h⟩
    | cons i π =>
      simp only [Prog.silent] at hs
      split at hs
      · rename_i hi
        obtain ⟨p₁, hp₁, rfl⟩ := Option.map_eq_some_iff.mp hs
        exact ih (hsilent ts s ⟨i, hi⟩ π p₁ hJ hp₁) rfl
      · cases hs
  | other hi _ ih => exact ih (hI ts _ _ hi hJ) hp

/-- A run of a composed program is still in its first part, or has left it. -/
theorem Runs.of_bind {p : Prog R A α} {f : α → Prog R A β} {q : Prog R A β} {s t : σ}
    (h : Runs H I w (p.bind f) s q t) :
    (∃ p', q = p'.bind f ∧ Runs H I w p s p' t) ∨ ∃ a u, Runs H I w p s (.ret a) u ∧ Runs H I w (f a) u q t := by
  generalize hp : p.bind f = p' at h
  induction h generalizing p with
  | refl => exact Or.inl ⟨p, hp.symm, .refl _ _⟩
  | @call _ q s s' t π x c a hf he h ih =>
    subst hp
    cases hr : p.ret? with
    | some a₀ =>
      obtain rfl := Prog.eq_ret_of_ret? hr
      exact Or.inr ⟨a₀, s, .refl _ _, .call hf he h⟩
    | none =>
      rw [focus_of_bind hr, Option.map_eq_some_iff] at hf
      obtain ⟨y, hy, rfl⟩ := hf
      rcases ih rfl with ⟨p', e, h'⟩ | ⟨b, u, h₁, h₂⟩
      · exact Or.inl ⟨p', e, .call hy he h'⟩
      · exact Or.inr ⟨b, u, .call hy he h₁, h₂⟩
  | @silent _ _ q s t π hs h ih =>
    subst hp
    cases hr : p.ret? with
    | some a₀ =>
      obtain rfl := Prog.eq_ret_of_ret? hr
      exact Or.inr ⟨a₀, s, .refl _ _, .silent hs h⟩
    | none =>
      rw [silent_of_bind hr, Option.map_eq_some_iff] at hs
      obtain ⟨p₁, hp₁, rfl⟩ := hs
      rcases ih rfl with ⟨p', e, h'⟩ | ⟨b, u, h₁, h₂⟩
      · exact Or.inl ⟨p', e, .silent hp₁ h'⟩
      · exact Or.inr ⟨b, u, .silent hp₁ h₁, h₂⟩
  | other hi _ ih =>
    rcases ih hp with ⟨p', e, h'⟩ | ⟨b, u, h₁, h₂⟩
    · exact Or.inl ⟨p', e, .other hi h'⟩
    · exact Or.inr ⟨b, u, .other hi h₁, h₂⟩

theorem Runs.of_ret {a : α} {q : Prog R A α} {s t : σ} (h : Runs H Alone w (.ret a) s q t) : q = .ret a ∧ t = s := by
  cases h with
  | refl => exact ⟨rfl, rfl⟩
  | call hf _ _ => simp [Prog.focus] at hf
  | silent hs _ => simp [Prog.silent] at hs
  | other hi _ => exact hi.elim

theorem Runs.keeps {J : σ → Prop} (hJ : ∀ r, P r → ∀ c s a s', H.exec w r c s = some (a, s') → J s → J s')
    {p q : Prog R A α} {s t : σ} (h : Runs H Alone w p s q t) (hp : Uses P p) (hs : J s) : J t := by
  induction h with
  | refl => exact hs
  | call hf he _ ih =>
    obtain ⟨hr, hk⟩ := uses_focus hp hf
    exact ih (hk _) (hJ _ hr _ _ _ _ he hs)
  | silent hs' _ ih => exact ih (uses_silent hp hs') hs
  | other hi _ _ => exact hi.elim

theorem Runs.uses {p q : Prog R A α} {s t : σ} (h : Runs H I w p s q t) (hp : Uses P p) : Uses P q := by
  induction h with
  | refl => exact hp
  | call hf _ _ ih => exact ih ((uses_focus hp hf).2 _)
  | silent hs _ ih => exact ih (uses_silent hp hs)
  | other _ _ ih => exact ih hp

theorem Runs.straight {p q : Prog R A α} {s t : σ} (h : Runs H I w p s q t) (hp : Straight p) : Straight q := by
  induction h with
  | refl => exact hp
  | @call p _ _ _ _ π x _ a hf _ _ ih =>
    cases p with
    | ret _ => simp [Prog.focus] at hf
    | call r k =>
      simp only [Prog.focus, Option.some.injEq] at hf
      subst hf
      exact ih (hp a)
    | loop _ _ _ => exact hp.elim
    | par _ _ _ => exact hp.elim
  | @silent p _ _ _ _ π hs _ ih =>
    cases p with
    | ret _ => simp [Prog.silent] at hs
    | call _ _ => simp [Prog.silent] at hs
    | loop _ _ _ => exact hp.elim
    | par _ _ _ => exact hp.elim
  | other _ _ ih => exact ih hp

theorem straight_runs (hans : ∀ r, P r → ∀ s, ∃ c a s', H.exec w r c s = some (a, s')) : ∀ {p : Prog R A α}, Straight p →
    Uses P p → ∀ s, ∃ a t, Runs H I w p s (.ret a) t
  | .ret a, _, _, s => ⟨a, s, .refl _ _⟩
  | .call r k, hp, hu, s => by
    obtain ⟨c, x, s', he⟩ := hans r hu.1 s
    obtain ⟨a, t, h⟩ := straight_runs hans (hp x) (hu.2 x) s'
    exact ⟨a, t, .call (π := []) (x := ⟨r, k⟩) rfl he h⟩
  | .loop _ _ _, hp, _, _ => hp.elim
  | .par _ _ _, hp, _, _ => hp.elim

theorem Runs.of_req {r : R} {a : A r} {s t : σ} (h : Runs H Alone w (Prog.req r) s (.ret a) t) :
    ∃ c, H.exec w r c s = some (a, t) := by
  generalize hq : (Prog.ret a : Prog R A (A r)) = q at h
  cases h with
  | refl => cases hq
  | @call _ _ _ s' _ π x c b hf he h =>
    simp only [Prog.req, Prog.focus, Option.some.injEq] at hf
    subst hf
    obtain ⟨e, rfl⟩ := h.of_ret
    cases hq.trans e
    exact ⟨c, he⟩
  | silent hs _ => simp [Prog.req, Prog.silent] at hs
  | other hi _ => exact hi.elim

theorem Runs.branch {n : Nat} {ts : Fin n → Prog R A β} {k : (Fin n → β) → Prog R A α} {i : Fin n} {q : Prog R A β}
    {s t : σ} (h : Runs H I w (ts i) s q t) :
    Runs H I w (.par n ts k) s (.par n (Function.update ts i q) k) t := by
  generalize hp : ts i = p at h
  induction h generalizing ts with
  | refl =>
    subst hp
    rw [Function.update_eq_self]
    exact .refl _ _
  | @call p q s s' t π x c a hf he h ih =>
    subst hp
    have hfocus : (Prog.par n ts k).focus (i :: π) = some ⟨x.1, fun a => .par n (Function.update ts i (x.2 a)) k⟩ := by
      simp [Prog.focus, hf]
    have hself : Function.update ts i (x.2 a) i = x.2 a := Function.update_self _ _ _
    have hrest := ih hself
    rw [Function.update_idem] at hrest
    exact .call hfocus he hrest
  | @silent p p' q s t π hs h ih =>
    subst hp
    have hsilent : (Prog.par n ts k).silent (i :: π) = some (.par n (Function.update ts i p') k) := by
      simp [Prog.silent, hs]
    have hself : Function.update ts i p' i = p' := Function.update_self _ _ _
    have hrest := ih hself
    rw [Function.update_idem] at hrest
    exact .silent hsilent hrest
  | other hi _ ih => exact .other hi (ih hp)

section
variable {n : Nat} {J : (Fin n → Prog R A β) → σ → Prop}
  (hcall : ∀ ts s i π x c a s', J ts s → (ts i).focus π = some x → H.exec w x.1 c s = some (a, s') →
    J (Function.update ts i (x.2 a)) s')
  (hsilent : ∀ ts s i π p, J ts s → (ts i).silent π = some p → J (Function.update ts i p) s)
include hcall hsilent

theorem Runs.branch_keeps {ts : Fin n → Prog R A β} {i : Fin n} {q : Prog R A β} {s t : σ}
    (h : Runs H Alone w (ts i) s q t) (hJ : J ts s) : J (Function.update ts i q) t := by
  generalize hp : ts i = p at h
  induction h generalizing ts with
  | refl =>
    subst hp
    rw [Function.update_eq_self]
    exact hJ
  | @call p q s s' t π x c a hf he h ih =>
    subst hp
    have hrest := ih (hcall ts s i π x c a s' hJ hf he) (Function.update_self _ _ _)
    rwa [Function.update_idem] at hrest
  | @silent p p' q s t π hs h ih =>
    subst hp
    have hrest := ih (hsilent ts s i π p' hJ hs) (Function.update_self _ _ _)
    rwa [Function.update_idem] at hrest
  | other hi _ _ => exact hi.elim

/-- If each branch can always be brought to its end, so can all of them together. -/
theorem Runs.finish (hret : ∀ ts s i, J ts s → ∃ b t, Runs H Alone w (ts i) s (.ret b) t) {ts : Fin n → Prog R A β} {s : σ}
    (hJ : J ts s) {k : (Fin n → β) → Prog R A α} : ∃ b t, Runs H Alone w (.par n ts k) s (k b) t ∧ J (fun i => .ret (b i)) t := by
  have hsome : ∀ l : List (Fin n), ∃ ts' t, Runs H Alone w (.par n ts k) s (.par n ts' k) t ∧ J ts' t ∧
      ∀ i ∈ l, ∃ b, ts' i = .ret b := by
    intro l
    induction l with
    | nil => exact ⟨ts, s, .refl _ _, hJ, fun i hi => by cases hi⟩
    | cons i l ih =>
      obtain ⟨ts', t, hrun, hJ', hend⟩ := ih
      obtain ⟨b, u, hbranch⟩ := hret ts' t i hJ'
      refine ⟨Function.update ts' i (.ret b), u, hrun.trans hbranch.branch, hbranch.branch_keeps hcall hsilent hJ', ?_⟩
      intro j hj
      by_cases hji : j = i
      · subst hji
        exact ⟨b, Function.update_self _ _ _⟩
      · rw [Function.update_of_ne hji]
        exact hend j (List.mem_of_ne_of_mem hji hj)
  obtain ⟨ts', t, hrun, hJ', hend⟩ := hsome (List.finRange n)
  choose b hb using fun i => hend i (List.mem_finRange i)
  refine ⟨b, t, hrun.trans (.silent (π := []) ?_ (.refl _ _)), ?_⟩
  · simp [Prog.silent, Prog.results_ret hb]
  · exact (funext hb : ts' = _) ▸ hJ'

end

/-- Run the branches in the given order, skipping those that cannot move. -/
def follow (H : Handler R A W C σ) (w : W) (oracle : σ → R → C) : List (List Nat) → Prog R A α → σ → Prog R A α × σ
  | [], p, s => (p, s)
  | π :: πs, p, s =>
    match p.focus π with
    | some x =>
      match H.exec w x.1 (oracle s x.1) s with
      | some (a, s') => follow H w oracle πs (x.2 a) s'
      | none => follow H w oracle πs p s
    | none =>
      match p.silent π with
      | some p' => follow H w oracle πs p' s
      | none => follow H w oracle πs p s

theorem runs_follow {oracle : σ → R → C} : ∀ {πs : List (List Nat)} {p : Prog R A α} {s : σ},
    Runs H I w p s (follow H w oracle πs p s).1 (follow H w oracle πs p s).2
  | [], _, _ => .refl _ _
  | π :: πs, p, s => by
    unfold follow
    split
    · rename_i x hf
      split
      · rename_i he
        exact .call hf he runs_follow
      · exact runs_follow
    · split
      · rename_i hs
        exact .silent hs runs_follow
      · exact runs_follow

end

end Conc
