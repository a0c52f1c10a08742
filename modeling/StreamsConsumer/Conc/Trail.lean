import Mathlib.Logic.Relation
import StreamsConsumer.Conc.Solo

/-!
# Runs with their requests

A run of one program together with what it asked and what it was told, in
order. A completed run of a composed program splits at the seams, so what a
long program can ask is read off its parts.
-/

namespace Conc

section
variable {R : Type 1} {A : R → Type} {W C σ α β γ : Type}

inductive Trail (H : Handler R A W C σ) (I : σ → σ → Prop) (w : W) {α : Type} :
    Prog R A α → σ → List ((r : R) × A r) → Prog R A α → σ → Prop where
  | refl (p : Prog R A α) (s : σ) : Trail H I w p s [] p s
  | call {p q : Prog R A α} {s s' t : σ} {π : List Nat} {x : (r : R) × (A r → Prog R A α)} {c : C} {a : A x.1}
      {log : List ((r : R) × A r)} (hf : p.focus π = some x) (he : H.exec w x.1 c s = some (a, s'))
      (h : Trail H I w (x.2 a) s' log q t) : Trail H I w p s (⟨x.1, a⟩ :: log) q t
  | silent {p p' q : Prog R A α} {s t : σ} {π : List Nat} {log : List ((r : R) × A r)}
      (hs : p.silent π = some p') (h : Trail H I w p' s log q t) : Trail H I w p s log q t
  | other {p q : Prog R A α} {s s' t : σ} {log : List ((r : R) × A r)} (hi : I s s')
      (h : Trail H I w p s' log q t) : Trail H I w p s log q t

variable {H : Handler R A W C σ} {I : σ → σ → Prop} {w : W}

theorem Trail.trans {p q r : Prog R A α} {s t u : σ} {l₁ l₂ : List ((r : R) × A r)} (h₁ : Trail H I w p s l₁ q t)
    (h₂ : Trail H I w q t l₂ r u) : Trail H I w p s (l₁ ++ l₂) r u := by
  induction h₁ with
  | refl => exact h₂
  | call hf he _ ih => exact .call hf he (ih h₂)
  | silent hs _ ih => exact .silent hs (ih h₂)
  | other hi _ ih => exact .other hi (ih h₂)

/-! ## The seams of a composed program -/

theorem focus_of_bind {p : Prog R A α} {f : α → Prog R A β} (hp : p.ret? = none) {π : List Nat} :
    (p.bind f).focus π = (p.focus π).map fun x => ⟨x.1, fun a => (x.2 a).bind f⟩ := by
  cases p with
  | ret _ => cases hp
  | call r k => rfl
  | loop body cur k =>
    simp only [Prog.bind, Prog.focus, Option.map_map]
    rfl
  | par n ts k =>
    cases π with
    | nil => rfl
    | cons i π =>
      simp only [Prog.bind, Prog.focus]
      split
      · simp only [Option.map_map]
        rfl
      · rfl

theorem silent_of_bind {p : Prog R A α} {f : α → Prog R A β} (hp : p.ret? = none) {π : List Nat} :
    (p.bind f).silent π = (p.silent π).map fun p' => p'.bind f := by
  cases p with
  | ret _ => cases hp
  | call r k => rfl
  | loop body cur k =>
    simp only [Prog.bind, Prog.silent]
    split
    · rfl
    · rfl
    · simp only [Option.map_map]
      rfl
  | par n ts k =>
    cases π with
    | nil =>
      simp only [Prog.bind, Prog.silent, Option.map_map]
      rfl
    | cons i π =>
      simp only [Prog.bind, Prog.silent]
      split
      · simp only [Option.map_map]
        rfl
      · rfl

theorem Trail.of_ret {a b : α} {s t : σ} {log : List ((r : R) × A r)} (h : Trail H I w (.ret a) s log (.ret b) t) :
    log = [] ∧ b = a ∧ Relation.ReflTransGen I s t := by
  generalize hp : (Prog.ret a : Prog R A α) = p at h
  generalize hq : (Prog.ret b : Prog R A α) = q at h
  induction h with
  | refl =>
    subst hp
    cases hq
    exact ⟨rfl, rfl, .refl⟩
  | call hf _ _ _ =>
    subst hp
    simp [Prog.focus] at hf
  | silent hs _ _ =>
    subst hp
    simp [Prog.silent] at hs
  | other hi _ ih =>
    obtain ⟨hl, hb, ht⟩ := ih hp hq
    exact ⟨hl, hb, .head hi ht⟩

theorem Trail.of_call {r : R} {k : A r → Prog R A α} {b : α} {s t : σ} {log : List ((r : R) × A r)}
    (h : Trail H I w (.call r k) s log (.ret b) t) : ∃ s₁ c a s₂ l, Relation.ReflTransGen I s s₁ ∧
      H.exec w r c s₁ = some (a, s₂) ∧ log = ⟨r, a⟩ :: l ∧ Trail H I w (k a) s₂ l (.ret b) t := by
  generalize hp : (Prog.call r k : Prog R A α) = p at h
  generalize hq : (Prog.ret b : Prog R A α) = q at h
  induction h with
  | refl =>
    subst hp
    cases hq
  | call hf he h _ =>
    subst hp
    subst hq
    simp only [Prog.focus, Option.some.injEq] at hf
    subst hf
    exact ⟨_, _, _, _, _, .refl, he, rfl, h⟩
  | silent hs _ _ =>
    subst hp
    simp [Prog.silent] at hs
  | other hi _ ih =>
    obtain ⟨s₁, c, a, s₂, l, h₁, he, hl, h⟩ := ih hp hq
    exact ⟨s₁, c, a, s₂, l, .head hi h₁, he, hl, h⟩

theorem Trail.of_bind {p : Prog R A α} {f : α → Prog R A β} {b : β} {s t : σ} {log : List ((r : R) × A r)}
    (h : Trail H I w (p.bind f) s log (.ret b) t) : ∃ a u l₁ l₂, log = l₁ ++ l₂ ∧
      Trail H I w p s l₁ (.ret a) u ∧ Trail H I w (f a) u l₂ (.ret b) t := by
  generalize hp : p.bind f = p' at h
  generalize hq : (Prog.ret b : Prog R A β) = q at h
  -- as long as the first part has not returned, every step is one of its own
  induction h generalizing p with
  | refl =>
    subst hq
    cases p with
    | ret a => exact ⟨a, _, [], [], rfl, .refl _ _, hp ▸ .refl _ _⟩
    | _ => simp [Prog.bind] at hp
  | @call _ q s s' t π x c a log hf he h ih =>
    subst hp
    subst hq
    cases hr : p.ret? with
    | some a₀ =>
      obtain rfl := Prog.eq_ret_of_ret? hr
      exact ⟨a₀, s, [], _, rfl, .refl _ _, .call hf he h⟩
    | none =>
      rw [focus_of_bind hr, Option.map_eq_some_iff] at hf
      obtain ⟨y, hy, rfl⟩ := hf
      obtain ⟨a', u, l₁, l₂, rfl, h₁, h₂⟩ := ih rfl rfl
      exact ⟨a', u, ⟨y.1, a⟩ :: l₁, l₂, rfl, .call hy he h₁, h₂⟩
  | @silent _ _ q s t π log hs h ih =>
    subst hp
    subst hq
    cases hr : p.ret? with
    | some a₀ =>
      obtain rfl := Prog.eq_ret_of_ret? hr
      exact ⟨a₀, s, [], _, rfl, .refl _ _, .silent hs h⟩
    | none =>
      rw [silent_of_bind hr, Option.map_eq_some_iff] at hs
      obtain ⟨p₁, hp₁, rfl⟩ := hs
      obtain ⟨a', u, l₁, l₂, rfl, h₁, h₂⟩ := ih rfl rfl
      exact ⟨a', u, l₁, l₂, rfl, .silent hp₁ h₁, h₂⟩
  | other hi _ ih =>
    subst hp
    obtain ⟨a', u, l₁, l₂, rfl, h₁, h₂⟩ := ih rfl hq
    exact ⟨a', u, l₁, l₂, rfl, .other hi h₁, h₂⟩

theorem Trail.of_req {r : R} {f : A r → Prog R A α} {b : α} {s t : σ} {log : List ((r : R) × A r)}
    (h : Trail H I w ((Prog.req r).bind f) s log (.ret b) t) : ∃ s₁ c a s₂ l, Relation.ReflTransGen I s s₁ ∧
      H.exec w r c s₁ = some (a, s₂) ∧ log = ⟨r, a⟩ :: l ∧ Trail H I w (f a) s₂ l (.ret b) t :=
  Trail.of_call h

theorem Trail.of_req_any {r : R} {f : A r → Prog R A α} {q : Prog R A α} {s t : σ} {log : List ((r : R) × A r)}
    (h : Trail H I w ((Prog.req r).bind f) s log q t) : (log = [] ∧ Relation.ReflTransGen I s t) ∨
      ∃ s₁ c a s₂ l, Relation.ReflTransGen I s s₁ ∧ H.exec w r c s₁ = some (a, s₂) ∧ log = ⟨r, a⟩ :: l ∧
        Trail H I w (f a) s₂ l q t := by
  generalize hp : (Prog.req r).bind f = p at h
  induction h with
  | refl => exact Or.inl ⟨rfl, .refl⟩
  | call hf he h _ =>
    subst hp
    simp only [Prog.req, Prog.bind, Prog.focus, Option.some.injEq] at hf
    subst hf
    exact Or.inr ⟨_, _, _, _, _, .refl, he, rfl, h⟩
  | silent hs _ _ =>
    subst hp
    simp [Prog.req, Prog.bind, Prog.silent] at hs
  | other hi _ ih =>
    rcases ih hp with ⟨hl, ht⟩ | ⟨s₁, c, a, s₂, l, h₁, he, hl, h⟩
    · exact Or.inl ⟨hl, .head hi ht⟩
    · exact Or.inr ⟨s₁, c, a, s₂, l, .head hi h₁, he, hl, h⟩

/-! ## Composing runs -/

theorem Trail.others {s t : σ} (h : Relation.ReflTransGen I s t) (p : Prog R A α) : Trail H I w p s [] p t := by
  induction h using Relation.ReflTransGen.head_induction_on with
  | refl => exact .refl _ _
  | head hi _ ih => exact .other hi ih

theorem bind_assoc {δ : Type} : ∀ {α : Type} (p : Prog R A α) (f : α → Prog R A β) (g : β → Prog R A δ),
    (p.bind f).bind g = p.bind fun a => (f a).bind g
  | _, .ret _, _, _ => rfl
  | _, .call r k, f, g => congrArg (Prog.call r) (funext fun a => bind_assoc (k a) f g)
  | _, .loop body cur k, f, g => congrArg (Prog.loop body cur) (funext fun c => bind_assoc (k c) f g)
  | _, .par n ts k, f, g => congrArg (Prog.par n ts) (funext fun b => bind_assoc (k b) f g)

theorem each_append {f : β → Prog R A Unit} {ys : List β} : ∀ {xs : List β},
    Prog.each f (xs ++ ys) = (Prog.each f xs).bind fun _ => Prog.each f ys
  | [] => rfl
  | x :: xs => by
    rw [List.cons_append, Prog.each, Prog.each, bind_assoc]
    congr 1
    funext _
    exact each_append

theorem Trail.of_each {f : β → Prog R A Unit} {xs : List β} {s t : σ} {log : List ((r : R) × A r)}
    (h : Trail H I w (Prog.each f xs) s log (.ret ()) t) {x : β} (hx : x ∈ xs) : ∃ pre post s₁ t₁ l₁ l l₂,
      xs = pre ++ x :: post ∧ log = l₁ ++ (l ++ l₂) ∧ Trail H I w (Prog.each f pre) s l₁ (.ret ()) s₁ ∧
        Trail H I w (f x) s₁ l (.ret ()) t₁ ∧ Trail H I w (Prog.each f post) t₁ l₂ (.ret ()) t := by
  obtain ⟨pre, post, rfl⟩ := List.append_of_mem hx
  rw [each_append] at h
  obtain ⟨_, s₁, l₁, l', rfl, hpre, hrest⟩ := h.of_bind
  obtain ⟨_, t₁, l, l₂, rfl, hx, hpost⟩ := hrest.of_bind
  exact ⟨pre, post, s₁, t₁, l₁, l, l₂, rfl, rfl, hpre, hx, hpost⟩

/-! ## What the requests of a run can do -/

theorem uses_focus {P : R → Prop} : ∀ {α : Type} {p : Prog R A α} {π : List Nat} {x : (r : R) × (A r → Prog R A α)},
    Uses P p → p.focus π = some x → P x.1 ∧ ∀ a, Uses P (x.2 a)
  | _, .ret _, _, _, _, hf => by simp [Prog.focus] at hf
  | _, .call r k, _, x, hp, hf => by
    simp only [Prog.focus, Option.some.injEq] at hf
    subst hf
    exact hp
  | _, .loop body cur k, π, x, hp, hf => by
    simp only [Prog.focus, Option.map_eq_some_iff] at hf
    obtain ⟨y, hy, rfl⟩ := hf
    obtain ⟨hr, hk⟩ := uses_focus hp.2.1 hy
    exact ⟨hr, fun a => ⟨hp.1, hk a, hp.2.2⟩⟩
  | _, .par _ _ _, _, _, hp, _ => hp.elim

theorem uses_silent {P : R → Prop} : ∀ {α : Type} {p p' : Prog R A α} {π : List Nat},
    Uses P p → p.silent π = some p' → Uses P p'
  | _, .ret _, _, _, _, hs => by simp [Prog.silent] at hs
  | _, .call _ _, _, _, _, hs => by simp [Prog.silent] at hs
  | _, .loop body cur k, p', π, hp, hs => by
    simp only [Prog.silent] at hs
    split at hs
    · cases hs
      exact ⟨hp.1, hp.1 _, hp.2.2⟩
    · cases hs
      exact hp.2.2 _
    · simp only [Option.map_eq_some_iff] at hs
      obtain ⟨cur', hc, rfl⟩ := hs
      exact ⟨hp.1, uses_silent hp.2.1 hc, hp.2.2⟩
  | _, .par _ _ _, _, _, hp, _ => hp.elim

theorem Trail.uses {P : R → Prop} {p q : Prog R A α} {s t : σ} {log : List ((r : R) × A r)}
    (h : Trail H I w p s log q t) (hp : Uses P p) : ∀ e ∈ log, P e.1 := by
  induction h with
  | refl => simp
  | call hf _ _ ih =>
    obtain ⟨hr, hk⟩ := uses_focus hp hf
    intro e he
    rcases List.mem_cons.mp he with rfl | he
    · exact hr
    · exact ih (hk _) e he
  | silent hs _ ih => exact ih (uses_silent hp hs)
  | other _ _ ih => exact ih hp

/-- What a run does to the world, with its program forgotten. -/
inductive Moves (H : Handler R A W C σ) (I : σ → σ → Prop) (w : W) : σ → List ((r : R) × A r) → σ → Prop where
  | refl (s : σ) : Moves H I w s [] s
  | call {s s' t : σ} {r : R} {c : C} {a : A r} {log : List ((r : R) × A r)} (he : H.exec w r c s = some (a, s'))
      (h : Moves H I w s' log t) : Moves H I w s (⟨r, a⟩ :: log) t
  | other {s s' t : σ} {log : List ((r : R) × A r)} (hi : I s s') (h : Moves H I w s' log t) : Moves H I w s log t

theorem Trail.moves {p q : Prog R A α} {s t : σ} {log : List ((r : R) × A r)} (h : Trail H I w p s log q t) :
    Moves H I w s log t := by
  induction h with
  | refl => exact .refl _
  | call _ he _ ih => exact .call he ih
  | silent _ _ ih => exact ih
  | other hi _ ih => exact .other hi ih

theorem Moves.trans {s t u : σ} {l₁ l₂ : List ((r : R) × A r)} (h₁ : Moves H I w s l₁ t) (h₂ : Moves H I w t l₂ u) :
    Moves H I w s (l₁ ++ l₂) u := by
  induction h₁ with
  | refl => exact h₂
  | call he _ ih => exact .call he (ih h₂)
  | other hi _ ih => exact .other hi (ih h₂)

theorem Moves.others {s t : σ} (h : Relation.ReflTransGen I s t) : Moves H I w s [] t := by
  induction h using Relation.ReflTransGen.head_induction_on with
  | refl => exact .refl _
  | head hi _ ih => exact .other hi ih

theorem Moves.rel {L : σ → σ → Prop} (hrefl : ∀ s, L s s) (htrans : ∀ {a b c}, L a b → L b c → L a c)
    (hI : ∀ s s', I s s' → L s s') {s t : σ} {log : List ((r : R) × A r)} (h : Moves H I w s log t)
    (hlog : ∀ e ∈ log, ∀ c s s', H.exec w e.1 c s = some (e.2, s') → L s s') : L s t := by
  induction h with
  | refl => exact hrefl _
  | call he _ ih =>
    have hstep := hlog _ List.mem_cons_self _ _ _ he
    exact htrans hstep (ih fun e he => hlog e (List.mem_cons_of_mem _ he))
  | other hi _ ih => exact htrans (hI _ _ hi) (ih hlog)

/-! ## Runs without interference -/

def Alone (_ _ : σ) : Prop := False

theorem eq_of_alone {s t : σ} (h : Relation.ReflTransGen Alone s t) : t = s := by
  induction h with
  | refl => rfl
  | tail _ h _ => exact h.elim

/-! ## Programs without loops come to an end -/

def Straight : {α : Type} → Prog R A α → Prop
  | _, .ret _ => True
  | _, .call _ k => ∀ a, Straight (k a)
  | _, .loop _ _ _ => False
  | _, .par _ _ _ => False

theorem straight_bind {f : α → Prog R A β} (hf : ∀ a, Straight (f a)) : ∀ {p : Prog R A α}, Straight p →
    Straight (p.bind f)
  | .ret a, _ => hf a
  | .call _ _, hp => fun a => straight_bind hf (hp a)
  | .loop _ _ _, hp => hp.elim
  | .par _ _ _, hp => hp.elim

theorem straight_req (r : R) : Straight (Prog.req r : Prog R A (A r)) := fun _ => trivial

theorem exists_trail (hans : ∀ r s, ∃ c a s', H.exec w r c s = some (a, s')) : ∀ {p : Prog R A α}, Straight p →
    ∀ s, ∃ log a t, Trail H I w p s log (.ret a) t
  | .ret a, _, s => ⟨[], a, s, .refl _ _⟩
  | .call r k, hp, s => by
    obtain ⟨c, x, s', he⟩ := hans r s
    obtain ⟨log, a, t, h⟩ := exists_trail hans (hp x) s'
    exact ⟨_, a, t, .call (π := []) (x := ⟨r, k⟩) rfl he h⟩
  | .loop _ _ _, hp, _ => hp.elim
  | .par _ _ _, hp, _ => hp.elim

/-- The run of a program without loops in which the calls are answered by the given choices, one after another. -/
def script (H : Handler R A W C σ) (w : W) : {α : Type} → Prog R A α → List C → σ →
    Option (List ((r : R) × A r) × α × σ)
  | _, .ret a, _, s => some ([], a, s)
  | _, .call _ _, [], _ => none
  | _, .call r k, c :: cs, s =>
    (H.exec w r c s).bind fun x => (script H w (k x.1) cs x.2).map fun y => (⟨r, x.1⟩ :: y.1, y.2)
  | _, .loop _ _ _, _, _ => none
  | _, .par _ _ _, _, _ => none

theorem Trail.of_script : ∀ {α : Type} {p : Prog R A α} {l : List C} {s t : σ} {log : List ((r : R) × A r)} {a : α},
    script H w p l s = some (log, a, t) → Trail H I w p s log (.ret a) t
  | _, .ret _, _, s, t, log, a, h => by
    simp only [script, Option.some.injEq, Prod.mk.injEq] at h
    obtain ⟨rfl, rfl, rfl⟩ := h
    exact .refl _ _
  | _, .call r k, [], s, t, log, a, h => by simp [script] at h
  | _, .call r k, c :: cs, s, t, log, a, h => by
    simp only [script, Option.bind_eq_some_iff, Option.map_eq_some_iff, Prod.mk.injEq] at h
    obtain ⟨⟨x, s'⟩, he, ⟨_, b, u⟩, hrest, rfl, e⟩ := h
    cases e
    exact .call (π := []) (x := ⟨r, k⟩) rfl he (of_script hrest)
  | _, .loop _ _ _, _, _, _, _, _, h => by simp [script] at h
  | _, .par _ _ _, _, _, _, _, _, h => by simp [script] at h

end

end Conc
