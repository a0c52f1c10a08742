import Mathlib.Data.Fin.Tuple.Basic

/-!
# Programs that issue requests

A program either returns, issues one request and continues with the answer,
repeats a body until it yields a result, or runs a fixed family of branches
concurrently and joins them. A request is one atomic step; everything between
two requests is a pure computation. `loop` keeps the running body instance, so
an unbounded loop needs no fuel.
-/

namespace Conc

inductive Prog (R : Type 1) (A : R → Type) : Type → Type 1 where
  | ret {α : Type} (a : α) : Prog R A α
  | call {α : Type} (r : R) (k : A r → Prog R A α) : Prog R A α
  | loop {α β γ : Type} (body : β → Prog R A (β ⊕ γ)) (cur : Prog R A (β ⊕ γ)) (k : γ → Prog R A α) :
      Prog R A α
  | par {α β : Type} (n : Nat) (ts : Fin n → Prog R A β) (k : (Fin n → β) → Prog R A α) : Prog R A α

namespace Prog

variable {R : Type 1} {A : R → Type} {α β γ : Type}

def bind : {α : Type} → Prog R A α → (α → Prog R A β) → Prog R A β
  | _, ret a, f => f a
  | _, call r k, f => call r fun a => (k a).bind f
  | _, loop body cur k, f => loop body cur fun c => (k c).bind f
  | _, par n ts k, f => par n ts fun b => (k b).bind f

instance : Monad (Prog R A) where
  pure := ret
  bind := bind

def req (r : R) : Prog R A (A r) := call r ret

def iter (body : β → Prog R A (β ⊕ γ)) (b : β) : Prog R A γ := loop body (body b) ret

def join (ts : List (Prog R A β)) : Prog R A (List β) :=
  par ts.length ts.get fun b => ret (List.ofFn b)

def each (f : β → Prog R A Unit) : List β → Prog R A Unit
  | [] => ret ()
  | x :: xs => (f x).bind fun _ => each f xs

def ret? : {α : Type} → Prog R A α → Option α
  | _, ret a => some a
  | _, _ => none

@[simp] theorem pure_eq (a : α) : (pure a : Prog R A α) = ret a := rfl

@[simp] theorem bind_eq (p : Prog R A α) (f : α → Prog R A β) : p >>= f = p.bind f := rfl

theorem loop_bind {δ : Type} (body : β → Prog R A (β ⊕ γ)) (cur : Prog R A (β ⊕ γ)) (k : γ → Prog R A α)
    (f : α → Prog R A δ) : (loop body cur k).bind f = loop body cur fun c => (k c).bind f := rfl

theorem eq_ret_of_ret? {p : Prog R A α} {a : α} (h : p.ret? = some a) : p = ret a := by
  cases p <;> simp [ret?] at h
  subst h; rfl

/-! ## Small steps -/

/-- The request a thread is about to issue, and how it continues. A path picks the branch at each
`par` on the way down. -/
def focus : {α : Type} → Prog R A α → List Nat → Option ((r : R) × (A r → Prog R A α))
  | _, ret _, _ => none
  | _, call r k, _ => some ⟨r, k⟩
  | _, loop body cur k, π => (cur.focus π).map fun x => ⟨x.1, fun a => loop body (x.2 a) k⟩
  | _, par _ _ _, [] => none
  | _, par n ts k, i :: π =>
    if h : i < n then
      ((ts ⟨i, h⟩).focus π).map fun x => ⟨x.1, fun a => par n (Function.update ts ⟨i, h⟩ (x.2 a)) k⟩
    else none

def results : (n : Nat) → (Fin n → Prog R A β) → Option (Fin n → β)
  | 0, _ => some Fin.elim0
  | n + 1, ts => do
    let b ← (ts 0).ret?
    let bs ← results n fun i => ts i.succ
    return Fin.cons b bs

/-- A step that issues no request: a loop body ended, or all branches of a `par` did. -/
def silent : {α : Type} → Prog R A α → List Nat → Option (Prog R A α)
  | _, ret _, _ => none
  | _, call _ _, _ => none
  | _, loop body cur k, π =>
    match cur.ret? with
    | some (.inl b) => some (loop body (body b) k)
    | some (.inr c) => some (k c)
    | none => (cur.silent π).map fun cur' => loop body cur' k
  | _, par n ts k, [] => (results n ts).map k
  | _, par n ts k, i :: π =>
    if h : i < n then ((ts ⟨i, h⟩).silent π).map fun t => par n (Function.update ts ⟨i, h⟩ t) k
    else none

theorem results_eq : ∀ {n : Nat} {ts : Fin n → Prog R A β} {b : Fin n → β},
    results n ts = some b → ∀ i, ts i = ret (b i)
  | 0, _, _, _, i => i.elim0
  | n + 1, ts, b, h, i => by
    simp only [results, Option.bind_eq_bind, Option.bind_eq_some_iff] at h
    obtain ⟨b₀, h₀, bs, hbs, hb⟩ := h
    simp only [Option.pure_def, Option.some.injEq] at hb
    subst hb
    refine Fin.cases ?_ (fun j => ?_) i
    · rw [Fin.cons_zero]; exact eq_ret_of_ret? h₀
    · rw [Fin.cons_succ]; exact results_eq hbs j

theorem results_ret : ∀ {n : Nat} {ts : Fin n → Prog R A β} {b : Fin n → β}, (∀ i, ts i = .ret (b i)) →
    results n ts = some b
  | 0, _, _, _ => by
    simp only [results, Option.some.injEq]
    exact Subsingleton.elim _ _
  | n + 1, ts, b, h => by
    have hrest : results n (fun i => ts i.succ) = some fun i => b i.succ := results_ret fun i => h i.succ
    have hcons : (Fin.cons (b 0) fun i : Fin n => b i.succ) = b := Fin.cons_self_tail b
    simp [results, h 0, ret?, hrest, hcons]

end Prog

end Conc
