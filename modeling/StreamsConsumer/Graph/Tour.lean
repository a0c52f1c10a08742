import Mathlib.Data.List.Nodup
import Mathlib.Logic.Relation
import Mathlib.Order.WellFoundedSet

/-!
# Tours

A tour visits nodes one after another, each one after everything that must
come before it. If the nodes are finitely many, closed under predecessors and
without a cycle, a tour that cannot go on has visited every node.
-/

namespace Graph

section
variable {α : Type}

structure Acyclic (nodes : List α) (before : α → α → Prop) : Prop where
  closed : ∀ p s, s ∈ nodes → before p s → p ∈ nodes
  acyclic : ∀ s, ¬ Relation.TransGen before s s

/-- `done` is what needs no visit. -/
inductive Tour (nodes : List α) (before : α → α → Prop) (done : α → Prop) : List α → Prop where
  | nil : Tour nodes before done []
  | snoc {l : List α} {s : α} (h : Tour nodes before done l) (hs : s ∈ nodes) (hd : ¬ done s) (hl : s ∉ l)
      (hp : ∀ p, before p s → done p ∨ p ∈ l) : Tour nodes before done (l ++ [s])

variable {nodes : List α} {before : α → α → Prop} {done : α → Prop} {l : List α}

theorem Tour.mem (h : Tour nodes before done l) {s : α} (hs : s ∈ l) : s ∈ nodes ∧ ¬ done s := by
  induction h with
  | nil => cases hs
  | snoc _ hn hd _ _ ih =>
    rcases List.mem_append.mp hs with hs | hs
    · exact ih hs
    · obtain rfl := List.mem_singleton.mp hs
      exact ⟨hn, hd⟩

theorem Tour.nodup (h : Tour nodes before done l) : l.Nodup := by
  induction h with
  | nil => exact List.nodup_nil
  | snoc _ _ _ hl _ ih => exact ih.append (List.nodup_singleton _) (by simpa using hl)

theorem Tour.length_le (h : Tour nodes before done l) : l.length ≤ nodes.length :=
  (List.subperm_of_subset h.nodup fun _ hs => (h.mem hs).1).length_le

theorem Tour.earlier (h : Tour nodes before done l) : ∀ {l₁ l₂ : List α} {s p : α}, l = l₁ ++ s :: l₂ → before p s →
    done p ∨ p ∈ l₁ := by
  induction h with
  | nil =>
    intro l₁ l₂ s p he _
    simp at he
  | @snoc l s' _ _ _ _ hp ih =>
    intro l₁ l₂ s p he hb
    rcases List.eq_nil_or_concat l₂ with rfl | ⟨l₃, x, rfl⟩
    · obtain ⟨rfl, hs⟩ := List.append_inj' he rfl
      cases hs
      exact hp p hb
    · rw [List.concat_eq_append, ← List.cons_append, ← List.append_assoc] at he
      obtain ⟨rfl, _⟩ := List.append_inj' he rfl
      exact ih rfl hb

theorem Acyclic.of_rank (rank : α → Nat) (hc : ∀ p s, s ∈ nodes → before p s → p ∈ nodes)
    (hr : ∀ p s, before p s → rank p < rank s) : Acyclic nodes before := by
  refine ⟨hc, ?_⟩
  intro s hs
  have hlt : ∀ {a b : α}, Relation.TransGen before a b → rank a < rank b := by
    intro a b h
    induction h with
    | single h => exact hr _ _ h
    | tail _ h ih => exact ih.trans (hr _ _ h)
  exact Nat.lt_irrefl _ (hlt hs)

theorem Acyclic.exists_ready (h : Acyclic nodes before) {todo : α → Prop} (ht : ∃ s ∈ nodes, todo s) :
    ∃ s ∈ nodes, todo s ∧ ∀ p, before p s → ¬ todo p := by
  have hirrefl : Std.Irrefl (Relation.TransGen before) := ⟨h.acyclic⟩
  have hstrict : IsStrictOrder α (Relation.TransGen before) := {}
  have hfinite : {s | s ∈ nodes ∧ todo s}.Finite := (List.finite_toSet nodes).subset fun s hs => hs.1
  obtain ⟨s, hs, hmin⟩ := (hfinite.wellFoundedOn (r := Relation.TransGen before)).has_min Set.univ (by
    obtain ⟨s, hs, hts⟩ := ht
    exact ⟨⟨s, hs, hts⟩, trivial⟩)
  refine ⟨s.1, s.2.1, s.2.2, ?_⟩
  intro p hp hpt
  exact hmin ⟨p, h.closed p s.1 s.2.1 hp, hpt⟩ trivial (Relation.TransGen.single hp)

end

end Graph
