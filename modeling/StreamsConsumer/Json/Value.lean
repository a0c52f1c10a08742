import Mathlib.Data.List.Perm.Basic
import Mathlib.Data.List.Sort
import Mathlib.Data.String.Basic

/-!
# JSON values

An object lists its entries in some order. The canonical form has every object
in the order of its keys: two values are the same JSON if their canonical forms
are equal. `assign` keeps an object in that form.
-/

namespace Json

/-! ## Objects in the order of their keys -/

section
variable {κ α : Type} [LinearOrder κ]

def SortedKeys (fields : List (κ × α)) : Prop := fields.Pairwise fun a b => a.1 < b.1

/-- Assignment to a key: a value that is there is replaced. -/
def assign : List (κ × α) → κ → α → List (κ × α)
  | [], k, v => [(k, v)]
  | (k', v') :: fields, k, v =>
    if k < k' then (k, v) :: (k', v') :: fields
    else if k = k' then (k, v) :: fields
    else (k', v') :: assign fields k v

def ofEntries (entries : List (κ × α)) : List (κ × α) := entries.foldl (fun out e => assign out e.1 e.2) []

theorem assign_perm {k : κ} {v : α} : ∀ {fields : List (κ × α)}, (∀ f ∈ fields, f.1 ≠ k) →
    (assign fields k v).Perm ((k, v) :: fields)
  | [], _ => List.Perm.refl _
  | (k', v') :: fields, h => by
    unfold assign
    split
    · exact List.Perm.refl _
    · rw [if_neg (Ne.symm (h _ List.mem_cons_self))]
      have ih := assign_perm (v := v) fun f hf => h f (List.mem_cons_of_mem _ hf)
      exact (ih.cons _).trans (.swap _ _ _)

theorem assign_sorted {k : κ} {v : α} : ∀ {fields : List (κ × α)}, SortedKeys fields → (∀ f ∈ fields, f.1 ≠ k) →
    SortedKeys (assign fields k v)
  | [], _, _ => List.pairwise_singleton _ _
  | (k', v') :: fields, hs, h => by
    obtain ⟨hle, hs'⟩ := List.pairwise_cons.mp hs
    have hne : k ≠ k' := Ne.symm (h _ List.mem_cons_self)
    have hrest : ∀ f ∈ fields, f.1 ≠ k := fun f hf => h f (List.mem_cons_of_mem _ hf)
    unfold assign
    by_cases hk : k < k'
    · rw [if_pos hk]
      refine List.pairwise_cons.mpr ⟨?_, hs⟩
      intro f hf
      rcases List.mem_cons.mp hf with rfl | hf
      · exact hk
      · exact hk.trans (hle f hf)
    · rw [if_neg hk, if_neg hne]
      refine List.pairwise_cons.mpr ⟨?_, assign_sorted hs' hrest⟩
      intro f hf
      rcases List.mem_cons.mp ((assign_perm hrest).mem_iff.mp hf) with rfl | hf
      · exact lt_of_le_of_ne (not_lt.mp hk) (Ne.symm hne)
      · exact hle f hf

theorem SortedKeys.nil : SortedKeys ([] : List (κ × α)) := List.Pairwise.nil

theorem SortedKeys.nodup {fields : List (κ × α)} (h : SortedKeys fields) : (fields.map Prod.fst).Nodup := by
  rw [List.Nodup, List.pairwise_map]
  exact h.imp fun hlt => ne_of_lt hlt

theorem foldl_assign : ∀ {entries out : List (κ × α)}, SortedKeys out → ((out ++ entries).map Prod.fst).Nodup →
    SortedKeys (entries.foldl (fun out e => assign out e.1 e.2) out) ∧
      (entries.foldl (fun out e => assign out e.1 e.2) out).Perm (out ++ entries)
  | [], out, hs, _ => by
    rw [List.append_nil]
    exact ⟨hs, List.Perm.refl _⟩
  | (k, v) :: entries, out, hs, hn => by
    have hnew : ∀ f ∈ out, f.1 ≠ k := by
      rintro f hf rfl
      rw [List.map_append, List.nodup_append] at hn
      exact hn.2.2 f.1 (List.mem_map_of_mem hf) f.1 (by simp) rfl
    have hperm : (assign out k v ++ entries).Perm (out ++ (k, v) :: entries) :=
      ((assign_perm hnew).append_right entries).trans List.perm_middle.symm
    have hn' : ((assign out k v ++ entries).map Prod.fst).Nodup := (hperm.map Prod.fst).nodup_iff.mpr hn
    obtain ⟨hsorted, hp⟩ := foldl_assign (assign_sorted hs hnew) hn'
    exact ⟨hsorted, hp.trans hperm⟩

theorem ofEntries_eq {entries fields : List (κ × α)} (hs : SortedKeys fields) (hp : entries.Perm fields) :
    ofEntries entries = fields := by
  have hn : (([] ++ entries).map Prod.fst).Nodup := (hp.map Prod.fst).nodup_iff.mpr hs.nodup
  have hnil : SortedKeys ([] : List (κ × α)) := List.Pairwise.nil
  obtain ⟨hsorted, hperm⟩ := foldl_assign hnil hn
  refine List.Perm.eq_of_pairwise ?_ hsorted hs (hperm.trans hp)
  intro a b _ _ hab hba
  exact absurd hab (not_lt_of_gt hba)

theorem assign_sortedKeys {k : κ} {v : α} : ∀ {fields : List (κ × α)}, SortedKeys fields →
    SortedKeys (assign fields k v) ∧ ∀ f ∈ assign fields k v, f = (k, v) ∨ f ∈ fields
  | [], _ => ⟨List.pairwise_singleton _ _, by simp [assign]⟩
  | (k', v') :: fields, hs => by
    obtain ⟨hle, hs'⟩ := List.pairwise_cons.mp hs
    unfold assign
    rcases lt_trichotomy k k' with hk | rfl | hk
    · rw [if_pos hk]
      refine ⟨List.pairwise_cons.mpr ⟨?_, hs⟩, by simp⟩
      intro f hf
      rcases List.mem_cons.mp hf with rfl | hf
      · exact hk
      · exact hk.trans (hle f hf)
    · rw [if_neg (lt_irrefl k), if_pos rfl]
      refine ⟨List.pairwise_cons.mpr ⟨hle, hs'⟩, ?_⟩
      intro f hf
      rcases List.mem_cons.mp hf with rfl | hf
      · exact .inl rfl
      · exact .inr (List.mem_cons_of_mem _ hf)
    · rw [if_neg hk.not_gt, if_neg hk.ne']
      obtain ⟨hsorted, hmem⟩ := assign_sortedKeys (k := k) (v := v) hs'
      refine ⟨List.pairwise_cons.mpr ⟨?_, hsorted⟩, ?_⟩
      · intro f hf
        rcases hmem f hf with rfl | hf
        · exact hk
        · exact hle f hf
      · intro f hf
        rcases List.mem_cons.mp hf with rfl | hf
        · exact .inr List.mem_cons_self
        · exact (hmem f hf).imp_right (List.mem_cons_of_mem _)

theorem ofEntries_sortedKeys (entries : List (κ × α)) :
    SortedKeys (ofEntries entries) ∧ ∀ f ∈ ofEntries entries, f ∈ entries := by
  have hrun : ∀ (entries out : List (κ × α)), SortedKeys out →
      SortedKeys (entries.foldl (fun out e => assign out e.1 e.2) out) ∧
        ∀ f ∈ entries.foldl (fun out e => assign out e.1 e.2) out, f ∈ out ++ entries := by
    intro entries
    induction entries with
    | nil =>
      intro out hs
      exact ⟨hs, by simp⟩
    | cons e entries ih =>
      intro out hs
      obtain ⟨hs', hmem⟩ := assign_sortedKeys (k := e.1) (v := e.2) hs
      obtain ⟨hsorted, hf⟩ := ih _ hs'
      refine ⟨hsorted, fun f h => ?_⟩
      rcases List.mem_append.mp (hf f h) with h | h
      · rcases hmem f h with rfl | h
        · simp
        · simp [h]
      · simp [h]
  exact hrun entries [] List.Pairwise.nil

end

/-! ## Converted lists -/

section
variable {α β γ δ : Type} {f : α → β} {g : γ → β}

theorem map_convert {f' : α → δ} {g' : γ → δ} : ∀ {l : List α} {m : List γ}, l.map f = m.map g →
    (∀ a ∈ l, ∀ c ∈ m, f a = g c → f' a = g' c) → l.map f' = m.map g'
  | [], m, h, _ => by
    have hm : m = [] := List.map_eq_nil_iff.mp h.symm
    rw [hm]
    rfl
  | a :: l, [], h, _ => by simp at h
  | a :: l, c :: m, h, hc => by
    obtain ⟨hhead, htail⟩ := List.cons.inj h
    rw [List.map_cons, List.map_cons, hc a List.mem_cons_self c List.mem_cons_self hhead,
      map_convert htail fun a' ha' c' hc' => hc a' (List.mem_cons_of_mem _ ha') c' (List.mem_cons_of_mem _ hc')]

theorem exists_perm_map {l : List α} {m : List γ} (h : (l.map f).Perm (m.map g)) :
    ∃ u : List γ, l.map f = u.map g ∧ u.Perm m := by
  have hcomp := congrFun (congrFun (List.eq_map_comp_perm g) (l.map f)) m
  exact hcomp.mpr h

end

/-! ## Values -/

inductive Value where
  | null
  | bool (b : Bool)
  | num (n : Int)
  | str (s : String)
  | arr (xs : List Value)
  | obj (fields : List (String × Value))

namespace Value

mutual
def canon : Value → Value
  | .arr xs => .arr (canonList xs)
  | .obj fields => .obj ((canonFields fields).insertionSort fun a b => a.1 ≤ b.1)
  | v => v
def canonList : List Value → List Value
  | [] => []
  | x :: xs => x.canon :: canonList xs
def canonFields : List (String × Value) → List (String × Value)
  | [] => []
  | (k, x) :: fields => (k, x.canon) :: canonFields fields
end

theorem canonList_eq : ∀ xs : List Value, canonList xs = xs.map canon
  | [] => rfl
  | x :: xs => by simp [canonList, canonList_eq xs]

theorem canonFields_eq : ∀ fields : List (String × Value), canonFields fields = fields.map fun f => (f.1, f.2.canon)
  | [] => rfl
  | (k, x) :: fields => by simp [canonFields, canonFields_eq fields]

theorem canon_arr (xs : List Value) : (Value.arr xs).canon = .arr (xs.map canon) := by
  rw [canon, canonList_eq]

theorem canon_obj (fields : List (String × Value)) :
    (Value.obj fields).canon = .obj ((fields.map fun f => (f.1, f.2.canon)).insertionSort fun a b => a.1 ≤ b.1) := by
  rw [canon, canonFields_eq]

theorem canon_obj_sorted {fields : List (String × Value)} (h : SortedKeys fields) (hf : ∀ f ∈ fields, f.2.canon = f.2) :
    (Value.obj fields).canon = .obj fields := by
  have hmap : (fields.map fun f => (f.1, f.2.canon)) = fields := by
    rw [List.map_congr_left (g := id) fun f hm => by simp [hf f hm], List.map_id]
  rw [canon_obj, hmap, List.Pairwise.insertionSort_eq]
  exact h.imp fun hlt => le_of_lt hlt

theorem canon_eq_arr {v : Value} {ys : List Value} (h : v.canon = .arr ys) : ∃ xs, v = .arr xs ∧ xs.map canon = ys := by
  cases v <;> simp [canon] at h
  rename_i xs
  exact ⟨xs, rfl, by rw [← canonList_eq]; exact h⟩

theorem canon_eq_obj {v : Value} {fields : List (String × Value)} (h : v.canon = .obj fields) :
    ∃ entries, v = .obj entries ∧ (entries.map fun e => (e.1, e.2.canon)).Perm fields := by
  cases v <;> simp [canon] at h
  rename_i entries
  refine ⟨entries, rfl, ?_⟩
  rw [← canonFields_eq, ← h]
  exact (List.perm_insertionSort _ _).symm

theorem canon_eq_single {v x : Value} {tag : String} (h : v.canon = .obj [(tag, x)]) :
    ∃ y, v = .obj [(tag, y)] ∧ y.canon = x := by
  obtain ⟨entries, rfl, hp⟩ := canon_eq_obj h
  have he := List.perm_singleton.mp hp
  obtain ⟨⟨k, y⟩, rfl, hy⟩ := List.map_eq_singleton_iff.mp he
  obtain ⟨rfl, rfl⟩ := Prod.mk.inj hy
  exact ⟨y, rfl, rfl⟩

/-! ### Values that are written in one way only -/

def Rigid (v : Value) : Prop := ∀ x : Value, x.canon = v ↔ x = v

theorem rigid_str (s : String) : Rigid (.str s) := by
  intro x
  cases x <;> simp [canon]

theorem rigid_bool (b : Bool) : Rigid (.bool b) := by
  intro x
  cases x <;> simp [canon]

theorem rigid_num (n : Int) : Rigid (.num n) := by
  intro x
  cases x <;> simp [canon]

theorem rigid_arr {α : Type} {f : α → Value} {xs : List α} (h : ∀ x ∈ xs, Rigid (f x)) : Rigid (.arr (xs.map f)) := by
  intro v
  constructor
  · intro hv
    obtain ⟨ys, rfl, hys⟩ := canon_eq_arr hv
    have hid : ys.map id = xs.map f := map_convert hys fun y _ x hx he => (h x hx y).mp he
    rw [← hid, List.map_id]
  · rintro rfl
    rw [canon_arr, List.map_map]
    congr 1
    apply List.map_congr_left
    intro x hx
    exact (h x hx (f x)).mpr rfl

theorem rigid_single {v : Value} (h : Rigid v) (tag : String) : Rigid (.obj [(tag, v)]) := by
  intro x
  constructor
  · intro hx
    obtain ⟨y, rfl, hy⟩ := canon_eq_single hx
    rw [(h y).mp hy]
  · rintro rfl
    simp [canon, canonFields, (h v).mpr rfl]

end Value

end Json
