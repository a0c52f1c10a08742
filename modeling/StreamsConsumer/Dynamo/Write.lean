import Mathlib.Data.Rat.Defs
import Mathlib.Logic.Function.Basic
import Mathlib.Tactic.Push

/-!
# Conditional writes to DynamoDB items

A table with a string hash key `pk`. An item is a map from attribute names to
values; a write names its condition and its update in the expression language
and takes effect on one item or not at all. Every expression is evaluated on
the item as it was before the write; an absent item has no attributes.
-/

namespace Dynamo

/-- Numbers are compared and added by value, whatever text they were written in. -/
inductive AttributeValue where
  | s (text : String)
  | n (value : ℚ)
  | b (bytes : List UInt8)
  | bool (b : Bool)
  | null
  | l (xs : List AttributeValue)
  | m (fields : List (String × AttributeValue))
  | ss (xs : List String)
  | ns (xs : List ℚ)
  | bs (xs : List (List UInt8))

namespace AttributeValue

mutual
/-- The comparator `=`; sets and maps are compared regardless of order. -/
def same : AttributeValue → AttributeValue → Bool
  | .s x, .s y => x == y
  | .n x, .n y => x == y
  | .b x, .b y => x == y
  | .bool x, .bool y => x == y
  | .null, .null => true
  | .l xs, .l ys => sameList xs ys
  | .m xs, .m ys => xs.length == ys.length && sameFields xs ys
  | .ss xs, .ss ys => xs.all ys.contains && ys.all xs.contains
  | .ns xs, .ns ys => xs.all ys.contains && ys.all xs.contains
  | .bs xs, .bs ys => xs.all ys.contains && ys.all xs.contains
  | _, _ => false
def sameList : List AttributeValue → List AttributeValue → Bool
  | [], [] => true
  | x :: xs, y :: ys => same x y && sameList xs ys
  | _, _ => false
def sameFields : List (String × AttributeValue) → List (String × AttributeValue) → Bool
  | [], _ => true
  | (k, x) :: fields, ys => (ys.lookup k).any (same x) && sameFields fields ys
end

theorem same_s {v : AttributeValue} {x : String} : same v (.s x) = true ↔ v = .s x := by
  cases v <;> simp [same]

theorem same_n {v : AttributeValue} {x : ℚ} : same v (.n x) = true ↔ v = .n x := by
  cases v <;> simp [same]

theorem same_bool {v : AttributeValue} {x : Bool} : same v (.bool x) = true ↔ v = .bool x := by
  cases v <;> simp [same]

end AttributeValue

abbrev Item := String → Option AttributeValue

def Item.empty : Item := fun _ => none

def Item.of (attributes : List (String × AttributeValue)) : Item := fun name => attributes.lookup name

abbrev Values := List (String × AttributeValue)

inductive Operand where
  | attr (name : String)
  | value (placeholder : String)
  | plus (a b : Operand)

inductive Condition where
  | eq (a b : Operand)
  | and (a b : Condition)
  | attributeExists (name : String)
  | attributeNotExists (name : String)

inductive Clause where
  | set (name : String) (value : Operand)
  | remove (name : String)
  | add (name placeholder : String)

def Operand.eval (vals : Values) (item : Item) : Operand → Option AttributeValue
  | attr name => item name
  | value placeholder => vals.lookup placeholder
  | plus a b =>
    match a.eval vals item, b.eval vals item with
    | some (.n x), some (.n y) => some (.n (x + y))
    | _, _ => none

def Condition.holds (vals : Values) (item : Item) : Condition → Bool
  | eq a b =>
    match a.eval vals item, b.eval vals item with
    | some x, some y => x.same y
    | _, _ => false
  | and a b => a.holds vals item && b.holds vals item
  | attributeExists name => (item name).isSome
  | attributeNotExists name => (item name).isNone

def Clause.name : Clause → String
  | set name _ => name
  | remove name => name
  | add name _ => name

/-- What a clause leaves at its attribute; nothing when the service refuses the update. -/
def Clause.result (vals : Values) (item : Item) : Clause → Option (Option AttributeValue)
  | set _ value => (value.eval vals item).map some
  | remove _ => some none
  | add name placeholder =>
    match item name, vals.lookup placeholder with
    | none, some (.n y) => some (some (.n y))
    | some (.n x), some (.n y) => some (some (.n (x + y)))
    | _, _ => none

/-- All clauses of one update, each evaluated on `before`. -/
def update (vals : Values) (before : Item) : List Clause → Option Item
  | [] => some before
  | c :: cs => do
    let v ← c.result vals before
    let after ← update vals before cs
    return Function.update after c.name v

inductive Write where
  | put (item : Item) (condition : Condition)
  | update (clauses : List Clause) (condition : Option Condition) (vals : Values)
  | delete (condition : Condition) (vals : Values)

inductive Fault where
  | conditionalCheckFailed
  | validation
  deriving DecidableEq, Repr

/-- A write to the item under `key`. An update of an absent item creates it. -/
def perform (pk key : String) (w : Write) (row : Option Item) : Except Fault (Option Item) :=
  match w with
  | .put item condition =>
    if condition.holds [] (row.getD .empty) then .ok (some item) else .error .conditionalCheckFailed
  | .update clauses condition vals =>
    if pk ∈ clauses.map Clause.name ∨ ¬ (clauses.map Clause.name).Nodup then .error .validation
    else if condition.all (·.holds vals (row.getD .empty)) then
      match Dynamo.update vals (row.getD (Item.of [(pk, .s key)])) clauses with
      | some item => .ok (some item)
      | none => .error .validation
    else .error .conditionalCheckFailed
  | .delete condition vals =>
    if condition.holds vals (row.getD .empty) then .ok none else .error .conditionalCheckFailed

/-! ## Rules -/

theorem holds_eq_value {vals : Values} {item : Item} {name p : String} {v : AttributeValue}
    (hv : vals.lookup p = some v) :
    Condition.holds vals item (.eq (.attr name) (.value p)) = (item name).any (·.same v) := by
  simp only [Condition.holds, Operand.eval, hv]
  cases item name <;> rfl

theorem update_frame {vals : Values} {before : Item} {name : String} : ∀ {cs : List Clause} {after : Item},
    update vals before cs = some after → (∀ c ∈ cs, c.name ≠ name) → after name = before name
  | [], after, h, _ => by
    simp only [update, Option.some.injEq] at h
    rw [h]
  | c :: cs, after, h, hn => by
    simp only [update, Option.bind_eq_bind, Option.bind_eq_some_iff, Option.pure_def, Option.some.injEq] at h
    obtain ⟨v, -, rest, hr, rfl⟩ := h
    rw [Function.update_of_ne (Ne.symm (hn c (List.mem_cons_self)))]
    exact update_frame hr fun d hd => hn d (List.mem_cons_of_mem c hd)

theorem update_result {vals : Values} {before : Item} {c : Clause} : ∀ {cs : List Clause} {after : Item},
    update vals before cs = some after → (cs.map Clause.name).Nodup → c ∈ cs →
      c.result vals before = some (after c.name)
  | d :: cs, after, h, hn, hc => by
    simp only [update, Option.bind_eq_bind, Option.bind_eq_some_iff, Option.pure_def, Option.some.injEq] at h
    obtain ⟨v, hv, rest, hr, rfl⟩ := h
    simp only [List.map_cons, List.nodup_cons] at hn
    rcases List.mem_cons.mp hc with rfl | hc
    · rw [Function.update_self, hv]
    · rw [Function.update_of_ne fun e => hn.1 (List.mem_map.mpr ⟨c, hc, e⟩)]
      exact update_result hr hn.2 hc

theorem perform_update_ok {pk key : String} {clauses : List Clause} {condition : Option Condition} {vals : Values}
    {row row' : Option Item} (h : perform pk key (.update clauses condition vals) row = .ok row') :
    pk ∉ clauses.map Clause.name ∧ (clauses.map Clause.name).Nodup ∧
      ∃ after, row' = some after ∧ update vals (row.getD (Item.of [(pk, .s key)])) clauses = some after := by
  simp only [perform] at h
  split at h
  · cases h
  · rename_i hn
    push Not at hn
    split at h
    · split at h
      · rename_i after ha
        cases h
        exact ⟨hn.1, hn.2, after, rfl, ha⟩
      · cases h
    · cases h

theorem perform_key {pk key : String} {w : Write} {row : Option Item} {item : Item}
    (hp : ∀ i c, w = .put i c → i pk = some (.s key)) (hr : ∀ i, row = some i → i pk = some (.s key))
    (h : perform pk key w row = .ok (some item)) : item pk = some (.s key) := by
  cases w with
  | put i c =>
    simp only [perform] at h
    split at h
    · cases h
      exact hp _ _ rfl
    · cases h
  | delete c vals =>
    simp only [perform] at h
    split at h <;> cases h
  | update clauses condition vals =>
    obtain ⟨hpk, -, after, he, hu⟩ := perform_update_ok h
    cases he
    rw [update_frame hu fun c hc e => hpk (List.mem_map.mpr ⟨c, hc, e⟩)]
    cases row with
    | none => simp [Item.of]
    | some r => exact hr r rfl

theorem update_nil (vals : Values) (before : Item) : update vals before [] = some before := rfl

theorem update_cons {vals : Values} {before after : Item} {c : Clause} {cs : List Clause} {v : Option AttributeValue}
    (hv : c.result vals before = some v) (hr : update vals before cs = some after) :
    update vals before (c :: cs) = some (Function.update after c.name v) := by
  simp [update, hv, hr]

theorem perform_update {pk key : String} {clauses : List Clause} {condition : Option Condition} {vals : Values}
    {row : Option Item} {after : Item} {P : Prop} [Decidable P] (hpk : pk ∉ clauses.map Clause.name)
    (hnd : (clauses.map Clause.name).Nodup)
    (hu : update vals (row.getD (Item.of [(pk, .s key)])) clauses = some after)
    (hc : condition.all (·.holds vals (row.getD .empty)) = true ↔ P) :
    perform pk key (.update clauses condition vals) row =
      if P then .ok (some after) else .error .conditionalCheckFailed := by
  simp only [perform, hpk, hnd, not_true_eq_false, or_self, if_false, hu]
  by_cases hP : P
  · rw [if_pos (hc.mpr hP), if_pos hP]
  · rw [if_neg fun h => hP (hc.mp h), if_neg hP]

theorem perform_refused {pk key : String} {clauses : List Clause} {condition : Condition} {vals : Values} {item : Item}
    (hpk : pk ∉ clauses.map Clause.name) (hnd : (clauses.map Clause.name).Nodup)
    (hc : condition.holds vals item = false) :
    perform pk key (.update clauses (some condition) vals) (some item) = .error .conditionalCheckFailed := by
  simp [perform, hpk, hnd, hc]

end Dynamo
