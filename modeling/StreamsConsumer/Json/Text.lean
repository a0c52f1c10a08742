import StreamsConsumer.Json.Value

/-!
# JSON texts

`TextOf v t` says that `t` spells the value `v`, with any blanks between the
tokens and any escapes in the strings. The reader finds the value of every such
text, so a text spells one value at most, and the compact writer spells each
value on one line. A number is an integer: a fraction or an exponent is read as
no value.
-/

namespace Json

/-! ## Blanks -/

def blank (c : Char) : Bool := c == ' ' || c == '\t' || c == '\n' || c == '\r'

def Blanks (w : List Char) : Prop := ∀ c ∈ w, blank c = true

theorem blanks_nil : Blanks [] := by simp [Blanks]

def skip (text : List Char) : List Char := text.dropWhile blank

theorem skip_append {w : List Char} (hw : Blanks w) (text : List Char) : skip (w ++ text) = skip text := by
  unfold skip
  rw [List.dropWhile_append_of_pos hw]

theorem skip_cons {c : Char} (hc : blank c = false) (text : List Char) : skip (c :: text) = c :: text := by
  simp [skip, hc]

theorem skip_token {w : List Char} (hw : Blanks w) {c : Char} (hc : blank c = false) (text : List Char) :
    skip (w ++ c :: text) = c :: text := by
  rw [skip_append hw, skip_cons hc]

/-! ## Numbers -/

def writeInt (n : Int) : List Char := if n < 0 then '-' :: Nat.toDigits 10 n.natAbs else Nat.toDigits 10 n.natAbs

/-- The digits `0` or those that do not start with it. -/
def readNat (text : List Char) : Option (Nat × List Char) :=
  let digits := text.takeWhile Char.isDigit
  if digits = [] ∨ digits.head? = some '0' ∧ digits ≠ ['0'] then none
  else some (Nat.ofDigitChars 10 digits 0, text.dropWhile Char.isDigit)

/-- Nothing here continues a number. -/
def Ends (rest : List Char) : Prop := ∀ c ∈ rest.head?, c.isDigit = false

theorem blank_not_digit {c : Char} (h : blank c = true) : c.isDigit = false := by
  simp only [blank, Bool.or_eq_true, beq_iff_eq] at h
  rcases h with ((rfl | rfl) | rfl) | rfl <;> decide

theorem Blanks.ends {w : List Char} (hw : Blanks w) {c : Char} (hc : c.isDigit = false) (rest : List Char) :
    Ends (w ++ c :: rest) := by
  intro d hd
  cases w with
  | nil => simpa [← Option.some.inj hd] using hc
  | cons e w =>
    obtain rfl : e = d := Option.some.inj hd
    exact blank_not_digit (hw e List.mem_cons_self)

theorem head?_toDigits (n : Nat) (hn : 0 < n) : (Nat.toDigits 10 n).head? ≠ some '0' := by
  induction n using Nat.strong_induction_on with
  | _ n ih =>
    rw [Nat.toDigits_eq_if (by decide)]
    split
    · rename_i hlt
      have hdigit : ∀ d < 10, 0 < d → d.digitChar ≠ '0' := by decide
      simpa using hdigit n hlt hn
    · rename_i hge
      have hdiv : 0 < n / 10 := by omega
      rw [List.head?_append_of_ne_nil _ Nat.toDigits_ne_nil]
      exact ih (n / 10) (by omega) hdiv

theorem readNat_toDigits (n : Nat) {rest : List Char} (hr : Ends rest) :
    readNat (Nat.toDigits 10 n ++ rest) = some (n, rest) := by
  have hall : ∀ c ∈ Nat.toDigits 10 n, c.isDigit = true := fun c hc => Nat.isDigit_of_mem_toDigits (by decide) (by decide) hc
  have htake : rest.takeWhile Char.isDigit = [] := by
    cases rest with
    | nil => rfl
    | cons c rest => simp [hr c rfl]
  have hdrop : rest.dropWhile Char.isDigit = rest := by
    cases rest with
    | nil => rfl
    | cons c rest => simp [hr c rfl]
  have hdigits : (Nat.toDigits 10 n ++ rest).takeWhile Char.isDigit = Nat.toDigits 10 n := by
    rw [List.takeWhile_append_of_pos hall, htake, List.append_nil]
  have hzero : ¬ ((Nat.toDigits 10 n).head? = some '0' ∧ Nat.toDigits 10 n ≠ ['0']) := by
    rintro ⟨h, hne⟩
    rcases Nat.eq_zero_or_pos n with rfl | hn
    · exact hne (Nat.toDigits_zero 10)
    · exact head?_toDigits n hn h
  unfold readNat
  rw [hdigits, List.dropWhile_append_of_pos hall, hdrop]
  simp only [Nat.ofDigitChars_ten_toDigits]
  exact if_neg (not_or.mpr ⟨Nat.toDigits_ne_nil, hzero⟩)

/-! ## Strings -/

def unescape : Char → Option Char
  | '"' => some '"'
  | '\\' => some '\\'
  | '/' => some '/'
  | 'b' => some '\x08'
  | 'f' => some '\x0c'
  | 'n' => some '\n'
  | 'r' => some '\r'
  | 't' => some '\t'
  | _ => none

def hexOf (c : Char) : Option Nat :=
  if '0' ≤ c ∧ c ≤ '9' then some (c.toNat - '0'.toNat)
  else if 'a' ≤ c ∧ c ≤ 'f' then some (c.toNat - 'a'.toNat + 10)
  else if 'A' ≤ c ∧ c ≤ 'F' then some (c.toNat - 'A'.toNat + 10)
  else none

def readUnit : List Char → Option (Nat × List Char)
  | a :: b :: x :: y :: rest => do
    return (4096 * (← hexOf a) + 256 * (← hexOf b) + 16 * (← hexOf x) + (← hexOf y), rest)
  | _ => none

def pairChar (u v : Nat) : Option Char :=
  if u < 0xDC00 ∧ 0xDC00 ≤ v ∧ v < 0xE000 then some (Char.ofNat (0x10000 + 1024 * (u - 0xD800) + (v - 0xDC00))) else none

def readCode (text : List Char) : Option (Char × List Char) := do
  let u ← readUnit text
  if u.1.isValidChar then return (Char.ofNat u.1, u.2)
  else
    match u.2 with
    | '\\' :: 'u' :: rest =>
      let v ← readUnit rest
      return (← pairChar u.1 v.1, v.2)
    | _ => none

def readEscape : List Char → Option (Char × List Char)
  | [] => none
  | e :: rest => if e = 'u' then readCode rest else (unescape e).map fun c => (c, rest)

def readChars : Nat → List Char → Option (List Char × List Char)
  | n + 1, c :: rest =>
    if c = '"' then some ([], rest)
    else if c = '\\' then do
      let e ← readEscape rest
      let p ← readChars n e.2
      return (e.1 :: p.1, p.2)
    else if c.toNat < 32 then none
    else (readChars n rest).map fun p => (c :: p.1, p.2)
  | _, _ => none

def readString (text : List Char) : Option (String × List Char) :=
  match skip text with
  | '"' :: rest => (readChars text.length rest).map fun p => (String.ofList p.1, p.2)
  | _ => none

/-! ### What spells a string -/

inductive UnitOf : Nat → List Char → Prop where
  | mk {a b x y : Char} {i j k l : Nat} (ha : hexOf a = some i) (hb : hexOf b = some j) (hx : hexOf x = some k)
      (hy : hexOf y = some l) : UnitOf (4096 * i + 256 * j + 16 * k + l) [a, b, x, y]

inductive CharOf (c : Char) : List Char → Prop where
  | plain (hq : c ≠ '"') (hb : c ≠ '\\') (h : 32 ≤ c.toNat) : CharOf c [c]
  | letter {e : Char} (h : unescape e = some c) : CharOf c ['\\', e]
  | unit {h : List Char} (hu : UnitOf c.toNat h) : CharOf c ('\\' :: 'u' :: h)
  | pair {n m : Nat} {h h' : List Char} (hu : UnitOf n h) (hv : UnitOf m h') (hn : 0xD800 ≤ n ∧ n < 0xDC00)
      (hm : 0xDC00 ≤ m ∧ m < 0xE000) (hc : c.toNat = 0x10000 + 1024 * (n - 0xD800) + (m - 0xDC00)) :
      CharOf c ('\\' :: 'u' :: (h ++ '\\' :: 'u' :: h'))

inductive CharsOf : List Char → List Char → Prop where
  | nil : CharsOf [] []
  | cons {c : Char} {cs t u : List Char} (h : CharOf c t) (hs : CharsOf cs u) : CharsOf (c :: cs) (t ++ u)

def StringOf (s : String) (t : List Char) : Prop := ∃ u, CharsOf s.toList u ∧ t = '"' :: (u ++ ['"'])

theorem UnitOf.read {n : Nat} {h : List Char} (hu : UnitOf n h) (rest : List Char) :
    readUnit (h ++ rest) = some (n, rest) := by
  cases hu with
  | mk ha hb hx hy => simp [readUnit, ha, hb, hx, hy]

theorem readCode_pair {c : Char} {n m : Nat} {h h' : List Char} (hu : UnitOf n h) (hv : UnitOf m h')
    (hn : 0xD800 ≤ n ∧ n < 0xDC00) (hm : 0xDC00 ≤ m ∧ m < 0xE000)
    (hc : c.toNat = 0x10000 + 1024 * (n - 0xD800) + (m - 0xDC00)) (rest : List Char) :
    readCode (h ++ '\\' :: 'u' :: (h' ++ rest)) = some (c, rest) := by
  have hinvalid : ¬ n.isValidChar := by
    unfold Nat.isValidChar
    omega
  have hchar : pairChar n m = some c := by
    rw [pairChar, if_pos ⟨hn.2, hm⟩, ← hc, Char.ofNat_toNat]
  unfold readCode
  rw [hu.read, Option.bind_eq_bind, Option.bind_some, if_neg hinvalid]
  simp only [hv.read, hchar, Option.bind_eq_bind, Option.bind_some]
  rfl

theorem CharOf.length_pos {c : Char} {t : List Char} (h : CharOf c t) : 0 < t.length := by
  cases h <;> simp

theorem CharOf.read {c : Char} {t : List Char} (h : CharOf c t) (n : Nat) (rest : List Char) :
    readChars (n + 1) (t ++ rest) = (readChars n rest).map fun p => (c :: p.1, p.2) := by
  cases h with
  | plain hq hb h => simp [readChars, hq, hb, Nat.not_lt.mpr h]
  | @letter e h =>
    have hu : e ≠ 'u' := by
      rintro rfl
      cases h
    simp [readChars, readEscape, hu, h, Option.map_eq_bind]
  | unit hu =>
    have hcode := hu.read rest
    have hvalid : c.toNat.isValidChar := c.valid
    simp [readChars, readEscape, readCode, hcode, hvalid, Option.map_eq_bind]
  | @pair i j u v hu hv hi hj hc =>
    have hcode := readCode_pair hu hv hi hj hc rest
    simp [readChars, readEscape, hcode, Option.map_eq_bind]

theorem CharsOf.read {cs t : List Char} (h : CharsOf cs t) {n : Nat} (hn : t.length < n) (rest : List Char) :
    readChars n (t ++ '"' :: rest) = some (cs, rest) := by
  induction h generalizing n with
  | nil =>
    obtain ⟨n, rfl⟩ := Nat.exists_eq_succ_of_ne_zero (Nat.ne_of_gt hn)
    simp [readChars]
  | cons h _ ih =>
    rw [List.length_append] at hn
    have hpos := h.length_pos
    obtain ⟨n, rfl⟩ := Nat.exists_eq_succ_of_ne_zero (Nat.ne_of_gt (Nat.zero_lt_of_lt hn))
    rw [List.append_assoc, h.read, ih (by omega)]
    rfl

theorem StringOf.read {s : String} {t : List Char} (h : StringOf s t) {w : List Char} (hw : Blanks w) (rest : List Char) :
    readString (w ++ (t ++ rest)) = some (s, rest) := by
  obtain ⟨u, hu, rfl⟩ := h
  unfold readString
  rw [List.cons_append, skip_token hw (by decide), List.append_assoc]
  have hlen : u.length < (w ++ '"' :: (u ++ (['"'] ++ rest))).length := by
    simp only [List.length_append, List.length_cons]
    omega
  simp only
  rw [List.singleton_append] at hlen ⊢
  rw [hu.read hlen]
  simp

/-! ## Values -/

namespace Value

mutual
def TextOf : Value → List Char → Prop
  | .null, t => t = ['n', 'u', 'l', 'l']
  | .bool true, t => t = ['t', 'r', 'u', 'e']
  | .bool false, t => t = ['f', 'a', 'l', 's', 'e']
  | .num n, t => t = writeInt n
  | .str s, t => StringOf s t
  | .arr [], t => ∃ w, Blanks w ∧ t = '[' :: (w ++ [']'])
  | .arr (x :: xs), t => ∃ w a b, Blanks w ∧ TextOf x a ∧ ItemsOf xs b ∧ t = '[' :: (w ++ (a ++ b))
  | .obj [], t => ∃ w, Blanks w ∧ t = '{' :: (w ++ ['}'])
  | .obj ((k, x) :: fields), t =>
    ∃ w s w₁ w₂ a b, Blanks w ∧ StringOf k s ∧ Blanks w₁ ∧ Blanks w₂ ∧ TextOf x a ∧ FieldsOf fields b ∧
      t = '{' :: (w ++ (s ++ (w₁ ++ ':' :: (w₂ ++ (a ++ b)))))
def ItemsOf : List Value → List Char → Prop
  | [], t => ∃ w, Blanks w ∧ t = w ++ [']']
  | x :: xs, t =>
    ∃ w w₁ a b, Blanks w ∧ Blanks w₁ ∧ TextOf x a ∧ ItemsOf xs b ∧ t = w ++ ',' :: (w₁ ++ (a ++ b))
def FieldsOf : List (String × Value) → List Char → Prop
  | [], t => ∃ w, Blanks w ∧ t = w ++ ['}']
  | (k, x) :: fields, t =>
    ∃ w w₁ s w₂ w₃ a b, Blanks w ∧ Blanks w₁ ∧ StringOf k s ∧ Blanks w₂ ∧ Blanks w₃ ∧ TextOf x a ∧ FieldsOf fields b ∧
      t = w ++ ',' :: (w₁ ++ (s ++ (w₂ ++ ':' :: (w₃ ++ (a ++ b)))))
end

def readWord : List Char → Option (Value × List Char)
  | 'n' :: 'u' :: 'l' :: 'l' :: rest => some (.null, rest)
  | 't' :: 'r' :: 'u' :: 'e' :: rest => some (.bool true, rest)
  | 'f' :: 'a' :: 'l' :: 's' :: 'e' :: rest => some (.bool false, rest)
  | _ => none

mutual
def readValue : Nat → List Char → Option (Value × List Char)
  | 0, _ => none
  | n + 1, text =>
    match skip text with
    | [] => none
    | c :: rest =>
      if c = '[' then
        if (skip rest).head? = some ']' then some (.arr [], (skip rest).tail)
        else do
          let x ← readValue n rest
          let xs ← readItems n x.2
          return (.arr (x.1 :: xs.1), xs.2)
      else if c = '{' then
        if (skip rest).head? = some '}' then some (.obj [], (skip rest).tail)
        else do
          let f ← readField n rest
          let fields ← readFields n f.2
          return (.obj (f.1 :: fields.1), fields.2)
      else if c = '"' then (readString (c :: rest)).map fun p => (.str p.1, p.2)
      else if c = '-' then do
        let p ← readNat rest
        if p.1 = 0 then none else return (.num (-p.1), p.2)
      else if c.isDigit then (readNat (c :: rest)).map fun p => (.num p.1, p.2)
      else readWord (c :: rest)
def readItems : Nat → List Char → Option (List Value × List Char)
  | 0, _ => none
  | n + 1, text =>
    match skip text with
    | [] => none
    | c :: rest =>
      if c = ']' then some ([], rest)
      else if c = ',' then do
        let x ← readValue n rest
        let xs ← readItems n x.2
        return (x.1 :: xs.1, xs.2)
      else none
def readField : Nat → List Char → Option ((String × Value) × List Char)
  | 0, _ => none
  | n + 1, text => do
    let k ← readString text
    match skip k.2 with
    | [] => none
    | c :: rest =>
      if c = ':' then do
        let x ← readValue n rest
        return ((k.1, x.1), x.2)
      else none
def readFields : Nat → List Char → Option (List (String × Value) × List Char)
  | 0, _ => none
  | n + 1, text =>
    match skip text with
    | [] => none
    | c :: rest =>
      if c = '}' then some ([], rest)
      else if c = ',' then do
        let f ← readField n rest
        let fields ← readFields n f.2
        return (f.1 :: fields.1, fields.2)
      else none
end

def read (text : List Char) : Option Value :=
  match readValue (text.length + 1) text with
  | some (v, rest) => if skip rest = [] then some v else none
  | none => none

/-! ### The reader finds what is spelled -/

/-- The first character is no blank and closes nothing. -/
def Opens (t : List Char) : Prop := ∃ c u, t = c :: u ∧ blank c = false ∧ c ≠ ']' ∧ c ≠ '}'

theorem opens_digits (n : Nat) : Opens (Nat.toDigits 10 n) := by
  obtain ⟨c, u, h⟩ := List.exists_cons_of_ne_nil (Nat.toDigits_ne_nil (n := n) (b := 10))
  have hc : c.isDigit = true := Nat.isDigit_of_mem_toDigits (by decide) (by decide) (h ▸ List.mem_cons_self)
  refine ⟨c, u, h, ?_, ?_, ?_⟩
  · by_contra hb
    rw [blank_not_digit ((Bool.not_eq_false _).mp hb)] at hc
    exact absurd hc Bool.false_ne_true
  · rintro rfl
    simp at hc
  · rintro rfl
    simp at hc

theorem TextOf.opens {v : Value} {t : List Char} (h : TextOf v t) : Opens t := by
  cases v with
  | null => exact ⟨_, _, h, by decide⟩
  | bool b => cases b <;> exact ⟨_, _, h, by decide⟩
  | num n =>
    rw [TextOf] at h
    subst h
    unfold writeInt
    split
    · exact ⟨_, _, rfl, by decide⟩
    · exact opens_digits _
  | str s =>
    obtain ⟨u, _, rfl⟩ := h
    exact ⟨_, _, rfl, by decide⟩
  | arr xs =>
    cases xs with
    | nil =>
      obtain ⟨w, _, rfl⟩ := h
      exact ⟨_, _, rfl, by decide⟩
    | cons x xs =>
      obtain ⟨w, a, b, _, _, _, rfl⟩ := h
      exact ⟨_, _, rfl, by decide⟩
  | obj fields =>
    cases fields with
    | nil =>
      obtain ⟨w, _, rfl⟩ := h
      exact ⟨_, _, rfl, by decide⟩
    | cons f fields =>
      obtain ⟨w, s, w₁, w₂, a, b, _, _, _, _, _, _, rfl⟩ := h
      exact ⟨_, _, rfl, by decide⟩

theorem ItemsOf.ends {xs : List Value} {b : List Char} (h : ItemsOf xs b) (rest : List Char) : Ends (b ++ rest) := by
  cases xs with
  | nil =>
    obtain ⟨w, hw, rfl⟩ := h
    rw [List.append_assoc]
    exact hw.ends (by decide) rest
  | cons x xs =>
    obtain ⟨w, w₁, a, b, hw, _, _, _, rfl⟩ := h
    rw [List.append_assoc]
    exact hw.ends (by decide) _

theorem FieldsOf.ends {fields : List (String × Value)} {b : List Char} (h : FieldsOf fields b) (rest : List Char) :
    Ends (b ++ rest) := by
  cases fields with
  | nil =>
    obtain ⟨w, hw, rfl⟩ := h
    rw [List.append_assoc]
    exact hw.ends (by decide) rest
  | cons f fields =>
    obtain ⟨w, w₁, s, w₂, w₃, a, b, hw, _, _, _, _, _, _, rfl⟩ := h
    rw [List.append_assoc]
    exact hw.ends (by decide) _

theorem readValue_blanks {w : List Char} (hw : Blanks w) (n : Nat) (text : List Char) :
    readValue n (w ++ text) = readValue n text := by
  cases n with
  | zero => rfl
  | succ n => simp only [readValue, skip_append hw]

theorem readValue_int (i : Int) (n : Nat) {rest : List Char} (hr : Ends rest) :
    readValue (n + 1) (writeInt i ++ rest) = some (.num i, rest) := by
  have hread := readNat_toDigits i.natAbs hr
  unfold writeInt
  split
  · rename_i hneg
    have hz : i ≠ 0 := by omega
    have habs : -(i.natAbs : Int) = i := by omega
    simp only [List.cons_append, readValue, skip_cons (c := '-') (by decide)]
    simp only [Char.reduceEq, if_false, if_true, hread, Option.bind_eq_bind, Option.bind_some, Int.natAbs_eq_zero, hz, habs]
    rfl
  · rename_i hpos
    obtain ⟨c, u, hu, hblank, -, -⟩ := opens_digits i.natAbs
    have hc : c.isDigit = true := Nat.isDigit_of_mem_toDigits (by decide) (by decide) (hu ▸ List.mem_cons_self)
    have habs : (i.natAbs : Int) = i := by omega
    rw [hu, List.cons_append] at hread ⊢
    have h₁ : c ≠ '[' := by rintro rfl; simp at hc
    have h₂ : c ≠ '{' := by rintro rfl; simp at hc
    have h₃ : c ≠ '"' := by rintro rfl; simp at hc
    have h₄ : c ≠ '-' := by rintro rfl; simp at hc
    simp only [readValue, skip_cons hblank, hread, hc, h₁, h₂, h₃, h₄, if_false, if_true, Option.map_some, habs]

theorem readValue_str {s : String} {t : List Char} (h : StringOf s t) (n : Nat) (rest : List Char) :
    readValue (n + 1) (t ++ rest) = some (.str s, rest) := by
  have hread := h.read blanks_nil rest
  obtain ⟨u, hu, rfl⟩ := h
  simp only [List.nil_append, List.cons_append, List.append_assoc] at hread ⊢
  simp [readValue, skip_cons (c := '"') (by decide), hread]

theorem readValue_arr {n : Nat} {x : Value} {xs : List Value} {w a b rest : List Char} (hw : Blanks w) (ha : Opens a)
    (hx : readValue n (a ++ (b ++ rest)) = some (x, b ++ rest)) (hxs : readItems n (b ++ rest) = some (xs, rest)) :
    readValue (n + 1) ('[' :: (w ++ (a ++ (b ++ rest)))) = some (.arr (x :: xs), rest) := by
  obtain ⟨c, u, rfl, hblank, hclose, -⟩ := ha
  have hx' := (readValue_blanks hw n _).trans hx
  simp only [List.cons_append] at hx'
  simp [readValue, skip_cons (c := '[') (by decide), skip_token hw hblank, hclose, hx', hxs]

theorem readField_of {n : Nat} {k : String} {x : Value} {w s w₁ w₂ a rest : List Char} (hw : Blanks w) (hs : StringOf k s)
    (hw₁ : Blanks w₁) (hw₂ : Blanks w₂) (hx : readValue n (a ++ rest) = some (x, rest)) :
    readField (n + 1) (w ++ (s ++ (w₁ ++ ':' :: (w₂ ++ (a ++ rest))))) = some ((k, x), rest) := by
  have hx' := (readValue_blanks hw₂ n _).trans hx
  simp [readField, hs.read hw, skip_token hw₁ (c := ':') (by decide), hx']

theorem readValue_obj {n : Nat} {f : String × Value} {fields : List (String × Value)} {w s text b rest : List Char}
    (hw : Blanks w) (hs : StringOf f.1 s)
    (hf : readField n (w ++ (s ++ text)) = some (f, b ++ rest)) (hfields : readFields n (b ++ rest) = some (fields, rest)) :
    readValue (n + 1) ('{' :: (w ++ (s ++ text))) = some (.obj (f :: fields), rest) := by
  obtain ⟨u, hu, rfl⟩ := hs
  simp only [List.cons_append, List.append_assoc, List.nil_append] at hf ⊢
  simp [readValue, skip_cons (c := '{') (by decide), skip_token hw (c := '"') (by decide), hf, hfields]

theorem readItems_cons {n : Nat} {x : Value} {xs : List Value} {w text b rest : List Char} (hw : Blanks w)
    (hx : readValue n text = some (x, b)) (hxs : readItems n b = some (xs, rest)) :
    readItems (n + 1) (w ++ ',' :: text) = some (x :: xs, rest) := by
  simp [readItems, skip_token hw (c := ',') (by decide), hx, hxs]

theorem readFields_cons {n : Nat} {f : String × Value} {fields : List (String × Value)} {w text b rest : List Char}
    (hw : Blanks w) (hf : readField n text = some (f, b)) (hfields : readFields n b = some (fields, rest)) :
    readFields (n + 1) (w ++ ',' :: text) = some (f :: fields, rest) := by
  simp [readFields, skip_token hw (c := ',') (by decide), hf, hfields]

mutual
theorem readValue_of : ∀ {v : Value} {t rest : List Char} {n : Nat}, TextOf v t → Ends rest → t.length < n →
    readValue n (t ++ rest) = some (v, rest)
  | _, _, _, 0, _, _, hn => absurd hn (Nat.not_lt_zero _)
  | .null, _, rest, n + 1, h, _, _ => by
    rw [TextOf] at h
    subst h
    rfl
  | .bool true, _, rest, n + 1, h, _, _ => by
    rw [TextOf] at h
    subst h
    rfl
  | .bool false, _, rest, n + 1, h, _, _ => by
    rw [TextOf] at h
    subst h
    rfl
  | .num i, _, rest, n + 1, h, hr, _ => by
    rw [TextOf] at h
    subst h
    exact readValue_int i n hr
  | .str s, _, rest, n + 1, h, _, _ => readValue_str h n rest
  | .arr [], _, rest, n + 1, h, _, _ => by
    obtain ⟨w, hw, rfl⟩ := h
    simp [readValue, skip_cons (c := '[') (by decide), skip_token hw (c := ']') (by decide)]
  | .arr (x :: xs), _, rest, n + 1, h, hr, hn => by
    obtain ⟨w, a, b, hw, ha, hb, rfl⟩ := h
    simp only [List.length_cons, List.length_append] at hn
    have hx : readValue n (a ++ (b ++ rest)) = some (x, b ++ rest) := readValue_of ha (hb.ends rest) (by omega)
    have hxs : readItems n (b ++ rest) = some (xs, rest) := readItems_of hb (by omega)
    have hread := readValue_arr hw ha.opens hx hxs
    simpa using hread
  | .obj [], _, rest, n + 1, h, _, _ => by
    obtain ⟨w, hw, rfl⟩ := h
    simp [readValue, skip_cons (c := '{') (by decide), skip_token hw (c := '}') (by decide)]
  | .obj ((k, x) :: fields), _, rest, n + 1, h, hr, hn => by
    obtain ⟨w, s, w₁, w₂, a, b, hw, hs, hw₁, hw₂, ha, hb, rfl⟩ := h
    simp only [List.length_cons, List.length_append] at hn
    obtain ⟨n, rfl⟩ := Nat.exists_eq_succ_of_ne_zero (show n ≠ 0 by omega)
    have hx : readValue n (a ++ (b ++ rest)) = some (x, b ++ rest) := readValue_of ha (hb.ends rest) (by omega)
    have hf := readField_of hw hs hw₁ hw₂ hx
    have hfields : readFields (n + 1) (b ++ rest) = some (fields, rest) := readFields_of hb (by omega)
    have hread := readValue_obj (f := (k, x)) hw hs hf hfields
    simpa using hread
theorem readItems_of : ∀ {xs : List Value} {b rest : List Char} {n : Nat}, ItemsOf xs b → b.length < n →
    readItems n (b ++ rest) = some (xs, rest)
  | _, _, _, 0, _, hn => absurd hn (Nat.not_lt_zero _)
  | [], _, rest, n + 1, h, _ => by
    obtain ⟨w, hw, rfl⟩ := h
    simp [readItems, skip_token hw (c := ']') (by decide)]
  | x :: xs, _, rest, n + 1, h, hn => by
    obtain ⟨w, w₁, a, b, hw, hw₁, ha, hb, rfl⟩ := h
    simp only [List.length_cons, List.length_append] at hn
    have hx : readValue n (a ++ (b ++ rest)) = some (x, b ++ rest) := readValue_of ha (hb.ends rest) (by omega)
    have hx' := (readValue_blanks hw₁ n _).trans hx
    have hxs : readItems n (b ++ rest) = some (xs, rest) := readItems_of hb (by omega)
    have hread := readItems_cons hw hx' hxs
    simpa using hread
theorem readFields_of : ∀ {fields : List (String × Value)} {b rest : List Char} {n : Nat}, FieldsOf fields b →
    b.length < n → readFields n (b ++ rest) = some (fields, rest)
  | _, _, _, 0, _, hn => absurd hn (Nat.not_lt_zero _)
  | [], _, rest, n + 1, h, _ => by
    obtain ⟨w, hw, rfl⟩ := h
    simp [readFields, skip_token hw (c := '}') (by decide)]
  | (k, x) :: fields, _, rest, n + 1, h, hn => by
    obtain ⟨w, w₁, s, w₂, w₃, a, b, hw, hw₁, hs, hw₂, hw₃, ha, hb, rfl⟩ := h
    simp only [List.length_cons, List.length_append] at hn
    obtain ⟨n, rfl⟩ := Nat.exists_eq_succ_of_ne_zero (show n ≠ 0 by omega)
    have hx : readValue n (a ++ (b ++ rest)) = some (x, b ++ rest) := readValue_of ha (hb.ends rest) (by omega)
    have hf := readField_of hw₁ hs hw₂ hw₃ hx
    have hfields : readFields (n + 1) (b ++ rest) = some (fields, rest) := readFields_of hb (by omega)
    have hread := readFields_cons hw hf hfields
    simpa using hread
end

theorem FieldsOf.closes : ∀ {fields : List (String × Value)} {b : List Char}, FieldsOf fields b → b.getLast? = some '}'
  | [], _, h => by
    obtain ⟨w, _, rfl⟩ := h
    simp
  | (k, x) :: fields, _, h => by
    obtain ⟨w, w₁, s, w₂, w₃, a, b, _, _, _, _, _, _, hb, rfl⟩ := h
    have hlast := hb.closes
    simp [List.getLast?_append, List.getLast?_cons, hlast]

theorem TextOf.closes {fields : List (String × Value)} {t : List Char} (h : TextOf (.obj fields) t) :
    t.getLast? = some '}' := by
  cases fields with
  | nil =>
    obtain ⟨w, _, rfl⟩ := h
    simp [List.getLast?_cons]
  | cons f fields =>
    obtain ⟨w, s, w₁, w₂, a, b, _, _, _, _, _, hb, rfl⟩ := h
    have hlast := hb.closes
    simp [List.getLast?_append, List.getLast?_cons, hlast]

/-- The reader finds the value of every text, whatever blanks stand around it. -/
theorem TextOf.read {v : Value} {t w w' : List Char} (h : TextOf v t) (hw : Blanks w) (hw' : Blanks w') :
    read (w ++ (t ++ w')) = some v := by
  have hends : Ends w' := by
    cases w' with
    | nil => simp [Ends]
    | cons c w' => exact blanks_nil.ends (blank_not_digit (hw' c List.mem_cons_self)) w'
  have hskip : skip w' = skip [] := by simpa using skip_append hw' []
  have hlen : t.length < (w ++ (t ++ w')).length + 1 := by
    simp only [List.length_append]
    omega
  unfold Value.read
  rw [readValue_blanks hw, readValue_of h hends hlen]
  exact if_pos hskip

/-! ## The compact writer -/

end Value

def escape : Char → Option Char
  | '"' => some '"'
  | '\\' => some '\\'
  | '\x08' => some 'b'
  | '\x0c' => some 'f'
  | '\n' => some 'n'
  | '\r' => some 'r'
  | '\t' => some 't'
  | _ => none

def writeChar (c : Char) : List Char :=
  match escape c with
  | some e => ['\\', e]
  | none =>
    if c.toNat < 32 then ['\\', 'u', '0', '0', Nat.digitChar (c.toNat / 16), Nat.digitChar (c.toNat % 16)] else [c]

def writeString (s : String) : List Char := '"' :: (s.toList.flatMap writeChar ++ ['"'])

theorem unescape_escape {c e : Char} (h : escape c = some e) : unescape e = some c ∧ 32 ≤ e.toNat := by
  unfold escape at h
  split at h <;> cases h <;> decide

theorem hexOf_digitChar : ∀ d < 16, hexOf (Nat.digitChar d) = some d ∧ 32 ≤ (Nat.digitChar d).toNat := by decide

theorem writeChar_of (c : Char) : CharOf c (writeChar c) := by
  unfold writeChar
  split
  · rename_i e he
    exact .letter (unescape_escape he).1
  · rename_i he
    split
    · rename_i hlt
      have hhigh := (hexOf_digitChar (c.toNat / 16) (by omega)).1
      have hlow := (hexOf_digitChar (c.toNat % 16) (by omega)).1
      have hunit := UnitOf.mk (a := '0') (b := '0') (i := 0) (j := 0) (by decide) (by decide) hhigh hlow
      have hcode : 4096 * 0 + 256 * 0 + 16 * (c.toNat / 16) + c.toNat % 16 = c.toNat := by omega
      rw [hcode] at hunit
      exact .unit hunit
    · rename_i hge
      refine .plain ?_ ?_ (Nat.not_lt.mp hge)
      · rintro rfl
        cases he
      · rintro rfl
        cases he

theorem writeChar_printable (c : Char) : ∀ d ∈ writeChar c, 32 ≤ d.toNat := by
  unfold writeChar
  split
  · rename_i e he
    simpa using (unescape_escape he).2
  · split
    · rename_i hlt
      have hhigh := (hexOf_digitChar (c.toNat / 16) (by omega)).2
      have hlow := (hexOf_digitChar (c.toNat % 16) (by omega)).2
      simp [hhigh, hlow]
    · rename_i hge
      simpa using hge

theorem writeChars_of : ∀ cs : List Char, CharsOf cs (cs.flatMap writeChar)
  | [] => .nil
  | c :: cs => .cons (writeChar_of c) (writeChars_of cs)

theorem writeString_of (s : String) : StringOf s (writeString s) := ⟨_, writeChars_of s.toList, rfl⟩

theorem writeString_printable (s : String) : ∀ c ∈ writeString s, 32 ≤ c.toNat := by
  intro c hc
  simp only [writeString, List.mem_cons, List.mem_append, List.mem_flatMap, List.not_mem_nil, or_false] at hc
  rcases hc with rfl | ⟨d, _, hd⟩ | rfl
  · decide
  · exact writeChar_printable d c hd
  · decide

namespace Value

mutual
def write : Value → List Char
  | .null => ['n', 'u', 'l', 'l']
  | .bool true => ['t', 'r', 'u', 'e']
  | .bool false => ['f', 'a', 'l', 's', 'e']
  | .num n => writeInt n
  | .str s => writeString s
  | .arr [] => ['[', ']']
  | .arr (x :: xs) => '[' :: (write x ++ writeItems xs)
  | .obj [] => ['{', '}']
  | .obj ((k, x) :: fields) => '{' :: (writeString k ++ ':' :: (write x ++ writeFields fields))
def writeItems : List Value → List Char
  | [] => [']']
  | x :: xs => ',' :: (write x ++ writeItems xs)
def writeFields : List (String × Value) → List Char
  | [] => ['}']
  | (k, x) :: fields => ',' :: (writeString k ++ ':' :: (write x ++ writeFields fields))
end

mutual
theorem write_of : ∀ v : Value, TextOf v v.write
  | .null => rfl
  | .bool true => rfl
  | .bool false => rfl
  | .num _ => rfl
  | .str s => writeString_of s
  | .arr [] => ⟨[], blanks_nil, rfl⟩
  | .arr (x :: xs) => ⟨[], _, _, blanks_nil, write_of x, writeItems_of xs, rfl⟩
  | .obj [] => ⟨[], blanks_nil, rfl⟩
  | .obj ((k, x) :: fields) =>
    ⟨[], _, [], [], _, _, blanks_nil, writeString_of k, blanks_nil, blanks_nil, write_of x, writeFields_of fields, rfl⟩
theorem writeItems_of : ∀ xs : List Value, ItemsOf xs (writeItems xs)
  | [] => ⟨[], blanks_nil, rfl⟩
  | x :: xs => ⟨[], [], _, _, blanks_nil, blanks_nil, write_of x, writeItems_of xs, rfl⟩
theorem writeFields_of : ∀ fields : List (String × Value), FieldsOf fields (writeFields fields)
  | [] => ⟨[], blanks_nil, rfl⟩
  | (k, x) :: fields =>
    ⟨[], [], _, [], [], _, _, blanks_nil, blanks_nil, writeString_of k, blanks_nil, blanks_nil, write_of x,
      writeFields_of fields, rfl⟩
end

/-! ### Every text is one line -/

def Printable (text : List Char) : Prop := ∀ c ∈ text, 32 ≤ c.toNat

theorem Printable.append {t u : List Char} (ht : Printable t) (hu : Printable u) : Printable (t ++ u) := by
  intro c hc
  rcases List.mem_append.mp hc with h | h
  · exact ht c h
  · exact hu c h

theorem Printable.cons {c : Char} {t : List Char} (hc : 32 ≤ c.toNat) (ht : Printable t) : Printable (c :: t) :=
  List.forall_mem_cons.mpr ⟨hc, ht⟩

theorem printable_int (n : Int) : Printable (writeInt n) := by
  have hdigits : Printable (Nat.toDigits 10 n.natAbs) := by
    intro c hc
    have h := Nat.isDigit_of_mem_toDigits (by decide) (by decide) hc
    exact le_trans (by decide) (Char.isDigit_iff_toNat.mp h).1
  unfold writeInt
  split
  · exact hdigits.cons (by decide)
  · exact hdigits

mutual
theorem printable_write : ∀ v : Value, Printable v.write
  | .null => by simp [write, Printable]
  | .bool true => by simp [write, Printable]
  | .bool false => by simp [write, Printable]
  | .num n => printable_int n
  | .str s => writeString_printable s
  | .arr [] => by simp [write, Printable]
  | .arr (x :: xs) => ((printable_write x).append (printable_items xs)).cons (by decide)
  | .obj [] => by simp [write, Printable]
  | .obj ((k, x) :: fields) =>
    have hx : Printable (x.write ++ writeFields fields) := (printable_write x).append (printable_fields fields)
    (Printable.append (writeString_printable k) (hx.cons (by decide))).cons (by decide)
theorem printable_items : ∀ xs : List Value, Printable (writeItems xs)
  | [] => by simp [writeItems, Printable]
  | x :: xs => ((printable_write x).append (printable_items xs)).cons (by decide)
theorem printable_fields : ∀ fields : List (String × Value), Printable (writeFields fields)
  | [] => by simp [writeFields, Printable]
  | (k, x) :: fields =>
    have hx : Printable (x.write ++ writeFields fields) := (printable_write x).append (printable_fields fields)
    (Printable.append (writeString_printable k) (hx.cons (by decide))).cons (by decide)
end

/-! ## Depth -/

mutual
def depth : Value → Nat
  | .arr xs => depthItems xs + 1
  | .obj fields => depthFields fields + 1
  | _ => 0
def depthItems : List Value → Nat
  | [] => 0
  | x :: xs => max (depth x) (depthItems xs)
def depthFields : List (String × Value) → Nat
  | [] => 0
  | (_, x) :: fields => max (depth x) (depthFields fields)
end

theorem depthItems_le {n : Nat} : ∀ {xs : List Value}, (∀ x ∈ xs, x.depth ≤ n) → depthItems xs ≤ n
  | [], _ => Nat.zero_le _
  | _ :: _, h => max_le (h _ List.mem_cons_self) (depthItems_le fun y hy => h y (List.mem_cons_of_mem _ hy))

theorem depthFields_le {n : Nat} : ∀ {fields : List (String × Value)}, (∀ f ∈ fields, f.2.depth ≤ n) →
    depthFields fields ≤ n
  | [], _ => Nat.zero_le _
  | _ :: _, h => max_le (h _ List.mem_cons_self) (depthFields_le fun y hy => h y (List.mem_cons_of_mem _ hy))

end Value

end Json
