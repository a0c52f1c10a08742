import Mathlib.Data.List.DropRight
import StreamsConsumer.Json.Lines
import StreamsConsumer.Protocol.Records
import StreamsConsumer.Sidecar.Ipc

/-!
# Messages on the wire

`protocol/src/lib.rs`: one JSON object a line, tagged by `type`. A client may
write the entries of an object in any order, with any blanks and any escapes.
-/

namespace StreamsConsumer
open Json

/-! ## Tagged messages -/

namespace Serde

/-- What serde writes of a message and what it reads. The order of the entries does not matter. -/
structure Schema (M : Type) where
  entries : M → List (String × Value)
  ofValue : Value → Option M
  reads : ∀ {m : M} {fields : List (String × Value)}, fields.Perm (entries m) → ofValue (.obj fields) = some m

namespace Schema
variable {M : Type} (s : Schema M)

def toValue (m : M) : Value := .obj (s.entries m)

def toJson (m : M) : List Char := (s.toValue m).write

def toLine (m : M) : List Char := frame (s.toJson m)

def trimEnd (line : List Char) : List Char := line.rdropWhile fun c => c = '\n' ∨ c = '\r'

def parse (line : List Char) : Option M := fromStr s.ofValue (trimEnd line)

/-- A text of the message, not necessarily the one that serde writes. -/
def Spells (m : M) (t : List Char) : Prop :=
  ∃ fields, fields.Perm (s.entries m) ∧ (Value.obj fields).TextOf t ∧ (Value.obj fields).depth < RECURSION_LIMIT

variable {s}

theorem trimEnd_front (line : List Char) : trimEnd line <+: line := List.rdropWhile_prefix _ line

theorem trimEnd_of_text {fields : List (String × Value)} {t : List Char} (h : (Value.obj fields).TextOf t) : trimEnd t = t := by
  obtain ⟨u, rfl⟩ := List.getLast?_eq_some_iff.mp h.closes
  exact List.rdropWhile_concat_neg _ _ _ (by decide)

theorem Spells.parse {m : M} {t : List Char} (h : s.Spells m t) : s.parse t = some m := by
  obtain ⟨fields, hp, ht, hdepth⟩ := h
  have hread := fromStr_of s.ofValue ht blanks_nil blanks_nil
  rw [List.nil_append, List.append_nil, if_pos hdepth] at hread
  rw [Schema.parse, trimEnd_of_text ht, hread, s.reads hp]

theorem Spells.cut {m : M} {t p : List Char} (h : s.Spells m t) (hp : p <+: t) (hne : p ≠ t) : s.parse p = none := by
  obtain ⟨fields, -, ht, -⟩ := h
  have hpart : trimEnd p <+: t := (trimEnd_front p).trans hp
  have hshort : trimEnd p ≠ t := by
    intro heq
    have hle := (heq ▸ trimEnd_front p).length_le
    exact hne (hp.eq_of_length_le hle)
  simp [Schema.parse, fromStr, Value.read_cut ht hpart hshort]

theorem Spells.carries {m : M} {t : List Char} (h : s.Spells m t) {brk : Char → Bool} (hline : ∀ c ∈ t, brk c = false) :
    Carries brk s.parse t m where
  line := hline
  whole := h.parse
  cut _ hp hne := h.cut hp hne

/-- The texts of these messages, one a line. -/
def Stream (s : Schema M) (brk : Char → Bool) (ts : List (List Char)) (ms : List M) : Prop :=
  List.Forall₂ (fun t m => s.Spells m t ∧ ∀ c ∈ t, brk c = false) ts ms

/-- A stream is read as the messages that were written, and any front of it as a front of these. -/
theorem Stream.read {brk : Char → Bool} (hb : brk '\n' = true) {ts : List (List Char)} {ms : List M} (h : s.Stream brk ts ms) :
    received brk s.parse (ts.flatMap frame) = ms ∧ ∀ p, p <+: ts.flatMap frame → received brk s.parse p <+: ms := by
  have hcarries : List.Forall₂ (Carries brk s.parse) ts ms := h.imp fun _ _ hm => hm.1.carries hm.2
  exact ⟨received_all hb hcarries, fun p hp => received_cut hb hcarries hp⟩

end Schema

end Serde

namespace Sidecar

inductive ServerMessage where
  | records (shard : ShardId) (lastSeq : SequenceNumber) (records : List StreamRecord)
  | shardComplete (shard : ShardId)
  | shutdownRequested (shard : ShardId)
  | leaseLost (shard : ShardId)
  | shutdown (reason : String)

namespace ServerMessage

def entries : ServerMessage → List (String × Value)
  | .records shard lastSeq rs =>
    [("type", .str "records"), ("shard", .str shard), ("last_seq", .str lastSeq),
      ("records", .arr (rs.map StreamRecord.toValue))]
  | .shardComplete shard => [("type", .str "shard_complete"), ("shard", .str shard)]
  | .shutdownRequested shard => [("type", .str "shutdown_requested"), ("shard", .str shard)]
  | .leaseLost shard => [("type", .str "lease_lost"), ("shard", .str shard)]
  | .shutdown reason => [("type", .str "shutdown"), ("reason", .str reason)]

def ofValue : Value → Option ServerMessage
  | .obj fields => do
    match ← Serde.required Serde.text "type" fields with
    | "records" =>
      return .records (← Serde.required Serde.text "shard" fields) (← Serde.required Serde.text "last_seq" fields)
        (← Serde.required (Serde.list StreamRecord.ofValue) "records" fields)
    | "shard_complete" => return .shardComplete (← Serde.required Serde.text "shard" fields)
    | "shutdown_requested" => return .shutdownRequested (← Serde.required Serde.text "shard" fields)
    | "lease_lost" => return .leaseLost (← Serde.required Serde.text "shard" fields)
    | "shutdown" => return .shutdown (← Serde.required Serde.text "reason" fields)
    | _ => none
  | _ => none

theorem ofValue_of_perm {m : ServerMessage} {fields : List (String × Value)} (hp : fields.Perm m.entries) :
    ofValue (.obj fields) = some m := by
  have hn : (fields.map Prod.fst).Nodup := (hp.map Prod.fst).nodup_iff.mpr (by cases m <;> simp [entries])
  have htext : ∀ {k s}, (k, Value.str s) ∈ m.entries → Serde.required Serde.text k fields = some s :=
    fun h => Serde.required_of_mem hn (hp.mem_iff.mpr h) rfl
  cases m with
  | records shard lastSeq rs =>
    have hrecords : Serde.required (Serde.list StreamRecord.ofValue) "records" fields = some rs :=
      Serde.required_of_mem hn (hp.mem_iff.mpr (by simp [entries]))
        (Serde.list_map StreamRecord.toValue StreamRecord.ofValue StreamRecord.ofValue_toValue rs)
    simp [ofValue, htext (k := "type") (s := "records") (by simp [entries]), htext (k := "shard") (s := shard) (by simp [entries]),
      htext (k := "last_seq") (s := lastSeq) (by simp [entries]), hrecords]
  | shardComplete shard =>
    simp [ofValue, htext (k := "type") (s := "shard_complete") (by simp [entries]),
      htext (k := "shard") (s := shard) (by simp [entries])]
  | shutdownRequested shard =>
    simp [ofValue, htext (k := "type") (s := "shutdown_requested") (by simp [entries]),
      htext (k := "shard") (s := shard) (by simp [entries])]
  | leaseLost shard =>
    simp [ofValue, htext (k := "type") (s := "lease_lost") (by simp [entries]),
      htext (k := "shard") (s := shard) (by simp [entries])]
  | shutdown reason =>
    simp [ofValue, htext (k := "type") (s := "shutdown") (by simp [entries]),
      htext (k := "reason") (s := reason) (by simp [entries])]

def schema : Serde.Schema ServerMessage where
  entries := entries
  ofValue := ofValue
  reads := ofValue_of_perm

end ServerMessage

namespace ClientMessage

def entries : ClientMessage → List (String × Value)
  | .ready => [("type", .str "ready")]
  | .checkpoint shard seq => [("type", .str "checkpoint"), ("shard", .str shard), ("seq", .str seq)]
  | .stop => [("type", .str "stop")]

def ofValue : Value → Option ClientMessage
  | .obj fields => do
    match ← Serde.required Serde.text "type" fields with
    | "ready" => return .ready
    | "checkpoint" =>
      return .checkpoint (← Serde.required Serde.text "shard" fields) (← Serde.required Serde.text "seq" fields)
    | "stop" => return .stop
    | _ => none
  | _ => none

theorem ofValue_of_perm {m : ClientMessage} {fields : List (String × Value)} (hp : fields.Perm m.entries) :
    ofValue (.obj fields) = some m := by
  have hn : (fields.map Prod.fst).Nodup := (hp.map Prod.fst).nodup_iff.mpr (by cases m <;> simp [entries])
  have htext : ∀ {k s}, (k, Value.str s) ∈ m.entries → Serde.required Serde.text k fields = some s :=
    fun h => Serde.required_of_mem hn (hp.mem_iff.mpr h) rfl
  cases m with
  | ready => simp [ofValue, htext (k := "type") (s := "ready") (by simp [entries])]
  | checkpoint shard seq =>
    simp [ofValue, htext (k := "type") (s := "checkpoint") (by simp [entries]),
      htext (k := "shard") (s := shard) (by simp [entries]), htext (k := "seq") (s := seq) (by simp [entries])]
  | stop => simp [ofValue, htext (k := "type") (s := "stop") (by simp [entries])]

def schema : Serde.Schema ClientMessage where
  entries := entries
  ofValue := ofValue
  reads := ofValue_of_perm

end ClientMessage

/-! ## What the reader of the sidecar sees -/

def whitespace (c : Char) : Bool :=
  let n := c.toNat
  9 ≤ n && n ≤ 13 || n == 0x20 || n == 0x85 || n == 0xA0 || n == 0x1680 || 0x2000 ≤ n && n ≤ 0x200A || n == 0x2028 ||
    n == 0x2029 || n == 0x202F || n == 0x205F || n == 0x3000

def lineFeed (c : Char) : Bool := c == '\n'

def lineOf (line : List Char) : Line :=
  if line.all whitespace then .blank
  else
    match ClientMessage.schema.parse line with
    | some m => .message m
    | none => .malformed

def linesOf (stream : List Char) : List Line := (lines lineFeed stream).map lineOf ++ [.eof]

theorem lineOf_spells {m : ClientMessage} {t : List Char} (h : ClientMessage.schema.Spells m t) : lineOf t = .message m := by
  obtain ⟨fields, -, ht, -⟩ := id h
  obtain ⟨u, rfl⟩ := List.head?_eq_some_iff.mp ht.brace
  have hbrace : ('{' :: u).all whitespace = false := by
    rw [List.all_cons, show whitespace '{' = false by decide, Bool.false_and]
  rw [lineOf, hbrace, h.parse]
  rfl

theorem lineOf_cut {m : ClientMessage} {t p : List Char} (h : ClientMessage.schema.Spells m t) (hp : p <+: t) (hne : p ≠ t)
    (hnil : p ≠ []) : lineOf p = .malformed := by
  have hcut := h.cut hp hne
  obtain ⟨fields, -, ht, -⟩ := id h
  obtain ⟨u, rfl⟩ := List.head?_eq_some_iff.mp ht.brace
  obtain ⟨c, q, rfl⟩ := List.exists_cons_of_ne_nil hnil
  obtain rfl : c = '{' := (List.cons_prefix_cons.mp hp).1
  have hbrace : ('{' :: q).all whitespace = false := by
    rw [List.all_cons, show whitespace '{' = false by decide, Bool.false_and]
  rw [lineOf, hbrace, hcut]
  rfl

theorem map_lineOf {ts : List (List Char)} {ms : List ClientMessage} (h : ClientMessage.schema.Stream lineFeed ts ms) :
    ts.map lineOf = ms.map .message := by
  induction h with
  | nil => rfl
  | cons hm _ ih => rw [List.map_cons, List.map_cons, lineOf_spells hm.1, ih]

theorem lines_of_stream {ts : List (List Char)} {ms : List ClientMessage} (h : ClientMessage.schema.Stream lineFeed ts ms)
    {tail : List Char} (htail : ∀ c ∈ tail, lineFeed c = false) :
    linesOf (ts.flatMap frame ++ tail) = ms.map .message ++ (if tail = [] then [] else [lineOf tail]) ++ [.eof] := by
  have hline : ∀ t ∈ ts, ∀ c ∈ t, lineFeed c = false := by
    induction h with
    | nil => simp
    | cons hm _ ih =>
      intro t ht
      rcases List.mem_cons.mp ht with rfl | ht
      · exact hm.2
      · exact ih t ht
  rw [linesOf, lines_frames rfl htail hline, List.map_append, map_lineOf h]
  congr 2
  split <;> rfl

/-- The reader sees the messages that were written. Wherever a client's output is cut off, it sees a front of them, then at
most one malformed line. -/
theorem client_output_read {ts : List (List Char)} {ms : List ClientMessage}
    (h : ClientMessage.schema.Stream lineFeed ts ms) :
    linesOf (ts.flatMap frame) = ms.map .message ++ [.eof] ∧
      ∀ p, p <+: ts.flatMap frame → ∃ done torn, done <+: ms ∧ linesOf p = done.map .message ++ torn ++ [.eof] ∧
        (torn = [] ∨ torn = [.malformed]) := by
  constructor
  · have hnil : ∀ c ∈ ([] : List Char), lineFeed c = false := by simp
    have hall := lines_of_stream h hnil
    rwa [List.append_nil, if_pos rfl, List.append_nil] at hall
  · intro p hp
    obtain ⟨done, rest, tail, rfl, rfl, htail⟩ := prefix_frames hp
    have hdone : ClientMessage.schema.Stream lineFeed done (ms.take done.length) := by
      have hfront := List.forall₂_take done.length h
      rwa [List.take_left] at hfront
    have hrest : ClientMessage.schema.Stream lineFeed rest (ms.drop done.length) := by
      have hback := List.forall₂_drop done.length h
      rwa [List.drop_left] at hback
    have htake : ms.take done.length <+: ms := List.take_prefix _ _
    rcases htail with rfl | ⟨t, after, rfl, ht⟩
    · exact ⟨_, [], htake, lines_of_stream hdone (by simp), .inl rfl⟩
    · obtain ⟨m, later, hm, -, hlater⟩ := List.forall₂_cons_left_iff.mp hrest
      have hlines := lines_of_stream hdone fun c hc => hm.2 c (ht.subset hc)
      by_cases hnil : tail = []
      · rw [if_pos hnil] at hlines
        exact ⟨_, [], htake, hlines, .inl rfl⟩
      · rw [if_neg hnil] at hlines
        by_cases hw : tail = t
        · -- the line lacks its break only
          rw [hw, lineOf_spells hm.1] at hlines
          refine ⟨ms.take done.length ++ [m], [], ?_, by rw [hw, hlines]; simp, .inl rfl⟩
          have hms := List.take_append_drop done.length ms
          rw [hlater] at hms
          exact ⟨later, by rw [List.append_assoc]; exact hms⟩
        · rw [lineOf_cut hm.1 ht hw hnil] at hlines
          exact ⟨_, [.malformed], htake, hlines, .inr rfl⟩

/-! ### Two lines of two clients -/

def pythonReady : List Char := "\x7b\"type\": \"ready\"\x7d".toList

def goCheckpoint : List Char := "\x7b\"seq\":\"5\",\"shard\":\"s\",\"type\":\"checkpoint\"\x7d".toList

theorem spells_pythonReady : ClientMessage.schema.Spells .ready pythonReady := by
  refine ⟨_, List.Perm.refl _, ?_, by decide⟩
  exact ⟨[], _, [], [' '], _, _, blanks_nil, writeString_of "type", blanks_nil, by simp [Blanks, blank], writeString_of "ready",
    ⟨[], blanks_nil, rfl⟩, by decide⟩

theorem spells_goCheckpoint : ClientMessage.schema.Spells (.checkpoint "s" "5") goCheckpoint := by
  refine ⟨_, List.reverse_perm _, ?_, by decide⟩
  have htext := (Value.obj (ClientMessage.schema.entries (.checkpoint "s" "5")).reverse).write_of
  have hwrite : (Value.obj (ClientMessage.schema.entries (.checkpoint "s" "5")).reverse).write = goCheckpoint := by decide
  rwa [hwrite] at htext

theorem client_output_read_mixed :
    linesOf ([pythonReady, goCheckpoint].flatMap frame) = [.message .ready, .message (.checkpoint "s" "5"), .eof] ∧
      ∃ done torn, done <+: [ClientMessage.ready, .checkpoint "s" "5"] ∧
        linesOf (frame pythonReady ++ goCheckpoint.take 9) = done.map .message ++ torn ++ [.eof] ∧
          (torn = [] ∨ torn = [.malformed]) := by
  have hstream : ClientMessage.schema.Stream lineFeed [pythonReady, goCheckpoint] [.ready, .checkpoint "s" "5"] :=
    .cons ⟨spells_pythonReady, breaks_none (by decide +kernel)⟩ (.cons ⟨spells_goCheckpoint, breaks_none (by decide +kernel)⟩ .nil)
  obtain ⟨hall, hcut⟩ := client_output_read hstream
  exact ⟨hall, hcut _ (by decide)⟩

end Sidecar

end StreamsConsumer
