import BlueCode.Diagnostic.Json
import BlueCode.Proofs.JsonNumbers

namespace BlueCode

namespace Json

def Printable (cs : List Char) : Prop :=
  ∀ c ∈ cs, 0x20 ≤ c.toNat

@[simp] theorem printable_nil : Printable [] := nofun

@[simp] theorem printable_cons {c : Char} {cs : List Char} :
    Printable (c :: cs) ↔ 0x20 ≤ c.toNat ∧ Printable cs :=
  List.forall_mem_cons

@[simp] theorem printable_append {cs ds : List Char} :
    Printable (cs ++ ds) ↔ Printable cs ∧ Printable ds :=
  List.forall_mem_append

theorem le_digitChar : ∀ n < 16, 0x20 ≤ (Nat.digitChar n).toNat := by
  decide

theorem printable_escape (c : Char) : Printable (escape c) := by
  unfold escape
  split
  case h_8 =>
    split
    · simp [hexPair, le_digitChar (c.toNat / 16) (by omega), le_digitChar (c.toNat % 16) (by omega)]
    · next hcontrol => simpa using hcontrol
  all_goals simp

theorem printable_quote (s : Option String) : Printable (quote s) := by
  cases s with
  | none => simp [quote]
  | some s =>
    have hescaped : Printable (s.toList.flatMap escape) := by
      intro c hc
      obtain ⟨d, -, hd⟩ := List.mem_flatMap.1 hc
      exact printable_escape d c hd
    simp [quote, hescaped]

theorem printable_digits {ds : List Char} (h : Decimal.IsDigits ds) : Printable ds := by
  intro c hc
  have hdigit := h.2 c hc
  simp only [Char.isDigit, ge_iff_le, Bool.and_eq_true, decide_eq_true_eq] at hdigit
  exact Nat.le_trans (by decide) (UInt32.le_iff_toNat_le.1 hdigit.1)

theorem printable_unsigned {cs : List Char} (h : Lexer.Unsigned cs) : Printable cs := by
  obtain ⟨hw, hf, he⟩ := h
  simp only [printable_append]
  refine ⟨⟨?_, ?_⟩, ?_⟩
  · rcases hw with rfl | ⟨hd, -⟩
    · simp
    · exact printable_digits hd
  · cases hf with
    | none => simp
    | digits hd => simp [printable_digits hd]
  · cases he with
    | none => simp
    | minus hd | plus hd => simp [printable_digits hd]

theorem printable_numeral {cs : List Char} (h : Lexer.Numeral cs) : Printable cs := by
  cases h with
  | plain hu => exact printable_unsigned hu
  | minus hu => simp [printable_unsigned hu]

mutual

theorem printable_chars : ∀ (j : Json) (depth : Nat), j.WellWritten →
    Printable (j.chars .compact depth)
  | null, _, _ | bool true, _, _ | bool false, _, _ | array [], _, _ | object [], _, _ => by
    simp [chars]
  | number _, _, hw => printable_numeral hw
  | string s, _, _ => printable_quote s
  | array (first :: rest), depth, hw => by
    rw [WellWritten, ItemsWellWritten] at hw
    simp [chars, Style.lineBreak, printable_chars first _ hw.1, printable_itemChars rest _ hw.2]
  | object ((name, value) :: rest), depth, hw => by
    rw [WellWritten, FieldsWellWritten] at hw
    simp [chars, Style.lineBreak, Style.colon, printable_quote name,
      printable_chars value _ hw.1, printable_fieldChars rest _ hw.2]

theorem printable_itemChars : ∀ (items : List Json) (depth : Nat), ItemsWellWritten items →
    Printable (itemChars .compact depth items)
  | [], _, _ => printable_nil
  | j :: rest, depth, hw => by
    rw [ItemsWellWritten] at hw
    simp [itemChars, Style.lineBreak, printable_chars j _ hw.1, printable_itemChars rest _ hw.2]

theorem printable_fieldChars : ∀ (fields : List (Option String × Json)) (depth : Nat),
    FieldsWellWritten fields → Printable (fieldChars .compact depth fields)
  | [], _, _ => printable_nil
  | (name, value) :: rest, depth, hw => by
    rw [FieldsWellWritten] at hw
    simp [fieldChars, Style.lineBreak, Style.colon, printable_quote name,
      printable_chars value _ hw.1, printable_fieldChars rest _ hw.2]

end

/-- What an object has under a name. -/
def field? (name : String) : Json → Option Json
  | object fields => (fields.find? (·.1 == some name)).map (·.2)
  | _ => none

def nat? : Json → Option Nat
  | number text => Decimal.readNat? text.toList
  | _ => none

def texts? : Json → Option (List String)
  | array items => items.mapM string?
  | _ => none

/-- What may be missing but is read if it is there. -/
def optional? {α : Type} (read : Json → Option α) : Option Json → Option (Option α)
  | none => some none
  | some j => (read j).map some

section

variable {name other : String} {value : Json} {α : Type}

theorem field?_append (first rest : List (String × Json)) :
    field? name (record (first ++ rest)) =
      (field? name (record first)).or (field? name (record rest)) := by
  simp [field?, record, List.find?_append, Option.map_or]

@[simp] theorem field?_nil : field? name (record []) = none := rfl

@[simp] theorem field?_cons (rest : List (String × Json)) :
    field? name (record ((other, value) :: rest)) =
      if other = name then some value else field? name (record rest) := by
  by_cases h : other = name <;> simp [field?, record, h]

@[simp] theorem field?_toList (o : Option α) (write : α → Json) :
    field? name (record (o.toList.map fun a => (other, write a))) =
      if other = name then o.map write else none := by
  cases o <;> simp

theorem optional?_map {β : Type} {read : Json → Option β} {write : α → Json} {f : α → β}
    (h : ∀ a, read (write a) = some (f a)) (o : Option α) :
    optional? read (o.map write) = some (o.map f) := by
  cases o with
  | none => rfl
  | some a => rw [Option.map_some, optional?, h, Option.map_some, Option.map_some]

theorem wellWritten_record {fields : List (String × Json)} (h : ∀ f ∈ fields, f.2.WellWritten) :
    (record fields).WellWritten := by
  rw [record, WellWritten]
  induction fields with
  | nil => trivial
  | cons field rest ih =>
    obtain ⟨hfield, hrest⟩ := List.forall_mem_cons.1 h
    exact ⟨hfield, ih hrest⟩

theorem wellWritten_ofNat (n : Nat) : (ofNat n).WellWritten := by
  rw [ofNat, WellWritten, String.toList_ofList]
  exact .plain (Decimal.Whole.unsigned (Decimal.whole_toDigits n))

theorem nat?_ofNat (n : Nat) : nat? (ofNat n) = some n := by
  rw [ofNat, nat?, String.toList_ofList, Decimal.readNat?_toDigits]

theorem texts?_array (ss : List String) : texts? (array (ss.map text)) = some ss := by
  rw [texts?]
  induction ss with
  | nil => rfl
  | cons s ss ih => simp [List.mapM_cons, ih, string?, text]

end

end Json

open Json

structure Mark where
  start : Nat
  stop : Nat
  message : String
  place : Option Text.Place
  deriving DecidableEq, Repr

/-- What a tool is told of a diagnostic. -/
structure Notice where
  severity : String
  code : Option String
  message : String
  notes : List String
  suggestion : Option String
  mark : Option Mark
  deriving DecidableEq, Repr

/-- Line and column are given both or not at all. -/
def Mark.place? (j : Json) : Option (Option Text.Place) :=
  match j.field? "line", j.field? "col" with
  | none, none => some none
  | some line, some column => do return some ⟨← line.nat?, ← column.nat?⟩
  | _, _ => none

def Mark.ofJson? (j : Json) : Option Mark := do
  return {
    start := ← (← j.field? "start").nat?
    stop := ← (← j.field? "end").nat?
    message := ← (← j.field? "message").string?
    place := ← place? j }

def Notice.ofJson? (j : Json) : Option Notice := do
  return {
    severity := ← (← j.field? "severity").string?
    code := ← optional? string? (j.field? "code")
    message := ← (← j.field? "message").string?
    notes := ← (← j.field? "notes").texts?
    suggestion := ← optional? string? (j.field? "suggestion")
    mark := ← optional? Mark.ofJson? (j.field? "label") }

def Label.mark (label : Label) (source : Option String) : Mark where
  start := label.span.start
  stop := label.span.stop
  message := label.message
  place := source.map fun s => Text.placeOf s label.span.start

theorem Mark.place?_toJson (label : Label) (source : Option String) :
    Mark.place? (label.toJson source) = some (label.mark source).place := by
  cases source with
  | none => simp [place?, Label.toJson, Label.mark]
  | some source => simp [place?, Label.toJson, Label.mark, nat?_ofNat]

theorem Mark.ofJson?_toJson (label : Label) (source : Option String) :
    Mark.ofJson? (label.toJson source) = some (label.mark source) := by
  have hstart : field? "start" (label.toJson source) = some (ofNat label.span.start) := by
    simp [Label.toJson, field?_append]
  have hstop : field? "end" (label.toJson source) = some (ofNat label.span.stop) := by
    simp [Label.toJson, field?_append]
  have hmessage : field? "message" (label.toJson source) = some (text label.message) := by
    simp [Label.toJson, field?_append]
  simp [ofJson?, hstart, hstop, hmessage, nat?_ofNat, place?_toJson, string?, text, Label.mark]

theorem Label.wellWritten (label : Label) (source : Option String) :
    (label.toJson source).WellWritten := by
  refine wellWritten_record ?_
  simp only [List.forall_mem_append, List.forall_mem_cons, List.forall_mem_map]
  exact ⟨⟨⟨fun _ _ => wellWritten_ofNat _, wellWritten_ofNat _, nofun⟩,
    fun _ _ => wellWritten_ofNat _⟩, trivial, wellWritten_ofNat _, nofun⟩

namespace Diagnostic

/-- What a diagnostic says. -/
def notice (d : Diagnostic) : Notice where
  severity := "error"
  code := d.code
  message := d.message
  notes := d.notes
  suggestion := d.suggestion
  mark := d.label.map (·.mark d.source)

theorem ofJson?_toJson (d : Diagnostic) : Notice.ofJson? d.toJson = some d.notice := by
  have hseverity : field? "severity" d.toJson = some (text "error") := by
    simp [toJson, field?_append]
  have hcode : field? "code" d.toJson = d.code.map text := by
    simp [toJson, field?_append]
  have hmessage : field? "message" d.toJson = some (text d.message) := by
    simp [toJson, field?_append]
  have hnotes : field? "notes" d.toJson = some (array (d.notes.map text)) := by
    simp [toJson, field?_append]
  have hsuggestion : field? "suggestion" d.toJson = d.suggestion.map text := by
    simp [toJson, field?_append]
  have hlabel : field? "label" d.toJson = d.label.map (·.toJson d.source) := by
    simp [toJson, field?_append]
  have htext (s : String) : string? (text s) = some (id s) := rfl
  simp only [Notice.ofJson?, hseverity, hcode, hmessage, hnotes, hsuggestion, hlabel,
    optional?_map htext, optional?_map (Mark.ofJson?_toJson · d.source)]
  simp [notice, texts?_array, htext]

theorem wellWritten (d : Diagnostic) : d.toJson.WellWritten := by
  refine wellWritten_record ?_
  simp only [List.forall_mem_append, List.forall_mem_cons, List.forall_mem_map]
  refine ⟨⟨⟨fun _ _ => trivial, fun label _ => label.wellWritten d.source⟩, trivial, ?_, trivial,
    nofun⟩, fun _ _ => trivial⟩
  exact itemsWellWritten_map text (fun _ => trivial) d.notes

theorem parse?_jsonLine (d : Diagnostic) : Json.parse? d.jsonLine = some d.toJson := by
  have hnone : ∀ c ∈ ([] : List Char), Json.Lexer.isSpace c = true := nofun
  have hparse := parse?_chars d.wellWritten .compact hnone
  rwa [List.append_nil] at hparse

/-- The line has no control characters, and all that the diagnostic says is read from it. So two
diagnostics that are written as the same line say the same. -/
theorem jsonLine_lossless (d : Diagnostic) :
    (∀ c ∈ d.jsonLine.toList, 0x20 ≤ c.toNat) ∧
      (Json.parse? d.jsonLine).bind Notice.ofJson? = some d.notice ∧
      ∀ e : Diagnostic, e.jsonLine = d.jsonLine → e.notice = d.notice := by
  have hread (e : Diagnostic) : (Json.parse? e.jsonLine).bind Notice.ofJson? = some e.notice := by
    rw [parse?_jsonLine, Option.bind_some, ofJson?_toJson]
  refine ⟨?_, hread d, fun e he => ?_⟩
  · rw [jsonLine, Json.render, String.toList_ofList]
    exact printable_chars d.toJson 0 d.wellWritten
  · apply Option.some.inj
    rw [← hread e, ← hread d, he]

end Diagnostic

end BlueCode
