import BlueCode.Json

namespace BlueCode.Json

inductive Token where
  | openBracket
  | closeBracket
  | openBrace
  | closeBrace
  | colon
  | comma
  | scalar (value : Json)
  deriving Repr

namespace Lexer

def isSpace (c : Char) : Bool :=
  c == ' ' || c == '\t' || c == '\n' || c == '\r'

/-- A part of a string: a character, or a sixteen-bit unit given by its number. -/
inductive Part where
  | char (c : Char)
  | unit (n : Nat)
  deriving DecidableEq, Repr

def hexDigit? (c : Char) : Option Nat :=
  if '0' ≤ c ∧ c ≤ '9' then some (c.toNat - '0'.toNat)
  else if 'a' ≤ c ∧ c ≤ 'f' then some (c.toNat - 'a'.toNat + 10)
  else if 'A' ≤ c ∧ c ≤ 'F' then some (c.toNat - 'A'.toNat + 10)
  else none

def hexUnit? (a b c d : Char) : Option Nat :=
  match hexDigit? a, hexDigit? b, hexDigit? c, hexDigit? d with
  | some a, some b, some c, some d => some (((a * 16 + b) * 16 + c) * 16 + d)
  | _, _, _, _ => none

def shortEscape? : Char → Option Char
  | '"' => some '"'
  | '\\' => some '\\'
  | '/' => some '/'
  | 'b' => some '\x08'
  | 'f' => some '\x0c'
  | 'n' => some '\n'
  | 'r' => some '\r'
  | 't' => some '\t'
  | _ => none

/-- The parts of a string up to its closing quote, and what follows the quote. Control characters
have to be escaped. -/
def parts : List Char → Option (List Part × List Char)
  | '"' :: rest => some ([], rest)
  | '\\' :: 'u' :: a :: b :: c :: d :: rest =>
    match hexUnit? a b c d, parts rest with
    | some n, some (more, after) => some (.unit n :: more, after)
    | _, _ => none
  | '\\' :: c :: rest =>
    match shortEscape? c, parts rest with
    | some c, some (more, after) => some (.char c :: more, after)
    | _, _ => none
  | c :: rest =>
    if c = '\\' ∨ c.toNat < 0x20 then none
    else (parts rest).map fun (more, after) => (.char c :: more, after)
  | [] => none

/-- Joins the two halves of each surrogate pair; a half alone has no text. -/
def join : List Part → Option (List Char)
  | [] => some []
  | .char c :: rest => (join rest).map (c :: ·)
  | .unit n :: rest =>
    if 0xDC00 ≤ n ∧ n < 0xE000 then none
    else if 0xD800 ≤ n ∧ n < 0xDC00 then
      match rest with
      | .unit low :: rest =>
        if 0xDC00 ≤ low ∧ low < 0xE000 then
          (join rest).map (Char.ofNat (0x10000 + (n - 0xD800) * 0x400 + (low - 0xDC00)) :: ·)
        else none
      | _ => none
    else (join rest).map (Char.ofNat n :: ·)

theorem parts_length {cs : List Char} {content : List Part} {rest : List Char}
    (h : parts cs = some (content, rest)) : rest.length < cs.length := by
  fun_induction parts cs generalizing content rest with
  | case1 => simp_all
  | case2 a b c d tail n more after hp hn ih =>
    simp only [Option.some.injEq, Prod.mk.injEq] at h
    have := ih hp
    simp only [List.length_cons, ← h.2]
    omega
  | case3 => simp at h
  | case4 c tail _ _ more after hp _ ih =>
    simp only [Option.some.injEq, Prod.mk.injEq] at h
    have := ih hp
    simp only [List.length_cons, ← h.2]
    omega
  | case5 => simp at h
  | case6 => simp at h
  | case7 c tail _ _ _ _ ih =>
    obtain ⟨⟨more, after⟩, hp, he⟩ := Option.map_eq_some_iff.1 h
    simp only [Prod.mk.injEq] at he
    have := ih hp
    simp only [List.length_cons, ← he.2]
    omega
  | case8 => simp at h

theorem parts_short {c d : Char} {rest : List Char} (h : shortEscape? d = some c) :
    parts ('\\' :: d :: rest) =
      (parts rest).map fun (more, after) => (.char c :: more, after) := by
  rw [parts]
  · rw [h]
    cases parts rest <;> rfl
  · rintro _ _ _ _ _ rfl
    cases h

theorem parts_unit {a b c d : Char} {n : Nat} {rest : List Char} (h : hexUnit? a b c d = some n) :
    parts ('\\' :: 'u' :: a :: b :: c :: d :: rest) =
      (parts rest).map fun (more, after) => (.unit n :: more, after) := by
  rw [parts, h]
  cases parts rest <;> rfl

def digits (cs : List Char) : Option (List Char × List Char) :=
  match cs.takeWhile Char.isDigit with
  | [] => none
  | found => some (found, cs.dropWhile Char.isDigit)

/-- The whole part of a number has no leading zeros. -/
def whole : List Char → Option (List Char × List Char)
  | '0' :: rest => some (['0'], rest)
  | cs => digits cs

def fraction : List Char → Option (List Char × List Char)
  | '.' :: rest => (digits rest).map fun (found, after) => ('.' :: found, after)
  | cs => some ([], cs)

def exponent : List Char → Option (List Char × List Char)
  | c :: rest =>
    if c = 'e' ∨ c = 'E' then
      match rest with
      | '+' :: rest => (digits rest).map fun (found, after) => (c :: '+' :: found, after)
      | '-' :: rest => (digits rest).map fun (found, after) => (c :: '-' :: found, after)
      | rest => (digits rest).map fun (found, after) => (c :: found, after)
    else some ([], c :: rest)
  | [] => some ([], [])

def unsigned (cs : List Char) : Option (List Char × List Char) := do
  let (w, cs) ← whole cs
  let (f, cs) ← fraction cs
  let (e, cs) ← exponent cs
  return (w ++ f ++ e, cs)

theorem digits_length {cs found rest : List Char} (h : digits cs = some (found, rest)) :
    rest.length < cs.length := by
  unfold digits at h
  split at h
  · simp at h
  · next hne =>
    simp only [Option.some.injEq, Prod.mk.injEq] at h
    have hlen :=
      congrArg List.length (List.takeWhile_append_dropWhile (p := Char.isDigit) (l := cs))
    rw [List.length_append, h.2] at hlen
    have : (cs.takeWhile Char.isDigit).length ≠ 0 := fun h => hne (List.length_eq_zero_iff.1 h)
    omega

theorem whole_length {cs found rest : List Char} (h : whole cs = some (found, rest)) :
    rest.length < cs.length := by
  unfold whole at h
  split at h
  · simp_all
  · exact digits_length h

theorem fraction_length {cs found rest : List Char} (h : fraction cs = some (found, rest)) :
    rest.length ≤ cs.length := by
  unfold fraction at h
  split at h
  · obtain ⟨⟨ds, after⟩, hd, he⟩ := Option.map_eq_some_iff.1 h
    have := digits_length hd
    simp_all
    omega
  · simp_all

theorem exponent_length {cs found rest : List Char} (h : exponent cs = some (found, rest)) :
    rest.length ≤ cs.length := by
  unfold exponent at h
  split at h
  · split at h
    · split at h <;>
      · obtain ⟨⟨ds, after⟩, hd, he⟩ := Option.map_eq_some_iff.1 h
        have := digits_length hd
        simp_all
        omega
    · simp_all
  · simp_all

theorem unsigned_length {cs found rest : List Char} (h : unsigned cs = some (found, rest)) :
    rest.length < cs.length := by
  simp only [unsigned, Option.bind_eq_bind, Option.bind_eq_some_iff] at h
  obtain ⟨⟨w, a⟩, hw, ⟨f, b⟩, hf, ⟨e, c⟩, he, h⟩ := h
  have := whole_length hw
  have := fraction_length hf
  have := exponent_length he
  simp_all
  omega

def tokens : List Char → Option (List Token)
  | [] => some []
  | 'n' :: 'u' :: 'l' :: 'l' :: rest => (tokens rest).map (.scalar .null :: ·)
  | 't' :: 'r' :: 'u' :: 'e' :: rest => (tokens rest).map (.scalar (.bool true) :: ·)
  | 'f' :: 'a' :: 'l' :: 's' :: 'e' :: rest => (tokens rest).map (.scalar (.bool false) :: ·)
  | '[' :: rest => (tokens rest).map (.openBracket :: ·)
  | ']' :: rest => (tokens rest).map (.closeBracket :: ·)
  | '{' :: rest => (tokens rest).map (.openBrace :: ·)
  | '}' :: rest => (tokens rest).map (.closeBrace :: ·)
  | ':' :: rest => (tokens rest).map (.colon :: ·)
  | ',' :: rest => (tokens rest).map (.comma :: ·)
  | '"' :: rest =>
    match h : parts rest with
    | some (content, after) =>
      have := parts_length h
      (tokens after).map (.scalar (.string ((join content).map String.ofList)) :: ·)
    | none => none
  | '-' :: rest =>
    match h : unsigned rest with
    | some (found, after) =>
      have := unsigned_length h
      (tokens after).map (.scalar (.number (String.ofList ('-' :: found))) :: ·)
    | none => none
  | c :: rest =>
    if isSpace c then tokens rest
    else
      match h : unsigned (c :: rest) with
      | some (found, after) =>
        have := unsigned_length h
        (tokens after).map (.scalar (.number (String.ofList found)) :: ·)
      | none => none
termination_by cs => cs.length
decreasing_by
  all_goals
    simp only [List.length_cons] at *
    omega

theorem tokens_minus {rest : List Char} :
    tokens ('-' :: rest) = (unsigned rest).bind fun (found, after) =>
      (tokens after).map (.scalar (.number (String.ofList ('-' :: found))) :: ·) := by
  rw [tokens]
  split
  · next h => simp only [h, Option.bind_some]
  · next h => simp only [h, Option.bind_none]

theorem tokens_quote {rest : List Char} :
    tokens ('"' :: rest) = (parts rest).bind fun (content, after) =>
      (tokens after).map (.scalar (.string ((join content).map String.ofList)) :: ·) := by
  rw [tokens]
  split
  · next h => simp only [h, Option.bind_some]
  · next h => simp only [h, Option.bind_none]

end Lexer

/-- An array or object that is still open, with what it holds so far. -/
inductive Open where
  | array (items : List Json)
  | object (fields : List (Option String × Json)) (name : Option String)

/-- What has been read, and so what may come next. The open arrays and objects stand innermost
first. -/
inductive State where
  | value (around : List Open)
  | firstItem (around : List Open)
  | afterItem (items : List Json) (around : List Open)
  | firstName (around : List Open)
  | nextName (fields : List (Option String × Json)) (around : List Open)
  | afterName (fields : List (Option String × Json)) (name : Option String) (around : List Open)
  | afterField (fields : List (Option String × Json)) (around : List Open)
  | finished (document : Json)

def State.complete (j : Json) : List Open → State
  | [] => .finished j
  | .array items :: around => .afterItem (items ++ [j]) around
  | .object fields name :: around => .afterField (fields ++ [(name, j)]) around

def State.start (around : List Open) : Token → Option State
  | .scalar j => some (.complete j around)
  | .openBracket => some (.firstItem around)
  | .openBrace => some (.firstName around)
  | _ => none

def State.feed : State → Token → Option State
  | .value around, t => start around t
  | .firstItem around, t =>
    match t with
    | .closeBracket => some (.complete (.array []) around)
    | t => start (.array [] :: around) t
  | .afterItem items around, t =>
    match t with
    | .comma => some (.value (.array items :: around))
    | .closeBracket => some (.complete (.array items) around)
    | _ => none
  | .firstName around, t =>
    match t with
    | .closeBrace => some (.complete (.object []) around)
    | .scalar (.string name) => some (.afterName [] name around)
    | _ => none
  | .nextName fields around, t =>
    match t with
    | .scalar (.string name) => some (.afterName fields name around)
    | _ => none
  | .afterName fields name around, t =>
    match t with
    | .colon => some (.value (.object fields name :: around))
    | _ => none
  | .afterField fields around, t =>
    match t with
    | .comma => some (.nextName fields around)
    | .closeBrace => some (.complete (.object fields) around)
    | _ => none
  | .finished _, _ => none

def parse? (text : String) : Option Json :=
  match Lexer.tokens text.toList with
  | none => none
  | some tokens =>
    match tokens.foldlM State.feed (.value []) with
    | some (.finished document) => some document
    | _ => none

end BlueCode.Json
