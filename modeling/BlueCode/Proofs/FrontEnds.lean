import BlueCode.CommandLine
import BlueCode.Proofs.JsonPrograms
import BlueCode.Proofs.WrittenPrograms

namespace BlueCode

open Json

/-- The document of the program is read as the same program: its floats are read as they are, and it
is not nested too deeply. -/
def Program.Rereadable (p : Program) : Prop :=
  (∀ x ∈ p.floats, reread x = some x) ∧ p.toJson.depth ≤ 127

instance (p : Program) : Decidable p.Rereadable :=
  inferInstanceAs (Decidable (_ ∧ _))

/-- The document of the program is not read at all. -/
def Program.Refused (p : Program) : Prop :=
  (∃ x ∈ p.floats, reread x = none) ∨ ¬ p.toJson.depth ≤ 127

instance (p : Program) : Decidable p.Refused :=
  inferInstanceAs (Decidable (_ ∨ _))

theorem Program.ofSource_of_tokens {cs : List Char} {p : Program}
    (h : (Lexer.tokens 0 cs).map (List.map Located.token) = .ok p.tokens) :
    Program.ofSource (String.ofList cs) = .ok p := by
  have hlex : lex (String.ofList cs) = Lexer.tokens 0 cs := by rw [lex, String.toList_ofList]
  cases htokens : Lexer.tokens 0 cs with
  | error e =>
    rw [htokens] at h
    cases h
  | ok tokens =>
    rw [htokens] at h hlex
    have hmap : tokens.map Located.token = p.tokens := Except.ok.inj h
    have hparse : parse tokens = .ok p := by
      apply parse_eq_ok_iff.2
      rw [hmap]
      exact ⟨.program p.functions, Parser.feedAll_functions [] p.functions, rfl⟩
    rw [Program.ofSource, hlex]
    change (parse tokens).mapError Failure.parse = _
    rw [hparse]
    rfl

namespace CommandLine

def printedTree (p : Program) : String :=
  p.toJson.render .pretty ++ "\n"

def notTree (path : String) : Diagnostic :=
  { Diagnostic.error "invalid AST JSON: not a program" with notes := [path] }

variable {p : Program} {path text : String}

theorem readProgram_of_source (hpath : extension? path ≠ some "json")
    (hp : Program.ofSource text = .ok p) : readProgram path text = .ok p := by
  rw [readProgram, if_neg hpath, hp]
  rfl

theorem readProgram_printedTree (hpath : extension? path = some "json") :
    readProgram path (printedTree p) = p.reread?.elim (.error (notTree path)) .ok := by
  have hspace : ∀ c ∈ ['\n'], Json.Lexer.isSpace c = true := List.forall_mem_singleton.2 rfl
  have hread := p.read?_chars .pretty hspace
  rw [String.ofList_append] at hread
  have hprinted : Program.read? (printedTree p) = p.reread? := hread
  rw [readProgram, if_pos hpath, hprinted]
  cases p.reread? <;> rfl

theorem readProgram_printedTree_iff (hpath : extension? path = some "json") :
    readProgram path (printedTree p) = .ok p ↔ p.Rereadable := by
  have hread : p.reread? = some p ↔ p.Rereadable := Program.reread?_eq_self_iff
  rw [readProgram_printedTree hpath, ← hread]
  cases p.reread? with
  | none => exact iff_of_false nofun nofun
  | some q => simp

theorem readProgram_of_refused (hpath : extension? path = some "json") (h : p.Refused) :
    readProgram path (printedTree p) = .error (notTree path) := by
  rw [readProgram_printedTree hpath, Program.reread?_eq_none_iff.2 h]
  rfl

namespace Invocation

variable {i j : Invocation} {files : Files} {other tree : String} {d : Diagnostic}

def TakesProgram (i : Invocation) : Prop :=
  i.command = .run ∨ i.command = .build

theorem job_congr (hi : i.TakesProgram) (h : readProgram path text = readProgram i.file other) :
    { i with file := path }.job text = i.job other := by
  rcases hi with hi | hi <;> simp only [job, hi, h]

theorem job_of_error (hi : i.TakesProgram) (h : readProgram i.file text = .error d) :
    i.job text = .error d := by
  rcases hi with hi | hi <;> rw [job, hi] <;> dsimp only <;> rw [h] <;> rfl

/-- Files with the same program are answered in the same way. -/
theorem respond_congr (hi : i.TakesProgram) (hpath : files.read? path = some text)
    (hfile : files.read? i.file = some other)
    (h : readProgram path text = readProgram i.file other) (fuel : Nat) :
    { i with file := path }.respond fuel files = i.respond fuel files := by
  simp only [respond, hpath, hfile, job_congr hi h]
  cases i.job other with
  | error d => rfl
  | ok job => cases job <;> rfl

theorem respond_of_error (hi : i.TakesProgram) (hfile : files.read? i.file = some text)
    (h : readProgram i.file text = .error d) (fuel : Nat) :
    i.respond fuel files = some (i.failure "" d, files) := by
  simp only [respond, hfile, job_of_error hi h]

theorem respond_ast (hi : i.command = .ast) (hfile : files.read? i.file = some text)
    (h : readProgram i.file text = .ok p) (fuel : Nat) :
    i.respond fuel files = some (⟨0, printedTree p, ""⟩, files) := by
  have hjob : i.job text = .ok (.display (printedTree p)) := by
    rw [job, hi]
    dsimp only
    rw [h]
    rfl
  simp only [respond, hfile, hjob, perform]

/-- The printed syntax tree of a program text is read as the program, as a program with other floats,
or not at all. In the first case it is answered as the text is, and in the last it is refused. -/
theorem respond_printedTree (hi : i.command = .ast) (hsource : extension? i.file ≠ some "json")
    (hfile : files.read? i.file = some text) (hp : Program.ofSource text = .ok p)
    (htree : extension? tree = some "json")
    (hprinted : files.read? tree = some (printedTree p)) (fuel : Nat) :
    i.respond fuel files = some (⟨0, printedTree p, ""⟩, files) ∧
      readProgram tree (printedTree p) = p.reread?.elim (.error (notTree tree)) .ok ∧
      (readProgram tree (printedTree p) = .ok p ↔ p.Rereadable) ∧
      ∀ j : Invocation, j.TakesProgram → j.file = i.file →
        (p.Rereadable → { j with file := tree }.respond fuel files = j.respond fuel files) ∧
        (p.Refused →
          { j with file := tree }.respond fuel files =
            some (j.failure "" (notTree tree), files)) := by
  have hread := readProgram_of_source hsource hp
  have hiff : readProgram tree (printedTree p) = .ok p ↔ p.Rereadable :=
    readProgram_printedTree_iff htree
  refine ⟨respond_ast hi hfile hread fuel, readProgram_printedTree htree, hiff, fun j hj hf => ?_⟩
  rw [← hf] at hfile hread
  constructor
  · intro hr
    exact respond_congr hj hprinted hfile ((hiff.2 hr).trans hread.symm) fuel
  · intro hr
    exact respond_of_error (i := { j with file := tree }) hj hprinted
      (readProgram_of_refused htree hr) fuel

def printed (text : String) (p : Program) : Files :=
  [("a.vr", text), ("a.json", printedTree p)]

theorem read?_printed_source : (printed text p).read? "a.vr" = some text := by
  simp [Files.read?, printed]

theorem read?_printed_tree : (printed text p).read? "a.json" = some (printedTree p) := by
  have hne : pathNames "a.vr" ≠ pathNames "a.json" := by decide +kernel
  simp [Files.read?, printed, hne]

theorem extension?_source : extension? "a.vr" ≠ some "json" := by decide +kernel

theorem extension?_tree : extension? "a.json" = some "json" := by decide +kernel

def plain (command : Command) (file : String) : Invocation :=
  ⟨command, file, none, true, 1024, false, true⟩

theorem respond_printedTree_half :
    let text := String.ofList "func main() \x7b return 0.5; \x7d".toList
    let p : Program := ⟨[⟨"main", [], [.ret (some (.literal (.float 0.5)))]⟩]⟩
    let files := printed text p
    Program.ofSource text = .ok p ∧
      (plain .ast "a.vr").respond 9 files = some (⟨0, printedTree p, ""⟩, files) ∧
      (plain .run "a.json").respond 9 files = (plain .run "a.vr").respond 9 files := by
  intro text p files
  have hp : Program.ofSource text = .ok p := Program.ofSource_of_tokens (by decide +kernel)
  have hr : p.Rereadable := by decide +kernel
  obtain ⟨hast, -, -, hanswers⟩ := respond_printedTree (i := plain .ast "a.vr") rfl
    extension?_source (read?_printed_source (p := p)) hp extension?_tree read?_printed_tree 9
  exact ⟨hp, hast, (hanswers (plain .run "a.vr") (.inl rfl) rfl).1 hr⟩

theorem respond_build {q : Program} {code : String} (hfile : files.read? path = some text)
    (hread : readProgram path text = .ok q) (hcode : q.build true = .ok code) (fuel : Nat) :
    (plain .build path).respond fuel files = some (⟨0, code, ""⟩, files) := by
  have hjob : (plain .build path).job text = .ok (.display code) := by
    simp only [job, plain]
    rw [hread]
    change ((q.build true).mapError _ >>= _) = _
    rw [hcode]
    rfl
  have hread? : files.read? (plain .build path).file = some text := hfile
  simp only [respond, hread?, hjob, perform]

/-- The text is a program that can be built, but the syntax tree that is printed for it is
refused. -/
structure RefusedTree (text : String) (p : Program) : Prop where
  accepted : Program.ofSource text = .ok p
  tree : (plain .ast "a.vr").respond 0 (printed text p) =
    some (⟨0, printedTree p, ""⟩, printed text p)
  built : ∃ code, (plain .build "a.vr").respond 0 (printed text p) =
    some (⟨0, code, ""⟩, printed text p)
  refused : (plain .build "a.json").respond 0 (printed text p) =
    some ((plain .build "a.json").failure "" (notTree "a.json"), printed text p)

theorem refusedTree (hp : Program.ofSource text = .ok p) (hbuild : (p.build true).isOk = true)
    (hr : p.Refused) : RefusedTree text p where
  accepted := hp
  tree := respond_ast rfl read?_printed_source (readProgram_of_source extension?_source hp) 0
  built := by
    cases hcode : p.build true with
    | error e =>
      rw [hcode] at hbuild
      cases hbuild
    | ok code =>
      have hread := readProgram_of_source extension?_source hp
      exact ⟨code, respond_build read?_printed_source hread hcode 0⟩
  refused := respond_of_error (i := plain .build "a.json") (.inr rfl) read?_printed_tree
    (readProgram_of_refused extension?_tree hr) 0

/-- The text is a program, but the syntax tree that is printed for it is read as another one, for
which other machine code is built. -/
structure MisreadTree (text : String) (p q : Program) (code other : String) : Prop where
  accepted : Program.ofSource text = .ok p
  tree : (plain .ast "a.vr").respond 0 (printed text p) =
    some (⟨0, printedTree p, ""⟩, printed text p)
  misread : readProgram "a.json" (printedTree p) = .ok q
  built : (plain .build "a.vr").respond 0 (printed text p) =
    some (⟨0, code, ""⟩, printed text p)
  misbuilt : (plain .build "a.json").respond 0 (printed text p) =
    some (⟨0, other, ""⟩, printed text p)
  differ : code ≠ other

theorem misreadTree {q : Program} {code other : String} (hp : Program.ofSource text = .ok p)
    (hq : p.reread? = some q) (hcode : p.build true = .ok code) (hother : q.build true = .ok other)
    (hne : code ≠ other) : MisreadTree text p q code other := by
  have hread := readProgram_of_source extension?_source hp
  have hmisread : readProgram "a.json" (printedTree p) = .ok q := by
    rw [readProgram_printedTree extension?_tree, hq]
    rfl
  exact {
    accepted := hp
    tree := respond_ast rfl read?_printed_source hread 0
    misread := hmisread
    built := respond_build read?_printed_source hread hcode 0
    misbuilt := respond_build read?_printed_tree hmisread hother 0
    differ := hne }

def sumText : List Char :=
  "func main() \x7b return 0".toList ++ (List.replicate 61 " + 0".toList).flatten ++ "; \x7d".toList

def excessText : List Char :=
  "func main() \x7b return 1".toList ++ List.replicate 309 '0' ++ ".0; \x7d".toList

def returning (x : Float) : Program :=
  ⟨[⟨"main", [], [.ret (some (.literal (.float x)))]⟩]⟩

theorem reread?_returning {x y : Float} (h : reread x = some y) :
    (returning x).reread? = some (returning y) := by
  have hmap : (returning x).mapFloats? reread = some (returning y) := by
    simp [returning, Program.mapFloats?, Function.mapFloats?, Stmt.listMapFloats?, Stmt.mapFloats?,
      Expr.mapFloats?, Literal.mapFloat?, h]
  have hdepth : (returning x).toJson.depth ≤ 127 := by
    simp [returning, Program.toJson, Function.toJson, Stmt.listToJson, Stmt.toJson, Expr.toJson,
      itemDepth, depth_case, Literal.depth_toJson]
  rw [Program.reread?, if_pos hdepth, hmap]

theorem printedTree_diverges :
    RefusedTree (String.ofList sumText) Program.longSum ∧
      RefusedTree (String.ofList excessText) Program.excess ∧
      MisreadTree (String.ofList "func main() \x7b return 0.9070923545841467; \x7d".toList)
        (returning 0.9070923545841467) (returning 0.9070923545841468)
        "--main\nmov 0.9070923545841467 ra\nret\n" "--main\nmov 0.9070923545841468 ra\nret\n" := by
  refine ⟨?_, ?_, ?_⟩
  · have hp := @Program.ofSource_of_tokens sumText .longSum (by decide +kernel)
    exact refusedTree hp (by decide +kernel) (by decide +kernel)
  · have hp := @Program.ofSource_of_tokens excessText .excess (by decide +kernel)
    exact refusedTree hp (by decide +kernel) (by decide +kernel)
  · exact misreadTree (Program.ofSource_of_tokens (by decide +kernel))
      (reread?_returning (by decide +kernel)) (by decide +kernel) (by decide +kernel)
      (by decide +kernel)

end Invocation

end CommandLine

end BlueCode
