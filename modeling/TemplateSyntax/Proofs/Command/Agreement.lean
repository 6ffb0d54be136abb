import TemplateSyntax.Proofs.Diagnostics
import TemplateSyntax.Proofs.Tree.Labels

/-!
# Two commands on one template

`check` prints what is wrong with a template line by line, `parse` the tree and the same errors as an object, and an
error that leaves no tree goes to another channel there. When the log is quiet the two tell the same: each line is an
entry, with the line and column of that entry, and the exit codes are equal (`agree_check_parse`).
-/

namespace TemplateSyntax

/-! ### Findings -/

/-- What is wrong at a position, on a line of its own. -/
def Position.report (path message : String) (p : Position) : String :=
  path ++ ":" ++ p.line.repr ++ ":" ++ p.column.repr ++ ": " ++ message

/-- A structural error and where it begins. -/
structure Finding where
  error : StructuralError
  position : Position

namespace Finding

def line (path : String) (f : Finding) : String :=
  f.position.report path f.error.message

/-- The finding as an entry of an array. -/
def entry (f : Finding) : Json :=
  .obj [("message", .str f.error.message), ("start", .nat f.error.span.start), ("end", .nat f.error.span.stop),
    ("line", .nat f.position.line), ("column", .nat f.position.column)]

/-- The finding is about an error that begins at its position in the source, and its message is on one line. -/
structure IsIn (source : String) (f : Finding) : Prop where
  position : Position.at? source f.error.span.start = some f.position
  newline_notMem : '\n' ∉ f.error.message.toList

theorem IsIn.ofStructural_eq {source : String} {f : Finding} (h : f.IsIn source) :
    Diagnostic.ofStructural source f.error = ⟨f.error.message, f.error.span, some f.position⟩ := by
  rw [Diagnostic.ofStructural, Diagnostic.new, h.position]

theorem IsIn.render_eq {source : String} {f : Finding} (h : f.IsIn source) (path : String) :
    (Diagnostic.ofStructural source f.error).render path = f.line path := by
  rw [h.ofStructural_eq]
  simp only [Diagnostic.render, line, Position.report, String.append_assoc]

theorem IsIn.toJson_eq {source : String} {f : Finding} (h : f.IsIn source) :
    (Diagnostic.ofStructural source f.error).toJson = f.entry := by
  rw [h.ofStructural_eq]
  rfl

end Finding

namespace Template

/-- The path of a template plays no part in how it is parsed. -/
theorem parse_basePath {source : String} {basePath : Option String} (other : Option String) :
    parse source other =
      (parse source basePath).map fun template => { template with basePath := other } := by
  unfold parse
  cases Markup.tokenize source with
  | error e => rfl
  | ok ts =>
    dsimp only
    cases Program.ofTokens ts source.utf8ByteSize <;> rfl

/-- Every error of a program has its place in the source. -/
theorem exists_findings {source : String} {basePath : Option String} {template : Template}
    (h : parse source basePath = .ok template) :
    ∃ findings : List Finding, findings.map Finding.error = template.program.errors ∧
      ∀ f ∈ findings, f.IsIn source := by
  have hplaced : ∀ e ∈ template.program.errors, ∃ f : Finding, f.error = e ∧ f.IsIn source := by
    intro e he
    have hmarks := (marks_of_mem_errors h e he).1
    obtain ⟨p, hp⟩ := Option.isSome_iff_exists.mp (Position.at?_isSome_iff.mpr hmarks.start)
    exact ⟨⟨e, p⟩, rfl, hp, (legible_of_mem_errors h e he).newline_notMem⟩
  generalize template.program.errors = errors at hplaced
  induction errors with
  | nil => exact ⟨[], rfl, fun f hf => absurd hf List.not_mem_nil⟩
  | cons e errors ih =>
    obtain ⟨⟨f, rfl, hf⟩, hrest⟩ := List.forall_mem_cons.mp hplaced
    obtain ⟨findings, rfl, hfindings⟩ := ih hrest
    exact ⟨f :: findings, rfl, List.forall_mem_cons.mpr ⟨hf, hfindings⟩⟩

end Template

namespace Command

open Markup (Token)

/-! ### The log -/

/-- A level that leaves out information leaves out every event, as none is a warning. -/
theorem logLines_eq_nil {level : LogLevel} (h : level.prints .info = false) (events : List LogEvent) :
    logLines level events = [] := by
  have hquiet (e : LogEvent) : level.prints e.level = false := by
    cases e <;> cases level <;> first | rfl | cases h
  rw [logLines, List.map_eq_nil_iff, List.filter_eq_nil_iff]
  intro e _
  rw [hquiet e]
  decide

variable {path source : String} {level : LogLevel} {template : Template} {findings : List Finding}

/-! ### Templates with a tree -/

section Tree

variable (hparse : Template.parse source none = .ok template)
  (herrors : findings.map Finding.error = template.program.errors)

include hparse herrors

theorem diagnostics_eq : diagnostics source = findings.map fun f => Diagnostic.ofStructural source f.error := by
  rw [diagnostics, hparse]
  dsimp only
  rw [Diagnostic.ofProgram, ← herrors, List.map_map]
  rfl

variable (hin : ∀ f ∈ findings, f.IsIn source) (hquiet : level.prints .info = false)

include hin hquiet

theorem check_eq :
    check path source level =
      ⟨if findings = [] then 0 else 1, joinLines (findings.map (Finding.line path)),
        joinLines (if findings = [] then ["OK: " ++ path] else [])⟩ := by
  have hdiagnostics := diagnostics_eq hparse herrors
  have hlines : (diagnostics source).map (Diagnostic.render path) = findings.map (Finding.line path) := by
    rw [hdiagnostics, List.map_map]
    exact List.map_congr_left fun f hf => (hin f hf).render_eq path
  unfold check
  dsimp only
  rw [← hlines, hdiagnostics]
  cases findings with
  | nil => rw [logLines_eq_nil hquiet]; rfl
  | cons f fs =>
    rw [List.map_cons]
    dsimp only
    rw [logLines_eq_nil hquiet]
    rfl

theorem parse_eq (compact : Bool) :
    parse compact path source level =
      let object := Json.obj [("ast", template.program.toJson), ("errors", .arr (findings.map Finding.entry))]
      ⟨if findings = [] then 0 else 1, joinLines [if compact then object.compact else object.pretty], ""⟩ := by
  have hentries :
      (Diagnostic.ofProgram source template.program).map Diagnostic.toJson = findings.map Finding.entry := by
    rw [Diagnostic.ofProgram, ← herrors, List.map_map, List.map_map]
    exact List.map_congr_left fun f hf => (hin f hf).toJson_eq
  unfold parse
  dsimp only
  rw [hparse, logLines_eq_nil hquiet]
  dsimp only
  rw [parseOutput, hentries, ← herrors]
  cases findings <;> rfl

end Tree

/-! ### Templates without a tree -/

section NoTree

variable {e : Template.Error} (hparse : Template.parse source none = .error e) (hquiet : level.prints .info = false)

include hparse hquiet

theorem check_error_eq :
    check path source level = ⟨1, joinLines [(Diagnostic.ofError source e).render path], ""⟩ := by
  unfold check
  dsimp only
  rw [diagnostics, hparse]
  dsimp only
  rw [logLines_eq_nil hquiet]
  rfl

theorem parse_error_eq (compact : Bool) :
    parse compact path source level = ⟨1, "", joinLines [(Diagnostic.ofError source e).render path]⟩ := by
  unfold parse
  dsimp only
  rw [hparse, logLines_eq_nil hquiet]
  rfl

end NoTree

/-! ### Runs -/

theorem run_eq {arguments : List String} {setting : Option String} {files : FileTree} {i : Invocation}
    (hstart : start arguments setting = .ok (i, level)) (hread : files.read i.path = .ok source) :
    run arguments setting files = perform i level (.ok source) := by
  rw [run, hstart]
  dsimp only
  rw [hread]

/-- With a quiet log `check` and `parse` agree on every template. If there is a tree, both list its errors in order, and
each has a position: `check` prints one on each line, `parse` has them as entries next to the tree. If there is none,
`check` prints the line to its output that `parse` prints to its error output. Both exit with 0 if nothing is wrong, and
with 1 otherwise. -/
theorem agree_check_parse {files : FileTree} {checkLine parseLine : List String}
    {checkSetting parseSetting : Option String} {checkOption parseOption : Option LogLevel}
    {checkLevel parseLevel : LogLevel} {compact : Bool}
    (hcheck : start checkLine checkSetting = .ok (⟨.check, path, checkOption⟩, checkLevel))
    (hparse : start parseLine parseSetting = .ok (⟨.parse compact, path, parseOption⟩, parseLevel))
    (hcheckQuiet : checkLevel.prints .info = false) (hparseQuiet : parseLevel.prints .info = false)
    (hread : files.read path = .ok source) (basePath : Option String) :
    let checked := run checkLine checkSetting files
    let parsed := run parseLine parseSetting files
    checked.code = parsed.code ∧
    match Template.parse source basePath with
    | .ok template =>
      ∃ findings : List Finding, findings.map Finding.error = template.program.errors ∧
        (∀ f ∈ findings, f.IsIn source) ∧
        let code := if template.program.errors = [] then 0 else 1
        let notice := if template.program.errors = [] then "OK: " ++ path ++ "\n" else ""
        let object := Json.obj [("ast", template.program.toJson), ("errors", .arr (findings.map Finding.entry))]
        checked = ⟨code, joinLines (findings.map (Finding.line path)), notice⟩ ∧
        parsed = ⟨code, (if compact then object.compact else object.pretty) ++ "\n", ""⟩
    | .error e =>
      ∃ p, Position.at? source e.span.start = some p ∧
        checked = ⟨1, p.report path e.message ++ "\n", ""⟩ ∧ parsed = ⟨1, "", p.report path e.message ++ "\n"⟩ := by
  intro checked parsed
  have hchecked : checked = check path source checkLevel := run_eq hcheck hread
  have hparsed : parsed = parse compact path source parseLevel := run_eq hparse hread
  have hnone := @Template.parse_basePath source basePath none
  cases hresult : Template.parse source basePath with
  | ok template =>
    rw [hresult] at hnone
    obtain ⟨findings, herrors, hin⟩ := Template.exists_findings hresult
    rw [check_eq hnone herrors hin hcheckQuiet] at hchecked
    rw [parse_eq hnone herrors hin hparseQuiet] at hparsed
    rw [hchecked, hparsed]
    refine ⟨rfl, findings, herrors, hin, ?_⟩
    rw [← herrors]
    cases findings <;> simp [joinLines]
  | error e =>
    rw [hresult] at hnone
    obtain ⟨p, hp, -, hrender⟩ := Diagnostic.placed_new (Template.isLocated_of_parse hresult).1 e.message
    rw [check_error_eq hnone hcheckQuiet] at hchecked
    rw [parse_error_eq hnone hparseQuiet] at hparsed
    have hline : (Diagnostic.ofError source e).render path = p.report path e.message := by
      rw [Diagnostic.ofError, hrender]
      simp only [Position.report, String.append_assoc]
      rfl
    rw [hchecked, hparsed, hline]
    exact ⟨rfl, p, hp, by simp [joinLines]⟩

/-- The closing tag closes nothing, and no directive has the name of the other. Columns count characters. -/
theorem agree_check_parse_accents :
    let files := FileTree.ofFiles [("t.ftl", "é</#if>é<#foo>".toUTF8)]
    start ["check", "t.ftl"] none = .ok (⟨.check, "t.ftl", none⟩, .warn) ∧
    start ["parse", "t.ftl", "--compact"] (some "error") = .ok (⟨.parse true, "t.ftl", none⟩, .error) ∧
    LogLevel.warn.prints .info = false ∧ LogLevel.error.prints .info = false ∧
    files.read "t.ftl" = .ok "é</#if>é<#foo>" ∧
    (run ["parse", "t.ftl", "--compact"] (some "error") files).code = 1 ∧
    run ["check", "t.ftl"] none files =
      ⟨1, "t.ftl:1:2: unexpected close tag `</#if>`\nt.ftl:1:9: directive not supported: `<#foo>`\n", ""⟩ := by
  intro files
  have hcheck : start ["check", "t.ftl"] none = .ok (⟨.check, "t.ftl", none⟩, .warn) := rfl
  have hparse : start ["parse", "t.ftl", "--compact"] (some "error") = .ok (⟨.parse true, "t.ftl", none⟩, .error) := rfl
  have hread : files.read "t.ftl" = .ok "é</#if>é<#foo>" := rfl
  let text : Token := ⟨.text, ⟨0, 2⟩, "é", none, none, false, false⟩
  let close : Token := ⟨.directive, ⟨2, 8⟩, "</#if>", some "if", none, true, false⟩
  let text' : Token := ⟨.text, ⟨8, 10⟩, "é", none, none, false, false⟩
  let other : Token := ⟨.directive, ⟨10, 16⟩, "<#foo>", some "foo", none, false, false⟩
  have hscan : Markup.scan "é</#if>é<#foo>" = ([text, close, text', other], none) := by decide +kernel
  have htokens : Markup.tokenize "é</#if>é<#foo>" = .ok [text, close, text', other] := by rw [Markup.tokenize, hscan]
  have htemplate : Template.parse "é</#if>é<#foo>" none =
      .ok ⟨⟨16, [⟨.text "é", ⟨0, 2⟩, none, none⟩, ⟨.text "é", ⟨8, 10⟩, none, none⟩],
        [⟨.strayClose "</#if>", ⟨2, 8⟩⟩, ⟨.unsupported "<#foo>", ⟨10, 16⟩⟩]⟩, [text, close, text', other], none⟩ :=
    Template.parse_eq_ok_iff.mpr ⟨_, htokens, rfl, rfl⟩
  obtain ⟨hcode, hmatch⟩ := agree_check_parse hcheck hparse rfl rfl hread none
  rw [htemplate] at hmatch
  obtain ⟨findings, herrors, hin, hchecked, hparsed⟩ := hmatch
  refine ⟨hcheck, hparse, rfl, rfl, hread, congrArg Outcome.code hparsed, hchecked.trans ?_⟩
  -- the errors are known, and so are their positions
  obtain ⟨f, rest, rfl, hf, hrest⟩ := List.map_eq_cons_iff.mp herrors
  obtain ⟨g, rest, rfl, hg, hrest⟩ := List.map_eq_cons_iff.mp hrest
  obtain rfl := List.map_eq_nil_iff.mp hrest
  have hfirst := (hin f (List.mem_cons_self ..)).position
  have hsecond := (hin g (List.mem_cons_of_mem _ (List.mem_singleton_self _))).position
  rw [hf] at hfirst
  rw [hg] at hsecond
  have hp : f.position = ⟨1, 2⟩ := Option.some.inj (hfirst.symm.trans rfl)
  have hq : g.position = ⟨1, 9⟩ := Option.some.inj (hsecond.symm.trans rfl)
  have hlines : [f, g].map (Finding.line "t.ftl") =
      ["t.ftl:1:2: unexpected close tag `</#if>`", "t.ftl:1:9: directive not supported: `<#foo>`"] := by
    simp only [List.map, Finding.line, hf, hg, hp, hq]
    rfl
  rw [hlines]
  rfl

end Command

end TemplateSyntax
