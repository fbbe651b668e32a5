import PathSafety.Analysis.Basic
import PathSafety.Command.Options
import PathSafety.Command.Target

/-!
# Running the command

What the command does for a command line: it analyzes the functions of the target one after another, says
what it finds, and writes the reports.

Contents:

* `Run` — what a run comes to;
* `Options.config`, `Options.level` — what options mean for the analysis and for what is said;
* `Options.run`, `run` — the run.
-/

namespace PathSafety.Command

open Text

/-- What a run comes to. -/
structure Run where
  exit : Nat
  records : List Record := []
  stdout : Option String := none
  /-- The file that is written, with what is written to it. -/
  file : Option (String × String) := none
  deriving DecidableEq, Repr

/-- The name and version of the program. -/
def versionText : String := "sandverify 0.1.0\n"

/-- How the command is used. -/
def usageText : String :=
  "usage: sandverify [-h] [-o OUTPUT] [--bound BOUND] [--no-null-checks] [--checkers CHECKERS] " ++
    "[-v] [--debug] [--json] [--version] target functions [functions ...]\n"

/-- A path without empty parts and single dots. Two slashes at the beginning are kept, more are as good
as one. -/
def tidyPath (path : String) : String :=
  let root := match path.toList with
    | '/' :: '/' :: '/' :: _ => "/"
    | '/' :: '/' :: _ => "//"
    | '/' :: _ => "/"
    | _ => ""
  let parts := (path.splitOn "/").filter fun p => p ≠ "" && p ≠ "."
  if root.isEmpty && parts.isEmpty then "." else root ++ "/".intercalate parts

namespace Options

variable (o : Options)

/-- The file that reports are written to, if one is named. -/
def outputPath : Option String := (o.output.filter (!·.isEmpty)).map tidyPath

/-- The names in a list with commas. -/
def checkerNames : List String :=
  ((o.checkers.splitOn ",").map fun n => String.ofList (trim n.toList)).filter (!·.isEmpty)

/-- What the analysis is asked for. -/
def config : Config := {
  loopBound := o.bound
  nullChecking := !o.noNullChecks
  checkers := o.checkerNames
  verbose := o.verbose }

/-- The level from which records are shown. -/
def level : Level :=
  if o.debug then .debug
  else if o.verbose then .info
  else if o.json then .warning
  else .info

/-- What is said about a report besides what the analysis says, unless reports are written out. -/
def closing (r : Report) : List Record :=
  if o.json then []
  else
    let n := r.paths.length
    let unsafePaths := if r.hasViolations then
      ⟨.warning, s!"{r.function}: {r.violations.length} of {n} path(s) unsafe"⟩ ::
        r.violations.map fun p => ⟨.warning, s!"  path {p.index}: " ++
          (match p.verdict.kind with
            | some k => s!"{k.name}: {p.verdict.message}"
            | none => p.verdict.message)⟩
      else []
    let abortedPaths := if r.aborted.isEmpty then [] else
      ⟨.warning, s!"{r.function}: {r.aborted.length} of {n} path(s) aborted"⟩ ::
        r.aborted.map fun p => ⟨.warning, s!"  path {p.index}: {p.result}"⟩
    let safe := if r.errors.isEmpty && r.aborted.isEmpty && !r.hasViolations then
      [⟨.info, s!"{r.function}: all {n} path(s) safe"⟩] else []
    unsafePaths ++ abortedPaths ++ safe

/-- Whether no verdict was reached about some path or the function as a whole. -/
def failed (r : Report) : Bool := !r.errors.isEmpty || !r.aborted.isEmpty

/-- Reports as JSON: a single one as it is, several in a list. -/
def document : List Report → Json
  | [r] => r.toJson
  | rs => .record [("results", .list (rs.map Report.toJson))]

/-- Analyzes the functions. -/
def analyses (c : Context) : Except Escape (List Analysis) := o.functions.mapM c.analyze

/-- What is said about failed functions in the end. -/
def failures (reports : List Report) : List Record :=
  match (reports.filter failed).map (·.function) with
  | [] => []
  | names => [⟨.warning, "Failed functions: " ++ ", ".intercalate names⟩]

/-- The exit code: 2 if something failed, 1 if something is unsafe. -/
def exitCode (reports : List Report) : Nat :=
  if reports.any failed then 2 else if reports.any Report.hasViolations then 1 else 0

/-- What follows from the analyses. -/
def conclude (c : Context) (as : List Analysis) : Run :=
  let reports := as.map (·.report)
  let text := (document reports).render 2
  let saved := match o.outputPath with
    | some path => if o.json then [] else [⟨.info, s!"Results saved to: {path}"⟩]
    | none => []
  { exit := exitCode reports
    records := as.flatMap (fun a => c.records a ++ o.closing a.report) ++ saved ++ failures reports
    stdout := if o.json then some (text ++ "\n") else none
    file := o.outputPath.map (·, text) }

/-- The run of a command that could not be set up. -/
def refused (message : String) : Run :=
  { exit := 2, records := [⟨.error, s!"Cannot set up analysis of {o.target}: {message}"⟩] }

/-- Analyzes the functions of the target. -/
def run (catalog : Catalog) : Except Escape Run := do
  let result ←
    match catalog.load o.target with
    | .error e => pure (o.refused e.message)
    | .ok project =>
      match Context.make project o.config Registry.sandbox with
      | .error names => pure (o.refused (Checker.unknownMessage names))
      | .ok c => o.conclude c <$> o.analyses c
  return { result with records := Record.from_ o.level result.records }

end Options

/-- Runs the command with some arguments. -/
def run (catalog : Catalog) (args : List String) : Except Escape Run :=
  match Request.ofArgs args with
  | .analyze o => o.run catalog
  | .help => .ok { exit := 0, stdout := some usageText }
  | .version => .ok { exit := 0, stdout := some versionText }
  | .misuse => .ok { exit := 2 }

end PathSafety.Command
