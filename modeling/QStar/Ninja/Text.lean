import QStar.Lib.NinjaFiles
import QStar.Lib.ShellWords
import QStar.Ninja.Emit

/-!
# The text of the emitted file

What is written for each statement, line by line. Commands are quoted for the
shell, and a dollar is doubled where the writer knows that Ninja reads the text
first: in the words of a command, in paths and in descriptions, but not in
directories, ids, the names of environment variables and the scripts of stages and
runs. What response files make of a command, which actions the cache already had
and how a command is described are parameters.
-/
namespace QStar.Ninja

open QStar.Lib.CStrings
open QStar.Lib.NinjaEdges
open QStar.Lib.NinjaFiles
open QStar.Base
open QStar.BuildGraph

/-- What the text takes from the rest of the program. -/
structure Printing where
  /-- `exec_argv` of `qstar_action_materialize` -/
  execArgv : EdgeCommand → List Bytes
  /-- What `ninja_cache_add_candidate` returned. -/
  cacheHit : Statement → Bool
  description : Statement → Bytes

/-! ## Values -/

/-- A byte that the shell leaves alone. -/
def isSimple (c : UInt8) : Bool :=
  isAlnum c || decide (c ∈ ascii "_-./:=+,@%")

/-- `shell_arg_mode` -/
def shellArgMode (ninja : Bool) (s : Bytes) : Bytes :=
  if s ≠ [] ∧ s.all isSimple = true then s
  else
    [39] ++ s.flatMap (fun c =>
      if c = 39 then ascii "'\\''" else if ninja = true ∧ c = 36 then ascii "$$" else [c]) ++ [39]

/-- `shell_arg` -/
def shellArg (s : Bytes) : Bytes := shellArgMode false s

/-- `ninja_shell_arg` -/
def ninjaShellArg (s : Bytes) : Bytes := shellArgMode true s

/-- `ninja_var_text` -/
def ninjaVarText (s : Bytes) : Bytes := s.flatMap fun c => if c = 36 then ascii "$$" else [c]

/-- `shell_argv` -/
def shellArgv (argv : List Bytes) : Bytes := (ascii " ").intercalate (argv.map shellArg)

/-- `ninja_shell_env_assignment`; what stands before the first `=` is the name. -/
def ninjaShellEnvAssignment (item : Bytes) : Bytes :=
  match item.dropWhile (· ≠ 61) with
  | [] => ninjaShellArg item
  | _ :: value =>
    if item.head? = some 61 then ninjaShellArg item
    else item.takeWhile (· ≠ 61) ++ ascii "=" ++ ninjaShellArg value

/-- `cmd_env_assignment` -/
def cmdEnvAssignment (item : Bytes) : Bytes :=
  ascii "set \"" ++ item.flatMap (fun c =>
    if c = 34 then ascii "\\\"" else if c = 36 then ascii "$$" else [c]) ++ ascii "\""

/-- `shell_env_prefix` -/
def shellEnvPrefix (windows : Bool) (env : List Bytes) : Bytes :=
  env.flatMap fun item =>
    if windows then cmdEnvAssignment item ++ ascii " && "
    else ninjaShellEnvAssignment item ++ ascii " "

/-- `ninja_arg_is_sh_script` -/
def isShScript (s : Bytes) : Bool := decide (3 < s.length) && decide (ascii ".sh" <:+ s)

/-- `shell_argv_ninja_command` -/
def shellArgvNinjaCommand (windows : Bool) (argv : List Bytes) : Bytes :=
  (if windows && argv.head?.any isShScript then ninjaShellArg (ascii "sh") ++ ascii " " else []) ++
    (ascii " ").intercalate (argv.map ninjaShellArg)

/-- The text of `write_edge_command` -/
def writeEdgeCommand (pr : Printing) (windows : Bool) (s : Statement) (c : EdgeCommand) : Bytes :=
  if pr.cacheHit s then ascii (if windows then "cmd /c exit 0" else ":")
  else shellEnvPrefix windows c.env ++ shellArgvNinjaCommand windows (pr.execArgv c)

/-- The directories a generate command makes first. -/
def makeDirectories (directories : List Bytes) : Bytes :=
  if directories = [] then []
  else ascii "mkdir -p" ++ directories.flatMap (fun dir => ascii " " ++ shellArg dir) ++ ascii " && "

/-- The variables below a statement. -/
def Statement.variables (pr : Printing) (g : Graph) (s : Statement) : List (Bytes × Bytes) :=
  let id := [(ascii "qstar_action_id", s.id)]
  let described := (ascii "description", ninjaVarText (pr.description s)) :: id
  match s.command with
  | .phony => id
  | .process c =>
    (ascii "command",
      makeDirectories s.directories ++ writeEdgeCommand pr (isWindows g) s c) ::
      (s.depfile.toList.map fun depfile => (ascii "depfile", escape depfile)) ++
      (s.outDir.toList.map fun dir => (ascii "out_dir", shellArg dir)) ++ described
  | .script path _ => (ascii "command", shellArgv [ascii "sh", path]) :: described

/-! ## Lines -/

/-- A line of the file. -/
inductive Written where
  | blank
  | comment (text : Bytes)
  | binding (name value : Bytes)
  | rule (name : Bytes)
  | variable (name value : Bytes)
  | build (s : Statement)
  | default (paths : List Bytes)

/-- The statement as its helpers print it. -/
def Statement.written (s : Statement) : WrittenEdge where
  outputs := s.outputs
  rule := s.rule
  explicit := s.explicit.map Input.named
  implicit := s.implicit.map (·.map Input.named)
  orderOnly := s.orderOnly.map (·.map Input.named)

def Written.text : Written → Bytes
  | .blank => []
  | .comment text => ascii "# " ++ text
  | .binding name value => name ++ ascii " = " ++ value
  | .rule name => ascii "rule " ++ name
  | .variable name value => variableText name value
  | .build s => buildText s.written
  | .default paths => defaultText paths

/-- What the line is meant to be. -/
def Written.meant : Written → Line
  | .blank => .blank
  | .comment _ => .comment
  | .binding name _ => .binding name
  | .rule name => .rule name
  | .variable name _ => .variable name
  | .build s => .build s.written.edge
  | .default paths => .default paths

/-- The lines of a rule of the header. -/
def ruleLines (name : String) (bindings : List (String × String)) : List Written :=
  .rule (ascii name) :: bindings.map (fun v => .variable (ascii v.1) (ascii v.2)) ++ [.blank]

/-- The rules of the header. -/
def headerRules (windows : Bool) : List Written :=
  let command := ("command", if windows then "$command" else "mkdir -p $out_dir && $command")
  let described := ("description", "[qstar] $description")
  let script := [("command", "$command"), described, ("restat", "1")]
  ruleLines "qstar_compile" [command, described, ("depfile", "$depfile"), ("deps", "gcc")] ++
  ruleLines "qstar_compile_nodep" [command, described] ++
  ruleLines "qstar_archive" [command, described] ++
  ruleLines "qstar_link" [command, described] ++
  ruleLines "qstar_generate" script ++
  ruleLines "qstar_stage" script ++
  ruleLines "qstar_run" script

/-- `write_ninja_header` -/
def headerLines (g : Graph) : List Written :=
  [.comment (ascii "generated by qstar; do not edit"),
    .binding (ascii "ninja_required_version") (ascii "1.3"),
    .binding (ascii "builddir") (escape (buildPath g.buildDir (ascii "ninja"))),
    .blank] ++ headerRules (isWindows g)

/-- The lines of a statement. -/
def statementLines (pr : Printing) (g : Graph) (s : Statement) : List Written :=
  [.comment (ascii "qstar-action-id: " ++ s.id), .build s] ++
    (s.variables pr g).map (fun v => .variable v.1 v.2) ++ [.blank]

/-- The default line. -/
def defaultLines (g : Graph) (label : Option Bytes) : List Written :=
  if defaultPaths g label = [] then [] else [.default (defaultPaths g label)]

/-- The lines of `build.ninja`. -/
def fileLines (pr : Printing) (g : Graph) (label : Option Bytes) (statements : List Statement) :
    List Written :=
  headerLines g ++ statements.flatMap (statementLines pr g) ++ defaultLines g label

/-- The text of `build.ninja`. -/
def fileText (pr : Printing) (g : Graph) (label : Option Bytes) (statements : List Statement) :
    Bytes :=
  joinLines ((fileLines pr g label statements).map Written.text)

/-! ## The words of the emitted commands

A word is printed as it is where all its bytes are harmless to the shell and between single
quotes otherwise. -/

section Words

open QStar.Lib.ShellWords

theorem isInert_of_isSimple (c : UInt8) (h : isSimple c = true) : isInert c = true := by
  revert h
  exact forall_byte (P := fun c => isSimple c = true → isInert c = true) (by decide +kernel) c

theorem isSimple_ne_dollar {c : UInt8} (h : isSimple c = true) : c ≠ 36 := by
  rintro rfl
  cases h

/-- `shell_arg` quotes a word for the shell. -/
theorem shellArg_eq (s : Bytes) : shellArg s = quoteWord isSimple s := by
  have hbyte : (fun c : UInt8 => if c = 39 then ascii "'\\''"
      else if false = true ∧ c = 36 then ascii "$$" else [c]) = quoteByte := by
    funext c
    simp [quoteByte]
  unfold shellArg shellArgMode quoteWord
  rw [hbyte, List.append_assoc]
  rfl

/-- A printed word is read as the word it was. -/
theorem run_shellArg (s : Bytes) : run .between (shellArg s) = some ([], .plain s) := by
  rw [shellArg_eq]
  exact run_quoteWord isInert_of_isSimple s

/-- A printed word has the slashes and dollars of the word. -/
theorem count_shellArg {c : UInt8} (hc : isKept c = true) (s : Bytes) :
    (shellArg s).count c = s.count c := by
  have hcount := count_run hc (run_shellArg s)
  simpa [State.content] using hcount.symm

theorem not_mem_shellArg {c : UInt8} (hquote : c ≠ 39) (hescape : c ≠ 92) {s : Bytes} (h : c ∉ s) :
    c ∉ shellArg s := by
  rw [shellArg_eq]
  exact notMem_quoteWord hquote hescape isSimple h

/-- A word that needs no quotes is printed as it is, and any other one in quotes. -/
theorem shellArg_cases (s : Bytes) :
    (s ≠ [] ∧ s.all isSimple = true ∧ shellArg s = s) ∨
      (¬(s ≠ [] ∧ s.all isSimple = true) ∧ ∃ rest, shellArg s = 39 :: rest) := by
  rw [shellArg_eq, quoteWord]
  split
  · rename_i h
    exact Or.inl ⟨h.1, h.2, rfl⟩
  · rename_i h
    exact Or.inr ⟨h, _, rfl⟩

end Words

end QStar.Ninja
