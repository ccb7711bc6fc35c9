import QStar.Lib.Numerals
import QStar.Lib.Streams
import QStar.Base.Depfile

/-!
# Action keys

The key an action is compared by from build to build: a digest of the digests of
its command, environment, inputs, tools and output. Inputs under the build
directory count by size and modification second only, all others also by
content. Names are package-relative.
-/
namespace QStar.Stella

open QStar.Lib.CStrings
open QStar.Lib.Fnv
open QStar.Lib.Numerals
open QStar.Lib.Streams
open QStar.Base

/-- A file with the second of its last modification. -/
structure FileState where
  content : Bytes
  mtime : Nat
  deriving DecidableEq, Repr

abbrev Disk := FileTree FileState

/-- What a build takes from outside the graph: its build directory and the environment. -/
structure Setting where
  buildDir : Bytes
  getenv : Bytes → Option Bytes

/-- The bytes `hash_str` feeds. -/
abbrev hashStr (s : Bytes) : Bytes := terminated 255 s

/-- "size=%lld mtime=%lld" -/
def metaText (size mtime : Nat) : Bytes :=
  ascii "size=" ++ printUnsigned 10 size ++ ascii " mtime=" ++ printUnsigned 10 mtime

/-- `path_is_build_output` -/
def pathIsBuildOutput (buildDir rel : Bytes) : Bool :=
  buildDir ≠ [] && decide (buildDir ++ ascii "/" <+: rel)

/-- The stream `hash_file` digests. -/
def fileStream (buildDir rel : Bytes) : Option FileState → Bytes
  | none => hashStr rel ++ hashStr (ascii "<missing>")
  | some st =>
    hashStr rel ++ hashStr (metaText st.content.length st.mtime) ++
    if pathIsBuildOutput buildDir rel then hashStr (ascii "<build-output>") else st.content

def fileDigest (buildDir rel : Bytes) (st : Option FileState) : Bytes :=
  digest (fileStream buildDir rel st)

def envWhitelist : List Bytes :=
  [ascii "PATH", ascii "SDKROOT", ascii "CPATH", ascii "LIBRARY_PATH"]

/-- What a process action is, as far as the graph determines it. -/
structure Action where
  id : Bytes
  kind : Bytes
  /-- The label of the target, "<generated>" without one. -/
  owner : Bytes
  argv : List Bytes
  env : List Bytes
  /-- The inputs known without a depfile. -/
  staticInputs : List Bytes
  outputs : List Bytes
  /-- The output that the key names when the action is prepared. -/
  keyOutput : Bytes
  depfile : Option Bytes
  /-- The strings of `compute_tool_policy_key`. -/
  toolPolicy : List Bytes
  /-- The strings of `compute_external_tool_key` after the tool. -/
  externalTools : List Bytes
  /-- What a run target expects of its output; not part of any key. -/
  expectContains : Bytes
  expectFile : Bytes
  outputs_ne : outputs ≠ []

/-- `outputs.items[0]` -/
def Action.firstOutput (a : Action) : Bytes := a.outputs.head a.outputs_ne

/-- What was seen of the inputs of an action. -/
abbrev Observation := Bytes → Option FileState

def argvKey (argv : List Bytes) : Bytes := digest (argv.flatMap hashStr)

/-- The strings of `compute_action_env_key`. -/
def envStrings (set : Setting) (env : List Bytes) : List Bytes :=
  (envWhitelist.flatMap fun key => [key, (set.getenv key).getD []]) ++ env

def envKey (set : Setting) (env : List Bytes) : Bytes :=
  digest ((envStrings set env).flatMap hashStr)

/-- `compute_input_key` -/
def inputKey (set : Setting) (seen : Observation) (inputs : List Bytes) : Bytes :=
  digest ((inputs.map fun rel => fileDigest set.buildDir rel (seen rel)).flatMap hashStr)

def toolPolicyKey (a : Action) : Bytes := digest (a.toolPolicy.flatMap hashStr)

def outputKey (output : Bytes) : Bytes := digest (hashStr output)

def externalToolKey (a : Action) : Bytes :=
  digest ((a.argv.headD [] :: a.externalTools).flatMap hashStr)

/-- The strings of `compute_action_key`. -/
def keyStrings (set : Setting) (a : Action) (seen : Observation)
    (inputs depInputs : List Bytes) (output : Bytes) : List Bytes :=
  [a.id, a.kind, a.owner, argvKey a.argv, envKey set a.env, inputKey set seen inputs,
    inputKey set seen depInputs, toolPolicyKey a, outputKey output, externalToolKey a]

/-- `compute_action_key` -/
def actionKey (set : Setting) (a : Action) (seen : Observation)
    (inputs depInputs : List Bytes) (output : Bytes) : Bytes :=
  digest ((keyStrings set a seen inputs depInputs output).flatMap hashStr)

/-- Two states of a file that keys do not tell apart. -/
def SameStamp (set : Setting) (rel : Bytes) (s t : Option FileState) : Prop :=
  fileStream set.buildDir rel s = fileStream set.buildDir rel t

theorem inputKey_congr {set : Setting} {seen seen' : Observation} {inputs : List Bytes}
    (h : ∀ rel ∈ inputs, SameStamp set rel (seen rel) (seen' rel)) :
    inputKey set seen inputs = inputKey set seen' inputs := by
  have hmap : (inputs.map fun rel => fileDigest set.buildDir rel (seen rel)) =
      inputs.map fun rel => fileDigest set.buildDir rel (seen' rel) := by
    refine List.map_congr_left ?_
    intro rel hrel
    exact congrArg digest (h rel hrel)
  unfold inputKey
  rw [hmap]

/-- A key depends on the inputs only through what keys tell apart. -/
theorem actionKey_congr {set : Setting} {a : Action} {seen seen' : Observation}
    {inputs depInputs : List Bytes} {output : Bytes}
    (h : ∀ rel ∈ inputs, SameStamp set rel (seen rel) (seen' rel))
    (hdep : ∀ rel ∈ depInputs, SameStamp set rel (seen rel) (seen' rel)) :
    actionKey set a seen inputs depInputs output =
      actionKey set a seen' inputs depInputs output := by
  unfold actionKey keyStrings
  rw [inputKey_congr h, inputKey_congr hdep]

end QStar.Stella
