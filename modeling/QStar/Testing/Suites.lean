import QStar.Base.Paths
import QStar.Base.StringLists
import QStar.Lib.Search
import QStar.Testing.Lifecycle

/-!
# Test suites

Suites name tests, run targets and other suites, and carry tags. A selection by suites, tags
and excluded tags is resolved to a list of leaf labels. Suites are validated first: their
labels are no others', their members are known, and no suite contains itself.
-/
namespace QStar.Testing

open QStar.Lib.CStrings
open QStar.Lib.Results
open QStar.Lib.Search
open QStar.Base

/-- `struct qstar_test_suite` -/
structure TestSuite where
  label : Bytes
  tests : List Bytes
  tags : List Bytes
  manual : Bool
  deriving DecidableEq

/-- The part of a graph that suites are about. No two suites have the same label: see
`qstar_graph_add_test_suite`. -/
structure SuiteGraph extends TestGraph where
  testSuites : List TestSuite
  suites_nodup : (testSuites.map TestSuite.label).Nodup
  genruleLabels : List Bytes
  stageLabels : List Bytes
  configLabels : List Bytes
  toolsetLabels : List Bytes

/-- The part of `struct qstar_test_options` a selection reads. -/
structure SelectionOptions where
  suites : List Bytes
  tags : List Bytes
  excludeTags : List Bytes

/-- `qstar_graph_find_test_suite` -/
def findTestSuite (g : SuiteGraph) (label : Bytes) : Option TestSuite :=
  g.testSuites.find? fun s => s.label = label

/-- `find_target` -/
def findTestTarget (g : SuiteGraph) (label : Bytes) : Option TestTarget :=
  g.targets.find? fun t => t.label = label

/-- `tag_valid` -/
def tagValid (tag : Bytes) : Bool := tag ≠ [] ∧ tag.all fun c => c ≠ 10 && c ≠ 13

/-- The errors of `qstar_graph_validate_test_suites`, with what they name. -/
inductive SuiteError where
  | conflict (suite : Bytes) (kind : String)
  | empty (suite : Bytes)
  | badTag (suite : Bytes) (place : Nat)
  | duplicateTag (suite tag : Bytes)
  | duplicateMember (suite member : Bytes)
  | unknownMember (suite member : Bytes)
  | badMember (suite member : Bytes)
  | cycle (suite : Bytes)
  | tooDeep
  deriving DecidableEq

/-- `suite_label_conflicts` -/
def suiteLabelConflicts (g : SuiteGraph) (label : Bytes) : Option String :=
  if (findTestTarget g label).isSome then some "target"
  else if label ∈ g.genruleLabels then some "generated action"
  else if label ∈ g.stageLabels then some "stage"
  else if label ∈ g.configLabels then some "config"
  else if label ∈ g.toolsetLabels then some "toolset"
  else none

/-- The tags of a suite, in order, after those already seen. -/
def checkTags (suite : Bytes) (seen : List Bytes) : List Bytes → Except SuiteError Unit
  | [] => .ok ()
  | tag :: rest =>
    if tagValid tag = false then .error (.badTag suite (seen.length + 1))
    else if tag ∈ seen then .error (.duplicateTag suite tag)
    else checkTags suite (seen ++ [tag]) rest

/-- The members of a suite, in order, after those already seen. -/
def checkMembers (g : SuiteGraph) (suite : Bytes) (seen : List Bytes) :
    List Bytes → Except SuiteError Unit
  | [] => .ok ()
  | member :: rest =>
    if member ∈ seen then .error (.duplicateMember suite member)
    else if (findTestSuite g member).isSome then checkMembers g suite (seen ++ [member]) rest
    else
      match findTestTarget g member with
      | none => .error (.unknownMember suite member)
      | some t =>
        if t.kind ≠ ascii "test" ∧ t.kind ≠ ascii "run_target" then .error (.badMember suite t.label)
        else checkMembers g suite (seen ++ [member]) rest

def checkSuite (g : SuiteGraph) (s : TestSuite) : Except SuiteError Unit :=
  match suiteLabelConflicts g s.label with
  | some kind => .error (.conflict s.label kind)
  | none =>
    if s.tests = [] then .error (.empty s.label)
    else do
      checkTags s.label [] s.tags
      checkMembers g s.label [] s.tests

/-- The suites among the members of a suite. -/
def nestedSuites (g : SuiteGraph) (s : TestSuite) : List TestSuite :=
  s.tests.filterMap (findTestSuite g)

/-- `validate_suite_cycle`: the states 1 and 2 of a suite are the entered and the finished. -/
def suiteSpace (g : SuiteGraph) : Space TestSuite Bytes SuiteError where
  key := TestSuite.label
  next s := .ok (nestedSuites g s)
  again s := .error (.cycle s.label)
  tooDeep := .tooDeep

/-- `qstar_graph_validate_test_suites` -/
def validateTestSuites (g : SuiteGraph) : Except SuiteError Unit := do
  g.testSuites.forM (checkSuite g)
  let _ ← (suiteSpace g).search (g.testSuites.length + 1) g.testSuites
  return ()

/-- `option_tag_matches` -/
def optionTagMatches (tags : List Bytes) (s : TestSuite) : Bool := tags.any fun tag => tag ∈ s.tags

/-- `suite_is_excluded` -/
def suiteIsExcluded (excludeTags : List Bytes) (s : TestSuite) : Bool :=
  optionTagMatches excludeTags s

/-- `resolve_suite_recursive`; the stack holds the labels of the suites that are being
resolved, which bounds the depth. -/
def resolveSuite (g : SuiteGraph) (excludeTags : List Bytes) :
    Nat → List Bytes → TestSuite → List Bytes → Option (List Bytes)
  | 0, _, _, _ => none
  | fuel + 1, stack, s, labels =>
    if suiteIsExcluded excludeTags s then some labels
    else if s.label ∈ stack then none
    else
      s.tests.foldlM (fun labels member =>
        match findTestSuite g member with
        | some nested => resolveSuite g excludeTags fuel (s.label :: stack) nested labels
        | none => some (pushUnique labels member)) labels

/-- `qstar_graph_resolve_test_suite_members` -/
def resolveMembers (g : SuiteGraph) (excludeTags : List Bytes) (s : TestSuite)
    (labels : List Bytes) : Option (List Bytes) :=
  resolveSuite g excludeTags (g.testSuites.length + 1) [] s labels

/-- The errors of `qstar_graph_resolve_test_selection`. -/
inductive SelectionError where
  | badTag
  | badExcludedTag
  | emptySuite
  | badSuite (suite : Bytes)
  | unknownSuite (label : Bytes)
  | unresolved (label : Bytes)
  deriving DecidableEq

/-- One turn of the loop over the named suites. -/
def selectSuite (g : SuiteGraph) (options : SelectionOptions) (labels : List Bytes) (suite : Bytes) :
    Except SelectionError (List Bytes) :=
  if suite = [] then .error .emptySuite
  else
    match labelCanonicalize suite [] with
    | none => .error (.badSuite suite)
    | some canonical =>
      match findTestSuite g canonical with
      | none => .error (.unknownSuite canonical)
      | some s =>
        match resolveMembers g options.excludeTags s labels with
        | none => .error (.unresolved canonical)
        | some labels => .ok labels

/-- One turn of the loop over all suites. -/
def selectByTags (g : SuiteGraph) (options : SelectionOptions) (labels : List Bytes) (s : TestSuite) :
    Except SelectionError (List Bytes) :=
  if s.manual ∨ suiteIsExcluded options.excludeTags s then .ok labels
  else if options.tags ≠ [] ∧ optionTagMatches options.tags s = false then .ok labels
  else
    match resolveMembers g options.excludeTags s labels with
    | none => .error (.unresolved s.label)
    | some labels => .ok labels

/-- The suites sorted by `suite_ptr_cmp`; labels do not repeat. -/
def sortedSuites (g : SuiteGraph) : List TestSuite :=
  g.testSuites.mergeSort fun a b => decide (a.label ≤ b.label)

/-- `qstar_graph_resolve_test_selection` on an empty list. -/
def resolveTestSelection (g : SuiteGraph) (options : SelectionOptions) :
    Except SelectionError (List Bytes) :=
  if options.tags.all tagValid = false then .error .badTag
  else if options.excludeTags.all tagValid = false then .error .badExcludedTag
  else do
    let labels ← options.suites.foldlM (selectSuite g options) []
    if options.tags = [] ∧ options.excludeTags = [] then .ok labels
    else (sortedSuites g).foldlM (selectByTags g options) labels

end QStar.Testing
