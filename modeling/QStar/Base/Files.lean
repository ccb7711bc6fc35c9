import QStar.Lib.CStrings
import Mathlib.Logic.Function.Basic

/-!
# Files and names

Regular files as a map from paths to what is stored under them, with the
changes the build code makes, and the label mangling and build-directory paths
it names files with. I/O errors, directories, links and buffer limits are not
modelled.
-/
namespace QStar.Base

open QStar.Lib.CStrings

/-- What is stored by path; `none` is a missing file. -/
abbrev FileTree (α : Type) := Bytes → Option α

/-- Trees of plain contents. -/
abbrev Files := FileTree Bytes

variable {α : Type}

/-- `fopen(path, "w")` followed by the given content, or a rename onto the path. -/
def writeFile (files : FileTree α) (path : Bytes) (content : α) : FileTree α :=
  Function.update files path (some content)

/-- More bytes to a file that is open for writing. -/
def appendFile (files : Files) (path content : Bytes) : Files :=
  Function.update files path (some ((files path).getD [] ++ content))

def removeFile (files : FileTree α) (path : Bytes) : FileTree α := Function.update files path none

@[simp] theorem writeFile_self (files : FileTree α) (path : Bytes) (content : α) :
    writeFile files path content path = some content := by simp [writeFile]

theorem writeFile_ne (files : FileTree α) {path other : Bytes} (content : α)
    (h : other ≠ path) : writeFile files path content other = files other := by
  simp [writeFile, h]

/-- Writing what a file already holds changes nothing. -/
theorem writeFile_same {files : FileTree α} {path : Bytes} {content : α}
    (h : files path = some content) : writeFile files path content = files := by
  simp [writeFile, ← h]

@[simp] theorem appendFile_self (files : Files) (path content : Bytes) :
    appendFile files path content path = some ((files path).getD [] ++ content) := by
  simp [appendFile]

theorem appendFile_ne (files : Files) {path other : Bytes} (content : Bytes)
    (h : other ≠ path) : appendFile files path content other = files other := by
  simp [appendFile, h]

@[simp] theorem removeFile_self (files : FileTree α) (path : Bytes) :
    removeFile files path path = none := by simp [removeFile]

theorem removeFile_ne (files : FileTree α) {path other : Bytes} (h : other ≠ path) :
    removeFile files path other = files other := by
  simp [removeFile, h]

/-- `isalnum` in the C locale. -/
def isAlnum (c : UInt8) : Bool :=
  (48 ≤ c && c ≤ 57) || (65 ≤ c && c ≤ 90) || (97 ≤ c && c ≤ 122)

/-- `qstar_mangle_label` -/
def mangleLabel (label : Bytes) : Bytes := label.map fun c => if isAlnum c then c else 95

/-- `qstar_graph_build_path` -/
def buildPath (buildDir sub : Bytes) : Bytes := buildDir ++ ascii "/" ++ sub

/-- `build_log_rel` on the name `action_log_name` gives an action id. -/
def buildLogRel (buildDir id suffix : Bytes) : Bytes :=
  buildPath buildDir (ascii "logs/" ++ mangleLabel id ++ suffix)

theorem buildLogRel_suffix_ne {buildDir id s t : Bytes} (h : s ≠ t) :
    buildLogRel buildDir id s ≠ buildLogRel buildDir id t := by
  intro heq
  simp only [buildLogRel, buildPath, List.append_assoc, List.append_cancel_left_eq] at heq
  exact h heq

end QStar.Base
