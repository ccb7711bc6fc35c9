import QStar.BuildGraph.Artifacts
import QStar.Lib.FileTrees

/-!
# Staging and exporting

Validation of a stage, the copies it makes below its root, its manifest, and the
copies `export_stage` makes from the staged files. The files a stage copies are
built before it starts. A failure stops the operation. Directories are read as
empty files, as `fread` on them does.
-/
namespace QStar.Staging

open QStar.Lib.CStrings QStar.Lib.Numerals QStar.Lib.FileTrees
open QStar.Base QStar.BuildGraph

/-! ## Manifests

The text a stage writes about itself: its label, root and mode, and for every entry where the
file comes from and what the copy does to the destination. -/

/-- A character of `json_string` -/
def jsonChar (c : UInt8) : Bytes :=
  if c = 34 ∨ c = 92 then [92, c]
  else if c = 10 then ascii "\\n"
  else if c = 13 then ascii "\\r"
  else if c = 9 then ascii "\\t"
  else [c]

/-- `json_string` -/
def jsonString (s : Bytes) : Bytes := [34] ++ s.flatMap jsonChar ++ [34]

/-- `json_path_string` -/
def jsonPathString (s : Bytes) : Bytes := jsonString (s.map fun c => if c = 92 then 47 else c)

/-- What `stage_source_kind` finds out about a source. -/
structure SourceKind where
  kind : Bytes
  producer : Bytes
  artifact : Bytes

/-- `stage_source_kind` -/
def sourceKind (g : Graph) (token srcRel : Bytes) : SourceKind :=
  let owned : SourceKind := match findOutputOwner g srcRel with
    | some owner => ⟨ascii "custom_output", owner.label, ascii "output"⟩
    | none => ⟨ascii "file", ascii "<none>", []⟩
  match targetFileToken token with
  | .targetFile label selector =>
    match findTarget g label with
    | some t =>
      let primary := match targetArtifactMap g t with
        | .ok artifacts => ((artifacts.find? Artifact.primary).map Artifact.id).getD []
        | .error _ => []
      ⟨ascii "target", label, if selector ≠ [] then selector else primary⟩
    | none =>
      match findGenrule g label with
      | some _ => ⟨ascii "custom_target", label, ascii "primary"⟩
      | none => owned
  | _ => owned

/-- `stage_manifest_begin`, what it writes -/
def manifestHead (s : Stage) (rootRel : Bytes) (dryRun : Bool) : Bytes :=
  ascii "\x7b\n  \"schema\":\"qstar-stage-manifest-v2\",\n  \"label\":" ++ jsonString s.label ++
  ascii ",\n  \"root\":" ++ jsonPathString rootRel ++
  ascii ",\n  \"mode\":" ++ jsonString (if dryRun then ascii "dry-run" else ascii "copy") ++
  ascii ",\n  \"layout\":\x7b\"status\":\"ok\",\"file_count\":" ++ printUnsigned 10 s.srcs.length ++
  ascii "\x7d,\n  \"entries\":[\n"

/-- `stage_manifest_record`; records after the first follow a comma. -/
def manifestRecord (first : Bool) (srcRel dstRel action : Bytes) (from_ : SourceKind) : Bytes :=
  (if first then [] else ascii ",\n") ++
  ascii "    \x7b\"src\":" ++ jsonPathString srcRel ++
  ascii ",\"dst\":" ++ jsonPathString dstRel ++
  ascii ",\"action\":" ++ jsonString action ++
  ascii ",\"kind\":" ++ jsonString from_.kind ++
  ascii ",\"producer\":" ++ jsonString from_.producer ++
  ascii ",\"artifact\":" ++ jsonString from_.artifact ++ ascii "\x7d"

/-- `stage_manifest_end`, what it writes after a stage without errors -/
def manifestTail : Bytes :=
  ascii "\n  ],\n  \"status\":" ++ jsonString (ascii "ok") ++ ascii "\n\x7d\n"

/-- A manifest is an object: its text starts with a brace. -/
theorem manifestHead_head (s : Stage) (rootRel : Bytes) (dryRun : Bool) :
    (manifestHead s rootRel dryRun).head? = some 123 := by
  have hhead : (ascii "\x7b\n  \"schema\":\"qstar-stage-manifest-v2\",\n  \"label\":").head? =
      some 123 := by decide
  simp [manifestHead, List.head?_append, hhead]

/-! ## Validation -/

inductive StageError where
  | noRoot
  | rootNotRelative
  | noFiles
  | mismatchedFiles
  | duplicateDestination
  | layoutConflict (a b : Bytes)
  | malformedSource (src : Bytes)
  | unknownSource (label : Bytes)
  | sourceNotVisible (label : Bytes)
  | sourceWithoutArtifact (src : Bytes) (error : LoweringError)
  | sourceNotRelative (src : Bytes)
  | destinationNotRelative (dst : Bytes)

/-- `path_parent_child_collision` -/
def parentChildCollision (a b : Bytes) : Bool :=
  if a = [] ∨ b = [] ∨ a.length = b.length then false
  else if a.length < b.length then decide (a ++ ascii "/" <+: b)
  else decide (b ++ ascii "/" <+: a)

/-- The first two destinations one of which is inside the other. -/
def layoutConflict : List Bytes → Option (Bytes × Bytes)
  | [] => none
  | a :: rest =>
    match rest.find? (parentChildCollision a) with
    | some b => some (a, b)
    | none => layoutConflict rest

/-- `target_visible_to_label` as far as stages ask for it. -/
abbrev Visible := Target → Bytes → Bool

/-- The checks of `validate_stage` on one source. -/
def validateSource (visible : Visible) (g : Graph) (owner src : Bytes) : Except StageError Unit :=
  match targetFileToken src with
  | .malformed => .error (.malformedSource src)
  | .plain => if isPackageRelative src then .ok () else .error (.sourceNotRelative src)
  | .targetFile label artifact =>
    match findTarget g label, findGenrule g label with
    | none, none => .error (.unknownSource label)
    | some t, _ =>
      if (artifact = ascii "@tool" ∨ t.kind = .imported ∨ t.kind = .tool) ∧ !visible t owner then
        .error (.sourceNotVisible label)
      else
        match resolveTargetFileToken g src with
        | .ok _ => .ok ()
        | .error e => .error (.sourceWithoutArtifact src e)
    | none, some _ =>
      match resolveTargetFileToken g src with
      | .ok _ => .ok ()
      | .error e => .error (.sourceWithoutArtifact src e)

def validateEntry (visible : Visible) (g : Graph) (owner : Bytes) (entry : Bytes × Bytes) :
    Except StageError Unit := do
  validateSource visible g owner entry.1
  if isPackageRelative entry.2 then .ok () else .error (.destinationNotRelative entry.2)

/-- `validate_stage` -/
def validateStage (visible : Visible) (g : Graph) (s : Stage) : Except StageError Unit :=
  if s.root = [] then .error .noRoot
  else if !isPackageRelative s.root then .error .rootNotRelative
  else if s.srcs = [] then .error .noFiles
  else if s.srcs.length ≠ s.dsts.length then .error .mismatchedFiles
  else if !decide s.dsts.Nodup then .error .duplicateDestination
  else
    match layoutConflict s.dsts with
    | some (a, b) => .error (.layoutConflict a b)
    | none => (s.srcs.zip s.dsts).forM (validateEntry visible g s.label)

/-! ## Copying -/

/-- `path_exists` below the package root -/
def pathExists (t : Tree) (root : Place) (rel : Bytes) : Bool :=
  match t.walk root (names rel) with
  | some place => t.entry place ≠ none
  | none => false

/-- What `fread` finds at a place that was opened for reading. -/
def readable (t : Tree) (place : Place) : Bytes := (t.content place).getD []

/-- `file_content_equal` -/
def fileContentEqual (t : Tree) (root : Place) (a b : Bytes) : Bool :=
  match t.walk root (names a), t.walk root (names b) with
  | some p, some q => t.entry p ≠ none && t.entry q ≠ none && readable t p = readable t q
  | _, _ => false

/-- The buffer of `copy_file_to_path` -/
def copyBuffer : Nat := 8192

/-- The loop of `copy_file_to_path` from a reading position on; the first argument bounds the
number of reads. -/
def copyChunks (source target : Place) : Nat → Nat → Tree → Option Tree
  | 0, _, t => some t
  | fuel + 1, pos, t =>
    let chunk := ((readable t source).drop pos).take copyBuffer
    if chunk = [] then some t
    else (t.write target (readable t target ++ chunk)).bind
      (copyChunks source target fuel (pos + chunk.length))

/-- `copy_file_to_path` once the source is open: the destination is emptied before the source
is read. -/
def copyContent (t : Tree) (source target : Place) : Option Tree :=
  (t.write target []).bind fun opened =>
    copyChunks source target ((readable opened source).length + 1) 0 opened

/-- `copy_file_to_path` -/
def copyFileToPath (t : Tree) (root : Place) (src dst : Bytes) : Option Tree :=
  (t.walk root (names src)).bind fun source =>
    if t.entry source = none then none
    else (t.walk root (names dst)).bind (copyContent t source)

/-- `mkdir_parent_under_root` before `copy_file_to_path` -/
def placeFile (t : Tree) (root : Place) (src dst : Bytes) : Option Tree :=
  if pathExists t root src then
    (t.makeDirs root (names dst).dropLast).bind fun t => copyFileToPath t root src dst
  else none

/-! ## Stages -/

/-- `struct qstar_stage_options` -/
structure StageOptions where
  root : Bytes := []
  dryRun : Bool := false

/-- `ctx->root_rel` -/
def rootRel (s : Stage) (options : StageOptions) : Bytes :=
  if options.root ≠ [] then options.root else s.root

/-- The files while a stage runs, and what it has printed into its manifest. -/
structure Progress where
  tree : Tree
  text : Bytes
  first : Bool

/-- The word for a copy in the manifest. -/
def stageAction (t : Tree) (root : Place) (srcRel dstRel : Bytes) : Bytes :=
  if pathExists t root dstRel then
    if fileContentEqual t root srcRel dstRel then ascii "unchanged" else ascii "would-update"
  else ascii "would-create"

/-- `stage_file` for a source that is built -/
def stageFile (g : Graph) (root : Place) (below : Bytes) (dryRun : Bool) (p : Progress)
    (entry : Bytes × Bytes) : Option Progress :=
  match resolveTargetFileToken g entry.1 with
  | .error _ => none
  | .ok srcRel =>
    let dstRel := pathJoin below entry.2
    let action := stageAction p.tree root srcRel dstRel
    let text := p.text ++
      manifestRecord p.first srcRel dstRel action (sourceKind g entry.1 srcRel)
    if dryRun then some ⟨p.tree, text, false⟩
    else (placeFile p.tree root srcRel dstRel).map fun t => ⟨t, text, false⟩

/-- The directory of a manifest; `mkdir_p` on it makes `stage` as well. -/
def manifestDir (g : Graph) (s : Stage) : Bytes :=
  buildPath g.buildDir (ascii "stage/" ++ mangleLabel s.label)

/-- `ctx->manifest_path` -/
def manifestPath (g : Graph) (s : Stage) : Bytes := stageManifestPath g s.label

/-- `ctx->manifest_tmp` -/
def manifestTmp (g : Graph) (s : Stage) : Bytes := manifestPath g s ++ ascii ".tmp"

/-- `stage_manifest_begin`; the text reaches the file when it is closed. -/
def manifestBegin (t : Tree) (g : Graph) (root : Place) (s : Stage) : Option Tree :=
  (t.makeDirs root (names (manifestDir g s))).bind fun t =>
    (t.walk root (names (manifestTmp g s))).bind fun tmp => t.write tmp []

/-- `stage_manifest_end` -/
def manifestEnd (t : Tree) (g : Graph) (root : Place) (s : Stage) (text : Bytes) : Option Tree :=
  (t.walk root (names (manifestTmp g s))).bind fun tmp =>
    (t.write tmp text).bind fun t =>
      (t.walk root (names (manifestPath g s))).bind fun manifest => t.rename tmp manifest

/-- `qstar_graph_stage` -/
def stageRun (t : Tree) (g : Graph) (root : Place) (s : Stage) (options : StageOptions) :
    Option Tree :=
  if options.root ≠ [] ∧ !isPackageRelative options.root then none
  else
    (manifestBegin t g root s).bind fun t =>
      ((s.srcs.zip s.dsts).foldlM (stageFile g root (rootRel s options) options.dryRun)
        ⟨t, manifestHead s (rootRel s options) options.dryRun, true⟩).bind fun p =>
        manifestEnd p.tree g root s (p.text ++ manifestTail)

/-- The copy of one staged file to the export destination. -/
def exportFile (root : Place) (below exportTo : Bytes) (t : Tree) (dst : Bytes) : Option Tree :=
  placeFile t root (pathJoin below dst) (pathJoin exportTo dst)

/-- `export_project_command_stage` -/
def exportRun (t : Tree) (g : Graph) (root : Place) (s : Stage) (exportTo : Bytes) (dryRun : Bool) :
    Option Tree :=
  if isPackageRelative exportTo then
    (stageRun t g root s { dryRun := dryRun }).bind fun t =>
      if dryRun then some t
      else s.dsts.foldlM (exportFile root (if s.root ≠ [] then s.root else ascii ".") exportTo) t
  else none

end QStar.Staging
