import QStar.Lib.TextualKeys
import QStar.Stella.PlanCache

/-!
# The manifest as text

A build writes what its plan was made for into `manifest.json`, and a later build reads
the members back by the first text that is their key between quotes. Control characters
without an escape of their own do not come back, and a string that is a key takes its place.
-/
namespace QStar.Stella.ManifestText

open QStar.Lib.CStrings
open QStar.Lib.Fnv
open QStar.Lib.Numerals
open QStar.Lib.TextualKeys
open QStar.Stella.PlanCache (Request Workspace cacheSchema planAbi labelKey pairHash)

/-- `QSTAR_VERSION` -/
def version : Bytes := ascii "0.7.19-beta"

/-- What a manifest names of a graph and of a request; absent strings are empty. -/
structure Identity where
  packageRoot : Bytes
  buildDir : Bytes
  generatedDir : Bytes
  generator : Bytes
  requestedGenerator : Bytes
  command : Bytes
  request : Request

/-- What a manifest records of a plan. -/
structure Recorded where
  inputHash : UInt64
  actionCount : Nat
  targetCount : Nat
  generatedActionCount : Nat

/-- The members of `manifest.json` -/
def entries (x : Identity) (r : Recorded) : List (Bytes × Field) :=
  [(ascii "schema", .str cacheSchema),
   (ascii "qstar_version", .str version),
   (ascii "plan_abi", .raw (printUnsigned 10 planAbi)),
   (ascii "package_root", .str x.packageRoot),
   (ascii "build_dir", .str x.buildDir),
   (ascii "generated_dir", .str x.generatedDir),
   (ascii "generator", .str x.generator),
   (ascii "requested_generator", .str x.requestedGenerator),
   (ascii "command", .str x.command),
   (ascii "label", .str (labelKey x.request.label)),
   (ascii "entry_file", .str x.request.entryFile),
   (ascii "cli_platform", .str x.request.cliPlatform),
   (ascii "package_alias_hash", .str (pairHash x.request.packages)),
   (ascii "project_option_override_hash", .str (pairHash x.request.overrides)),
   (ascii "input_fingerprint", .str (formatHash r.inputHash)),
   (ascii "action_count", .raw (printUnsigned 10 r.actionCount)),
   (ascii "target_count", .raw (printUnsigned 10 r.targetCount)),
   (ascii "generated_action_count", .raw (printUnsigned 10 r.generatedActionCount))]

/-- `write_manifest` -/
def writeManifest (x : Identity) (r : Recorded) : Bytes := printObject (entries x r)

/-- `json_get_ull` -/
def getUll (text key : Bytes) : Option Nat := (valueText text key).bind (scanUnsigned 10)

/-- `json_string_equals` -/
def stringEquals (text key expected : Bytes) : Bool := getString text key = some expected

/-- `manifest_matches`, with the reason of a mismatch -/
def manifestMatches (manifest : Bytes) (x : Identity) : Except Bytes Unit :=
  if stringEquals manifest (ascii "schema") cacheSchema = false then
    .error (ascii "schema-mismatch")
  else if stringEquals manifest (ascii "qstar_version") version = false then
    .error (ascii "version-mismatch")
  else if getUll manifest (ascii "plan_abi") ≠ some planAbi then
    .error (ascii "plan-abi-mismatch")
  else if stringEquals manifest (ascii "package_root") x.packageRoot = false then
    .error (ascii "package-root-mismatch")
  else if stringEquals manifest (ascii "build_dir") x.buildDir = false then
    .error (ascii "build-dir-mismatch")
  else if stringEquals manifest (ascii "generator") x.generator = false then
    .error (ascii "generator-mismatch")
  else if stringEquals manifest (ascii "command") x.command = false ∨
      stringEquals manifest (ascii "label") (labelKey x.request.label) = false ∨
      stringEquals manifest (ascii "entry_file") x.request.entryFile = false then
    .error (ascii "request-mismatch")
  else if stringEquals manifest (ascii "cli_platform") x.request.cliPlatform = false then
    .error (ascii "platform-input-mismatch")
  else if stringEquals manifest (ascii "package_alias_hash") (pairHash x.request.packages) = false then
    .error (ascii "package-alias-mismatch")
  else if stringEquals manifest (ascii "project_option_override_hash")
      (pairHash x.request.overrides) = false then
    .error (ascii "project-option-override-mismatch")
  else .ok ()

/-- The strings a manifest is compared in, under their keys. -/
def compared (x : Identity) : List (Bytes × Bytes) :=
  [(ascii "schema", cacheSchema),
   (ascii "qstar_version", version),
   (ascii "package_root", x.packageRoot),
   (ascii "build_dir", x.buildDir),
   (ascii "generator", x.generator),
   (ascii "command", x.command),
   (ascii "label", labelKey x.request.label),
   (ascii "entry_file", x.request.entryFile),
   (ascii "cli_platform", x.request.cliPlatform),
   (ascii "package_alias_hash", pairHash x.request.packages),
   (ascii "project_option_override_hash", pairHash x.request.overrides)]

/-- What two plans have in common when one manifest stands for both; no label is the label of
everything. -/
structure Agree (x y : Identity) : Prop where
  packageRoot : x.packageRoot = y.packageRoot
  buildDir : x.buildDir = y.buildDir
  generator : x.generator = y.generator
  command : x.command = y.command
  label : labelKey x.request.label = labelKey y.request.label
  entryFile : x.request.entryFile = y.request.entryFile
  cliPlatform : x.request.cliPlatform = y.request.cliPlatform
  aliasHash : pairHash x.request.packages = pairHash y.request.packages
  overrideHash : pairHash x.request.overrides = pairHash y.request.overrides

/-! ## What is compared -/

/-- One check of a chain of them. -/
theorem require_ok {p : Prop} [Decidable p] {reason : Bytes} {rest : Except Bytes Unit} :
    (if p then .error reason else rest) = .ok () ↔ ¬p ∧ rest = .ok () := by
  split <;> simp [*]

/-- A manifest passes just when every compared string is found under its key. -/
theorem manifestMatches_iff {manifest : Bytes} {x : Identity} :
    manifestMatches manifest x = .ok () ↔ getUll manifest (ascii "plan_abi") = some planAbi ∧
      ∀ f ∈ compared x, getString manifest f.1 = some f.2 := by
  simp only [manifestMatches, require_ok, compared, List.forall_mem_cons, stringEquals, not_or,
    decide_eq_false_iff_not, not_not, ne_eq]
  constructor
  · rintro ⟨h1, h2, habi, h3, h4, h5, ⟨h6, h7, h8⟩, h9, h10, h11, -⟩
    exact ⟨habi, h1, h2, h3, h4, h5, h6, h7, h8, h9, h10, h11, List.forall_mem_nil _⟩
  · rintro ⟨habi, h1, h2, h3, h4, h5, h6, h7, h8, h9, h10, h11, -⟩
    exact ⟨h1, h2, habi, h3, h4, h5, ⟨h6, h7, h8⟩, h9, h10, h11, trivial⟩

theorem keys_compared (x : Identity) : ∀ f ∈ compared x, KeyName f.1 := by
  have hkeys : ∀ key ∈ (compared x).map Prod.fst, KeyName key := by
    show ∀ key ∈ [ascii "schema", ascii "qstar_version", ascii "package_root", ascii "build_dir",
      ascii "generator", ascii "command", ascii "label", ascii "entry_file", ascii "cli_platform",
      ascii "package_alias_hash", ascii "project_option_override_hash"], KeyName key
    decide
  exact fun f hf => hkeys f.1 (List.mem_map_of_mem hf)

section Entries

variable {x : Identity} {r : Recorded}

/-- Every compared string is written under its key. -/
theorem mem_entries {f : Bytes × Bytes} (hf : f ∈ compared x) :
    (f.1, Field.str f.2) ∈ entries x r := by
  simp only [compared, List.mem_cons, List.not_mem_nil, or_false] at hf
  rcases hf with rfl | rfl | rfl | rfl | rfl | rfl | rfl | rfl | rfl | rfl | rfl <;>
    simp [entries]

theorem nodup_keys : ((entries x r).map Prod.fst).Nodup := by
  show List.Nodup [ascii "schema", ascii "qstar_version", ascii "plan_abi", ascii "package_root",
    ascii "build_dir", ascii "generated_dir", ascii "generator", ascii "requested_generator",
    ascii "command", ascii "label", ascii "entry_file", ascii "cli_platform",
    ascii "package_alias_hash", ascii "project_option_override_hash", ascii "input_fingerprint",
    ascii "action_count", ascii "target_count", ascii "generated_action_count"]
  decide

theorem digits_printUnsigned (n : Nat) : Digits (printUnsigned 10 n) := by
  refine ⟨printUnsigned_ne_nil 10 n, fun c hc => ?_⟩
  have hdigit := printUnsigned_isDigit hc
  simpa [isDigit] using hdigit

theorem regular_entries : Regular (entries x r) := by
  intro m hm
  constructor
  · have hkeys : ∀ key ∈ (entries x r).map Prod.fst, KeyName key := by
      show ∀ key ∈ [ascii "schema", ascii "qstar_version", ascii "plan_abi", ascii "package_root",
        ascii "build_dir", ascii "generated_dir", ascii "generator", ascii "requested_generator",
        ascii "command", ascii "label", ascii "entry_file", ascii "cli_platform",
        ascii "package_alias_hash", ascii "project_option_override_hash",
        ascii "input_fingerprint", ascii "action_count", ascii "target_count",
        ascii "generated_action_count"], KeyName key
      decide
    exact hkeys m.1 (List.mem_map_of_mem hm)
  · intro text htext
    simp only [entries, List.mem_cons, List.not_mem_nil, or_false] at hm
    rcases hm with rfl | rfl | rfl | rfl | rfl | rfl | rfl | rfl | rfl | rfl | rfl | rfl | rfl |
      rfl | rfl | rfl | rfl | rfl <;> cases htext <;> exact digits_printUnsigned _

/-- The number before all strings of the graph is always found. -/
theorem getUll_writeManifest : getUll (writeManifest x r) (ascii "plan_abi") = some planAbi := by
  have hfound : lookUp (ascii "plan_abi") (entries x r) =
      some (.raw (printUnsigned 10 planAbi), (entries x r).drop 3) := by
    rw [entries, lookUp, if_neg (by decide), if_neg (by decide), lookUp, if_neg (by decide),
      if_neg (by decide), lookUp, if_pos rfl]
    rfl
  rw [getUll, writeManifest, valueText_object (by decide) regular_entries, hfound]
  rfl

theorem matches_writeManifest {y : Identity} : manifestMatches (writeManifest x r) y = .ok () ↔
    ∀ f ∈ compared y, getString (writeManifest x r) f.1 = some f.2 := by
  rw [manifestMatches_iff]
  exact and_iff_right getUll_writeManifest

/-- A manifest passes for what it was written for just when every compared string can be read
back and none stands in the way of a later one. -/
theorem matches_itself_iff : manifestMatches (writeManifest x r) x = .ok () ↔
    ∀ f ∈ compared x, (∀ c ∈ f.2, Readable c) ∧ Undisturbed f.1 f.2 (entries x r) := by
  rw [matches_writeManifest]
  refine forall₂_congr fun f hf => ?_
  exact getString_iff (keys_compared x f hf) regular_entries (mem_entries hf) nodup_keys

end Entries

/-- A manifest that passes for what it was written for passes only for what agrees with it. -/
theorem agree_of_matches {x y : Identity} {r : Recorded}
    (hx : manifestMatches (writeManifest x r) x = .ok ())
    (hy : manifestMatches (writeManifest x r) y = .ok ()) : Agree x y := by
  rw [matches_writeManifest] at hx hy
  simp only [compared, List.forall_mem_cons] at hx hy
  obtain ⟨-, -, x1, x2, x3, x4, x5, x6, x7, x8, x9, -⟩ := hx
  obtain ⟨-, -, y1, y2, y3, y4, y5, y6, y7, y8, y9, -⟩ := hy
  exact ⟨Option.some.inj (x1.symm.trans y1), Option.some.inj (x2.symm.trans y2),
    Option.some.inj (x3.symm.trans y3), Option.some.inj (x4.symm.trans y4),
    Option.some.inj (x5.symm.trans y5), Option.some.inj (x6.symm.trans y6),
    Option.some.inj (x7.symm.trans y7), Option.some.inj (x8.symm.trans y8),
    Option.some.inj (x9.symm.trans y9)⟩

/-- The check of a manifest is exact just when every compared string can be read back and none
stands in the way of a later one. -/
theorem manifest_exact_iff (x : Identity) (r : Recorded) :
    (manifestMatches (writeManifest x r) x = .ok () ∧
      ∀ y, manifestMatches (writeManifest x r) y = .ok () → Agree x y) ↔
    ∀ f ∈ compared x, (∀ c ∈ f.2, Readable c) ∧ Undisturbed f.1 f.2 (entries x r) := by
  rw [← matches_itself_iff]
  constructor
  · exact fun h => h.1
  · exact fun hx => ⟨hx, fun _ hy => agree_of_matches hx hy⟩

/-- A build of everything into the directory `label`. -/
def labelDirectory : Identity where
  packageRoot := ascii "/src/app"
  buildDir := ascii "label"
  generatedDir := ascii "generated"
  generator := ascii "stella"
  requestedGenerator := ascii "stella"
  command := ascii "build"
  request := ⟨ascii "qstar.qst", [], [], [], []⟩

/-- Its manifest does not pass for it, and passes for a build of another label. -/
theorem directory_read_as_key : ∃ (x : Identity) (r : Recorded),
    manifestMatches (writeManifest x r) x = .error (ascii "request-mismatch") ∧
    ∃ y, manifestMatches (writeManifest x r) y = .ok () ∧ ¬Agree x y := by
  let other : Identity :=
    { labelDirectory with request := { labelDirectory.request with label := ascii "generated" } }
  refine ⟨labelDirectory, ⟨1, 2, 3, 4⟩, ?_, other, ?_, ?_⟩
  · decide +kernel
  · decide +kernel
  · intro hagree
    exact absurd hagree.label (by decide)

/-! ## The compared fields of the plan cache -/

/-- What a build of a workspace names in its manifest. -/
def ofRequest (w : Workspace) (packageRoot generatedDir requestedGenerator : Bytes)
    (request : Request) : Identity where
  packageRoot := packageRoot
  buildDir := w.buildDir
  generatedDir := generatedDir
  generator := w.generator
  requestedGenerator := requestedGenerator
  command := ascii "build"
  request := request

theorem readBack_eq (s : Bytes) : PlanCache.readBack s = readBack s := by
  have hbyte : ∀ c : UInt8, (if c < 32 ∧ c ≠ 10 ∧ c ≠ 13 ∧ c ≠ 9 then
      ascii "u00" ++ [hexDigit (c.toNat / 16), hexDigit (c.toNat % 16)] else [c]) =
      readString (Lib.Json.escapeByte c) :=
    forall_byte (P := fun c => (if c < 32 ∧ c ≠ 10 ∧ c ≠ 13 ∧ c ≠ 9 then
      ascii "u00" ++ [hexDigit (c.toNat / 16), hexDigit (c.toNat % 16)] else [c]) =
      readString (Lib.Json.escapeByte c)) (by decide +kernel)
  exact List.flatMap_congr fun c _ => hbyte c

/-- Where no string of the graph or the request is misleading, a manifest passes as a text just
when it passes field by field. -/
theorem matches_text_iff {w : Workspace} (hversion : w.version = version)
    {root root' generated generated' requested requested' : Bytes} {request request' : Request}
    {r : Recorded}
    (hclear : ∀ f ∈ compared (ofRequest w root generated requested request),
      ∀ m ∈ entries (ofRequest w root generated requested request) r, m.1 ≠ f.1 → ¬Misleads f.1 m.2) :
    manifestMatches (writeManifest (ofRequest w root generated requested request) r)
      (ofRequest w root' generated' requested' request') = .ok () ↔
    PlanCache.manifestMatches (PlanCache.writeManifest w root request) w root' request' = true := by
  have hread : ∀ f ∈ compared (ofRequest w root generated requested request),
      getString (writeManifest (ofRequest w root generated requested request) r) f.1 =
        some (PlanCache.readBack f.2) := by
    intro f hf
    obtain ⟨rest, hfound⟩ := lookUp_of_clear (mem_entries hf) nodup_keys (hclear f hf)
    rw [writeManifest, getString_object (keys_compared _ f hf) regular_entries, hfound, readBack_eq]
  rw [matches_writeManifest]
  simp only [compared, List.forall_mem_cons] at hread ⊢
  obtain ⟨h1, h2, h3, h4, h5, h6, h7, h8, h9, h10, h11, -⟩ := hread
  rw [h1, h2, h3, h4, h5, h6, h7, h8, h9, h10, h11]
  simp [PlanCache.manifestMatches, PlanCache.writeManifest, ofRequest, hversion, and_assoc]

end QStar.Stella.ManifestText
