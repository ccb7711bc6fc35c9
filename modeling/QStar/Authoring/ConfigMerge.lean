import QStar.Authoring.ConfigOptions
import QStar.Lib.Overrides

/-!
# How configs are merged

What a table gives is a layer: a list for each list option, a value for some of the others, and
entries for providers. Reading a table and merging a config both lay one layer over the options
that are there, and the options of a target are the layers of its configs and its own over the
defaults. Lists of providers alone are not: the last that is given stands for all.
-/
namespace QStar.Authoring.ConfigMerge

open QStar.Lib.Bindings
open QStar.Lib.CStrings
open QStar.Lib.Overrides
open QStar.Lib.Results
open QStar.Base
open QStar.Authoring.ConfigOptions
open QStar.Authoring.DeclaredScalars (TextReader readInteger)

/-! ## Layers -/

/-- The options with one value; a table with several fields is one value. -/
inductive ScalarOption where
  | artifactName
  | cxxStandard
  | cxxPrecompiledHeader
  | toolset
  | asmPreprocess
  | cxxModules
  | cxxUnity
  | cacheable
  deriving DecidableEq

inductive ScalarValue where
  | text (s : Option Bytes)
  | flag (b : Bool)
  /-- whether it is present, and what it is -/
  | marked (present value : Bool)
  | unity (present enabled : Bool) (batchSize : Int32)
  deriving DecidableEq

/-- What options have for an option with one value. -/
def scalar (s : Options) : ScalarOption → ScalarValue
  | .artifactName => .text s.artifactName
  | .cxxStandard => .text s.cxxStandard
  | .cxxPrecompiledHeader => .text s.cxxPrecompiledHeader
  | .toolset => .text s.toolset
  | .asmPreprocess => .flag s.asmPreprocess
  | .cxxModules => .marked s.cxxModulesPresent s.cxxModulesEnabled
  | .cxxUnity => .unity s.cxxUnityPresent s.cxxUnityEnabled s.cxxUnityBatchSize
  | .cacheable => .marked s.cacheablePresent s.cacheable

/-- Lists with the option each of them is for. -/
abbrev Parts := List (ListOption × List Bytes)

/-- All that is for one option. -/
def Parts.of (parts : Parts) (o : ListOption) : List Bytes :=
  parts.flatMap fun part => if part.1 = o then part.2 else []

structure Layer where
  parts : Parts
  scalars : ScalarOption → Option ScalarValue
  providers : List ((Bytes × Bytes) × ProviderOption)

/-- The lists of `lang.c` or `lang.cxx`. -/
def langParts (dir : Bytes) (flags : ListOption) (given : LangFields) : Parts := [
  (.publicHeaders, given.publicHeaders.filterMap (Item.path dir)),
  (.privateHeaders, given.privateHeaders.filterMap (Item.path dir)),
  (.includeDirs, given.includeDirs.filterMap (Item.path dir)),
  (.publicIncludeDirs, given.publicIncludeDirs.filterMap (Item.path dir)),
  (.privateIncludeDirs, given.privateIncludeDirs.filterMap (Item.path dir)),
  (.systemIncludeDirs, given.systemIncludeDirs.filterMap (Item.path dir)),
  (flags, given.compileOptions.filterMap Item.string),
  (flags, given.defines.filterMap Item.define)]

def asmParts (dir : Bytes) (given : AsmFields) : Parts := [
  (.asmIncludeDirs, given.includeDirs.filterMap (Item.path dir)),
  (.asmCompileOptions, given.compileOptions.filterMap Item.string)]

/-- The lists that are not of a language. -/
def linkParts (dir : Bytes) (given : Fields) : Parts := [
  (.libs, given.libs),
  (.libDirs, given.libDirs.filterMap (resolvePath dir)),
  (.frameworks, given.frameworks.filterMap Item.string),
  (.linkOptions, given.linkOptions),
  (.linkInputs, given.linkInputs.filterMap (Item.targetFile dir))]

/-- The lists a table gives. -/
def fieldParts (dir : Bytes) (given : Fields) : Parts :=
  given.c.toList.flatMap (langParts dir .cflags) ++
  given.cxx.toList.flatMap (fun cxx => langParts dir .cxxflags cxx.toLangFields) ++
  given.asm.toList.flatMap (asmParts dir) ++
  linkParts dir given

def unityValue (given : UnityFields) : ScalarValue :=
  .unity true (given.enabled.getD false)
    (DeclaredScalars.checkIntField given.batchSize DeclaredScalars.IntegerField.unityBatchSize.fallback)

/-- The values a table gives. -/
def fieldScalars (dir : Bytes) (given : Fields) : ScalarOption → Option ScalarValue
  | .artifactName => given.artifactName.map fun name => .text (some name)
  | .cxxStandard => (given.cxx.bind (·.standard.toOption)).map fun standard => .text (some standard)
  | .cxxPrecompiledHeader =>
    ((given.cxx.bind (·.precompiledHeader.toOption)).bind (resolvePath dir)).map fun path => .text (some path)
  | .toolset => (given.toolset.bind (TextReader.label dir).form).map fun label => .text (some label)
  | .asmPreprocess => (given.asm.bind (·.preprocess)).map .flag
  | .cxxModules => (given.cxx.bind (·.modules)).map fun enabled => .marked true (enabled.getD false)
  | .cxxUnity => (given.cxx.bind (·.unity)).map unityValue
  | .cacheable => given.cacheable.map (.marked true)

/-- The options of a namespace. -/
def spaceProviders (providers : Providers) (given : Bytes × List (Bytes × ProviderValue)) :
    List ((Bytes × Bytes) × ProviderOption) :=
  ((providers.lookup given.1).map fun schemas =>
    given.2.filterMap (readProviderEntry schemas given.1)).getD []

/-- The options of providers a table gives, one after another. -/
def fieldProviders (providers : Providers) (given : Fields) : List ((Bytes × Bytes) × ProviderOption) :=
  given.providers.flatMap (spaceProviders providers)

def layer (providers : Providers) (dir : Bytes) (given : Fields) : Layer where
  parts := fieldParts dir given
  scalars := fieldScalars dir given
  providers := fieldProviders providers given

/-! ## Laying a layer over options -/

/-- A directory that the options have as a private or a public one. -/
def SelfIncluded (s : Options) (d : Bytes) : Prop :=
  d ∈ s.lists .privateIncludeDirs ∨ d ∈ s.lists .publicIncludeDirs

/-- The second options are the first with the layer over them. -/
structure Laid (l : Layer) (s s' : Options) : Prop where
  lists : ∀ o, o ≠ .includeDirs → s'.lists o = s.lists o ++ l.parts.of o
  includeDirs : ∃ added, s'.lists .includeDirs = s.lists .includeDirs ++ added ∧
    Repeats (SelfIncluded s') (l.parts.of .includeDirs) added
  scalars : ∀ o, scalar s' o = (l.scalars o).getD (scalar s o)
  providers : ∀ key, s'.providerOptions.lookup key = (last l.providers key).or (s.providerOptions.lookup key)
  keys : (s.providerOptions.map (·.1)).Nodup → (s'.providerOptions.map (·.1)).Nodup

def Layer.empty : Layer := ⟨[], fun _ => none, []⟩

/-- One layer below another, as one. -/
def Layer.append (below above : Layer) : Layer where
  parts := below.parts ++ above.parts
  scalars o := (above.scalars o).or (below.scalars o)
  providers := below.providers ++ above.providers

theorem of_append (below above : Parts) (o : ListOption) : (below ++ above).of o = below.of o ++ above.of o :=
  List.flatMap_append

theorem last_append (below above : List ((Bytes × Bytes) × ProviderOption)) (key : Bytes × Bytes) :
    last (below ++ above) key = (last above key).or (last below key) := by
  rw [last, List.reverse_append, List.lookup_append]
  rfl

theorem Laid.grows {l : Layer} {s s' : Options} (h : Laid l s s') (d : Bytes) (hd : SelfIncluded s d) :
    SelfIncluded s' d := by
  rw [SelfIncluded, h.lists _ (by decide), h.lists _ (by decide)]
  exact hd.imp (List.mem_append_left _) (List.mem_append_left _)

theorem Laid.refl (s : Options) : Laid .empty s s where
  lists _ _ := (List.append_nil _).symm
  includeDirs := ⟨[], (List.append_nil _).symm, .nil⟩
  scalars _ := rfl
  providers _ := rfl
  keys := id

theorem Laid.trans {below above : Layer} {s s' s'' : Options} (h : Laid below s s') (h' : Laid above s' s'') :
    Laid (below.append above) s s'' where
  lists o ho := by
    rw [h'.lists o ho, h.lists o ho, List.append_assoc]
    exact congrArg _ (of_append _ _ o).symm
  includeDirs := by
    obtain ⟨added, hadded, hrepeats⟩ := h.includeDirs
    obtain ⟨added', hadded', hrepeats'⟩ := h'.includeDirs
    refine ⟨added ++ added', by rw [hadded', hadded, List.append_assoc], ?_⟩
    change Repeats _ ((below.parts ++ above.parts).of .includeDirs) _
    rw [of_append]
    exact (hrepeats.mono h'.grows).append hrepeats'
  scalars o := by
    rw [h'.scalars, h.scalars]
    change _ = ((above.scalars o).or (below.scalars o)).getD _
    cases above.scalars o <;> rfl
  providers key := by
    rw [h'.providers, h.providers, ← Option.or_assoc]
    exact congrArg (Option.or · _) (last_append _ _ key).symm
  keys := h'.keys ∘ h.keys

/-- A layer is what it comes to. -/
theorem Laid.congr {l l' : Layer} {s s' : Options} (h : Laid l s s') (hparts : ∀ o, l.parts.of o = l'.parts.of o)
    (hscalars : ∀ o, l.scalars o = l'.scalars o) (hproviders : l.providers = l'.providers) : Laid l' s s' where
  lists o ho := by rw [h.lists o ho, hparts]
  includeDirs := by
    rw [← hparts]
    exact h.includeDirs
  scalars o := by rw [h.scalars o, hscalars]
  providers key := by rw [h.providers key, hproviders]
  keys := h.keys

/-! ## Reading -/

def partsLayer (parts : Parts) : Layer := ⟨parts, fun _ => none, []⟩

def scalarLayer (o : ScalarOption) (value : Option ScalarValue) : Layer :=
  ⟨[], fun o' => if o' = o then value else none, []⟩

theorem lists_push (s : Options) (o o' : ListOption) (items : List Bytes) :
    (s.push o items).lists o' = s.lists o' ++ if o' = o then items else [] := by
  rw [Options.push]
  dsimp only
  split
  · rfl
  · exact (List.append_nil _).symm

theorem laid_push (s : Options) (o : ListOption) (items : List Bytes) :
    Laid (partsLayer [(o, items)]) s (s.push o items) where
  lists o' _ := by
    rw [lists_push]
    simp [partsLayer, Parts.of, eq_comm]
  includeDirs := by
    refine ⟨_, lists_push s o .includeDirs items, ?_⟩
    have hof : (partsLayer [(o, items)]).parts.of .includeDirs = if .includeDirs = o then items else [] := by
      simp [partsLayer, Parts.of, eq_comm]
    rw [hof]
    exact .refl _
  scalars o' := by cases o' <;> rfl
  providers _ := rfl
  keys := id

/-- An option with one value is set, or it is left as it is. -/
theorem laid_scalar {s s' : Options} {o : ScalarOption} {value : Option ScalarValue} (hlists : s'.lists = s.lists)
    (hproviders : s'.providerOptions = s.providerOptions)
    (hscalars : ∀ o', scalar s' o' = (if o' = o then value else none).getD (scalar s o')) :
    Laid (scalarLayer o value) s s' where
  lists o' _ := by
    rw [hlists]
    exact (List.append_nil _).symm
  includeDirs := by
    rw [hlists]
    exact ⟨[], (List.append_nil _).symm, .nil⟩
  scalars := hscalars
  providers key := by
    rw [hproviders]
    rfl
  keys := by
    rw [hproviders]
    exact id

theorem filterMap_of_mapM {α β : Type} {read : α → Option β} {items : List α} {read' : List β}
    (h : items.mapM read = some read') : read' = items.filterMap read := by
  induction items generalizing read' with
  | nil => exact (Option.some.inj h).symm
  | cons item rest ih =>
    rw [List.mapM_cons] at h
    obtain ⟨b, hb, h⟩ := Option.bind_eq_some_iff.mp h
    obtain ⟨bs, hbs, h⟩ := Option.bind_eq_some_iff.mp h
    cases h
    rw [List.filterMap_cons_some hb, ← ih hbs]

theorem laid_readInto {α : Type} {read : α → Option Bytes} {o : ListOption} {items : List α} {s s' : Options}
    (h : readInto read o items s = some s') : Laid (partsLayer [(o, items.filterMap read)]) s s' := by
  obtain ⟨read', hread, rfl⟩ := Option.map_eq_some_iff.mp h
  rw [← filterMap_of_mapM hread]
  exact laid_push s o read'

theorem laid_langLists {dir : Bytes} {flags : ListOption} {given : LangFields} {s s' : Options}
    (h : readLangLists dir flags given s = some s') : Laid (partsLayer (langParts dir flags given)) s s' := by
  obtain ⟨s₁, h₁, h⟩ := Option.bind_eq_some_iff.mp h
  obtain ⟨s₂, h₂, h⟩ := Option.bind_eq_some_iff.mp h
  obtain ⟨s₃, h₃, h⟩ := Option.bind_eq_some_iff.mp h
  obtain ⟨s₄, h₄, h⟩ := Option.bind_eq_some_iff.mp h
  obtain ⟨s₅, h₅, h⟩ := Option.bind_eq_some_iff.mp h
  obtain ⟨s₆, h₆, h⟩ := Option.bind_eq_some_iff.mp h
  obtain ⟨s₇, h₇, h₈⟩ := Option.bind_eq_some_iff.mp h
  have hfirst := ((laid_readInto h₁).trans (laid_readInto h₂)).trans (laid_readInto h₃)
  have hdirs := ((hfirst.trans (laid_readInto h₄)).trans (laid_readInto h₅)).trans (laid_readInto h₆)
  exact (hdirs.trans (laid_readInto h₇)).trans (laid_readInto h₈)

/-- The private and the public directories are there already. -/
theorem laid_self (s : Options) : Laid .empty s (appendLangIncludeSelf s) := by
  have hlists : ∀ o, o ≠ .includeDirs → (appendLangIncludeSelf s).lists o = s.lists o := by
    intro o ho
    rw [appendLangIncludeSelf, lists_push, lists_push, if_neg ho, if_neg ho, List.append_nil,
      List.append_nil]
  refine ⟨?_, ?_, ?_, fun _ => rfl, id⟩
  · intro o ho
    rw [hlists o ho]
    exact (List.append_nil _).symm
  · refine ⟨s.lists .privateIncludeDirs ++ s.lists .publicIncludeDirs, ?_, .of_forall fun d hd => ?_⟩
    · rw [appendLangIncludeSelf, lists_push, lists_push, lists_push, if_pos rfl, if_pos rfl,
        if_neg (by decide), List.append_nil, List.append_assoc]
    · rw [SelfIncluded, hlists _ (by decide), hlists _ (by decide)]
      exact List.mem_append.mp hd
  · intro o
    cases o <;> rfl

theorem laid_c {dir : Bytes} {given : Option LangFields} {s s' : Options} (h : readLangC dir given s = some s') :
    Laid (partsLayer (given.toList.flatMap (langParts dir .cflags))) s s' := by
  cases given with
  | none =>
    cases h
    exact .refl s
  | some c =>
    obtain ⟨s₁, h₁, rfl⟩ := Option.map_eq_some_iff.mp h
    exact (laid_langLists h₁).trans (laid_self s₁)

theorem laid_standard (given : TextField) (s : Options) :
    Laid (scalarLayer .cxxStandard (given.toOption.map fun standard => .text (some standard))) s
      (readStandard given s) := by
  unfold readStandard
  cases given.toOption with
  | none => exact laid_scalar rfl rfl fun o => by cases o <;> rfl
  | some standard => exact laid_scalar rfl rfl fun o => by cases o <;> rfl

theorem laid_precompiledHeader {dir : Bytes} {given : TextField} {s s' : Options}
    (h : readPrecompiledHeader dir given s = some s') :
    Laid (scalarLayer .cxxPrecompiledHeader
      ((given.toOption.bind (resolvePath dir)).map fun path => .text (some path))) s s' := by
  unfold readPrecompiledHeader at h
  cases hgiven : given.toOption with
  | none =>
    rw [hgiven] at h
    cases h
    exact laid_scalar rfl rfl fun o => by cases o <;> rfl
  | some raw =>
    rw [hgiven] at h
    obtain ⟨path, hpath, rfl⟩ := Option.map_eq_some_iff.mp h
    rw [Option.bind_some, hpath]
    exact laid_scalar rfl rfl fun o => by cases o <;> rfl

theorem laid_unity {given : Option UnityFields} {s s' : Options} (h : readUnity given s = some s') :
    Laid (scalarLayer .cxxUnity (given.map unityValue)) s s' := by
  cases given with
  | none =>
    cases h
    exact laid_scalar rfl rfl fun o => by cases o <;> rfl
  | some unity =>
    obtain ⟨batchSize, hread, rfl⟩ := Option.map_eq_some_iff.mp h
    obtain ⟨-, -, rfl⟩ := DeclaredScalars.readInteger_eq_ok.mp (toOption_eq_some.mp hread)
    exact laid_scalar rfl rfl fun o => by cases o <;> rfl

theorem laid_modules (given : Option (Option Bool)) (s : Options) :
    Laid (scalarLayer .cxxModules (given.map fun enabled => .marked true (enabled.getD false))) s
      (readModules given s) := by
  cases given <;> exact laid_scalar rfl rfl fun o => by cases o <;> rfl

/-- The values of `lang.cxx`. -/
def cxxScalars (dir : Bytes) (given : CxxFields) : ScalarOption → Option ScalarValue
  | .cxxStandard => given.standard.toOption.map fun standard => .text (some standard)
  | .cxxPrecompiledHeader =>
    (given.precompiledHeader.toOption.bind (resolvePath dir)).map fun path => .text (some path)
  | .cxxModules => given.modules.map fun enabled => .marked true (enabled.getD false)
  | .cxxUnity => given.unity.map unityValue
  | _ => none

theorem laid_cxx {dir : Bytes} {given : Option CxxFields} {s s' : Options} (h : readLangCxx dir given s = some s') :
    Laid ⟨given.toList.flatMap fun cxx => langParts dir .cxxflags cxx.toLangFields,
      fun o => given.bind fun cxx => cxxScalars dir cxx o, []⟩ s s' := by
  cases given with
  | none =>
    cases h
    exact .refl s
  | some cxx =>
    obtain ⟨s₁, h₁, h⟩ := Option.bind_eq_some_iff.mp h
    obtain ⟨s₂, h₂, h⟩ := Option.bind_eq_some_iff.mp h
    obtain ⟨s₃, h₃, h⟩ := Option.bind_eq_some_iff.mp h
    obtain rfl := Option.some.inj h
    have hlists := (laid_langLists h₁).trans (laid_standard cxx.standard s₁)
    have hheader := (hlists.trans (laid_precompiledHeader h₂)).trans (laid_self s₂)
    have hall := (hheader.trans (laid_unity h₃)).trans (laid_modules cxx.modules s₃)
    refine hall.congr (fun o => ?_) (fun o => ?_) rfl
    · exact congrArg (Parts.of · o) (by simp [Layer.append, partsLayer, scalarLayer, Layer.empty])
    · cases o <;> simp [Layer.append, partsLayer, scalarLayer, Layer.empty, cxxScalars]

theorem laid_asm {dir : Bytes} {given : Option AsmFields} {s s' : Options} (h : readLangAsm dir given s = some s') :
    Laid ((partsLayer (given.toList.flatMap (asmParts dir))).append
      (scalarLayer .asmPreprocess ((given.bind (·.preprocess)).map .flag))) s s' := by
  cases given with
  | none =>
    cases h
    exact (Laid.refl s).congr (fun _ => rfl) (fun o => by cases o <;> rfl) rfl
  | some asm =>
    obtain ⟨s₁, h₁, h⟩ := Option.bind_eq_some_iff.mp h
    obtain ⟨s₂, h₂, h⟩ := Option.bind_eq_some_iff.mp h
    obtain rfl := Option.some.inj h
    have hlists := (laid_readInto h₁).trans (laid_readInto h₂)
    refine Laid.trans (hlists.congr (fun _ => ?_) (fun _ => rfl) rfl) (laid_scalar rfl rfl fun o => ?_)
    · simp [Layer.append, partsLayer, asmParts]
    · cases o <;> simp [scalar]

theorem laid_link {dir : Bytes} {given : Fields} {s s' : Options} (h : readLink dir given s = some s') :
    Laid (partsLayer (linkParts dir given)) s s' := by
  obtain ⟨s₁, h₁, h⟩ := Option.bind_eq_some_iff.mp h
  obtain ⟨s₂, h₂, h⟩ := Option.bind_eq_some_iff.mp h
  obtain ⟨s₃, h₃, h⟩ := Option.bind_eq_some_iff.mp h
  obtain ⟨s₄, h₄, h₅⟩ := Option.bind_eq_some_iff.mp h
  have hlibs := ((laid_readInto h₁).trans (laid_readInto h₂)).trans (laid_readInto h₃)
  have hall := (hlibs.trans (laid_readInto h₄)).trans (laid_readInto h₅)
  refine hall.congr (fun o => ?_) (fun _ => rfl) rfl
  exact congrArg (Parts.of · o) (by simp [Layer.append, partsLayer, linkParts])

theorem laid_toolset {dir : Bytes} {given : Option Bytes} {s s' : Options} (h : readToolset dir given s = some s') :
    Laid (scalarLayer .toolset ((given.bind (TextReader.label dir).form).map fun label => .text (some label)))
      s s' := by
  cases given with
  | none =>
    cases h
    exact laid_scalar rfl rfl fun o => by cases o <;> rfl
  | some raw =>
    obtain ⟨label, hlabel, rfl⟩ := Option.map_eq_some_iff.mp h
    rw [Option.bind_some, hlabel]
    exact laid_scalar rfl rfl fun o => by cases o <;> rfl

theorem laid_cacheable (given : Option Bool) (s : Options) :
    Laid (scalarLayer .cacheable (given.map (.marked true))) s (readCacheable given s) := by
  cases given <;> exact laid_scalar rfl rfl fun o => by cases o <;> rfl

theorem laid_artifactName {given : Option Bytes} {s s' : Options} (h : readArtifactName given s = some s') :
    Laid (scalarLayer .artifactName (given.map fun name => .text (some name))) s s' := by
  cases given with
  | none =>
    cases h
    exact laid_scalar rfl rfl fun o => by cases o <;> rfl
  | some name =>
    simp only [readArtifactName] at h
    split at h
    · cases h
      exact laid_scalar rfl rfl fun o => by cases o <;> rfl
    · cases h

theorem nodup_assignAll {below : List ((Bytes × Bytes) × ProviderOption)} (h : (below.map (·.1)).Nodup)
    (entries : List ((Bytes × Bytes) × ProviderOption)) : ((assignAll below entries).map (·.1)).Nodup := by
  induction entries generalizing below with
  | nil => exact h
  | cons entry rest ih => exact ih (nodup_keys_assign h entry.1 entry.2)

theorem spaceProviders_of_read {providers : Providers} {given : Bytes × List (Bytes × ProviderValue)}
    {entries : List ((Bytes × Bytes) × ProviderOption)} (h : readNamespace providers given = some entries) :
    spaceProviders providers given = entries := by
  obtain ⟨schemas, hschemas, hentries⟩ := Option.bind_eq_some_iff.mp h
  rw [spaceProviders, hschemas, filterMap_of_mapM hentries]
  rfl

theorem flatMap_spaceProviders {providers : Providers} {given : List (Bytes × List (Bytes × ProviderValue))}
    {entries : List (List ((Bytes × Bytes) × ProviderOption))}
    (h : given.mapM (readNamespace providers) = some entries) :
    given.flatMap (spaceProviders providers) = entries.flatten := by
  induction given generalizing entries with
  | nil =>
    cases h
    rfl
  | cons space rest ih =>
    rw [List.mapM_cons] at h
    obtain ⟨first, hfirst, h⟩ := Option.bind_eq_some_iff.mp h
    obtain ⟨others, hothers, h⟩ := Option.bind_eq_some_iff.mp h
    cases h
    rw [List.flatMap_cons, List.flatten_cons, spaceProviders_of_read hfirst, ih hothers]

theorem laid_providers {providers : Providers} {given : List (Bytes × List (Bytes × ProviderValue))}
    {s s' : Options} (h : readProviders providers given s = some s') :
    Laid ⟨[], fun _ => none, given.flatMap (spaceProviders providers)⟩ s s' := by
  obtain ⟨entries, hentries, rfl⟩ := Option.map_eq_some_iff.mp h
  rw [flatMap_spaceProviders hentries]
  exact ⟨fun _ _ => (List.append_nil _).symm, ⟨[], (List.append_nil _).symm, .nil⟩,
    fun o => by cases o <;> rfl, fun key => lookup_assignAll _ _ key, fun hkeys => nodup_assignAll hkeys _⟩

/-- The part of a table under `lang`. -/
def langLayer (providers : Providers) (dir : Bytes) (given : Fields) : Layer where
  parts := given.c.toList.flatMap (langParts dir .cflags) ++
    given.cxx.toList.flatMap (fun cxx => langParts dir .cxxflags cxx.toLangFields) ++
    given.asm.toList.flatMap (asmParts dir)
  scalars
    | .asmPreprocess => (given.asm.bind (·.preprocess)).map .flag
    | o => given.cxx.bind fun cxx => cxxScalars dir cxx o
  providers := fieldProviders providers given

theorem laid_lang {providers : Providers} {dir : Bytes} {given : Fields} {s s' : Options}
    (h : readLangOptions providers dir given s = some s') : Laid (langLayer providers dir given) s s' := by
  obtain ⟨s₁, h₁, h⟩ := Option.bind_eq_some_iff.mp h
  obtain ⟨s₂, h₂, h⟩ := Option.bind_eq_some_iff.mp h
  obtain ⟨s₃, h₃, h₄⟩ := Option.bind_eq_some_iff.mp h
  have hall := (((laid_providers h₁).trans (laid_c h₂)).trans (laid_cxx h₃)).trans (laid_asm h₄)
  refine hall.congr (fun o => ?_) (fun o => ?_) ?_
  · exact congrArg (Parts.of · o) (by simp [Layer.append, partsLayer, scalarLayer, langLayer])
  · cases hcxx : given.cxx <;>
      cases o <;> simp [Layer.append, partsLayer, scalarLayer, langLayer, cxxScalars, hcxx]
  · simp [Layer.append, partsLayer, scalarLayer, langLayer, fieldProviders]

/-- No option is both of a language and of linking. -/
theorem of_lang_or_link (providers : Providers) (dir : Bytes) (given : Fields) (o : ListOption) :
    (langLayer providers dir given).parts.of o = [] ∨ Parts.of (linkParts dir given) o = [] := by
  cases o
  all_goals first
    | exact .inr rfl
    | refine .inl ?_
      cases hc : given.c <;> cases hcxx : given.cxx <;> cases hasm : given.asm <;>
        simp [langLayer, Parts.of, langParts, asmParts, hc, hcxx, hasm]

/-- A target reads its table as a layer. -/
theorem laid_target {providers : Providers} {dir : Bytes} {given : Fields} {s s₁ s₂ s₃ s' : Options}
    (hlang : readLangOptions providers dir given s = some s₁) (hlink : readLink dir given s₁ = some s₂)
    (htoolset : readToolset dir given.toolset s₂ = some s₃)
    (hname : readArtifactName given.artifactName (readCacheable given.cacheable s₃) = some s') :
    Laid (layer providers dir given) s s' := by
  have hlists := ((laid_lang hlang).trans (laid_link hlink)).trans (laid_toolset htoolset)
  have hall := (hlists.trans (laid_cacheable given.cacheable s₃)).trans (laid_artifactName hname)
  refine hall.congr (fun o => ?_) (fun o => ?_) ?_
  · exact congrArg (Parts.of · o) (by simp [Layer.append, partsLayer, scalarLayer, langLayer, layer, fieldParts])
  · cases hcxx : given.cxx <;>
      cases o <;> simp [Layer.append, partsLayer, scalarLayer, langLayer, layer, fieldScalars, cxxScalars, hcxx]
  · simp [Layer.append, partsLayer, scalarLayer, langLayer, layer]

/-- A config reads its table as the same layer, in another order. -/
theorem laid_addConfig {providers : Providers} {d : ConfigDeclaration} {config : Config}
    (h : addConfig providers d = some config) : Laid (layer providers d.fragmentDir d.fields) cleared config.options := by
  obtain ⟨s₁, hlink, h⟩ := Option.bind_eq_some_iff.mp h
  obtain ⟨s₂, hlang, h⟩ := Option.bind_eq_some_iff.mp h
  obtain ⟨s₃, htoolset, h⟩ := Option.bind_eq_some_iff.mp h
  obtain ⟨s₄, hname, h⟩ := Option.bind_eq_some_iff.mp h
  obtain rfl := Option.some.inj h
  have hlists := ((laid_link hlink).trans (laid_lang hlang)).trans (laid_cacheable d.fields.cacheable s₂)
  have hall := (hlists.trans (laid_toolset htoolset)).trans (laid_artifactName hname)
  refine hall.congr (fun o => ?_) (fun o => ?_) ?_
  · have hleft : ∀ parts : Parts, (parts ++ []).of o = parts.of o := fun parts => by rw [List.append_nil]
    change Parts.of ((((linkParts d.fragmentDir d.fields ++ (langLayer providers d.fragmentDir d.fields).parts) ++
      []) ++ []) ++ []) o = Parts.of ((langLayer providers d.fragmentDir d.fields).parts ++
        linkParts d.fragmentDir d.fields) o
    rw [hleft, hleft, hleft, of_append, of_append]
    rcases of_lang_or_link providers d.fragmentDir d.fields o with hnone | hnone
    · rw [hnone, List.append_nil, List.nil_append]
    · rw [hnone, List.append_nil, List.nil_append]
  · cases hcxx : d.fields.cxx <;>
      cases o <;> simp [Layer.append, partsLayer, scalarLayer, langLayer, layer, fieldScalars, cxxScalars, hcxx]
  · simp [Layer.append, partsLayer, scalarLayer, langLayer, layer]

theorem last_eq_lookup {entries : List ((Bytes × Bytes) × ProviderOption)} (h : (entries.map (·.1)).Nodup)
    (key : Bytes × Bytes) : last entries key = entries.lookup key := by
  cases hfound : entries.lookup key with
  | none =>
    have hsome := last_isSome entries key
    rw [hfound] at hsome
    exact Option.isNone_iff_eq_none.mp (by simpa using hsome)
  | some value =>
    have hreverse : (entries.reverse.map (·.1)).Nodup := by
      rw [List.map_reverse, List.nodup_reverse]
      exact h
    exact lookup_of_mem hreverse (List.mem_reverse.mpr (mem_of_lookup hfound))

/-- A string of a config that is `NULL` leaves the string of the target as it is. -/
theorem replaced_text {has : Bool} {slot value given : Option Bytes} (hhas : given.isSome = true → has = true)
    (hvalue : ScalarValue.text value = (given.map fun text => .text (some text)).getD (.text none)) :
    ScalarValue.text (if has then replaceString slot value else slot) =
      (given.map fun text => .text (some text)).getD (.text slot) := by
  cases given with
  | none =>
    cases hvalue
    exact congrArg ScalarValue.text (ite_self slot)
  | some text =>
    cases hvalue
    rw [if_pos (hhas rfl)]
    rfl

theorem scalar_mergeConfig {providers : Providers} {d : ConfigDeclaration} {config : Config}
    (h : addConfig providers d = some config) (s : Options) (o : ScalarOption) :
    scalar (mergeConfig s config) o = (fieldScalars d.fragmentDir d.fields o).getD (scalar s o) := by
  have hvalue : scalar config.options o = (fieldScalars d.fragmentDir d.fields o).getD (scalar cleared o) :=
    (laid_addConfig h).scalars o
  obtain ⟨s₁, -, h⟩ := Option.bind_eq_some_iff.mp h
  obtain ⟨s₂, -, h⟩ := Option.bind_eq_some_iff.mp h
  obtain ⟨s₃, -, h⟩ := Option.bind_eq_some_iff.mp h
  obtain ⟨s₄, -, h⟩ := Option.bind_eq_some_iff.mp h
  obtain rfl := Option.some.inj h
  cases o with
  | artifactName => exact replaced_text id hvalue
  | cxxStandard =>
    refine replaced_text (fun hgiven => ?_) hvalue
    cases hcxx : d.fields.cxx with
    | none => simp [hcxx] at hgiven
    | some cxx => cases hstandard : cxx.standard <;> simp_all [TextField.toOption, TextField.present]
  | cxxPrecompiledHeader =>
    refine replaced_text (fun hgiven => ?_) hvalue
    cases hcxx : d.fields.cxx with
    | none => simp [hcxx] at hgiven
    | some cxx => cases hheader : cxx.precompiledHeader <;> simp_all [TextField.toOption, TextField.present]
  | toolset =>
    refine replaced_text (fun hgiven => ?_) hvalue
    cases htoolset : d.fields.toolset with
    | none => simp [htoolset] at hgiven
    | some raw => rfl
  | asmPreprocess =>
    cases hgiven : d.fields.asm.bind (·.preprocess) with
    | none =>
      have hhas : d.fields.asm.any (·.preprocess.isSome) = false := by
        cases hasm : d.fields.asm <;> simp_all
      simp [scalar, mergeConfig, mergeConfigScalars, mergeConfigLists, fieldScalars, hgiven, hhas]
    | some preprocess =>
      obtain ⟨asm, hasm, hpreprocess⟩ := Option.bind_eq_some_iff.mp hgiven
      simp_all [scalar, mergeConfig, mergeConfigScalars, fieldScalars]
  | cxxModules =>
    cases hgiven : d.fields.cxx.bind (·.modules) with
    | none =>
      have hhas : d.fields.cxx.any (·.modules.isSome) = false := by
        cases hcxx : d.fields.cxx <;> simp_all
      simp [scalar, mergeConfig, mergeConfigScalars, mergeConfigLists, fieldScalars, hgiven, hhas]
    | some enabled =>
      obtain ⟨cxx, hcxx, hmodules⟩ := Option.bind_eq_some_iff.mp hgiven
      simp_all [scalar, mergeConfig, mergeConfigScalars, fieldScalars]
  | cxxUnity =>
    cases hgiven : d.fields.cxx.bind (·.unity) with
    | none =>
      have hhas : d.fields.cxx.any (·.unity.isSome) = false := by
        cases hcxx : d.fields.cxx <;> simp_all
      simp [scalar, mergeConfig, mergeConfigScalars, mergeConfigLists, fieldScalars, hgiven, hhas]
    | some unity =>
      obtain ⟨cxx, hcxx, hunity⟩ := Option.bind_eq_some_iff.mp hgiven
      simp_all [scalar, mergeConfig, mergeConfigScalars, fieldScalars, unityValue]
  | cacheable =>
    cases hgiven : d.fields.cacheable with
    | none => simp [scalar, mergeConfig, mergeConfigScalars, mergeConfigLists, fieldScalars, hgiven]
    | some cacheable => simp_all [scalar, mergeConfig, mergeConfigScalars, fieldScalars]

/-- A config is merged as the layer of its table. -/
theorem laid_mergeConfig {providers : Providers} {d : ConfigDeclaration} {config : Config}
    (h : addConfig providers d = some config) (s : Options) :
    Laid (layer providers d.fragmentDir d.fields) s (mergeConfig s config) := by
  have hlaid := laid_addConfig h
  have hkeys := hlaid.keys List.nodup_nil
  refine ⟨?_, ?_, ?_, ?_, ?_⟩
  · intro o ho
    change s.lists o ++ config.options.lists o = _
    rw [hlaid.lists o ho]
    rfl
  · obtain ⟨added, hadded, hrepeats⟩ := hlaid.includeDirs
    refine ⟨added, ?_, hrepeats.mono fun d hd => ?_⟩
    · change s.lists .includeDirs ++ config.options.lists .includeDirs = _
      rw [hadded]
      rfl
    · exact hd.imp (List.mem_append_right _) (List.mem_append_right _)
  · exact scalar_mergeConfig h s
  · intro key
    change (assignAll s.providerOptions config.options.providerOptions).lookup key = _
    rw [lookup_assignAll, last_eq_lookup hkeys, hlaid.providers key]
    change ((last _ key).or none).or _ = _
    rw [Option.or_none]
  · exact fun hs => nodup_assignAll hs _

/-! ## Configs and targets -/

/-- Layers over one another, as one. -/
def stack (layers : List Layer) : Layer := layers.foldr Layer.append .empty

theorem append_empty (l : Layer) : l.append .empty = l := by
  simp [Layer.append, Layer.empty]

theorem empty_append (l : Layer) : Layer.empty.append l = l := by
  simp [Layer.append, Layer.empty]

theorem layer_append_assoc (a b c : Layer) : (a.append b).append c = a.append (b.append c) := by
  simp [Layer.append, Option.or_assoc]

theorem stack_concat (below : List Layer) (top : Layer) : stack (below ++ [top]) = (stack below).append top := by
  induction below with
  | nil => exact (append_empty top).trans (empty_append top).symm
  | cons l rest ih => exact (congrArg l.append ih).trans (layer_append_assoc l (stack rest) top).symm

theorem of_stack (layers : List Layer) (o : ListOption) :
    (stack layers).parts.of o = layers.flatMap (·.parts.of o) := by
  induction layers with
  | nil => rfl
  | cons l rest ih =>
    change (l.parts ++ (stack rest).parts).of o = _
    rw [of_append, ih, List.flatMap_cons]

theorem providers_stack (layers : List Layer) : (stack layers).providers = layers.flatMap (·.providers) := by
  induction layers with
  | nil => rfl
  | cons l rest ih =>
    change l.providers ++ (stack rest).providers = _
    rw [ih, List.flatMap_cons]

theorem scalars_stack (layers : List Layer) (o : ScalarOption) (value : ScalarValue) :
    ((stack layers).scalars o).getD value = lastGiven value (layers.map (·.scalars o)) := by
  induction layers generalizing value with
  | nil => rfl
  | cons l rest ih =>
    change (((stack rest).scalars o).or (l.scalars o)).getD value =
      lastGiven ((l.scalars o).getD value) (rest.map (·.scalars o))
    rw [← ih]
    cases (stack rest).scalars o <;> rfl

def findDeclaration (ds : List ConfigDeclaration) (label : Bytes) : Option ConfigDeclaration :=
  ds.find? fun d => d.label = label

/-- The configs that the list of a target names. -/
def usedConfigs (ds : List ConfigDeclaration) (t : TargetDeclaration) : List ConfigDeclaration :=
  (t.configs.filterMap (TextReader.label t.fragmentDir).form).filterMap (findDeclaration ds)

/-- The layers of a target: its configs in the order of its list, and its own table. -/
def layers (providers : Providers) (ds : List ConfigDeclaration) (t : TargetDeclaration) : List Layer :=
  (usedConfigs ds t).map (fun d => layer providers d.fragmentDir d.fields) ++
    [layer providers t.fragmentDir t.fields]

theorem label_addConfig {providers : Providers} {d : ConfigDeclaration} {config : Config}
    (h : addConfig providers d = some config) : config.label = d.label := by
  obtain ⟨s₁, -, h⟩ := Option.bind_eq_some_iff.mp h
  obtain ⟨s₂, -, h⟩ := Option.bind_eq_some_iff.mp h
  obtain ⟨s₃, -, h⟩ := Option.bind_eq_some_iff.mp h
  obtain ⟨s₄, -, h⟩ := Option.bind_eq_some_iff.mp h
  obtain rfl := Option.some.inj h
  rfl

/-- A config that is found is the one of the declaration that is found. -/
theorem findConfig_declared {providers : Providers} {ds : List ConfigDeclaration} {configs : List Config}
    (h : ds.mapM (addConfig providers) = some configs) {label : Bytes} {config : Config}
    (hfound : findConfig configs label = some config) :
    ∃ d, findDeclaration ds label = some d ∧ addConfig providers d = some config := by
  induction ds generalizing configs with
  | nil =>
    cases h
    cases hfound
  | cons d rest ih =>
    rw [List.mapM_cons] at h
    obtain ⟨first, hfirst, h⟩ := Option.bind_eq_some_iff.mp h
    obtain ⟨others, hothers, h⟩ := Option.bind_eq_some_iff.mp h
    cases h
    rw [findConfig, List.find?_cons] at hfound
    rw [findDeclaration, List.find?_cons, ← label_addConfig hfirst]
    split at hfound
    · exact ⟨d, rfl, hfirst.trans hfound⟩
    · exact ih hothers hfound

/-- The configs of a target are laid over its options, one after another. -/
theorem laid_configs {providers : Providers} {ds : List ConfigDeclaration} {configs : List Config}
    (h : ds.mapM (addConfig providers) = some configs) {labels : List Bytes} {s s' : Options}
    (happly : applyTargetConfigs configs labels s = some s') :
    Laid (stack ((labels.filterMap (findDeclaration ds)).map fun d => layer providers d.fragmentDir d.fields)) s s' := by
  induction labels generalizing s with
  | nil =>
    cases happly
    exact .refl _
  | cons label rest ih =>
    rw [applyTargetConfigs, List.foldlM_cons] at happly
    obtain ⟨s₁, hmerge, hrest⟩ := Option.bind_eq_some_iff.mp happly
    obtain ⟨config, hfound, rfl⟩ := Option.map_eq_some_iff.mp hmerge
    obtain ⟨d, hd, hconfig⟩ := findConfig_declared h hfound
    rw [List.filterMap_cons_some hd]
    exact (laid_mergeConfig hconfig s).trans (ih hrest)

theorem laid_evaluate {providers : Providers} {ds : List ConfigDeclaration} {t : TargetDeclaration} {s : Options}
    (h : evaluate providers ds t = some s) : Laid (stack (layers providers ds t)) defaults s := by
  obtain ⟨configs, hconfigs, h⟩ := Option.bind_eq_some_iff.mp h
  rw [addConfigs] at hconfigs
  split at hconfigs
  · obtain ⟨labels, hlabels, h⟩ := Option.bind_eq_some_iff.mp h
    obtain ⟨s₁, happly, h⟩ := Option.bind_eq_some_iff.mp h
    obtain ⟨s₂, hlang, h⟩ := Option.bind_eq_some_iff.mp h
    obtain ⟨s₃, hlink, h⟩ := Option.bind_eq_some_iff.mp h
    obtain ⟨s₄, htoolset, hname⟩ := Option.bind_eq_some_iff.mp h
    have hused : usedConfigs ds t = labels.filterMap (findDeclaration ds) := by
      rw [usedConfigs, filterMap_of_mapM hlabels]
    rw [layers, stack_concat, hused]
    exact (laid_configs hconfigs happly).trans (laid_target hlang hlink htoolset hname)
  · cases hconfigs

/-- The lists that are given for one option of a provider, one after another. -/
def givenLists (entries : List ((Bytes × Bytes) × ProviderOption)) (key : Bytes × Bytes) : List (List Bytes) :=
  (entries.filter fun e => decide (e.1 = key)).map (·.2.list)

/-- The rule of merging: a list is what all layers give, one after another, where a private or
public directory may be repeated; and a value is that of the last layer that gives it. Where none
does, a provider falls back to the default of its schema. -/
structure Merged (layers : List Layer) (s : Options) : Prop where
  lists : ∀ o, o ≠ .includeDirs → s.lists o = layers.flatMap (·.parts.of o)
  includeDirs : Repeats (SelfIncluded s) (layers.flatMap (·.parts.of .includeDirs)) (s.lists .includeDirs)
  scalars : ∀ o, scalar s o = lastGiven (scalar defaults o) (layers.map (·.scalars o))
  providerValues : ∀ key, (s.providerOptions.lookup key).map (·.value) =
    (last (layers.flatMap (·.providers)) key).map (·.value)
  providerLists : ∀ key, ((s.providerOptions.lookup key).map (·.list)).getD [] =
    (givenLists (layers.flatMap (·.providers)) key).flatten

theorem list_of_last (entries : List ((Bytes × Bytes) × ProviderOption)) (key : Bytes × Bytes) :
    ((last entries key).map (·.list)).getD [] = (givenLists entries key).getLast?.getD [] := by
  rw [last_eq_getLast?, givenLists, ← List.getLast?_map, List.map_map]
  rfl

/-- What is merged is so by the rule, and the list of an option of a provider is the last one that
is given: it is all of them just where those below it are empty. -/
theorem merged_iff {providers : Providers} {ds : List ConfigDeclaration} {t : TargetDeclaration} {s : Options}
    (h : evaluate providers ds t = some s) : Merged (layers providers ds t) s ↔
      ∀ key, ∀ list ∈ (givenLists ((layers providers ds t).flatMap (·.providers)) key).dropLast, list = [] := by
  have hlaid := laid_evaluate h
  have hlookup : ∀ key, s.providerOptions.lookup key = last ((layers providers ds t).flatMap (·.providers)) key := by
    intro key
    rw [hlaid.providers, providers_stack]
    exact Option.or_none
  constructor
  · intro hmerged key
    have hlists := hmerged.providerLists key
    rw [hlookup, list_of_last] at hlists
    exact (flatten_eq_getLast_iff _).mp hlists.symm
  · intro hempty
    refine ⟨fun o ho => ?_, ?_, fun o => ?_, fun key => ?_, fun key => ?_⟩
    · rw [hlaid.lists o ho, of_stack]
      rfl
    · obtain ⟨added, hadded, hrepeats⟩ := hlaid.includeDirs
      rw [hadded, ← of_stack]
      exact hrepeats
    · rw [hlaid.scalars, scalars_stack]
    · rw [hlookup]
    · rw [hlookup, list_of_last]
      exact ((flatten_eq_getLast_iff _).mpr (hempty key)).symm

def zigProviders : Providers := [(ascii "zig", [(ascii "compile_options", .list)])]

def zigFields (flag : String) : Fields where
  providers := [(ascii "zig", [(ascii "compile_options", .list [ascii flag])])]

def zigConfigs : List ConfigDeclaration :=
  [⟨ascii "//:a", [], zigFields "-Da"⟩, ⟨ascii "//:b", [], zigFields "-Db"⟩]

def zigTarget : TargetDeclaration := ⟨[], [ascii ":a", ascii ":b"], {}⟩

theorem merged_iff_zig : ∃ s, evaluate zigProviders zigConfigs zigTarget = some s ∧
    (Merged (layers zigProviders zigConfigs zigTarget) s ↔ ∀ key, ∀ list ∈
      (givenLists ((layers zigProviders zigConfigs zigTarget).flatMap (·.providers)) key).dropLast, list = []) := by
  have hsome : (evaluate zigProviders zigConfigs zigTarget).isSome = true := by decide +kernel
  obtain ⟨s, hs⟩ := Option.isSome_iff_exists.mp hsome
  exact ⟨s, hs, merged_iff hs⟩

/-- Of two configs that both give a list to a provider the target has the second one's. -/
theorem zig_options_replaced : ∃ s, evaluate zigProviders zigConfigs zigTarget = some s ∧
    s.providerOptions.lookup (ascii "zig", ascii "compile_options") = some ⟨ascii "list", [], [ascii "-Db"]⟩ ∧
    ¬Merged (layers zigProviders zigConfigs zigTarget) s := by
  have hevaluate : (evaluate zigProviders zigConfigs zigTarget).map (·.providerOptions) =
      some [((ascii "zig", ascii "compile_options"), ⟨ascii "list", [], [ascii "-Db"]⟩)] := by decide +kernel
  obtain ⟨s, hs, hproviders⟩ := Option.map_eq_some_iff.mp hevaluate
  refine ⟨s, hs, by rw [hproviders]; decide +kernel, fun hmerged => ?_⟩
  have hlists := hmerged.providerLists (ascii "zig", ascii "compile_options")
  rw [hproviders] at hlists
  exact absurd hlists (by decide +kernel)

end QStar.Authoring.ConfigMerge
