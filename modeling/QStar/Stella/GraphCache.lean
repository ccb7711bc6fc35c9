import QStar.Stella.GraphRecords
import Mathlib.Data.List.Sort
import Mathlib.Data.Option.Basic

/-!
# The graph cache round trip

Reading the file that was written for a graph gives the graph back, with the roles of its
toolsets in the order of their names, and leaves nothing of the file.
-/
namespace QStar.Stella.GraphCache

open QStar.Lib.CStrings
open QStar.Lib.Wire

variable {α : Type} {limit : Nat}

/-! ## Strings and arrays -/

theorem reads_u64 {n : Nat} (h : n < 2 ^ 64) : Reads readU64 (writeU64 n) n := by
  have hread := reads_readLe 8 n
  rwa [Nat.mod_eq_of_lt (by simpa using h)] at hread

theorem reads_i32 (v : Int32) : Reads readI32 (writeI32 v) v := by
  have hbits : v.toUInt32.toNat % 256 ^ 4 = v.toUInt32.toNat :=
    Nat.mod_eq_of_lt (UInt32.toNat_lt v.toUInt32)
  have hread := reads_readLe 4 v.toUInt32.toNat
  rw [hbits] at hread
  have hvalue : (UInt32.ofNat v.toUInt32.toNat).toInt32 = v := by
    rw [UInt32.ofNat_toNat]
    rfl
  refine hread.bind_nil ?_
  rw [hvalue]
  exact reads_pure v

theorem reads_text (s : Text) (h : s.bytes.length ≤ maxString) :
    Reads (readText s.bytes.length h) s.bytes s := by
  intro rest
  have hsame : cString ((s.bytes ++ rest).take s.bytes.length) = s.bytes := by
    rw [List.take_left, cString_eq_self s.no_nul]
  unfold readText
  rw [if_neg (by simp)]
  refine congrArg some (Prod.ext (Text.ext hsame) ?_)
  exact List.drop_left

theorem reads_str (s : Str) : Reads readStr (writeStr s) s := by
  cases s with
  | none =>
    refine (reads_u64 (by decide)).bind_nil ?_
    rw [if_pos rfl]
    exact reads_pure none
  | some s =>
    have hshort := s.length_le
    have hnull : s.bytes.length ≠ nullLength := by
      unfold maxString at hshort
      unfold nullLength
      omega
    refine (reads_u64 (by unfold maxString at hshort; omega)).bind ?_
    rw [if_neg hnull, dif_pos hshort]
    exact (reads_text s hshort).bind_nil (reads_pure _)

theorem reads_entries {write : α → Bytes} {read : Reader α} {f : α → α} (hlimit : limit < 2 ^ 64)
    (xs : Entries limit α) (h : ∀ x ∈ xs.items, Reads read (write x) (f x)) :
    Reads (readEntries limit read) (writeEntries write xs) (xs.map f) := by
  have hle := xs.length_le
  refine (reads_u64 (Nat.lt_of_le_of_lt hle hlimit)).bind ?_
  rw [dif_pos hle]
  exact (reads_exactly h).bind_nil (reads_pure _)

/-- An array of records that are read as they were written. -/
theorem reads_array {write : α → Bytes} {read : Reader α} (hlimit : limit < 2 ^ 64)
    (xs : Entries limit α) (h : ∀ x ∈ xs.items, Reads read (write x) x) :
    Reads (readEntries limit read) (writeEntries write xs) xs := by
  have hread := reads_entries (f := id) hlimit xs h
  rwa [Entries.map_id] at hread

theorem reads_list (xs : StringList) : Reads readList (writeList xs) xs :=
  reads_array (by decide) xs fun s _ => (reads_str (some s)).bind_nil (reads_pure s)

/-! ## Toolsets -/

/-- Roles as they were added: none without a name, no two of one name. -/
structure RolesAdded (roles : List ToolRole) : Prop where
  named : ∀ r ∈ roles, r.role.bytes ≠ []
  distinct : (roles.map ToolRole.role).Nodup

theorem addRole_eq_some {roles : List ToolRole} {role : Str} {name : Text} :
    addRole roles role = some name ↔
      role = some name ∧ name.bytes ≠ [] ∧ ∀ r ∈ roles, r.role ≠ name := by
  unfold addRole
  cases role with
  | none => simp
  | some text =>
    simp only [Option.bind_eq_bind, Option.bind_some, Option.bind_eq_some_iff, Option.guard_eq_some',
      Option.some.injEq, Option.pure_def]
    constructor
    · rintro ⟨-, hne, -, hnew, rfl⟩
      exact ⟨rfl, hne, hnew⟩
    · rintro ⟨rfl, hne, hnew⟩
      exact ⟨(), hne, (), hnew, rfl⟩

theorem RolesAdded.add {roles : List ToolRole} (h : RolesAdded roles) {role : Str} {name : Text}
    (hname : addRole roles role = some name) (argv : StringList) :
    RolesAdded (roles ++ [⟨name, argv⟩]) := by
  obtain ⟨-, hne, hnew⟩ := addRole_eq_some.mp hname
  constructor
  · intro r hr
    rcases List.mem_append.mp hr with hr | hr
    · exact h.named r hr
    · rw [List.mem_singleton.mp hr]
      exact hne
  · rw [List.map_append, List.nodup_append]
    refine ⟨h.distinct, by simp, ?_⟩
    intro a ha b hb
    obtain ⟨r, hr, rfl⟩ := List.mem_map.mp ha
    rw [List.map_singleton, List.mem_singleton] at hb
    rw [hb]
    exact hnew r hr

theorem reads_roles (before : List ToolRole) {roles : List ToolRole} (h : RolesAdded (before ++ roles)) :
    Reads (readRoles roles.length before) (roles.flatMap writeToolRole)
      ⟨before ++ roles, List.length_append⟩ := by
  induction roles generalizing before with
  | nil =>
    have hsame : (⟨before ++ [], List.length_append⟩ :
        {rs : List ToolRole // rs.length = before.length + 0}) = ⟨before, rfl⟩ :=
      Subtype.ext (List.append_nil before)
    exact hsame ▸ reads_pure _
  | cons r roles ih =>
    have hshift : before ++ r :: roles = before ++ [r] ++ roles := by simp
    have hadd : addRole before (some r.role) = some r.role := by
      refine addRole_eq_some.mpr ⟨rfl, h.named r (by simp), ?_⟩
      intro q hq heq
      have hdisjoint := (List.nodup_append.mp (List.map_append ▸ h.distinct)).2.2
      exact hdisjoint q.role (List.mem_map_of_mem hq) r.role (by simp) heq
    have hrest := ih (before ++ [r]) (hshift ▸ h)
    have hlift : Reads (StateT.lift (addRole before (some r.role))) [] r.role := by
      rw [hadd]
      exact reads_pure _
    have hbytes : (r :: roles).flatMap writeToolRole =
        writeStr (some r.role) ++ ([] ++ (writeList r.argv ++ roles.flatMap writeToolRole)) := by
      simp [writeToolRole]
    have hsame : (⟨before ++ [r] ++ roles, by simp⟩ :
        {rs : List ToolRole // rs.length = before.length + (roles.length + 1)}) =
        ⟨before ++ r :: roles, List.length_append⟩ := Subtype.ext hshift.symm
    rw [hbytes]
    refine (reads_str (some r.role)).bind ?_
    refine hlift.bind ?_
    refine (reads_list r.argv).bind ?_
    refine hrest.bind_nil ?_
    exact hsame ▸ reads_pure _

theorem reads_toolRoles {roles : Entries maxEntries ToolRole} (h : RolesAdded roles.items) :
    Reads readToolRoles (writeEntries writeToolRole roles) (sortRoles roles) := by
  have hle := roles.length_le
  refine (reads_u64 (Nat.lt_of_le_of_lt hle (by decide))).bind ?_
  rw [dif_pos hle]
  exact (reads_roles [] h).bind_nil (reads_pure _)

/-- The toolset as it is read. -/
def Toolset.sorted (toolset : Toolset) : Toolset := { toolset with roles := sortRoles toolset.roles }

theorem reads_toolset {toolset : Toolset} (h : RolesAdded toolset.roles.items) :
    Reads readToolset (writeToolset toolset) toolset.sorted := by
  iterate 4 refine (reads_str _).chunk ?_
  refine (reads_i32 _).chunk ?_
  refine (reads_toolRoles h).chunk ?_
  iterate 2 refine (reads_list _).chunk ?_
  iterate 3 refine (reads_str _).chunk ?_
  exact reads_pure toolset.sorted

theorem sortRoles_perm (roles : Entries maxEntries ToolRole) :
    (sortRoles roles).items.Perm roles.items :=
  List.mergeSort_perm roles.items roleLe

theorem sortRoles_pairwise (roles : Entries maxEntries ToolRole) :
    (sortRoles roles).items.Pairwise fun a b => roleLe a b = true := by
  refine List.pairwise_mergeSort ?_ ?_ roles.items
  · intro a b c hab hbc
    exact bytesLe_trans hab hbc
  · intro a b
    rw [Bool.or_eq_true]
    exact bytesLe_total a.role.bytes b.role.bytes

/-- Roles of different names have one order, whatever way they are sorted. -/
theorem eq_sortRoles {roles : Entries maxEntries ToolRole} (h : RolesAdded roles.items)
    {sorted : List ToolRole} (hperm : sorted.Perm roles.items)
    (hsorted : sorted.Pairwise fun a b => roleLe a b = true) : sorted = (sortRoles roles).items := by
  refine List.Perm.eq_of_pairwise ?_ hsorted (sortRoles_pairwise roles)
    (hperm.trans (sortRoles_perm roles).symm)
  intro a b ha hb hab hba
  have hrole : a.role = b.role := Text.ext (bytesLe_antisymm hab hba)
  exact List.inj_on_of_nodup_map h.distinct (hperm.subset ha) ((sortRoles_perm roles).subset hb) hrole

/-! ## Provider actions and language providers -/

theorem reads_providerAction (action : ProviderAction) :
    Reads readProviderAction (writeProviderAction action) action := by
  iterate 4 refine (reads_list _).chunk ?_
  refine (reads_str _).chunk ?_
  refine (reads_i32 _).chunk ?_
  exact reads_pure action

theorem reads_providerArtifact (artifact : ProviderArtifact) :
    Reads readProviderArtifact (writeProviderArtifact artifact) artifact := by
  iterate 4 refine (reads_str _).chunk ?_
  iterate 4 refine (reads_i32 _).chunk ?_
  exact reads_pure artifact

theorem reads_providerArtifacts (artifacts : Entries maxArtifacts ProviderArtifact) :
    Reads (readEntries maxArtifacts readProviderArtifact)
      (writeEntries writeProviderArtifact artifacts) artifacts :=
  reads_array (by decide) artifacts fun artifact _ => reads_providerArtifact artifact

theorem reads_languageOption (option : LanguageOption) :
    Reads readLanguageOption (writeLanguageOption option) option := by
  iterate 2 refine (reads_str _).chunk ?_
  refine (reads_i32 _).chunk ?_
  refine (reads_str _).chunk ?_
  iterate 2 refine (reads_list _).chunk ?_
  exact reads_pure option

theorem reads_languageUnit (unit : LanguageUnit) :
    Reads readLanguageUnit (writeLanguageUnit unit) unit := by
  refine (reads_str _).chunk ?_
  refine (reads_list _).chunk ?_
  iterate 3 refine (reads_str _).chunk ?_
  exact reads_pure unit

theorem reads_languageFinal (final : LanguageFinal) :
    Reads readLanguageFinal (writeLanguageFinal final) final := by
  iterate 2 refine (reads_str _).chunk ?_
  refine (reads_list _).chunk ?_
  refine (reads_providerArtifacts _).chunk ?_
  exact reads_pure final

theorem reads_languageProvider (provider : LanguageProvider) :
    Reads readLanguageProvider (writeLanguageProvider provider) provider := by
  iterate 7 refine (reads_str _).chunk ?_
  refine (reads_array (by decide) _ fun option _ => reads_languageOption option).chunk ?_
  refine (reads_array (by decide) _ fun unit _ => reads_languageUnit unit).chunk ?_
  refine (reads_array (by decide) _ fun final _ => reads_languageFinal final).chunk ?_
  exact reads_pure provider

/-! ## Targets -/

theorem reads_providerSourceUnit {source : ProviderSourceUnit} (h : source.sourceIndex ≤ maxEntries) :
    Reads readProviderSourceUnit (writeProviderSourceUnit source) source := by
  refine (reads_u64 (Nat.lt_of_le_of_lt h (by decide))).chunk ?_
  refine Reads.of_guard h ?_
  iterate 6 refine (reads_str _).chunk ?_
  refine (reads_providerAction _).chunk ?_
  exact reads_pure source

theorem reads_importedArtifact (artifact : ImportedArtifact) :
    Reads readImportedArtifact (writeImportedArtifact artifact) artifact := by
  iterate 4 refine (reads_str _).chunk ?_
  refine (reads_i32 _).chunk ?_
  exact reads_pure artifact

theorem reads_providerOption (option : ProviderOption) :
    Reads readProviderOption (writeProviderOption option) option := by
  iterate 4 refine (reads_str _).chunk ?_
  refine (reads_list _).chunk ?_
  exact reads_pure option

/-- Every provider source stands for an entry of the sources. -/
def SourcesIndexed (t : TargetRecord) : Prop :=
  ∀ source ∈ t.providerSources.items, source.sourceIndex < t.sources.items.length

/-- `push_provider_source_item` pushes a source and its unit together. -/
theorem SourcesIndexed.push {t pushed : TargetRecord} (h : SourcesIndexed t) {path : Text}
    {source : ProviderSourceUnit} (hindex : source.sourceIndex = t.sources.items.length)
    (hsources : pushed.sources.items = t.sources.items ++ [path])
    (hunits : pushed.providerSources.items = t.providerSources.items ++ [source]) :
    SourcesIndexed pushed := by
  intro unit hunit
  rw [hsources, List.length_append, List.length_singleton]
  rw [hunits, List.mem_append] at hunit
  rcases hunit with hunit | hunit
  · exact Nat.lt_succ_of_lt (h unit hunit)
  · rw [List.mem_singleton.mp hunit, hindex]
    exact Nat.lt_succ_self _

theorem reads_target {t : TargetRecord} (h : SourcesIndexed t) :
    Reads readTarget (writeTarget t) t := by
  have hsources : Reads (readEntries maxEntries readProviderSourceUnit)
      (writeEntries writeProviderSourceUnit t.providerSources) t.providerSources :=
    reads_array (by decide) _ fun source hsource =>
      reads_providerSourceUnit ((h source hsource).le.trans t.sources.length_le)
  iterate 5 refine (reads_str _).chunk ?_
  iterate 2 refine (reads_i32 _).chunk ?_
  refine (reads_str _).chunk ?_
  iterate 5 refine (reads_list _).chunk ?_
  refine hsources.chunk ?_
  refine (reads_i32 _).chunk ?_
  iterate 4 refine (reads_str _).chunk ?_
  refine (reads_list _).chunk ?_
  refine (reads_providerArtifacts _).chunk ?_
  refine (reads_providerAction _).chunk ?_
  iterate 19 refine (reads_list _).chunk ?_
  refine (reads_array (by decide) _ fun artifact _ => reads_importedArtifact artifact).chunk ?_
  iterate 4 refine (reads_list _).chunk ?_
  refine (reads_array (by decide) _ fun option _ => reads_providerOption option).chunk ?_
  iterate 2 refine (reads_list _).chunk ?_
  iterate 9 refine (reads_str _).chunk ?_
  iterate 10 refine (reads_i32 _).chunk ?_
  refine (reads_str _).chunk ?_
  exact reads_pure t

/-! ## The other records -/

theorem reads_genrule (g : GenruleRecord) : Reads readGenrule (writeGenrule g) g := by
  iterate 4 refine (reads_str _).chunk ?_
  refine (reads_i32 _).chunk ?_
  iterate 3 refine (reads_str _).chunk ?_
  iterate 3 refine (reads_i32 _).chunk ?_
  iterate 6 refine (reads_list _).chunk ?_
  exact reads_pure g

theorem reads_stage (s : StageRecord) : Reads readStage (writeStage s) s := by
  iterate 4 refine (reads_str _).chunk ?_
  refine (reads_i32 _).chunk ?_
  iterate 2 refine (reads_str _).chunk ?_
  iterate 2 refine (reads_list _).chunk ?_
  exact reads_pure s

theorem reads_family (family : TargetFamily) : Reads readFamily (writeFamily family) family := by
  iterate 3 refine (reads_str _).chunk ?_
  iterate 2 refine (reads_i32 _).chunk ?_
  iterate 2 refine (reads_list _).chunk ?_
  exact reads_pure family

theorem reads_packageAlias (p : PackageAlias) : Reads readPackageAlias (writePackageAlias p) p := by
  iterate 2 refine (reads_str _).chunk ?_
  exact reads_pure p

/-! ## The file -/

/-- What holds of a graph built from declarations: roles were added one by one, and a provider
source was pushed with the source it is for. -/
structure GraphRecord.WellFormed (graph : GraphRecord) : Prop where
  roles_added : ∀ toolset ∈ graph.toolsets.items, RolesAdded toolset.roles.items
  sources_indexed : ∀ t ∈ graph.targets.items, SourcesIndexed t

/-- The graph with the roles of its toolsets in order. -/
def GraphRecord.sorted (graph : GraphRecord) : GraphRecord :=
  { graph with toolsets := graph.toolsets.map Toolset.sorted }

theorem reads_graph {graph : GraphRecord} (h : graph.WellFormed) :
    Reads readGraphCacheFile (writeGraphCacheFile graph) graph.sorted := by
  refine (reads_str _).chunk ?_
  refine Reads.of_guard rfl ?_
  refine (reads_u64 (by decide)).chunk ?_
  refine Reads.of_guard rfl ?_
  iterate 4 refine (reads_str _).chunk ?_
  refine (reads_i32 _).chunk ?_
  iterate 7 refine (reads_str _).chunk ?_
  refine (reads_i32 _).chunk ?_
  refine (reads_str _).chunk ?_
  refine (reads_list _).chunk ?_
  refine (reads_array (by decide) _ fun p _ => reads_packageAlias p).chunk ?_
  refine (reads_entries (by decide) _ fun toolset htoolset =>
    reads_toolset (h.roles_added toolset htoolset)).chunk ?_
  refine (reads_array (by decide) _ fun provider _ => reads_languageProvider provider).chunk ?_
  refine (reads_array (by decide) _ fun t ht => reads_target (h.sources_indexed t ht)).chunk ?_
  refine (reads_array (by decide) _ fun g _ => reads_genrule g).chunk ?_
  refine (reads_array (by decide) _ fun s _ => reads_stage s).chunk ?_
  refine (reads_array (by decide) _ fun family _ => reads_family family).chunk ?_
  exact reads_pure graph.sorted

/-- The file of a graph is read whole, as the graph with its roles in order. -/
theorem graph_cache_round_trip {graph : GraphRecord} (h : graph.WellFormed) :
    readGraphCacheFile (writeGraphCacheFile graph) = some (graph.sorted, []) := by
  have hread := reads_graph h []
  rwa [List.append_nil] at hread

/-- A graph with two roles out of order and a source of a language provider. -/
def mixedGraph : GraphRecord :=
  let text (s : String) (h : 0 ∉ ascii s ∧ (ascii s).length ≤ maxString) : Text := ⟨ascii s, h.1, h.2⟩
  let toolset : Toolset := { (default : Toolset) with
    label := some (text "//:host" (by decide)), originLine := 3
    roles := ⟨[⟨text "link" (by decide), default⟩, ⟨text "archive" (by decide), default⟩], by decide⟩ }
  let t : TargetRecord := { (default : TargetRecord) with
    label := some (text "//:app" (by decide)), runTimeoutSec := -1
    sources := ⟨[text "main.c" (by decide), text "lib.zig" (by decide)], by decide⟩
    providerSources := ⟨[{ (default : ProviderSourceUnit) with sourceIndex := 1 }], by decide⟩ }
  { (default : GraphRecord) with toolsets := ⟨[toolset], by decide⟩, targets := ⟨[t], by decide⟩ }

theorem graph_cache_round_trip_mixed :
    readGraphCacheFile (writeGraphCacheFile mixedGraph) = some (mixedGraph.sorted, []) := by
  refine graph_cache_round_trip ⟨?_, ?_⟩
  · intro toolset htoolset
    rw [List.mem_singleton.mp htoolset]
    exact ⟨by decide, by decide⟩
  · intro t ht source hsource
    rw [List.mem_singleton.mp ht] at hsource ⊢
    rw [List.mem_singleton.mp hsource]
    decide

end QStar.Stella.GraphCache
