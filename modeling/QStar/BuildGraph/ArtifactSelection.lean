import Mathlib.Data.List.Nodup
import QStar.BuildGraph.Artifacts

/-!
# Which artifact is selected

What a link consumer is given of a target, and what an id selects of it. The roles of an
imported target are its author's words, but some of them read like the classes of the map; and
an id may be the word for the primary artifact.
-/
namespace QStar.BuildGraph

open QStar.Lib.CStrings
open QStar.Base

/-- The artifacts of a target, without the limit of the map. -/
def artifactsOf (g : Graph) (t : Target) : List Artifact :=
  match t.kind with
  | .group => []
  | .runTarget => []
  | .objectlib => []
  | .interface => []
  | .tool => [artifactOf (ascii "executable") (ascii "tool") t.toolPath true]
  | .imported => importedArtifactsOf g t
  | _ =>
    match t.providerFinal with
    | some final => if final.artifacts = [] then ownArtifacts g t else providerArtifactsOf final
    | none => ownArtifacts g t

/-- What `read_imported_artifacts_field`, `qstar_language_final_add_artifact` and
`resolve_provider_final_artifacts` leave of a target's declared artifacts: each list is short,
and its ids are words that tell its artifacts apart, as the paths of a provider's do. -/
structure ArtifactsDeclared (t : Target) : Prop where
  imported_room : ∀ platform, (t.importedArtifacts.filter fun a => a.platform = platform).length ≤ 16
  imported_ids : ∀ platform,
    ((t.importedArtifacts.filter fun a => a.platform = platform).map ImportedArtifact.id).Nodup
  imported_named : ∀ a ∈ t.importedArtifacts, a.id ≠ []
  provider_room : ∀ final, t.providerFinal = some final → final.artifacts.length ≤ 16
  provider_ids : ∀ final, t.providerFinal = some final →
    (final.artifacts.map ProviderArtifact.id).Nodup
  provider_named : ∀ final, t.providerFinal = some final → ∀ a ∈ final.artifacts, a.id ≠ []
  provider_paths : ∀ final, t.providerFinal = some final →
    (final.artifacts.map ProviderArtifact.path).Nodup

/-- The target has the artifacts its provider declares. -/
def ProviderMade (t : Target) : Prop :=
  (t.kind = .exe ∨ t.kind = .test ∨ t.kind = .staticlib ∨ t.kind = .sharedlib ∨ t.kind = .target ∨
    ∃ name, t.kind = .other name) ∧ ∃ final, t.providerFinal = some final ∧ final.artifacts ≠ []

/-- What a link consumer takes before the primary artifact: of an imported target the artifact
with the role `link`, of a provider's the link interface, of a native one the import library. -/
def linkPreferred (t : Target) (a : Artifact) : Bool :=
  match t.kind with
  | .imported => a.role = ascii "link"
  | _ =>
    match t.providerFinal with
    | some final => if final.artifacts = [] then a.role = ascii "import_lib" else a.linkInterface
    | none => a.role = ascii "import_lib"

/-- The artifact a link consumer is meant to be given. -/
def linkArtifact (g : Graph) (t : Target) : Option Artifact :=
  ((artifactsOf g t).find? (linkPreferred t)).or ((artifactsOf g t).find? Artifact.primary)

/-- No word of the declaration is taken for another one. -/
structure ArtifactsClear (g : Graph) (t : Target) : Prop where
  /-- Of an imported target, the first artifact with one of the roles that count as a link
  interface is the one meant. -/
  imported : t.kind = .imported → ∀ a b, (artifactsOf g t).find? Artifact.linkInterface = some a →
    linkArtifact g t = some b → a.path = b.path
  /-- Of a provider's shared library without a link interface on Windows, the primary artifact
  is the one called `import_lib`. -/
  provider : ProviderMade t → t.kind = .sharedlib → isWindows g = true →
    (artifactsOf g t).find? Artifact.linkInterface = none →
    ∀ a, (artifactsOf g t).find? Artifact.primary = some a → a.id = ascii "import_lib"
  /-- An artifact called `primary` is the first that is either so called or primary. -/
  primary : ∀ a ∈ artifactsOf g t, a.id = ascii "primary" → ∀ b,
    (artifactsOf g t).find? (fun x => x.primary || x.id = ascii "primary") = some b →
    b.path = a.path

section Selection

variable {g : Graph} {t : Target}

theorem targetArtifactMap_eq (g : Graph) (t : Target) :
    targetArtifactMap g t = if (artifactsOf g t).length ≤ artifactMapSize then .ok (artifactsOf g t)
      else .error (.tooManyArtifacts t.label) := rfl

theorem targetArtifactMap_ok (h : (artifactsOf g t).length ≤ 16) :
    targetArtifactMap g t = .ok (artifactsOf g t) := by
  rw [targetArtifactMap_eq]
  exact if_pos h

/-- How a selector is looked up. -/
theorem targetArtifactPath_match (h : (artifactsOf g t).length ≤ 16) (selector : Bytes) :
    targetArtifactPath g t selector =
      match (artifactsOf g t).find? (fun a =>
        ((selector = [] || selector = ascii "primary") && a.primary) ||
          (selector ≠ [] && selector = a.id)) with
      | some a => .ok a.path
      | none =>
        if t.kind = .objectlib then .error (.objectlibHasNoArtifact t.label)
        else .error (.unknownArtifact selector t.label) := by
  unfold targetArtifactPath
  rw [targetArtifactMap_ok h]
  rfl

/-- A path where an artifact is found. -/
theorem targetArtifactPath_eq (h : (artifactsOf g t).length ≤ 16) {selector : Bytes} {a : Artifact}
    (hfound : (artifactsOf g t).find? (fun a =>
      ((selector = [] || selector = ascii "primary") && a.primary) ||
        (selector ≠ [] && selector = a.id)) = some a) :
    targetArtifactPath g t selector = .ok a.path := by
  rw [targetArtifactPath_match h, hfound]

/-- An error where nothing is found. -/
theorem targetArtifactPath_none (h : (artifactsOf g t).length ≤ 16) {selector : Bytes}
    (hfound : (artifactsOf g t).find? (fun a =>
      ((selector = [] || selector = ascii "primary") && a.primary) ||
        (selector ≠ [] && selector = a.id)) = none) (path : Bytes) :
    targetArtifactPath g t selector ≠ .ok path := by
  rw [targetArtifactPath_match h, hfound]
  dsimp only
  split_ifs
  all_goals simp

/-- No selector selects the primary artifact. -/
theorem find_nil_selector (arts : List Artifact) :
    arts.find? (fun a => ((([] : Bytes) = [] || ([] : Bytes) = ascii "primary") && a.primary) ||
      (([] : Bytes) ≠ [] && ([] : Bytes) = a.id)) = arts.find? Artifact.primary := by
  congr 1
  funext a
  simp

theorem find_primary_selector (arts : List Artifact) :
    arts.find? (fun a => ((ascii "primary" = [] || ascii "primary" = ascii "primary") && a.primary) ||
      (ascii "primary" ≠ [] && ascii "primary" = a.id)) =
      arts.find? fun x => x.primary || x.id = ascii "primary" := by
  congr 1
  funext a
  have hne : ascii "primary" ≠ [] := by decide
  simp [hne, eq_comm]

theorem find_id_selector {selector : Bytes} (hne : selector ≠ []) (hword : selector ≠ ascii "primary")
    (arts : List Artifact) :
    arts.find? (fun a => ((selector = [] || selector = ascii "primary") && a.primary) ||
      (selector ≠ [] && selector = a.id)) = arts.find? fun a => a.id = selector := by
  congr 1
  funext a
  simp [hne, hword, eq_comm]

theorem find_id_of_nodup {arts : List Artifact} (h : (arts.map Artifact.id).Nodup) {a : Artifact}
    (ha : a ∈ arts) : arts.find? (fun b => b.id = a.id) = some a := by
  cases hfound : arts.find? (fun b => b.id = a.id) with
  | none => simpa using List.find?_eq_none.mp hfound a ha
  | some b =>
    have hid : b.id = a.id := by simpa using List.find?_some hfound
    rw [List.inj_on_of_nodup_map h (List.mem_of_find?_eq_some hfound) ha hid]

/-! ## What is known of the artifacts -/

/-- A native target's artifacts: the primary one, and the import library of a shared library on
Windows. -/
theorem ownArtifacts_cases (g : Graph) (t : Target) :
    (∃ id role path, ownArtifacts g t = [artifactOf id role path true] ∧ id ≠ [] ∧
      (t.kind = .sharedlib → isWindows g = false)) ∨
    t.kind = .sharedlib ∧ isWindows g = true ∧ ∃ path library, ownArtifacts g t =
      [artifactOf (ascii "runtime") (ascii "sharedlib") path true,
        artifactOf (ascii "import_lib") (ascii "import_lib") library false] := by
  unfold ownArtifacts
  split
  · rename_i hkind
    cases hwindows : isWindows g with
    | true => exact .inr ⟨hkind, rfl, _, _, rfl⟩
    | false => exact .inl ⟨_, _, _, rfl, by decide, fun _ => rfl⟩
  · rename_i hkind
    exact .inl ⟨_, _, _, rfl, by decide, by simp [hkind]⟩
  · rename_i hkind
    exact .inl ⟨_, _, _, rfl, by decide, by simp [hkind]⟩
  · rename_i hkind
    exact .inl ⟨_, _, _, rfl, by decide, by simp [hkind]⟩
  · rename_i name hkind
    exact .inl ⟨_, _, _, rfl, by decide, by simp [hkind]⟩
  · rename_i hshared _ _ _ _
    exact .inl ⟨_, _, _, rfl, by decide, fun hkind => absurd hkind hshared⟩

/-- Where the artifacts of a target come from. -/
inductive Origin (g : Graph) (t : Target) : List Artifact → Prop
  | none : Origin g t []
  | single (id role path : Bytes) (hid : id ≠ []) (hshared : t.kind = .sharedlib → isWindows g = false)
      (hown : t.kind ≠ .imported) (hmade : ¬ProviderMade t) :
      Origin g t [artifactOf id role path true]
  | library (path library : Bytes) (hkind : t.kind = .sharedlib) (hwindows : isWindows g = true)
      (hmade : ¬ProviderMade t) :
      Origin g t [artifactOf (ascii "runtime") (ascii "sharedlib") path true,
        artifactOf (ascii "import_lib") (ascii "import_lib") library false]
  | imported (hkind : t.kind = .imported) : Origin g t (importedArtifactsOf g t)
  | provider (final : ProviderFinal) (hfinal : t.providerFinal = some final)
      (hmade : ProviderMade t) : Origin g t (providerArtifactsOf final)

theorem not_providerMade (h : ∀ final, t.providerFinal = some final → final.artifacts = []) :
    ¬ProviderMade t := by
  rintro ⟨-, final, hfinal, hne⟩
  exact hne (h final hfinal)

theorem origin_own (himported : t.kind ≠ .imported)
    (h : ∀ final, t.providerFinal = some final → final.artifacts = []) :
    Origin g t (ownArtifacts g t) := by
  have hmade := not_providerMade h
  rcases ownArtifacts_cases g t with ⟨id, role, path, heq, hid, hshared⟩ |
    ⟨hkind, hwindows, path, library, heq⟩
  · rw [heq]
    exact .single id role path hid hshared himported hmade
  · rw [heq]
    exact .library path library hkind hwindows hmade

theorem origin (g : Graph) (t : Target) : Origin g t (artifactsOf g t) := by
  unfold artifactsOf
  split
  · exact .none
  · exact .none
  · exact .none
  · exact .none
  · rename_i hkind
    exact .single _ _ _ (by decide) (by simp [hkind]) (by simp [hkind])
      (by simp [ProviderMade, hkind])
  · rename_i hkind
    exact .imported hkind
  · rename_i hgroup hrun hobject hinterface htool himported
    split
    · rename_i final hfinal
      split
      · rename_i hnil
        refine origin_own himported ?_
        intro final' hfinal'
        rwa [← Option.some.inj (hfinal.symm.trans hfinal')]
      · rename_i hne
        refine .provider final hfinal ⟨?_, final, hfinal, hne⟩
        cases hkind : t.kind <;> simp_all
    · rename_i hnone
      refine origin_own himported ?_
      intro final hfinal
      rw [hnone] at hfinal
      cases hfinal

/-- Artifacts that fit the map and are told apart by their ids. -/
structure Told (arts : List Artifact) : Prop where
  room : arts.length ≤ 16
  ids : (arts.map Artifact.id).Nodup
  named : ∀ a ∈ arts, a.id ≠ []

theorem told_imported (h : ArtifactsDeclared t) : Told (importedArtifactsOf g t) := by
  unfold importedArtifactsOf
  dsimp only
  generalize (if (t.importedArtifacts.any fun a => a.platform = g.platform) then g.platform
    else ascii "default") = platform
  refine ⟨?_, ?_, ?_⟩
  · rw [List.length_map]
    exact h.imported_room platform
  · rw [List.map_map]
    exact h.imported_ids platform
  · intro a ha
    obtain ⟨declared, hdeclared, rfl⟩ := List.mem_map.mp ha
    exact h.imported_named declared (List.mem_of_mem_filter hdeclared)

theorem told_provider (h : ArtifactsDeclared t) {final : ProviderFinal}
    (hfinal : t.providerFinal = some final) : Told (providerArtifactsOf final) := by
  unfold providerArtifactsOf
  refine ⟨?_, ?_, ?_⟩
  · rw [List.length_map]
    exact h.provider_room final hfinal
  · rw [List.map_map]
    exact h.provider_ids final hfinal
  · intro a ha
    obtain ⟨declared, hdeclared, rfl⟩ := List.mem_map.mp ha
    exact h.provider_named final hfinal declared hdeclared

theorem told (h : ArtifactsDeclared t) {arts : List Artifact} (horigin : Origin g t arts) :
    Told arts := by
  cases horigin with
  | none => exact ⟨by simp, by simp, by simp⟩
  | single id role path hid =>
    refine ⟨by simp, by simp, ?_⟩
    intro a ha
    obtain rfl := List.mem_singleton.mp ha
    exact hid
  | library path library =>
    refine ⟨by simp, by simp [artifactOf]; decide, ?_⟩
    intro a ha
    rcases List.mem_cons.mp ha with rfl | ha
    · exact (by decide : ascii "runtime" ≠ [])
    · obtain rfl := List.mem_singleton.mp ha
      exact (by decide : ascii "import_lib" ≠ [])
  | imported => exact told_imported h
  | provider final hfinal => exact told_provider h hfinal

/-! ## Ids -/

/-- An id that is not the word for the primary artifact selects its artifact. -/
theorem targetArtifactPath_id (htold : Told (artifactsOf g t)) {a : Artifact}
    (ha : a ∈ artifactsOf g t) (hword : a.id ≠ ascii "primary") :
    targetArtifactPath g t a.id = .ok a.path := by
  refine targetArtifactPath_eq htold.room ?_
  rw [find_id_selector (htold.named a ha) hword]
  exact find_id_of_nodup htold.ids ha

theorem targetArtifactPath_primary (htold : Told (artifactsOf g t)) {b : Artifact}
    (hfound : (artifactsOf g t).find? (fun x => x.primary || x.id = ascii "primary") = some b) :
    targetArtifactPath g t (ascii "primary") = .ok b.path := by
  refine targetArtifactPath_eq htold.room ?_
  rw [find_primary_selector]
  exact hfound

theorem selectors_iff (htold : Told (artifactsOf g t)) :
    (∀ a ∈ artifactsOf g t, targetArtifactPath g t a.id = .ok a.path) ↔
      ∀ a ∈ artifactsOf g t, a.id = ascii "primary" → ∀ b,
        (artifactsOf g t).find? (fun x => x.primary || x.id = ascii "primary") = some b →
        b.path = a.path := by
  constructor
  · intro h a ha hid b hb
    have hselected := h a ha
    rw [hid, targetArtifactPath_primary htold hb] at hselected
    exact Except.ok.inj hselected
  · intro h a ha
    by_cases hid : a.id = ascii "primary"
    · cases hfound : (artifactsOf g t).find? fun x => x.primary || x.id = ascii "primary" with
      | none => simpa [hid] using List.find?_eq_none.mp hfound a ha
      | some b => rw [hid, targetArtifactPath_primary htold hfound, h a ha hid b hfound]
    · exact targetArtifactPath_id htold ha hid

/-! ## Links -/

theorem targetLinkArtifactPath_interface (htold : Told (artifactsOf g t)) {a : Artifact}
    (hfound : (artifactsOf g t).find? Artifact.linkInterface = some a) :
    targetLinkArtifactPath g t = .ok a.path := by
  unfold targetLinkArtifactPath
  rw [targetArtifactMap_ok htold.room]
  dsimp only
  rw [hfound]

/-- Without a link interface the link artifact is looked up by a selector. -/
theorem targetLinkArtifactPath_selector (htold : Told (artifactsOf g t))
    (hfound : (artifactsOf g t).find? Artifact.linkInterface = none)
    (hrole : t.kind = .imported → (artifactsOf g t).find? (fun a => a.role = ascii "link") = none) :
    targetLinkArtifactPath g t =
      targetArtifactPath g t (if t.kind = .sharedlib ∧ isWindows g then ascii "import_lib" else []) := by
  unfold targetLinkArtifactPath
  rw [targetArtifactMap_ok htold.room]
  dsimp only
  rw [hfound]
  dsimp only
  by_cases hkind : t.kind = .imported
  · rw [if_pos hkind]
    simp only [bind, Except.bind, hrole hkind]
  · rw [if_neg hkind]

theorem targetArtifactPath_nil (htold : Told (artifactsOf g t)) {a : Artifact}
    (hfound : (artifactsOf g t).find? Artifact.primary = some a) :
    targetArtifactPath g t [] = .ok a.path := by
  refine targetArtifactPath_eq htold.room ?_
  rw [find_nil_selector]
  exact hfound

/-- What a link consumer is given is what it is meant to be given. -/
def LinkFollows (g : Graph) (t : Target) : Prop :=
  ∀ a, linkArtifact g t = some a → targetLinkArtifactPath g t = .ok a.path

theorem linkFollows_imported (htold : Told (artifactsOf g t)) (hkind : t.kind = .imported) :
    LinkFollows g t ↔ ∀ a b, (artifactsOf g t).find? Artifact.linkInterface = some a →
      linkArtifact g t = some b → a.path = b.path := by
  constructor
  · intro h a b ha hb
    have hgiven := h b hb
    rw [targetLinkArtifactPath_interface htold ha] at hgiven
    exact Except.ok.inj hgiven
  · intro h b hb
    cases hfound : (artifactsOf g t).find? Artifact.linkInterface with
    | some a => rw [targetLinkArtifactPath_interface htold hfound, h a b hfound hb]
    | none =>
      -- the role `link` counts as a link interface, so no artifact has it
      have hrole : (artifactsOf g t).find? (fun a => a.role = ascii "link") = none := by
        rw [List.find?_eq_none] at hfound ⊢
        intro a ha hlink
        refine hfound a ha ?_
        have hlist : artifactsOf g t = importedArtifactsOf g t := by simp [artifactsOf, hkind]
        rw [hlist, importedArtifactsOf] at ha
        obtain ⟨declared, -, rfl⟩ := List.mem_map.mp ha
        have hdeclared : declared.role = ascii "link" := of_decide_eq_true hlink
        rw [hdeclared]
        rfl
      have hpreferred : linkPreferred t = fun a => decide (a.role = ascii "link") := by
        funext a
        simp [linkPreferred, hkind]
      rw [linkArtifact, hpreferred, hrole, Option.none_or] at hb
      rw [targetLinkArtifactPath_selector htold hfound fun _ => hrole,
        if_neg (by simp [hkind]), targetArtifactPath_nil htold hb]

theorem provider_paths (h : ArtifactsDeclared t) {final : ProviderFinal}
    (hfinal : t.providerFinal = some final) {a b : Artifact} (ha : a ∈ providerArtifactsOf final)
    (hb : b ∈ providerArtifactsOf final) (heq : a.path = b.path) : a = b := by
  obtain ⟨x, hx, rfl⟩ := List.mem_map.mp ha
  obtain ⟨y, hy, rfl⟩ := List.mem_map.mp hb
  rw [List.inj_on_of_nodup_map (h.provider_paths final hfinal) hx hy heq]

theorem linkFollows_provider (h : ArtifactsDeclared t) (htold : Told (artifactsOf g t))
    {final : ProviderFinal} (hfinal : t.providerFinal = some final) (hmade : ProviderMade t)
    (hlist : artifactsOf g t = providerArtifactsOf final) :
    LinkFollows g t ↔ (t.kind = .sharedlib → isWindows g = true →
      (artifactsOf g t).find? Artifact.linkInterface = none →
      ∀ a, (artifactsOf g t).find? Artifact.primary = some a → a.id = ascii "import_lib") := by
  have himported : t.kind ≠ .imported := by
    rintro hkind
    obtain ⟨hkinds, -⟩ := hmade
    simp [hkind] at hkinds
  have hpreferred : linkPreferred t = Artifact.linkInterface := by
    obtain ⟨hkinds, other, hother, hne⟩ := hmade
    obtain rfl := Option.some.inj (hfinal.symm.trans hother)
    funext a
    unfold linkPreferred
    split
    · rename_i hkind
      exact absurd hkind himported
    · rw [hfinal]
      exact if_neg hne
  have hmeant : linkArtifact g t = ((artifactsOf g t).find? Artifact.linkInterface).or
      ((artifactsOf g t).find? Artifact.primary) := by rw [linkArtifact, hpreferred]
  cases hfound : (artifactsOf g t).find? Artifact.linkInterface with
  | some a =>
    rw [hfound, Option.some_or] at hmeant
    refine iff_of_true ?_ nofun
    intro b hb
    rw [hmeant] at hb
    rw [targetLinkArtifactPath_interface htold hfound, Option.some.inj hb]
  | none =>
    rw [hfound, Option.none_or] at hmeant
    have hselector := targetLinkArtifactPath_selector htold hfound fun hkind =>
      absurd hkind himported
    unfold LinkFollows
    rw [hmeant, hselector]
    by_cases hshared : t.kind = .sharedlib ∧ isWindows g = true
    · rw [if_pos hshared]
      have hne : ascii "import_lib" ≠ [] := by decide
      have hword : ascii "import_lib" ≠ ascii "primary" := by decide
      have hfind := find_id_selector hne hword (artifactsOf g t)
      constructor
      · intro hgiven _ _ _ a ha
        have hpath := hgiven a ha
        cases hid : (artifactsOf g t).find? fun b => b.id = ascii "import_lib" with
        | none => exact absurd hpath (targetArtifactPath_none htold.room (hfind.trans hid) _)
        | some b =>
          rw [targetArtifactPath_eq htold.room (hfind.trans hid)] at hpath
          have hb := List.mem_of_find?_eq_some hid
          have ha := List.mem_of_find?_eq_some ha
          rw [hlist] at ha hb
          rw [← provider_paths h hfinal hb ha (Except.ok.inj hpath)]
          simpa using List.find?_some hid
      · intro hcalled a ha
        have hid := hcalled hshared.1 hshared.2 rfl a ha
        have hsame := find_id_of_nodup htold.ids (List.mem_of_find?_eq_some ha)
        rw [hid] at hsame
        exact targetArtifactPath_eq htold.room (hfind.trans hsame)
    · rw [if_neg hshared]
      refine iff_of_true (fun a ha => targetArtifactPath_nil htold ha) ?_
      intro hkind hwindows
      exact absurd ⟨hkind, hwindows⟩ hshared

/-- A target with one artifact gives that. -/
theorem linkFollows_single {id role path : Bytes}
    (hlist : artifactsOf g t = [artifactOf id role path true])
    (hshared : t.kind = .sharedlib → isWindows g = false) (himported : t.kind ≠ .imported)
    (htold : Told (artifactsOf g t)) : LinkFollows g t := by
  have hprimary : (artifactsOf g t).find? Artifact.primary = some (artifactOf id role path true) := by
    rw [hlist]
    rfl
  intro a ha
  obtain rfl : a = artifactOf id role path true := by
    have hmem : a ∈ artifactsOf g t := by
      rcases Option.or_eq_some_iff.mp ha with hfound | ⟨-, hfound⟩
      · exact List.mem_of_find?_eq_some hfound
      · exact List.mem_of_find?_eq_some hfound
    rw [hlist] at hmem
    exact List.mem_singleton.mp hmem
  cases hfound : (artifactsOf g t).find? Artifact.linkInterface with
  | some b =>
    have hb := List.mem_of_find?_eq_some hfound
    rw [hlist] at hb
    rw [targetLinkArtifactPath_interface htold hfound, List.mem_singleton.mp hb]
  | none =>
    have hselector : ¬(t.kind = .sharedlib ∧ isWindows g = true) := by
      rintro ⟨hkind, hwindows⟩
      rw [hshared hkind] at hwindows
      cases hwindows
    rw [targetLinkArtifactPath_selector htold hfound fun hkind => absurd hkind himported,
      if_neg hselector, targetArtifactPath_nil htold hprimary]

theorem linkFollows_library {path library : Bytes} (hmade : ¬ProviderMade t)
    (hkind : t.kind = .sharedlib)
    (hlist : artifactsOf g t =
      [artifactOf (ascii "runtime") (ascii "sharedlib") path true,
        artifactOf (ascii "import_lib") (ascii "import_lib") library false])
    (htold : Told (artifactsOf g t)) : LinkFollows g t := by
  have hfound : (artifactsOf g t).find? Artifact.linkInterface =
      some (artifactOf (ascii "import_lib") (ascii "import_lib") library false) := by
    rw [hlist]
    rfl
  have hpreferred : linkPreferred t = fun a => decide (a.role = ascii "import_lib") := by
    funext a
    unfold linkPreferred
    rw [hkind]
    cases hfinal : t.providerFinal with
    | none => rfl
    | some final =>
      by_cases hnil : final.artifacts = []
      · exact if_pos hnil
      · exact absurd ⟨.inr (.inr (.inr (.inl hkind))), final, hfinal, hnil⟩ hmade
  have hmeant : (artifactsOf g t).find? (linkPreferred t) =
      some (artifactOf (ascii "import_lib") (ascii "import_lib") library false) := by
    rw [hlist, hpreferred]
    rfl
  intro a ha
  rw [linkArtifact, hmeant, Option.some_or] at ha
  rw [targetLinkArtifactPath_interface htold hfound, Option.some.inj ha]

end Selection

/-- Link consumers are given the artifact meant for them, and every id selects its artifact, just
where no word of the declaration is taken for another one. -/
theorem artifact_selection_iff (g : Graph) (t : Target) (h : ArtifactsDeclared t) :
    ((∀ a, linkArtifact g t = some a → targetLinkArtifactPath g t = .ok a.path) ∧
      ∀ a ∈ artifactsOf g t, targetArtifactPath g t a.id = .ok a.path) ↔ ArtifactsClear g t := by
  have horigin := origin g t
  have htold := told h horigin
  have hids := selectors_iff htold
  have hlinks : LinkFollows g t ↔
      (t.kind = .imported → ∀ a b, (artifactsOf g t).find? Artifact.linkInterface = some a →
        linkArtifact g t = some b → a.path = b.path) ∧
      (ProviderMade t → t.kind = .sharedlib → isWindows g = true →
        (artifactsOf g t).find? Artifact.linkInterface = none →
        ∀ a, (artifactsOf g t).find? Artifact.primary = some a → a.id = ascii "import_lib") := by
    have hnot : ProviderMade t → t.kind ≠ .imported := by
      rintro ⟨hkinds, -⟩ hkind
      simp [hkind] at hkinds
    generalize hlist : artifactsOf g t = arts at horigin
    cases horigin with
    | none =>
      refine iff_of_true ?_ ⟨?_, ?_⟩
      · intro a ha
        rw [linkArtifact, hlist] at ha
        cases ha
      · rintro - a b ha
        cases ha
      · rintro - - - - a ha
        cases ha
    | single id role path _ hshared hown hmade =>
      refine iff_of_true (linkFollows_single hlist hshared hown htold) ⟨?_, ?_⟩
      · intro hkind
        exact absurd hkind hown
      · intro hprovider
        exact absurd hprovider hmade
    | library path library hkind _ hmade =>
      refine iff_of_true (linkFollows_library hmade hkind hlist htold) ⟨?_, ?_⟩
      · intro himported
        rw [hkind] at himported
        cases himported
      · intro hprovider
        exact absurd hprovider hmade
    | imported hkind =>
      rw [linkFollows_imported htold hkind, hlist]
      constructor
      · intro hall
        exact ⟨fun _ => hall, fun hprovider => absurd hkind (hnot hprovider)⟩
      · intro hboth
        exact hboth.1 hkind
    | provider final hfinal hmade =>
      rw [linkFollows_provider h htold hfinal hmade hlist, hlist]
      constructor
      · intro hall
        exact ⟨fun hkind => absurd hkind (hnot hmade), fun _ => hall⟩
      · intro hboth
        exact hboth.2 hmade
  rw [hids]
  constructor
  · rintro ⟨hlink, hid⟩
    obtain ⟨himported, hprovider⟩ := hlinks.mp hlink
    exact ⟨himported, hprovider, hid⟩
  · intro hclear
    exact ⟨hlinks.mpr ⟨hclear.imported, hclear.provider⟩, hclear.primary⟩

/-- An imported library for every platform. -/
def codec (artifacts : List ImportedArtifact) : Target where
  label := ascii "//:codec"
  name := ascii "codec"
  kind := .imported
  importedArtifacts := artifacts
  label_ne := by decide
  sources_lt := Target.no_sources_lt

def codecGraph (artifacts : List ImportedArtifact) : Graph where
  host := ascii "linux"
  platform := ascii "linux"
  buildDir := ascii "build"
  targets := [codec artifacts]
  genrules := []
  stages := []
  toolsets := []
  languages := []
  labels_nodup := by simp
  objectlib_objects := by
    intro t ht _
    rw [List.mem_singleton.mp ht]
    rfl
  objects_objectlib := by
    intro t ht label hlabel
    rw [List.mem_singleton.mp ht] at hlabel
    cases hlabel

/-- The default artifacts of a library: one to run with, a further one, and one to link. -/
def codecArtifacts (further : Bytes) : List ImportedArtifact :=
  [⟨ascii "default", ascii "runtime", ascii "runtime", ascii "codec.dll", true⟩,
    ⟨ascii "default", ascii "extra", further, ascii "extra.a", false⟩,
    ⟨ascii "default", ascii "lib", ascii "link", ascii "codec.lib", false⟩]

theorem codec_declared (further : Bytes) : ArtifactsDeclared (codec (codecArtifacts further)) where
  imported_room platform := (List.length_filter_le _ _).trans
    (show (codecArtifacts further).length ≤ 16 from (by decide : 3 ≤ 16))
  imported_ids platform := by
    refine List.Nodup.sublist (List.filter_sublist.map ImportedArtifact.id) ?_
    exact (by decide : [ascii "runtime", ascii "extra", ascii "lib"].Nodup)
  imported_named := by
    have hids : ∀ id ∈ [ascii "runtime", ascii "extra", ascii "lib"], id ≠ [] := by decide
    intro a ha
    exact hids a.id (List.mem_map_of_mem (f := ImportedArtifact.id) ha)
  provider_room := nofun
  provider_ids := nofun
  provider_named := nofun
  provider_paths := nofun

theorem artifact_selection_iff_codec :
    targetLinkArtifactPath (codecGraph (codecArtifacts (ascii "data")))
      (codec (codecArtifacts (ascii "data"))) = .ok (ascii "codec.lib") := by
  refine ((artifact_selection_iff _ _ (codec_declared (ascii "data"))).mpr ?_).1
    ⟨ascii "lib", ascii "link", ascii "file", ascii "codec.lib", false, false, true⟩ rfl
  refine ⟨?_, nofun, ?_⟩
  · rintro - a b ha hb
    cases ha
    cases hb
    rfl
  · have hids : ∀ id ∈ [ascii "runtime", ascii "extra", ascii "lib"], id ≠ ascii "primary" := by
      decide
    intro a ha hid
    exact absurd hid (hids a.id (List.mem_map_of_mem (f := Artifact.id) ha))

/-- An artifact whose role is `archive` is linked in place of the one whose role is `link`. -/
theorem archive_linked : ¬∀ (g : Graph) (t : Target), ArtifactsDeclared t →
    ∀ a, linkArtifact g t = some a → targetLinkArtifactPath g t = .ok a.path := by
  intro h
  have hgiven := h (codecGraph (codecArtifacts (ascii "archive"))) _
    (codec_declared (ascii "archive"))
    ⟨ascii "lib", ascii "link", ascii "file", ascii "codec.lib", false, false, true⟩ rfl
  have hpath : targetLinkArtifactPath (codecGraph (codecArtifacts (ascii "archive")))
      (codec (codecArtifacts (ascii "archive"))) = .ok (ascii "extra.a") := rfl
  rw [hpath] at hgiven
  exact absurd (Except.ok.inj hgiven) (by decide)

end QStar.BuildGraph
