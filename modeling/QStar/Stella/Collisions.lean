import QStar.Stella.Keys

/-!
# What equal keys say

The streams that are digested for a key. Two equal keys whose streams do not
collide agree on everything they cover.
-/
namespace QStar.Stella

open QStar.Lib.CStrings
open QStar.Lib.Fnv
open QStar.Lib.Streams
open QStar.Base

/-- What is digested of each input. -/
def fileStreams (set : Setting) (seen : Observation) (inputs : List Bytes) : List Bytes :=
  inputs.map fun rel => fileStream set.buildDir rel (seen rel)

/-- What is digested of all inputs. -/
def inputStream (set : Setting) (seen : Observation) (inputs : List Bytes) : Bytes :=
  ((fileStreams set seen inputs).map digest).flatMap hashStr

/-- The digests among the strings of a key. -/
def keyDigests (set : Setting) (a : Action) (seen : Observation) (inputs depInputs : List Bytes)
    (output : Bytes) : List Bytes :=
  [a.argv.flatMap hashStr, (envStrings set a.env).flatMap hashStr, inputStream set seen inputs,
    inputStream set seen depInputs, a.toolPolicy.flatMap hashStr, hashStr output,
    (a.argv.headD [] :: a.externalTools).flatMap hashStr].map digest

/-- What is digested for a key. -/
def keyStream (set : Setting) (a : Action) (seen : Observation) (inputs depInputs : List Bytes)
    (output : Bytes) : Bytes :=
  ([a.id, a.kind, a.owner] ++ keyDigests set a seen inputs depInputs output).flatMap hashStr

/-- Everything that is digested on the way to a key. -/
def digested (set : Setting) (a : Action) (seen : Observation) (inputs depInputs : List Bytes)
    (output : Bytes) : List Bytes :=
  [keyStream set a seen inputs depInputs output, a.argv.flatMap hashStr,
    (envStrings set a.env).flatMap hashStr, inputStream set seen inputs,
    inputStream set seen depInputs, a.toolPolicy.flatMap hashStr, hashStr output,
    (a.argv.headD [] :: a.externalTools).flatMap hashStr] ++
  fileStreams set seen inputs ++ fileStreams set seen depInputs

theorem inputKey_eq (set : Setting) (seen : Observation) (inputs : List Bytes) :
    inputKey set seen inputs = digest (inputStream set seen inputs) := by
  unfold inputKey inputStream fileStreams
  rw [List.map_map]
  rfl

theorem actionKey_eq (set : Setting) (a : Action) (seen : Observation)
    (inputs depInputs : List Bytes) (output : Bytes) :
    actionKey set a seen inputs depInputs output =
      digest (keyStream set a seen inputs depInputs output) := by
  unfold actionKey keyStrings keyStream keyDigests
  rw [inputKey_eq, inputKey_eq]
  rfl

theorem notMem_of_mem_map_digest {streams : List Bytes} :
    ∀ d ∈ streams.map digest, 255 ∉ d := by
  intro d hd
  obtain ⟨stream, -, rfl⟩ := List.mem_map.mp hd
  exact notMem_digest (by decide) stream

/-- Equal digests of the inputs are digests of the same streams. -/
theorem fileStreams_inj {set set' : Setting} {seen seen' : Observation}
    {inputs inputs' xs ys : List Bytes}
    (hnone : ¬Collide xs ys) (hxs : ∀ x ∈ fileStreams set seen inputs, x ∈ xs)
    (hys : ∀ y ∈ fileStreams set' seen' inputs', y ∈ ys)
    (h : inputStream set seen inputs = inputStream set' seen' inputs') :
    fileStreams set seen inputs = fileStreams set' seen' inputs' :=
  map_digest_inj hnone hxs hys
    (flatMap_terminated_inj notMem_of_mem_map_digest notMem_of_mem_map_digest h)

/-- A key and what it was computed from. -/
structure Material where
  set : Setting
  action : Action
  seen : Observation
  inputs : List Bytes
  depInputs : List Bytes
  output : Bytes

def Material.key (m : Material) : Bytes :=
  actionKey m.set m.action m.seen m.inputs m.depInputs m.output

def Material.digested (m : Material) : List Bytes :=
  Stella.digested m.set m.action m.seen m.inputs m.depInputs m.output

/-- What equal keys without collisions agree on. -/
structure SameMaterial (m n : Material) : Prop where
  argv : m.action.argv.flatMap hashStr = n.action.argv.flatMap hashStr
  env : (envStrings m.set m.action.env).flatMap hashStr =
    (envStrings n.set n.action.env).flatMap hashStr
  inputs : fileStreams m.set m.seen m.inputs = fileStreams n.set n.seen n.inputs
  depInputs : fileStreams m.set m.seen m.depInputs = fileStreams n.set n.seen n.depInputs
  toolPolicy : m.action.toolPolicy.flatMap hashStr = n.action.toolPolicy.flatMap hashStr
  output : m.output = n.output
  externalTools : (m.action.argv.headD [] :: m.action.externalTools).flatMap hashStr =
    (n.action.argv.headD [] :: n.action.externalTools).flatMap hashStr

section Compare

variable {m n : Material}

/-- Equal digests of all parts of a key. -/
theorem sameMaterial_of_digests (hnone : ¬Collide m.digested n.digested)
    (h : keyDigests m.set m.action m.seen m.inputs m.depInputs m.output =
      keyDigests n.set n.action n.seen n.inputs n.depInputs n.output) : SameMaterial m n := by
  have hparts := map_digest_inj hnone (by simp [Material.digested, digested])
    (by simp [Material.digested, digested]) h
  simp only [List.cons.injEq, and_true] at hparts
  obtain ⟨hargv, henv, hinputs, hdeps, htools, houtput, hexternal⟩ := hparts
  refine ⟨hargv, henv, ?_, ?_, htools, terminated_inj houtput, hexternal⟩
  · exact fileStreams_inj hnone (by simp +contextual [Material.digested, digested])
      (by simp +contextual [Material.digested, digested]) hinputs
  · exact fileStreams_inj hnone (by simp +contextual [Material.digested, digested])
      (by simp +contextual [Material.digested, digested]) hdeps

theorem keyStream_eq_of_key (hnone : ¬Collide m.digested n.digested) (h : m.key = n.key) :
    keyStream m.set m.action m.seen m.inputs m.depInputs m.output =
      keyStream n.set n.action n.seen n.inputs n.depInputs n.output := by
  unfold Material.key at h
  rw [actionKey_eq, actionKey_eq] at h
  exact eq_of_not_collide hnone (by simp [Material.digested, digested])
    (by simp [Material.digested, digested]) h

/-- Two equal keys of actions with one id, kind and owner, whose streams do not collide. -/
theorem sameMaterial_of_key (hnone : ¬Collide m.digested n.digested)
    (hid : m.action.id = n.action.id) (hkind : m.action.kind = n.action.kind)
    (howner : m.action.owner = n.action.owner) (h : m.key = n.key) : SameMaterial m n := by
  have hstream := keyStream_eq_of_key hnone h
  unfold keyStream at hstream
  rw [hid, hkind, howner, List.flatMap_append, List.flatMap_append,
    List.append_cancel_left_eq] at hstream
  exact sameMaterial_of_digests hnone
    (flatMap_terminated_inj notMem_of_mem_map_digest notMem_of_mem_map_digest hstream)

end Compare

end QStar.Stella
