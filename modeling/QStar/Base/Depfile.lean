import QStar.Base.Paths
import QStar.Base.StringLists

/-!
# Depfiles

Reading the inputs a compiler lists in a Make-style depfile. A listed
package-relative path that no longer exists is an error; anything else that is
not package-relative is skipped.
-/
namespace QStar.Base

open QStar.Lib.CStrings

def isSeparator (c : UInt8) : Bool := c = 32 || c = 9 || c = 10 || c = 13

/-- The finished token, if there is one. -/
def flushToken (token : Bytes) : List Bytes := if token = [] then [] else [cString token]

/-- One more byte of a token; the buffer holds 4095. -/
def growToken (token : Bytes) (c : UInt8) : Bytes :=
  if token.length + 1 < 4096 then token ++ [c] else token

/-- The reading loop of `qstar_parse_depfile_inputs` after the first colon. -/
def tokensAfterColon : Bytes → Bytes → List Bytes
  | token, [] => flushToken token
  | token, 92 :: [] => flushToken token
  | token, 92 :: c :: rest =>
    if c = 10 ∨ c = 13 then tokensAfterColon token rest
    else if isSeparator c then flushToken token ++ tokensAfterColon [] rest
    else tokensAfterColon (growToken token c) rest
  | token, c :: rest =>
    if isSeparator c then flushToken token ++ tokensAfterColon [] rest
    else tokensAfterColon (growToken token c) rest

/-- All tokens of a depfile. -/
def depfileTokens (content : Bytes) : List Bytes :=
  tokensAfterColon [] ((content.dropWhile (· ≠ 58)).drop 1)

/-- The tokens that count as inputs. -/
def listedInputs (content : Bytes) : List Bytes :=
  (depfileTokens content).filter fun token => isPackageRelative token

/-- "qstar: depfile-discovered header '%s' is missing" -/
inductive DepfileError where
  | headerMissing (token : Bytes)
  deriving DecidableEq, Repr

variable {α : Type}

/-- `push_depfile_token` -/
def pushDepfileToken (root : Bytes) (files : FileTree α) (inputs : List Bytes) (token : Bytes) :
    Except DepfileError (List Bytes) :=
  if !isPackageRelative token then .ok inputs
  else if (files (fullPathUnderRoot root token)).isNone then .error (.headerMissing token)
  else .ok (pushUnique inputs token)

/-- `qstar_parse_depfile_inputs` on a depfile with the given content. -/
def parseDepfileContent (root : Bytes) (files : FileTree α) (content : Bytes)
    (inputs : List Bytes) : Except DepfileError (List Bytes) :=
  (depfileTokens content).foldlM (pushDepfileToken root files) inputs

/-- A listed input that is not there. -/
def ListsMissing (root : Bytes) (files : FileTree α) (content : Bytes) : Prop :=
  ∃ token ∈ listedInputs content, files (fullPathUnderRoot root token) = none

instance (root : Bytes) (files : FileTree α) (content : Bytes) :
    Decidable (ListsMissing root files content) :=
  decidable_of_iff (∃ token ∈ listedInputs content,
    (files (fullPathUnderRoot root token)).isNone = true) (by simp [ListsMissing])

/-- Pushing tokens ends at the first that is missing. -/
theorem foldlM_pushDepfileToken (root : Bytes) (files : FileTree α) (tokens inputs : List Bytes) :
    tokens.foldlM (pushDepfileToken root files) inputs =
      match (tokens.filter (isPackageRelative ·)).find? fun token =>
        (files (fullPathUnderRoot root token)).isNone with
      | some token => .error (.headerMissing token)
      | none => .ok (appendUnique inputs (tokens.filter (isPackageRelative ·))) := by
  induction tokens generalizing inputs with
  | nil => rfl
  | cons token rest ih =>
    by_cases hrel : isPackageRelative token = true
    · cases hfile : (files (fullPathUnderRoot root token)).isNone with
      | true =>
        have hstep : pushDepfileToken root files inputs token = .error (.headerMissing token) := by
          simp [pushDepfileToken, hrel, hfile]
        rw [List.foldlM_cons, hstep, List.filter_cons_of_pos hrel, List.find?_cons, hfile]
        rfl
      | false =>
        have hstep : pushDepfileToken root files inputs token = .ok (pushUnique inputs token) := by
          simp [pushDepfileToken, hrel, hfile]
        rw [List.foldlM_cons, hstep, List.filter_cons_of_pos hrel,
          List.find?_cons_of_neg (by simp [hfile]), appendUnique_cons]
        exact ih (pushUnique inputs token)
    · have hstep : pushDepfileToken root files inputs token = .ok inputs := by
        simp [pushDepfileToken, hrel]
      rw [List.foldlM_cons, hstep, List.filter_cons_of_neg hrel]
      exact ih inputs

theorem foldlM_pushDepfileToken_ok {root : Bytes} {files : FileTree α} {tokens : List Bytes}
    (inputs : List Bytes)
    (h : ∀ token ∈ tokens.filter (isPackageRelative ·), files (fullPathUnderRoot root token) ≠ none) :
    tokens.foldlM (pushDepfileToken root files) inputs =
      .ok (appendUnique inputs (tokens.filter (isPackageRelative ·))) := by
  have hnone : (tokens.filter (isPackageRelative ·)).find? (fun token =>
      (files (fullPathUnderRoot root token)).isNone) = none := by
    refine List.find?_eq_none.mpr fun token htoken => ?_
    simpa using h token htoken
  rw [foldlM_pushDepfileToken, hnone]

theorem foldlM_pushDepfileToken_error {root : Bytes} {files : FileTree α} {tokens : List Bytes}
    (inputs : List Bytes)
    (h : ∃ token ∈ tokens.filter (isPackageRelative ·), files (fullPathUnderRoot root token) = none) :
    ∃ token, tokens.foldlM (pushDepfileToken root files) inputs = .error (.headerMissing token) := by
  obtain ⟨missing, hmem, hnone⟩ := h
  rw [foldlM_pushDepfileToken]
  cases hfind : (tokens.filter (isPackageRelative ·)).find? (fun token =>
      (files (fullPathUnderRoot root token)).isNone) with
  | none => exact absurd (by simp [hnone]) (List.find?_eq_none.mp hfind missing hmem)
  | some token => exact ⟨token, rfl⟩

/-- Pushing the inputs of a depfile without repetition is pushing its tokens. -/
theorem foldlM_pushDepfileToken_unique (root : Bytes) (files : FileTree α) (tokens inputs : List Bytes) :
    (appendUnique [] (tokens.filter (isPackageRelative ·))).foldlM (pushDepfileToken root files) inputs =
      tokens.foldlM (pushDepfileToken root files) inputs := by
  have hall : (appendUnique [] (tokens.filter (isPackageRelative ·))).filter (isPackageRelative ·) =
      appendUnique [] (tokens.filter (isPackageRelative ·)) := by
    refine List.filter_eq_self.mpr fun token htoken => ?_
    rw [mem_appendUnique] at htoken
    simpa using (List.mem_filter.mp (htoken.resolve_left List.not_mem_nil)).2
  rw [foldlM_pushDepfileToken, foldlM_pushDepfileToken, hall, find?_appendUnique,
    appendUnique_appendUnique]
  rfl

/-- A depfile is read successfully exactly when every listed input exists. -/
theorem parseDepfileContent_ok {root : Bytes} {files : FileTree α} {content : Bytes}
    (inputs : List Bytes) (h : ¬ ListsMissing root files content) :
    parseDepfileContent root files content inputs =
      .ok (appendUnique inputs (listedInputs content)) := by
  refine foldlM_pushDepfileToken_ok inputs ?_
  intro token htoken hnone
  exact h ⟨token, htoken, hnone⟩

theorem parseDepfileContent_error {root : Bytes} {files : FileTree α} {content : Bytes}
    (inputs : List Bytes) (h : ListsMissing root files content) :
    ∃ token, parseDepfileContent root files content inputs = .error (.headerMissing token) :=
  foldlM_pushDepfileToken_error inputs h

end QStar.Base
