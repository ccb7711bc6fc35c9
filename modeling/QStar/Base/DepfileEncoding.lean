import QStar.Base.Depfile
import Mathlib.Data.Nat.Find

/-!
# Depfiles as compilers write them

A compiler lists the prerequisites of an object behind its name and a colon, with spaces and
`#` behind a backslash, `$` doubled and lines continued by a backslash. The reader takes an
escaped space for a separator, keeps both `$` and joins what a bare continuation separates.
-/
namespace QStar.Base

open QStar.Lib.CStrings

variable {α : Type}

/-! ## The reader with all its lists and errors -/

inductive TokenError where
  /-- "qstar: depfile input path too long" -/
  | pathTooLong
  /-- "qstar: depfile-discovered header '%s' is missing" -/
  | headerMissing (token : Bytes)
  deriving DecidableEq, Repr

/-- `push_depfile_token_with_record` onto the inputs and the optional list of all that is parsed -/
def pushTokenWithRecord (root : Bytes) (files : FileTree α)
    (lists : List Bytes × Option (List Bytes)) (token : Bytes) :
    Except TokenError (List Bytes × Option (List Bytes)) :=
  if !isPackageRelative token then .ok lists
  else if 4096 ≤ (fullPathUnderRoot root token).length then .error .pathTooLong
  else if (files (fullPathUnderRoot root token)).isNone then .error (.headerMissing token)
  else .ok (pushUnique lists.1 token, lists.2.map (pushUnique · token))

/-- `qstar_parse_depfile_inputs` on a depfile with the given content -/
def parseDepfileInputs (root : Bytes) (files : FileTree α) (content : Bytes) (inputs : List Bytes)
    (parsed : Option (List Bytes)) : Except TokenError (List Bytes × Option (List Bytes)) :=
  (depfileTokens content).foldlM (pushTokenWithRecord root files) (inputs, parsed)

/-- A token that can be pushed. -/
def Findable (root : Bytes) (files : FileTree α) (token : Bytes) : Prop :=
  (fullPathUnderRoot root token).length < 4096 ∧ files (fullPathUnderRoot root token) ≠ none

theorem pushTokens_eq_ok {root : Bytes} {files : FileTree α} {tokens : List Bytes}
    {lists result : List Bytes × Option (List Bytes)} :
    tokens.foldlM (pushTokenWithRecord root files) lists = .ok result ↔
      (∀ token ∈ tokens.filter (isPackageRelative ·), Findable root files token) ∧
      result = (appendUnique lists.1 (tokens.filter (isPackageRelative ·)),
        lists.2.map (appendUnique · (tokens.filter (isPackageRelative ·)))) := by
  induction tokens generalizing lists with
  | nil =>
    have hsame : lists.2.map (appendUnique · []) = lists.2 := by
      cases lists.2 with
      | none => rfl
      | some parsed => rfl
    rw [List.foldlM_nil, List.filter_nil, hsame]
    constructor
    · intro h
      cases h
      exact ⟨by simp, rfl⟩
    · rintro ⟨-, rfl⟩
      rfl
  | cons token rest ih =>
    rw [List.foldlM_cons]
    by_cases hrel : isPackageRelative token = true
    · rw [List.filter_cons_of_pos hrel, List.forall_mem_cons]
      by_cases hlong : 4096 ≤ (fullPathUnderRoot root token).length
      · have hstep : pushTokenWithRecord root files lists token = .error .pathTooLong := by
          simp [pushTokenWithRecord, hrel, hlong]
        rw [hstep]
        refine iff_of_false (by rintro ⟨⟩) ?_
        rintro ⟨⟨hfound, -⟩, -⟩
        exact absurd hfound.1 (Nat.not_lt.mpr hlong)
      · by_cases hfile : files (fullPathUnderRoot root token) = none
        · have hstep : pushTokenWithRecord root files lists token = .error (.headerMissing token) := by
            simp [pushTokenWithRecord, hrel, hlong, hfile]
          rw [hstep]
          refine iff_of_false (by rintro ⟨⟩) ?_
          rintro ⟨⟨hfound, -⟩, -⟩
          exact hfound.2 hfile
        · have hstep : pushTokenWithRecord root files lists token =
              .ok (pushUnique lists.1 token, lists.2.map (pushUnique · token)) := by
            simp [pushTokenWithRecord, hrel, hlong, hfile]
          have hfound : Findable root files token := ⟨Nat.lt_of_not_le hlong, hfile⟩
          rw [hstep]
          show rest.foldlM (pushTokenWithRecord root files)
            (pushUnique lists.1 token, lists.2.map (pushUnique · token)) = .ok result ↔ _
          rw [ih]
          simp only [hfound, true_and, appendUnique_cons, Option.map_map]
          rfl
    · have hstep : pushTokenWithRecord root files lists token = .ok lists := by
        simp [pushTokenWithRecord, hrel]
      rw [hstep, List.filter_cons_of_neg hrel]
      exact ih

/-- What is read with all lists is read by the inputs alone. -/
theorem parseDepfileContent_of_parseDepfileInputs {root : Bytes} {files : FileTree α}
    {content : Bytes} {inputs : List Bytes} {parsed : Option (List Bytes)}
    {result : List Bytes × Option (List Bytes)}
    (h : parseDepfileInputs root files content inputs parsed = .ok result) :
    parseDepfileContent root files content inputs = .ok result.1 := by
  obtain ⟨hfound, hresult⟩ := pushTokens_eq_ok.mp h
  rw [hresult]
  exact foldlM_pushDepfileToken_ok inputs fun token htoken => (hfound token htoken).2

/-! ## What a compiler writes -/

def encodeByte (c : UInt8) : Bytes :=
  if c = 32 ∨ c = 35 then [92, c] else if c = 36 then [36, 36] else [c]

def encodeName (name : Bytes) : Bytes := name.flatMap encodeByte

/-- What stands before a prerequisite. -/
inductive Space where
  | blank
  | tab
  /-- A backslash and a newline -/
  | continuation
  deriving DecidableEq

def Space.text : Space → Bytes
  | .blank => [32]
  | .tab => [9]
  | .continuation => [92, 10]

def Space.isBlank : Space → Bool
  | .continuation => false
  | _ => true

/-- A depfile of existing prerequisites in some layout, with rules of their own for some of them. -/
structure Encoding (root : Bytes) (files : FileTree α) where
  target : Bytes
  /-- The prerequisites, each with what stands before it. -/
  items : List (List Space × Bytes)
  trailing : List Space
  /-- The rules of `-MP`, each behind a blank line or not. -/
  phony : List (Bool × Bytes)
  target_plain : 58 ∉ target
  separated : ∀ item ∈ items.tail, item.1 ≠ []
  relative : ∀ item ∈ items, isPackageRelative item.2 = true
  present : ∀ item ∈ items, files (fullPathUnderRoot root item.2) ≠ none
  one_line : ∀ item ∈ items, 10 ∉ item.2 ∧ 0 ∉ item.2
  fits : ∀ item ∈ items, item.2.length < 4096
  phony_mem : ∀ rule ∈ phony, ∃ item ∈ items, item.2 = rule.2

namespace Encoding

variable {root : Bytes} {files : FileTree α}

def names (d : Encoding root files) : List Bytes := d.items.map Prod.snd

def spaceText (spaces : List Space) : Bytes := spaces.flatMap Space.text

def itemsText (items : List (List Space × Bytes)) : Bytes :=
  items.flatMap fun item => spaceText item.1 ++ encodeName item.2

def phonyText (phony : List (Bool × Bytes)) : Bytes :=
  phony.flatMap fun rule => (if rule.1 then [10] else []) ++ (encodeName rule.2 ++ [58, 10])

def text (d : Encoding root files) : Bytes :=
  encodeName d.target ++ 58 :: (itemsText d.items ++ (spaceText d.trailing ++ 10 :: phonyText d.phony))

/-! ## The words a reader finds -/

def ended (w : Bytes) : List Bytes := if w = [] then [] else [w]

/-- Names are joined where no blank stands between them: the words that end, and the open one. -/
def joinNames : Bytes → List (List Space × Bytes) → List Bytes × Bytes
  | w, [] => ([], w)
  | w, (spaces, name) :: rest =>
    if spaces.any Space.isBlank then
      (ended w ++ (joinNames name rest).1, (joinNames name rest).2)
    else joinNames (w ++ name) rest

/-- The words, of the list and of the further rules. -/
def words (d : Encoding root files) : List Bytes :=
  (joinNames [] d.items).1 ++ ended (joinNames [] d.items).2 ++ d.phony.map fun rule => rule.2 ++ [58]

/-- A word with both `$` of a pair, as far as the token buffer holds it. -/
def buffered (w : Bytes) : Bytes := (w.flatMap fun c => if c = 36 then [36, 36] else [c]).take 4095

/-- A name without separators. -/
def Unbroken (name : Bytes) : Prop := ∀ c ∈ name, isSeparator c = false

/-! ## Reading piece by piece -/

theorem tokens_plain {c : UInt8} (h : c ≠ 92) (hc : isSeparator c = false) (w rest : Bytes) :
    tokensAfterColon w (c :: rest) = tokensAfterColon (growToken w c) rest := by
  rw [tokensAfterColon]
  · simp [hc]
  · simp [h]
  · simp [h]

theorem tokens_separator {c : UInt8} (h : c ≠ 92) (hc : isSeparator c = true) (w rest : Bytes) :
    tokensAfterColon w (c :: rest) = flushToken w ++ tokensAfterColon [] rest := by
  rw [tokensAfterColon]
  · simp [hc]
  · simp [h]
  · simp [h]

theorem tokens_escaped {c : UInt8} (hc : isSeparator c = false) (w rest : Bytes) :
    tokensAfterColon w (92 :: c :: rest) = tokensAfterColon (growToken w c) rest := by
  have hline : ¬ (c = 10 ∨ c = 13) := by
    rintro (rfl | rfl)
    · cases hc
    · cases hc
  rw [tokensAfterColon, if_neg hline]
  simp [hc]

theorem tokens_continuation (w rest : Bytes) :
    tokensAfterColon w (92 :: 10 :: rest) = tokensAfterColon w rest := by
  rw [tokensAfterColon, if_pos (.inl rfl)]

theorem growToken_take (u : Bytes) (c : UInt8) :
    growToken (u.take 4095) c = (u ++ [c]).take 4095 := by
  unfold growToken
  by_cases h : u.length < 4095
  · have hlen : (u.take 4095).length + 1 < 4096 := by
      rw [List.length_take]
      omega
    rw [if_pos hlen, List.take_of_length_le (by omega), List.take_of_length_le (by simp; omega)]
  · have hlen : ¬ (u.take 4095).length + 1 < 4096 := by
      rw [List.length_take]
      omega
    rw [if_neg hlen, List.take_append_of_le_length (by omega)]

@[simp] theorem buffered_nil : buffered [] = [] := rfl

theorem buffered_eq_nil {w : Bytes} : buffered w = [] ↔ w = [] := by
  constructor
  · intro h
    cases w with
    | nil => rfl
    | cons c w =>
      unfold buffered at h
      rw [List.flatMap_cons] at h
      split at h <;> simp at h
  · rintro rfl
    rfl

theorem growToken_buffered {c : UInt8} (hc : c ≠ 36) (w : Bytes) :
    growToken (buffered w) c = buffered (w ++ [c]) := by
  rw [buffered, growToken_take, buffered, List.flatMap_append]
  simp [hc]

theorem growToken_dollar (w : Bytes) :
    growToken (growToken (buffered w) 36) 36 = buffered (w ++ [36]) := by
  rw [buffered, growToken_take, growToken_take, buffered, List.flatMap_append, List.append_assoc]
  rfl

theorem mem_buffered {w : Bytes} {c : UInt8} (h : c ∈ buffered w) : c ∈ w := by
  obtain ⟨b, hb, hc⟩ := List.mem_flatMap.mp (List.mem_of_mem_take h)
  split at hc
  · rename_i hdollar
    have heq : c = 36 := by simpa using hc
    rwa [heq, ← hdollar]
  · rwa [List.mem_singleton.mp hc]

theorem flushToken_buffered {w : Bytes} (h : 0 ∉ w) : flushToken (buffered w) = (ended w).map buffered := by
  unfold flushToken ended
  by_cases hw : w = []
  · rw [if_pos hw, if_pos (buffered_eq_nil.mpr hw)]
    rfl
  · rw [if_neg hw, if_neg fun hb => hw (buffered_eq_nil.mp hb),
      cString_eq_self fun hmem => h (mem_buffered hmem)]
    rfl

/-- An unbroken name continues the open word. -/
theorem tokens_name {p : Bytes} (hslash : 92 ∉ p) (hp : Unbroken p) (w rest : Bytes) :
    tokensAfterColon (buffered w) (encodeName p ++ rest) = tokensAfterColon (buffered (w ++ p)) rest := by
  induction p generalizing w with
  | nil => simp [encodeName]
  | cons c p ih =>
    obtain ⟨hc, hslash⟩ := not_or.mp fun hmem => hslash (List.mem_cons.mpr hmem)
    have hsep : isSeparator c = false := hp c List.mem_cons_self
    have hrest := ih hslash (fun b hb => hp b (List.mem_cons_of_mem _ hb)) (w ++ [c])
    have hjoin : w ++ c :: p = w ++ [c] ++ p := by simp
    have hstep : tokensAfterColon (buffered w) (encodeByte c ++ (encodeName p ++ rest)) =
        tokensAfterColon (buffered (w ++ [c])) (encodeName p ++ rest) := by
      unfold encodeByte
      by_cases hescaped : c = 32 ∨ c = 35
      · have hdollar : c ≠ 36 := by
          rintro rfl
          revert hescaped
          decide
        rw [if_pos hescaped, ← growToken_buffered hdollar]
        exact tokens_escaped hsep _ _
      · rw [if_neg hescaped]
        by_cases hdollar : c = 36
        · subst hdollar
          rw [if_pos rfl, ← growToken_dollar]
          exact (tokens_plain (by decide) hsep _ _).trans (tokens_plain (by decide) hsep _ _)
        · rw [if_neg hdollar, ← growToken_buffered hdollar]
          exact tokens_plain (Ne.symm hc) hsep _ _
    calc tokensAfterColon (buffered w) (encodeName (c :: p) ++ rest)
        = tokensAfterColon (buffered w) (encodeByte c ++ (encodeName p ++ rest)) := by simp [encodeName]
      _ = tokensAfterColon (buffered (w ++ [c])) (encodeName p ++ rest) := hstep
      _ = tokensAfterColon (buffered (w ++ c :: p)) rest := by rw [hrest, hjoin]

/-- Only a blank or a tab ends the open word. -/
theorem tokens_spaces (spaces : List Space) (w rest : Bytes) :
    tokensAfterColon w (spaceText spaces ++ rest) =
      if spaces.any Space.isBlank then flushToken w ++ tokensAfterColon [] rest
      else tokensAfterColon w rest := by
  induction spaces generalizing w with
  | nil => rfl
  | cons space spaces ih =>
    have hclosed : tokensAfterColon [] (spaceText spaces ++ rest) = tokensAfterColon [] rest := by
      rw [ih]
      split <;> rfl
    have htext : spaceText (space :: spaces) ++ rest = space.text ++ (spaceText spaces ++ rest) := by
      simp [spaceText]
    rw [htext]
    cases space with
    | blank =>
      refine (tokens_separator (by decide) (by decide) w (spaceText spaces ++ rest)).trans ?_
      rw [hclosed]
      rfl
    | tab =>
      refine (tokens_separator (by decide) (by decide) w (spaceText spaces ++ rest)).trans ?_
      rw [hclosed]
      rfl
    | continuation =>
      refine (tokens_continuation w (spaceText spaces ++ rest)).trans ?_
      rw [ih]
      rfl

/-- The list is read as its joined names, the last of them open. -/
theorem tokens_items {items : List (List Space × Bytes)} {w : Bytes} (hw : 0 ∉ w)
    (hitems : ∀ item ∈ items, 92 ∉ item.2 ∧ 0 ∉ item.2 ∧ Unbroken item.2) (rest : Bytes) :
    tokensAfterColon (buffered w) (itemsText items ++ rest) =
      (joinNames w items).1.map buffered ++ tokensAfterColon (buffered (joinNames w items).2) rest := by
  induction items generalizing w with
  | nil => rfl
  | cons item items ih =>
    obtain ⟨spaces, name⟩ := item
    obtain ⟨⟨hslash, hname, hun⟩, hrest⟩ := List.forall_mem_cons.mp hitems
    have htext : itemsText ((spaces, name) :: items) ++ rest =
        spaceText spaces ++ (encodeName name ++ (itemsText items ++ rest)) := by
      simp [itemsText]
    rw [htext, tokens_spaces, joinNames]
    split
    · have hread := tokens_name hslash hun [] (itemsText items ++ rest)
      rw [buffered_nil, List.nil_append] at hread
      rw [hread, ih hname hrest, flushToken_buffered hw, List.map_append, List.append_assoc]
    · have hopen : 0 ∉ w ++ name := by
        rw [List.mem_append]
        exact not_or.mpr ⟨hw, hname⟩
      rw [tokens_name hslash hun, ih hopen hrest]

theorem joinNames_open {items : List (List Space × Bytes)} {w : Bytes} {c : UInt8} (hw : c ∉ w)
    (hitems : ∀ item ∈ items, c ∉ item.2) : c ∉ (joinNames w items).2 := by
  induction items generalizing w with
  | nil => exact hw
  | cons item items ih =>
    obtain ⟨spaces, name⟩ := item
    obtain ⟨hname, hrest⟩ := List.forall_mem_cons.mp hitems
    rw [joinNames]
    split
    · exact ih hname hrest
    · refine ih ?_ hrest
      rw [List.mem_append]
      exact not_or.mpr ⟨hw, hname⟩

/-- A rule of its own is read as one word with its colon. -/
theorem tokens_phony {phony : List (Bool × Bytes)}
    (hphony : ∀ rule ∈ phony, 92 ∉ rule.2 ∧ 0 ∉ rule.2 ∧ Unbroken rule.2) :
    tokensAfterColon [] (phonyText phony) = phony.map fun rule => buffered (rule.2 ++ [58]) := by
  induction phony with
  | nil => rfl
  | cons rule phony ih =>
    obtain ⟨blank, name⟩ := rule
    obtain ⟨⟨hslash, hname, hun⟩, hrest⟩ := List.forall_mem_cons.mp hphony
    have hopen : 0 ∉ name ++ [58] := by
      rw [List.mem_append]
      exact not_or.mpr ⟨hname, by decide⟩
    have hended : ended (name ++ [58]) = [name ++ [58]] := if_neg (by simp)
    have hname : tokensAfterColon [] (encodeName name ++ (58 :: 10 :: phonyText phony)) =
        buffered (name ++ [58]) :: tokensAfterColon [] (phonyText phony) := by
      have hread := tokens_name hslash hun [] (58 :: 10 :: phonyText phony)
      rw [buffered_nil, List.nil_append] at hread
      rw [hread, tokens_plain (by decide) (by decide), growToken_buffered (by decide),
        tokens_separator (by decide) (by decide), flushToken_buffered hopen, hended]
      rfl
    have hblank : tokensAfterColon [] ((if blank then [10] else []) ++
          (encodeName name ++ (58 :: 10 :: phonyText phony))) =
        tokensAfterColon [] (encodeName name ++ (58 :: 10 :: phonyText phony)) := by
      cases blank with
      | false => rfl
      | true => exact tokens_separator (by decide) (by decide) [] _
    have htext : phonyText ((blank, name) :: phony) =
        (if blank then [10] else []) ++ (encodeName name ++ (58 :: 10 :: phonyText phony)) := by
      simp [phonyText]
    rw [htext, hblank, hname, ih hrest, List.map_cons]

theorem colon_notMem_encodeName {target : Bytes} (h : 58 ∉ target) : 58 ∉ encodeName target := by
  intro hmem
  obtain ⟨c, hc, hbyte⟩ := List.mem_flatMap.mp hmem
  unfold encodeByte at hbyte
  split at hbyte
  · rcases List.mem_cons.mp hbyte with heq | heq
    · exact absurd heq (by decide)
    · exact h (List.mem_singleton.mp heq ▸ hc)
  · split at hbyte
    · simp at hbyte
    · exact h (List.mem_singleton.mp hbyte ▸ hc)

theorem depfileTokens_text (d : Encoding root files) :
    depfileTokens d.text = tokensAfterColon []
      (itemsText d.items ++ (spaceText d.trailing ++ 10 :: phonyText d.phony)) := by
  have hskip : (d.text.dropWhile (· ≠ 58)) =
      58 :: (itemsText d.items ++ (spaceText d.trailing ++ 10 :: phonyText d.phony)) := by
    unfold text
    rw [List.dropWhile_append_of_pos]
    · rfl
    · intro c hc
      have hne : c ≠ 58 := by
        rintro rfl
        exact colon_notMem_encodeName d.target_plain hc
      simpa using hne
  rw [depfileTokens, hskip]
  rfl

theorem slash_of_relative {name : Bytes} (h : isPackageRelative name = true) : 92 ∉ name ∧ 58 ∉ name := by
  have hall : (name.any fun c => decide (c = 92) || decide (c = 58)) = false := by
    simp only [isPackageRelative, Bool.and_eq_true, Bool.not_eq_true'] at h
    tauto
  rw [List.any_eq_false] at hall
  constructor
  · intro hmem
    exact hall 92 hmem (by decide)
  · intro hmem
    exact hall 58 hmem (by decide)

/-- Unbroken prerequisites are read as the words of their layout. -/
theorem depfileTokens_words (d : Encoding root files) (h : ∀ p ∈ d.names, Unbroken p) :
    depfileTokens d.text = d.words.map buffered := by
  have hitems : ∀ item ∈ d.items, 92 ∉ item.2 ∧ 0 ∉ item.2 ∧ Unbroken item.2 := fun item hitem =>
    ⟨(slash_of_relative (d.relative item hitem)).1, (d.one_line item hitem).2,
      h item.2 (List.mem_map_of_mem hitem)⟩
  have hphony : ∀ rule ∈ d.phony, 92 ∉ rule.2 ∧ 0 ∉ rule.2 ∧ Unbroken rule.2 := by
    intro rule hrule
    obtain ⟨item, hitem, heq⟩ := d.phony_mem rule hrule
    exact heq ▸ hitems item hitem
  have hopen : 0 ∉ (joinNames [] d.items).2 :=
    joinNames_open List.not_mem_nil fun item hitem => (d.one_line item hitem).2
  have hline : tokensAfterColon (buffered (joinNames [] d.items).2)
        (spaceText d.trailing ++ 10 :: phonyText d.phony) =
      flushToken (buffered (joinNames [] d.items).2) ++ tokensAfterColon [] (phonyText d.phony) := by
    rw [tokens_spaces, tokens_separator (by decide) (by decide), tokens_separator (by decide) (by decide)]
    split <;> rfl
  rw [depfileTokens_text, show ([] : Bytes) = buffered [] from rfl, tokens_items List.not_mem_nil hitems,
    hline, flushToken_buffered hopen, tokens_phony hphony, words, List.map_append, List.map_append,
    List.map_map, List.append_assoc]
  rfl

/-- No token holds a separator. -/
theorem tokens_unbroken {w s : Bytes} (hw : Unbroken w) : ∀ t ∈ tokensAfterColon w s, Unbroken t := by
  have hflush : ∀ {w : Bytes}, Unbroken w → ∀ t ∈ flushToken w, Unbroken t := by
    intro w hw t ht c hc
    unfold flushToken at ht
    split at ht
    · cases ht
    · rw [List.mem_singleton.mp ht] at hc
      exact hw c ((List.takeWhile_prefix _).sublist.mem hc)
  have hgrow : ∀ {w : Bytes} {c : UInt8}, Unbroken w → ¬ isSeparator c = true →
      Unbroken (growToken w c) := by
    intro w c hw hc b hb
    unfold growToken at hb
    split at hb
    · rcases List.mem_append.mp hb with hb | hb
      · exact hw b hb
      · exact List.mem_singleton.mp hb ▸ Bool.not_eq_true _ ▸ hc
    · exact hw b hb
  have hnil : Unbroken [] := fun c hc => absurd hc List.not_mem_nil
  fun_induction tokensAfterColon w s with
  | case1 w => exact hflush hw
  | case2 w => exact hflush hw
  | case3 w c rest hc ih => exact ih hw
  | case4 w c rest hc hsep ih =>
    intro t ht
    rcases List.mem_append.mp ht with ht | ht
    · exact hflush hw t ht
    · exact ih hnil t ht
  | case5 w c rest hc hsep ih => exact ih (hgrow hw hsep)
  | case6 w c rest _ _ hsep ih =>
    intro t ht
    rcases List.mem_append.mp ht with ht | ht
    · exact hflush hw t ht
    · exact ih hnil t ht
  | case7 w c rest _ _ hsep ih => exact ih (hgrow hw hsep)

/-! ## When the prerequisites are read -/

/-- The words hold the prerequisites in their order, and no other input. -/
def WordsAreNames (d : Encoding root files) : Prop :=
  appendUnique [] ((d.words.map buffered).filter (isPackageRelative ·)) = appendUnique [] d.names

theorem relative_of_mem_names {d : Encoding root files} {p : Bytes} (h : p ∈ d.names) :
    isPackageRelative p = true ∧ files (fullPathUnderRoot root p) ≠ none := by
  obtain ⟨item, hitem, rfl⟩ := List.mem_map.mp h
  exact ⟨d.relative item hitem, d.present item hitem⟩

theorem joinNames_blank {items : List (List Space × Bytes)}
    (hgaps : ∀ item ∈ items, item.1.any Space.isBlank = true) (hnames : ∀ item ∈ items, item.2 ≠ [])
    {w : Bytes} (hw : w ≠ []) :
    (joinNames w items).1 ++ ended (joinNames w items).2 = w :: items.map Prod.snd := by
  induction items generalizing w with
  | nil => simp [joinNames, ended, hw]
  | cons item items ih =>
    obtain ⟨spaces, name⟩ := item
    obtain ⟨hgap, hgaps⟩ := List.forall_mem_cons.mp hgaps
    obtain ⟨hname, hnames⟩ := List.forall_mem_cons.mp hnames
    have hended : ended w = [w] := if_neg hw
    rw [joinNames, if_pos hgap, List.append_assoc, ih hgaps hnames hname, hended]
    rfl

theorem ne_nil_of_relative {name : Bytes} (h : isPackageRelative name = true) : name ≠ [] := by
  rintro rfl
  cases h

/-- Blanks in all gaps keep the prerequisites apart. -/
theorem words_blank {d : Encoding root files}
    (hgaps : ∀ item ∈ d.items.tail, item.1.any Space.isBlank = true) :
    d.words = d.names ++ d.phony.map fun rule => rule.2 ++ [58] := by
  have hnames : ∀ item ∈ d.items, item.2 ≠ [] := fun item hitem =>
    ne_nil_of_relative (d.relative item hitem)
  unfold words names
  cases hitems : d.items with
  | nil => rfl
  | cons item items =>
    rw [hitems] at hgaps hnames
    obtain ⟨spaces, name⟩ := item
    obtain ⟨hname, hnames⟩ := List.forall_mem_cons.mp hnames
    have hlist : (joinNames name items).1 ++ ended (joinNames name items).2 =
        name :: items.map Prod.snd := joinNames_blank hgaps hnames hname
    have hfirst : joinNames [] ((spaces, name) :: items) = joinNames name items := by
      rw [joinNames]
      split <;> rfl
    rw [hfirst, hlist]
    rfl

theorem buffered_of_plain {w : Bytes} (h : 36 ∉ w) : buffered w = w.take 4095 := by
  have hflat : (w.flatMap fun c => if c = 36 then [36, 36] else [c]) = w := by
    induction w with
    | nil => rfl
    | cons c w ih =>
      obtain ⟨hc, hw⟩ := not_or.mp fun hmem => h (List.mem_cons.mpr hmem)
      rw [List.flatMap_cons, ih hw, if_neg (Ne.symm hc)]
      rfl
  rw [buffered, hflat]

/-- It is enough that no prerequisite holds a `$` and that no gap is a bare continuation. -/
theorem wordsAreNames_of_plain {d : Encoding root files}
    (hgaps : ∀ item ∈ d.items.tail, item.1.any Space.isBlank = true)
    (hdollar : ∀ p ∈ d.names, 36 ∉ p) : d.WordsAreNames := by
  have hfits : ∀ p ∈ d.names, p.length < 4096 := by
    intro p hp
    obtain ⟨item, hitem, rfl⟩ := List.mem_map.mp hp
    exact d.fits item hitem
  have hphony : ∀ rule ∈ d.phony, rule.2 ∈ d.names := by
    intro rule hrule
    obtain ⟨item, hitem, heq⟩ := d.phony_mem rule hrule
    exact heq ▸ List.mem_map_of_mem hitem
  have hlist : (d.names.map buffered).filter (isPackageRelative ·) = d.names := by
    have hsame : d.names.map buffered = d.names := by
      refine (List.map_congr_left fun p hp => ?_).trans d.names.map_id
      rw [buffered_of_plain (hdollar p hp), List.take_of_length_le (Nat.le_of_lt_succ (hfits p hp))]
      rfl
    rw [hsame]
    refine List.filter_eq_self.mpr fun p hp => ?_
    simpa using (relative_of_mem_names hp).1
  have hrules : ∀ p ∈ ((d.phony.map fun rule => rule.2 ++ [58]).map buffered).filter
      (isPackageRelative ·), p ∈ appendUnique [] d.names := by
    intro p hp
    obtain ⟨hmem, hrel⟩ := List.mem_filter.mp hp
    obtain ⟨w, hw, rfl⟩ := List.mem_map.mp hmem
    obtain ⟨rule, hrule, rfl⟩ := List.mem_map.mp hw
    have hname := hphony rule hrule
    have hplain : 36 ∉ rule.2 ++ [58] := by
      rw [List.mem_append]
      exact not_or.mpr ⟨hdollar rule.2 hname, by decide⟩
    rw [buffered_of_plain hplain] at hrel ⊢
    -- A word that keeps its colon is no input.
    by_cases hshort : rule.2.length < 4095
    · rw [List.take_of_length_le (by simp; omega)] at hrel
      exact absurd (by simp) (slash_of_relative hrel).2
    · have hlen := hfits rule.2 hname
      have hcut : (rule.2 ++ [58]).take 4095 = rule.2 := by
        rw [List.take_append_of_le_length (by omega), List.take_of_length_le (by omega)]
      rw [hcut]
      exact mem_appendUnique.mpr (.inr hname)
  rw [WordsAreNames, words_blank hgaps, List.map_append, List.filter_append, hlist,
    appendUnique_append, appendUnique_of_subset hrules]

theorem count_flatMap_dollar (w : Bytes) :
    (w.flatMap fun c => if c = 36 then [36, 36] else [c]).count 36 = 2 * w.count 36 := by
  induction w with
  | nil => rfl
  | cons c w ih =>
    rw [List.flatMap_cons, List.count_append, ih, List.count_cons]
    by_cases hc : c = 36
    · simp [hc]
      omega
    · simp [hc]

theorem joinNames_mem {P : Bytes → Prop} (hjoin : ∀ w name, P w → P name → P (w ++ name))
    {items : List (List Space × Bytes)} {w : Bytes} (hw : P w) (hitems : ∀ item ∈ items, P item.2) :
    (∀ v ∈ (joinNames w items).1, P v) ∧ P (joinNames w items).2 := by
  induction items generalizing w with
  | nil => exact ⟨by simp [joinNames], hw⟩
  | cons item items ih =>
    obtain ⟨spaces, name⟩ := item
    obtain ⟨hname, hrest⟩ := List.forall_mem_cons.mp hitems
    rw [joinNames]
    split
    · refine ⟨?_, (ih hname hrest).2⟩
      intro v hv
      rcases List.mem_append.mp hv with hv | hv
      · unfold ended at hv
        split at hv
        · cases hv
        · exact List.mem_singleton.mp hv ▸ hw
      · exact (ih hname hrest).1 v hv
    · exact ih (hjoin w name hw hname) hrest

/-- Of prerequisites shorter than the token buffer none may hold a `$`: the one with the fewest
would have to be read out of half as many. -/
theorem plain_of_wordsAreNames {d : Encoding root files} (h : d.WordsAreNames)
    (hshort : ∀ p ∈ d.names, p.length < 4095) : ∀ p ∈ d.names, 36 ∉ p := by
  by_contra hdollar
  push Not at hdollar
  have hex : ∃ n, ∃ p ∈ d.names, 36 ∈ p ∧ p.count 36 = n := by
    obtain ⟨p, hp, hmem⟩ := hdollar
    exact ⟨_, p, hp, hmem, rfl⟩
  classical
  obtain ⟨p, hp, hmem, hcount⟩ := Nat.find_spec hex
  have hleast : ∀ q ∈ d.names, 36 ∈ q → p.count 36 ≤ q.count 36 := fun q hq hqmem =>
    hcount ▸ Nat.find_min' hex ⟨q, hq, hqmem, rfl⟩
  have hpos : 0 < p.count 36 := List.count_pos_iff.mpr hmem
  -- Every word has no `$` or at least as many as the prerequisite with the fewest.
  let Enough : Bytes → Prop := fun w => 36 ∈ w → p.count 36 ≤ w.count 36
  have hjoin : ∀ w name, Enough w → Enough name → Enough (w ++ name) := by
    intro w name hw hname hboth
    rw [List.count_append]
    rcases List.mem_append.mp hboth with hin | hin
    · have hle := hw hin
      omega
    · have hle := hname hin
      omega
  have hitems : ∀ item ∈ d.items, Enough item.2 := fun item hitem =>
    hleast item.2 (List.mem_map_of_mem hitem)
  obtain ⟨hclosed, hopen⟩ := joinNames_mem hjoin (w := [])
    (fun hin => absurd hin List.not_mem_nil) hitems
  have hwords : ∀ w ∈ d.words, Enough w := by
    intro w hw
    rcases List.mem_append.mp hw with hw | hw
    · rcases List.mem_append.mp hw with hw | hw
      · exact hclosed w hw
      · unfold ended at hw
        split at hw
        · cases hw
        · exact List.mem_singleton.mp hw ▸ hopen
    · obtain ⟨rule, hrule, rfl⟩ := List.mem_map.mp hw
      obtain ⟨item, hitem, heq⟩ := d.phony_mem rule hrule
      refine hjoin _ _ (heq ▸ hitems item hitem) ?_
      intro hin
      exact absurd hin (by decide)
  have hread : p ∈ appendUnique [] ((d.words.map buffered).filter (isPackageRelative ·)) := by
    rw [h]
    exact mem_appendUnique.mpr (.inr hp)
  have htoken := (mem_appendUnique.mp hread).resolve_left List.not_mem_nil
  obtain ⟨w, hw, hbuffered⟩ := List.mem_map.mp (List.mem_filter.mp htoken).1
  have hwhole : (w.flatMap fun c => if c = 36 then [36, 36] else [c]) = p := by
    have hlen := hshort p hp
    rw [← hbuffered, buffered, List.length_take] at hlen
    rw [← hbuffered, buffered, List.take_of_length_le (by omega)]
  have hdouble : p.count 36 = 2 * w.count 36 := by
    rw [← hwhole, count_flatMap_dollar]
  have hin : 36 ∈ w := List.count_pos_iff.mp (by omega)
  have hle := hwords w hw hin
  omega

/-- The prerequisites are read exactly when none holds a separator or has too long a path and the
words are the prerequisites. -/
theorem parse_encoding_iff (d : Encoding root files) :
    (∀ inputs parsed, parseDepfileInputs root files d.text inputs parsed =
      .ok (appendUnique inputs d.names, parsed.map (appendUnique · d.names))) ↔
    (∀ p ∈ d.names, Unbroken p ∧ (fullPathUnderRoot root p).length < 4096) ∧ d.WordsAreNames := by
  constructor
  · intro h
    obtain ⟨hfound, hresult⟩ := pushTokens_eq_ok.mp (h [] none)
    have hlist : appendUnique [] d.names =
        appendUnique [] ((depfileTokens d.text).filter (isPackageRelative ·)) :=
      congrArg Prod.fst hresult
    have htoken : ∀ p ∈ d.names, p ∈ (depfileTokens d.text).filter (isPackageRelative ·) := by
      intro p hp
      have hmem : p ∈ appendUnique [] d.names := mem_appendUnique.mpr (.inr hp)
      rw [hlist] at hmem
      exact (mem_appendUnique.mp hmem).resolve_left List.not_mem_nil
    have hunbroken : ∀ p ∈ d.names, Unbroken p := by
      intro p hp
      have hnil : Unbroken [] := fun c hc => absurd hc List.not_mem_nil
      exact tokens_unbroken hnil p (List.mem_filter.mp (htoken p hp)).1
    refine ⟨fun p hp => ⟨hunbroken p hp, (hfound p (htoken p hp)).1⟩, ?_⟩
    rw [WordsAreNames, ← depfileTokens_words d hunbroken, hlist]
  · rintro ⟨hnames, hwords⟩ inputs parsed
    have hread := depfileTokens_words d fun p hp => (hnames p hp).1
    have hsame : ∀ xs, appendUnique xs ((depfileTokens d.text).filter (isPackageRelative ·)) =
        appendUnique xs d.names := by
      intro xs
      have hpushed := appendUnique_appendUnique xs [] d.names
      rw [← hwords, ← hread, appendUnique_appendUnique] at hpushed
      exact hpushed
    refine pushTokens_eq_ok.mpr ⟨?_, ?_⟩
    · intro token htoken
      have hmem : token ∈ appendUnique [] d.names := by
        rw [← hsame]
        exact mem_appendUnique.mpr (.inr htoken)
      have hname := (mem_appendUnique.mp hmem).resolve_left List.not_mem_nil
      exact ⟨(hnames token hname).2, (relative_of_mem_names hname).2⟩
    · rw [hsame]
      cases parsed with
      | none => rfl
      | some parsed => simp only [Option.map_some, hsame]

/-- `src/a\ b.h` is looked for as `src/a`. -/
theorem escaped_space_ends_token :
    ∃ d : Encoding (α := Unit) [] (fun path => if path = ascii "src/a b.h" then some () else none),
      d.names = [ascii "src/a b.h"] ∧ d.text = ascii "a.o: src/a\\ b.h\n" ∧
      parseDepfileInputs [] (fun path => if path = ascii "src/a b.h" then some () else none) d.text [] none =
        .error (.headerMissing (ascii "src/a")) := by
  refine ⟨{ target := ascii "a.o", items := [([.blank], ascii "src/a b.h")], trailing := [],
            phony := [], target_plain := ?_, separated := ?_, relative := ?_, present := ?_,
            one_line := ?_, fits := ?_, phony_mem := ?_ }, ?_, ?_, ?_⟩
  all_goals decide

end Encoding

end QStar.Base
