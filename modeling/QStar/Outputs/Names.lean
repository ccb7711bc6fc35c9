import QStar.Lowering.Objects
import QStar.Testing.Lifecycle

/-!
# Names in the build directory

The files of a target and of its actions lie in three directories of the build
directory, under names that start with the mangled label of their owner. What follows
the label never hides the end of another label, so that names of labels which mangle
apart are apart.
-/
namespace QStar.Outputs

open QStar.Lib.CStrings
open QStar.Lib.Numerals
open QStar.Lib.Streams
open QStar.Base
open QStar.BuildGraph
open QStar.Lowering

/-! ## Action names -/

/-- What tells the actions of one owner apart: the kind and the number in their ids. -/
inductive ActionName where
  | process (shape : IdShape)
  | test (phase : Testing.Phase) (attempt : Nat)

/-- The final actions, and the commands. -/
def processKinds : List Bytes := processFinals ++ [ascii "generate", ascii "run"]

def ActionName.Valid : ActionName → Prop
  | .process (.final kind) => kind ∈ processKinds
  | _ => True

/-- The part of an action id behind the label. -/
def ActionName.text : ActionName → Bytes
  | .process shape => 58 :: shape.kind ++ 58 :: shape.number
  | .test phase attempt => ascii ":test:" ++ phase.name ++ ascii ":" ++ printUnsigned 10 attempt

/-- That part as it stands in file names. -/
def ActionName.stem (name : ActionName) : Bytes := mangleLabel name.text

theorem mangleLabel_append (x y : Bytes) : mangleLabel (x ++ y) = mangleLabel x ++ mangleLabel y := by
  simp [mangleLabel]

theorem mangleLabel_print (shape : IdShape) (label : Bytes) :
    mangleLabel (shape.print label) = mangleLabel label ++ (ActionName.process shape).stem := by
  simp only [IdShape.print, ActionName.stem, ActionName.text, mangleLabel_append, List.append_assoc]

/-- The words of a kind, which a hyphen parts. -/
def kindWords (kind : Bytes) : List Bytes := kind.splitOn 45

/-- The words of a stem. -/
def ActionName.words : ActionName → List Bytes
  | .process .pch => [ascii "cxx", ascii "pch", ascii "0"]
  | .process (.unity batch) => [ascii "compile", ascii "unity", printUnsigned 10 batch, ascii "0"]
  | .process (.interface number) =>
    [ascii "compile", ascii "module", ascii "interface", printUnsigned 10 number, ascii "0"]
  | .process (.implementation number) =>
    [ascii "compile", ascii "module", ascii "implementation", printUnsigned 10 number, ascii "0"]
  | .process (.plain number) => [ascii "compile", printUnsigned 10 number]
  | .process (.final kind) => kindWords kind ++ [ascii "0"]
  | .test phase attempt => [ascii "test", phase.name, printUnsigned 10 attempt]

theorem mangleLabel_printUnsigned (n : Nat) : mangleLabel (printUnsigned 10 n) = printUnsigned 10 n := by
  have hkeep : ∀ c ∈ printUnsigned 10 n, (if isAlnum c then c else 95) = c := by
    intro c hc
    have hdigit : isDigit c = true := printUnsigned_isDigit hc
    have halnum : isAlnum c = true := by
      simp only [isDigit] at hdigit
      simp [isAlnum, hdigit]
    rw [if_pos halnum]
  unfold mangleLabel
  rw [List.map_congr_left hkeep, List.map_id']

theorem mangleLabel_colon (x : Bytes) : mangleLabel (58 :: x) = preceded 95 (mangleLabel x) := rfl

/-- A stem is made of its words. -/
theorem ActionName.stem_eq {name : ActionName} (hvalid : name.Valid) :
    name.stem = name.words.flatMap (preceded 95) := by
  have hwords : ∀ kind ∈ processKinds, preceded 95 (mangleLabel kind) =
      (kindWords kind).flatMap (preceded 95) := by decide
  cases name with
  | process shape =>
    cases shape with
    | pch => rfl
    | final kind =>
      simp only [stem, text, words, IdShape.kind, IdShape.number, mangleLabel_append,
        mangleLabel_colon, hwords kind hvalid, List.flatMap_append]
      rfl
    | _ =>
      simp only [stem, text, words, IdShape.kind, IdShape.number, mangleLabel_append,
        mangleLabel_colon, mangleLabel_printUnsigned]
      simp [preceded, mangleLabel, ascii, isAlnum]
  | test phase attempt =>
    simp only [stem, text, words, mangleLabel_append, mangleLabel_printUnsigned]
    cases phase <;> simp [preceded, mangleLabel, ascii, isAlnum, Testing.Phase.name]

/-- The words a stem may start with. -/
def openers : List Bytes :=
  [ascii "cxx", ascii "compile", ascii "link", ascii "archive", ascii "materialize",
    ascii "generate", ascii "run", ascii "test"]

theorem printUnsigned_notMem_openers (n : Nat) : printUnsigned 10 n ∉ openers := by
  intro hmem
  have hletters : ∀ word ∈ openers, ∃ c ∈ word, isDigit c = false := by decide
  obtain ⟨c, hc, hletter⟩ := hletters _ hmem
  rw [printUnsigned_isDigit hc] at hletter
  cases hletter

/-- A stem starts with an opener. -/
theorem ActionName.words_head {name : ActionName} (hvalid : name.Valid) :
    ∃ word rest, name.words = word :: rest ∧ word ∈ openers := by
  have hfinals : ∀ kind ∈ processKinds, ∃ word, (kindWords kind).head? = some word ∧
      word ∈ openers := by decide
  cases name with
  | process shape =>
    cases shape with
    | final kind =>
      obtain ⟨word, hhead, hword⟩ := hfinals kind hvalid
      obtain ⟨rest, hrest⟩ := List.head?_eq_some_iff.mp hhead
      exact ⟨word, rest ++ [ascii "0"], by simp [words, hrest], hword⟩
    | _ => exact ⟨_, _, rfl, by decide⟩
  | test phase attempt => exact ⟨_, _, rfl, by decide⟩

/-- Only the phase of a test may be an opener further on. -/
theorem ActionName.words_tail {shape : IdShape} (hvalid : (ActionName.process shape).Valid) :
    ∀ word ∈ (ActionName.process shape).words.tail, word ∉ openers := by
  have hfinals : ∀ kind ∈ processKinds,
      ∀ word ∈ (kindWords kind ++ [ascii "0"]).tail, word ∉ openers := by decide
  cases shape with
  | final kind => exact hfinals kind hvalid
  | pch => decide
  | _ =>
    simp only [words, List.tail_cons, List.forall_mem_cons]
    simp only [printUnsigned_notMem_openers, not_false_iff, true_and]
    decide

/-- Only tests have stems that start like those of tests. -/
theorem ActionName.words_ne_test {shape : IdShape} (hvalid : (ActionName.process shape).Valid)
    (rest : List Bytes) : (ActionName.process shape).words ≠ ascii "test" :: rest := by
  have hfinals : ∀ kind ∈ processKinds,
      (kindWords kind ++ [ascii "0"]).head? ≠ some (ascii "test") := by decide
  intro hwords
  have hhead : (ActionName.process shape).words.head? = some (ascii "test") := by simp [hwords]
  cases shape with
  | final kind => exact hfinals kind hvalid hhead
  | _ =>
    simp only [words, List.head?_cons, Option.some.injEq] at hhead
    revert hhead
    decide

theorem ActionName.words_noScore {name : ActionName} (hvalid : name.Valid) :
    ∀ word ∈ name.words, 95 ∉ word := by
  have hfinals : ∀ kind ∈ processKinds, ∀ word ∈ kindWords kind ++ [ascii "0"], 95 ∉ word := by
    decide
  have hdigits (n : Nat) : 95 ∉ printUnsigned 10 n := by
    intro hmem
    have hdigit := printUnsigned_isDigit hmem
    revert hdigit
    decide
  cases name with
  | process shape =>
    cases shape with
    | final kind => exact hfinals kind hvalid
    | pch => decide
    | _ =>
      simp only [words, List.forall_mem_cons, hdigits, not_false_iff, true_and]
      decide
  | test phase attempt =>
    simp only [words, List.forall_mem_cons, hdigits, not_false_iff, true_and]
    cases phase <;> decide

/-- No stem ends in another one. -/
theorem ActionName.stem_suffix {m n : ActionName} (hm : m.Valid) (hn : n.Valid) {d : Bytes}
    (h : m.stem = d ++ n.stem) : d = [] := by
  obtain ⟨word, rest, hwords, hopener⟩ := n.words_head hn
  rw [stem_eq hm, stem_eq hn] at h
  obtain ⟨before, hsplit, rfl⟩ := flatMap_preceded_suffix (words_noScore hm) (words_noScore hn)
    (by simp [hwords]) h
  cases before with
  | nil => rfl
  | cons first others =>
    exfalso
    rw [hwords] at hsplit
    cases m with
    | process shape =>
      refine words_tail hm word ?_ hopener
      simp [hsplit]
    | test phase attempt =>
      rw [words, List.cons_append, List.cons.injEq] at hsplit
      cases others with
      | nil =>
        -- The phase is called like the kind: behind it a test has one word too few.
        simp only [List.nil_append, List.cons.injEq] at hsplit
        obtain ⟨-, rfl, rfl⟩ := hsplit
        have hphase : phase.name = ascii "test" := by
          cases phase <;> first | rfl | exact absurd hopener (by decide)
        cases n with
        | process shape => exact words_ne_test hn _ (hphase ▸ hwords)
        | test phase' attempt' => simp [words] at hwords
      | cons second others =>
        cases others with
        | nil =>
          simp only [List.cons_append, List.nil_append, List.cons.injEq] at hsplit
          obtain ⟨-, -, rfl, -⟩ := hsplit
          exact printUnsigned_notMem_openers attempt hopener
        | cons third others => simp at hsplit

/-! ## Names behind labels -/

/-- The directories in which names start with a mangled label. -/
inductive Area where
  | out
  | rsp
  | logs
  deriving DecidableEq

def Area.name : Area → Bytes
  | .out => ascii "out/"
  | .rsp => ascii "rsp/"
  | .logs => ascii "logs/"

/-- What a path has behind the label of its owner. -/
structure LocalName where
  area : Area
  rest : Bytes

def LocalName.path (g : Graph) (label : Bytes) (name : LocalName) : Bytes :=
  buildPath g.buildDir (name.area.name ++ mangleLabel label ++ name.rest)

/-- The names that are made: those in an output directory, those with the stem of an action,
and those of the first attempt of a test. -/
inductive LocalName.Made : LocalName → Prop where
  | output (tail : Bytes) : Made ⟨.out, 47 :: tail⟩
  | action {area : Area} {name : ActionName} {ext : Bytes} (harea : area ≠ .out)
      (hvalid : name.Valid) (hext : 46 ∉ ext) : Made ⟨area, name.stem ++ 46 :: ext⟩
  | firstTest {ext : Bytes} (hext : 46 ∈ ext) : Made ⟨.logs, 46 :: ext⟩

theorem mangleLabel_chars {label : Bytes} {c : UInt8} (hc : c ∈ mangleLabel label) :
    c ≠ 46 ∧ c ≠ 47 := by
  obtain ⟨b, -, rfl⟩ := List.mem_map.mp hc
  by_cases halnum : isAlnum b = true
  · rw [if_pos halnum]
    constructor
    · rintro rfl
      cases halnum
    · rintro rfl
      cases halnum
  · rw [if_neg halnum]
    decide

theorem stem_noDot (name : ActionName) : 46 ∉ name.stem := by
  intro hmem
  exact (mangleLabel_chars hmem).1 rfl

/-- No name hides the end of a label. -/
theorem LocalName.Made.end_eq_nil {area : Area} {r s d : Bytes} (hr : Made ⟨area, r⟩)
    (hs : Made ⟨area, s⟩) (hd : ∀ c ∈ d, c ≠ 46 ∧ c ≠ 47) (h : r = d ++ s) : d = [] := by
  have hdot : 46 ∉ d := fun hmem => (hd 46 hmem).1 rfl
  cases hr with
  | output tail =>
    cases d with
    | nil => rfl
    | cons c rest =>
      rw [List.cons_append, List.cons.injEq] at h
      exact absurd h.1.symm (hd c List.mem_cons_self).2
  | firstTest hext =>
    cases d with
    | nil => rfl
    | cons c rest =>
      rw [List.cons_append, List.cons.injEq] at h
      exact absurd h.1.symm (hd c List.mem_cons_self).1
  | action harea hvalid hext =>
    rename_i name ext
    cases hs with
    | output tail => exact absurd rfl harea
    | firstTest hext' =>
      rename_i ext'
      have hsplit := terminated_append_inj (t := 46) (stem_noDot name) hdot (x := ext) (y := ext')
        (by simpa [terminated] using h)
      exact absurd (hsplit.2 ▸ hext') hext
    | action harea' hvalid' hext' =>
      rename_i name' ext'
      have hdot' : 46 ∉ d ++ name'.stem := by
        simp [hdot, stem_noDot]
      have hsplit := terminated_append_inj (t := 46) (stem_noDot name) hdot' (x := ext) (y := ext')
        (by simpa [terminated] using h)
      exact ActionName.stem_suffix hvalid hvalid' hsplit.1

/-- Labels that mangle apart have no path in common. -/
theorem LocalName.path_inj {g : Graph} {a b : Bytes} {m n : LocalName} (hm : m.Made) (hn : n.Made)
    (h : m.path g a = n.path g b) : mangleLabel a = mangleLabel b ∧ m = n := by
  obtain ⟨area, r⟩ := m
  obtain ⟨area', s⟩ := n
  simp only [path, buildPath, List.append_assoc, List.append_cancel_left_eq] at h
  obtain rfl : area = area' := by
    cases area <;> cases area' <;> first | rfl | simp [Area.name, ascii] at h
  rw [List.append_cancel_left_eq] at h
  rcases List.append_eq_append_iff.mp h with ⟨d, hb, hr⟩ | ⟨d, ha, hs⟩
  · have hd : ∀ c ∈ d, c ≠ 46 ∧ c ≠ 47 := by
      intro c hc
      have hmem : c ∈ mangleLabel b := hb ▸ List.mem_append_right _ hc
      exact mangleLabel_chars hmem
    obtain rfl := Made.end_eq_nil hm hn hd hr
    exact ⟨by simpa using hb.symm, by rw [hr, List.nil_append]⟩
  · have hd : ∀ c ∈ d, c ≠ 46 ∧ c ≠ 47 := by
      intro c hc
      have hmem : c ∈ mangleLabel a := ha ▸ List.mem_append_right _ hc
      exact mangleLabel_chars hmem
    obtain rfl := Made.end_eq_nil hn hm hd hs
    exact ⟨by simpa using ha, by rw [hs, List.nil_append]⟩

end QStar.Outputs
