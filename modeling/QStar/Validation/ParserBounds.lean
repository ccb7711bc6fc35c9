import QStar.Base.CanonicalLabels
import QStar.Lib.CheckedMemory

/-!
# The memory that labels and tokens are parsed in

The parsers of labels and of tokens, with every byte they load and store. Two places trust a
length before it is checked: the alias of an external label is copied into a buffer before its
length is known to fit, and the length inside an `arg_if` token says where the token ends.
-/
namespace QStar.Validation.ParserBounds

open QStar.Base (validNameChar validPathChar splitSlashes validLabelRest printInto canonicalizeInto)
open QStar.Lib.CStrings
open QStar.Lib.CheckedMemory

variable {dstlen namelen arglen labellen artifactlen : Nat}

/-- The loop of `valid_span`. -/
def spanFrom (valid : UInt8 → Bool) : Bytes → Checked Bool
  | [] => .error .load
  | c :: rest => if c = 0 then .ok true else if valid c then spanFrom valid rest else .ok false

/-- `valid_span` -/
def validSpan (valid : UInt8 → Bool) (block : Bytes) (p : Nat) : Checked Bool := do
  let first ← load block p
  if first = 0 then .ok false else spanFrom valid (block.drop p)

/-- `strstr(block + p, "//")` -/
def strstrSlashes (block : Bytes) (p : Nat) : Checked (Option Nat) :=
  (stringAt block p).map fun s => (splitSlashes s).map fun (before, _) => p + before.length

/-- `snprintf(dst, dstlen, …) < (int)dstlen ? 0 : -1` -/
def printLabel (dst : Buffer dstlen) (text : Bytes) : Checked (Int × Buffer dstlen) := do
  let dst ← dst.print text
  .ok (if text.length < dstlen then 0 else -1, dst)

/-- The path of a label, copied and checked. -/
def validPath (label : CString) (rest pathlen : Nat) (tmp : Buffer 4096) : Checked Bool :=
  if pathlen = 0 then .ok true
  else if 4096 ≤ pathlen then .ok false
  else do
    let tmp ← tmp.copyString label.block rest pathlen
    validSpan validPathChar tmp.bytes 0

/-- `qstar_label_canonicalize`, past the slashes. -/
def labelRest (label : CString) (rest : Nat) (dst : Buffer dstlen) (tmp : Buffer 4096) :
    Checked (Int × Buffer dstlen) := do
  match ← strrchr label.block rest 58 with
  | none => .ok (-1, dst)
  | some colon =>
    let valid ← validSpan validNameChar label.block (colon + 1)
    if valid = false then .ok (-1, dst)
    else
      let valid ← validPath label rest (colon - rest) tmp
      if valid = false then .ok (-1, dst) else printLabel dst label.text

/-- `qstar_label_canonicalize` of a label that starts with `@`. -/
def externalLabel (label : CString) (dst : Buffer dstlen) (tmp : Buffer 4096) :
    Checked (Int × Buffer dstlen) := do
  match ← strstrSlashes label.block 0 with
  | none => .ok (-1, dst)
  | some rest =>
    if rest = 1 then .ok (-1, dst)
    else
      let tmp ← tmp.copyString label.block 1 (rest - 1)
      let valid ← validSpan validNameChar tmp.bytes 0
      if valid = false then .ok (-1, dst) else labelRest label (rest + 2) dst tmp

/-- `qstar_label_canonicalize`, into a buffer and with a local one of 4096 bytes that hold
anything. -/
def labelCanonicalize (label : CString) (fragmentDir : Option CString) (dst : Buffer dstlen)
    (tmp : Buffer 4096) : Checked (Int × Buffer dstlen) := do
  let first ← load label.block 0
  if first = 0 then .ok (-1, dst)
  else if first = 58 then do
    let valid ← validSpan validNameChar label.block 1
    if valid = false then .ok (-1, dst)
    else
      let name ← stringAt label.block 1
      -- Without a directory the format is `//:%s`: the same text.
      let dir ← match fragmentDir with
        | none => .ok []
        | some dir => stringAt dir.block 0
      printLabel dst (ascii "//" ++ dir ++ ascii ":" ++ name)
  else if first = 64 then externalLabel label dst tmp
  else if first = 47 then do
    let second ← load label.block 1
    if second = 47 then labelRest label 2 dst tmp else .ok (-1, dst)
  else .ok (-1, dst)

/-- The length in an `arg_if` token and the argument behind it, whose end is where the length
says. -/
def argIfArgument (token : CString) (lenStart : Nat) (name : Buffer namelen) (limit : Option Nat) :
    Checked (Int × Buffer namelen × Nat × Nat) := do
  let (len, lenEnd) ← strtol token.block lenStart
  let mark ← load token.block lenEnd
  if mark ≠ 58 ∨ len < 0 ∨ ∃ l ∈ limit, l ≤ len.toNat then .ok (-1, name, 0, 0)
  else
    let argStart := lenEnd + 1
    let close ← load token.block (argStart + len.toNat)
    if close ≠ 62 then .ok (-1, name, 0, 0)
    else
      let last ← load token.block (argStart + len.toNat + 1)
      if last ≠ 0 then .ok (-1, name, 0, 0) else .ok (1, name, argStart, len.toNat)

/-- What both readers of `<qstar-command-arg-if:name:len:arg>` do: the result, the name, and
where the argument is. Only one of them has a limit for its length. -/
def argIfToken (token : CString) (name : Buffer namelen) (limit : Option Nat) :
    Checked (Int × Buffer namelen × Nat × Nat) := do
  let start := ascii "<qstar-command-arg-if:"
  let isToken ← startsWith token.block 0 start
  if isToken = false then .ok (0, name, 0, 0)
  else
    match ← strchr token.block start.length 58 with
    | none => .ok (-1, name, 0, 0)
    | some colon =>
      if colon = start.length ∨ namelen ≤ colon - start.length then .ok (-1, name, 0, 0)
      else
        let name ← name.copyString token.block start.length (colon - start.length)
        argIfArgument token (colon + 1) name limit

/-- `command_arg_if_token_parse` -/
def commandArgIfTokenParse (token : CString) (name : Buffer namelen) :
    Checked (Int × Buffer namelen) := do
  let (result, name, _, _) ← argIfToken token name none
  .ok (result, name)

/-- `command_arg_if_token_parse_exec` -/
def commandArgIfTokenParseExec (token : CString) (name : Buffer namelen) (arg : Buffer arglen) :
    Checked (Int × Buffer namelen × Buffer arglen) := do
  let (result, name, argStart, len) ← argIfToken token name (some arglen)
  if result ≠ 1 then .ok (result, name, arg)
  else
    let arg ← arg.copyString token.block argStart len
    .ok (1, name, arg)

/-- `qstar_target_file_token_parse` -/
def targetFileTokenParse (arg : CString) (label : Buffer labellen)
    (artifact : Option (Buffer artifactlen)) :
    Checked (Int × Buffer labellen × Option (Buffer artifactlen)) := do
  let start := ascii "<qstar-target-file:"
  let isToken ← startsWith arg.block 0 start
  if isToken = false then .ok (0, label, artifact)
  else
    let n ← strlen arg.block 0
    if n ≤ start.length + 1 then .ok (-1, label, artifact)
    else
      let close ← load arg.block (n - 1)
      if close ≠ 62 then .ok (-1, label, artifact)
      else
        let payload := n - start.length - 1
        let selector ← memchr arg.block start.length 35 payload
        let labelLen := (selector.map (· - start.length)).getD payload
        let artifactLen := (selector.map fun _ => payload - labelLen - 1).getD 0
        if labelLen = 0 ∨ labellen < labelLen + 1 ∨ (selector.isSome ∧ artifactLen = 0) ∨
            (artifact.isSome ∧ artifactlen < artifactLen + 1) then .ok (-1, label, artifact)
        else
          let label ← label.copyString arg.block start.length labelLen
          match artifact with
          | none => .ok (1, label, none)
          | some artifact =>
            if artifactlen = 0 then .ok (1, label, some artifact)
            else
              match selector with
              | some selector =>
                let artifact ← artifact.copyString arg.block (selector + 1) artifactLen
                .ok (1, label, some artifact)
              | none =>
                let artifact ← artifact.store 0 0
                .ok (1, label, some artifact)

/-- `qstar_stage_dir_token_label` -/
def stageDirTokenLabel (arg : CString) (label : Buffer labellen) :
    Checked (Int × Buffer labellen) := do
  let start := ascii "<qstar-stage-dir:"
  let isToken ← startsWith arg.block 0 start
  if isToken = false then .ok (0, label)
  else
    let n ← strlen arg.block 0
    if n ≤ start.length + 1 then .ok (-1, label)
    else
      let close ← load arg.block (n - 1)
      if close ≠ 62 then .ok (-1, label)
      else
        let payload := n - start.length - 1
        if payload = 0 ∨ labellen < payload + 1 then .ok (-1, label)
        else
          let label ← label.copyString arg.block start.length payload
          .ok (1, label)

/-- A parser that stays in bounds and leaves a text in its buffer, or refuses. -/
def Writes (x : Checked (Int × Buffer dstlen)) (result : Option Bytes) : Prop :=
  ∃ dst, x = .ok (if result.isSome then 0 else -1, dst) ∧
    ∀ text ∈ result, ∃ rest, dst.bytes = text ++ 0 :: rest

/-- The alias of an external label, if it has one, fits the local buffer with its NUL. -/
def AliasFits (label : Bytes) : Prop :=
  ∀ external rest, splitSlashes label = some (64 :: external, rest) → external.length < 4096

/-- Where an `arg_if` token names an option and a length within the limit, the length goes no
further than the text behind it. -/
def ArgumentFits (token : Bytes) (namelen : Nat) (limit : Option Nat) : Prop :=
  ∀ name rest arg, token = ascii "<qstar-command-arg-if:" ++ (name ++ 58 :: rest) → 58 ∉ name →
    name ≠ [] → name.length < namelen → (Lib.Numerals.strtol rest).2 = 58 :: arg →
      0 ≤ (Lib.Numerals.strtol rest).1 → (∀ l ∈ limit, (Lib.Numerals.strtol rest).1.toNat < l) →
        (Lib.Numerals.strtol rest).1.toNat ≤ arg.length

/-! ## Labels -/

theorem spanFrom_append {s : Bytes} (hs : 0 ∉ s) (valid : UInt8 → Bool) (rest : Bytes) :
    spanFrom valid (s ++ 0 :: rest) = .ok (s.all valid) := by
  induction s with
  | nil => rfl
  | cons c s ih =>
    rw [List.mem_cons, not_or] at hs
    rw [List.cons_append, spanFrom, if_neg (Ne.symm hs.1), ih hs.2, List.all_cons]
    cases valid c <;> rfl

/-- A span is checked up to the NUL behind it. -/
theorem validSpan_eq {block s rest : Bytes} {p : Nat} (hs : 0 ∉ s) (hblock : block.drop p = s ++ 0 :: rest)
    (valid : UInt8 → Bool) : validSpan valid block p = .ok (Base.validSpan valid s) := by
  have hload : load block p = .ok ((s ++ 0 :: rest).headD 0) := by
    have hhead := congrArg List.head? hblock
    rw [List.head?_drop] at hhead
    cases s with
    | nil =>
      rw [load, hhead]
      rfl
    | cons c s =>
      rw [load, hhead]
      rfl
  rw [validSpan, hload, hblock]
  change (if (s ++ 0 :: rest).headD 0 = 0 then _ else _) = _
  cases s with
  | nil => rfl
  | cons c s =>
    have hc : c ≠ 0 := fun h => hs (h ▸ List.mem_cons_self)
    rw [List.cons_append, List.headD_cons, if_neg hc, ← List.cons_append, spanFrom_append hs]
    simp only [Base.validSpan, ne_eq, reduceCtorEq, not_false_eq_true, true_and, Bool.decide_eq_true]

theorem strstrSlashes_block {s : CString} {p : Nat} (hp : p ≤ s.text.length) :
    strstrSlashes s.block p =
      .ok ((splitSlashes (s.text.drop p)).map fun (before, _) => p + before.length) := by
  rw [strstrSlashes, stringAt_block hp]
  rfl

theorem validSpan_block {s : CString} {p : Nat} (hp : p ≤ s.text.length) (valid : UInt8 → Bool) :
    validSpan valid s.block p = .ok (Base.validSpan valid (s.text.drop p)) :=
  validSpan_eq (fun h => s.no_nul (List.mem_of_mem_drop h)) (CString.block_drop hp) valid

/-- The part of a string copied into a buffer that has room for it is checked there. -/
theorem copyString_validSpan {size : Nat} {b : Buffer size} {s : CString} {p n : Nat}
    (h : p + n ≤ s.text.length) (hn : n < size) : ∃ b', b.copyString s.block p n = .ok b' ∧
      ∀ valid, validSpan valid b'.bytes 0 = .ok (Base.validSpan valid ((s.text.drop p).take n)) := by
  obtain ⟨b', rest, hb', hbytes⟩ := Buffer.copyString_eq (b := b) h hn
  rw [← List.drop_zero (l := b'.bytes)] at hbytes
  refine ⟨b', hb', fun valid => validSpan_eq ?_ hbytes valid⟩
  exact fun hc => s.no_nul (List.mem_of_mem_drop (List.mem_of_mem_take hc))

theorem Writes.inBounds {x : Checked (Int × Buffer dstlen)} {result : Option Bytes}
    (h : Writes x result) : InBounds x := by
  obtain ⟨dst, hx, -⟩ := h
  exact ⟨_, hx⟩

theorem writes_none (dst : Buffer dstlen) : Writes (.ok (-1, dst)) none :=
  ⟨dst, rfl, nofun⟩

theorem printLabel_writes (dst : Buffer dstlen) (text : Bytes) :
    Writes (printLabel dst text) (printInto dstlen text) := by
  obtain ⟨dst', hdst⟩ := Buffer.inBounds_print dst text
  rw [printLabel, hdst, printInto]
  refine ⟨dst', ?_, ?_⟩
  · split <;> rfl
  · intro printed hprinted
    split at hprinted
    · rename_i hroom
      cases hprinted
      exact Buffer.print_eq hroom hdst
    · cases hprinted

theorem validPath_eq {label : CString} {rest pathlen : Nat} (h : rest + pathlen ≤ label.text.length)
    (tmp : Buffer 4096) : validPath label rest pathlen tmp = .ok (pathlen = 0 ||
      decide (pathlen < 4096) && Base.validSpan validPathChar ((label.text.drop rest).take pathlen)) := by
  unfold validPath
  split
  · rename_i hempty
    simp [hempty]
  · rename_i hpath
    split
    · rename_i hlong
      simp [hpath, Nat.not_lt.mpr hlong]
    · rename_i hroom
      obtain ⟨tmp', htmp, hspan⟩ := copyString_validSpan (b := tmp) h (by omega)
      rw [htmp]
      change validSpan validPathChar tmp'.bytes 0 = _
      rw [hspan]
      simp [hpath, Nat.lt_of_not_le hroom]

theorem validLabelRest_at {s : Bytes} {k : Nat} (h : Lib.CStrings.strrchr 58 s = some k) :
    validLabelRest s = (Base.validSpan validNameChar (s.drop (k + 1)) &&
      (decide (k = 0) || decide (k < 4096) && Base.validSpan validPathChar (s.take k))) := by
  have hlen : (s.take k).length = k := List.length_take_of_le (le_of_lt (strrchr_lt h))
  have hempty : s.take k = [] ↔ k = 0 := by rw [← List.length_eq_zero_iff, hlen]
  rw [validLabelRest, splitLast, h]
  dsimp only [Option.map_some]
  rw [hlen, decide_eq_decide.mpr hempty]

theorem labelRest_writes {label : CString} {rest : Nat} (hrest : rest ≤ label.text.length)
    (dst : Buffer dstlen) (tmp : Buffer 4096) :
    Writes (labelRest label rest dst tmp)
      (if validLabelRest (label.text.drop rest) then printInto dstlen label.text else none) := by
  rw [labelRest, strrchr_block hrest]
  cases hcolon : Lib.CStrings.strrchr 58 (label.text.drop rest) with
  | none =>
    rw [validLabelRest, splitLast, hcolon]
    exact writes_none dst
  | some k =>
    have hk := strrchr_lt hcolon
    rw [List.length_drop] at hk
    have hname : label.text.drop (rest + k + 1) = (label.text.drop rest).drop (k + 1) := by
      rw [List.drop_drop, Nat.add_assoc]
    rw [validLabelRest_at hcolon]
    change Writes (validSpan validNameChar label.block (rest + k + 1) >>= fun valid => _) _
    rw [validSpan_block (by omega), hname]
    cases Base.validSpan validNameChar ((label.text.drop rest).drop (k + 1)) with
    | false => exact writes_none dst
    | true =>
      change Writes (validPath label rest (rest + k - rest) tmp >>= fun valid => _) _
      rw [Nat.add_sub_cancel_left, validPath_eq (by omega), Bool.true_and]
      cases decide (k = 0) || decide (k < 4096) &&
          Base.validSpan validPathChar ((label.text.drop rest).take k) with
      | false => exact writes_none dst
      | true => exact printLabel_writes dst label.text

/-- The alias of an external label is copied before anything is known of its length. -/
theorem externalLabel_inBounds {label : CString} {external rest : Bytes}
    (hslashes : splitSlashes label.text = some (64 :: external, rest)) {dst : Buffer dstlen}
    {tmp : Buffer 4096} (h : InBounds (externalLabel label dst tmp)) : external.length < 4096 := by
  have hlen := congrArg List.length (Base.splitSlashes_eq_some hslashes)
  rw [List.length_append, List.length_cons, List.length_cons, List.length_cons] at hlen
  rw [externalLabel, strstrSlashes_block (Nat.zero_le _), List.drop_zero, hslashes] at h
  rw [Option.map_some] at h
  dsimp only at h
  rw [List.length_cons, Nat.zero_add] at h
  change InBounds (if external.length + 1 = 1 then _ else _) at h
  split at h
  · omega
  · obtain ⟨tmp', htmp, -⟩ := inBounds_bind.mp h
    have hroom := (Buffer.inBounds_copyString_iff (by omega)).mp ⟨tmp', htmp⟩
    omega

theorem externalLabel_writes {label : CString} {after : Bytes} (htext : label.text = 64 :: after)
    (hfits : AliasFits label.text) (dir : Bytes) (dst : Buffer dstlen) (tmp : Buffer 4096) :
    Writes (externalLabel label dst tmp) (canonicalizeInto label.text dir dstlen) := by
  have hsplit : splitSlashes label.text =
      (splitSlashes after).map fun (before, rest) => (64 :: before, rest) := by
    rw [htext, splitSlashes]
    rintro rest ⟨⟩
  rw [externalLabel, strstrSlashes_block (Nat.zero_le _), List.drop_zero]
  nth_rewrite 2 [htext]
  rw [canonicalizeInto]
  cases hslashes : splitSlashes after with
  | none =>
    rw [hsplit, hslashes]
    exact writes_none dst
  | some found =>
    obtain ⟨external, rest⟩ := found
    rw [hslashes, Option.map_some] at hsplit
    have hroom := hfits external rest hsplit
    have hlabel := Base.splitSlashes_eq_some hsplit
    have hlen := congrArg List.length hlabel
    rw [List.length_append, List.length_cons, List.length_cons, List.length_cons] at hlen
    have halias : (label.text.drop 1).take external.length = external := by
      rw [hlabel, List.cons_append, List.drop_succ_cons, List.drop_zero, List.take_left]
    have hrest : label.text.drop (external.length + 1 + 2) = rest := by
      rw [hlabel, List.drop_append, List.drop_of_length_le (by rw [List.length_cons]; omega)]
      simp
    rw [hsplit]
    dsimp only [Option.map_some]
    rw [List.length_cons, Nat.zero_add]
    change Writes (if external.length + 1 = 1 then _ else _) _
    split
    · rename_i hempty
      obtain rfl := List.eq_nil_of_length_eq_zero (Nat.succ.inj hempty)
      exact writes_none dst
    · obtain ⟨tmp', htmp, hspan⟩ := copyString_validSpan (b := tmp) (s := label) (p := 1)
        (n := external.length) (by omega) hroom
      rw [Nat.add_sub_cancel, htmp]
      change Writes (validSpan validNameChar tmp'.bytes 0 >>= fun valid => _) _
      rw [hspan, halias]
      cases hvalid : Base.validSpan validNameChar external with
      | false =>
        rw [if_pos (.inr rfl)]
        exact writes_none dst
      | true =>
        rw [if_neg (by simp [hroom])]
        change Writes (labelRest label (external.length + 1 + 2) dst tmp') _
        have hend : external.length + 1 + 2 ≤ label.text.length := by omega
        rw [← hrest, ← htext]
        exact labelRest_writes hend dst tmp'

/-- The two formats of a local label print the same text. -/
theorem localLabel_eq (n : Nat) (dir name : Bytes) :
    printInto n (ascii "//" ++ dir ++ ascii ":" ++ name) =
      if dir ≠ [] then printInto n (ascii "//" ++ dir ++ ascii ":" ++ name)
      else printInto n (ascii "//:" ++ name) := by
  split
  · rfl
  · rename_i hdir
    rw [not_not] at hdir
    subst hdir
    rfl

theorem canonicalizeInto_other {c : UInt8} {after dir : Bytes} (hlocal : c ≠ 58) (hexternal : c ≠ 64)
    (hslashes : ¬ [47, 47] <+: c :: after) : canonicalizeInto (c :: after) dir dstlen = none := by
  unfold canonicalizeInto
  split
  · rfl
  · rename_i heq
    exact absurd (List.cons.inj heq).1 hlocal
  · rename_i heq
    exact absurd (List.cons.inj heq).1 hexternal
  · rename_i rest heq
    exact absurd ⟨rest, heq.symm⟩ hslashes
  · rfl

/-- Where its alias fits, a label is brought into its canonical form in bounds. -/
theorem labelCanonicalize_writes {label : CString} (hfits : AliasFits label.text)
    (fragmentDir : Option CString) (dst : Buffer dstlen) (tmp : Buffer 4096) :
    Writes (labelCanonicalize label fragmentDir dst tmp)
      (canonicalizeInto label.text ((fragmentDir.map CString.text).getD []) dstlen) := by
  rw [labelCanonicalize, load_block (Nat.zero_le _)]
  change Writes (if label.text[0]?.getD 0 = 0 then _ else _) _
  cases htext : label.text with
  | nil => exact writes_none dst
  | cons c after =>
    have hpos : 1 ≤ label.text.length := by
      rw [htext]
      exact Nat.succ_pos _
    have hc : c ≠ 0 := by
      rintro rfl
      exact label.no_nul (htext ▸ List.mem_cons_self)
    have hafter : label.text.drop 1 = after := by rw [htext, List.drop_succ_cons, List.drop_zero]
    rw [List.getElem?_cons_zero, Option.getD_some, if_neg hc]
    split
    · rename_i hlocal
      subst hlocal
      rw [validSpan_block hpos, stringAt_block hpos, hafter, canonicalizeInto]
      cases hvalid : Base.validSpan validNameChar after with
      | false =>
        rw [if_pos rfl]
        exact writes_none dst
      | true =>
        rw [if_neg (by decide), ← localLabel_eq dstlen]
        cases fragmentDir with
        | none => exact printLabel_writes dst _
        | some dir =>
          change Writes (stringAt dir.block 0 >>= fun dir => _) _
          rw [stringAt_block (Nat.zero_le _), List.drop_zero]
          exact printLabel_writes dst _
    · split
      · rename_i hexternal
        subst hexternal
        rw [← htext]
        exact externalLabel_writes htext hfits _ dst tmp
      · rename_i hlocal hexternal
        split
        · rename_i hslash
          subst hslash
          rw [load_block hpos, htext, List.getElem?_cons_succ]
          cases after with
          | nil => exact writes_none dst
          | cons d rest =>
            change Writes (if d = 47 then _ else _) _
            split
            · rename_i hslash
              subst hslash
              have hend : 2 ≤ label.text.length := by
                rw [htext, List.length_cons, List.length_cons]
                omega
              have hrest : label.text.drop 2 = rest := by rw [htext]; rfl
              have hcheck := labelRest_writes hend dst tmp
              rw [hrest, htext] at hcheck
              exact hcheck
            · rename_i hslash
              rw [canonicalizeInto_other hlocal hexternal (by simp [Ne.symm hslash])]
              exact writes_none dst
        · rename_i hslash
          rw [canonicalizeInto_other hlocal hexternal (by simp [Ne.symm hslash])]
          exact writes_none dst

/-- A label is parsed in bounds exactly if its alias fits the local buffer. -/
theorem inBounds_labelCanonicalize_iff (label : CString) (fragmentDir : Option CString)
    (dst : Buffer dstlen) (tmp : Buffer 4096) :
    InBounds (labelCanonicalize label fragmentDir dst tmp) ↔ AliasFits label.text := by
  constructor
  · intro h external rest hslashes
    have htext := Base.splitSlashes_eq_some hslashes
    rw [labelCanonicalize, load_block (Nat.zero_le _), htext] at h
    exact externalLabel_inBounds hslashes h
  · intro hfits
    exact (labelCanonicalize_writes hfits fragmentDir dst tmp).inBounds

/-! ## `arg_if` tokens -/

/-- The length behind a name leads out of the token exactly if it is larger than the rest. -/
theorem inBounds_argIfArgument_iff {token : CString} {lenStart : Nat} {rest : Bytes}
    (hstart : lenStart ≤ token.text.length) (hrest : token.text.drop lenStart = rest)
    (name : Buffer namelen) (limit : Option Nat) :
    InBounds (argIfArgument token lenStart name limit) ↔
      ∀ arg, (Lib.Numerals.strtol rest).2 = 58 :: arg → 0 ≤ (Lib.Numerals.strtol rest).1 →
        (∀ l ∈ limit, (Lib.Numerals.strtol rest).1.toNat < l) →
          (Lib.Numerals.strtol rest).1.toNat ≤ arg.length := by
  obtain ⟨stop, hstop, htail, hstrtol⟩ := strtol_block hstart
  rw [hrest] at htail hstrtol
  generalize Lib.Numerals.strtol rest = read at htail hstrtol
  obtain ⟨len, tail⟩ := read
  dsimp only at htail hstrtol ⊢
  rw [argIfArgument, hstrtol]
  change InBounds (load token.block stop >>= fun mark => _) ↔ _
  have hmark : token.text[stop]? = tail.head? := by rw [← htail, List.head?_drop]
  rw [load_block hstop, hmark]
  change InBounds (if tail.head?.getD 0 ≠ 58 ∨ len < 0 ∨ ∃ l ∈ limit, l ≤ len.toNat then _ else _) ↔ _
  split
  · rename_i hrefused
    refine iff_of_true (inBounds_ok _) fun arg harg hlen hlimit => ?_
    rcases hrefused with hc | hc | ⟨l, hl, hc⟩
    · exact absurd (by rw [harg]; rfl) hc
    · omega
    · exact absurd (hlimit l hl) (Nat.not_lt.mpr hc)
  · rename_i haccepted
    simp only [not_or, not_not, not_exists, not_and, Nat.not_le] at haccepted
    obtain ⟨hcolon, hlen, hlimit⟩ := haccepted
    cases tail with
    | nil => cases hcolon
    | cons c arg =>
      obtain rfl : c = 58 := hcolon
      have htotal := congrArg List.length htail
      rw [List.length_drop, List.length_cons] at htotal
      have hfits : (∀ arg', 58 :: arg = 58 :: arg' → 0 ≤ len → (∀ l ∈ limit, len.toNat < l) →
          len.toNat ≤ arg'.length) ↔ stop + 1 + len.toNat ≤ token.text.length := by
        constructor
        · intro h
          have harg := h arg rfl (by omega) hlimit
          omega
        · rintro h arg' heq - -
          cases heq
          omega
      rw [hfits, inBounds_bind]
      constructor
      · rintro ⟨close, hclose, -⟩
        exact inBounds_load_iff.mp ⟨close, hclose⟩
      · intro hend
        refine ⟨_, load_block hend, ?_⟩
        split
        · exact inBounds_ok _
        · rename_i hclose
          have hinside : stop + 1 + len.toNat + 1 ≤ token.text.length := by
            by_contra hshort
            rw [List.getElem?_eq_none (by omega)] at hclose
            exact hclose (by decide)
          rw [load_block hinside]
          change InBounds (if _ then _ else _)
          split <;> exact inBounds_ok _

/-- An argument that was found lies in the token and within the limit. -/
theorem argIfArgument_one {token : CString} {lenStart argStart len : Nat} {name name' : Buffer namelen}
    {limit : Option Nat} (h : argIfArgument token lenStart name limit = .ok (1, name', argStart, len)) :
    argStart + len ≤ token.text.length ∧ ∀ l ∈ limit, len < l := by
  obtain ⟨⟨value, stop⟩, -, h⟩ := Lib.Results.bind_eq_ok.mp h
  obtain ⟨mark, -, h⟩ := Lib.Results.bind_eq_ok.mp h
  split at h
  · cases h
  · rename_i haccepted
    obtain ⟨close, hclose, h⟩ := Lib.Results.bind_eq_ok.mp h
    split at h
    · cases h
    · obtain ⟨last, -, h⟩ := Lib.Results.bind_eq_ok.mp h
      split at h
      · cases h
      · cases h
        refine ⟨inBounds_load_iff.mp ⟨close, hclose⟩, fun l hl => Nat.lt_of_not_le fun hle => ?_⟩
        exact haccepted (.inr (.inr ⟨l, hl, hle⟩))

/-- The first colon cuts a text in one way. -/
theorem eq_of_colon {a a' b b' : Bytes} (ha : 58 ∉ a) (ha' : 58 ∉ a') (h : a ++ 58 :: b = a' ++ 58 :: b') :
    a = a' ∧ b = b' := by
  have hlen := (indexOf_append ha).symm.trans ((congrArg (indexOf 58) h).trans (indexOf_append ha'))
  obtain ⟨rfl, htail⟩ := List.append_inj h (Option.some.inj hlen)
  exact ⟨rfl, (List.cons.inj htail).2⟩

/-- Nothing but the length of the argument leads out of a token. -/
theorem inBounds_argIfToken_iff (token : CString) (name : Buffer namelen) (limit : Option Nat) :
    InBounds (argIfToken token name limit) ↔ ArgumentFits token.text namelen limit := by
  have hstart0 : (0 : UInt8) ∉ ascii "<qstar-command-arg-if:" := by decide
  rw [argIfToken, startsWith_block hstart0 (Nat.zero_le _), List.drop_zero]
  change InBounds (if List.isPrefixOf _ _ = false then _ else _) ↔ _
  split
  · rename_i hplain
    refine iff_of_true (inBounds_ok _) ?_
    rintro name rest arg htoken -
    rw [htoken, List.isPrefixOf_iff_prefix.mpr (List.prefix_append _ _)] at hplain
    cases hplain
  · rename_i htoken
    rw [Bool.not_eq_false, List.isPrefixOf_iff_prefix] at htoken
    obtain ⟨after, hafter⟩ := htoken
    have hdrop : token.text.drop (ascii "<qstar-command-arg-if:").length = after := by
      rw [← hafter, List.drop_left]
    have hlen := congrArg List.length hafter
    rw [List.length_append] at hlen
    rw [strchr_block (by omega), hdrop]
    have hfits : ArgumentFits token.text namelen limit ↔ ∀ name rest arg, after = name ++ 58 :: rest →
        58 ∉ name → name ≠ [] → name.length < namelen → (Lib.Numerals.strtol rest).2 = 58 :: arg →
          0 ≤ (Lib.Numerals.strtol rest).1 → (∀ l ∈ limit, (Lib.Numerals.strtol rest).1.toNat < l) →
            (Lib.Numerals.strtol rest).1.toNat ≤ arg.length := by
      unfold ArgumentFits
      rw [← hafter]
      simp only [List.append_cancel_left_eq]
    rw [hfits]
    cases hcolon : indexOf 58 after with
    | none =>
      refine iff_of_true (inBounds_ok _) ?_
      rintro name rest arg rfl hname
      rw [indexOf_append hname] at hcolon
      cases hcolon
    | some k =>
      obtain ⟨nm, rest, rfl, hnm, rfl⟩ := indexOf_eq_some hcolon
      rw [List.length_append, List.length_cons] at hlen
      generalize hstart : (ascii "<qstar-command-arg-if:").length = start at hdrop hlen
      change InBounds (if start + nm.length = start ∨ namelen ≤ start + nm.length - start then _ else _) ↔ _
      rw [Nat.add_sub_cancel_left]
      split
      · rename_i hrefused
        refine iff_of_true (inBounds_ok _) ?_
        intro nm' rest' arg heq hnm' hne hroom
        obtain ⟨rfl, -⟩ := eq_of_colon hnm hnm' heq
        rcases hrefused with hempty | hfull
        · exact absurd (List.eq_nil_of_length_eq_zero (by omega)) hne
        · omega
      · rename_i haccepted
        rw [not_or, Nat.not_le] at haccepted
        have hrest : token.text.drop (start + nm.length + 1) = rest := by
          rw [Nat.add_assoc, ← List.drop_drop, hdrop]
          simp
        have hne : nm ≠ [] := by
          rintro rfl
          exact haccepted.1 rfl
        rw [inBounds_bind]
        constructor
        · rintro ⟨name', -, hin⟩ nm' rest' arg heq hnm' - -
          obtain ⟨rfl, rfl⟩ := eq_of_colon hnm hnm' heq
          exact (inBounds_argIfArgument_iff (by omega) hrest name' limit).mp hin arg
        · intro h
          obtain ⟨name', -, hname, -⟩ := Buffer.copyString_eq (b := name) (s := token) (p := start)
            (n := nm.length) (by omega) haccepted.2
          refine ⟨name', hname, (inBounds_argIfArgument_iff (by omega) hrest name' limit).mpr ?_⟩
          intro arg
          exact h nm rest arg rfl hnm hne haccepted.2

/-- A token that was read has its argument inside and within the limit. -/
theorem argIfToken_one {token : CString} {argStart len : Nat} {name name' : Buffer namelen}
    {limit : Option Nat} (h : argIfToken token name limit = .ok (1, name', argStart, len)) :
    argStart + len ≤ token.text.length ∧ ∀ l ∈ limit, len < l := by
  obtain ⟨isToken, -, h⟩ := Lib.Results.bind_eq_ok.mp h
  split at h
  · cases h
  · obtain ⟨colon, -, h⟩ := Lib.Results.bind_eq_ok.mp h
    cases colon with
    | none => cases h
    | some colon =>
      dsimp only at h
      split at h
      · cases h
      · obtain ⟨name, -, h⟩ := Lib.Results.bind_eq_ok.mp h
        exact argIfArgument_one h

theorem inBounds_commandArgIfTokenParse_iff (token : CString) (name : Buffer namelen) :
    InBounds (commandArgIfTokenParse token name) ↔ ArgumentFits token.text namelen none := by
  rw [← inBounds_argIfToken_iff token name, commandArgIfTokenParse, inBounds_bind]
  constructor
  · rintro ⟨result, h, -⟩
    exact ⟨result, h⟩
  · rintro ⟨result, h⟩
    exact ⟨result, h, inBounds_ok _⟩

theorem inBounds_commandArgIfTokenParseExec_iff (token : CString) (name : Buffer namelen)
    (arg : Buffer arglen) :
    InBounds (commandArgIfTokenParseExec token name arg) ↔
      ArgumentFits token.text namelen (some arglen) := by
  rw [← inBounds_argIfToken_iff token name, commandArgIfTokenParseExec, inBounds_bind]
  constructor
  · rintro ⟨result, h, -⟩
    exact ⟨result, h⟩
  · rintro ⟨⟨result, name', argStart, len⟩, h⟩
    refine ⟨_, h, ?_⟩
    dsimp only
    split
    · exact inBounds_ok _
    · rename_i hone
      rw [not_not] at hone
      subst hone
      obtain ⟨hinside, hlimit⟩ := argIfToken_one h
      obtain ⟨arg', -, harg, -⟩ := Buffer.copyString_eq (b := arg) hinside (hlimit arglen rfl)
      rw [harg]
      exact inBounds_ok _

/-! ## Tokens of files and stages -/

theorem inBounds_targetFileTokenParse (arg : CString) (label : Buffer labellen)
    (artifact : Option (Buffer artifactlen)) : InBounds (targetFileTokenParse arg label artifact) := by
  have hstart0 : (0 : UInt8) ∉ ascii "<qstar-target-file:" := by decide
  rw [targetFileTokenParse, startsWith_block hstart0 (Nat.zero_le _), List.drop_zero]
  generalize (ascii "<qstar-target-file:").length = start
  change InBounds (if List.isPrefixOf _ _ = false then _ else _)
  split
  · exact inBounds_ok _
  · rw [strlen, stringAt_block (Nat.zero_le _), List.drop_zero]
    change InBounds (if arg.text.length ≤ start + 1 then _ else _)
    split
    · exact inBounds_ok _
    · rw [load_block (by omega)]
      change InBounds (if _ then _ else _)
      split
      · exact inBounds_ok _
      · rw [memchr_block (by omega)]
        cases hfound : indexOf 35 ((arg.text.drop start).take (arg.text.length - start - 1)) with
        | none =>
          change InBounds (if arg.text.length - start - 1 = 0 ∨
            labellen < arg.text.length - start - 1 + 1 ∨ _ ∨ _ then _ else _)
          split
          · exact inBounds_ok _
          · rename_i hroom
            obtain ⟨label', -, hlabel, -⟩ := Buffer.copyString_eq (b := label) (s := arg) (p := start)
              (n := arg.text.length - start - 1) (by omega) (by omega)
            refine inBounds_bind.mpr ⟨label', hlabel, ?_⟩
            cases artifact with
            | none => exact inBounds_ok _
            | some artifact =>
              dsimp only
              split
              · exact inBounds_ok _
              · rename_i hsize
                obtain ⟨artifact', hstore⟩ := (Buffer.inBounds_store_iff (b := artifact) (c := 0)).mpr
                  (Nat.pos_of_ne_zero hsize)
                exact inBounds_bind.mpr ⟨artifact', hstore, inBounds_ok _⟩
        | some k =>
          have hk := indexOf_lt hfound
          rw [List.length_take, List.length_drop] at hk
          change InBounds (if start + k - start = 0 ∨ labellen < start + k - start + 1 ∨
            (_ ∧ arg.text.length - start - 1 - (start + k - start) - 1 = 0) ∨
            (artifact.isSome = true ∧
              artifactlen < arg.text.length - start - 1 - (start + k - start) - 1 + 1) then _ else _)
          split
          · exact inBounds_ok _
          · rename_i hroom
            obtain ⟨label', -, hlabel, -⟩ := Buffer.copyString_eq (b := label) (s := arg) (p := start)
              (n := start + k - start) (by omega) (by omega)
            refine inBounds_bind.mpr ⟨label', hlabel, ?_⟩
            cases artifact with
            | none => exact inBounds_ok _
            | some artifact =>
              dsimp only
              split
              · exact inBounds_ok _
              · simp only [Option.isSome_some, true_and] at hroom
                obtain ⟨artifact', -, hartifact, -⟩ := Buffer.copyString_eq (b := artifact) (s := arg)
                  (p := start + k + 1) (n := arg.text.length - start - 1 - (start + k - start) - 1)
                  (by omega) (by omega)
                exact inBounds_bind.mpr ⟨artifact', hartifact, inBounds_ok _⟩

theorem inBounds_stageDirTokenLabel (arg : CString) (label : Buffer labellen) :
    InBounds (stageDirTokenLabel arg label) := by
  have hstart0 : (0 : UInt8) ∉ ascii "<qstar-stage-dir:" := by decide
  rw [stageDirTokenLabel, startsWith_block hstart0 (Nat.zero_le _), List.drop_zero]
  generalize (ascii "<qstar-stage-dir:").length = start
  change InBounds (if List.isPrefixOf _ _ = false then _ else _)
  split
  · exact inBounds_ok _
  · rw [strlen, stringAt_block (Nat.zero_le _), List.drop_zero]
    change InBounds (if arg.text.length ≤ start + 1 then _ else _)
    split
    · exact inBounds_ok _
    · rw [load_block (by omega)]
      change InBounds (if _ then _ else _)
      split
      · exact inBounds_ok _
      · split
        · exact inBounds_ok _
        · rename_i hroom
          obtain ⟨label', -, hlabel, -⟩ := Buffer.copyString_eq (b := label) (s := arg) (p := start)
            (n := arg.text.length - start - 1) (by omega) (by omega)
          rw [hlabel]
          exact inBounds_ok _

/-- The parsers of labels and tokens stay in bounds exactly where an alias fits its buffer and the
length in an `arg_if` token stays in the token. -/
theorem parsers_in_bounds_iff :
    (∀ (label : CString) (fragmentDir : Option CString) (dst : Buffer dstlen) (tmp : Buffer 4096),
        InBounds (labelCanonicalize label fragmentDir dst tmp) ↔ AliasFits label.text) ∧
      (∀ (token : CString) (name : Buffer namelen),
        InBounds (commandArgIfTokenParse token name) ↔ ArgumentFits token.text namelen none) ∧
      (∀ (token : CString) (name : Buffer namelen) (arg : Buffer arglen),
        InBounds (commandArgIfTokenParseExec token name arg) ↔
          ArgumentFits token.text namelen (some arglen)) ∧
      (∀ (arg : CString) (label : Buffer labellen) (artifact : Option (Buffer artifactlen)),
        InBounds (targetFileTokenParse arg label artifact)) ∧
      ∀ (arg : CString) (label : Buffer labellen), InBounds (stageDirTokenLabel arg label) :=
  ⟨inBounds_labelCanonicalize_iff, inBounds_commandArgIfTokenParse_iff,
    inBounds_commandArgIfTokenParseExec_iff, inBounds_targetFileTokenParse, inBounds_stageDirTokenLabel⟩

/-- A token that says its argument is longer than the token is. -/
def shortToken : CString where
  text := ascii "<qstar-command-arg-if:x:9:>"
  no_nul := by decide

/-- The byte past the NUL of such a token is loaded. -/
theorem short_token_leads_out :
    ¬ ∀ (token : CString) (name : Buffer 128), InBounds (commandArgIfTokenParse token name) := by
  intro h
  have hname : (List.replicate 128 (0 : UInt8)).length = 128 := List.length_replicate
  have hfits := (inBounds_commandArgIfTokenParse_iff _ _).mp (h shortToken ⟨List.replicate 128 0, hname⟩)
  -- Nine bytes are announced, and one is there.
  have hread : Lib.Numerals.strtol (ascii "9:>") = (9, [58, 62]) := by decide +kernel
  have hnine := hfits [120] (ascii "9:>") [62] (by decide) (by decide) (by decide) (by decide)
    (by rw [hread]) (by rw [hread]; decide) (by rintro l ⟨⟩)
  rw [hread] at hnine
  exact absurd hnine (by decide)

end QStar.Validation.ParserBounds
