import QStar.Lib.Lines

/-!
# Strings in JSON texts

A string stands between quotes, its quotes, backslashes and control characters written with a
backslash.
-/
namespace QStar.Lib.Json

open QStar.Lib.CStrings QStar.Lib.Numerals QStar.Lib.Lines

def hexDigit (n : UInt8) : UInt8 := if n < 10 then 48 + n else 87 + n

/-- A byte of a string; control characters but three are written by their number. -/
def escapeByte (c : UInt8) : Bytes :=
  if c = 34 ∨ c = 92 then [92, c]
  else if c = 10 then [92, 110]
  else if c = 13 then [92, 114]
  else if c = 9 then [92, 116]
  else if c < 32 then [92, 117, 48, 48, hexDigit (c / 16), hexDigit (c % 16)]
  else [c]

def quote (s : Bytes) : Bytes := 34 :: (s.flatMap escapeByte ++ [34])

theorem escapeByte_head (c : UInt8) : ∃ d rest, escapeByte c = d :: rest ∧ d ≠ 34 := by
  unfold escapeByte
  split
  · exact ⟨92, _, rfl, by decide⟩
  · rename_i h
    split
    · exact ⟨92, _, rfl, by decide⟩
    · split
      · exact ⟨92, _, rfl, by decide⟩
      · split
        · exact ⟨92, _, rfl, by decide⟩
        · split
          · exact ⟨92, _, rfl, by decide⟩
          · exact ⟨c, [], rfl, fun h' => h (.inl h')⟩

end QStar.Lib.Json
