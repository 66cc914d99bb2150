import ScriptLexer.Program
import ScriptLexer.Proofs.Utf8

/-!
# Where a character starts

A byte that starts an encoding is never one of those that follow in one. **So the bytes in front of
a character are cut into the same parts whatever they end in**, a character that breaks off or
nothing like one (`parts_append`), and what is behind a character is cut as if it stood by itself
(`parts_encode_append`). Text among undecodable bytes is therefore read as it is
(`sourceText_append_encode_append`).

For text that is empty the first of these fails, which is the one condition below: two halves of a
character on the two sides of nothing are a character.
-/

set_option autoImplicit false

namespace ScriptLexer

namespace Utf8

/-! ## Bytes that start nothing -/

/-- The byte is one of those that follow the first of an encoding. Most of them can come second
behind some first bytes only, but none of them ever comes first. -/
def IsTail (b : UInt8) : Prop := 0x80 ≤ b ∧ b ≤ 0xBF

theorem lead?_of_isTail {b : UInt8} (h : IsTail b) : lead? b = none := by
  obtain ⟨hlow, hhigh⟩ := h
  simp only [UInt8.le_iff_toNat_le, UInt8.reduceToNat] at hlow hhigh
  simp only [lead?, UInt8.le_iff_toNat_le, ← UInt8.toNat_inj, UInt8.reduceToNat]
  split_ifs <;> first | rfl | omega

/-- The bytes start with none that could follow the bytes in front of them. No bytes do, too. -/
def StartsAnew (bytes : List UInt8) : Prop := ∀ b, bytes.head? = some b → ¬ IsTail b

/-- A character starts anew: if its first byte were a tail, the decoder would not find the character
there. -/
theorem startsAnew_encodeChar_append (c : Char) (rest : List UInt8) :
    StartsAnew (String.utf8EncodeChar c ++ rest) := by
  obtain ⟨b, tail, hencode, hcut⟩ := cut_encodeChar c rest
  rw [hencode]
  intro d hd htail
  obtain rfl : b = d := by simpa using hd
  -- with such a byte in front nothing is a character
  have hnot : ¬ b < 0x80 := by
    rw [UInt8.lt_iff_toNat_lt]
    exact Nat.not_lt_of_le (UInt8.le_iff_toNat_le.mp htail.1)
  rw [cut, if_neg hnot, lead?_of_isTail htail] at hcut
  exact absurd (Prod.mk.inj hcut).1.symm (Option.some_ne_none c)

/-! ## In front of a first byte -/

/-- What follows is taken from the bytes in front of a first byte only. The ranges stay among the
tails all the way, which is what the two hypotheses on them are for. -/
theorem follow_append {low high : UInt8} (hlow : 0x80 ≤ low.toNat) (hhigh : high.toNat ≤ 0xBF)
    {more : List UInt8} (hmore : StartsAnew more) (value count : Nat) (bytes : List UInt8) :
    follow value count low high (bytes ++ more) =
      ((follow value count low high bytes).1, (follow value count low high bytes).2 ++ more) := by
  fun_induction follow value count low high bytes with
  | case1 => rw [follow]
  | case2 value count low high =>
    cases more with
    | nil => rfl
    | cons b more =>
      -- the byte behind is no tail, and the range is among the tails
      have hout : ¬ (low ≤ b ∧ b ≤ high) := by
        rintro ⟨hlow', hhigh'⟩
        rw [UInt8.le_iff_toNat_le] at hlow' hhigh'
        exact hmore b rfl ⟨UInt8.le_iff_toNat_le.mpr (Nat.le_trans hlow hlow'),
          UInt8.le_iff_toNat_le.mpr (Nat.le_trans hhigh' hhigh)⟩
      rw [List.nil_append, follow, if_neg hout]
  | case3 value count low high b rest hin ih =>
    rw [List.cons_append, follow, if_pos hin, ih (Nat.le_refl _) (Nat.le_refl _)]
  | case4 value count low high b rest hout =>
    rw [List.cons_append, follow, if_neg hout]

/-- A part ends where a character starts, at the latest. -/
theorem cut_append {more : List UInt8} (hmore : StartsAnew more) (b : UInt8) (rest : List UInt8) :
    cut b (rest ++ more) = ((cut b rest).1, (cut b rest).2 ++ more) := by
  by_cases hshort : b < 0x80
  · rw [cut, cut, if_pos hshort, if_pos hshort]
  · cases hlead : lead? b with
    | none => simp only [cut, if_neg hshort, hlead]
    | some lead =>
      obtain ⟨hlow, hhigh⟩ := range_of_lead? hlead
      rw [cut_of_lead? hlead, cut_of_lead? hlead, follow_append hlow hhigh hmore]

/-- **In front of a first byte the bytes are cut into the parts that they have by themselves.** -/
theorem parts_append {more : List UInt8} (hmore : StartsAnew more) (bytes : List UInt8) :
    parts (bytes ++ more) = parts bytes ++ parts more := by
  induction bytes using parts_induction with
  | nil => simp
  | part b rest ih =>
    rw [List.cons_append, parts_cons, cut_append hmore, parts_cons, ih, List.cons_append]

theorem parts_append_encode_append (before behind : List UInt8) {text : String} (h : text ≠ "") :
    parts (before ++ encode text ++ behind) =
      parts before ++ (text.toList.map some ++ parts behind) := by
  have hstarts : StartsAnew (encode text ++ behind) := by
    obtain ⟨c, chars, hchars⟩ := List.exists_cons_of_ne_nil (mt String.toList_eq_nil_iff.mp h)
    rw [encode, hchars, List.flatMap_cons, List.append_assoc]
    exact startsAnew_encodeChar_append c _
  rw [List.append_assoc, parts_append hstarts, parts_encode_append]

theorem decodeLossy_append_encode_append (before behind : List UInt8) {text : String}
    (h : text ≠ "") :
    decodeLossy (before ++ encode text ++ behind) =
      decodeLossy before ++ text ++ decodeLossy behind := by
  have htext : (text.toList.map some).map (·.getD replacement) = text.toList := by simp
  rw [decodeLossy, parts_append_encode_append before behind h, List.map_append, List.map_append,
    htext, String.ofList_append, String.ofList_append, String.ofList_toList, String.append_assoc]
  rfl

end Utf8

/-- **Undecodable bytes do no harm to the text around them.** Text among other bytes is read as it
is, and so are the bytes on both sides of it, each by themselves. Text alone is read as it is, so
what has been read once is read as the same text again. -/
theorem sourceText_append_encode_append :
    (∀ (before behind : List UInt8) (text : String), text ≠ "" →
      Program.sourceText (before ++ Utf8.encode text ++ behind) =
        Program.sourceText before ++ text ++ Program.sourceText behind) ∧
      (∀ text, Program.sourceText (Utf8.encode text) = text) ∧
      ∀ bytes, Program.sourceText (Utf8.encode (Program.sourceText bytes)) =
        Program.sourceText bytes := by
  refine ⟨?_, ?_, ?_⟩
  · intro before behind text h
    exact Utf8.decodeLossy_append_encode_append before behind h
  · intro text
    exact Utf8.decodeLossy_encode text
  · intro bytes
    exact Utf8.decodeLossy_encode (Program.sourceText bytes)

/-- Three bytes of four in front of the text, and two behind it that would follow in one. The text
starts with a byte order mark and ends in a replacement character of its own. -/
theorem sourceText_between_broken_characters :
    "\ufeffa\ufffd" ≠ "" ∧
      Program.sourceText ([0xF0, 0x9F, 0x98] ++ Utf8.encode "\ufeffa\ufffd" ++ [0x80, 0x80]) =
        "\ufffd\ufeffa\ufffd\ufffd\ufffd" := by
  have hne : "\ufeffa\ufffd" ≠ "" := by decide
  have hbefore : Program.sourceText [0xF0, 0x9F, 0x98] = "\ufffd" := by decide +kernel
  have hbehind : Program.sourceText [0x80, 0x80] = "\ufffd\ufffd" := by decide +kernel
  have h := sourceText_append_encode_append.1 [0xF0, 0x9F, 0x98] [0x80, 0x80] _ hne
  rw [hbefore, hbehind] at h
  exact ⟨hne, h⟩

end ScriptLexer
