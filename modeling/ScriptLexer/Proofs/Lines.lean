import Mathlib.Data.List.DropRight
import Mathlib.Data.List.SplitBy
import ScriptLexer.Prompt
import ScriptLexer.Proofs.Piece.Cutting
import ScriptLexer.Proofs.Utf8

/-!
# Lines

What the lines of an input are, without saying how they are read: the input is cut behind each line
feed and nowhere else (`cutBehind`), so every line but the last ends in one, and no line is empty.
**Bytes and text have the same lines** (`byteLines_encode`), because the byte of a line feed is in
no other character's encoding. And the prompt reads the lines that there are, one after the other
(`Prompt.cutLine_of_byteLines_eq_cons`).

The prompt scans a line without its end. What it leaves out is a run of line ends, and what is left
has no line feed in it (`lineFeed_not_mem_stripLineEnd`).

Lines keep their ends, because an input has a last line that may be without. If the ends were cut
off, an input that ends in a line feed and one that does not would have the same lines, and the
prompt could not tell an empty line from the end of the input.
-/

set_option autoImplicit false

namespace ScriptLexer

/-! ## Cutting behind a mark -/

section CutBehind

variable {α : Type} [DecidableEq α] {mark : α}

/-- A list, cut behind each mark in it. It is cut for bytes and for characters by this one
definition, so that what is to be shown of lines is shown once. -/
def cutBehind (mark : α) (list : List α) : List (List α) := list.splitBy fun a _ => a != mark

@[simp] theorem cutBehind_nil (mark : α) : cutBehind mark [] = [] := rfl

theorem isChain_append_of_not_mem {body tail : List α} (h : mark ∉ body) (htail : tail.length ≤ 1) :
    (body ++ tail).IsChain fun a _ => (a != mark) = true := by
  induction body with
  | nil =>
    match tail, htail with
    | [], _ => exact .nil
    | [a], _ => exact .singleton a
  | cons a body ih =>
    obtain ⟨hfirst, hbehind⟩ := not_or.mp (mt List.mem_cons.mpr h)
    exact List.isChain_cons.mpr ⟨fun _ _ => bne_iff_ne.mpr (Ne.symm hfirst), ih hbehind⟩

theorem cutBehind_of_not_mem {line : List α} (hne : line ≠ []) (h : mark ∉ line) :
    cutBehind mark line = [line] := by
  have hchain : (line ++ []).IsChain fun a _ => (a != mark) = true :=
    isChain_append_of_not_mem h (Nat.zero_le 1)
  rw [List.append_nil] at hchain
  exact List.splitBy_of_isChain hne hchain

/-- The first line goes up to the first mark, and the others are the lines of what is behind it. -/
theorem cutBehind_append_cons {body : List α} (h : mark ∉ body) (rest : List α) :
    cutBehind mark (body ++ mark :: rest) = (body ++ [mark]) :: cutBehind mark rest := by
  have hcut : ∀ a ∈ (body ++ [mark]).getLast?, ∀ b ∈ rest.head?, (a != mark) = false := by
    intro a ha b _
    rw [List.getLast?_concat, Option.mem_some] at ha
    rw [ha, bne_self_eq_false]
  have hline : (body ++ [mark]).splitBy (fun a _ => a != mark) = [body ++ [mark]] :=
    List.splitBy_of_isChain (by simp) (isChain_append_of_not_mem h (Nat.le_refl 1))
  rw [cutBehind, List.append_cons, List.splitBy_append hcut, hline]
  rfl

/-- Every list is empty, or without a mark, or such a list and a mark in front of another one. -/
@[elab_as_elim]
theorem cutBehind_induction (mark : α) {motive : List α → Prop} (nil : motive [])
    (last : ∀ line, line ≠ [] → mark ∉ line → motive line)
    (cons : ∀ body rest, mark ∉ body → motive rest → motive (body ++ mark :: rest))
    (list : List α) : motive list := by
  induction hn : list.length using Nat.strongRecOn generalizing list with
  | ind n ih =>
    subst hn
    by_cases hmark : mark ∈ list
    · -- up to the first mark, behind which the list is shorter
      obtain ⟨body, rest, rfl, hbody⟩ := List.eq_append_cons_of_mem hmark
      refine cons body rest hbody (ih rest.length ?_ rest rfl)
      rw [List.length_append, List.length_cons]
      omega
    · by_cases hne : list = []
      · rw [hne]
        exact nil
      · exact last list hne hmark

/-- In a line there is no mark but at its end. Whether there is one at its end is not said, since
the last line may be without. -/
theorem not_mem_dropLast_of_mem_cutBehind {line list : List α} (h : line ∈ cutBehind mark list) :
    mark ∉ line.dropLast := by
  induction list using cutBehind_induction mark with
  | nil => simp [cutBehind_nil] at h
  | last only hne honly =>
    rw [cutBehind_of_not_mem hne honly, List.mem_singleton] at h
    rw [h]
    exact fun hmem => honly (List.dropLast_subset only hmem)
  | cons body rest hbody ih =>
    rw [cutBehind_append_cons hbody] at h
    rcases List.mem_cons.mp h with rfl | h
    · rwa [List.dropLast_concat]
    · exact ih h

end CutBehind

/-! ## The lines of bytes and of text -/

/-- The lines of an input, each with its line feed, which the last may be without. -/
def byteLines (input : List UInt8) : List (List UInt8) := cutBehind 0x0A input

/-- The lines of a text, each with its line feed, which the last may be without. -/
def textLines (text : String) : List String := (cutBehind '\n' text.toList).map String.ofList

namespace Utf8

theorem not_lt_of_mem_tailBytes {b : UInt8} {n more : Nat} (h : b ∈ tailBytes n more) :
    ¬ b < 0x80 := by
  induction more with
  | zero => simp [tailBytes] at h
  | succ more ih =>
    rcases List.mem_cons.mp h with rfl | h
    · rw [UInt8.lt_iff_toNat_lt, toNat_tailByte]
      exact Nat.not_lt_of_le (Nat.le_add_right 0x80 _)
    · exact ih h

/-- Every byte of a longer encoding is greater than those of the ASCII characters. So the byte of a
line feed is a line feed, and bytes can be cut into lines before they are known to be text. -/
theorem lineFeed_not_mem_encodeChar {c : Char} (h : c ≠ '\n') :
    0x0A ∉ String.utf8EncodeChar c := by
  intro hmem
  by_cases hshort : c.toNat < 0x80
  · rw [encodeChar_of_lt hshort, List.mem_singleton, ← UInt8.toNat_inj,
      UInt8.toNat_ofNat_of_lt' (Nat.lt_trans hshort (by decide))] at hmem
    have hchar : Char.ofNat c.toNat = Char.ofNat 0x0A := congrArg Char.ofNat hmem.symm
    rw [Char.ofNat_toNat] at hchar
    exact h hchar
  · obtain ⟨b, lead, hleads, hencode⟩ := exists_leads hshort
    rw [hencode] at hmem
    rcases List.mem_cons.mp hmem with rfl | hmem
    · exact hleads.not_lt (by decide)
    · exact not_lt_of_mem_tailBytes hmem (by decide)

theorem lineFeed_not_mem_encode {text : String} (h : '\n' ∉ text.toList) :
    0x0A ∉ encode text := by
  rw [encode, List.mem_flatMap]
  rintro ⟨c, hc, hmem⟩
  exact lineFeed_not_mem_encodeChar (fun heq => h (heq ▸ hc)) hmem

theorem encode_eq_nil_iff {text : String} : encode text = [] ↔ text.toList = [] := by
  constructor
  · intro h
    have hparts := parts_encode text
    rw [h, parts_nil] at hparts
    exact List.map_eq_nil_iff.mp hparts.symm
  · intro h
    simp [encode, h]

end Utf8

/-- **Bytes and text have the same lines.** -/
theorem byteLines_encode (text : String) :
    byteLines (Utf8.encode text) = (textLines text).map Utf8.encode := by
  obtain ⟨chars, rfl⟩ : ∃ chars, String.ofList chars = text := ⟨_, String.ofList_toList⟩
  rw [textLines, String.toList_ofList]
  induction chars using cutBehind_induction '\n' with
  | nil => rfl
  | last line hne hline =>
    have hline' : '\n' ∉ (String.ofList line).toList := by rwa [String.toList_ofList]
    have hne' : Utf8.encode (String.ofList line) ≠ [] := by
      rw [Ne, Utf8.encode_eq_nil_iff, String.toList_ofList]
      exact hne
    rw [byteLines, cutBehind_of_not_mem hne' (Utf8.lineFeed_not_mem_encode hline'),
      cutBehind_of_not_mem hne hline]
    rfl
  | cons body rest hbody ih =>
    have hbody' : '\n' ∉ (String.ofList body).toList := by rwa [String.toList_ofList]
    -- a line feed is encoded as one byte that nothing else has, so bytes and text break alike
    have hbreak : Utf8.encode (String.ofList (body ++ '\n' :: rest)) =
        Utf8.encode (String.ofList body) ++ 0x0A :: Utf8.encode (String.ofList rest) := by
      simp only [Utf8.encode, String.toList_ofList, List.flatMap_append, List.flatMap_cons]
      rfl
    have hfirst : Utf8.encode (String.ofList (body ++ ['\n'])) =
        Utf8.encode (String.ofList body) ++ [0x0A] := by
      rw [String.ofList_append, Utf8.encode_append]
      rfl
    rw [hbreak, byteLines, cutBehind_append_cons (Utf8.lineFeed_not_mem_encode hbody'),
      cutBehind_append_cons hbody, List.map_cons, List.map_cons, hfirst, ← ih]
    rfl

namespace Prompt

theorem cutLine_of_not_mem {line : List UInt8} (h : 0x0A ∉ line) : cutLine line = (line, []) := by
  have hdrop : line.dropWhile (· != 0x0A) = [] :=
    List.dropWhile_eq_nil_iff.mpr (bne_of_not_mem h)
  rw [cutLine, hdrop]

theorem cutLine_append_cons {body : List UInt8} (h : 0x0A ∉ body) (rest : List UInt8) :
    cutLine (body ++ 0x0A :: rest) = (body ++ [0x0A], rest) := by
  have hbody := bne_of_not_mem h
  rw [cutLine, List.takeWhile_append_of_pos hbody, List.dropWhile_append_of_pos hbody]
  simp

/-- The line that is read is the first one, and the others are still to be read. This is the step
that the loop of the prompt makes; at the end of the input there is no first line, and an empty one
is read. -/
theorem cutLine_of_byteLines_eq_cons {input line : List UInt8} {lines : List (List UInt8)}
    (h : byteLines input = line :: lines) :
    (cutLine input).1 = line ∧ line ≠ [] ∧ byteLines (cutLine input).2 = lines := by
  rw [byteLines] at h
  induction input using cutBehind_induction (0x0A : UInt8) with
  | nil => simp [cutBehind_nil] at h
  | last only hne honly =>
    rw [cutBehind_of_not_mem hne honly] at h
    obtain ⟨rfl, rfl⟩ := List.cons.inj h
    rw [cutLine_of_not_mem honly]
    exact ⟨rfl, hne, rfl⟩
  | cons body rest hbody =>
    rw [cutBehind_append_cons hbody] at h
    obtain ⟨rfl, rfl⟩ := List.cons.inj h
    rw [cutLine_append_cons hbody]
    exact ⟨rfl, List.append_ne_nil_of_right_ne_nil _ (List.cons_ne_nil _ _), rfl⟩

theorem eq_nil_of_byteLines_eq_nil {input : List UInt8} (h : byteLines input = []) :
    input = [] := List.splitBy_eq_nil.mp h

/-! ## Lines without their ends -/

theorem toList_stripLineEnd (line : String) :
    (stripLineEnd line).toList = line.toList.rdropWhile isLineEnd := by
  rw [stripLineEnd, String.toList_ofList]
  rfl

/-- What ends a line and is no line feed is a blank. It is the carriage return, which is why leaving
it out changes nothing that is scanned. -/
theorem isBlank_of_isLineEnd {c : Char} (h : isLineEnd c = true) (hne : c ≠ '\n') :
    isBlank c = true := by
  rw [isLineEnd, Bool.or_eq_true, beq_iff_eq, beq_iff_eq, or_iff_right hne] at h
  rw [h]
  rfl

@[simp] theorem stripLineEnd_append_lineFeed (line : String) :
    stripLineEnd (line ++ "\n") = stripLineEnd line := by
  rw [← String.toList_inj, toList_stripLineEnd, toList_stripLineEnd, String.toList_append]
  exact List.rdropWhile_concat_pos _ _ _ rfl

/-- What is left out of a line that has no line feed is blank. -/
theorem exists_stripLineEnd_append {body : List Char} (h : '\n' ∉ body) :
    ∃ blanks, (stripLineEnd (String.ofList body)).toList ++ blanks = body ∧
      ∀ c ∈ blanks, isBlank c = true := by
  refine ⟨body.rtakeWhile isLineEnd, ?_, ?_⟩
  · rw [toList_stripLineEnd, String.toList_ofList]
    exact List.rdropWhile_append_rtakeWhile
  · intro c hc
    have hmem := (List.rtakeWhile_suffix isLineEnd body).subset hc
    exact isBlank_of_isLineEnd (List.mem_rtakeWhile_imp hc) fun heq => h (heq ▸ hmem)

theorem stripLineEnd_isPrefix (line : List Char) :
    (stripLineEnd (String.ofList line)).toList <+: line := by
  rw [toList_stripLineEnd, String.toList_ofList]
  exact List.rdropWhile_prefix isLineEnd _

/-- A line without its end has no line feed: the only one was at its end. -/
theorem lineFeed_not_mem_stripLineEnd {source line : String} (h : line ∈ textLines source) :
    '\n' ∉ (stripLineEnd line).toList := by
  obtain ⟨chars, hchars, rfl⟩ := List.mem_map.mp h
  have hinner := not_mem_dropLast_of_mem_cutBehind hchars
  rcases List.eq_nil_or_concat' chars with rfl | ⟨body, c, rfl⟩
  · simp [stripLineEnd]
  · rw [List.dropLast_concat] at hinner
    -- the last character is the one that the cut does not speak of
    by_cases hc : c = '\n'
    · subst hc
      intro hmem
      exact hinner ((stripLineEnd_isPrefix body).subset (by simpa using hmem))
    · intro hmem
      have hline := (stripLineEnd_isPrefix (body ++ [c])).subset hmem
      rcases List.mem_append.mp hline with hbody | hlast
      · exact hinner hbody
      · exact hc (List.mem_singleton.mp hlast).symm

end Prompt

end ScriptLexer
