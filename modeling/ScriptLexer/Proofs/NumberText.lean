import ScriptLexer.Proofs.Binary64.ReadBack
import ScriptLexer.Proofs.Numeral.Positional
import ScriptLexer.Proofs.Piece.Yield

/-!
# Numbers as they are shown

A number token is shown with the shortest decimal that reads back, written out without an exponent.
**That text is itself a numeral of the language, and scanning it gives the number back, with all
its bits** (`finite_number_readsBack`). The writer places a point in the digits it has searched
for, and the scanner cuts a numeral and rounds it; the two meet in the number that the text
spells.

That the text is the one numeral of its scan is not a matter of rounding. It follows from its shape:
digits with a point between them leave nothing over, and hold no line feed that would move the end.
-/

set_option autoImplicit false

namespace ScriptLexer

/-! ## A text that is one numeral -/

/-- A unit that is the whole text is its only piece. Nothing is behind it, so nothing could be taken
along. -/
theorem Piece.split_text {p : Piece} (hp : p.IsUnit) : split p.text = [p] := by
  have h := split_append_of_ends hp (Ends.nil : Ends p.continues [])
  rwa [List.append_nil, split] at h

/-- A numeral that is the whole text is scanned as the one number nearest to what it spells. -/
theorem scan_numeral {text : List Char} {v : ℚ} {x : Binary64} (hv : Numeral.Denotes text v)
    (hx : Binary64.IsNearest v x) :
    scan (String.ofList text) = ⟨[⟨.number, String.ofList text, some (.number x), 1⟩,
      Token.endOfFile (1 + newlines text)], []⟩ := by
  obtain ⟨y, hy, hitem⟩ := hv.numberItem 1
  rw [← hx.unique hy] at hitem
  have hunit : (Piece.number text).IsUnit := hv.isNumeral
  have hsplit : Piece.split text = [.number text] := Piece.split_text hunit
  rw [scan, Scanner.ofText, String.toList_ofList, Scanner.finish_eq, hsplit]
  simp [Piece.itemsOn, Piece.item?, hitem, Item.token?, Item.diagnostic?]

theorem newlines_eq_zero_of_allDigits {digits : List Char} (h : AllDigits digits) :
    newlines digits = 0 := by
  refine List.count_eq_zero.mpr fun hmem => ?_
  exact absurd (h _ hmem) (by decide)

theorem Numeral.IsPositional.newlines_eq_zero {text : List Char} (h : IsPositional text) :
    newlines text = 0 := by
  cases h with
  | whole _ hdigits => exact newlines_eq_zero_of_allDigits hdigits
  | @fraction whole places _ _ hdigits =>
    obtain ⟨hwhole, hplaces⟩ := allDigits_append.mp hdigits
    have hpoint : newlines ('.' :: places) = newlines places := rfl
    rw [newlines_append, hpoint, newlines_eq_zero_of_allDigits hwhole,
      newlines_eq_zero_of_allDigits hplaces]

/-! ## The text of a number -/

/-- The number is shown as digits, perhaps with a point between them, and what is shown is scanned
without a fault as that number alone, on the first line. The scan is given whole: no other token is
in it, and the bits of the literal are those of the number. -/
structure ReadsBack (x : Binary64) : Prop where
  isPositional : Numeral.IsPositional (Literal.number x).render.toList
  scan_eq : scan (Literal.number x).render =
    ⟨[⟨.number, (Literal.number x).render, some (.number x), 1⟩, Token.endOfFile 1], []⟩

/-- Without a sign, and with a number to show, the text is the shortest decimal written out. -/
theorem text_of_isFinite {x : Binary64} (hfinite : x.isFinite = true)
    (hneg : x.isNegative = false) : x.text = (Binary64.shortest x.rank).positional := by
  have hnumber : x.isNaN = false := by
    have hrank := (Binary64.isFinite_iff x).mp hfinite
    simpa [Binary64.isNaN] using hrank.le
  simp [Binary64.text, hnumber, hfinite, hneg]

/-- The decimal that is shown is spelled by its text, and the number is the nearest to it; so the
scan of the text has no other number to come to. -/
theorem readsBack_of_isFinite {x : Binary64} (hfinite : x.isFinite = true)
    (hneg : x.isNegative = false) : ReadsBack x := by
  have hshown : (Literal.number x).render =
      String.ofList (Binary64.shortest x.rank).positional := by
    rw [Literal.render, text_of_isFinite hfinite hneg]
  have hposition := Numeral.isPositional_positional (Binary64.shortest x.rank)
  have hspelled := Numeral.denotes_positional (Binary64.shortest x.rank)
  have hnearest := Binary64.isNearest_ofDecimal (Binary64.shortest x.rank)
  rw [Binary64.ofDecimal_shortest hfinite hneg] at hnearest
  constructor
  · rwa [hshown, String.toList_ofList]
  · rw [hshown, scan_numeral hspelled hnearest, hposition.newlines_eq_zero]

theorem Yields.exists_isNearest {line : Nat} {text : List Char} {t : Token} {x : Binary64}
    (h : Yields line text (some t)) (hx : t.literal = some (.number x)) :
    ∃ v, Binary64.IsNearest v x := by
  cases h with
  | @number _ v y hv hy =>
    obtain rfl : y = x := by simpa using hx
    exact ⟨v, hy⟩
  | _ => simp at hx

/-- A number among the literals of a scan is nearest to some number, so it has no sign and is no
NaN. -/
theorem exists_isNearest_of_mem_tokens {source : String} {t : Token} {x : Binary64}
    (ht : t ∈ (scan source).tokens) (hx : t.literal = some (.number x)) :
    ∃ v, Binary64.IsNearest v x := by
  rcases isScanned_of_mem_tokens ht with hend | hyields
  · rw [hend] at hx
    simp [Token.endOfFile] at hx
  · exact hyields.exists_isNearest hx

/-- **Every finite number without a sign is scanned back from the text it is shown with.** In
particular every finite number literal of a scan is. -/
theorem finite_number_readsBack :
    (∀ x : Binary64, x.isFinite = true → x.isNegative = false → ReadsBack x) ∧
      ∀ source : String, ∀ t ∈ (scan source).tokens, ∀ x, t.literal = some (.number x) →
        x.isFinite = true → ReadsBack x := by
  refine ⟨fun x => readsBack_of_isFinite, ?_⟩
  intro source t ht x hx hfinite
  obtain ⟨v, hnearest⟩ := exists_isNearest_of_mem_tokens ht hx
  exact readsBack_of_isFinite hfinite hnearest.isNegative_eq_false

/-- The least positive number reads back. So does the number that `1e23` is read as: `10 ^ 23` is
halfway between two numbers, and the even one of them is shown as `10 ^ 23`, though it is less. -/
theorem readsBack_least_and_halfway :
    ((⟨1⟩ : Binary64).isFinite = true ∧ (⟨1⟩ : Binary64).isNegative = false ∧ ReadsBack ⟨1⟩) ∧
      ⟨.number, "1e23", some (.number ⟨0x44B52D02C7E14AF6⟩), 1⟩ ∈ (scan "1e23").tokens ∧
      (⟨0x44B52D02C7E14AF6⟩ : Binary64).isFinite = true ∧
      (Literal.number ⟨0x44B52D02C7E14AF6⟩).render = "100000000000000000000000" ∧
      ReadsBack ⟨0x44B52D02C7E14AF6⟩ := by
  have hleast : (⟨1⟩ : Binary64).isFinite = true ∧ (⟨1⟩ : Binary64).isNegative = false := by decide
  have hmem : ⟨.number, "1e23", some (.number ⟨0x44B52D02C7E14AF6⟩), 1⟩ ∈
      (scan "1e23").tokens := by decide +kernel
  have hfinite : (⟨0x44B52D02C7E14AF6⟩ : Binary64).isFinite = true := by decide
  have hshown : (Literal.number ⟨0x44B52D02C7E14AF6⟩).render = "100000000000000000000000" := by
    decide +kernel
  exact ⟨⟨hleast.1, hleast.2, finite_number_readsBack.1 _ hleast.1 hleast.2⟩, hmem, hfinite, hshown,
    finite_number_readsBack.2 "1e23" _ hmem _ rfl hfinite⟩

end ScriptLexer
