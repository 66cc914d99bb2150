import ScriptLexer.Proofs.NumberText
import ScriptLexer.Proofs.Piece.Separating
import ScriptLexer.Proofs.Session
import ScriptLexer.Proofs.Utf8

/-!
# The output of a run tells its scan

Lexemes and literals are shown as they are, without quotes or escapes, and a string may hold line
feeds, braces and whole lines that look like those of tokens. **All the same the output of a scan
can be read in one way only** (`output_eq_iff`). A record is taken apart from its front: the name of
the kind says what sort of lexeme follows, a string ends at the first quote behind its own, any
other lexeme holds no apostrophe, and kind, lexeme and line together leave no choice for the
literal.

Statements here are about a record in front of other text, and never about a record by itself
(`render_append_inj`). Only then do they go on to a row of records, whose boundaries are not marked
by anything that could not also be inside one.

That goes for scans and not for tokens at large, among which different ones may look the same. Nor
are those compared as they look: of two zeros that are equal one may have a sign. A scan holds no
number with a sign, and no NaN, so there the two notions of sameness agree (`equal_iff_eq`).
-/

set_option autoImplicit false

namespace ScriptLexer

/-! ## Reading from the front -/

/-- A text up to a character that is not in it is told from what follows it. This is how the name of
a kind, a lexeme and the contents of a string are found, each with a character of its own. -/
theorem append_cons_inj {d : Char} {run run' rest rest' : List Char} (hrun : d ∉ run)
    (hrun' : d ∉ run') (h : run ++ d :: rest = run' ++ d :: rest') : run = run' ∧ rest = rest' := by
  have hends : ∀ behind, Ends (· != d) (d :: behind) := fun _ => .cons (by simp)
  obtain ⟨heq, hcons⟩ := Ends.append_inj (bne_of_not_mem hrun) (bne_of_not_mem hrun') (hends _)
    (hends _) h
  exact ⟨heq, (List.cons.inj hcons).2⟩

/-- Records that can each be told from what follows them can be told apart in a row. No record is
empty, or a row would not tell how many there are. -/
theorem eq_of_flatMap_eq {α : Type} {f : α → List Char} {P : α → Prop} (hne : ∀ x, f x ≠ [])
    (hinj : ∀ x y rest rest', P x → P y → f x ++ rest = f y ++ rest' → x = y ∧ rest = rest')
    {xs ys : List α} (hxs : ∀ x ∈ xs, P x) (hys : ∀ y ∈ ys, P y)
    (h : xs.flatMap f = ys.flatMap f) : xs = ys := by
  induction xs generalizing ys with
  | nil =>
    cases ys with
    | nil => rfl
    | cons y ys => simp [hne] at h
  | cons x xs ih =>
    cases ys with
    -- a record against none: the row of the other would have to be empty
    | nil => simp [hne] at h
    | cons y ys =>
      rw [List.flatMap_cons, List.flatMap_cons] at h
      obtain ⟨hx, hbehind⟩ := List.forall_mem_cons.mp hxs
      obtain ⟨hy, hbehind'⟩ := List.forall_mem_cons.mp hys
      obtain ⟨rfl, hrest⟩ := hinj x y _ _ hx hy h
      rw [ih hbehind hbehind' hrest]

/-- A number is told from what follows it, if that does not start with a digit. -/
theorem repr_append_inj {m n : Nat} {d : Char} {rest rest' : List Char} (hd : d.isDigit = false)
    (h : m.repr.toList ++ d :: rest = n.repr.toList ++ d :: rest') : m = n ∧ rest = rest' := by
  rw [Nat.toList_repr, Nat.toList_repr] at h
  obtain ⟨heq, hcons⟩ := Ends.append_inj (Numeral.allDigits_toDigits m)
    (Numeral.allDigits_toDigits n) (.cons hd) (.cons hd) h
  refine ⟨?_, (List.cons.inj hcons).2⟩
  rw [← Nat.ofDigitChars_ten_toDigits (n := m), heq, Nat.ofDigitChars_ten_toDigits]

/-! ## Bytes and characters -/

namespace Utf8

theorem encodeLines_eq (lines : List String) :
    encodeLines lines =
      encode (String.ofList (lines.flatMap fun line => line.toList ++ ['\n'])) := by
  rw [encode, String.toList_ofList, List.flatMap_assoc, encodeLines]
  congr 1
  funext line
  rw [encode, String.toList_append]
  rfl

theorem flatMap_eq_of_encodeLines_eq {xs ys : List String} (h : encodeLines xs = encodeLines ys) :
    (xs.flatMap fun line => line.toList ++ ['\n']) =
      ys.flatMap fun line => line.toList ++ ['\n'] := by
  rw [encodeLines_eq, encodeLines_eq] at h
  exact String.ofList_injective (encode_injective h)

end Utf8

/-- Lines of records that can each be told from what follows them can be told apart. -/
theorem eq_of_encodeLines_eq {α : Type} {render : α → String} {P : α → Prop}
    (hinj : ∀ x y rest rest', P x → P y →
      (render x).toList ++ rest = (render y).toList ++ rest' → x = y ∧ rest = rest')
    {xs ys : List α} (hxs : ∀ x ∈ xs, P x) (hys : ∀ y ∈ ys, P y)
    (h : Utf8.encodeLines (xs.map render) = Utf8.encodeLines (ys.map render)) : xs = ys := by
  have hchars := Utf8.flatMap_eq_of_encodeLines_eq h
  rw [List.flatMap_map, List.flatMap_map] at hchars
  refine eq_of_flatMap_eq (by simp) ?_ hxs hys hchars
  intro x y rest rest' hx hy heq
  rw [List.append_assoc, List.append_assoc] at heq
  obtain ⟨rfl, hrest⟩ := hinj x y _ _ hx hy heq
  exact ⟨rfl, List.append_cancel_left hrest⟩

/-! ## Tokens -/

/-- The lexeme of a string is quoted, and there is no apostrophe in any other. So the kind, which is
shown first, says how the end of the lexeme is found. -/
theorem Yields.lexeme_cases {line : Nat} {text : List Char} {t : Token}
    (h : Yields line text (some t)) :
    (t.kind = .string ∧ ∃ contents, text = '"' :: contents ++ ['"'] ∧ '"' ∉ contents) ∨
      (t.kind ≠ .string ∧ '\'' ∉ text) := by
  cases h with
  | operator o => exact Or.inr ⟨by simp, by cases o <;> decide⟩
  | string hcontents => exact Or.inl ⟨rfl, _, rfl, hcontents⟩
  | number hv _ =>
    refine Or.inr ⟨by simp, fun hmem => ?_⟩
    exact absurd (Numeral.isPart_of_isNumeral hv.isNumeral _ hmem) (by decide)
  | keyword hword _ =>
    refine Or.inr ⟨by simp, fun hmem => ?_⟩
    exact absurd (isWordChar_of_isWord hword _ hmem) (by decide)
  | identifier hword _ =>
    refine Or.inr ⟨by simp, fun hmem => ?_⟩
    exact absurd (isWordChar_of_isWord hword _ hmem) (by decide)

theorem Kind.colon_not_mem_name (k : Kind) : ':' ∉ k.name.toList := by
  cases k with
  | operator o => cases o <;> decide
  | keyword k => cases k <;> decide
  | identifier | string | number | endOfFile => decide

/-- The text of a token in front of other text, cut where its parts end. It is bracketed to the
right, so that one part after the other can be taken off the front. -/
theorem Token.toList_render_append (t : Token) (rest : List Char) :
    t.render.toList ++ rest =
      '\x7b' :: (t.kind.name.toList ++ ':' :: (" ('".toList ++ (t.lexeme.toList ++
        '\'' :: (", line ".toList ++ (t.line.repr.toList ++ ')' :: (", ".toList ++
          ((renderLiteral t.literal).toList ++ '\x7d' :: rest))))))) := by
  simp [render]

namespace Token.IsScanned

variable {t u : Token}

theorem lexeme_cases (h : t.IsScanned) :
    (t.kind = .string ∧ ∃ contents, t.lexeme.toList = '"' :: contents ++ ['"'] ∧ '"' ∉ contents) ∨
      (t.kind ≠ .string ∧ '\'' ∉ t.lexeme.toList) := by
  rcases h with h | h
  · rw [h]
    exact Or.inr ⟨by simp [endOfFile], by simp [endOfFile]⟩
  · exact h.lexeme_cases

/-- Kind, lexeme and line are all there is to a token of a scan. The literal is a function of the
other two, so nothing has to be read off the way it is shown. -/
theorem ext (ht : t.IsScanned) (hu : u.IsScanned) (hkind : t.kind = u.kind)
    (hlexeme : t.lexeme = u.lexeme) (hline : t.line = u.line) : t = u := by
  rcases ht with ht | ht
  · have hend : t.kind = .endOfFile := by rw [ht, endOfFile]
    rcases hu with hu | hu
    · rw [ht, hu, hline]
    · exact absurd (hkind ▸ hend) hu.lexeme_eq.2.2
  · rcases hu with hu | hu
    · have hend : u.kind = .endOfFile := by rw [hu, endOfFile]
      exact absurd (hkind.trans hend) ht.lexeme_eq.2.2
    · rw [hlexeme, hline] at ht
      exact Option.some.inj (ht.eq_of_yields hu)

/-- The lexeme is told from the apostrophe behind it, although a string may hold any number of them.
-/
theorem lexeme_append_inj (ht : t.IsScanned) (hu : u.IsScanned) (hkind : t.kind = u.kind)
    {rest rest' : List Char}
    (h : t.lexeme.toList ++ '\'' :: rest = u.lexeme.toList ++ '\'' :: rest') :
    t.lexeme = u.lexeme ∧ rest = rest' := by
  rcases ht.lexeme_cases with ⟨hstring, contents, htext, hquote⟩ | ⟨hother, happostrophe⟩
  · rcases hu.lexeme_cases with ⟨-, contents', htext', hquote'⟩ | ⟨hother, -⟩
    · -- the quote that ends a string is the first one behind its own
      rw [htext, htext'] at h
      simp only [List.cons_append, List.append_assoc, List.cons.injEq, true_and,
        List.nil_append] at h
      obtain ⟨rfl, hrest⟩ := append_cons_inj hquote hquote' h
      exact ⟨String.toList_injective (htext.trans htext'.symm), (List.cons.inj hrest).2⟩
    · exact absurd (hkind ▸ hstring) hother
  · rcases hu.lexeme_cases with ⟨hstring, -⟩ | ⟨-, happostrophe'⟩
    · exact absurd (hkind.trans hstring) hother
    · obtain ⟨htext, hrest⟩ := append_cons_inj happostrophe happostrophe' h
      exact ⟨String.toList_injective htext, hrest⟩

/-- A token of a scan is told by what it is shown as, and from what follows it. -/
theorem render_append_inj (ht : t.IsScanned) (hu : u.IsScanned) {rest rest' : List Char}
    (h : t.render.toList ++ rest = u.render.toList ++ rest') : t = u ∧ rest = rest' := by
  have hwhole := h
  rw [toList_render_append, toList_render_append] at h
  obtain ⟨hname, h⟩ := append_cons_inj (Kind.colon_not_mem_name _) (Kind.colon_not_mem_name _)
    (List.cons.inj h).2
  have hkind := Kind.name_injective (String.toList_injective hname)
  obtain ⟨hlexeme, h⟩ := ht.lexeme_append_inj hu hkind (List.append_cancel_left h)
  obtain ⟨hline, -⟩ := repr_append_inj rfl (List.append_cancel_left h)
  obtain rfl := ht.ext hu hkind hlexeme hline
  exact ⟨rfl, List.append_cancel_left hwhole⟩

end Token.IsScanned

/-! ## Diagnostics -/

/-- The diagnostic is of one of the two faults that a text may have. The third, which would be the
scanner's own, is shown not to occur. -/
structure Diagnostic.IsOfText (d : Diagnostic) : Prop where
  origin : d.origin = .lexical
  message : (∃ c : Char, d.message = "Unexpected character '" ++ c.toString ++ "'.") ∨
    d.message = "Unterminated string."

theorem Piece.isOfText_of_mem_split {source : List Char} {p : Piece} (hp : p ∈ split source)
    {line : Nat} {d : Diagnostic} (h : p.item? line = some (.error d)) : d.IsOfText := by
  rcases isUnit_of_mem_split hp with hunit | ⟨c, rfl⟩ | ⟨contents, rfl, -⟩
  · obtain ⟨out, -, hmeans⟩ := hunit.yields line
    rw [hmeans] at h
    obtain ⟨t, -, ht⟩ := Option.map_eq_some_iff.mp h
    contradiction
  · obtain rfl := Except.error.inj (Option.some.inj h)
    exact ⟨rfl, Or.inl ⟨c, rfl⟩⟩
  · obtain rfl := Except.error.inj (Option.some.inj h)
    exact ⟨rfl, Or.inr rfl⟩

/-- The diagnostics of a scan are all of that sort, since the pieces of a text are units, stray
characters and open strings. -/
theorem isOfText_of_mem_diagnostics {source : String} {d : Diagnostic}
    (hd : d ∈ (scan source).diagnostics) : d.IsOfText := by
  rw [scan_eq] at hd
  obtain ⟨item, hitem, hdiagnostic⟩ := List.mem_filterMap.mp hd
  obtain ⟨p, hmem, start, hp⟩ := Piece.exists_of_mem_itemsOn hitem
  cases item with
  | ok t => simp [Item.diagnostic?] at hdiagnostic
  | error e =>
    obtain rfl := Option.some.inj hdiagnostic
    exact Piece.isOfText_of_mem_split hmem hp

namespace Diagnostic.IsOfText

variable {d e : Diagnostic}

theorem toList_render_append (d : Diagnostic) (rest : List Char) :
    d.render.toList ++ rest = "[line ".toList ++ (d.line.repr.toList ++ ']' :: (" Error".toList ++
      (d.origin.place.toList ++ (": ".toList ++ (d.message.toList ++ rest))))) := by
  simp [render, reportText]

theorem toList_unexpected_append (c : Char) (rest : List Char) :
    ("Unexpected character '" ++ c.toString ++ "'.").toList ++ rest =
      "Unexpected character '".toList ++ c :: ("'.".toList ++ rest) := by
  simp [Char.toString]

/-- The two messages differ in their third character. -/
theorem unexpected_append_ne_unterminated_append (c : Char) (rest rest' : List Char) :
    ("Unexpected character '" ++ c.toString ++ "'.").toList ++ rest ≠
      "Unterminated string.".toList ++ rest' := by
  rw [toList_unexpected_append]
  simp

theorem message_append_inj (hd : d.IsOfText) (he : e.IsOfText) {rest rest' : List Char}
    (h : d.message.toList ++ rest = e.message.toList ++ rest') :
    d.message = e.message ∧ rest = rest' := by
  rcases hd.message with ⟨c, hc⟩ | hc <;> rcases he.message with ⟨c', hc'⟩ | hc' <;>
    rw [hc, hc'] at h ⊢
  · rw [toList_unexpected_append, toList_unexpected_append] at h
    obtain ⟨rfl, hrest⟩ := List.cons.inj (List.append_cancel_left h)
    exact ⟨rfl, List.append_cancel_left hrest⟩
  · exact absurd h (unexpected_append_ne_unterminated_append c rest rest')
  · exact absurd h.symm (unexpected_append_ne_unterminated_append c' rest' rest)
  · exact ⟨rfl, List.append_cancel_left h⟩

/-- A diagnostic of a scan is told by its text, and from what follows it. -/
theorem render_append_inj (hd : d.IsOfText) (he : e.IsOfText) {rest rest' : List Char}
    (h : d.render.toList ++ rest = e.render.toList ++ rest') : d = e ∧ rest = rest' := by
  rw [toList_render_append, toList_render_append] at h
  obtain ⟨hline, h⟩ := repr_append_inj rfl (List.append_cancel_left h)
  rw [hd.origin, he.origin] at h
  obtain ⟨hmessage, hrest⟩ := hd.message_append_inj he
    (List.append_cancel_left (List.append_cancel_left (List.append_cancel_left h)))
  refine ⟨?_, hrest⟩
  cases d
  cases e
  simp only [Diagnostic.mk.injEq]
  exact ⟨hd.origin.trans he.origin.symm, hline, hmessage⟩

end Diagnostic.IsOfText

/-! ## The two notions of sameness -/

/-- Among numbers without a sign, equal numbers have the same bits. -/
theorem Binary64.numericallyEqual_iff_eq {x y : Binary64} (hx : x.isNegative = false)
    (hnumber : x.isNaN = false) (hy : y.isNegative = false) :
    x.numericallyEqual y = true ↔ x = y := by
  constructor
  · intro h
    simp only [numericallyEqual, hnumber, Bool.not_false, Bool.true_and, Bool.or_eq_true,
      Bool.and_eq_true, beq_iff_eq] at h
    rcases h with hbits | ⟨hzero, hzero'⟩
    · cases x
      cases y
      exact congrArg mk hbits
    · rw [← ofRank_rank hx, ← ofRank_rank hy, hzero, hzero']
  · rintro rfl
    rw [numericallyEqual_self, hnumber]
    rfl

theorem equalLiteral_iff_eq {a b : String} {t u : Token} (ht : t ∈ (scan a).tokens)
    (hu : u ∈ (scan b).tokens) :
    Token.equalLiteral t.literal u.literal = true ↔ t.literal = u.literal := by
  cases hx : t.literal with
  | none => cases u.literal <;> simp [Token.equalLiteral]
  | some x =>
    cases hy : u.literal with
    | none => simp [Token.equalLiteral]
    | some y =>
      cases x with
      | string s => cases y <;> simp [Token.equalLiteral, Literal.equal]
      | number x =>
        cases y with
        | string s => simp [Token.equalLiteral, Literal.equal]
        | number y =>
          -- the one place where equal data and equal values differ in general: both zeros, and no
          -- number
          obtain ⟨v, hv⟩ := exists_isNearest_of_mem_tokens ht hx
          obtain ⟨w, hw⟩ := exists_isNearest_of_mem_tokens hu hy
          have hiff := Binary64.numericallyEqual_iff_eq hv.isNegative_eq_false hv.isNaN_eq_false
            hw.isNegative_eq_false
          simpa [Token.equalLiteral, Literal.equal] using hiff

/-- Tokens of scans are equal as values exactly when they are equal as data. They need not be of one
scan. -/
theorem equal_iff_eq {a b : String} {t u : Token} (ht : t ∈ (scan a).tokens)
    (hu : u ∈ (scan b).tokens) : t.equal u = true ↔ t = u := by
  simp only [Token.equal, Bool.and_eq_true, beq_iff_eq, equalLiteral_iff_eq ht hu]
  cases t
  cases u
  simp [and_assoc]

theorem isEqv_iff_eq {α : Type} {r : α → α → Bool} {xs ys : List α}
    (h : ∀ x ∈ xs, ∀ y ∈ ys, (r x y = true ↔ x = y)) : xs.isEqv ys r = true ↔ xs = ys := by
  induction xs generalizing ys with
  | nil => cases ys <;> simp [List.isEqv]
  | cons x xs ih =>
    cases ys with
    | nil => simp [List.isEqv]
    | cons y ys =>
      have hfirst := h x List.mem_cons_self y List.mem_cons_self
      have hbehind := ih fun x hx y hy =>
        h x (List.mem_cons_of_mem _ hx) y (List.mem_cons_of_mem _ hy)
      rw [List.isEqv, Bool.and_eq_true, hfirst, hbehind, List.cons.injEq]

theorem equalTokens_iff_eq (a b : String) :
    Scan.equalTokens (scan a).tokens (scan b).tokens = true ↔ (scan a).tokens = (scan b).tokens :=
  isEqv_iff_eq fun _ ht _ hu => equal_iff_eq ht hu

/-! ## The output -/

theorem written_run_start (source : String) :
    ((Session.start none none).run source).1.out.written.toList = tokenBytes source ∧
      ((Session.start none none).run source).1.reporter.sink.written.toList =
        diagnosticBytes source :=
  ((Session.Has.start none none).run_of_unlimited source).written_of_unlimited

/-- **Two texts have the same tokens exactly when a session writes the same bytes for them**, and
the same diagnostics exactly when it reports the same bytes. A scan is equal to itself. -/
theorem output_eq_iff (a b : String) :
    (Scan.equalTokens (scan a).tokens (scan b).tokens = true ↔
        ((Session.start none none).run a).1.out.written =
          ((Session.start none none).run b).1.out.written) ∧
      (((scan a).diagnostics == (scan b).diagnostics) = true ↔
        ((Session.start none none).run a).1.reporter.sink.written =
          ((Session.start none none).run b).1.reporter.sink.written) ∧
      (scan a).equal (scan a) = true := by
  obtain ⟨houtA, herrA⟩ := written_run_start a
  obtain ⟨houtB, herrB⟩ := written_run_start b
  -- the bytes tell the records, since each record of a scan can be told from what follows it
  refine ⟨?_, ?_, ?_⟩
  · rw [equalTokens_iff_eq, ← Array.toList_inj, houtA, houtB]
    constructor
    · intro h
      rw [tokenBytes, h, ← tokenBytes]
    · exact eq_of_encodeLines_eq (fun t u _ _ ht hu => ht.render_append_inj hu)
        (fun _ => isScanned_of_mem_tokens) (fun _ => isScanned_of_mem_tokens)
  · rw [beq_iff_eq, ← Array.toList_inj, herrA, herrB]
    constructor
    · intro h
      rw [diagnosticBytes, h, ← diagnosticBytes]
    · exact eq_of_encodeLines_eq (fun d e _ _ hd he => hd.render_append_inj he)
        (fun _ => isOfText_of_mem_diagnostics) (fun _ => isOfText_of_mem_diagnostics)
  · rw [Scan.equal, (equalTokens_iff_eq a a).mpr rfl, beq_self_eq_true]
    rfl

end ScriptLexer
