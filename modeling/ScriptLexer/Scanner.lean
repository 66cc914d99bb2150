import ScriptLexer.Piece.Cut

/-!
# The scanner

A scanner stands somewhere in a text: it holds what is left of the text and the number of the
line it is on, and nothing else. `next` cuts pieces until one of them means something and yields
that; the other steps are made of it.

**What is skipped still counts.** Blanks, line breaks and comments yield nothing, but the scanner
that `next` leaves behind is past them, with their line breaks counted. So at the end the line is
that of the end of the text, however the scanner got there, and there the scanner stays
(`next_of_rest_eq_nil`).
-/

set_option autoImplicit false

namespace ScriptLexer

/-- A position in a text that is being read. There is nothing in it about what has been read, and so
nothing that an earlier piece could leave behind for a later one. -/
structure Scanner where
  /-- The text that is left. -/
  rest : List Char
  /-- The line that `rest` starts on, counted from one. -/
  line : Nat
  deriving DecidableEq, Repr

namespace Scanner

/-- The scanner at the start of a text, on the first line. -/
def ofText (source : String) : Scanner := ⟨source.toList, 1⟩

/-- The next item, and the scanner behind it. At the end of the text there is none. What is skipped
on the way to an item, or to the end, is skipped for good: its line breaks are counted in the
scanner that is left. -/
def next (s : Scanner) : Option Item × Scanner :=
  match s with
  | ⟨[], line⟩ => (none, ⟨[], line⟩)
  | ⟨c :: rest, line⟩ =>
    let piece := (Piece.cut c rest).1
    let after : Scanner := ⟨(Piece.cut c rest).2, line + newlines piece.text⟩
    match piece.item? line with
    | some item => (some item, after)
    | none => after.next
termination_by s.rest.length
decreasing_by exact Piece.length_cut_lt c rest

/-- The item after the next `n`, and the scanner behind it. The items before it are skipped, and
when the text ends among them there is none. It is made of `next` and moves the scanner as that many
calls of `next` would. -/
def nth (s : Scanner) : Nat → Option Item × Scanner
  | 0 => s.next
  | n + 1 =>
    match s.next with
    | (none, after) => (none, after)
    | (some _, after) => after.nth n

/-! ## Where a step leads -/

/-- At the end of the text a scanner stays where it is, so asking once more changes nothing. -/
@[simp] theorem next_of_rest_eq_nil (line : Nat) : next ⟨[], line⟩ = (none, ⟨[], line⟩) := by
  rw [next]

/-- A step with something left cuts one piece, and yields what it means or goes on behind it. -/
theorem next_cons (c : Char) (rest : List Char) (line : Nat) :
    next ⟨c :: rest, line⟩ =
      match (Piece.cut c rest).1.item? line with
      | some item =>
        (some item, ⟨(Piece.cut c rest).2, line + newlines (Piece.cut c rest).1.text⟩)
      | none => next ⟨(Piece.cut c rest).2, line + newlines (Piece.cut c rest).1.text⟩ := by
  rw [next]

theorem length_rest_next_le (s : Scanner) : s.next.2.rest.length ≤ s.rest.length := by
  fun_induction next s with
  | case1 => exact Nat.le_refl _
  | case2 => exact Nat.le_of_lt (Piece.length_cut_lt _ _)
  | case3 _ _ _ _ _ _ ih => exact Nat.le_trans ih (Nat.le_of_lt (Piece.length_cut_lt _ _))

/-- A step that yields something leaves less text than there was, so a scanner yields only so many
items as its text has characters. Whatever asks for items again and again ends by this. -/
theorem length_rest_next_lt {s after : Scanner} {item : Item}
    (h : s.next = (some item, after)) : after.rest.length < s.rest.length := by
  cases s with
  | mk text line =>
    cases text with
    | nil =>
      rw [next_of_rest_eq_nil] at h
      simp at h
    | cons c rest =>
      rw [next_cons] at h
      have hcut := Piece.length_cut_lt c rest
      -- the piece means something, or the scanner goes on behind it
      split at h
      · cases h
        exact hcut
      · have hle := length_rest_next_le
          ⟨(Piece.cut c rest).2, line + newlines (Piece.cut c rest).1.text⟩
        rw [h] at hle
        exact Nat.lt_of_le_of_lt hle hcut

/-! ## All the items -/

/-- The items that are left behind those already seen, and the scanner at the end of the text. The
items are gathered in an array because a text may have many, and the scanner is returned because it
knows the line that the text ends on. -/
def drain (s : Scanner) (seen : Array Item) : Array Item × Scanner :=
  match _ : s.next with
  | (none, after) => (seen, after)
  | (some item, after) => after.drain (seen.push item)
termination_by s.rest.length
decreasing_by exact length_rest_next_lt ‹s.next = _›

/-- The items that are left, in order. -/
def items (s : Scanner) : List Item := (s.drain #[]).1.toList

/-- The scanner when nothing is left. Its line is that of the end of the text. -/
def atEnd (s : Scanner) : Scanner := (s.drain #[]).2

/-- What has been seen before stays in front of what is left. The array is how `drain` runs and not
what it says, and with this lemma no later proof has to carry it. -/
theorem drain_eq (s : Scanner) (seen : Array Item) :
    s.drain seen = ((seen ++ s.items.toArray), s.atEnd) := by
  induction hn : s.rest.length using Nat.strongRecOn generalizing s seen with
  | ind n ih =>
    subst hn
    unfold items atEnd
    rw [drain, drain]
    split
    · simp
    · rename_i item after h
      have hlt := length_rest_next_lt h
      rw [ih _ hlt after (seen.push item) rfl, ih _ hlt after (#[].push item) rfl]
      simp

theorem items_of_next_eq_some {s after : Scanner} {item : Item}
    (h : s.next = (some item, after)) : s.items = item :: after.items := by
  rw [items, drain]
  split
  · rename_i after' h'
    rw [h] at h'
    cases h'
  · rename_i item' after' h'
    rw [h] at h'
    cases h'
    rw [drain_eq]
    simp

theorem items_of_next_eq_none {s after : Scanner} (h : s.next = (none, after)) :
    s.items = [] := by
  rw [items, drain]
  split
  · rfl
  · rename_i item' after' h'
    rw [h] at h'
    cases h'

/-! ## The items by pieces

A scanner skips what means nothing and its pieces do not, so the two are compared one piece at a
time: a piece puts its item, if it has one, in front of the items behind it. -/

/-- What is left depends on the next step only. So two scanners that agree on `next` need not be the
same: one may still be in front of a blank that the other is behind. -/
theorem drain_congr {s t : Scanner} (h : s.next = t.next) (seen : Array Item) :
    s.drain seen = t.drain seen := by
  rw [drain, drain.eq_def t, h]

@[simp] theorem drain_nil (line : Nat) (seen : Array Item) :
    drain ⟨[], line⟩ seen = (seen, ⟨[], line⟩) := by
  rw [drain, next_of_rest_eq_nil]

theorem drain_cons (c : Char) (rest : List Char) (line : Nat) (seen : Array Item) :
    drain ⟨c :: rest, line⟩ seen =
      drain ⟨(Piece.cut c rest).2, line + newlines (Piece.cut c rest).1.text⟩
        (seen ++ ((Piece.cut c rest).1.item? line).toList) := by
  have hnext := next_cons c rest line
  cases hitem : (Piece.cut c rest).1.item? line with
  | none =>
    rw [hitem] at hnext
    simpa using drain_congr hnext seen
  | some item =>
    rw [hitem] at hnext
    rw [drain, hnext]
    simp

/-- Draining a scanner goes through the pieces of the text that is left. This is where steps end and
pieces begin: almost everything that is proved of a scan starts from here, by `items_eq` or by
`scan_eq`. -/
theorem drain_eq_split (text : List Char) (line : Nat) (seen : Array Item) :
    drain ⟨text, line⟩ seen =
      (seen ++ Piece.itemsOn line (Piece.split text), ⟨[], line + newlines text⟩) := by
  fun_induction Piece.split text generalizing line seen with
  | case1 => simp [drain_nil, Piece.itemsOn, newlines]
  | case2 c rest ih =>
    have hlines := congrArg newlines (Piece.text_append_cut c rest)
    rw [newlines_append] at hlines
    rw [drain_cons, ih, Piece.itemsOn, ← hlines, Nat.add_assoc]
    exact congrArg (·, _) (Array.ext' (by simp))

theorem items_eq (s : Scanner) : s.items = Piece.itemsOn s.line (Piece.split s.rest) := by
  simp [items, drain_eq_split s.rest s.line]

theorem atEnd_eq (s : Scanner) : s.atEnd = ⟨[], s.line + newlines s.rest⟩ := by
  simp [atEnd, drain_eq_split s.rest s.line]

end Scanner

end ScriptLexer
