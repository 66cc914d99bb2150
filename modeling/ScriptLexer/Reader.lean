import ScriptLexer.Reader.Piece

/-!
# Reading item by item

A reader goes through the pieces of a text until one of them means something, and yields that with
what it has kept of the piece: the text that it took, and the value of it.

**What is kept of a piece is gone when the piece is read**, whether it was a token, a fault or
nothing. So what is kept of one piece never gets into the next, and a reader between two pieces has
only the rest of the text and the line to go on with, as a `Scanner` has.

That is not said by the type. A reader could keep a literal from one piece to the next, and the
token of the next piece would carry it. It does not, because every way out of a piece goes past
`forget`; what follows from that for a whole run is in `Proofs/Restart`.
-/

set_option autoImplicit false

namespace ScriptLexer

namespace Reader

/-- The reader that keeps nothing of what it has taken. The rest and the line stay, which is all
that the pieces to come depend on. -/
def forget (r : Reader) : Reader := { r with lexeme := [], literal := none }

@[simp] theorem rest_forget (r : Reader) : r.forget.rest = r.rest := rfl

/-- The item of a piece that has been read, and that started on this line, if it means anything.
Kind, text and literal are the reader's; the line is not, because a reader that has taken a string
of many lines is already on its last. -/
def itemOn? (line : Nat) (read : Option (Except Diagnostic Kind) × Reader) : Option Item :=
  read.1.map fun kind =>
    kind.map fun kind => ⟨kind, String.ofList read.2.lexeme, read.2.literal, line⟩

/-- The next item, and the reader behind it. At the end of the text there is none, and the reader is
left as it is. What means nothing is read and forgotten before the next piece is tried. -/
def next (r : Reader) : Option Item × Reader :=
  match _ : r.rest with
  | [] => (none, r)
  | _ :: _ =>
    let after := r.readPiece.2.forget
    match itemOn? r.line r.readPiece with
    | some item => (some item, after)
    | none => after.next
termination_by r.rest.length
decreasing_by
  rw [rest_forget, rest_readPiece ‹r.rest = _›, ‹r.rest = _›]
  exact Piece.length_cut_lt _ _

/-! ## Where a step leads -/

theorem next_of_rest_eq_nil {r : Reader} (h : r.rest = []) : r.next = (none, r) := by
  rw [next]
  split
  · rfl
  · rename_i hcons
    rw [h] at hcons
    contradiction

theorem next_of_item {r : Reader} (h : r.rest ≠ []) {item : Item}
    (hitem : itemOn? r.line r.readPiece = some item) :
    r.next = (some item, r.readPiece.2.forget) := by
  rw [next]
  split
  · contradiction
  · simp only [hitem]

/-- A piece that means nothing is skipped: a step that starts in front of it is the step that starts
behind it. -/
theorem next_of_no_item {r : Reader} (h : r.rest ≠ [])
    (hitem : itemOn? r.line r.readPiece = none) : r.next = r.readPiece.2.forget.next := by
  rw [next]
  split
  · contradiction
  · simp only [hitem]

/-- A step never leaves more text than there was. It may leave as much, at the end of the text,
which is why the strict bound below asks for an item. -/
theorem length_rest_next_le (r : Reader) : r.next.2.rest.length ≤ r.rest.length := by
  fun_induction next r with
  | case1 => exact Nat.le_refl _
  | case2 r c rest h after item _ =>
    rw [rest_forget, rest_readPiece h, h]
    exact Nat.le_of_lt (Piece.length_cut_lt c rest)
  | case3 r c rest h after _ ih =>
    rw [rest_forget, rest_readPiece h] at ih
    rw [h]
    exact Nat.le_trans ih (Nat.le_of_lt (Piece.length_cut_lt c rest))

theorem length_rest_next_lt {r after : Reader} {item : Item} (h : r.next = (some item, after)) :
    after.rest.length < r.rest.length := by
  cases hrest : r.rest with
  | nil =>
    rw [next_of_rest_eq_nil hrest] at h
    simp at h
  | cons c rest =>
    have hcut := Piece.length_cut_lt c rest
    have hread : r.readPiece.2.forget.rest = (Piece.cut c rest).2 := rest_readPiece hrest
    have hne : r.rest ≠ [] := by simp [hrest]
    -- the piece is reported, or it is skipped and the steps behind it take more
    cases hitem : itemOn? r.line r.readPiece with
    | some first =>
      rw [next_of_item hne hitem] at h
      rw [← (Prod.mk.inj h).2, hread]
      exact hcut
    | none =>
      rw [next_of_no_item hne hitem] at h
      have hle := length_rest_next_le r.readPiece.2.forget
      rw [h, hread] at hle
      exact Nat.lt_of_le_of_lt hle hcut

/-! ## All the items -/

/-- The items that are left, from where the reader is. They are what a loop over `next` comes to,
and it ends at the first step that yields nothing. -/
def items (r : Reader) : List Item :=
  match _ : r.next with
  | (none, _) => []
  | (some item, after) => item :: after.items
termination_by r.rest.length
decreasing_by exact length_rest_next_lt ‹r.next = _›

theorem items_of_next_eq_some {r after : Reader} {item : Item} (h : r.next = (some item, after)) :
    r.items = item :: after.items := by
  rw [items]
  split
  · rename_i heq
    rw [h] at heq
    cases heq
  · rename_i heq
    rw [h] at heq
    cases heq
    rfl

theorem items_of_next_eq_none {r after : Reader} (h : r.next = (none, after)) : r.items = [] := by
  rw [items]
  split
  · rfl
  · rename_i heq
    rw [h] at heq
    cases heq

end Reader

end ScriptLexer
