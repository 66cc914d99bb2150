import ScriptLexer.Proofs.Piece.Yield

/-!
# Taking items in steps

A scanner can be asked for the next item, for one further on, or for all that are left, and what is
left after any such steps can be scanned to the end. **Every mixture of steps takes the same items
in the same order** (`takeAll_then_finish`): a scanner stands for the list of the items it has left,
and each step takes from the scanner what it would take from that list (`take_eq`). What yields
nothing still moves the scanner, so the list is not all there is to it: the line that the text ends
on is kept as well (`atEnd`), and it is the same after every step.

So everything is shown once of lists, where it is a matter of `take` and `drop`, and carried over.
The two scanners behind "no more items" and behind "skipped past the last" are the same one, which
is why a scanner that has yielded none never yields anything again.
-/

set_option autoImplicit false

namespace ScriptLexer

namespace Scanner

/-! ## A plain iteration -/

/-- Asked again and again for the next item, the scanner yields these and then none. This is the
reference that all other ways of taking are compared with. -/
inductive Iterates : Scanner → List Item → Prop
  | done {s after : Scanner} (h : s.next = (none, after)) : Iterates s []
  | item {s after : Scanner} {first : Item} {items : List Item} (h : s.next = (some first, after))
    (hrest : Iterates after items) : Iterates s (first :: items)

/-- The items of a scanner are those of a plain iteration. The induction is on what is left of the
text, since a step that yields an item has taken some of it. -/
theorem iterates_items (s : Scanner) : Iterates s s.items := by
  induction hn : s.rest.length using Nat.strongRecOn generalizing s with
  | ind n ih =>
    subst hn
    rcases hnext : s.next with ⟨_ | first, after⟩
    · rw [items_of_next_eq_none hnext]
      exact .done hnext
    · rw [items_of_next_eq_some hnext]
      exact .item hnext (ih _ (length_rest_next_lt hnext) after rfl)

/-! ## One item -/

theorem rest_of_next_eq_none {s after : Scanner} (h : s.next = (none, after)) :
    after.rest = [] := by
  fun_induction next s with
  | case1 line =>
    obtain rfl := (Prod.mk.inj h).2
    rfl
  | case2 => exact absurd (Prod.mk.inj h).1 (Option.some_ne_none _)
  | case3 _ _ _ _ _ _ ih => exact ih h

theorem items_of_rest_eq_nil {s : Scanner} (h : s.rest = []) : s.items = [] := by
  rw [items_eq, h, Piece.split, Piece.itemsOn]

theorem atEnd_of_rest_eq_nil {s : Scanner} (h : s.rest = []) : s.atEnd = s := by
  rw [atEnd_eq, h]
  cases s
  cases h
  rfl

theorem atEnd_of_next_eq_none {s after : Scanner} (h : s.next = (none, after)) :
    s.atEnd = after := by
  rw [atEnd, drain]
  split <;> rename_i h' <;> rw [h] at h' <;> cases h'
  rfl

theorem atEnd_of_next_eq_some {s after : Scanner} {item : Item} (h : s.next = (some item, after)) :
    s.atEnd = after.atEnd := by
  rw [atEnd, drain]
  split <;> rename_i h' <;> rw [h] at h' <;> cases h'
  rw [drain_eq]

/-- A step takes the first of the items that are left, leaves the others, and does not move the end.
-/
theorem next_eq (s : Scanner) :
    s.next.1 = s.items.head? ∧ s.next.2.items = s.items.tail ∧ s.next.2.atEnd = s.atEnd := by
  rcases hnext : s.next with ⟨_ | first, after⟩
  · have hrest := rest_of_next_eq_none hnext
    rw [items_of_next_eq_none hnext, items_of_rest_eq_nil hrest, atEnd_of_next_eq_none hnext,
      atEnd_of_rest_eq_nil hrest]
    exact ⟨rfl, rfl, rfl⟩
  · rw [items_of_next_eq_some hnext, atEnd_of_next_eq_some hnext]
    exact ⟨rfl, rfl, rfl⟩

/-! ## Items further on -/

/-- The next `n` items, or as many as there are, and the scanner behind them. -/
def skip (s : Scanner) : Nat → List Item × Scanner
  | 0 => ([], s)
  | n + 1 =>
    match s.next with
    | (none, after) => ([], after)
    | (some item, after) => (item :: (after.skip n).1, (after.skip n).2)

theorem skip_eq (s : Scanner) (n : Nat) :
    (s.skip n).1 = s.items.take n ∧ (s.skip n).2.items = s.items.drop n ∧
      (s.skip n).2.atEnd = s.atEnd := by
  induction n generalizing s with
  | zero => exact ⟨List.take_zero.symm, List.drop_zero.symm, rfl⟩
  | succ n ih =>
    rcases hnext : s.next with ⟨_ | first, after⟩
    · have hrest := rest_of_next_eq_none hnext
      rw [skip, hnext, items_of_next_eq_none hnext, atEnd_of_next_eq_none hnext]
      exact ⟨List.take_nil.symm, by rw [items_of_rest_eq_nil hrest, List.drop_nil],
        atEnd_of_rest_eq_nil hrest⟩
    · obtain ⟨htake, hdrop, hend⟩ := ih after
      rw [skip, hnext, items_of_next_eq_some hnext, atEnd_of_next_eq_some hnext]
      exact ⟨congrArg (first :: ·) htake, hdrop, hend⟩

/-- The item after the next `n` is the next one behind them. Where there are not as many, the
scanner that has skipped them all has none to yield either. -/
theorem nth_eq_next_skip (s : Scanner) (n : Nat) : s.nth n = (s.skip n).2.next := by
  induction n generalizing s with
  | zero => rfl
  | succ n ih =>
    rcases hnext : s.next with ⟨_ | first, after⟩
    · have hrest := rest_of_next_eq_none hnext
      rw [nth, skip, hnext]
      cases after
      cases hrest
      exact (next_of_rest_eq_nil _).symm
    · rw [nth, skip, hnext]
      exact ih after

/-! ## Steps -/

/-- What a scanner can be asked for. -/
inductive Step
  | next
  /-- The item after the next `n`, which are skipped. -/
  | nth (n : Nat)
  /-- All the items that are left. -/
  | rest
  deriving DecidableEq, Repr

/-- What a step takes. -/
structure Taken where
  skipped : List Item
  returned : List Item
  deriving DecidableEq, Repr

def Taken.items (taken : Taken) : List Item := taken.skipped ++ taken.returned

/-- What a step takes from the scanner, and the scanner behind it. -/
def take (s : Scanner) : Step → Taken × Scanner
  | .next => (⟨[], s.next.1.toList⟩, s.next.2)
  | .nth n => (⟨(s.skip n).1, (s.nth n).1.toList⟩, (s.nth n).2)
  | .rest => (⟨[], s.items⟩, s.atEnd)

/-- What the step takes from a list of items, and what it leaves of it. -/
def Step.takeFrom : Step → List Item → Taken × List Item
  | .next, items => (⟨[], items.take 1⟩, items.drop 1)
  | .nth n, items => (⟨items.take n, (items.drop n).take 1⟩, items.drop (n + 1))
  | .rest, items => (⟨[], items⟩, [])

/-- A step takes from a scanner what it takes from the items that the scanner has left. -/
theorem take_eq (s : Scanner) (step : Step) :
    (s.take step).1 = (step.takeFrom s.items).1 ∧
      (s.take step).2.items = (step.takeFrom s.items).2 ∧ (s.take step).2.atEnd = s.atEnd := by
  have hfirst : ∀ items : List Item, items.head?.toList = items.take 1 := by
    intro items
    cases items <;> rfl
  cases step with
  | next =>
    obtain ⟨hhead, htail, hend⟩ := next_eq s
    refine ⟨?_, by rw [take, htail, Step.takeFrom, List.drop_one], hend⟩
    rw [take, Step.takeFrom, hhead, hfirst]
  | nth n =>
    obtain ⟨htake, hdrop, hskipped⟩ := skip_eq s n
    obtain ⟨hhead, htail, hend⟩ := next_eq (s.skip n).2
    rw [← nth_eq_next_skip, hdrop] at hhead htail
    rw [← nth_eq_next_skip, hskipped] at hend
    refine ⟨?_, by rw [take, htail, Step.takeFrom, List.tail_drop], hend⟩
    rw [take, Step.takeFrom, htake, hhead, hfirst]
  | rest =>
    -- the scanner is left at the end of the text, where it has no items
    have hrest : s.atEnd.rest = [] := by rw [atEnd_eq]
    exact ⟨rfl, items_of_rest_eq_nil hrest, atEnd_of_rest_eq_nil hrest⟩

/-- What the steps take, one after the other, and the scanner behind them. -/
def takeAll (s : Scanner) : List Step → List Taken × Scanner
  | [] => ([], s)
  | step :: steps =>
    ((s.take step).1 :: ((s.take step).2.takeAll steps).1, ((s.take step).2.takeAll steps).2)

/-- What the steps take from a list of items, and what they leave of it. -/
def Step.takeAllFrom (items : List Item) : List Step → List Taken × List Item
  | [] => ([], items)
  | step :: steps =>
    ((step.takeFrom items).1 :: (takeAllFrom (step.takeFrom items).2 steps).1,
      (takeAllFrom (step.takeFrom items).2 steps).2)

theorem takeAll_eq (s : Scanner) (steps : List Step) :
    (s.takeAll steps).1 = (Step.takeAllFrom s.items steps).1 ∧
      (s.takeAll steps).2.items = (Step.takeAllFrom s.items steps).2 ∧
      (s.takeAll steps).2.atEnd = s.atEnd := by
  induction steps generalizing s with
  | nil => exact ⟨rfl, rfl, rfl⟩
  | cons step steps ih =>
    obtain ⟨htaken, hleft, hend⟩ := take_eq s step
    obtain ⟨htaken', hleft', hend'⟩ := ih (s.take step).2
    rw [hleft] at htaken' hleft'
    rw [takeAll, Step.takeAllFrom, htaken, htaken', hleft', hend', hend]
    exact ⟨rfl, rfl, rfl⟩

namespace Step

/-! ## Steps over a list -/

theorem items_takeFrom (step : Step) (items : List Item) :
    (step.takeFrom items).1.items ++ (step.takeFrom items).2 = items := by
  cases step with
  | next => exact List.take_append_drop 1 items
  | nth n =>
    have hbehind := List.take_append_drop 1 (items.drop n)
    rw [List.drop_drop] at hbehind
    rw [takeFrom, Taken.items, List.append_assoc, hbehind, List.take_append_drop]
  | rest => exact List.append_nil items

/-- What is taken and what is left is all there is, in order: no item is lost between two steps and
none comes twice. -/
theorem items_takeAllFrom (items : List Item) (steps : List Step) :
    (takeAllFrom items steps).1.flatMap Taken.items ++ (takeAllFrom items steps).2 = items := by
  induction steps generalizing items with
  | nil => rfl
  | cons step steps ih =>
    rw [takeAllFrom, List.flatMap_cons, List.append_assoc, ih, items_takeFrom]

/-- A step that returns nothing leaves nothing. To ask for an item past the last takes all the items
in front of it, too. -/
theorem left_of_returned_eq_nil {step : Step} {items : List Item}
    (h : (step.takeFrom items).1.returned = []) : (step.takeFrom items).2 = [] := by
  cases step with
  | next =>
    obtain hnil : items = [] := by simpa [takeFrom] using h
    rw [hnil, takeFrom, List.drop_nil]
  | nth n =>
    have hlength : items.length ≤ n := by simpa [takeFrom] using h
    exact List.drop_eq_nil_of_le (Nat.le_succ_of_le hlength)
  | rest => rfl

theorem returned_of_mem_takeAllFrom_nil {steps : List Step} {taken : Taken}
    (h : taken ∈ (takeAllFrom [] steps).1) : taken.returned = [] := by
  have hall := items_takeAllFrom [] steps
  obtain ⟨hnone, -⟩ := List.append_eq_nil_iff.mp hall
  have hitems := List.flatMap_eq_nil_iff.mp hnone taken h
  exact (List.append_eq_nil_iff.mp hitems).2

/-- Behind a step that returns nothing no step returns anything. Steps are compared in pairs, not
only with the next one, so nothing has to be said of what comes between. -/
theorem pairwise_takeAllFrom (items : List Item) (steps : List Step) :
    (takeAllFrom items steps).1.Pairwise
      fun earlier later => earlier.returned = [] → later.returned = [] := by
  induction steps generalizing items with
  | nil => exact .nil
  | cons step steps ih =>
    rw [takeAllFrom]
    refine .cons ?_ (ih _)
    intro later hlater hnone
    rw [left_of_returned_eq_nil hnone] at hlater
    exact returned_of_mem_takeAllFrom_nil hlater

end Step

/-! ## Steps, and then the scan of what is left -/

theorem kind_of_mem_items {s : Scanner} {t : Token} (h : .ok t ∈ s.items) :
    t.kind ≠ .endOfFile := by
  rw [items_eq] at h
  obtain ⟨p, hmem, start, hitem⟩ := Piece.exists_of_mem_itemsOn h
  exact (Piece.yields_of_mem_split hmem hitem).lexeme_eq.2.2

/-- **However the items of a text are taken, they are the items of a plain iteration.** The steps
take what they would take from the list of these, the scan of what is left holds the others, and the
line it ends on is that of the whole text. No step yields the token for the end of the text, and
behind a step that returns nothing no step returns anything. -/
theorem takeAll_then_finish (source : String) (steps : List Step) :
    ∃ items taken s left line,
      Iterates (ofText source) items ∧ (ofText source).takeAll steps = (taken, s) ∧
      taken = (Step.takeAllFrom items steps).1 ∧ items = taken.flatMap Taken.items ++ left ∧
      s.finish.tokens = left.filterMap Item.token? ++ [Token.endOfFile line] ∧
      s.finish.diagnostics = left.filterMap Item.diagnostic? ∧
      (scan source).tokens = items.filterMap Item.token? ++ [Token.endOfFile line] ∧
      (∀ t ∈ taken.flatMap fun each => each.items.filterMap Item.token?, t.kind ≠ .endOfFile) ∧
      taken.Pairwise fun earlier later => earlier.returned = [] → later.returned = [] := by
  obtain ⟨htaken, hleft, hend⟩ := takeAll_eq (ofText source) steps
  -- what was taken and what is left are all the items, in order
  have hall := Step.items_takeAllFrom (ofText source).items steps
  rw [← htaken, ← hleft] at hall
  refine ⟨_, _, _, _, (ofText source).atEnd.line, iterates_items _, rfl, htaken, hall.symm, ?_,
    diagnostics_finish _, tokens_finish _, ?_, ?_⟩
  · rw [tokens_finish, hend]
  · intro t ht
    -- a token that was taken is one of the items, and the end of the text is none of them
    obtain ⟨each, heach, ht⟩ := List.mem_flatMap.mp ht
    obtain ⟨item, hitem, htoken⟩ := List.mem_filterMap.mp ht
    rw [Item.eq_ok_of_token? htoken] at hitem
    refine kind_of_mem_items (s := ofText source) ?_
    rw [← hall]
    exact List.mem_append_left _ (List.mem_flatMap_of_mem heach hitem)
  · rw [htaken]
    exact Step.pairwise_takeAllFrom _ steps

end Scanner

end ScriptLexer
