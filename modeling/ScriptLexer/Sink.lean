import ScriptLexer.Utf8

/-!
# Sinks

A sink takes bytes until its capacity is reached. A write that does not fit leaves the part that
fits and is reported as such, whatever the bytes mean: a character may be cut in two.

**A sink holds the first bytes of all that was offered to it** (`written_write_of_kept`). A write
to a full sink leaves nothing, so what is held is the first `capacity` bytes of the writes
together. Cutting a write in two changes nothing but the results, and a write succeeds exactly
when it had nothing to write or all the offers together still fit (`write_eq_ok_iff_of_kept`).

A sink with a limit is there for the failures: a program that writes to a full disk or to a fixed
buffer has to stop somewhere, and where it stops, with which bytes written, is part of what it does.
-/

set_option autoImplicit false

namespace ScriptLexer

/-- What became of a write. There is one way to fail, and the answer does not tell how much fitted;
that is to be seen in the sink. -/
inductive WriteResult
  | ok
  | sinkFull
  deriving DecidableEq, Repr, Inhabited

/-- A destination for bytes, with what it holds so far. Bytes are only ever added, so what is held
is also a record of what was written, and in which order. -/
structure Sink where
  /-- How many bytes the sink takes in all, where there is a limit. -/
  capacity : Option Nat
  written : Array UInt8
  deriving DecidableEq, Repr

namespace Sink

/-- A sink that nothing has been written to. -/
def empty (capacity : Option Nat) : Sink := ⟨capacity, #[]⟩

/-- How many of `n` further bytes fit. With a limit that is the smaller of what is asked and what is
left, and nothing at all where more is held than the limit allows. -/
def room (s : Sink) (n : Nat) : Nat :=
  match s.capacity with
  | none => n
  | some capacity => min n (capacity - s.written.size)

/-- Writes bytes, or as many of them as fit. A write that is cut short fails, but the bytes that
fitted stay; one of no bytes never fails, not even at a full sink. -/
def write (s : Sink) (bytes : List UInt8) : Sink × WriteResult :=
  let size := bytes.length
  let room := s.room size
  ({ s with written := s.written ++ bytes.take room }, if room = size then .ok else .sinkFull)

/-- Writes a line and the line feed behind it, in one write. So where the room ends inside the line,
the part of the line that fits is there, without a line feed. -/
def writeLine (s : Sink) (line : String) : Sink × WriteResult :=
  s.write (Utf8.encode (line ++ "\n"))

/-- Writes lines in order, up to the first that does not fit. The lines behind it are not tried, not
even the shorter ones: they would find the sink full. -/
def writeLines (s : Sink) : List String → Sink × WriteResult
  | [] => (s, .ok)
  | line :: lines =>
    match s.writeLine line with
    | (after, .ok) => after.writeLines lines
    | (after, .sinkFull) => (after, .sinkFull)

/-- The bytes that are held behind the first `n`. Since nothing held is ever changed, these are the
ones that came after a moment at which `n` were held. -/
def since (s : Sink) (n : Nat) : List UInt8 := (s.written.extract n).toList

/-! ## What a write does -/

@[simp] theorem capacity_write (s : Sink) (bytes : List UInt8) :
    (s.write bytes).1.capacity = s.capacity := rfl

theorem toList_written_write (s : Sink) (bytes : List UInt8) :
    (s.write bytes).1.written.toList = s.written.toList ++ bytes.take (s.room bytes.length) := by
  simp [write]

/-! ## All that was offered

A sink does not remember what it had no room for. So the invariant speaks of the offers, which only
a proof keeps, and says that what is held is what a capacity keeps of them. It holds of an empty
sink, every write preserves it, and it decides every later result.
-/

/-- The first bytes of an offer, as many as a capacity takes. -/
def kept (capacity : Option Nat) (offered : List UInt8) : List UInt8 :=
  match capacity with
  | none => offered
  | some n => offered.take n

/-- What is kept of two offers is what is kept of the first, and of the second as much as there is
room for behind that. -/
theorem kept_append (capacity : Option Nat) (offered bytes : List UInt8) :
    kept capacity (offered ++ bytes) =
      kept capacity offered ++ bytes.take (room ⟨capacity, (kept capacity offered).toArray⟩
        bytes.length) := by
  cases capacity with
  | none => simp [kept, room]
  | some n =>
    have hroom : n - min n offered.length = n - offered.length := by omega
    simp only [kept, room, List.size_toArray, List.length_take, List.take_append, hroom]
    congr 1
    exact List.take_eq_take_iff.mpr (by omega)

/-- A sink that holds the first bytes of what was offered still does after a write. -/
theorem written_write_of_kept {s : Sink} {offered : List UInt8}
    (h : s.written.toList = kept s.capacity offered) (bytes : List UInt8) :
    (s.write bytes).1.written.toList = kept (s.write bytes).1.capacity (offered ++ bytes) := by
  rw [toList_written_write, capacity_write, kept_append, h, ← h]

/-- A write succeeds exactly when there is nothing to write or everything offered so far fits. The
earlier offers count with what was lost of them: once one did not fit, no later one does. -/
theorem write_eq_ok_iff_of_kept {s : Sink} {offered : List UInt8}
    (h : s.written.toList = kept s.capacity offered) (bytes : List UInt8) :
    (s.write bytes).2 = .ok ↔
      bytes = [] ∨ ∀ n, s.capacity = some n → (offered ++ bytes).length ≤ n := by
  have hsize : s.written.size = (kept s.capacity offered).length := by
    rw [← h, Array.length_toList]
  cases hc : s.capacity with
  | none => simp [write, room, hc]
  | some n =>
    rw [hc, kept, List.length_take] at hsize
    cases bytes with
    | nil => simp [write, room, hc]
    | cons b bytes =>
      simp only [write, room, hc, hsize, List.length_append, List.length_cons]
      split <;> simp <;> omega

end Sink

end ScriptLexer
