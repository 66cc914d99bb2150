/-!
# UTF-8

Text as bytes and bytes as text. Encoding is the library's own, character by character. Decoding
is done here, because it has to say exactly what an undecodable sequence of bytes amounts to.

**Bytes are cut into parts, and a part is a character or invalid.** An invalid part is as long as
the bytes still look like the start of a character, and one byte where they never do. A first byte
says how many bytes are to follow, and narrows the range of the second, which is what keeps
overlong forms, surrogates and numbers past the last character out (`Lead`). Where a byte does not
fit, the part ends in front of it and that byte starts the next part, so a valid character is
never swallowed by what stands before it.

`parts` is the one reading of the bytes. The two decoders differ only in what they make of an
invalid part: `decodeLossy` puts one replacement character in its place, `decode?` refuses.

Nothing here calls the encoder. That the parts are what encoding says they are is to be shown
(`Proofs/Utf8`), and a decoder that found its parts by trying what encodes to them would have
nothing to show.
-/

set_option autoImplicit false

namespace ScriptLexer

namespace Utf8

/-- The bytes of a text. -/
def encode (text : String) : List UInt8 := text.toList.flatMap String.utf8EncodeChar

@[simp] theorem encode_append (a b : String) : encode (a ++ b) = encode a ++ encode b := by
  rw [encode, String.toList_append, List.flatMap_append]
  rfl

@[simp] theorem encode_newline : encode "\n" = [0x0A] := by decide

/-! ## One part -/

/-- What the first byte of a longer encoding says. Only the second byte has a range of its own; from
the third on it is always the same, so the ranges are two numbers and not a table. -/
structure Lead where
  /-- The bits of the character that the first byte holds. -/
  payload : Nat
  /-- How many bytes are to follow. -/
  more : Nat
  /-- The least byte that may come second. -/
  low : UInt8
  /-- The greatest byte that may come second. -/
  high : UInt8
  deriving DecidableEq, Repr

/-- What a byte says as the first of a longer encoding, if it can be that. The narrowed ranges
exclude what has a shorter encoding (`0xE0`, `0xF0`), surrogates (`0xED`), and what is past the
last character (`0xF4`). -/
def lead? (b : UInt8) : Option Lead :=
  if 0xC2 ≤ b ∧ b ≤ 0xDF then some ⟨b.toNat % 32, 1, 0x80, 0xBF⟩
  else if b = 0xE0 then some ⟨0, 2, 0xA0, 0xBF⟩
  else if b = 0xED then some ⟨13, 2, 0x80, 0x9F⟩
  else if 0xE1 ≤ b ∧ b ≤ 0xEF then some ⟨b.toNat % 16, 2, 0x80, 0xBF⟩
  else if b = 0xF0 then some ⟨0, 3, 0x90, 0xBF⟩
  else if 0xF1 ≤ b ∧ b ≤ 0xF3 then some ⟨b.toNat % 8, 3, 0x80, 0xBF⟩
  else if b = 0xF4 then some ⟨4, 3, 0x80, 0x8F⟩
  else none

/-- Takes the bytes that are to follow, six bits of the character from each. The next one has to
be in the given range and every later one from `0x80` to `0xBF`. The answer is the number that
all the bits make, or nothing where the bytes break off, and the bytes behind those that fit. A byte
that does not fit is not taken, since it may well be the start of the next character. -/
def follow (value : Nat) : Nat → UInt8 → UInt8 → List UInt8 → Option Nat × List UInt8
  | 0, _, _, rest => (some value, rest)
  | _ + 1, _, _, [] => (none, [])
  | more + 1, low, high, b :: rest =>
    if low ≤ b ∧ b ≤ high then follow (value * 64 + b.toNat % 64) more 0x80 0xBF rest
    else (none, b :: rest)

/-- The part at the start of the bytes `b :: rest`, as its character or as nothing when it is
invalid, and the bytes behind it. The first byte is always taken, whatever it is; so a part is never
empty, and the parts come to an end. -/
def cut (b : UInt8) (rest : List UInt8) : Option Char × List UInt8 :=
  if b < 0x80 then (some (Char.ofNat b.toNat), rest)
  else
    match lead? b with
    | none => (none, rest)
    | some lead =>
      let (value, after) := follow lead.payload lead.more lead.low lead.high rest
      (value.map Char.ofNat, after)

theorem length_follow_le (value more : Nat) (low high : UInt8) (bytes : List UInt8) :
    (follow value more low high bytes).2.length ≤ bytes.length := by
  fun_induction follow value more low high bytes with
  | case1 => exact Nat.le_refl _
  | case2 => exact Nat.le_refl _
  | case3 _ _ _ _ _ _ _ ih => exact Nat.le_succ_of_le ih
  | case4 => exact Nat.le_refl _

theorem length_cut_le (b : UInt8) (rest : List UInt8) : (cut b rest).2.length ≤ rest.length := by
  unfold cut
  split
  · exact Nat.le_refl _
  · split
    · exact Nat.le_refl _
    · exact length_follow_le _ _ _ _ _

/-! ## All the parts -/

/-- The parts of the bytes, behind those already seen. They are collected in an array because an
input may be long, and the recursion has to be the last thing that is done. -/
def partsFrom (seen : Array (Option Char)) (bytes : List UInt8) : Array (Option Char) :=
  match bytes with
  | [] => seen
  | b :: rest => partsFrom (seen.push (cut b rest).1) (cut b rest).2
termination_by bytes.length
decreasing_by exact Nat.lt_succ_of_le (length_cut_le b rest)

/-- The parts of the bytes in order, each as its character or as nothing when it is invalid. -/
def parts (bytes : List UInt8) : List (Option Char) := (partsFrom #[] bytes).toList

/-- What has been seen is only carried along. With this the array is out of the way, and the parts
of some bytes are a list that goes by `parts_nil` and `parts_cons`. -/
theorem partsFrom_eq (seen : Array (Option Char)) (bytes : List UInt8) :
    partsFrom seen bytes = seen ++ (parts bytes).toArray := by
  -- on the length, because cutting leaves less than the tail at a time
  induction hn : bytes.length using Nat.strongRecOn generalizing seen bytes with
  | ind n ih =>
    subst hn
    unfold parts
    cases bytes with
    | nil => simp [partsFrom]
    | cons b rest =>
      have hlt := Nat.lt_succ_of_le (length_cut_le b rest)
      rw [partsFrom, partsFrom, ih _ hlt _ _ rfl, ih _ hlt (#[].push _) _ rfl]
      simp

@[simp] theorem parts_nil : parts [] = [] := by
  simp [parts, partsFrom]

theorem parts_cons (b : UInt8) (rest : List UInt8) :
    parts (b :: rest) = (cut b rest).1 :: parts (cut b rest).2 := by
  rw [parts, partsFrom, partsFrom_eq]
  simp

/-! ## The two decoders -/

/-- What stands for an invalid part. It is a character as any other, and may stand in a valid input
as well, so a decoded text does not tell what its bytes were. -/
def replacement : Char := '\ufffd'

/-- The text of the bytes, with one replacement character for each invalid part. Every input has a
text, which is why this is the decoder for files. -/
def decodeLossy (bytes : List UInt8) : String :=
  String.ofList ((parts bytes).map (·.getD replacement))

/-- The text of the bytes, if no part of them is invalid. The prompt reads its lines with this one.
-/
def decode? (bytes : List UInt8) : Option String :=
  let all := parts bytes
  if all.all Option.isSome then some (String.ofList (all.filterMap id)) else none

end Utf8

end ScriptLexer
