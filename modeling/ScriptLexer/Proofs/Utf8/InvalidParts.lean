import ScriptLexer.Program
import ScriptLexer.Proofs.Utf8

/-!
# What is replaced

What an invalid part is can be said by the encoder alone, without any range of bytes: where no
character starts, it is all that could still be the start of one, and a single byte where nothing
could (`IsInvalidPart`). **There is one way to cut bytes into characters and such parts, and each of
the parts is replaced** (`sourceText_eq_of_cuts`).

The decoder stops at the first byte that does not fit. That nothing longer is the start of a
character is clear from that byte; that what it has taken is the start of one takes a way to go on
from there (`exists_completion`).

The standard recommends to replace maximal parts, and that is what is defined here. Other
conventions exist, one replacement for each byte for instance, and give other texts for the same
bytes.
-/

set_option autoImplicit false

namespace ScriptLexer

namespace Utf8

/-! ## Characters and invalid parts

All of this is said with `String.utf8EncodeChar` and prefixes. The table of first bytes does not
occur, so that a mistake in the table could not be repeated in the specification.
-/

/-- The bytes are the start of the encoding of a character, and not all of it. No bytes are that of
any character. -/
def BreaksOff (bytes : List UInt8) : Prop :=
  ∃ c, bytes <+: String.utf8EncodeChar c ∧ bytes ≠ String.utf8EncodeChar c

/-- Of all the prefixes of the bytes that break off in a character, this is the longest. It is empty
where no character goes on like the bytes at all. -/
structure IsLongestBrokenOff (part bytes : List UInt8) : Prop where
  starts : part <+: bytes
  breaksOff : BreaksOff part
  longest : ∀ other, other <+: bytes → BreaksOff other → other.length ≤ part.length

/-- The bytes do not start with a character, and this is what is invalid at their start: the longest
prefix that breaks off in a character, or one byte if that is empty. -/
structure IsInvalidPart (part bytes : List UInt8) : Prop where
  starts : part <+: bytes
  no_character : ∀ c, ¬ String.utf8EncodeChar c <+: bytes
  maximal : IsLongestBrokenOff part bytes ∧ part ≠ [] ∨
    IsLongestBrokenOff [] bytes ∧ part.length = 1

/-- Some of the bytes of an input: those of a character, or an invalid part. The part is kept as
bytes, although all parts are read alike, so that the segments give back the input. -/
inductive Segment
  | character (c : Char)
  | invalid (part : List UInt8)
  deriving DecidableEq, Repr

namespace Segment

def bytes : Segment → List UInt8
  | character c => String.utf8EncodeChar c
  | invalid part => part

/-- What is read in the place of the segment. -/
def read : Segment → Char
  | character c => c
  | invalid _ => '\ufffd'

/-- The segment is what these bytes start with. Both conditions look at the bytes behind the segment
as well: a part is the longest of its kind there. -/
def Starts (bytes : List UInt8) : Segment → Prop
  | character c => String.utf8EncodeChar c <+: bytes
  | invalid part => IsInvalidPart part bytes

end Segment

/-- The segments are the bytes, one behind the other, each of them where it may be. -/
def Cuts : List Segment → List UInt8 → Prop
  | [], bytes => bytes = []
  | segment :: segments, bytes =>
    ∃ rest, bytes = segment.bytes ++ rest ∧ segment.Starts bytes ∧ Cuts segments rest

/-! ## One way to cut

Two ways to cut the same bytes agree on the first segment, and then on what is left. For two
characters that is because no encoding is the start of another one; for two invalid parts it is
because both are the longest of their kind.
-/

theorem encodeChar_ne_nil (c : Char) : String.utf8EncodeChar c ≠ [] := by
  obtain ⟨b, tail, hencode, -⟩ := cut_encodeChar c []
  rw [hencode]
  exact List.cons_ne_nil b tail

theorem cut_of_encodeChar_append {c : Char} {b : UInt8} {rest after : List UInt8}
    (h : String.utf8EncodeChar c ++ after = b :: rest) : cut b rest = (some c, after) := by
  obtain ⟨first, tail, hencode, hcut⟩ := cut_encodeChar c after
  rw [hencode, List.cons_append] at h
  obtain ⟨rfl, rfl⟩ := List.cons.inj h
  exact hcut

/-- No encoding is the start of another. -/
theorem eq_of_encodeChar_isPrefix {c d : Char} {bytes : List UInt8}
    (hc : String.utf8EncodeChar c <+: bytes) (hd : String.utf8EncodeChar d <+: bytes) : c = d := by
  obtain ⟨after, rfl⟩ := hc
  obtain ⟨after', hafter⟩ := hd
  obtain ⟨b, tail, hencode, hcut⟩ := cut_encodeChar c after
  rw [hencode, List.cons_append] at hafter
  rw [cut_of_encodeChar_append hafter] at hcut
  exact (Option.some.inj (Prod.mk.inj hcut).1).symm

theorem IsInvalidPart.ne_nil {part bytes : List UInt8} (h : IsInvalidPart part bytes) :
    part ≠ [] := by
  rcases h.maximal with ⟨-, hne⟩ | ⟨-, hlength⟩
  · exact hne
  · exact List.ne_nil_of_length_eq_add_one hlength

theorem IsInvalidPart.length_le {part other bytes : List UInt8} (h : IsInvalidPart part bytes)
    (h' : IsInvalidPart other bytes) : part.length ≤ other.length := by
  rcases h.maximal with ⟨hpart, -⟩ | ⟨-, hlength⟩
  · rcases h'.maximal with ⟨hother, -⟩ | ⟨hnone, -⟩
    · exact hother.longest part hpart.starts hpart.breaksOff
    · exact Nat.le_trans (hnone.longest part hpart.starts hpart.breaksOff) (Nat.zero_le _)
  · rw [hlength]
    exact List.length_pos_iff.mpr h'.ne_nil

/-- Two longest prefixes of the same bytes are the same. -/
theorem IsInvalidPart.unique {part other bytes : List UInt8} (h : IsInvalidPart part bytes)
    (h' : IsInvalidPart other bytes) : part = other :=
  (List.prefix_of_prefix_length_le h.starts h'.starts (h.length_le h')).eq_of_length_le
    (h'.length_le h)

namespace Segment

variable {bytes : List UInt8} {segment other : Segment}

theorem Starts.bytes_ne_nil (h : segment.Starts bytes) : segment.bytes ≠ [] := by
  cases segment with
  | character c => exact encodeChar_ne_nil c
  | invalid part => exact IsInvalidPart.ne_nil h

/-- Bytes start with one segment only: a character and an invalid part exclude each other by
definition. -/
theorem Starts.unique (h : segment.Starts bytes) (h' : other.Starts bytes) : segment = other := by
  cases segment with
  | character c =>
    cases other with
    | character d => rw [eq_of_encodeChar_isPrefix h h']
    | invalid part => exact absurd h (h'.no_character c)
  | invalid part =>
    cases other with
    | character d => exact absurd h' (h.no_character d)
    | invalid part' => rw [IsInvalidPart.unique h h']

end Segment

theorem Cuts.flatMap_bytes {segments : List Segment} {bytes : List UInt8}
    (h : Cuts segments bytes) : segments.flatMap Segment.bytes = bytes := by
  induction segments generalizing bytes with
  | nil => exact (show bytes = [] from h).symm
  | cons segment segments ih =>
    obtain ⟨rest, rfl, -, hrest⟩ := h
    rw [List.flatMap_cons, ih hrest]

theorem Cuts.bytes_ne_nil {segments : List Segment} {bytes : List UInt8} (h : Cuts segments bytes) :
    ∀ segment ∈ segments, segment.bytes ≠ [] := by
  induction segments generalizing bytes with
  | nil => simp
  | cons segment segments ih =>
    obtain ⟨rest, -, hstarts, hrest⟩ := h
    exact List.forall_mem_cons.mpr ⟨hstarts.bytes_ne_nil, ih hrest⟩

/-- There is at most one way to cut. That there is one is shown by the decoder (`exists_cuts`). -/
theorem Cuts.unique {segments others : List Segment} {bytes : List UInt8} (h : Cuts segments bytes)
    (h' : Cuts others bytes) : segments = others := by
  induction segments generalizing others bytes with
  | nil =>
    cases others with
    | nil => rfl
    | cons other others =>
      obtain ⟨rest, hbytes, hstarts, -⟩ := h'
      rw [show bytes = [] from h] at hbytes
      exact absurd (List.append_eq_nil_iff.mp hbytes.symm).1 hstarts.bytes_ne_nil
  | cons segment segments ih =>
    obtain ⟨rest, hbytes, hstarts, hrest⟩ := h
    cases others with
    | nil =>
      rw [show bytes = [] from h'] at hbytes
      exact absurd (List.append_eq_nil_iff.mp hbytes.symm).1 hstarts.bytes_ne_nil
    | cons other others =>
      obtain ⟨rest', hbytes', hstarts', hrest'⟩ := h'
      -- with the same first segment the bytes behind it are the same, and so is their cut
      obtain rfl := hstarts.unique hstarts'
      obtain rfl := List.append_cancel_left (hbytes.symm.trans hbytes')
      rw [ih hrest hrest']

/-! ## Where the decoder stops

What the decoder has taken when it gives up, described by what it would have done with other bytes
behind: with some it would have found a number, and with those that are there it never will.
-/

theorem low_le_high_of_lead? {b : UInt8} {lead : Lead} (h : lead? b = some lead) :
    lead.low ≤ lead.high := by
  unfold lead? at h
  repeat' split at h
  all_goals cases h <;> exact Nat.le_of_ble_eq_true rfl

/-- There is always a way to go on to a character: with the least byte that may come next. That the
bytes then make a character and not only a number is for the table to say. -/
theorem exists_completion (value count : Nat) {low high : UInt8} (h : low ≤ high) :
    ∃ n bytes, bytes.length = count ∧ follow value count low high bytes = (some n, []) := by
  induction count generalizing value low high with
  | zero => exact ⟨value, [], rfl, rfl⟩
  | succ count ih =>
    have htail : (0x80 : UInt8) ≤ 0xBF := by decide
    obtain ⟨n, bytes, hlength, hfollow⟩ := ih (value * 64 + low.toNat % 64) htail
    refine ⟨n, low :: bytes, by rw [List.length_cons, hlength], ?_⟩
    rw [follow, if_pos ⟨Nat.le_refl _, h⟩, hfollow]

/-- Of these bytes `taken` are taken, more have to follow, and the next one is not one of them. The
first field says that stopping here is not too late, the second that it is not too early. -/
structure StopsBehind (value count : Nat) (low high : UInt8) (taken after : List UInt8) : Prop where
  completes : ∃ n more, more ≠ [] ∧ follow value count low high (taken ++ more) = (some n, [])
  stuck : ∀ b behind, after = b :: behind →
    ∀ other, (follow value count low high (taken ++ b :: other)).1 = none

theorem StopsBehind.cons {value count : Nat} {low high b : UInt8} {taken after : List UInt8}
    (hb : low ≤ b ∧ b ≤ high)
    (h : StopsBehind (value * 64 + b.toNat % 64) count 0x80 0xBF taken after) :
    StopsBehind value (count + 1) low high (b :: taken) after where
  completes := by
    obtain ⟨n, more, hne, hfollow⟩ := h.completes
    refine ⟨n, more, hne, ?_⟩
    rw [List.cons_append, follow, if_pos hb, hfollow]
  stuck := by
    intro d behind hafter other
    rw [List.cons_append, follow, if_pos hb, h.stuck d behind hafter]

/-- Where the bytes break off, what is taken could go on, but not with what is there. -/
theorem exists_stopsBehind {value count : Nat} {low high : UInt8} {bytes after : List UInt8}
    (h : follow value count low high bytes = (none, after)) (hrange : low ≤ high) :
    ∃ taken, bytes = taken ++ after ∧ StopsBehind value count low high taken after := by
  fun_induction follow value count low high bytes with
  | case1 => exact absurd (Prod.mk.inj h).1 (Option.some_ne_none _)
  -- the bytes end too early here, and in the last case with one that is out of range
  | case2 value count low high =>
    obtain ⟨-, rfl⟩ := Prod.mk.inj h
    obtain ⟨n, more, hlength, hfollow⟩ := exists_completion value (count + 1) hrange
    exact ⟨[], rfl, ⟨n, more, List.ne_nil_of_length_eq_add_one hlength, hfollow⟩, by simp⟩
  | case3 value count low high b rest hin ih =>
    obtain ⟨taken, rfl, hstops⟩ := ih h (by decide)
    exact ⟨b :: taken, rfl, hstops.cons hin⟩
  | case4 value count low high b rest hout =>
    obtain ⟨-, rfl⟩ := Prod.mk.inj h
    obtain ⟨n, more, hlength, hfollow⟩ := exists_completion value (count + 1) hrange
    refine ⟨[], rfl, ⟨n, more, List.ne_nil_of_length_eq_add_one hlength, hfollow⟩, ?_⟩
    intro d behind hafter other
    obtain ⟨rfl, -⟩ := List.cons.inj hafter
    rw [List.nil_append, follow, if_neg hout]

/-! ## What is cut off as invalid

The two descriptions are brought together here. What could still have become a number for the
decoder is the start of a character for the encoder, and the other way round.
-/

theorem breaksOff_nil : BreaksOff [] := ⟨'a', List.nil_prefix, (encodeChar_ne_nil 'a').symm⟩

/-- What breaks off in a character goes on to it. In this form the encoder is out of the way, and
what breaks off is something the decoder could still have taken. -/
theorem BreaksOff.exists_cut {b : UInt8} {tail : List UInt8} (h : BreaksOff (b :: tail)) :
    ∃ c more, cut b (tail ++ more) = (some c, []) := by
  obtain ⟨c, ⟨more, happend⟩, -⟩ := h
  refine ⟨c, more, cut_of_encodeChar_append ?_⟩
  rw [List.append_nil, ← happend, List.cons_append]

theorem isLongestBrokenOff_nil {b : UInt8} (hshort : ¬ b < 0x80) (hlead : lead? b = none)
    (rest : List UInt8) : IsLongestBrokenOff [] (b :: rest) where
  starts := List.nil_prefix
  breaksOff := breaksOff_nil
  longest := by
    intro other hother hbreaks
    cases other with
    | nil => exact Nat.le_refl _
    | cons d tail =>
      obtain ⟨rfl, -⟩ := List.cons_prefix_cons.mp hother
      obtain ⟨c, more, hcut⟩ := hbreaks.exists_cut
      rw [cut, if_neg hshort, hlead] at hcut
      exact absurd (Prod.mk.inj hcut).1.symm (Option.some_ne_none c)

/-- What is taken behind a first byte breaks off, and nothing longer does. -/
theorem isLongestBrokenOff_of_stopsBehind {b : UInt8} {lead : Lead} {taken after : List UInt8}
    (hlead : lead? b = some lead)
    (h : StopsBehind lead.payload lead.more lead.low lead.high taken after) :
    IsLongestBrokenOff (b :: taken) (b :: taken ++ after) where
  starts := List.prefix_append _ after
  breaksOff := by
    obtain ⟨n, more, hne, hfollow⟩ := h.completes
    have hcut : cut b (taken ++ more) = (some (Char.ofNat n), []) := by
      rw [cut_of_lead? hlead, hfollow, Option.map_some]
    have hencode := encodeChar_append_of_cut hcut
    rw [List.append_nil] at hencode
    refine ⟨_, ⟨more, hencode.symm⟩, ?_⟩
    rw [hencode]
    intro heq
    exact hne (List.append_right_eq_self.mp (List.cons.inj heq).2.symm)
  longest := by
    intro other hother hbreaks
    refine Nat.le_of_not_lt fun hlonger => ?_
    obtain ⟨more, rfl⟩ := List.prefix_of_prefix_length_le (List.prefix_append (b :: taken) after)
      hother (Nat.le_of_lt hlonger)
    cases more with
    | nil => simp at hlonger
    | cons d more =>
      -- a longer one goes on with the byte that does not fit
      obtain ⟨behind, hbehind⟩ := (List.prefix_append_right_inj (b :: taken)).mp hother
      rw [List.cons_append] at hbreaks
      obtain ⟨c, other, hcut⟩ := hbreaks.exists_cut
      rw [List.append_assoc, List.cons_append, cut_of_lead? hlead,
        h.stuck d (more ++ behind) hbehind.symm] at hcut
      exact absurd (Prod.mk.inj hcut).1.symm (Option.some_ne_none c)

/-- **What the decoder takes where it finds no character is an invalid part.** -/
theorem exists_isInvalidPart {b : UInt8} {rest after : List UInt8}
    (h : cut b rest = (none, after)) :
    ∃ part, b :: rest = part ++ after ∧ IsInvalidPart part (b :: rest) := by
  have hnone : ∀ c, ¬ String.utf8EncodeChar c <+: b :: rest := by
    rintro c ⟨behind, hbehind⟩
    rw [cut_of_encodeChar_append hbehind] at h
    exact Option.some_ne_none c (Prod.mk.inj h).1
  have hshort : ¬ b < 0x80 := by
    intro hshort
    rw [cut, if_pos hshort] at h
    exact Option.some_ne_none _ (Prod.mk.inj h).1
  -- a byte that starts nothing is a part by itself, and behind one that starts something the part
  -- is all that could still have become a character
  cases hlead : lead? b with
  | none =>
    rw [cut, if_neg hshort, hlead] at h
    obtain ⟨-, rfl⟩ := Prod.mk.inj h
    exact ⟨[b], rfl, ⟨rest, rfl⟩, hnone, Or.inr ⟨isLongestBrokenOff_nil hshort hlead rest, rfl⟩⟩
  | some lead =>
    rw [cut_of_lead? hlead, Prod.mk.injEq, Option.map_eq_none_iff] at h
    obtain ⟨taken, rfl, hstops⟩ :=
      exists_stopsBehind (Prod.ext h.1 h.2) (low_le_high_of_lead? hlead)
    exact ⟨b :: taken, rfl, ⟨after, rfl⟩, hnone,
      Or.inl ⟨isLongestBrokenOff_of_stopsBehind hlead hstops, List.cons_ne_nil b taken⟩⟩

/-- The bytes can be cut, and the segments are the parts that the decoder finds. -/
theorem exists_cuts (bytes : List UInt8) :
    ∃ segments, Cuts segments bytes ∧
      (parts bytes).map (·.getD replacement) = segments.map Segment.read := by
  induction bytes using parts_induction with
  | nil => exact ⟨[], rfl, by rw [parts_nil]; rfl⟩
  | part b rest ih =>
    obtain ⟨segments, hcuts, hread⟩ := ih
    rw [parts_cons, List.map_cons, hread]
    rcases hcut : cut b rest with ⟨_ | c, after⟩
    · rw [hcut] at hcuts
      obtain ⟨part, happend, hpart⟩ := exists_isInvalidPart hcut
      exact ⟨.invalid part :: segments, ⟨after, happend, hpart, hcuts⟩, rfl⟩
    · rw [hcut] at hcuts
      have happend := encodeChar_append_of_cut hcut
      exact ⟨.character c :: segments, ⟨after, happend.symm, ⟨after, happend⟩, hcuts⟩, rfl⟩

end Utf8

/-- **Bytes are cut into characters and invalid parts in one way only, and what is read of them is
one character for each segment**: the character that it is, or the replacement character for an
invalid part. No segment is empty. -/
theorem sourceText_eq_of_cuts (bytes : List UInt8) :
    ∃ segments, Utf8.Cuts segments bytes ∧
      (∀ others, Utf8.Cuts others bytes → others = segments) ∧
      segments.flatMap Utf8.Segment.bytes = bytes ∧
      (∀ segment ∈ segments, segment.bytes ≠ []) ∧
      Program.sourceText bytes = String.ofList (segments.map Utf8.Segment.read) := by
  obtain ⟨segments, hcuts, hread⟩ := Utf8.exists_cuts bytes
  refine ⟨segments, hcuts, ?_, hcuts.flatMap_bytes, hcuts.bytes_ne_nil, ?_⟩
  · intro others hothers
    exact hothers.unique hcuts
  · exact congrArg String.ofList hread

/-- An overlong form, a surrogate, a number past the last character, and three bytes of four. -/
example : Program.sourceText [0xC0, 0x80, 0xED, 0xA0, 0xF4, 0x90, 0xF0, 0x9F, 0x98, 0x41] =
    "\ufffd\ufffd\ufffd\ufffd\ufffd\ufffd\ufffdA" := by
  decide +kernel

end ScriptLexer
