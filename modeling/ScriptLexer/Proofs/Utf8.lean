import Mathlib.Tactic.Ring
import ScriptLexer.Utf8

/-!
# Decoding undoes encoding

The encoder takes a number apart into groups of six bits, and the decoder puts such groups together
again, but it has to find out from the bytes alone where an encoding ends and whether it is one.
**The part at the start of the bytes is a character exactly when they start with its encoding**
(`cut_encodeChar`, `encodeChar_append_of_cut`). So bytes are a text exactly when they are what the
text is encoded as (`decode?_eq_some_iff`), and no text is changed by encoding and decoding it.

The narrowed ranges of the second byte come in here and nowhere else: with its first byte's bits
they say of the whole number that it is a character and takes as many bytes as the first byte says
(`Leads.takesMore`).

Numbers are cut into groups by division and remainder and not by shifts and masks, on both sides.
The cases of the encoder and the rows of the decoder's table are then linear arithmetic, and `omega`
does them.
-/

set_option autoImplicit false

namespace ScriptLexer

namespace Utf8

/-! ## Groups of six bits

The groups of a number by themselves: taking so many bytes and putting their groups together gives
back the number, and nothing else is put together from them.
-/

/-- The byte that holds the group of six bits of a number behind which `i` groups are to come. The
mark of such a byte is added, the group being too small to touch it. -/
def tailByte (n i : Nat) : UInt8 := UInt8.ofNat (0x80 + n / 64 ^ i % 64)

/-- The bytes that hold the last groups of a number. -/
def tailBytes (n : Nat) : Nat → List UInt8
  | 0 => []
  | more + 1 => tailByte n more :: tailBytes n more

theorem toNat_tailByte (n i : Nat) : (tailByte n i).toNat = 0x80 + n / 64 ^ i % 64 := by
  rw [tailByte, UInt8.toNat_ofNat']
  omega

/-- The bits in front of a group, and then the group. This is one step of the decoder, which has the
bits in front and takes the group. -/
theorem div_pow_succ_mul (n i : Nat) : n / 64 ^ (i + 1) * 64 + n / 64 ^ i % 64 = n / 64 ^ i := by
  rw [pow_succ, ← Nat.div_div_eq_div_mul, Nat.mul_comm]
  exact Nat.div_add_mod _ 64

/-- The bytes that follow are taken exactly when they are the last groups of the number that comes
of it. Of the first of them the range has been narrowed. -/
theorem follow_eq_some_iff {value more n : Nat} {low high : UInt8} {bytes rest : List UInt8}
    (hlow : 0x80 ≤ low.toNat) (hhigh : high.toNat ≤ 0xBF) :
    follow value more low high bytes = (some n, rest) ↔
      bytes = tailBytes n more ++ rest ∧ n / 64 ^ more = value ∧
        ∀ i, more = i + 1 → low ≤ tailByte n i ∧ tailByte n i ≤ high := by
  induction more generalizing value low high bytes with
  | zero =>
    simp only [follow, tailBytes, Prod.mk.injEq, Option.some.injEq, List.nil_append, pow_zero,
      Nat.div_one]
    constructor
    · rintro ⟨rfl, rfl⟩
      exact ⟨rfl, rfl, fun i hi => absurd hi (Nat.succ_ne_zero i).symm⟩
    · rintro ⟨rfl, rfl, -⟩
      exact ⟨rfl, rfl⟩
  | succ more ih =>
    cases bytes with
    | nil => simp [follow, tailBytes]
    | cons b bytes =>
      have hgroup := div_pow_succ_mul n more
      have hbyte := toNat_tailByte n more
      simp only [UInt8.le_iff_toNat_le] at ih ⊢
      rw [follow, tailBytes, List.cons_append, List.cons.injEq]
      constructor
      · intro h
        split at h
        · rename_i hrange
          obtain ⟨hlow', hhigh'⟩ := hrange
          rw [UInt8.le_iff_toNat_le] at hlow' hhigh'
          obtain ⟨hbytes, hvalue, -⟩ := (ih (by decide) (by decide)).mp h
          have hb : b = tailByte n more := UInt8.toNat_inj.mp (by omega)
          refine ⟨⟨hb, hbytes⟩, by omega, ?_⟩
          intro i hi
          obtain rfl := Nat.succ.inj hi
          rw [← hb]
          exact ⟨hlow', hhigh'⟩
        · simp at h
      · rintro ⟨⟨rfl, hbytes⟩, hvalue, hrange⟩
        obtain ⟨hlow', hhigh'⟩ := hrange more rfl
        rw [if_pos ⟨UInt8.le_iff_toNat_le.mpr hlow', UInt8.le_iff_toNat_le.mpr hhigh'⟩]
        refine (ih (by decide) (by decide)).mpr ⟨hbytes, by omega, ?_⟩
        -- behind the second byte the range is that of all groups
        intro i hi
        rw [toNat_tailByte]
        constructor
        · exact Nat.le_add_right 0x80 _
        · show 0x80 + n / 64 ^ i % 64 ≤ 0xBF
          omega

/-! ## First bytes

A first byte has a mark, which says how many bytes follow, and the highest bits of the number. The
table of the decoder lists the bytes that can be first and what the second may be, and it is shown
to be right row by row.
-/

/-- The number is in the range whose encodings have so many bytes behind the first. No number is in
two of these ranges, so an encoding is never longer than it has to be. -/
def TakesMore (n : Nat) : Nat → Prop
  | 1 => 0x80 ≤ n ∧ n ≤ 0x7FF
  | 2 => 0x800 ≤ n ∧ n ≤ 0xFFFF
  | 3 => 0x10000 ≤ n
  | _ => False

/-- The bits of a first byte that say how many bytes are to follow. -/
def leadMark : Nat → Nat
  | 1 => 0xC0
  | 2 => 0xE0
  | _ => 0xF0

theorem toNat_ofNat_of_isValidChar {n : Nat} (h : n.isValidChar) : (Char.ofNat n).toNat = n := by
  rw [Char.ofNat, dif_pos h]
  rfl

theorem encodeChar_of_lt {c : Char} (h : c.toNat < 0x80) :
    String.utf8EncodeChar c = [UInt8.ofNat c.toNat] := by
  rw [String.utf8EncodeChar, Char.toNat_val, if_pos (Nat.le_of_lt_succ h)]

/-- The encoder by ranges: the first byte has the mark and the highest bits, and the groups follow.
-/
theorem encodeChar_of_takesMore {n more : Nat} (hvalid : n.isValidChar) (h : TakesMore n more) :
    String.utf8EncodeChar (Char.ofNat n) =
      UInt8.ofNat (leadMark more + n / 64 ^ more) :: tailBytes n more := by
  have hn := toNat_ofNat_of_isValidChar hvalid
  rw [Nat.isValidChar] at hvalid
  unfold TakesMore at h
  split at h
  · rw [String.utf8EncodeChar, Char.toNat_val, hn, if_neg (by omega), if_pos h.2]
    simp only [leadMark, tailBytes, tailByte, List.cons.injEq, and_true]
    exact ⟨congrArg _ (by omega), congrArg _ (by omega)⟩
  · rw [String.utf8EncodeChar, Char.toNat_val, hn, if_neg (by omega), if_neg (by omega), if_pos h.2]
    simp only [leadMark, tailBytes, tailByte, List.cons.injEq, and_true]
    exact ⟨congrArg _ (by omega), congrArg _ (by omega), congrArg _ (by omega)⟩
  · rw [String.utf8EncodeChar, Char.toNat_val, hn, if_neg (by omega), if_neg (by omega),
      if_neg (by omega)]
    simp only [leadMark, tailBytes, tailByte, List.cons.injEq, and_true]
    exact ⟨congrArg _ (by omega), congrArg _ (by omega), congrArg _ (by omega),
      congrArg _ (by omega)⟩
  · contradiction

/-- The byte says this of what follows it, and the number is as it says: these are its first bits,
and the group behind them is in the range. -/
structure Leads (b : UInt8) (lead : Lead) (n : Nat) : Prop where
  lead?_eq : lead? b = some lead
  payload : n / 64 ^ lead.more = lead.payload
  range : ∀ i, lead.more = i + 1 → lead.low ≤ tailByte n i ∧ tailByte n i ≤ lead.high

theorem range_of_lead? {b : UInt8} {lead : Lead} (h : lead? b = some lead) :
    0x80 ≤ lead.low.toNat ∧ lead.high.toNat ≤ 0xBF := by
  unfold lead? at h
  repeat' split at h
  all_goals cases h <;> exact ⟨Nat.le_of_ble_eq_true rfl, Nat.le_of_ble_eq_true rfl⟩

/-- From the bytes to the number: what the table lets through is a character, and takes as many
bytes as the table says. Every row is a case, and in each it is the narrowed range that does it. -/
theorem Leads.takesMore {b : UInt8} {lead : Lead} {n : Nat} (h : Leads b lead n) :
    n.isValidChar ∧ TakesMore n lead.more ∧
      b = UInt8.ofNat (leadMark lead.more + n / 64 ^ lead.more) := by
  obtain ⟨hlead, hpayload, hrange⟩ := h
  rw [← UInt8.toNat_inj, UInt8.toNat_ofNat', Nat.isValidChar]
  simp only [lead?, UInt8.le_iff_toNat_le, ← UInt8.toNat_inj, UInt8.reduceToNat] at hlead
  split_ifs at hlead
  all_goals
    cases hlead
    obtain ⟨hlow, hhigh⟩ := hrange _ rfl
    simp only [UInt8.le_iff_toNat_le, toNat_tailByte, UInt8.reduceToNat, Nat.reducePow,
      Nat.div_one] at hlow hhigh
    simp only [TakesMore, leadMark, Nat.reducePow] at hpayload ⊢
    omega

theorem leadMark_add_lt {n more : Nat} (hvalid : n.isValidChar) (h : TakesMore n more) :
    leadMark more + n / 64 ^ more < 0x100 := by
  rw [Nat.isValidChar] at hvalid
  unfold TakesMore at h
  split at h
  · simp only [leadMark]
    omega
  · simp only [leadMark]
    omega
  · simp only [leadMark]
    omega
  · contradiction

/-- From the number to the bytes: the first byte of an encoding has a row in the table, and the
second is in the range of the row. -/
theorem exists_leads_of_takesMore {n more : Nat} {b : UInt8} (hvalid : n.isValidChar)
    (h : TakesMore n more) (hb : b.toNat = leadMark more + n / 64 ^ more) :
    ∃ lead, Leads b lead n ∧ lead.more = more := by
  have hrow : ∃ lead, lead? b = some lead ∧ lead.more = more ∧ n / 64 ^ more = lead.payload ∧
      ∀ i, more = i + 1 → lead.low ≤ tailByte n i ∧ tailByte n i ≤ lead.high := by
    rw [Nat.isValidChar] at hvalid
    simp only [lead?, UInt8.le_iff_toNat_le, ← UInt8.toNat_inj, UInt8.reduceToNat, hb]
    unfold TakesMore at h
    split at h
    all_goals simp only [leadMark, Nat.reducePow] at *
    -- of the rows of the table all but those for this range are impossible
    all_goals split_ifs
    all_goals first
      | exact False.elim (by omega)
      | refine ⟨_, rfl, rfl, by dsimp only; omega, ?_⟩
        intro i hi
        obtain rfl := Nat.succ.inj hi
        simp only [toNat_tailByte, UInt8.reduceToNat, Nat.reducePow]
        omega
  obtain ⟨lead, hlead, rfl, hpayload, hrange⟩ := hrow
  exact ⟨lead, ⟨hlead, hpayload, hrange⟩, rfl⟩

theorem not_lt_of_lead? {b : UInt8} {lead : Lead} (h : lead? b = some lead) : ¬ b < 0x80 := by
  intro hlt
  have hnone : lead? b = none := by
    simp only [UInt8.lt_iff_toNat_lt, UInt8.reduceToNat] at hlt
    simp only [lead?, UInt8.le_iff_toNat_le, ← UInt8.toNat_inj, UInt8.reduceToNat]
    split_ifs <;> first | rfl | omega
  rw [h] at hnone
  contradiction

theorem Leads.not_lt {b : UInt8} {lead : Lead} {n : Nat} (h : Leads b lead n) : ¬ b < 0x80 :=
  not_lt_of_lead? h.lead?_eq

theorem cut_of_lead? {b : UInt8} {lead : Lead} (h : lead? b = some lead) (rest : List UInt8) :
    cut b rest =
      ((follow lead.payload lead.more lead.low lead.high rest).1.map Char.ofNat,
        (follow lead.payload lead.more lead.low lead.high rest).2) := by
  rw [cut, if_neg (not_lt_of_lead? h), h]

/-! ## One character

The two halves of the main statement: an encoding is read as its character, and what is read as a
character is its encoding. Both go by the number of bytes, one or several.
-/

/-- A character past those of one byte is encoded as a first byte and the last groups of its
number. -/
theorem exists_leads {c : Char} (h : ¬ c.toNat < 0x80) :
    ∃ b lead, Leads b lead c.toNat ∧
      String.utf8EncodeChar c = b :: tailBytes c.toNat lead.more := by
  have hvalid : c.toNat.isValidChar := c.valid
  obtain ⟨more, hmore⟩ : ∃ more, TakesMore c.toNat more := by
    by_cases htwo : c.toNat ≤ 0x7FF
    · exact ⟨1, Nat.le_of_not_lt h, htwo⟩
    · by_cases hthree : c.toNat ≤ 0xFFFF
      · exact ⟨2, Nat.lt_of_not_le htwo, hthree⟩
      · exact ⟨3, Nat.lt_of_not_le hthree⟩
  have hencode := encodeChar_of_takesMore hvalid hmore
  rw [Char.ofNat_toNat] at hencode
  obtain ⟨lead, hleads, rfl⟩ := exists_leads_of_takesMore hvalid hmore
    (UInt8.toNat_ofNat_of_lt' (leadMark_add_lt hvalid hmore))
  exact ⟨_, lead, hleads, hencode⟩

/-- The part at the start of the encoding of a character is that character, whatever follows. -/
theorem cut_encodeChar (c : Char) (rest : List UInt8) :
    ∃ b tail, String.utf8EncodeChar c = b :: tail ∧ cut b (tail ++ rest) = (some c, rest) := by
  by_cases hshort : c.toNat < 0x80
  · refine ⟨_, [], encodeChar_of_lt hshort, ?_⟩
    have hb : (UInt8.ofNat c.toNat).toNat = c.toNat :=
      UInt8.toNat_ofNat_of_lt' (Nat.lt_trans hshort (by decide))
    have hlt : UInt8.ofNat c.toNat < 0x80 := by
      rw [UInt8.lt_iff_toNat_lt, hb]
      exact hshort
    rw [cut, if_pos hlt, hb, Char.ofNat_toNat, List.nil_append]
  · obtain ⟨b, lead, hleads, hencode⟩ := exists_leads hshort
    obtain ⟨hlow, hhigh⟩ := range_of_lead? hleads.lead?_eq
    have hfollow : follow lead.payload lead.more lead.low lead.high
        (tailBytes c.toNat lead.more ++ rest) = (some c.toNat, rest) :=
      (follow_eq_some_iff hlow hhigh).mpr ⟨rfl, hleads.payload, hleads.range⟩
    refine ⟨b, _, hencode, ?_⟩
    rw [cut_of_lead? hleads.lead?_eq, hfollow, Option.map_some, Char.ofNat_toNat]

theorem encodeChar_append_of_cut {b : UInt8} {rest after : List UInt8} {c : Char}
    (h : cut b rest = (some c, after)) : String.utf8EncodeChar c ++ after = b :: rest := by
  rw [cut] at h
  split at h
  -- one byte is its own number; a longer character is put together from what its bytes hold
  · rename_i hlt
    obtain ⟨hc, rfl⟩ := Prod.mk.inj h
    obtain rfl := Option.some.inj hc
    have hshort : b.toNat < 0x80 := UInt8.lt_iff_toNat_lt.mp hlt
    have hchar : (Char.ofNat b.toNat).toNat = b.toNat :=
      toNat_ofNat_of_isValidChar (Or.inl (Nat.lt_trans hshort (by decide)))
    rw [encodeChar_of_lt (by rwa [hchar]), hchar, UInt8.ofNat_toNat]
    rfl
  · split at h
    · simp at h
    · rename_i lead hlead
      obtain ⟨hlow, hhigh⟩ := range_of_lead? hlead
      obtain ⟨hc, rfl⟩ := Prod.mk.inj h
      obtain ⟨n, hn, rfl⟩ := Option.map_eq_some_iff.mp hc
      obtain ⟨hrest, hpayload, hrange⟩ := (follow_eq_some_iff hlow hhigh).mp (Prod.ext hn rfl)
      obtain ⟨hvalid, hmore, hb⟩ := (Leads.mk hlead hpayload hrange).takesMore
      rw [encodeChar_of_takesMore hvalid hmore, ← hb, List.cons_append]
      exact congrArg (b :: ·) hrest.symm

/-! ## Texts -/

/-- Bytes are none, or a part and the bytes behind it. It is the recursion of `parts`, which does
not go on with the tail of the list but with what cutting leaves. -/
@[elab_as_elim]
theorem parts_induction {motive : List UInt8 → Prop} (nil : motive [])
    (part : ∀ b rest, motive (cut b rest).2 → motive (b :: rest)) (bytes : List UInt8) :
    motive bytes := by
  induction hn : bytes.length using Nat.strongRecOn generalizing bytes with
  | ind n ih =>
    subst hn
    cases bytes with
    | nil => exact nil
    | cons b rest => exact part b rest (ih _ (Nat.lt_succ_of_le (length_cut_le b rest)) _ rfl)

theorem parts_encodeChar_append (c : Char) (rest : List UInt8) :
    parts (String.utf8EncodeChar c ++ rest) = some c :: parts rest := by
  obtain ⟨b, tail, hencode, hcut⟩ := cut_encodeChar c rest
  rw [hencode, List.cons_append, parts_cons, hcut]

/-- A text is cut into its characters, whatever follows it. What is in front of it is another matter
(`parts_append`). -/
theorem parts_encode_append (text : String) (rest : List UInt8) :
    parts (encode text ++ rest) = text.toList.map some ++ parts rest := by
  rw [encode]
  induction text.toList with
  | nil => rfl
  | cons c chars ih =>
    rw [List.flatMap_cons, List.append_assoc, parts_encodeChar_append, ih, List.map_cons,
      List.cons_append]

@[simp] theorem parts_encode (text : String) : parts (encode text) = text.toList.map some := by
  have h := parts_encode_append text []
  rwa [List.append_nil, parts_nil, List.append_nil] at h

theorem flatMap_encodeChar_of_parts {bytes : List UInt8} {chars : List Char}
    (h : parts bytes = chars.map some) : chars.flatMap String.utf8EncodeChar = bytes := by
  induction chars generalizing bytes with
  | nil =>
    cases bytes with
    | nil => rfl
    | cons b rest => simp [parts_cons] at h
  | cons c chars ih =>
    cases bytes with
    | nil => simp [parts_nil] at h
    | cons b rest =>
      rw [parts_cons, List.map_cons, List.cons.injEq] at h
      obtain ⟨hfirst, hbehind⟩ := h
      rw [List.flatMap_cons, ih hbehind]
      exact encodeChar_append_of_cut (Prod.ext hfirst rfl)

theorem eq_map_some_of_all_isSome {all : List (Option Char)} (h : all.all Option.isSome = true) :
    all = (all.filterMap id).map some := by
  induction all with
  | nil => rfl
  | cons part all ih =>
    rw [List.all_cons, Bool.and_eq_true] at h
    obtain ⟨c, rfl⟩ := Option.isSome_iff_exists.mp h.1
    rw [List.filterMap_cons_some (rfl : id (some c) = some c), List.map_cons, ← ih h.2]

@[simp] theorem decodeLossy_encode (text : String) : decodeLossy (encode text) = text := by
  have hget : (fun c : Option Char => c.getD replacement) ∘ some = id := rfl
  rw [decodeLossy, parts_encode, List.map_map, hget, List.map_id, String.ofList_toList]

theorem encode_injective {a b : String} (h : encode a = encode b) : a = b := by
  rw [← decodeLossy_encode a, h, decodeLossy_encode]

/-- **Bytes are a text exactly when they are what the text is encoded as.** -/
theorem decode?_eq_some_iff {bytes : List UInt8} {text : String} :
    decode? bytes = some text ↔ encode text = bytes := by
  constructor
  · intro h
    rw [decode?] at h
    split at h
    · rename_i hall
      obtain rfl := Option.some.inj h
      rw [encode, String.toList_ofList]
      exact flatMap_encodeChar_of_parts (eq_map_some_of_all_isSome hall)
    · contradiction
  · rintro rfl
    have hid : (id : Option Char → Option Char) ∘ some = some := rfl
    rw [decode?, parts_encode, if_pos (by simp), List.filterMap_map, hid, List.filterMap_some,
      String.ofList_toList]

theorem decode?_eq_none_iff {bytes : List UInt8} :
    decode? bytes = none ↔ ∀ text, encode text ≠ bytes := by
  rw [Option.eq_none_iff_forall_ne_some]
  exact forall_congr' fun text => not_congr decode?_eq_some_iff

end Utf8

end ScriptLexer
