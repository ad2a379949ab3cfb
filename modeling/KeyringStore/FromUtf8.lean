import KeyringStore.Utf8

/-! # `String::from_utf8`

bincode reads a `String` as a byte vector and checks it with `String::from_utf8`, whose
`run_utf8_validation` reads one sequence at a time: the first byte gives the width
(`utf8CharWidth`), every later byte must be a continuation byte (`isCont`), and the first two bytes
of a 3- or 4-byte sequence must be one of the pairs of its table (`secondOk3`, `secondOk4`), which is
what keeps out overlong forms, surrogates and code points above `U+10FFFF`. `decodeChar` is that check
for one sequence, together with the character it encodes, and `fromUtf8` runs it to the end of the
bytes.

* `decodeChar_eq_some_iff`: a sequence is accepted exactly when it is the UTF-8 encoding of the
  character it decodes to;
* `fromUtf8_eq_some_iff`: `String::from_utf8` accepts exactly the UTF-8 encodings of strings, and
  gives back the string. -/

namespace KeyringStore.FromUtf8

open KeyringStore.Redb KeyringStore.Utf8

/-- `utf8_char_width`: the length of the sequence a first byte starts, `0` for a byte that starts
none. -/
def utf8CharWidth (b : Nat) : Nat :=
  if b < 0x80 then 1 else if b < 0xc2 then 0 else if b < 0xe0 then 2 else if b < 0xf0 then 3
  else if b < 0xf5 then 4 else 0

/-- A continuation byte `0x80..=0xBF`: the bytes for which `next!() as i8 >= -64` fails. -/
def isCont (b : Nat) : Bool := 0x80 ≤ b && b ≤ 0xbf

/-- The `(first, second)` pairs `run_utf8_validation` accepts at the start of a 3-byte sequence. -/
def secondOk3 (first second : Nat) : Bool :=
  first = 0xe0 && 0xa0 ≤ second && second ≤ 0xbf ||
  0xe1 ≤ first && first ≤ 0xec && 0x80 ≤ second && second ≤ 0xbf ||
  first = 0xed && 0x80 ≤ second && second ≤ 0x9f ||
  0xee ≤ first && first ≤ 0xef && 0x80 ≤ second && second ≤ 0xbf

/-- The `(first, second)` pairs `run_utf8_validation` accepts at the start of a 4-byte sequence. -/
def secondOk4 (first second : Nat) : Bool :=
  first = 0xf0 && 0x90 ≤ second && second ≤ 0xbf ||
  0xf1 ≤ first && first ≤ 0xf3 && 0x80 ≤ second && second ≤ 0xbf ||
  first = 0xf4 && 0x80 ≤ second && second ≤ 0x8f

/-- One sequence of `run_utf8_validation`: the character it encodes and the bytes after it, or
`none` where the validation reports an error. -/
def decodeChar : Bytes → Option (Char × Bytes)
  | [] => none
  | b0 :: rest =>
    match utf8CharWidth b0.toNat, rest with
    | 1, rest => some (Char.ofNat b0.toNat, rest)
    | 2, b1 :: rest =>
      if isCont b1.toNat then some (Char.ofNat ((b0.toNat - 0xc0) * 64 + (b1.toNat - 0x80)), rest)
      else none
    | 3, b1 :: b2 :: rest =>
      if secondOk3 b0.toNat b1.toNat && isCont b2.toNat then
        some (Char.ofNat ((b0.toNat - 0xe0) * 4096 + (b1.toNat - 0x80) * 64 + (b2.toNat - 0x80)),
          rest)
      else none
    | 4, b1 :: b2 :: b3 :: rest =>
      if secondOk4 b0.toNat b1.toNat && isCont b2.toNat && isCont b3.toNat then
        some (Char.ofNat ((b0.toNat - 0xf0) * 262144 + (b1.toNat - 0x80) * 4096 +
          (b2.toNat - 0x80) * 64 + (b3.toNat - 0x80)), rest)
      else none
    | _, _ => none

/-! ### The checks as arithmetic -/

theorem utf8CharWidth_spec (b : Nat) :
    (utf8CharWidth b = 1 ↔ b < 0x80) ∧ (utf8CharWidth b = 2 ↔ 0xc2 ≤ b ∧ b < 0xe0) ∧
      (utf8CharWidth b = 3 ↔ 0xe0 ≤ b ∧ b < 0xf0) ∧ (utf8CharWidth b = 4 ↔ 0xf0 ≤ b ∧ b < 0xf5) := by
  unfold utf8CharWidth; split_ifs <;> simp <;> omega

@[simp] theorem isCont_iff {b : Nat} : isCont b = true ↔ 0x80 ≤ b ∧ b ≤ 0xbf := by
  simp [isCont]

@[simp] theorem secondOk3_iff {f b : Nat} : secondOk3 f b = true ↔
    f = 0xe0 ∧ 0xa0 ≤ b ∧ b ≤ 0xbf ∨ 0xe1 ≤ f ∧ f ≤ 0xec ∧ 0x80 ≤ b ∧ b ≤ 0xbf ∨
      f = 0xed ∧ 0x80 ≤ b ∧ b ≤ 0x9f ∨ 0xee ≤ f ∧ f ≤ 0xef ∧ 0x80 ≤ b ∧ b ≤ 0xbf := by
  simp [secondOk3, and_assoc, or_assoc]

@[simp] theorem secondOk4_iff {f b : Nat} : secondOk4 f b = true ↔
    f = 0xf0 ∧ 0x90 ≤ b ∧ b ≤ 0xbf ∨ 0xf1 ≤ f ∧ f ≤ 0xf3 ∧ 0x80 ≤ b ∧ b ≤ 0xbf ∨
      f = 0xf4 ∧ 0x80 ≤ b ∧ b ≤ 0x8f := by
  simp [secondOk4, and_assoc, or_assoc]

/-! ### The four classes of code points

Past one octet, the octets of a code point are its base-64 digits, the first marked with the width
and the others with `0x80`. -/

theorem octets_of_le_7f {v : Nat} (h : v ≤ 0x7f) : octets v = [v] := by
  simp [octets, leadOctet, contCount, contOctets, h]

theorem octets_digits2 {a b : Nat} (hb : b < 64) (h1 : 0x7f < a * 64 + b) (h2 : a * 64 + b ≤ 0x7ff) :
    octets (a * 64 + b) = [0xc0 + a, 0x80 + b] := by
  have hd : (a * 64 + b) / 64 = a := by omega
  have hm : (a * 64 + b) % 64 = b := by omega
  simp only [octets, leadOctet, contCount, contOctets, if_neg (Nat.not_le.mpr h1), if_pos h2,
    pow_zero, Nat.div_one, hd, hm]

theorem octets_digits3 {a b c : Nat} (hb : b < 64) (hc : c < 64) (h1 : 0x7ff < a * 4096 + b * 64 + c)
    (h2 : a * 4096 + b * 64 + c ≤ 0xffff) :
    octets (a * 4096 + b * 64 + c) = [0xe0 + a, 0x80 + b, 0x80 + c] := by
  have hd : (a * 4096 + b * 64 + c) / 4096 = a := by omega
  have hd1 : (a * 4096 + b * 64 + c) / 64 % 64 = b := by omega
  have hm : (a * 4096 + b * 64 + c) % 64 = c := by omega
  simp only [octets, leadOctet, contCount, contOctets,
    if_neg (show ¬ a * 4096 + b * 64 + c ≤ 0x7f by omega), if_neg (Nat.not_le.mpr h1), if_pos h2,
    pow_zero, pow_one, Nat.div_one, hd, hd1, hm]

theorem octets_digits4 {a b c d : Nat} (hb : b < 64) (hc : c < 64) (hd : d < 64)
    (h : 0xffff < a * 262144 + b * 4096 + c * 64 + d) :
    octets (a * 262144 + b * 4096 + c * 64 + d) = [0xf0 + a, 0x80 + b, 0x80 + c, 0x80 + d] := by
  have h0 : (a * 262144 + b * 4096 + c * 64 + d) / 262144 = a := by omega
  have h1 : (a * 262144 + b * 4096 + c * 64 + d) / 64 ^ 2 % 64 = b := by
    rw [show (64 : Nat) ^ 2 = 4096 from rfl]; omega
  have h2 : (a * 262144 + b * 4096 + c * 64 + d) / 64 % 64 = c := by omega
  have h3 : (a * 262144 + b * 4096 + c * 64 + d) % 64 = d := by omega
  simp only [octets, leadOctet, contCount, contOctets,
    if_neg (show ¬ a * 262144 + b * 4096 + c * 64 + d ≤ 0x7f by omega),
    if_neg (show ¬ a * 262144 + b * 4096 + c * 64 + d ≤ 0x7ff by omega), if_neg (Nat.not_le.mpr h),
    pow_zero, pow_one, Nat.div_one, h0, h1, h2, h3]

theorem toNat_charOfNat {v : Nat} (h : v.isValidChar) : (Char.ofNat v).toNat = v := by
  rw [Char.ofNat, dif_pos h]; rfl

theorem eq_map_ofNat_of_map_toNat (bs : Bytes) {l : List Nat} (h : bs.map UInt8.toNat = l) :
    bs = l.map UInt8.ofNat := by
  rw [← h, List.map_map]
  conv_lhs => rw [← List.map_id bs]
  exact List.map_congr_left fun b _ => (uint8_ofNat_eq (Nat.mod_eq_of_lt b.toNat_lt)).symm

/-- `String.utf8EncodeChar` of a valid code point, as bytes of the values `octets` gives. -/
theorem utf8EncodeChar_ofNat {v : Nat} (h : v.isValidChar) :
    String.utf8EncodeChar (Char.ofNat v) = (octets v).map UInt8.ofNat :=
  eq_map_ofNat_of_map_toNat _ (by rw [map_toNat_utf8EncodeChar]; exact congrArg octets (toNat_charOfNat h))

/-! ### One sequence -/

theorem exists_digits3 (v : Nat) : ∃ a b c, b < 64 ∧ c < 64 ∧ v = a * 4096 + b * 64 + c :=
  ⟨v / 4096, v / 64 % 64, v % 64, Nat.mod_lt _ (by decide), Nat.mod_lt _ (by decide), by omega⟩

theorem exists_digits4 (v : Nat) :
    ∃ a b c d, b < 64 ∧ c < 64 ∧ d < 64 ∧ v = a * 262144 + b * 4096 + c * 64 + d :=
  ⟨v / 262144, v / 4096 % 64, v / 64 % 64, v % 64, Nat.mod_lt _ (by decide),
    Nat.mod_lt _ (by decide), Nat.mod_lt _ (by decide), by omega⟩

theorem decodeChar_digits2 {a b : Nat} (hb : b < 64) (h1 : 0x7f < a * 64 + b)
    (h2 : a * 64 + b ≤ 0x7ff) (rest : Bytes) :
    decodeChar ([0xc0 + a, 0x80 + b].map UInt8.ofNat ++ rest) =
      some (Char.ofNat (a * 64 + b), rest) := by
  unfold decodeChar
  dsimp only [List.map, List.cons_append, List.nil_append]
  rw [UInt8.toNat_ofNat_of_lt (by omega : 0xc0 + a < 256),
    (utf8CharWidth_spec (0xc0 + a)).2.1.mpr (by omega)]
  dsimp only
  rw [UInt8.toNat_ofNat_of_lt (by omega : 0x80 + b < 256), if_pos (isCont_iff.mpr (by omega)),
    Nat.add_sub_cancel_left, Nat.add_sub_cancel_left]

theorem decodeChar_digits3 {a b c : Nat} (hb : b < 64) (hc : c < 64)
    (h1 : 0x7ff < a * 4096 + b * 64 + c) (h2 : a * 4096 + b * 64 + c ≤ 0xffff)
    (hv : (a * 4096 + b * 64 + c).isValidChar) (rest : Bytes) :
    decodeChar ([0xe0 + a, 0x80 + b, 0x80 + c].map UInt8.ofNat ++ rest) =
      some (Char.ofNat (a * 4096 + b * 64 + c), rest) := by
  have hck : (secondOk3 (0xe0 + a) (0x80 + b) && isCont (0x80 + c)) = true := by
    simp only [Bool.and_eq_true, secondOk3_iff, isCont_iff]; omega
  clear hv
  unfold decodeChar
  dsimp only [List.map, List.cons_append, List.nil_append]
  rw [UInt8.toNat_ofNat_of_lt (by omega : 0xe0 + a < 256),
    (utf8CharWidth_spec (0xe0 + a)).2.2.1.mpr (by omega)]
  dsimp only
  rw [UInt8.toNat_ofNat_of_lt (by omega : 0x80 + b < 256), UInt8.toNat_ofNat_of_lt (by omega : 0x80 + c < 256),
    if_pos hck]
  simp only [Nat.add_sub_cancel_left]

theorem decodeChar_digits4 {a b c d : Nat} (hb : b < 64) (hc : c < 64) (hd : d < 64)
    (h : 0xffff < a * 262144 + b * 4096 + c * 64 + d)
    (hv : (a * 262144 + b * 4096 + c * 64 + d).isValidChar) (rest : Bytes) :
    decodeChar ([0xf0 + a, 0x80 + b, 0x80 + c, 0x80 + d].map UInt8.ofNat ++ rest) =
      some (Char.ofNat (a * 262144 + b * 4096 + c * 64 + d), rest) := by
  have ha : a < 5 := by omega
  have hck : (secondOk4 (0xf0 + a) (0x80 + b) && isCont (0x80 + c) && isCont (0x80 + d)) = true := by
    simp only [Bool.and_eq_true, secondOk4_iff, isCont_iff]; omega
  clear hv
  unfold decodeChar
  dsimp only [List.map, List.cons_append, List.nil_append]
  rw [UInt8.toNat_ofNat_of_lt (by omega : 0xf0 + a < 256),
    (utf8CharWidth_spec (0xf0 + a)).2.2.2.mpr (by omega)]
  dsimp only
  rw [UInt8.toNat_ofNat_of_lt (by omega : 0x80 + b < 256), UInt8.toNat_ofNat_of_lt (by omega : 0x80 + c < 256),
    UInt8.toNat_ofNat_of_lt (by omega : 0x80 + d < 256), if_pos hck]
  simp only [Nat.add_sub_cancel_left]

/-- The octets of a valid code point pass the checks and decode to it. -/
theorem decodeChar_octets {v : Nat} (hv : v.isValidChar) (rest : Bytes) :
    decodeChar ((octets v).map UInt8.ofNat ++ rest) = some (Char.ofNat v, rest) := by
  obtain h | h | h | h : v ≤ 0x7f ∨ (0x7f < v ∧ v ≤ 0x7ff) ∨ (0x7ff < v ∧ v ≤ 0xffff) ∨ 0xffff < v :=
    by omega
  · rw [octets_of_le_7f h]
    unfold decodeChar
    dsimp only [List.map, List.cons_append, List.nil_append]
    rw [UInt8.toNat_ofNat_of_lt (by omega : v < 256), (utf8CharWidth_spec v).1.mpr (by omega)]
  · obtain ⟨a, b, hb, rfl⟩ : ∃ a b, b < 64 ∧ v = a * 64 + b :=
      ⟨v / 64, v % 64, Nat.mod_lt _ (by decide), (Nat.div_add_mod' v 64).symm⟩
    rw [octets_digits2 hb h.1 h.2, decodeChar_digits2 hb h.1 h.2]
  · obtain ⟨a, b, c, hb, hc, rfl⟩ := exists_digits3 v
    rw [octets_digits3 hb hc h.1 h.2, decodeChar_digits3 hb hc h.1 h.2 hv]
  · obtain ⟨a, b, c, d, hb, hc, hd, rfl⟩ := exists_digits4 v
    rw [octets_digits4 hb hc hd h, decodeChar_digits4 hb hc hd h hv]

theorem decodeChar_utf8EncodeChar (c : Char) (rest : Bytes) :
    decodeChar (String.utf8EncodeChar c ++ rest) = some (c, rest) := by
  have hv : c.toNat.isValidChar := c.valid
  rw [← Char.ofNat_toNat c, utf8EncodeChar_ofNat hv]
  exact decodeChar_octets hv rest

/-! Each width: the bytes that pass its checks are the octets of the valid code point they decode
to. -/

theorem octets_width1 {b0 : UInt8} (hw : utf8CharWidth b0.toNat = 1) :
    b0.toNat.isValidChar ∧ [b0] = (octets b0.toNat).map UInt8.ofNat := by
  have h0 := (utf8CharWidth_spec _).1.mp hw
  exact ⟨by omega, eq_map_ofNat_of_map_toNat [b0] (octets_of_le_7f (by omega)).symm⟩

theorem octets_width2 {b0 b1 : UInt8} (hw : utf8CharWidth b0.toNat = 2)
    (hc : isCont b1.toNat = true) :
    ((b0.toNat - 0xc0) * 64 + (b1.toNat - 0x80)).isValidChar ∧
      [b0, b1] = (octets ((b0.toNat - 0xc0) * 64 + (b1.toNat - 0x80))).map UInt8.ofNat := by
  have h0 := (utf8CharWidth_spec _).2.1.mp hw
  simp only [isCont_iff] at hc
  refine ⟨by omega, eq_map_ofNat_of_map_toNat _ ?_⟩
  rw [octets_digits2 (by omega) (by omega) (by omega)]
  simp only [List.map, List.cons.injEq, and_true]
  constructor <;> omega

theorem octets_width3 {b0 b1 b2 : UInt8} (hw : utf8CharWidth b0.toNat = 3)
    (hc : (secondOk3 b0.toNat b1.toNat && isCont b2.toNat) = true) :
    ((b0.toNat - 0xe0) * 4096 + (b1.toNat - 0x80) * 64 + (b2.toNat - 0x80)).isValidChar ∧
      [b0, b1, b2] = (octets ((b0.toNat - 0xe0) * 4096 + (b1.toNat - 0x80) * 64 +
        (b2.toNat - 0x80))).map UInt8.ofNat := by
  have h0 := (utf8CharWidth_spec _).2.2.1.mp hw
  simp only [Bool.and_eq_true, secondOk3_iff, isCont_iff] at hc
  obtain ⟨hs, h2⟩ := hc
  have h1 : 0x80 ≤ b1.toNat ∧ b1.toNat ≤ 0xbf := by omega
  have hlo : 0x7ff < (b0.toNat - 0xe0) * 4096 + (b1.toNat - 0x80) * 64 + (b2.toNat - 0x80) := by
    omega
  refine ⟨by omega, eq_map_ofNat_of_map_toNat _ ?_⟩
  clear hs
  rw [octets_digits3 (by omega) (by omega) hlo (by omega)]
  simp only [List.map, List.cons.injEq, and_true]
  refine ⟨?_, ?_, ?_⟩ <;> omega

theorem octets_width4 {b0 b1 b2 b3 : UInt8} (hw : utf8CharWidth b0.toNat = 4)
    (hc : (secondOk4 b0.toNat b1.toNat && isCont b2.toNat && isCont b3.toNat) = true) :
    ((b0.toNat - 0xf0) * 262144 + (b1.toNat - 0x80) * 4096 + (b2.toNat - 0x80) * 64 +
        (b3.toNat - 0x80)).isValidChar ∧
      [b0, b1, b2, b3] = (octets ((b0.toNat - 0xf0) * 262144 + (b1.toNat - 0x80) * 4096 +
        (b2.toNat - 0x80) * 64 + (b3.toNat - 0x80))).map UInt8.ofNat := by
  have h0 := (utf8CharWidth_spec _).2.2.2.mp hw
  simp only [Bool.and_eq_true, secondOk4_iff, isCont_iff] at hc
  obtain ⟨⟨hs, h2⟩, h3⟩ := hc
  have h1 : 0x80 ≤ b1.toNat ∧ b1.toNat ≤ 0xbf := by omega
  have hlo : 0xffff < (b0.toNat - 0xf0) * 262144 + (b1.toNat - 0x80) * 4096 +
      (b2.toNat - 0x80) * 64 + (b3.toNat - 0x80) := by
    omega
  refine ⟨by omega, eq_map_ofNat_of_map_toNat _ ?_⟩
  clear hs
  rw [octets_digits4 (by omega) (by omega) (by omega) hlo]
  simp only [List.map, List.cons.injEq, and_true]
  refine ⟨?_, ?_, ?_, ?_⟩ <;> omega

/-- What a sequence is accepted as: the octets of a valid code point, then the rest. -/
theorem eq_octets_of_decodeChar {b rest : Bytes} {c : Char} (h : decodeChar b = some (c, rest)) :
    ∃ v, v.isValidChar ∧ c = Char.ofNat v ∧ b = (octets v).map UInt8.ofNat ++ rest := by
  match b, h with
  | b0 :: r, h =>
    unfold decodeChar at h
    dsimp only at h
    split at h
    next hw =>
      obtain ⟨rfl, rfl⟩ := Prod.mk.inj (Option.some.inj h)
      exact ⟨_, (octets_width1 hw).1, rfl, congrArg (· ++ _) (octets_width1 hw).2⟩
    next hw =>
      split_ifs at h with hc
      obtain ⟨rfl, rfl⟩ := Prod.mk.inj (Option.some.inj h)
      exact ⟨_, (octets_width2 hw hc).1, rfl, congrArg (· ++ _) (octets_width2 hw hc).2⟩
    next hw =>
      split_ifs at h with hc
      obtain ⟨rfl, rfl⟩ := Prod.mk.inj (Option.some.inj h)
      exact ⟨_, (octets_width3 hw hc).1, rfl, congrArg (· ++ _) (octets_width3 hw hc).2⟩
    next hw =>
      split_ifs at h with hc
      obtain ⟨rfl, rfl⟩ := Prod.mk.inj (Option.some.inj h)
      exact ⟨_, (octets_width4 hw hc).1, rfl, congrArg (· ++ _) (octets_width4 hw hc).2⟩
    next => cases h

/-- **One sequence.** The validation accepts a sequence as `c` exactly when it is the UTF-8 encoding
of `c`. -/
theorem decodeChar_eq_some_iff {b rest : Bytes} {c : Char} :
    decodeChar b = some (c, rest) ↔ b = String.utf8EncodeChar c ++ rest := by
  refine ⟨fun h => ?_, fun h => h ▸ decodeChar_utf8EncodeChar c rest⟩
  obtain ⟨v, hv, rfl, rfl⟩ := eq_octets_of_decodeChar h
  rw [utf8EncodeChar_ofNat hv]

theorem length_lt_of_decodeChar {b rest : Bytes} {c : Char} (h : decodeChar b = some (c, rest)) :
    rest.length < b.length := by
  rw [decodeChar_eq_some_iff.mp h, List.length_append, String.length_utf8EncodeChar]
  have := c.utf8Size_pos
  omega

/-! ### Whole strings -/

/-- The characters of the sequences up to the end of the bytes, or `none` at the first sequence
the validation rejects. -/
def decodeChars : Bytes → Option (List Char)
  | [] => some []
  | b0 :: r =>
    match h : decodeChar (b0 :: r) with
    | none => none
    | some (c, rest) =>
      have := length_lt_of_decodeChar h
      (decodeChars rest).map (c :: ·)
termination_by b => b.length

/-- `String::from_utf8`. -/
def fromUtf8 (b : Bytes) : Option String := (decodeChars b).map String.mk

theorem decodeChars_of_decodeChar {b rest : Bytes} {c : Char} (h : decodeChar b = some (c, rest)) :
    decodeChars b = (decodeChars rest).map (c :: ·) := by
  match b, h with
  | _ :: _, h => rw [decodeChars]; split <;> simp_all

theorem decodeChars_flatMap : ∀ cs : List Char,
    decodeChars (cs.flatMap String.utf8EncodeChar) = some cs
  | [] => by rw [List.flatMap_nil, decodeChars]
  | c :: cs => by
    rw [List.flatMap_cons, decodeChars_of_decodeChar (decodeChar_utf8EncodeChar c _),
      decodeChars_flatMap cs]
    rfl

theorem eq_flatMap_of_decodeChars {b : Bytes} {cs : List Char} (h : decodeChars b = some cs) :
    b = cs.flatMap String.utf8EncodeChar := by
  induction b using decodeChars.induct generalizing cs with
  | case1 => rw [decodeChars] at h; cases h; rfl
  | case2 b0 r hn => rw [decodeChars] at h; split at h <;> simp_all
  | case3 b0 r c rest hc _ ih =>
    rw [decodeChars_of_decodeChar hc, Option.map_eq_some'] at h
    obtain ⟨cs, hcs, rfl⟩ := h
    rw [decodeChar_eq_some_iff.mp hc, ih hcs, List.flatMap_cons]

theorem fromUtf8_asBytes (s : String) : fromUtf8 (asBytes s) = some s := by
  rw [fromUtf8, asBytes_eq, decodeChars_flatMap]
  rfl

theorem eq_asBytes_of_fromUtf8 {b : Bytes} {s : String} (h : fromUtf8 b = some s) : b = asBytes s := by
  obtain ⟨cs, hcs, rfl⟩ := Option.map_eq_some'.mp h
  rw [asBytes_eq]
  exact eq_flatMap_of_decodeChars hcs

/-- **`String::from_utf8` accepts exactly UTF-8.** The bytes are accepted as `s` exactly when they
are `s.as_bytes()`. -/
theorem fromUtf8_eq_some_iff {b : Bytes} {s : String} : fromUtf8 b = some s ↔ b = asBytes s :=
  ⟨eq_asBytes_of_fromUtf8, fun h => h ▸ fromUtf8_asBytes s⟩

end KeyringStore.FromUtf8
