import KeyringStore.Redb

/-! # The byte order of strings

Rust orders `String` and `&str` by their UTF-8 bytes, `str::as_bytes` (`asBytes`): `Vec::sort` on
strings and redb's `&str` keys both compare that way. Lean orders `String` by its characters, that
is by code points. The two orders agree: UTF-8 encodes a larger code point by octets that are larger
at the first place they differ, and no encoding is a prefix of another.

`octets` is the encoding of a code point as numbers: a leading octet, which grows with the code
point and fixes how many continuation octets follow, then one octet per base-64 digit below it.
`map_toNat_utf8EncodeChar` checks it against `String.utf8EncodeChar`, whose bit operations on
`UInt32` and `UInt8` are read as arithmetic on their values first.

* `octets_append_lt`: a smaller code point has smaller octets, whatever follows each;
* `lt_iff_asBytes_lt`: `a < b` on `String` iff `a.as_bytes() < b.as_bytes()`. -/

namespace KeyringStore.Utf8

open KeyringStore.Redb

/-! ### Octets as numbers -/

/-- How many continuation octets the code point `v` takes. -/
def contCount (v : Nat) : Nat :=
  if v ≤ 0x7f then 0 else if v ≤ 0x7ff then 1 else if v ≤ 0xffff then 2 else 3

/-- The leading octet of the code point `v`: the class marker and the bits above the continuation
octets. -/
def leadOctet (v : Nat) : Nat :=
  if v ≤ 0x7f then v else if v ≤ 0x7ff then 0xc0 + v / 64 else if v ≤ 0xffff then 0xe0 + v / 4096
  else 0xf0 + v / 262144

/-- The last `k` base-64 digits of `v`, most significant first, each marked `0b10xxxxxx`. -/
def contOctets (v : Nat) : Nat → List Nat
  | 0 => []
  | k + 1 => (0x80 + v / 64 ^ k % 64) :: contOctets v k

/-- The UTF-8 octets of the code point `v`. -/
def octets (v : Nat) : List Nat := leadOctet v :: contOctets v (contCount v)

theorem length_contOctets (v k : Nat) : (contOctets v k).length = k := by
  induction k <;> simp [contOctets, *]

/-- The four classes of code points: continuation count, leading octet, and the bits above the
continuation octets. -/
theorem leadOctet_cases {v : Nat} (hv : v < 0x110000) :
    (v ≤ 0x7f ∧ contCount v = 0 ∧ leadOctet v = v ∧ v / 64 ^ contCount v = v) ∨
    (0x7f < v ∧ v ≤ 0x7ff ∧ contCount v = 1 ∧ leadOctet v = 0xc0 + v / 64 ∧
      v / 64 ^ contCount v = v / 64) ∨
    (0x7ff < v ∧ v ≤ 0xffff ∧ contCount v = 2 ∧ leadOctet v = 0xe0 + v / 4096 ∧
      v / 64 ^ contCount v = v / 4096) ∨
    (0xffff < v ∧ contCount v = 3 ∧ leadOctet v = 0xf0 + v / 262144 ∧
      v / 64 ^ contCount v = v / 262144) := by
  unfold leadOctet contCount
  split_ifs with h1 h2 h3
  · exact .inl ⟨h1, rfl, rfl, by rw [pow_zero, Nat.div_one]⟩
  · exact .inr (.inl ⟨by omega, h2, rfl, rfl, rfl⟩)
  · exact .inr (.inr (.inl ⟨by omega, h3, rfl, rfl, rfl⟩))
  · exact .inr (.inr (.inr ⟨by omega, rfl, rfl, rfl⟩))

theorem leadOctet_le {v w : Nat} (h : v ≤ w) (hw : w < 0x110000) : leadOctet v ≤ leadOctet w := by
  rcases leadOctet_cases (show v < 0x110000 by omega) with hv | hv | hv | hv <;>
    rcases leadOctet_cases hw with hw' | hw' | hw' | hw' <;> omega

/-- One leading octet: one class, and the same bits above the continuation octets. -/
theorem eq_of_leadOctet_eq {v w : Nat} (h : leadOctet v = leadOctet w) (hv : v < 0x110000)
    (hw : w < 0x110000) : contCount v = contCount w ∧ v / 64 ^ contCount v = w / 64 ^ contCount w := by
  rcases leadOctet_cases hv with hv' | hv' | hv' | hv' <;>
    rcases leadOctet_cases hw with hw' | hw' | hw' | hw' <;> omega

theorem contOctets_lex {v w : Nat} (hvw : v < w) : ∀ k, v / 64 ^ k = w / 64 ^ k →
    List.Lex (· < ·) (contOctets v k) (contOctets w k)
  | 0, h => by simp at h; omega
  | k + 1, h => by
    have hle : v / 64 ^ k ≤ w / 64 ^ k := Nat.div_le_div_right hvw.le
    rw [pow_succ, ← Nat.div_div_eq_div_mul, ← Nat.div_div_eq_div_mul] at h
    rcases Nat.lt_or_ge (v / 64 ^ k % 64) (w / 64 ^ k % 64) with hd | hd
    · exact .rel (by simpa using hd)
    · have he : v / 64 ^ k = w / 64 ^ k := by omega
      rw [contOctets, contOctets, he]
      exact .cons (contOctets_lex hvw k he)

theorem lex_append_of_length_eq {α : Type} {r : α → α → Prop} {a b : List α} (h : List.Lex r a b)
    (hl : a.length = b.length) (x y : List α) : List.Lex r (a ++ x) (b ++ y) := by
  induction h with
  | nil => simp at hl
  | cons _ ih => exact .cons (ih (by simpa using hl))
  | rel h => exact .rel h

/-- **Octets are ordered as code points**, and the order is decided before either ends. -/
theorem octets_append_lt {v w : Nat} (hvw : v < w) (hw : w < 0x110000) (x y : List Nat) :
    List.Lex (· < ·) (octets v ++ x) (octets w ++ y) := by
  rcases (leadOctet_le hvw.le hw).lt_or_eq with h | h
  · exact .rel h
  · obtain ⟨hn, hd⟩ := eq_of_leadOctet_eq h (by omega) hw
    rw [hn] at hd
    rw [octets, octets, h, hn, List.cons_append, List.cons_append]
    exact .cons (lex_append_of_length_eq (contOctets_lex hvw _ hd)
      (by rw [length_contOctets, length_contOctets]) x y)

/-! ### `String.utf8EncodeChar` -/

theorem toNat_shiftRight (x n : UInt32) (hn : n.toNat < 32) :
    (x >>> n).toNat = x.toNat / 2 ^ n.toNat := by
  show (x.toBitVec >>> (n.toBitVec % (32 : UInt32).toBitVec).toNat).toNat = _
  rw [BitVec.toNat_ushiftRight, Nat.shiftRight_eq_div_pow, BitVec.toNat_umod]
  exact congrArg (x.toNat / 2 ^ ·) (Nat.mod_eq_of_lt hn)

theorem toNat_toUInt8 (x : UInt32) : x.toUInt8.toNat = x.toNat % 2 ^ 8 := by
  simp [UInt32.toUInt8, Nat.toUInt8, UInt8.ofNat, UInt8.toNat]

/-- An octet made of a marker `b` and the low `k` bits of `x`. -/
theorem toNat_byte (x : UInt32) (k t : Nat) {m b : UInt8} (hk : k ≤ 8) (hm : m.toNat = 2 ^ k - 1)
    (hb : b.toNat = 2 ^ k * t) : (x.toUInt8 &&& m ||| b).toNat = 2 ^ k * t + x.toNat % 2 ^ k := by
  rw [show (x.toUInt8 &&& m ||| b).toNat = (x.toUInt8 &&& m).toNat ||| b.toNat from
      BitVec.toNat_or .., UInt8.and_toNat, toNat_toUInt8, hm, Nat.and_pow_two_sub_one_eq_mod, hb,
    Nat.or_comm, ← Nat.mul_add_lt_is_or (Nat.mod_lt _ (Nat.two_pow_pos k)),
    Nat.mod_mod_of_dvd _ (Nat.pow_dvd_pow 2 hk)]

theorem toNat_lead2 (x : UInt32) : (x.toUInt8 &&& 0x1f ||| 0xc0).toNat = 0xc0 + x.toNat % 32 :=
  toNat_byte x 5 6 (by omega) rfl rfl

theorem toNat_lead3 (x : UInt32) : (x.toUInt8 &&& 0x0f ||| 0xe0).toNat = 0xe0 + x.toNat % 16 :=
  toNat_byte x 4 14 (by omega) rfl rfl

theorem toNat_lead4 (x : UInt32) : (x.toUInt8 &&& 0x07 ||| 0xf0).toNat = 0xf0 + x.toNat % 8 :=
  toNat_byte x 3 30 (by omega) rfl rfl

theorem toNat_cont (x : UInt32) : (x.toUInt8 &&& 0x3f ||| 0x80).toNat = 0x80 + x.toNat % 64 :=
  toNat_byte x 6 2 (by omega) rfl rfl

theorem toNat_lt_of_char (c : Char) : c.val.toNat < 0x110000 := by
  have := c.valid
  simp only [UInt32.isValidChar, Nat.isValidChar] at this
  omega

/-- `String.utf8EncodeChar` computes `octets`. -/
theorem map_toNat_utf8EncodeChar (c : Char) :
    (String.utf8EncodeChar c).map UInt8.toNat = octets c.val.toNat := by
  have hc := toNat_lt_of_char c
  have h6 : (c.val >>> 6).toNat = c.val.toNat / 64 := toNat_shiftRight c.val 6 (by decide)
  have h12 : (c.val >>> 12).toNat = c.val.toNat / 4096 := toNat_shiftRight c.val 12 (by decide)
  have h18 : (c.val >>> 18).toNat = c.val.toNat / 262144 := toNat_shiftRight c.val 18 (by decide)
  have e1 : c.val ≤ 0x7f ↔ c.val.toNat ≤ 0x7f := Iff.rfl
  have e2 : c.val ≤ 0x7ff ↔ c.val.toNat ≤ 0x7ff := Iff.rfl
  have e3 : c.val ≤ 0xffff ↔ c.val.toNat ≤ 0xffff := Iff.rfl
  simp only [String.utf8EncodeChar, octets, leadOctet, contCount, e1, e2, e3]
  split_ifs <;> simp [contOctets, toNat_lead2, toNat_lead3, toNat_lead4, toNat_cont, toNat_toUInt8,
    h6, h12, h18] <;> omega

/-! ### Strings -/

/-- `str::as_bytes`: the UTF-8 encoding. -/
def asBytes (s : String) : Bytes := s.toUTF8.data.toList

theorem asBytes_eq (s : String) : asBytes s = s.data.flatMap String.utf8EncodeChar := rfl

/-- A relation on lists read through an injective map. -/
theorem lex_of_lex_map {α β : Type} {f : α → β} (hf : Function.Injective f) {r : α → α → Prop}
    {s : β → β → Prop} (hrs : ∀ a b, s (f a) (f b) → r a b) {m m' : List β} (h : List.Lex s m m') :
    ∀ {l l' : List α}, m = l.map f → m' = l'.map f → List.Lex r l l' := by
  induction h with
  | nil =>
    intro l l' hl hl'
    obtain ⟨_, _, rfl, -, -⟩ := List.map_eq_cons_iff.mp hl'.symm
    rw [List.map_eq_nil_iff.mp hl.symm]; exact .nil
  | cons _ ih =>
    intro l l' hl hl'
    obtain ⟨x, l₁, rfl, hx, rfl⟩ := List.map_eq_cons_iff.mp hl.symm
    obtain ⟨y, l₂, rfl, hy, rfl⟩ := List.map_eq_cons_iff.mp hl'.symm
    rw [hf (hx.trans hy.symm)]; exact .cons (ih rfl rfl)
  | rel hab =>
    intro l l' hl hl'
    obtain ⟨x, l₁, rfl, rfl, -⟩ := List.map_eq_cons_iff.mp hl.symm
    obtain ⟨y, l₂, rfl, rfl, -⟩ := List.map_eq_cons_iff.mp hl'.symm
    exact .rel (hrs x y hab)

theorem utf8EncodeChar_append_lt {c d : Char} (h : c < d) (x y : Bytes) :
    String.utf8EncodeChar c ++ x < String.utf8EncodeChar d ++ y :=
  lex_of_lex_map (fun _ _ h => UInt8.toNat.inj h) (fun _ _ h => h)
    (octets_append_lt (show c.val.toNat < d.val.toNat from h) (toNat_lt_of_char d) (x.map UInt8.toNat)
      (y.map UInt8.toNat))
    (by rw [List.map_append, map_toNat_utf8EncodeChar])
    (by rw [List.map_append, map_toNat_utf8EncodeChar])

theorem flatMap_utf8EncodeChar_lt {l l' : List Char} (h : List.Lex (· < ·) l l') :
    l.flatMap String.utf8EncodeChar < l'.flatMap String.utf8EncodeChar := by
  induction h with
  | @nil d _ =>
    obtain ⟨b, r, hb⟩ := List.exists_cons_of_ne_nil (List.ne_nil_of_length_pos
      (by rw [String.length_utf8EncodeChar]; exact Char.utf8Size_pos d))
    rw [List.flatMap_cons, hb]; exact .nil
  | cons _ ih => exact List.Lex.append_left _ ih _
  | rel h => exact utf8EncodeChar_append_lt h _ _

/-- **Lean's order on strings is Rust's**: code-point order is the order of the UTF-8 bytes. -/
theorem lt_iff_asBytes_lt {a b : String} : a < b ↔ asBytes a < asBytes b := by
  have mono : ∀ {a b : String}, a < b → asBytes a < asBytes b := fun h =>
    flatMap_utf8EncodeChar_lt (String.lt_iff_toList_lt.mp h)
  refine ⟨mono, fun h => ?_⟩
  rcases lt_trichotomy a b with hab | rfl | hab
  · exact hab
  · exact absurd h (lt_irrefl _)
  · exact absurd (mono hab) (not_lt_of_lt h)

end KeyringStore.Utf8
