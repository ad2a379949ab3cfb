import KeyringStore.FromUtf8

/-! # bincode

`bincode::serialize` and `bincode::deserialize` with the options these two functions use: integers
in fixed width and little-endian order, a `u64` length before every sequence and string, a `u32`
variant index before the fields of an enum variant, `bool` as one byte `0` or `1`, and structs and
tuples as their fields in order with nothing between them. A decoder reads a value from the front
of its input and returns the bytes after it; `bincode::deserialize` drops those (trailing bytes are
allowed).

A `Codec` is the `Serialize` and `Deserialize` of one type together with the two laws that make the
format exact: the decoder reads back what the encoder wrote, whatever follows it (`decode_encode`,
for encodings shorter than `2^64` bytes, so that every length fits its `u64`), and it accepts
nothing else (`encode_decode`). The codecs of fields, pairs, sequences and structs get their laws
from those of their parts.

* `Codec.deserialize_eq_some_iff`: `bincode::deserialize` returns `x` exactly on the encoding of `x`
  followed by any bytes. -/

namespace KeyringStore.Bincode

open KeyringStore.Redb KeyringStore.Utf8 KeyringStore.FromUtf8

/-! ### Fixed-width integers -/

/-- The `k` little-endian bytes of `n`, which keep `n` modulo `256 ^ k`. -/
def leBytes : Nat → Nat → Bytes
  | 0, _ => []
  | k + 1, n => UInt8.ofNat n :: leBytes k (n / 256)

/-- The value of little-endian bytes. -/
def ofLeBytes : Bytes → Nat
  | [] => 0
  | b :: bs => b.toNat + 256 * ofLeBytes bs

@[simp] theorem length_leBytes : ∀ k n, (leBytes k n).length = k
  | 0, _ => rfl
  | k + 1, n => by rw [leBytes, List.length_cons, length_leBytes k]

theorem ofLeBytes_leBytes : ∀ k n, ofLeBytes (leBytes k n) = n % 256 ^ k
  | 0, n => by simp [leBytes, ofLeBytes, Nat.mod_one]
  | k + 1, n => by
    rw [leBytes, ofLeBytes, ofLeBytes_leBytes k, uint8_toNat_ofNat, pow_succ', Nat.mod_mul]

theorem ofLeBytes_lt : ∀ bs : Bytes, ofLeBytes bs < 256 ^ bs.length
  | [] => by simp [ofLeBytes]
  | b :: bs => by
    have := b.toNat_lt; have := ofLeBytes_lt bs
    rw [ofLeBytes, List.length_cons, pow_succ]
    omega

theorem leBytes_ofLeBytes : ∀ bs : Bytes, leBytes bs.length (ofLeBytes bs) = bs
  | [] => rfl
  | b :: bs => by
    have := b.toNat_lt
    rw [List.length_cons, leBytes, ofLeBytes,
      uint8_ofNat_eq (show (b.toNat + 256 * ofLeBytes bs) % 256 = b.toNat by omega),
      show (b.toNat + 256 * ofLeBytes bs) / 256 = ofLeBytes bs by omega, leBytes_ofLeBytes bs]

/-- `read_exact` of `k` bytes from a slice: the bytes and what follows them, `none` when fewer are
left. -/
def readBytes (k : Nat) (b : Bytes) : Option (Bytes × Bytes) :=
  if k ≤ b.length then some (b.take k, b.drop k) else none

theorem readBytes_append (a rest : Bytes) : readBytes a.length (a ++ rest) = some (a, rest) := by
  simp [readBytes]

theorem eq_of_readBytes {k : Nat} {b a rest : Bytes} (h : readBytes k b = some (a, rest)) :
    a.length = k ∧ b = a ++ rest := by
  unfold readBytes at h
  split_ifs at h with hk
  obtain ⟨rfl, rfl⟩ := Prod.mk.inj (Option.some.inj h)
  exact ⟨by simp [hk], (List.take_append_drop k b).symm⟩

/-- A `k`-byte little-endian unsigned integer: a `u32` for `k = 4`, a `u64` for `k = 8`. -/
def decodeUInt (k : Nat) (b : Bytes) : Option (Nat × Bytes) :=
  (readBytes k b).map fun p => (ofLeBytes p.1, p.2)

@[simp] theorem decodeUInt_leBytes (k n : Nat) (rest : Bytes) :
    decodeUInt k (leBytes k n ++ rest) = some (n % 256 ^ k, rest) := by
  have := readBytes_append (leBytes k n) rest
  rw [length_leBytes] at this
  rw [decodeUInt, this, Option.map_some', ofLeBytes_leBytes]

theorem eq_of_decodeUInt {k n : Nat} {b rest : Bytes} (h : decodeUInt k b = some (n, rest)) :
    n < 256 ^ k ∧ b = leBytes k n ++ rest := by
  obtain ⟨⟨a, rest'⟩, hr, he⟩ := Option.map_eq_some'.mp h
  obtain ⟨rfl, rfl⟩ := Prod.mk.inj he
  obtain ⟨rfl, rfl⟩ := eq_of_readBytes hr
  exact ⟨ofLeBytes_lt a, by rw [leBytes_ofLeBytes]⟩

theorem length_lt_of_append {a b : Bytes} {n : Nat} (h : (a ++ b).length < n) : b.length < n := by
  rw [List.length_append] at h; omega

theorem length_lt_of_append_left {a b : Bytes} {n : Nat} (h : (a ++ b).length < n) :
    a.length < n := by
  rw [List.length_append] at h; omega

/-! ### Codecs -/

/-- A bincode encoder and the decoder of the same type, with the laws that tie them. -/
structure Codec (α : Type) where
  encode : α → Bytes
  decode : Bytes → Option (α × Bytes)
  /-- The decoder reads back an encoding whose lengths fit a `u64`, whatever follows it. -/
  decode_encode : ∀ x rest, (encode x).length < 2 ^ 64 → decode (encode x ++ rest) = some (x, rest)
  /-- What the decoder accepts is an encoding, then the bytes it returns. -/
  encode_decode : ∀ {b x rest}, decode b = some (x, rest) → b = encode x ++ rest
  /-- Every encoding has a byte, so a sequence is no longer than its encoding. -/
  encode_ne_nil : ∀ x, encode x ≠ []

namespace Codec

variable {α β : Type}

/-- `bincode::deserialize`: the value at the front of the input; trailing bytes are allowed. -/
def deserialize (c : Codec α) (b : Bytes) : Option α := (c.decode b).map Prod.fst

/-- **What `deserialize` accepts.** `bincode::deserialize` returns `x` exactly on the encoding of
`x` followed by any bytes. -/
theorem deserialize_eq_some_iff (c : Codec α) {b : Bytes} {x : α} (h : (c.encode x).length < 2 ^ 64) :
    c.deserialize b = some x ↔ ∃ rest, b = c.encode x ++ rest := by
  constructor
  · intro hd
    obtain ⟨⟨y, rest⟩, hy, rfl⟩ := Option.map_eq_some'.mp hd
    exact ⟨rest, c.encode_decode hy⟩
  · rintro ⟨rest, rfl⟩
    rw [deserialize, c.decode_encode x rest h]
    rfl

/-- The fields of a variant, read with `c` and wrapped in the variant's constructor `k`. -/
def decodeAs (c : Codec α) (k : α → β) (b : Bytes) : Option (β × Bytes) :=
  (c.decode b).map fun p => (k p.1, p.2)

theorem decodeAs_encode (c : Codec α) (k : α → β) {x : α} (rest : Bytes)
    (h : (c.encode x).length < 2 ^ 64) : c.decodeAs k (c.encode x ++ rest) = some (k x, rest) := by
  rw [decodeAs, c.decode_encode x rest h]
  rfl

theorem eq_of_decodeAs {c : Codec α} {k : α → β} {b rest : Bytes} {y : β}
    (h : c.decodeAs k b = some (y, rest)) : ∃ x, y = k x ∧ b = c.encode x ++ rest := by
  obtain ⟨⟨x, rest'⟩, hx, he⟩ := Option.map_eq_some'.mp h
  obtain ⟨rfl, rfl⟩ := Prod.mk.inj he
  exact ⟨x, rfl, c.encode_decode hx⟩

/-! ### Primitive types -/

/-- `u64`, the `RefId`: eight little-endian bytes. -/
def u64 : Codec UInt64 where
  encode r := leBytes 8 r.toNat
  decode b := (decodeUInt 8 b).map fun p => (UInt64.ofNat p.1, p.2)
  decode_encode r rest _ := by
    dsimp only
    rw [decodeUInt_leBytes, Option.map_some', Nat.mod_eq_of_lt (show r.toNat < 256 ^ 8 from r.val.isLt)]
    exact congrArg (fun z => some (z, rest))
      (UInt64.eq_of_val_eq (Fin.ext (UInt64.toNat_ofNat_of_lt r.val.isLt)))
  encode_decode {b r rest} h := by
    obtain ⟨⟨n, rest'⟩, hn, he⟩ := Option.map_eq_some'.mp h
    obtain ⟨rfl, rfl⟩ := Prod.mk.inj he
    obtain ⟨hlt, rfl⟩ := eq_of_decodeUInt hn
    show _ = leBytes 8 (UInt64.ofNat n).toNat ++ _
    rw [UInt64.toNat_ofNat_of_lt hlt]
  encode_ne_nil _ := List.cons_ne_nil _ _

/-- `bool`: the byte `1` or `0`; `deserialize_bool` rejects any other byte. -/
def bool : Codec Bool where
  encode b := [if b then 1 else 0]
  decode
    | [] => none
    | b :: rest => if b = 1 then some (true, rest) else if b = 0 then some (false, rest) else none
  decode_encode b rest _ := by cases b <;> rfl
  encode_decode {b x rest} h := by
    match b, h with
    | [], h => cases h
    | b :: rest', h =>
      dsimp only at h
      split_ifs at h with h1 h0
      · obtain ⟨rfl, rfl⟩ := Prod.mk.inj (Option.some.inj h); rw [h1]; rfl
      · obtain ⟨rfl, rfl⟩ := Prod.mk.inj (Option.some.inj h); rw [h0]; rfl
  encode_ne_nil _ := List.cons_ne_nil _ _

/-- `Vec<u8>`: the length as a `u64`, then the bytes. -/
def bytes : Codec Bytes where
  encode b := leBytes 8 b.length ++ b
  decode b := match decodeUInt 8 b with
    | some (n, rest) => readBytes n rest
    | none => none
  decode_encode b rest h := by
    dsimp only
    rw [List.append_assoc, decodeUInt_leBytes,
      Nat.mod_eq_of_lt (show b.length < 256 ^ 8 from length_lt_of_append h)]
    exact readBytes_append b rest
  encode_decode {b x rest} h := by
    dsimp only at h
    split at h
    · rename_i n rest' hn
      obtain ⟨-, rfl⟩ := eq_of_decodeUInt hn
      obtain ⟨rfl, rfl⟩ := eq_of_readBytes h
      rw [List.append_assoc]
    · cases h
  encode_ne_nil _ h := by simpa [leBytes] using congrArg List.length h

/-- `String`: the UTF-8 bytes as a `Vec<u8>`; `deserialize_string` checks them with
`String::from_utf8`. -/
def string : Codec String where
  encode s := bytes.encode (asBytes s)
  decode b := match bytes.decode b with
    | some (v, rest) => (fromUtf8 v).map (·, rest)
    | none => none
  decode_encode s rest h := by
    dsimp only
    simp only [bytes.decode_encode _ rest h, fromUtf8_asBytes, Option.map_some']
  encode_decode {b s rest} h := by
    dsimp only at h
    split at h
    · rename_i v rest' hv
      obtain ⟨s', hs, he⟩ := Option.map_eq_some'.mp h
      obtain ⟨rfl, rfl⟩ := Prod.mk.inj he
      rw [bytes.encode_decode hv, eq_asBytes_of_fromUtf8 hs]
    · cases h
  encode_ne_nil s := bytes.encode_ne_nil _

/-! ### Tuples, sequences and structs -/

/-- A tuple `(A, B)`: the two values in a row. -/
def pair (ca : Codec α) (cb : Codec β) : Codec (α × β) where
  encode p := ca.encode p.1 ++ cb.encode p.2
  decode b := match ca.decode b with
    | some (x, rest) => (cb.decode rest).map fun q => ((x, q.1), q.2)
    | none => none
  decode_encode p rest h := by
    dsimp only
    rw [List.append_assoc, ca.decode_encode _ _ (length_lt_of_append_left h)]
    dsimp only
    rw [cb.decode_encode _ _ (length_lt_of_append h)]
    rfl
  encode_decode {b p rest} h := by
    dsimp only at h
    split at h
    · rename_i x rest' hx
      obtain ⟨⟨y, rest''⟩, hy, he⟩ := Option.map_eq_some'.mp h
      obtain ⟨rfl, rfl⟩ := Prod.mk.inj he
      rw [ca.encode_decode hx, cb.encode_decode hy, List.append_assoc]
    · cases h
  encode_ne_nil p h := ca.encode_ne_nil p.1 (List.append_eq_nil.mp h).1

/-- `n` values of `c` in a row. -/
def decodeElems (c : Codec α) : Nat → Bytes → Option (List α × Bytes)
  | 0, b => some ([], b)
  | n + 1, b => match c.decode b with
    | some (x, rest) => (c.decodeElems n rest).map fun q => (x :: q.1, q.2)
    | none => none

theorem decodeElems_flatMap (c : Codec α) (rest : Bytes) :
    ∀ xs : List α, (∀ x ∈ xs, (c.encode x).length < 2 ^ 64) →
      c.decodeElems xs.length (xs.flatMap c.encode ++ rest) = some (xs, rest)
  | [], _ => rfl
  | x :: xs, h => by
    rw [List.length_cons, List.flatMap_cons, List.append_assoc, decodeElems,
      c.decode_encode _ _ (h x (List.mem_cons_self x xs))]
    dsimp only
    rw [decodeElems_flatMap c rest xs fun y hy => h y (List.mem_cons_of_mem x hy)]
    rfl

theorem eq_of_decodeElems (c : Codec α) :
    ∀ {n : Nat} {b rest : Bytes} {xs : List α}, c.decodeElems n b = some (xs, rest) →
      xs.length = n ∧ b = xs.flatMap c.encode ++ rest
  | 0, b, rest, xs, h => by
    obtain ⟨rfl, rfl⟩ := Prod.mk.inj (Option.some.inj h)
    exact ⟨rfl, rfl⟩
  | n + 1, b, rest, xs, h => by
    rw [decodeElems] at h
    split at h
    · rename_i x rest' hx
      obtain ⟨⟨ys, rest''⟩, hy, he⟩ := Option.map_eq_some'.mp h
      obtain ⟨rfl, rfl⟩ := Prod.mk.inj he
      obtain ⟨hl, rfl⟩ := eq_of_decodeElems c hy
      rw [c.encode_decode hx]
      exact ⟨by rw [List.length_cons, hl], by rw [List.flatMap_cons, List.append_assoc]⟩
    · cases h

theorem length_le_length_flatMap (c : Codec α) : ∀ xs : List α, xs.length ≤ (xs.flatMap c.encode).length
  | [] => le_rfl
  | x :: xs => by
    have := List.length_pos.mpr (c.encode_ne_nil x)
    have := length_le_length_flatMap c xs
    rw [List.flatMap_cons, List.length_append, List.length_cons]
    omega

/-- `Vec<T>`: the number of elements as a `u64`, then the elements. -/
def seq (c : Codec α) : Codec (List α) where
  encode xs := leBytes 8 xs.length ++ xs.flatMap c.encode
  decode b := match decodeUInt 8 b with
    | some (n, rest) => c.decodeElems n rest
    | none => none
  decode_encode xs rest h := by
    dsimp only
    have hl := length_lt_of_append h
    rw [List.append_assoc, decodeUInt_leBytes,
      Nat.mod_eq_of_lt (show xs.length < 256 ^ 8 from lt_of_le_of_lt (c.length_le_length_flatMap xs) hl)]
    exact c.decodeElems_flatMap rest xs fun x hx =>
      lt_of_le_of_lt (List.sublist_flatten_of_mem (List.mem_map_of_mem c.encode hx)).length_le hl
  encode_decode {b xs rest} h := by
    dsimp only at h
    split at h
    · rename_i n rest' hn
      obtain ⟨-, rfl⟩ := eq_of_decodeUInt hn
      obtain ⟨rfl, rfl⟩ := c.eq_of_decodeElems h
      rw [List.append_assoc]
    · cases h
  encode_ne_nil _ h := by simpa [leBytes] using congrArg List.length h

/-- A struct, serialized as the tuple of its fields: the codec `c` of the tuple carried over the
bijection `f`, `g` between tuples and structs. -/
def map (c : Codec α) (f : α → β) (g : β → α) (hgf : ∀ x, g (f x) = x) (hfg : ∀ y, f (g y) = y) :
    Codec β where
  encode y := c.encode (g y)
  decode b := (c.decode b).map fun p => (f p.1, p.2)
  decode_encode y rest h := by
    dsimp only
    rw [c.decode_encode _ rest h]
    exact congrArg (fun z => some (z, rest)) (hfg y)
  encode_decode {b y rest} h := by
    obtain ⟨⟨x, rest'⟩, hx, he⟩ := Option.map_eq_some'.mp h
    obtain ⟨rfl, rfl⟩ := Prod.mk.inj he
    show b = c.encode (g (f x)) ++ rest'
    rw [hgf, c.encode_decode hx]
  encode_ne_nil y := c.encode_ne_nil (g y)

end Codec

end KeyringStore.Bincode
