import KeyringStore.Redb

/-! # Frames

A frame is a 4-byte big-endian length followed by that many payload bytes. `writeFrame` is
`write_frame` of `main.rs`, as the bytes it appends to the output; the writer is a byte sink that
does not fail. `readFrame` is `read_frame` on an input stream given as the bytes not yet read: it
returns `none` when `read_exact` cannot fill the length prefix, and an error when it cannot fill
the body. `readFrames` calls it until it returns `none` or fails, as the main loop does.

* `readFrames_eq_ok_iff`: the reads return the payloads `ps` and then `Ok(None)` exactly on the
  frames of `ps` followed by fewer than 4 bytes, so payloads shorter than `2^32` bytes are read
  back in order;
* `writeFrame_of_length_four_gib`: `as u32` wraps the length of a 4 GiB payload to `0`;
* `readFrames_two_bytes`: a stream of 2 bytes ends the reads as cleanly as an empty one. -/

namespace KeyringStore.Framing

open KeyringStore.Redb

/-- `u32::to_be_bytes`, for the value `n` of a `u32`. -/
def toBeBytes (n : Nat) : Bytes :=
  [UInt8.ofNat (n / 2 ^ 24), UInt8.ofNat (n / 2 ^ 16), UInt8.ofNat (n / 2 ^ 8), UInt8.ofNat n]

/-- `u32::from_be_bytes`. -/
def fromBeBytes (b0 b1 b2 b3 : UInt8) : Nat :=
  b0.toNat * 2 ^ 24 + b1.toNat * 2 ^ 16 + b2.toNat * 2 ^ 8 + b3.toNat

/-- `write_frame`: the payload length cast to `u32` (`data.len() as u32`) in big-endian order,
then the payload. -/
def writeFrame (data : Bytes) : Bytes := toBeBytes (data.length % 2 ^ 32) ++ data

/-- `read_frame` on the unread input `s`: the payload and the input after it, `none` when the
length prefix cannot be read. -/
def readFrame : Bytes → Except String (Option (Bytes × Bytes))
  | b0 :: b1 :: b2 :: b3 :: rest =>
    if fromBeBytes b0 b1 b2 b3 ≤ rest.length then
      .ok (some (rest.take (fromBeBytes b0 b1 b2 b3), rest.drop (fromBeBytes b0 b1 b2 b3)))
    else .error "reading frame body"
  | _ => .ok none

theorem length_lt_of_readFrame : ∀ {s p rest : Bytes},
    readFrame s = .ok (some (p, rest)) → rest.length < s.length
  | _ :: _ :: _ :: _ :: r, p, rest, h => by
    simp only [readFrame] at h
    split_ifs at h
    cases h
    simp; omega
  | [], _, _, h | [_], _, _, h | [_, _], _, _, h | [_, _, _], _, _, h => by simp [readFrame] at h

/-- The main loop's reads: the payloads read before the first `Ok(None)`, or the first error. -/
def readFrames (s : Bytes) : Except String (List Bytes) :=
  match h : readFrame s with
  | .ok none => .ok []
  | .ok (some (p, rest)) =>
    have := length_lt_of_readFrame h
    (readFrames rest).map (p :: ·)
  | .error e => .error e
termination_by s.length

theorem readFrames_of_none {s : Bytes} (h : readFrame s = .ok none) : readFrames s = .ok [] := by
  rw [readFrames]; split <;> simp_all

theorem readFrames_of_some {s p rest : Bytes} (h : readFrame s = .ok (some (p, rest))) :
    readFrames s = (readFrames rest).map (p :: ·) := by
  rw [readFrames]; split <;> simp_all

theorem readFrames_of_error {s : Bytes} {e : String} (h : readFrame s = .error e) :
    readFrames s = .error e := by
  rw [readFrames]; split <;> simp_all

/-! ### The length prefix -/

theorem fromBeBytes_lt (b0 b1 b2 b3 : UInt8) : fromBeBytes b0 b1 b2 b3 < 2 ^ 32 := by
  have := b0.toNat_lt; have := b1.toNat_lt; have := b2.toNat_lt; have := b3.toNat_lt
  unfold fromBeBytes; omega

theorem fromBeBytes_toBeBytes (n : Nat) :
    fromBeBytes (UInt8.ofNat (n / 2 ^ 24)) (UInt8.ofNat (n / 2 ^ 16)) (UInt8.ofNat (n / 2 ^ 8))
      (UInt8.ofNat n) = n % 2 ^ 32 := by
  simp only [fromBeBytes, uint8_toNat_ofNat]; omega

theorem toBeBytes_fromBeBytes (b0 b1 b2 b3 : UInt8) :
    toBeBytes (fromBeBytes b0 b1 b2 b3) = [b0, b1, b2, b3] := by
  have := b0.toNat_lt; have := b1.toNat_lt; have := b2.toNat_lt; have := b3.toNat_lt
  simp only [toBeBytes, fromBeBytes, List.cons.injEq, and_true]
  refine ⟨uint8_ofNat_eq ?_, uint8_ofNat_eq ?_, uint8_ofNat_eq ?_, uint8_ofNat_eq ?_⟩ <;> omega

/-! ### Reading frames back -/

theorem readFrame_writeFrame {p : Bytes} (rest : Bytes) (hp : p.length < 2 ^ 32) :
    readFrame (writeFrame p ++ rest) = .ok (some (p, rest)) := by
  simp only [writeFrame, toBeBytes, List.cons_append, List.nil_append, readFrame,
    fromBeBytes_toBeBytes, Nat.mod_mod, Nat.mod_eq_of_lt hp]
  simp

theorem readFrame_eq_none {s : Bytes} : readFrame s = .ok none ↔ s.length < 4 := by
  match s with
  | [] | [_] | [_, _] | [_, _, _] => simp [readFrame]
  | _ :: _ :: _ :: _ :: _ => simp only [readFrame]; split_ifs <;> simp

theorem readFrame_eq_some {s p rest : Bytes} (h : readFrame s = .ok (some (p, rest))) :
    p.length < 2 ^ 32 ∧ s = writeFrame p ++ rest := by
  match s, h with
  | b0 :: b1 :: b2 :: b3 :: r, h =>
    simp only [readFrame] at h
    split_ifs at h with hle
    cases h
    have hlt := fromBeBytes_lt b0 b1 b2 b3
    refine ⟨by simp; omega, ?_⟩
    rw [writeFrame, List.length_take, min_eq_left hle, Nat.mod_eq_of_lt hlt, toBeBytes_fromBeBytes,
      List.append_assoc, List.take_append_drop]
    rfl

theorem readFrames_writeFrames :
    ∀ ps : List Bytes, (∀ p ∈ ps, p.length < 2 ^ 32) → ∀ t : Bytes, t.length < 4 →
      readFrames ((ps.map writeFrame).flatten ++ t) = .ok ps
  | [], _, _, ht => readFrames_of_none (readFrame_eq_none.mpr ht)
  | p :: ps, h, t, ht => by
    rw [List.map_cons, List.flatten_cons, List.append_assoc,
      readFrames_of_some (readFrame_writeFrame _ (h p (List.mem_cons_self p ps))),
      readFrames_writeFrames ps (fun q hq => h q (List.mem_cons_of_mem p hq)) t ht]
    rfl

/-- **What the reader accepts.** The reads end with `Ok(None)` after the payloads `ps` exactly
when the stream is the frames of `ps` followed by fewer than 4 bytes. -/
theorem readFrames_eq_ok_iff {s : Bytes} {ps : List Bytes} :
    readFrames s = .ok ps ↔
      (∀ p ∈ ps, p.length < 2 ^ 32) ∧ ∃ t : Bytes, t.length < 4 ∧ s = (ps.map writeFrame).flatten ++ t := by
  refine ⟨fun h => ?_, fun ⟨hps, t, ht, hs⟩ => hs ▸ readFrames_writeFrames ps hps t ht⟩
  induction s using readFrames.induct generalizing ps with
  | case1 s hn =>
    rw [readFrames_of_none hn] at h
    cases h
    exact ⟨by simp, s, readFrame_eq_none.mp hn, rfl⟩
  | case2 s p rest hs _ ih =>
    rw [readFrames_of_some hs] at h
    obtain ⟨hp, rfl⟩ := readFrame_eq_some hs
    cases hr : readFrames rest with
    | error e => simp [hr, Except.map] at h
    | ok qs =>
      simp only [hr, Except.map, Except.ok.injEq] at h
      subst h
      obtain ⟨hqs, t, ht, rfl⟩ := ih hr
      exact ⟨List.forall_mem_cons.mpr ⟨hp, hqs⟩, t, ht, by simp⟩
  | case3 s e he => simp [readFrames_of_error he] at h

/-! ### Where the two ends disagree -/

theorem writeFrame_of_length_wraps {z : Bytes} (hz : z.length % 2 ^ 32 = 0) :
    writeFrame z = [0, 0, 0, 0] ++ z := by
  rw [writeFrame, hz]; rfl

theorem readFrames_zero_prefix {z : Bytes} (hz : z ≠ []) : readFrames ([0, 0, 0, 0] ++ z) ≠ .ok [z] := by
  have hr : readFrame ([0, 0, 0, 0] ++ z) = .ok (some ([], z)) := by simp [readFrame, fromBeBytes]
  rw [readFrames_of_some hr]
  cases readFrames z <;> simp [Except.map, Ne.symm hz]

/-- A payload of `2^32` bytes is framed with the length `0`, so it is read back as an empty payload
followed by frames parsed from its own bytes. -/
theorem writeFrame_of_length_four_gib :
    writeFrame (List.replicate (2 ^ 32) 0) = [0, 0, 0, 0] ++ List.replicate (2 ^ 32) 0 ∧
      readFrames (writeFrame (List.replicate (2 ^ 32) 0)) ≠ .ok [List.replicate (2 ^ 32) 0] := by
  have hw : writeFrame (List.replicate (2 ^ 32) 0) = [0, 0, 0, 0] ++ List.replicate (2 ^ 32) 0 :=
    writeFrame_of_length_wraps (by rw [List.length_replicate, Nat.mod_self])
  exact ⟨hw, hw ▸ readFrames_zero_prefix (List.ne_nil_of_length_pos (by rw [List.length_replicate]; omega))⟩

/-- Two bytes, a stream that ends inside a length prefix, end the reads with `Ok(None)`, the clean
end of a session. -/
theorem readFrames_two_bytes : readFrame [0, 0] = .ok none ∧ readFrames [0, 0] = .ok [] :=
  ⟨rfl, readFrames_of_none rfl⟩

end KeyringStore.Framing
