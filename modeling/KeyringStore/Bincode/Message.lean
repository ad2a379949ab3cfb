import KeyringStore.Bincode.Codec
import KeyringStore.Protocol

/-! # The payloads of the port

The `Serialize` and `Deserialize` derives of `protocol.rs` under bincode. A struct is its fields in
declaration order (`Root`: `doc_id`, `hash`; `Change`: `doc_id`, `data`, `hash`). An enum value is
the index of its variant in declaration order as a `u32`, then the variant's fields in order; the
derived `Deserialize` rejects an index past the last variant. The payload of a frame is the pair
`(ref_id, value)`: `main` decodes request frames with `bincode::deserialize` and encodes replies
with `bincode::serialize(&(ref_id, &response))`.

* `decodeRequest_encodeRequest`, `eq_of_decodeRequest`, and the same for responses: the laws of
  `Codec.request` and `Codec.response`, one case per variant;
* `payload_codec_exact`: a request frame decodes to `(ref_id, request)` exactly when it is the
  encoding of that pair followed by any bytes, and so does a reply frame. -/

namespace KeyringStore.Bincode

open KeyringStore.Redb KeyringStore.Protocol

namespace Codec

/-- `Root`: `doc_id`, then `hash`. -/
def root : Codec Root :=
  (string.pair bytes).map (fun p => ⟨p.1, p.2⟩) (fun r => (r.docId, r.hash)) (fun _ => rfl)
    (fun _ => rfl)

/-- `Change`: `doc_id`, `data`, then `hash`. -/
def change : Codec Change :=
  (string.pair (bytes.pair bytes)).map (fun p => ⟨p.1, p.2.1, p.2.2⟩)
    (fun c => (c.docId, c.data, c.hash)) (fun _ => rfl) (fun _ => rfl)

end Codec

section Messages

open Codec

/-! ### Requests -/

/-- The `Serialize` derive of `Request`: the variant index as a `u32`, then the fields. -/
def encodeRequest : Request → Bytes
  | .putBlob data => leBytes 4 0 ++ bytes.encode data
  | .getBlob hash => leBytes 4 1 ++ bytes.encode hash
  | .hasBlob hash => leBytes 4 2 ++ bytes.encode hash
  | .putDocument id meta crdtState =>
    leBytes 4 3 ++ (string.pair (bytes.pair bytes)).encode (id, meta, crdtState)
  | .getDocument id => leBytes 4 4 ++ string.encode id
  | .deleteDocument id => leBytes 4 5 ++ string.encode id
  | .listDocuments => leBytes 4 6
  | .getRoots docIds => leBytes 4 7 ++ (seq string).encode docIds
  | .getChanges knownRoots => leBytes 4 8 ++ (seq bytes).encode knownRoots
  | .applyChanges changes => leBytes 4 9 ++ (seq change).encode changes

/-- The `Deserialize` derive of `Request`: the variant index, then the fields of that variant; an
index past the last variant is an error. -/
def decodeRequest (b : Bytes) : Option (Request × Bytes) :=
  match decodeUInt 4 b with
  | none => none
  | some (index, b) =>
    match index with
    | 0 => bytes.decodeAs .putBlob b
    | 1 => bytes.decodeAs .getBlob b
    | 2 => bytes.decodeAs .hasBlob b
    | 3 => (string.pair (bytes.pair bytes)).decodeAs (fun p => .putDocument p.1 p.2.1 p.2.2) b
    | 4 => string.decodeAs .getDocument b
    | 5 => string.decodeAs .deleteDocument b
    | 6 => some (.listDocuments, b)
    | 7 => (seq string).decodeAs .getRoots b
    | 8 => (seq bytes).decodeAs .getChanges b
    | 9 => (seq change).decodeAs .applyChanges b
    | _ => none

theorem decodeRequest_encodeRequest (q : Request) (rest : Bytes)
    (h : (encodeRequest q).length < 2 ^ 64) : decodeRequest (encodeRequest q ++ rest) = some (q, rest) := by
  cases q <;> simp only [encodeRequest, List.append_assoc, decodeRequest, decodeUInt_leBytes] at h ⊢
  all_goals exact decodeAs_encode _ _ _ (length_lt_of_append h)

theorem eq_of_decodeRequest {b rest : Bytes} {q : Request} (h : decodeRequest b = some (q, rest)) :
    b = encodeRequest q ++ rest := by
  unfold decodeRequest at h
  split at h
  · cases h
  · rename_i index b' hi
    obtain ⟨-, rfl⟩ := eq_of_decodeUInt hi
    split at h
    all_goals first
      | cases h; done
      | obtain ⟨rfl, rfl⟩ := Prod.mk.inj (Option.some.inj h); rfl
      | obtain ⟨x, rfl, rfl⟩ := eq_of_decodeAs h; rw [encodeRequest, List.append_assoc]

/-! ### Responses -/

/-- The `Serialize` derive of `Response`. -/
def encodeResponse : Response → Bytes
  | .ok => leBytes 4 0
  | .blob data => leBytes 4 1 ++ bytes.encode data
  | .blobStored hash => leBytes 4 2 ++ bytes.encode hash
  | .blobExists «exists» => leBytes 4 3 ++ bool.encode «exists»
  | .document id meta crdtState =>
    leBytes 4 4 ++ (string.pair (bytes.pair bytes)).encode (id, meta, crdtState)
  | .documentList ids => leBytes 4 5 ++ (seq string).encode ids
  | .notFound => leBytes 4 6
  | .roots roots => leBytes 4 7 ++ (seq root).encode roots
  | .changes changes => leBytes 4 8 ++ (seq change).encode changes
  | .syncDiff toSend toRequest => leBytes 4 9 ++ ((seq bytes).pair (seq bytes)).encode (toSend, toRequest)
  | .error message => leBytes 4 10 ++ string.encode message

/-- The `Deserialize` derive of `Response`. -/
def decodeResponse (b : Bytes) : Option (Response × Bytes) :=
  match decodeUInt 4 b with
  | none => none
  | some (index, b) =>
    match index with
    | 0 => some (.ok, b)
    | 1 => bytes.decodeAs .blob b
    | 2 => bytes.decodeAs .blobStored b
    | 3 => bool.decodeAs .blobExists b
    | 4 => (string.pair (bytes.pair bytes)).decodeAs (fun p => .document p.1 p.2.1 p.2.2) b
    | 5 => (seq string).decodeAs .documentList b
    | 6 => some (.notFound, b)
    | 7 => (seq root).decodeAs .roots b
    | 8 => (seq change).decodeAs .changes b
    | 9 => ((seq bytes).pair (seq bytes)).decodeAs (fun p => .syncDiff p.1 p.2) b
    | 10 => string.decodeAs .error b
    | _ => none

theorem decodeResponse_encodeResponse (r : Response) (rest : Bytes)
    (h : (encodeResponse r).length < 2 ^ 64) :
    decodeResponse (encodeResponse r ++ rest) = some (r, rest) := by
  cases r <;> simp only [encodeResponse, List.append_assoc, decodeResponse, decodeUInt_leBytes] at h ⊢
  all_goals exact decodeAs_encode _ _ _ (length_lt_of_append h)

theorem eq_of_decodeResponse {b rest : Bytes} {r : Response} (h : decodeResponse b = some (r, rest)) :
    b = encodeResponse r ++ rest := by
  unfold decodeResponse at h
  split at h
  · cases h
  · rename_i index b' hi
    obtain ⟨-, rfl⟩ := eq_of_decodeUInt hi
    split at h
    all_goals first
      | cases h; done
      | obtain ⟨rfl, rfl⟩ := Prod.mk.inj (Option.some.inj h); rfl
      | obtain ⟨x, rfl, rfl⟩ := eq_of_decodeAs h; rw [encodeResponse, List.append_assoc]

end Messages

namespace Codec

/-- `Request`. -/
def request : Codec Request :=
  ⟨encodeRequest, decodeRequest, decodeRequest_encodeRequest, eq_of_decodeRequest,
    fun q => by cases q <;> simp [encodeRequest, leBytes]⟩

/-- `Response`. -/
def response : Codec Response :=
  ⟨encodeResponse, decodeResponse, decodeResponse_encodeResponse, eq_of_decodeResponse,
    fun r => by cases r <;> simp [encodeResponse, leBytes]⟩

end Codec

/-! ### Frame payloads -/

/-- `bincode::deserialize::<(RefId, Request)>(&frame)` of `main`. -/
def deserializeRequest (frame : Bytes) : Option (RefId × Request) :=
  (Codec.u64.pair Codec.request).deserialize frame

/-- `bincode::serialize(&(ref_id, &response))` of `main`. -/
def serializeResponse (refId : RefId) (response : Response) : Bytes :=
  (Codec.u64.pair Codec.response).encode (refId, response)

/-- The host's side of a request frame: `bincode::serialize(&(ref_id, &request))`. -/
def serializeRequest (refId : RefId) (request : Request) : Bytes :=
  (Codec.u64.pair Codec.request).encode (refId, request)

/-- The host's side of a reply frame: `bincode::deserialize::<(RefId, Response)>(&frame)`. -/
def deserializeResponse (frame : Bytes) : Option (RefId × Response) :=
  (Codec.u64.pair Codec.response).deserialize frame

/-- **The payload codec is exact.** A request frame decodes to `(ref_id, request)` exactly when it
is `bincode::serialize(&(ref_id, &request))` followed by any bytes, and a reply frame decodes to
`(ref_id, response)` exactly when it is the serialization of that pair followed by any bytes. -/
theorem payload_codec_exact {frame frame' : Bytes} {refId refId' : RefId} {q : Request}
    {r : Response} (hq : (serializeRequest refId q).length < 2 ^ 64)
    (hr : (serializeResponse refId' r).length < 2 ^ 64) :
    (deserializeRequest frame = some (refId, q) ↔ ∃ rest, frame = serializeRequest refId q ++ rest) ∧
    (deserializeResponse frame' = some (refId', r) ↔
      ∃ rest, frame' = serializeResponse refId' r ++ rest) :=
  ⟨(Codec.u64.pair Codec.request).deserialize_eq_some_iff hq,
    (Codec.u64.pair Codec.response).deserialize_eq_some_iff hr⟩

theorem payload_codec_exact_at_list :
    (serializeRequest 7 .listDocuments).length < 2 ^ 64 ∧ (serializeResponse 7 .ok).length < 2 ^ 64 ∧
    ((deserializeRequest (serializeRequest 7 .listDocuments) = some (7, .listDocuments) ↔
        ∃ rest, serializeRequest 7 .listDocuments = serializeRequest 7 .listDocuments ++ rest) ∧
      (deserializeResponse (serializeResponse 7 .ok) = some (7, .ok) ↔
        ∃ rest, serializeResponse 7 .ok = serializeResponse 7 .ok ++ rest)) :=
  have hq : (serializeRequest 7 .listDocuments).length < 2 ^ 64 := by decide
  have hr : (serializeResponse 7 .ok).length < 2 ^ 64 := by decide
  ⟨hq, hr, payload_codec_exact hq hr⟩

end KeyringStore.Bincode
