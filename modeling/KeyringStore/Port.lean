import KeyringStore.Session
import KeyringStore.Bincode.Message
import KeyringStore.DocumentMap
import Mathlib.Data.List.Forall2

/-! # The port, end to end

`port` is the loop of `main` with its codec: request frames are read with `bincode::deserialize`
and replies written with `bincode::serialize(&(ref_id, &response))`. A host drives it by writing one
frame per request (`requestFrames`) and reading the output back frame by frame, decoding each
payload as a `(RefId, Response)` (`readReplies`).

* `port_round_trip`: when every request and every reply encodes to fewer than `2^32` bytes, the host
  reads back one `(ref_id, reply)` per request, in request order, each reply the one `serve` gives,
  and the session ends cleanly with the store `serve` leaves;
* `port_refines`: from the empty store and without failures, the replies the host reads back are
  those of the abstract document map of `DocumentMap`. -/

namespace KeyringStore.Port

open KeyringStore.Redb KeyringStore.Protocol KeyringStore.Storage KeyringStore.Dispatcher
open KeyringStore.Framing KeyringStore.Session KeyringStore.Bincode

variable (blake3 : Bytes → Bytes)

/-- The loop of `main` with bincode payloads. -/
def port (s : Store) (faults : List Faults) (input : Bytes) : Outcome :=
  runLoop blake3 deserializeRequest serializeResponse s faults input

/-- What a host writes for a sequence of requests: one frame each, whose payload is
`bincode::serialize(&(ref_id, &request))`. -/
def requestFrames (reqs : List (RefId × Request)) : Bytes :=
  (reqs.map fun x => writeFrame (serializeRequest x.1 x.2)).flatten

/-- What a host reads from the output: the payload of each frame, decoded as a `(RefId, Response)`. -/
def readReplies (output : Bytes) : Except String (List (Option (RefId × Response))) :=
  (readFrames output).map (List.map deserializeResponse)

theorem deserializeRequest_serializeRequest {refId : RefId} {q : Request}
    (h : (serializeRequest refId q).length < 2 ^ 64) :
    deserializeRequest (serializeRequest refId q) = some (refId, q) :=
  ((Codec.u64.pair Codec.request).deserialize_eq_some_iff h).mpr ⟨[], (List.append_nil _).symm⟩

theorem map_deserializeResponse : ∀ (refIds : List RefId) (rs : List Response),
    (∀ p ∈ refIds.zip rs, (serializeResponse p.1 p.2).length < 2 ^ 64) →
      (List.zipWith serializeResponse refIds rs).map deserializeResponse = (refIds.zip rs).map some
  | [], _, _ | _ :: _, [], _ => rfl
  | refId :: refIds, r :: rs, h => by
    rw [List.zipWith_cons_cons, List.map_cons, List.zip_cons_cons, List.map_cons,
      map_deserializeResponse refIds rs fun p hp => h p (List.mem_cons_of_mem _ hp)]
    exact congrArg (· :: _) (((Codec.u64.pair Codec.response).deserialize_eq_some_iff
      (h _ (List.mem_cons_self _ _))).mpr ⟨[], (List.append_nil _).symm⟩)

/-- The session `port` runs on the frames of a sequence of requests: it writes the frames of the
replies `serve` gives, each serialized with its request's `ref_id`, and ends cleanly with the store
`serve` leaves. -/
theorem port_requestFrames (s : Store) (reqs : List (Faults × RefId × Request))
    (hq : ∀ x ∈ reqs, (serializeRequest x.2.1 x.2.2).length < 2 ^ 32) :
    port blake3 s (reqs.map Prod.fst) (requestFrames (reqs.map Prod.snd)) =
      ⟨((List.zipWith serializeResponse (reqs.map fun x => x.2.1)
          (serve blake3 s (reqs.map fun x => (x.1, x.2.2))).1).map writeFrame).flatten,
        (serve blake3 s (reqs.map fun x => (x.1, x.2.2))).2, none⟩ := by
  have hdec : List.Forall₂ (fun f x => deserializeRequest f = some x.2)
      (reqs.map fun x => serializeRequest x.2.1 x.2.2) reqs :=
    List.forall₂_map_left_iff.mpr (List.forall₂_same.mpr fun x hx =>
      deserializeRequest_serializeRequest (lt_trans (hq x hx) (by decide)))
  have hlen : ∀ f ∈ reqs.map (fun x => serializeRequest x.2.1 x.2.2), f.length < 2 ^ 32 :=
    fun f hf => by obtain ⟨x, hx, rfl⟩ := List.mem_map.mp hf; exact hq x hx
  have hend : ∀ s', runLoop blake3 deserializeRequest serializeResponse s' [] [] = ⟨[], s', none⟩ :=
    fun _ => runLoop_of_none blake3 _ _ rfl
  have hrun := runLoop_frames_append blake3 deserializeRequest serializeResponse s reqs _ hdec hlen
    [] []
  simp only [List.append_nil, hend] at hrun
  have hf : requestFrames (reqs.map Prod.snd) =
      ((reqs.map fun x => serializeRequest x.2.1 x.2.2).map writeFrame).flatten := by
    simp only [requestFrames, List.map_map]; rfl
  rw [port, hf, hrun, List.map_zipWith, List.zipWith_map_left]

/-- A host reads back the frames of serialized replies as the `(ref_id, reply)` pairs they hold. -/
theorem readReplies_writeFrames (refIds : List RefId) (rs : List Response)
    (hr : ∀ p ∈ refIds.zip rs, (serializeResponse p.1 p.2).length < 2 ^ 32) :
    readReplies ((List.zipWith serializeResponse refIds rs).map writeFrame).flatten =
      .ok ((refIds.zip rs).map some) := by
  have hp : ∀ p ∈ List.zipWith serializeResponse refIds rs, p.length < 2 ^ 32 := by
    intro p hp
    rw [← List.map_uncurry_zip_eq_zipWith] at hp
    obtain ⟨q, hq, rfl⟩ := List.mem_map.mp hp
    exact hr q hq
  rw [readReplies, ← List.append_nil (List.flatten _), readFrames_writeFrames _ hp [] (by decide),
    Except.map, map_deserializeResponse _ _ fun p hp => lt_trans (hr p hp) (by decide)]

/-- **Host and port agree.** A host that writes the frames of its requests and decodes the frames it
reads back gets one `(ref_id, reply)` per request, in request order, each reply the one `serve`
gives; the session ends cleanly with the store `serve` leaves. Requests and replies must encode to
fewer than `2^32` bytes, the most a frame's length prefix can say. -/
theorem port_round_trip (s : Store) (reqs : List (Faults × RefId × Request))
    (hq : ∀ x ∈ reqs, (serializeRequest x.2.1 x.2.2).length < 2 ^ 32)
    (hr : ∀ p ∈ (reqs.map fun x => x.2.1).zip (serve blake3 s (reqs.map fun x => (x.1, x.2.2))).1,
      (serializeResponse p.1 p.2).length < 2 ^ 32) :
    readReplies (port blake3 s (reqs.map Prod.fst) (requestFrames (reqs.map Prod.snd))).output =
        .ok (((reqs.map fun x => x.2.1).zip (serve blake3 s (reqs.map fun x => (x.1, x.2.2))).1).map
          some) ∧
      (port blake3 s (reqs.map Prod.fst) (requestFrames (reqs.map Prod.snd))).store =
        (serve blake3 s (reqs.map fun x => (x.1, x.2.2))).2 ∧
      (port blake3 s (reqs.map Prod.fst) (requestFrames (reqs.map Prod.snd))).error = none := by
  rw [port_requestFrames blake3 s reqs hq]
  exact ⟨readReplies_writeFrames _ _ hr, rfl, rfl⟩

theorem port_round_trip_at_list :
    (∀ x ∈ [(([] : Faults), (7 : RefId), Request.listDocuments)],
        (serializeRequest x.2.1 x.2.2).length < 2 ^ 32) ∧
    (∀ p ∈ ([(([] : Faults), (7 : RefId), Request.listDocuments)].map fun x => x.2.1).zip
        (serve id Store.empty ([(([] : Faults), (7 : RefId), Request.listDocuments)].map
          fun x => (x.1, x.2.2))).1,
        (serializeResponse p.1 p.2).length < 2 ^ 32) ∧
    readReplies (port id Store.empty ([(([] : Faults), (7 : RefId), Request.listDocuments)].map
        Prod.fst) (requestFrames ([(([] : Faults), (7 : RefId), Request.listDocuments)].map
          Prod.snd))).output =
      .ok ((([(([] : Faults), (7 : RefId), Request.listDocuments)].map fun x => x.2.1).zip
        (serve id Store.empty ([(([] : Faults), (7 : RefId), Request.listDocuments)].map
          fun x => (x.1, x.2.2))).1).map some) :=
  have hq : ∀ x ∈ [(([] : Faults), (7 : RefId), Request.listDocuments)],
      (serializeRequest x.2.1 x.2.2).length < 2 ^ 32 := by decide
  have hr : ∀ p ∈ ([(([] : Faults), (7 : RefId), Request.listDocuments)].map fun x => x.2.1).zip
      (serve id Store.empty ([(([] : Faults), (7 : RefId), Request.listDocuments)].map
        fun x => (x.1, x.2.2))).1, (serializeResponse p.1 p.2).length < 2 ^ 32 := by decide
  ⟨hq, hr, (port_round_trip id Store.empty _ hq hr).1⟩

/-- **The port implements the document map.** From the empty store and with no transaction failing,
a host that writes the frames of its requests reads back one `(ref_id, reply)` per request, in
request order, each reply the one the abstract document map gives at that point of the sequence;
the session ends cleanly, and the tables it leaves hold the document map's final state. -/
theorem port_refines (reqs : List (RefId × Request))
    (hq : ∀ x ∈ reqs, (serializeRequest x.1 x.2).length < 2 ^ 32)
    (hr : ∀ p ∈ (reqs.map Prod.fst).zip
        (DocumentMap.serve blake3 DocumentMap.DocStore.empty (reqs.map Prod.snd)).1,
      (serializeResponse p.1 p.2).length < 2 ^ 32) :
    readReplies (port blake3 Store.empty [] (requestFrames reqs)).output =
        .ok (((reqs.map Prod.fst).zip
          (DocumentMap.serve blake3 DocumentMap.DocStore.empty (reqs.map Prod.snd)).1).map some) ∧
      DocumentMap.absStore (port blake3 Store.empty [] (requestFrames reqs)).store =
        (DocumentMap.serve blake3 DocumentMap.DocStore.empty (reqs.map Prod.snd)).2 ∧
      (port blake3 Store.empty [] (requestFrames reqs)).error = none := by
  have hreplies := DocumentMap.serve_refines (Consistency.consistent_empty blake3) (reqs.map Prod.snd)
  have hstate := DocumentMap.absStore_serve (Consistency.consistent_empty blake3) (reqs.map Prod.snd)
  have hrun := port_requestFrames blake3 Store.empty (reqs.map fun x => ([], x))
    (by simpa only [List.forall_mem_map] using hq)
  simp only [List.map_map, Function.comp_def, List.map_id', DocumentMap.absStore_empty]
    at hreplies hstate hrun
  have hnil := runLoop_of_faults_nil blake3 deserializeRequest serializeResponse Store.empty
    (reqs.map fun _ => []) (requestFrames reqs) (by simp)
  rw [port, ← hnil, ← port, hrun, hreplies]
  exact ⟨readReplies_writeFrames _ _ hr, hstate, rfl⟩

theorem port_refines_at_list :
    (∀ x ∈ [((7 : RefId), Request.listDocuments)], (serializeRequest x.1 x.2).length < 2 ^ 32) ∧
    (∀ p ∈ ([((7 : RefId), Request.listDocuments)].map Prod.fst).zip
        (DocumentMap.serve id DocumentMap.DocStore.empty
          ([((7 : RefId), Request.listDocuments)].map Prod.snd)).1,
      (serializeResponse p.1 p.2).length < 2 ^ 32) ∧
    readReplies (port id Store.empty [] (requestFrames [((7 : RefId), Request.listDocuments)])).output =
      .ok ((([((7 : RefId), Request.listDocuments)].map Prod.fst).zip
        (DocumentMap.serve id DocumentMap.DocStore.empty
          ([((7 : RefId), Request.listDocuments)].map Prod.snd)).1).map some) :=
  have hq : ∀ x ∈ [((7 : RefId), Request.listDocuments)],
      (serializeRequest x.1 x.2).length < 2 ^ 32 := by decide
  have hr : ∀ p ∈ ([((7 : RefId), Request.listDocuments)].map Prod.fst).zip
      (DocumentMap.serve id DocumentMap.DocStore.empty
        ([((7 : RefId), Request.listDocuments)].map Prod.snd)).1,
      (serializeResponse p.1 p.2).length < 2 ^ 32 := by decide
  ⟨hq, hr, (port_refines id _ hq hr).1⟩

end KeyringStore.Port
