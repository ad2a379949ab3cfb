import KeyringStore.Dispatcher
import KeyringStore.Framing

/-! # The session

`runLoop` is the loop of `main`: read a frame, decode it into a `(ref_id, request)` pair, handle
the request, encode the reply with the same `ref_id`, write it as a frame, until `read_frame`
returns `Ok(None)`. The codec is a parameter: `decode` for `bincode::deserialize`, `encode` for
`bincode::serialize`. A session ends with the bytes it wrote, the store it leaves, and the error
that ended it, if one did (`Outcome`).

* `runLoop_frames`: on the frames of a sequence of requests, the session writes one reply frame
  per request, in request order, each with the `ref_id` of its request and the reply the
  dispatcher gives at that point of the sequence, and ends cleanly;
* `runLoop_any_input`: on any input, the session serves the longest run of decodable frames at its
  start, one reply frame each, and then ends: cleanly when fewer than four bytes are left, or with
  the error of the frame it could not read or decode. -/

namespace KeyringStore.Session

open KeyringStore.Redb KeyringStore.Protocol KeyringStore.Storage KeyringStore.Dispatcher
open KeyringStore.Framing

/-- How a session ends. -/
structure Outcome where
  output : Bytes
  store : Store
  error : Option String

variable (blake3 : Bytes → Bytes) (decode : Bytes → Option (RefId × Request))
  (encode : RefId → Response → Bytes)

/-- The main loop, from the store `s` and the unread input; `faults` holds the faults of the
requests to come, one entry per request. -/
def runLoop (s : Store) (faults : List Faults) (input : Bytes) : Outcome :=
  match h : readFrame input with
  | .error e => ⟨[], s, some e⟩
  | .ok none => ⟨[], s, none⟩
  | .ok (some (frame, rest)) =>
    have := length_lt_of_readFrame h
    match decode frame with
    | none => ⟨[], s, some "decoding request frame"⟩
    | some (refId, request) =>
      let step := handleRequest blake3 s (faults.headD []) request
      let next := runLoop step.2 faults.tail rest
      ⟨writeFrame (encode refId step.1) ++ next.output, next.store, next.error⟩
termination_by input.length

theorem runLoop_of_none {s : Store} {faults : List Faults} {input : Bytes}
    (h : readFrame input = .ok none) : runLoop blake3 decode encode s faults input = ⟨[], s, none⟩ := by
  rw [runLoop]; split <;> simp_all

theorem runLoop_of_error {s : Store} {faults : List Faults} {input : Bytes} {e : String}
    (h : readFrame input = .error e) : runLoop blake3 decode encode s faults input = ⟨[], s, some e⟩ := by
  rw [runLoop]; split <;> simp_all

theorem runLoop_of_undecodable {s : Store} {faults : List Faults} {input frame rest : Bytes}
    (h : readFrame input = .ok (some (frame, rest))) (hd : decode frame = none) :
    runLoop blake3 decode encode s faults input = ⟨[], s, some "decoding request frame"⟩ := by
  rw [runLoop]; split <;> simp_all

theorem runLoop_of_some {s : Store} {faults : List Faults} {input frame rest : Bytes}
    {refId : RefId} {request : Request} (h : readFrame input = .ok (some (frame, rest)))
    (hd : decode frame = some (refId, request)) :
    runLoop blake3 decode encode s faults input =
      let step := handleRequest blake3 s (faults.headD []) request
      let next := runLoop blake3 decode encode step.2 faults.tail rest
      ⟨writeFrame (encode refId step.1) ++ next.output, next.store, next.error⟩ := by
  rw [runLoop]; split <;> simp_all

/-- The session on the frames of a sequence of requests, then more input: the replies to those
requests, then the session from the store they leave on the rest. -/
theorem runLoop_frames_append (s : Store) (reqs : List (Faults × RefId × Request))
    (frames : List Bytes) (hdec : List.Forall₂ (fun f x => decode f = some x.2) frames reqs)
    (hlen : ∀ f ∈ frames, f.length < 2 ^ 32) (faults : List Faults) (tail : Bytes) :
    runLoop blake3 decode encode s (reqs.map Prod.fst ++ faults) ((frames.map writeFrame).flatten ++ tail) =
      ⟨(List.zipWith (fun x r => writeFrame (encode x.2.1 r)) reqs
          (serve blake3 s (reqs.map fun x => (x.1, x.2.2))).1).flatten ++
          (runLoop blake3 decode encode (serve blake3 s (reqs.map fun x => (x.1, x.2.2))).2 faults
            tail).output,
        (runLoop blake3 decode encode (serve blake3 s (reqs.map fun x => (x.1, x.2.2))).2 faults
          tail).store,
        (runLoop blake3 decode encode (serve blake3 s (reqs.map fun x => (x.1, x.2.2))).2 faults
          tail).error⟩ := by
  induction hdec generalizing s with
  | nil => rfl
  | @cons f x frames reqs hf _ ih =>
    have hr := readFrame_writeFrame ((frames.map writeFrame).flatten ++ tail)
      (hlen f (List.mem_cons_self f frames))
    simp only [List.map_cons, List.flatten_cons, List.cons_append, List.append_assoc] at hr ⊢
    rw [runLoop_of_some blake3 decode encode hr hf]
    simp only [List.headD_cons, List.tail_cons,
      ih _ fun f' hf' => hlen f' (List.mem_cons_of_mem f hf')]
    simp [serve]

/-- **Correlation and order.** On the frames of a sequence of requests, each with the faults of its
transactions, the session writes the frames of the replies `serve` gives, each encoded with the
`ref_id` of its request, and ends cleanly with the store `serve` leaves. -/
theorem runLoop_frames (s : Store) (reqs : List (Faults × RefId × Request)) (frames : List Bytes)
    (hdec : List.Forall₂ (fun f x => decode f = some x.2) frames reqs)
    (hlen : ∀ f ∈ frames, f.length < 2 ^ 32) :
    runLoop blake3 decode encode s (reqs.map Prod.fst) (frames.map writeFrame).flatten =
      ⟨(List.zipWith (fun x r => writeFrame (encode x.2.1 r)) reqs
          (serve blake3 s (reqs.map fun x => (x.1, x.2.2))).1).flatten,
        (serve blake3 s (reqs.map fun x => (x.1, x.2.2))).2, none⟩ := by
  have h := runLoop_frames_append blake3 decode encode s reqs frames hdec hlen [] []
  rw [List.append_nil, List.append_nil] at h
  rw [h, runLoop_of_none blake3 decode encode (readFrame_eq_none.mpr (by simp)), List.append_nil]

theorem runLoop_frames_at_list :
    List.Forall₂ (fun f (x : Faults × RefId × Request) => (fun _ => some (7, .listDocuments) :
      Bytes → Option (RefId × Request)) f = some x.2) [[]] [([], 7, .listDocuments)] ∧
    (∀ f ∈ ([[]] : List Bytes), f.length < 2 ^ 32) ∧
    runLoop id (fun _ => some (7, .listDocuments)) (fun _ _ => [1]) Store.empty [[]]
        (([[]] : List Bytes).map writeFrame).flatten =
      ⟨(List.zipWith (fun (x : Faults × RefId × Request) r => writeFrame ((fun _ _ => [1] :
          RefId → Response → Bytes) x.2.1 r)) [([], 7, .listDocuments)]
          (serve id Store.empty [([], .listDocuments)]).1).flatten,
        (serve id Store.empty [([], .listDocuments)]).2, none⟩ :=
  ⟨.cons rfl .nil, by simp, runLoop_frames id (fun _ => some (7, .listDocuments)) (fun _ _ => [1])
    Store.empty [([], 7, .listDocuments)] [[]] (.cons rfl .nil) (by simp)⟩

/-- Faults that are all empty are no faults: the session runs as it does with none. -/
theorem runLoop_of_faults_nil (s : Store) (faults : List Faults) (input : Bytes)
    (hf : ∀ f ∈ faults, f = []) :
    runLoop blake3 decode encode s faults input = runLoop blake3 decode encode s [] input := by
  induction s, faults, input using runLoop.induct blake3 decode encode with
  | case1 s faults input e he => rw [runLoop_of_error _ _ _ he, runLoop_of_error _ _ _ he]
  | case2 s faults input hn => rw [runLoop_of_none _ _ _ hn, runLoop_of_none _ _ _ hn]
  | case3 s faults input frame rest hr _ hd =>
    rw [runLoop_of_undecodable _ _ _ hr hd, runLoop_of_undecodable _ _ _ hr hd]
  | case4 s faults input frame rest hr _ refId request hd step ih =>
    have hh : faults.headD [] = [] := by cases faults <;> simp_all
    simp only [step, hh] at ih
    rw [runLoop_of_some _ _ _ hr hd, runLoop_of_some _ _ _ hr hd]
    simp only [hh, List.headD_nil, List.tail_nil, ih fun f h => hf f (List.mem_of_mem_tail h)]

/-! ### Any input -/

/-- The requests of a session paired with the faults of their transactions: the `i`-th request
takes the `i`-th entry of `faults`, none past its end. -/
def pairFaults {α : Type} : List Faults → List α → List (Faults × α)
  | _, [] => []
  | faults, x :: xs => (faults.headD [], x) :: pairFaults faults.tail xs

/-- **Whatever the input.** A session reads frames that decode to requests until the first bytes
that are not one. Fewer than 4 bytes left end it cleanly; a frame body cut short ends it with the
error of `read_frame`; a frame that does not decode ends it with "decoding request frame". It writes
one reply frame per request read, in order and with the request's `ref_id`, and leaves the store
that `serve` leaves after those requests, so nothing else reaches the output or the store. -/
theorem runLoop_any_input (s : Store) (faults : List Faults) (input : Bytes) :
    ∃ (frames : List Bytes) (reqs : List (RefId × Request)) (tail : Bytes),
      input = (frames.map writeFrame).flatten ++ tail ∧
      List.Forall₂ (fun f x => decode f = some x) frames reqs ∧
      (runLoop blake3 decode encode s faults input).output =
        (List.zipWith (fun x r => writeFrame (encode x.1 r)) reqs
          (serve blake3 s (pairFaults faults (reqs.map Prod.snd))).1).flatten ∧
      (runLoop blake3 decode encode s faults input).store =
        (serve blake3 s (pairFaults faults (reqs.map Prod.snd))).2 ∧
      ((runLoop blake3 decode encode s faults input).error = none ∧ tail.length < 4 ∨
        ∃ e, (runLoop blake3 decode encode s faults input).error = some e ∧
          (readFrame tail = .error e ∨ ∃ frame rest, readFrame tail = .ok (some (frame, rest)) ∧
            decode frame = none ∧ e = "decoding request frame")) := by
  induction s, faults, input using runLoop.induct blake3 decode encode with
  | case1 s faults input e he =>
    refine ⟨[], [], input, rfl, .nil, ?_⟩
    simp [runLoop_of_error blake3 decode encode he, serve, pairFaults, he]
  | case2 s faults input hn =>
    refine ⟨[], [], input, rfl, .nil, ?_⟩
    simp [runLoop_of_none blake3 decode encode hn, serve, pairFaults, readFrame_eq_none.mp hn]
  | case3 s faults input frame rest hr _ hd =>
    refine ⟨[], [], input, rfl, .nil, ?_⟩
    simp [runLoop_of_undecodable blake3 decode encode hr hd, serve, pairFaults, hr, hd]
  | case4 s faults input frame rest hr _ refId request hd step ih =>
    obtain ⟨frames, reqs, tail, hin, hdec, hout, hst, herr⟩ := ih
    simp only [step] at hout hst herr
    refine ⟨frame :: frames, (refId, request) :: reqs, tail, ?_, .cons hd hdec, ?_⟩
    · rw [(readFrame_eq_some hr).2, hin, List.map_cons, List.flatten_cons, List.append_assoc]
    · rw [runLoop_of_some blake3 decode encode hr hd]
      exact ⟨by simp only [List.map_cons, pairFaults, serve, List.zipWith_cons_cons,
        List.flatten_cons, hout], by simp only [List.map_cons, pairFaults, serve, hst], herr⟩

end KeyringStore.Session
