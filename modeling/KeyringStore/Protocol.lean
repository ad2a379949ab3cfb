import KeyringStore.Redb

/-! # Wire protocol types

The closed message catalogue of the port. A request names one operation on the store and a
response carries its result; each travels in a frame paired with the `RefId` of the request it
belongs to. Blob and state hashes travel as plain bytes, so nothing in a message checks that a hash
is 32 bytes long. -/

namespace KeyringStore.Protocol

open KeyringStore.Redb

/-- Unique per-request id so the host can match replies. -/
abbrev RefId := UInt64

/-- A document's root: its id and the hash of its CRDT state. -/
structure Root where
  docId : String
  hash : Bytes
  deriving DecidableEq, Repr

/-- A sync-layer change: a document id, a CRDT payload and the payload's advertised hash. -/
structure Change where
  docId : String
  data : Bytes
  hash : Bytes
  deriving DecidableEq, Repr

/-- The requests, in the order of the wire catalogue. -/
inductive Request where
  | putBlob (data : Bytes)
  | getBlob (hash : Bytes)
  | hasBlob (hash : Bytes)
  | putDocument (id : String) (meta : Bytes) (crdtState : Bytes)
  | getDocument (id : String)
  | deleteDocument (id : String)
  | listDocuments
  | getRoots (docIds : List String)
  | getChanges (knownRoots : List Bytes)
  | applyChanges (changes : List Change)
  deriving DecidableEq, Repr

/-- The responses, in the order of the wire catalogue. `syncDiff` is declared but no request
produces it. -/
inductive Response where
  | ok
  | blob (data : Bytes)
  | blobStored (hash : Bytes)
  | blobExists («exists» : Bool)
  | document (id : String) (meta : Bytes) (crdtState : Bytes)
  | documentList (ids : List String)
  | notFound
  | roots (roots : List Root)
  | changes (changes : List Change)
  | syncDiff (toSend : List Bytes) (toRequest : List Bytes)
  | error (message : String)
  deriving DecidableEq, Repr

end KeyringStore.Protocol
