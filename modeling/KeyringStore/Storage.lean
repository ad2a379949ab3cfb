import KeyringStore.Redb

/-! # The document store

`Store` is the content of `keyring.redb`: the four tables of `store.rs`, `blobs` (blake3 hash →
blob), `documents` (id → meta), `docData` (id → CRDT state) and `docHashes` (id → blake3 hash of
the state). Each method of `Store` runs one redb transaction. The database may fail a transaction
(an I/O or commit error): a failed transaction changes no table and the method returns the error.
Which transactions fail is an input of the model, one `Fault` per transaction, and the theorems
quantify over all of them.

`blake3` is the hash function. It is a parameter of the methods that hash, and no theorem depends
on its values. The read methods return no store: they cannot change one. -/

namespace KeyringStore.Storage

open KeyringStore.Redb

/-- The content of `keyring.redb`: the four tables. -/
structure Store where
  blobs : Table Bytes Bytes
  documents : Table String Bytes
  docData : Table String Bytes
  docHashes : Table String Bytes

/-- What the database does with one transaction: `none` runs and commits it, `some e` aborts it
with the error `e`. -/
abbrev Fault := Option String

/-- The faults of the transactions that one request runs, in order; a transaction past the end of
the list succeeds. -/
abbrev Faults := List Fault

/-- A transaction that returns `a` when it commits, under the fault `f`. -/
def txn {α : Type} : Fault → α → Except String α
  | none, a => .ok a
  | some e, _ => .error e

@[simp] theorem txn_none {α : Type} (a : α) : txn none a = .ok a := rfl

@[simp] theorem txn_some {α : Type} (e : String) (a : α) : txn (some e) a = .error e := rfl

theorem eq_of_txn_ok {α : Type} {f : Fault} {a b : α} (h : txn f a = .ok b) : f = none ∧ a = b := by
  cases f <;> simp_all [txn]

namespace Store

/-- The store `Store::open` leaves in a fresh directory: four empty tables. -/
def empty : Store := ⟨.empty, .empty, .empty, .empty⟩

variable (blake3 : Bytes → Bytes)

/-! ### Blobs -/

/-- `Store::put_blob`: the blob under its hash; returns the hash. -/
def putBlob (s : Store) (f : Fault) (data : Bytes) : Except String (Bytes × Store) :=
  txn f (blake3 data, { s with blobs := s.blobs.insert (blake3 data) data })

/-- `Store::get_blob`. -/
def getBlob (s : Store) (f : Fault) (hash : Bytes) : Except String (Option Bytes) :=
  txn f (s.blobs.get hash)

/-- `Store::has_blob`. -/
def hasBlob (s : Store) (f : Fault) (hash : Bytes) : Except String Bool :=
  txn f (s.blobs.get hash).isSome

/-! ### Documents -/

/-- `Store::put_document`: the three document tables, written in one transaction. -/
def putDocument (s : Store) (f : Fault) (id : String) (meta crdtState : Bytes) :
    Except String Store :=
  txn f { s with
    documents := s.documents.insert id meta
    docData := s.docData.insert id crdtState
    docHashes := s.docHashes.insert id (blake3 crdtState) }

/-- What `get_document` reads: `some` only when both `documents` and `doc_data` hold the id. -/
def document (s : Store) (id : String) : Option (Bytes × Bytes) :=
  match s.documents.get id, s.docData.get id with
  | some m, some d => some (m, d)
  | _, _ => none

/-- `Store::get_document`. -/
def getDocument (s : Store) (f : Fault) (id : String) : Except String (Option (Bytes × Bytes)) :=
  txn f (s.document id)

/-- `Store::delete_document`: whether `documents` held the id, and the store without it. -/
def deleteDocument (s : Store) (f : Fault) (id : String) : Except String (Bool × Store) :=
  txn f ((s.documents.get id).isSome, { s with
    documents := s.documents.remove id
    docData := s.docData.remove id
    docHashes := s.docHashes.remove id })

/-- `Store::list_documents`: the keys of `documents` in key order. -/
def listDocuments (s : Store) (f : Fault) : Except String (List String) :=
  txn f s.documents.keys

/-! ### Hashes -/

/-- `Store::get_doc_hash`. -/
def getDocHash (s : Store) (f : Fault) (id : String) : Except String (Option Bytes) :=
  txn f (s.docHashes.get id)

/-- `Store::get_doc_hashes`: the requested ids that `doc_hashes` holds, in request order. -/
def getDocHashes (s : Store) (f : Fault) (ids : List String) :
    Except String (List (String × Bytes)) :=
  txn f (ids.filterMap fun id => (s.docHashes.get id).map (id, ·))

/-- `Store::all_doc_hashes`: the whole of `doc_hashes` in key order. -/
def allDocHashes (s : Store) (f : Fault) : Except String (List (String × Bytes)) :=
  txn f s.docHashes.entries

end Store

end KeyringStore.Storage
