import KeyringStore.Consistency

/-! # The document map

What the four tables are for: one map from document id to `(meta, crdt_state)`, and the blob map.
`handle` is the dispatcher over that abstract store (`DocStore`); a state hash is `blake3` of the
state, computed where a reply needs it and stored nowhere. `absStore` reads the abstract store off
the tables.

On a consistent store, every request handled without failure replies as `handle` does and leaves
tables that read off as `handle`'s new state (`handleRequest_refines`). Consistency is kept, so a
whole run from the empty store replies as the abstract model does (`serve_refines_empty`). The
invariant is what makes it hold: `get_document` finds every id of `doc_hashes`, so the
"deleted between reads" branch of `GetChanges` is never taken, and the stored hash that
`ApplyChanges` compares is the hash of the stored state. -/

namespace KeyringStore.DocumentMap

open KeyringStore.Redb KeyringStore.Protocol KeyringStore.Storage KeyringStore.Dispatcher
open KeyringStore.Consistency

/-- The abstract store: documents by id, with their meta and CRDT state, and blobs by hash. -/
structure DocStore where
  docs : Table String (Bytes × Bytes)
  blobs : Table Bytes Bytes

/-- The empty abstract store. -/
def DocStore.empty : DocStore := ⟨.empty, .empty⟩

variable (blake3 : Bytes → Bytes)

/-- One change of `ApplyChanges`: skipped when the stored state hashes to the advertised hash,
stored with empty meta otherwise. -/
def applyDoc (docs : Table String (Bytes × Bytes)) (c : Change) : Table String (Bytes × Bytes) :=
  if (docs.get c.docId).map (fun d => blake3 d.2) = some c.hash then docs
  else docs.insert c.docId ([], c.data)

/-- The changes a peer that knows the hashes `known` is sent: every document whose state hash it
does not know, in id order. -/
def changesFor (docs : Table String (Bytes × Bytes)) (known : List Bytes) : List Change :=
  (docs.entries.filter fun e => blake3 e.2.2 ∉ known).map fun e => ⟨e.1, e.2.2, blake3 e.2.2⟩

/-- The dispatcher over the abstract store. -/
def handle (a : DocStore) : Request → Response × DocStore
  | .putBlob data =>
    (.blobStored (blake3 data), { a with blobs := a.blobs.insert (blake3 data) data })
  | .getBlob hash => match a.blobs.get hash with
    | some data => (.blob data, a)
    | none => (.notFound, a)
  | .hasBlob hash => (.blobExists (a.blobs.get hash).isSome, a)
  | .putDocument id meta crdtState => (.ok, { a with docs := a.docs.insert id (meta, crdtState) })
  | .getDocument id => match a.docs.get id with
    | some (meta, crdtState) => (.document id meta crdtState, a)
    | none => (.notFound, a)
  | .deleteDocument id =>
    if (a.docs.get id).isSome then (.ok, { a with docs := a.docs.remove id }) else (.notFound, a)
  | .listDocuments => (.documentList a.docs.keys, a)
  | .getRoots docIds =>
    (.roots (if docIds.isEmpty then a.docs.entries.map fun e => ⟨e.1, blake3 e.2.2⟩
      else docIds.filterMap fun id => (a.docs.get id).map fun d => ⟨id, blake3 d.2⟩), a)
  | .getChanges knownRoots => (.changes (changesFor blake3 a.docs knownRoots), a)
  | .applyChanges changes => (.ok, { a with docs := changes.foldl (applyDoc blake3) a.docs })

/-- The replies of the abstract store to a sequence of requests, and the store they leave. -/
def serve (a : DocStore) : List Request → List Response × DocStore
  | [] => ([], a)
  | req :: reqs =>
    let step := handle blake3 a req
    let rest := serve step.2 reqs
    (step.1 :: rest.1, rest.2)

/-- The abstract store the tables hold: each id of `documents` with its meta and its state in
`doc_data`. -/
def absStore (s : Store) : DocStore :=
  ⟨s.documents.mapVal fun id m => (m, (s.docData.get id).getD []), s.blobs⟩

theorem absStore_empty : absStore Store.empty = DocStore.empty := rfl

@[simp] theorem absStore_blobs (s : Store) : (absStore s).blobs = s.blobs := rfl

variable {blake3}

/-! ### Reading the abstract store off consistent tables -/

theorem get_absStore_docs {s : Store} (hs : Consistent blake3 s) (id : String) :
    (absStore s).docs.get id = s.document id := by
  have h := hs.documents_iff id
  simp only [absStore, Table.get_mapVal, Store.document]
  cases hm : s.documents.get id <;> cases hd : s.docData.get id <;> simp_all

theorem docHashes_eq {s : Store} (hs : Consistent blake3 s) :
    s.docHashes = (absStore s).docs.mapVal fun _ d => blake3 d.2 := by
  refine Table.ext fun id => ?_
  have h := hs.docHashes_iff id
  rw [Table.get_mapVal, get_absStore_docs hs, Store.document]
  cases hd : s.docData.get id with
  | none => cases hh : s.docHashes.get id <;> simp_all
  | some d =>
    obtain ⟨m, hm⟩ := Option.isSome_iff_exists.mp ((hs.documents_iff id).mpr (by simp [hd]))
    simp [hm, hs.docHash_eq id d hd]

/-! ### The writes -/

theorem absStore_insert (s : Store) (id : String) (meta crdtState hash : Bytes) :
    absStore { s with
      documents := s.documents.insert id meta
      docData := s.docData.insert id crdtState
      docHashes := s.docHashes.insert id hash } =
    { absStore s with docs := (absStore s).docs.insert id (meta, crdtState) } := by
  simp only [absStore, DocStore.mk.injEq, and_true]
  exact Table.ext fun k => by by_cases hk : k = id <;> simp [hk]

theorem absStore_remove (s : Store) (id : String) :
    absStore { s with
      documents := s.documents.remove id
      docData := s.docData.remove id
      docHashes := s.docHashes.remove id } =
    { absStore s with docs := (absStore s).docs.remove id } := by
  simp only [absStore, DocStore.mk.injEq, and_true]
  exact Table.ext fun k => by by_cases hk : k = id <;> simp [hk]

theorem absStore_applyChange {s : Store} (hs : Consistent blake3 s) (c : Change) :
    absStore (applyChange blake3 s c) = { absStore s with docs := applyDoc blake3 (absStore s).docs c } := by
  have h : s.docHashes.get c.docId = ((absStore s).docs.get c.docId).map fun d => blake3 d.2 := by
    rw [docHashes_eq hs, Table.get_mapVal]
  unfold Dispatcher.applyChange applyDoc
  rw [← h]
  split_ifs
  · rfl
  · exact absStore_insert s _ _ _ _

theorem absStore_foldl_applyChange : ∀ {s : Store}, Consistent blake3 s → ∀ cs : List Change,
    absStore (cs.foldl (applyChange blake3) s) =
      { absStore s with docs := cs.foldl (applyDoc blake3) (absStore s).docs }
  | _, _, [] => rfl
  | s, hs, c :: cs => by
    rw [List.foldl_cons, absStore_foldl_applyChange (hs.applyChange c) cs, absStore_applyChange hs]
    rfl

/-! ### The reads -/

/-- `GetChanges` names each id at most once. -/
theorem nodup_changesFor (docs : Table String (Bytes × Bytes)) (known : List Bytes) :
    ((changesFor blake3 docs known).map Change.docId).Nodup := by
  simp only [changesFor, List.map_map, Function.comp_def]
  exact ((List.filter_sublist _).map _).nodup (docs.keys_sorted.imp ne_of_lt)

/-- A document whose state hash the peer does not know is sent. -/
theorem mem_changesFor {docs : Table String (Bytes × Bytes)} {known : List Bytes} {id : String}
    {m d : Bytes} (h : docs.get id = some (m, d)) (hk : blake3 d ∉ known) :
    (⟨id, d, blake3 d⟩ : Change) ∈ changesFor blake3 docs known :=
  List.mem_map.mpr ⟨(id, (m, d)), List.mem_filter.mpr ⟨Table.mem_entries.mpr h, by simpa using hk⟩,
    rfl⟩

/-- A document whose state hash the peer knows is not sent. -/
theorem filter_changesFor_eq_nil {docs : Table String (Bytes × Bytes)} {known : List Bytes}
    {id : String} {m d : Bytes} (h : docs.get id = some (m, d)) (hk : blake3 d ∈ known) :
    (changesFor blake3 docs known).filter (·.docId = id) = [] := by
  refine List.filter_eq_nil_iff.mpr fun c hc hid => ?_
  obtain ⟨⟨k, v⟩, he, rfl⟩ := List.mem_map.mp hc
  obtain ⟨he, hnk⟩ := List.mem_filter.mp he
  obtain rfl : k = id := by simpa using hid
  obtain rfl : v = (m, d) := Option.some.inj ((Table.mem_entries.mp he).symm.trans h)
  simp [hk] at hnk

theorem collectChanges_nil (s : Store) (known : List Bytes) :
    ∀ L : List (String × (Bytes × Bytes)), (∀ e ∈ L, s.document e.1 = some e.2) →
      collectChanges s known [] (L.map fun e => (e.1, blake3 e.2.2)) =
        .ok ((L.filter fun e => blake3 e.2.2 ∉ known).map fun e => ⟨e.1, e.2.2, blake3 e.2.2⟩)
  | [], _ => rfl
  | e :: L, h => by
    have ih := collectChanges_nil s known L fun e he => h e (List.mem_cons_of_mem _ he)
    by_cases hk : blake3 e.2.2 ∈ known
    · simp [collectChanges, hk, ih]
    · simp [collectChanges, hk, ih, Store.getDocument, h e (List.mem_cons_self e L), Except.map]

theorem getChanges_nil {s : Store} (hs : Consistent blake3 s) (known : List Bytes) :
    collectChanges s known [] s.docHashes.entries = .ok (changesFor blake3 (absStore s).docs known) := by
  rw [docHashes_eq hs]
  exact collectChanges_nil s known _ fun e he => by
    rw [← get_absStore_docs hs]; exact Table.mem_entries.mp he

/-! ### Requests -/

/-- **One request.** On a consistent store a request handled without failure replies as the
abstract store does, and leaves tables that read off as the abstract store's new state. -/
theorem handleRequest_refines {s : Store} (hs : Consistent blake3 s) :
    ∀ req, (handleRequest blake3 s [] req).1 = (handle blake3 (absStore s) req).1 ∧
      absStore (handleRequest blake3 s [] req).2 = (handle blake3 (absStore s) req).2
  | .putBlob _ | .hasBlob _ | .listDocuments => ⟨by simp [handleRequest, handle, Store.hasBlob,
      Store.listDocuments, Store.putBlob, absStore], rfl⟩
  | .getBlob hash => by
    simp only [handleRequest, handle, Store.getBlob, txn_none, List.headD_nil, absStore_blobs]
    cases s.blobs.get hash <;> exact ⟨rfl, rfl⟩
  | .putDocument id meta crdtState => ⟨rfl, absStore_insert s id meta crdtState _⟩
  | .getDocument id => by
    simp only [handleRequest, handle, Store.getDocument, txn_none, List.headD_nil,
      get_absStore_docs hs]
    rcases s.document id with _ | ⟨m, d⟩ <;> exact ⟨rfl, rfl⟩
  | .deleteDocument id => by
    have habs : ((absStore s).docs.get id).isSome = (s.documents.get id).isSome := by
      simp [absStore]
    cases hm : s.documents.get id <;>
      simp only [handleRequest, handle, Store.deleteDocument, txn_none, List.headD_nil, habs, hm,
        Option.isSome_none, Option.isSome_some, if_true, Bool.false_eq_true, if_false]
    · exact ⟨trivial, by rw [absStore_remove, Table.remove_of_get_eq_none (by simp [absStore, hm])]⟩
    · exact ⟨trivial, absStore_remove s id⟩
  | .getRoots docIds => by
    simp only [handleRequest, handle, Store.allDocHashes, Store.getDocHashes, txn_none,
      List.headD_nil, docHashes_eq hs]
    split_ifs <;> simp [List.map_filterMap, Option.map_map, Function.comp_def]
  | .getChanges knownRoots => by
    simp [handleRequest, handle, Store.allDocHashes, getChanges_nil hs]
  | .applyChanges changes => by
    simp only [handleRequest, handle, applyChanges_nil]
    exact ⟨trivial, absStore_foldl_applyChange hs changes⟩

theorem serve_refines {s : Store} (hs : Consistent blake3 s) : ∀ reqs : List Request,
    (Dispatcher.serve blake3 s (reqs.map fun r => ([], r))).1 = (serve blake3 (absStore s) reqs).1
  | [] => rfl
  | req :: reqs => by
    obtain ⟨h1, h2⟩ := handleRequest_refines hs req
    simp only [List.map_cons, Dispatcher.serve, serve, h1, ← h2,
      serve_refines (hs.commits (handleRequest_commits s [] req)) reqs]

theorem absStore_serve {s : Store} (hs : Consistent blake3 s) : ∀ reqs : List Request,
    absStore (Dispatcher.serve blake3 s (reqs.map fun r => ([], r))).2 =
      (serve blake3 (absStore s) reqs).2
  | [] => rfl
  | req :: reqs => by
    simp only [List.map_cons, Dispatcher.serve, serve, ← (handleRequest_refines hs req).2,
      absStore_serve (hs.commits (handleRequest_commits s [] req)) reqs]

/-- **Refinement.** Every sequence of requests from the empty store, handled without failure, gets
the replies of the abstract document map. -/
theorem serve_refines_empty (reqs : List Request) :
    (Dispatcher.serve blake3 Store.empty (reqs.map fun r => ([], r))).1 =
      (serve blake3 DocStore.empty reqs).1 :=
  serve_refines (consistent_empty blake3) reqs

end KeyringStore.DocumentMap
