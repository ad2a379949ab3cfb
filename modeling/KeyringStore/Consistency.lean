import KeyringStore.Dispatcher

/-! # Store consistency

The tables of a store agree: the three document tables hold the same ids, `doc_hashes` holds the
blake3 hash of what `doc_data` holds, and every blob is stored under its own hash (`Consistent`).
Only three transactions write: `put_blob`, `put_document` and `delete_document` (`Commit`). Every
request leaves the store after a chain of them (`handleRequest_commits`), each keeps the store
consistent and removes no blob, so every reachable store is consistent.

A request that fails ends after the transactions before the failing one committed. For every
request but `ApplyChanges` there is no such transaction. `ApplyChanges` commits one transaction per
change, so an error reply follows the changes before the failing one, committed:
`applyChanges_error_at`. -/

namespace KeyringStore.Consistency

open KeyringStore.Redb KeyringStore.Protocol KeyringStore.Storage KeyringStore.Dispatcher

variable (blake3 : Bytes → Bytes)

/-- The store invariant: (a) the three document tables hold the same ids, (b) `doc_hashes` holds
the hash of `doc_data`, (c) every blob is keyed by its hash. -/
structure Consistent (s : Store) : Prop where
  documents_iff : ∀ id, (s.documents.get id).isSome ↔ (s.docData.get id).isSome
  docHashes_iff : ∀ id, (s.docHashes.get id).isSome ↔ (s.docData.get id).isSome
  docHash_eq : ∀ id d, s.docData.get id = some d → s.docHashes.get id = some (blake3 d)
  blob_key : ∀ h d, s.blobs.get h = some d → h = blake3 d

/-- One committed write transaction, by the method that runs it. -/
inductive Commit : Store → Store → Prop
  | putBlob {s s' : Store} {data h : Bytes} :
      s.putBlob blake3 none data = .ok (h, s') → Commit s s'
  | putDocument {s s' : Store} {id : String} {meta crdtState : Bytes} :
      s.putDocument blake3 none id meta crdtState = .ok s' → Commit s s'
  | deleteDocument {s s' : Store} {id : String} {existed : Bool} :
      s.deleteDocument none id = .ok (existed, s') → Commit s s'

/-- A chain of committed write transactions. -/
abbrev Commits := Relation.ReflTransGen (Commit blake3)

theorem consistent_empty : Consistent blake3 Store.empty :=
  ⟨fun _ => Iff.rfl, fun _ => Iff.rfl, by simp [Store.empty], by simp [Store.empty]⟩

variable {blake3}

/-! ### One transaction -/

theorem Consistent.commit {s s' : Store} (hs : Consistent blake3 s) (h : Commit blake3 s s') :
    Consistent blake3 s' := by
  cases h with
  | @putBlob data _ h =>
    obtain ⟨-, -, rfl⟩ := Prod.ext_iff.mp (eq_of_txn_ok h).2
    refine ⟨hs.documents_iff, hs.docHashes_iff, hs.docHash_eq, fun k d hd => ?_⟩
    simp only [Table.get_insert] at hd
    split_ifs at hd with hk
    · cases hd; exact hk
    · exact hs.blob_key k d hd
  | @putDocument id _ _ h =>
    obtain ⟨-, rfl⟩ := eq_of_txn_ok h
    refine ⟨fun k => ?_, fun k => ?_, fun k d hd => ?_, hs.blob_key⟩ <;> by_cases hk : k = id <;>
      simp_all [hs.documents_iff k, hs.docHashes_iff k, hs.docHash_eq k]
  | @deleteDocument id _ h =>
    obtain ⟨-, rfl⟩ := Prod.ext_iff.mp (eq_of_txn_ok h).2
    refine ⟨fun k => ?_, fun k => ?_, fun k d hd => ?_, hs.blob_key⟩ <;> by_cases hk : k = id <;>
      simp_all [hs.documents_iff k, hs.docHashes_iff k, hs.docHash_eq k]

theorem Commit.blob_mem {s s' : Store} (h : Commit blake3 s s') {k : Bytes}
    (hk : (s.blobs.get k).isSome) : (s'.blobs.get k).isSome := by
  cases h with
  | @putBlob data _ h =>
    obtain ⟨-, -, rfl⟩ := Prod.ext_iff.mp (eq_of_txn_ok h).2
    by_cases hk' : k = blake3 data <;> simp_all
  | putDocument h => obtain ⟨-, rfl⟩ := eq_of_txn_ok h; exact hk
  | deleteDocument h => obtain ⟨-, rfl⟩ := Prod.ext_iff.mp (eq_of_txn_ok h).2; exact hk

theorem Consistent.commits {s s' : Store} (hs : Consistent blake3 s) (h : Commits blake3 s s') :
    Consistent blake3 s' := by
  induction h with
  | refl => exact hs
  | tail _ h ih => exact ih.commit h

theorem Commits.blob_mem {s s' : Store} (h : Commits blake3 s s') {k : Bytes}
    (hk : (s.blobs.get k).isSome) : (s'.blobs.get k).isSome := by
  induction h with
  | refl => exact hk
  | tail _ h ih => exact h.blob_mem ih

theorem Commit.of_putBlob {s s' : Store} {f : Fault} {data h : Bytes}
    (hp : s.putBlob blake3 f data = .ok (h, s')) : Commit blake3 s s' := by
  obtain ⟨rfl, -⟩ := eq_of_txn_ok hp; exact .putBlob hp

theorem Commit.of_putDocument {s s' : Store} {f : Fault} {id : String} {meta crdtState : Bytes}
    (hp : s.putDocument blake3 f id meta crdtState = .ok s') : Commit blake3 s s' := by
  obtain ⟨rfl, -⟩ := eq_of_txn_ok hp; exact .putDocument hp

theorem Commit.of_deleteDocument {s s' : Store} {f : Fault} {id : String} {existed : Bool}
    (hp : s.deleteDocument f id = .ok (existed, s')) : Commit blake3 s s' := by
  obtain ⟨rfl, -⟩ := eq_of_txn_ok hp; exact .deleteDocument hp

/-! ### Requests -/

theorem applyChanges_commits :
    ∀ (s : Store) (fs : Faults) (cs : List Change), Commits blake3 s (applyChanges blake3 s fs cs).2
  | _, _, [] => .refl
  | s, fs, c :: cs => by
    unfold applyChanges
    split
    · exact .refl
    · split_ifs
      · exact applyChanges_commits s _ cs
      · split
        · exact .refl
        · exact .head (.of_putDocument ‹_›) (applyChanges_commits _ _ cs)

theorem handleRequest_commits (s : Store) (fs : Faults) :
    ∀ req, Commits blake3 s (handleRequest blake3 s fs req).2
  | .putBlob _ => by simp only [handleRequest]; split; exacts [.single (.of_putBlob ‹_›), .refl]
  | .putDocument _ _ _ => by
    simp only [handleRequest]; split; exacts [.single (.of_putDocument ‹_›), .refl]
  | .deleteDocument _ => by
    simp only [handleRequest]; split
    exacts [.single (.of_deleteDocument ‹_›), .single (.of_deleteDocument ‹_›), .refl]
  | .applyChanges cs => applyChanges_commits s fs cs
  | .getBlob _ | .hasBlob _ | .getDocument _ | .listDocuments | .getRoots _ => by
    simp only [handleRequest]; split <;> exact .refl
  | .getChanges _ => by simp only [handleRequest]; split <;> (try split) <;> exact .refl

theorem Consistent.applyChange {s : Store} (hs : Consistent blake3 s) (c : Change) :
    Consistent blake3 (applyChange blake3 s c) := by
  unfold Dispatcher.applyChange
  split_ifs
  · exact hs
  · exact hs.commit (.putDocument (show s.putDocument blake3 none c.docId [] c.data = .ok _ from rfl))

theorem reachable_consistent {s : Store} (h : Reachable blake3 s) : Consistent blake3 s := by
  induction h with
  | empty => exact consistent_empty blake3
  | step fs req _ ih => exact ih.commits (handleRequest_commits _ fs req)

/-- **The store invariant.** Every store that a sequence of requests leads to from the empty
store, whatever transactions fail on the way, is consistent; and no request removes a blob. -/
theorem reachable_consistent_and_blobs_kept :
    (∀ s, Reachable blake3 s → Consistent blake3 s) ∧
      ∀ (s : Store) (fs : Faults) (req : Request) (h : Bytes),
        (s.blobs.get h).isSome → ((handleRequest blake3 s fs req).2.blobs.get h).isSome :=
  ⟨fun _ => reachable_consistent, fun s fs req _ hk => (handleRequest_commits s fs req).blob_mem hk⟩

/-! ### Failed requests -/

/-- Where an error reply of `ApplyChanges` stops: at the change `k`. The changes before it run,
under the same faults, to the store the request leaves, which is where they lead without failures;
adding change `k` gives the error. -/
theorem applyChanges_error_at : ∀ (s : Store) (fs : Faults) (cs : List Change) (e : String),
    (applyChanges blake3 s fs cs).1 = .error e → ∃ k < cs.length,
      applyChanges blake3 s fs (cs.take k) = (.ok, (applyChanges blake3 s fs cs).2) ∧
      (applyChanges blake3 s fs (cs.take (k + 1))).1 = .error e ∧
      (applyChanges blake3 s fs cs).2 = (cs.take k).foldl (applyChange blake3) s
  | _, _, [], _, h => by simp [applyChanges] at h
  | s, fs, c :: cs, e, h => by
    -- the step of the loop on `c`, whatever follows it
    have fails : ∀ e', (∀ rest, applyChanges blake3 s fs (c :: rest) = (.error e', s)) →
        ∃ k < (c :: cs).length,
          applyChanges blake3 s fs ((c :: cs).take k) = (.ok, (applyChanges blake3 s fs (c :: cs)).2) ∧
          (applyChanges blake3 s fs ((c :: cs).take (k + 1))).1 = .error e ∧
          (applyChanges blake3 s fs (c :: cs)).2 = ((c :: cs).take k).foldl (applyChange blake3) s :=
      fun e' hstep => by
        rw [hstep] at h ⊢
        exact ⟨0, Nat.succ_pos _, rfl, by rw [List.take_succ_cons, hstep]; exact h, rfl⟩
    have commits : ∀ s' fs', applyChange blake3 s c = s' →
        (∀ rest, applyChanges blake3 s fs (c :: rest) = applyChanges blake3 s' fs' rest) →
        ∃ k < (c :: cs).length,
          applyChanges blake3 s fs ((c :: cs).take k) = (.ok, (applyChanges blake3 s fs (c :: cs)).2) ∧
          (applyChanges blake3 s fs ((c :: cs).take (k + 1))).1 = .error e ∧
          (applyChanges blake3 s fs (c :: cs)).2 = ((c :: cs).take k).foldl (applyChange blake3) s :=
      fun s' fs' happ hstep => by
        rw [hstep] at h ⊢
        obtain ⟨k, hk, h1, h2, h3⟩ := applyChanges_error_at s' fs' cs e h
        refine ⟨k + 1, Nat.succ_lt_succ hk, ?_, ?_, ?_⟩
        · rw [List.take_succ_cons, hstep, h1]
        · rw [List.take_succ_cons, hstep, h2]
        · rw [h3, List.take_succ_cons, List.foldl_cons, happ]
    rcases hg : s.getDocHash (fs.headD none) c.docId with e' | existing
    · exact fails e' fun rest => by rw [applyChanges, hg]
    obtain ⟨-, hget⟩ := eq_of_txn_ok hg
    by_cases hh : existing = some c.hash
    · exact commits s fs.tail (applyChange_of_hash_eq blake3 (hget.trans hh))
        fun rest => by rw [applyChanges, hg]; exact if_pos hh
    rcases hp : s.putDocument blake3 (fs.tail.headD none) c.docId [] c.data with e'' | s'
    · exact fails e'' fun rest => by rw [applyChanges, hg]; simp only [if_neg hh, hp]
    · exact commits s' fs.tail.tail (applyChange_of_putDocument blake3 (hget ▸ hh) hp)
        fun rest => by rw [applyChanges, hg]; simp only [if_neg hh, hp]

/-- **An error reply undoes only the failed transaction.** For every request but `ApplyChanges`
the store is left as it was. For `ApplyChanges` some change `k` failed: the changes before it run,
with the same faults, to the store the request leaves, which is the store a run of them without
failures leaves, and adding change `k` gives the error. -/
theorem error_reply_keeps_committed_changes (s : Store) (fs : Faults) (req : Request) (e : String)
    (h : (handleRequest blake3 s fs req).1 = .error e) :
    (∀ cs, req = .applyChanges cs → ∃ k < cs.length,
      handleRequest blake3 s fs (.applyChanges (cs.take k)) = (.ok, (handleRequest blake3 s fs req).2) ∧
      (handleRequest blake3 s fs (.applyChanges (cs.take (k + 1)))).1 = .error e ∧
      (handleRequest blake3 s fs req).2 = (handleRequest blake3 s [] (.applyChanges (cs.take k))).2) ∧
    ((∀ cs, req ≠ .applyChanges cs) → (handleRequest blake3 s fs req).2 = s) := by
  refine ⟨fun cs hreq => ?_, fun hne => ?_⟩
  · subst hreq
    obtain ⟨k, hk, h1, h2, h3⟩ := applyChanges_error_at s fs cs e h
    exact ⟨k, hk, h1, h2, by rw [handleRequest, handleRequest, h3, applyChanges_nil]⟩
  · cases req
    case applyChanges cs => exact absurd rfl (hne cs)
    all_goals simp only [handleRequest] at h ⊢; split <;> (try split) <;> simp_all

theorem error_reply_keeps_committed_changes_at_batch :
    (handleRequest id Store.empty [none, none, some "disk"] (.applyChanges [⟨"a", [], []⟩, ⟨"b", [], []⟩])).1 = .error "disk" ∧
    (∀ cs, Request.applyChanges [⟨"a", [], []⟩, ⟨"b", [], []⟩] = .applyChanges cs → ∃ k < cs.length,
      handleRequest id Store.empty [none, none, some "disk"] (.applyChanges (cs.take k)) =
        (.ok, (handleRequest id Store.empty [none, none, some "disk"] (.applyChanges [⟨"a", [], []⟩, ⟨"b", [], []⟩])).2) ∧
      (handleRequest id Store.empty [none, none, some "disk"] (.applyChanges (cs.take (k + 1)))).1 = .error "disk" ∧
      (handleRequest id Store.empty [none, none, some "disk"] (.applyChanges [⟨"a", [], []⟩, ⟨"b", [], []⟩])).2 =
        (handleRequest id Store.empty [] (.applyChanges (cs.take k))).2) ∧
    ((∀ cs, Request.applyChanges [⟨"a", [], []⟩, ⟨"b", [], []⟩] ≠ .applyChanges cs) →
      (handleRequest id Store.empty [none, none, some "disk"] (.applyChanges [⟨"a", [], []⟩, ⟨"b", [], []⟩])).2 = Store.empty) :=
  have h : (handleRequest id Store.empty [none, none, some "disk"] (.applyChanges [⟨"a", [], []⟩, ⟨"b", [], []⟩])).1 = .error "disk" := rfl
  ⟨h, @error_reply_keeps_committed_changes id Store.empty _ _ _ h⟩

/-- With any hash function, a batch of two changes whose second read fails replies an error after
committing the first change. -/
theorem error_reply_after_committed_change :
    ¬ ∃ blake3 : Bytes → Bytes, ∀ (s : Store) (fs : Faults) (req : Request) (e : String),
      (handleRequest blake3 s fs req).1 = .error e → (handleRequest blake3 s fs req).2 = s := by
  rintro ⟨blake3, h⟩
  have := congrArg (fun s => s.documents.get "a")
    (h Store.empty [none, none, some "disk"] (.applyChanges [⟨"a", [], []⟩, ⟨"b", [], []⟩]) "disk"
      (by simp [handleRequest, applyChanges, Store.getDocHash, Store.putDocument, Store.empty]))
  simp [handleRequest, applyChanges, Store.getDocHash, Store.putDocument, Store.empty] at this

end KeyringStore.Consistency
