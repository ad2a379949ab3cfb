import KeyringStore.Dispatcher

/-! # Failed transactions

A transaction that fails is rolled back, and a request stops at its first failed transaction. So a
request that meets failures leaves the store where some request leaves it without any: where it was,
where the same request leaves it, or, for `ApplyChanges`, where the batch cut before the failing
change leaves it (`handleRequest_faulty`). `CleanReachable` holds of the stores that requests reach
from the empty store when no transaction fails.

* `handleRequest_fail_stop`: under failures a request does exactly what it does without them, or
  replies `Error` and leaves a store that a request without failures leaves;
* `reachable_iff_cleanReachable`: failures add no reachable store: what requests reach from the empty
  store when transactions may fail is what they reach when none does. -/

namespace KeyringStore.Rollback

open KeyringStore.Redb KeyringStore.Protocol KeyringStore.Storage KeyringStore.Dispatcher

variable (blake3 : Bytes → Bytes)

/-- The stores that some sequence of requests, none of whose transactions fails, leads to from the
empty store. -/
inductive CleanReachable : Store → Prop
  | empty : CleanReachable Store.empty
  | step {s : Store} (req : Request) : CleanReachable s → CleanReachable (handleRequest blake3 s [] req).2

/-- `ApplyChanges` under failures ends where the batch cut before the failing change ends without
them. -/
theorem applyChanges_faulty : ∀ (s : Store) (fs : Faults) (cs : List Change),
    ∃ k, (applyChanges blake3 s fs cs).2 = (applyChanges blake3 s [] (cs.take k)).2
  | s, _, [] => ⟨0, rfl⟩
  | s, fs, c :: cs => by
    rw [applyChanges]
    split
    · exact ⟨0, rfl⟩
    · rename_i existing hg
      obtain ⟨hf, rfl⟩ := eq_of_txn_ok hg
      split_ifs with he
      · obtain ⟨k, hk⟩ := applyChanges_faulty s fs.tail cs
        exact ⟨k + 1, by simp [hk, applyChanges, Store.getDocHash, he]⟩
      · split
        · exact ⟨0, rfl⟩
        · rename_i s' hp
          obtain ⟨hf', hs'⟩ := eq_of_txn_ok hp
          obtain ⟨k, hk⟩ := applyChanges_faulty s' fs.tail.tail cs
          exact ⟨k + 1, by simp [hk, applyChanges, Store.getDocHash, Store.putDocument, he, hs']⟩

theorem getChanges_store (s : Store) (fs : Faults) (knownRoots : List Bytes) :
    (handleRequest blake3 s fs (.getChanges knownRoots)).2 = s := by
  simp only [handleRequest]; split <;> (try split) <;> rfl

/-- A request other than `ApplyChanges` whose first transaction commits leaves the store as it
does without failures. -/
theorem handleRequest_of_commit {s : Store} {fs : Faults} (hf : fs.headD none = none) :
    ∀ req : Request, (∀ cs, req ≠ .applyChanges cs) →
      (handleRequest blake3 s fs req).2 = (handleRequest blake3 s [] req).2
  | .applyChanges cs, h => absurd rfl (h cs)
  | .getChanges knownRoots, _ => by rw [getChanges_store, getChanges_store]
  | .putBlob _, _ | .getBlob _, _ | .hasBlob _, _ | .putDocument _ _ _, _ | .getDocument _, _
  | .deleteDocument _, _ | .listDocuments, _ | .getRoots _, _ => by
    simp only [handleRequest, hf, List.headD_nil]

/-- A request other than `ApplyChanges` whose first transaction aborts leaves the store as it was. -/
theorem handleRequest_of_abort {s : Store} {fs : Faults} {e : String} (hf : fs.headD none = some e) :
    ∀ req : Request, (∀ cs, req ≠ .applyChanges cs) → (handleRequest blake3 s fs req).2 = s
  | .applyChanges cs, h => absurd rfl (h cs)
  | .getChanges knownRoots, _ => getChanges_store blake3 s fs knownRoots
  | .putBlob _, _ | .getBlob _, _ | .hasBlob _, _ | .putDocument _ _ _, _ | .getDocument _, _
  | .deleteDocument _, _ | .listDocuments, _ | .getRoots _, _ => by
    simp only [handleRequest, hf, Store.putBlob, Store.getBlob, Store.hasBlob, Store.putDocument,
      Store.getDocument, Store.deleteDocument, Store.listDocuments, Store.allDocHashes,
      Store.getDocHashes, txn_some, ite_self]

/-- **One request under failures.** It leaves the store where it was, or where some request handled
without failure leaves it. -/
theorem handleRequest_faulty (s : Store) (fs : Faults) (req : Request) :
    (handleRequest blake3 s fs req).2 = s ∨
      ∃ req', (handleRequest blake3 s fs req).2 = (handleRequest blake3 s [] req').2 := by
  by_cases hreq : ∃ cs, req = .applyChanges cs
  · obtain ⟨cs, rfl⟩ := hreq
    obtain ⟨k, hk⟩ := applyChanges_faulty blake3 s fs cs
    exact .inr ⟨.applyChanges (cs.take k), hk⟩
  · have hreq : ∀ cs, req ≠ .applyChanges cs := fun cs h => hreq ⟨cs, h⟩
    cases hf : fs.headD none
    · exact .inr ⟨req, handleRequest_of_commit blake3 hf req hreq⟩
    · exact .inl (handleRequest_of_abort blake3 hf req hreq)

/-! ### Replies under failures -/

/-- The `GetChanges` loop under failures gives what it gives without them, or an error. -/
theorem collectChanges_eq_or_error (s : Store) (known : List Bytes) :
    ∀ (fs : Faults) (pairs : List (String × Bytes)),
      collectChanges s known fs pairs = collectChanges s known [] pairs ∨
        ∃ e, collectChanges s known fs pairs = .error e
  | _, [] => .inl rfl
  | fs, (docId, hash) :: rest => by
    simp only [collectChanges, List.headD_nil, List.tail_nil]
    split_ifs
    · exact collectChanges_eq_or_error s known fs rest
    · cases hf : fs.headD none with
      | some e => exact .inr ⟨e, by simp [Store.getDocument]⟩
      | none =>
        simp only [Store.getDocument, txn_none]
        rcases collectChanges_eq_or_error s known fs.tail rest with h | ⟨e, h⟩
        · rw [h]
          exact .inl rfl
        · cases s.document docId
          · exact .inr ⟨e, h⟩
          · exact .inr ⟨e, by rw [h]; rfl⟩

/-- The `ApplyChanges` loop under failures does what it does without them, or replies an error. -/
theorem applyChanges_eq_or_error : ∀ (s : Store) (fs : Faults) (cs : List Change),
    applyChanges blake3 s fs cs = applyChanges blake3 s [] cs ∨
      ∃ e, (applyChanges blake3 s fs cs).1 = .error e
  | s, _, [] => .inl rfl
  | s, fs, c :: cs => by
    rw [applyChanges]
    split
    · exact .inr ⟨_, rfl⟩
    · rename_i existing hg
      obtain ⟨hf, rfl⟩ := eq_of_txn_ok hg
      split_ifs with he
      · refine (applyChanges_eq_or_error s fs.tail cs).imp (fun h => ?_) id
        simp [h, applyChanges, Store.getDocHash, he]
      · split
        · exact .inr ⟨_, rfl⟩
        · rename_i s' hp
          obtain ⟨hf', hs'⟩ := eq_of_txn_ok hp
          refine (applyChanges_eq_or_error s' fs.tail.tail cs).imp (fun h => ?_) id
          simp [h, applyChanges, Store.getDocHash, Store.putDocument, he, hs']

/-- A request under failures does what it does without them, reply and store, or replies an
error. -/
theorem handleRequest_eq_or_error (s : Store) (fs : Faults) :
    ∀ req : Request, handleRequest blake3 s fs req = handleRequest blake3 s [] req ∨
      ∃ e, (handleRequest blake3 s fs req).1 = .error e
  | .applyChanges cs => applyChanges_eq_or_error blake3 s fs cs
  | .getChanges knownRoots => by
    cases hf : fs.headD none with
    | some e => exact .inr ⟨e, by simp only [handleRequest, hf, Store.allDocHashes, txn_some]⟩
    | none =>
      simp only [handleRequest, hf, List.headD_nil, List.tail_nil, Store.allDocHashes, txn_none]
      rcases collectChanges_eq_or_error s knownRoots fs.tail s.docHashes.entries with h | ⟨e, h⟩
      · rw [h]
        exact .inl rfl
      · exact .inr ⟨e, by rw [h]⟩
  | .putBlob _ | .getBlob _ | .hasBlob _ | .putDocument _ _ _ | .getDocument _
  | .deleteDocument _ | .listDocuments | .getRoots _ => by
    cases hf : fs.headD none with
    | none => exact .inl (by simp only [handleRequest, hf, List.headD_nil])
    | some e =>
      refine .inr ⟨e, ?_⟩
      simp only [handleRequest, hf, Store.putBlob, Store.getBlob, Store.hasBlob, Store.putDocument,
        Store.getDocument, Store.deleteDocument, Store.listDocuments, Store.allDocHashes,
        Store.getDocHashes, txn_some, ite_self]

/-- **Failures are fail-stop.** Under any failures a request either does exactly what it does
without them, reply and store, or replies `Error` and leaves the store where some request handled
without failure leaves it. -/
theorem handleRequest_fail_stop (s : Store) (fs : Faults) (req : Request) :
    handleRequest blake3 s fs req = handleRequest blake3 s [] req ∨
      ∃ e req', (handleRequest blake3 s fs req).1 = .error e ∧
        (handleRequest blake3 s fs req).2 = (handleRequest blake3 s [] req').2 := by
  refine (handleRequest_eq_or_error blake3 s fs req).imp id fun ⟨e, he⟩ => ?_
  rcases handleRequest_faulty blake3 s fs req with hs | ⟨req', hs⟩
  · exact ⟨e, .listDocuments, he, hs⟩
  · exact ⟨e, req', he, hs⟩

theorem CleanReachable.handleRequest {s : Store} (hs : CleanReachable blake3 s) (fs : Faults)
    (req : Request) : CleanReachable blake3 (handleRequest blake3 s fs req).2 := by
  rcases handleRequest_faulty blake3 s fs req with h | ⟨req', h⟩
  · rw [h]; exact hs
  · rw [h]; exact hs.step req'

/-- **Failures reach no new store.** The stores that requests reach from the empty store when
transactions may fail are exactly those they reach when none does. -/
theorem reachable_iff_cleanReachable {s : Store} : Reachable blake3 s ↔ CleanReachable blake3 s := by
  constructor
  · intro h
    induction h with
    | empty => exact .empty
    | step fs req _ ih => exact ih.handleRequest blake3 fs req
  · intro h
    induction h with
    | empty => exact .empty
    | step req _ ih => exact .step [] req ih

end KeyringStore.Rollback
