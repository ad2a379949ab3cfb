import KeyringStore.Utf8
import KeyringStore.Merkle.Root
import Mathlib.Data.List.Dedup
import Mathlib.Data.List.Sort

/-! # The difference of two root sets

`diffRoots` is `diff_roots` of `merkle.rs`. It collects each list of `(doc_id, hash)` pairs into a
`HashMap` (`collectMap`: the pairs inserted in turn, so a later pair of an id replaces an earlier
one), walks the `HashSet` of the ids of either map, pushes an id to `to_send` when only the local
map has it or the two hashes differ and to `to_request` when only the remote map has it or they
differ, and sorts both vectors.

A `HashMap` is modelled by the finite map of `Redb`, of which the code uses `get` and `insert` only.
The order in which the loop visits the `HashSet` is not fixed by the code; it is an input here, any
list of the ids of either map with each once (`KeyOrder`). The arm `(None, None) => unreachable!()`
is `none`.

* `digestOf`: the hash of an id in a list, that of its last pair, is what `collectMap` holds;
* `foldlM_diffStep`: the loop pushes, in visiting order, the ids that `sends` selects;
* `diffRoots_exact`: in every visiting order the result is the two lists, strictly ascending in
  byte order, of the ids one side has and the other lacks or holds with another hash; so
  `diff_roots(a, b)` is `diff_roots(b, a)` swapped;
* `diffRoots_empty_iff_perm`: for sets with distinct ids the diff is empty exactly when the two
  sets are equal, and then `compute_root` gives them one root. -/

namespace KeyringStore.Merkle.Diff

open KeyringStore.Redb KeyringStore.Utf8 KeyringStore.Merkle.Root

/-- `iter().map(..).collect::<HashMap<_, _>>()`: the pairs inserted in turn. -/
def collectMap (pairs : List (String × Bytes)) : Table String Bytes :=
  pairs.foldl (fun m p => m.insert p.1 p.2) .empty

/-- An order in which `for key in all_keys` visits the `HashSet` of the ids of either map: every
such id, once. -/
structure KeyOrder (localMap remoteMap : Table String Bytes) where
  keys : List String
  nodup : keys.Nodup
  mem_iff : ∀ id, id ∈ keys ↔ (localMap.get id).isSome ∨ (remoteMap.get id).isSome

/-- The set `local_map.keys().chain(remote_map.keys()).collect()`, listed once per id. Every pair of
maps has a visiting order, so a statement over all of them is never vacuous. -/
instance (localMap remoteMap : Table String Bytes) : Inhabited (KeyOrder localMap remoteMap) :=
  ⟨⟨(localMap.keys ++ remoteMap.keys).dedup, List.nodup_dedup _,
    fun id => by simp [List.mem_dedup, Table.mem_keys]⟩⟩

/-- One iteration of the loop: the `match` on the two lookups, pushing onto
`(to_send, to_request)`; `none` is the `unreachable!()` panic. -/
def diffStep (localMap remoteMap : Table String Bytes) (acc : List String × List String)
    (key : String) : Option (List String × List String) :=
  match localMap.get key, remoteMap.get key with
  | some lh, some rh => if lh = rh then some acc else some (acc.1 ++ [key], acc.2 ++ [key])
  | some _, none => some (acc.1 ++ [key], acc.2)
  | none, some _ => some (acc.1, acc.2 ++ [key])
  | none, none => none

/-- `diff_roots`, visiting `all_keys` in the order `order`; `to_send.sort()` and
`to_request.sort()` are `List.mergeSort` with the order of `String`. -/
def diffRoots (localRoots remoteRoots : List (String × Bytes))
    (order : KeyOrder (collectMap localRoots) (collectMap remoteRoots)) :
    Option (List String × List String) :=
  (order.keys.foldlM (diffStep (collectMap localRoots) (collectMap remoteRoots)) ([], [])).map
    fun acc => (acc.1.mergeSort, acc.2.mergeSort)

/-! ### The maps -/

/-- The hash of `id` in a list of pairs: that of its last pair. -/
def digestOf (pairs : List (String × Bytes)) (id : String) : Option Bytes :=
  (pairs.reverse.find? (·.1 = id)).map Prod.snd

theorem digestOf_cons (p : String × Bytes) (ps : List (String × Bytes)) (id : String) :
    digestOf (p :: ps) id = (digestOf ps id).or (if p.1 = id then some p.2 else none) := by
  rw [digestOf, digestOf, List.reverse_cons, List.find?_append]
  cases ps.reverse.find? (·.1 = id) <;> by_cases h : p.1 = id <;> simp [h]

theorem get_foldl_insert (id : String) : ∀ (pairs : List (String × Bytes)) (m : Table String Bytes),
    (pairs.foldl (fun m p => m.insert p.1 p.2) m).get id = (digestOf pairs id).or (m.get id)
  | [], _ => rfl
  | p :: ps, m => by
    rw [List.foldl_cons, get_foldl_insert id ps, Table.get_insert, digestOf_cons]
    cases digestOf ps id <;> by_cases h : id = p.1 <;> simp [h, eq_comm]

theorem get_collectMap (pairs : List (String × Bytes)) (id : String) :
    (collectMap pairs).get id = digestOf pairs id := by
  rw [collectMap, get_foldl_insert, Table.get_empty, Option.or_none]

/-! ### The loop -/

/-- Whether the loop pushes `id` for sending from the side `m` to the side `m'`: `m` has it, and
`m'` lacks it or holds another hash. -/
def sends (m m' : Table String Bytes) (id : String) : Bool :=
  (m.get id).isSome && decide (m'.get id ≠ m.get id)

variable {localMap remoteMap : Table String Bytes}

/-- One iteration on an id of either map pushes it where `sends` says. -/
theorem diffStep_eq {key : String} (hkey : (localMap.get key).isSome ∨ (remoteMap.get key).isSome)
    (acc : List String × List String) :
    diffStep localMap remoteMap acc key = some (acc.1 ++ [key].filter (sends localMap remoteMap),
      acc.2 ++ [key].filter (sends remoteMap localMap)) := by
  unfold diffStep sends
  rcases hl : localMap.get key with _ | lh <;> rcases hr : remoteMap.get key with _ | rh
  · simp [hl, hr] at hkey
  · simp [hl, hr]
  · simp [hl, hr]
  · by_cases h : lh = rh
    · simp [hl, hr, h]
    · simp [hl, hr, h, Ne.symm h]

/-- **The loop.** Over ids of either map, the loop pushes to each vector, in visiting order, the ids
that `sends` selects for it. -/
theorem foldlM_diffStep : ∀ (keys : List String),
    (∀ k ∈ keys, (localMap.get k).isSome ∨ (remoteMap.get k).isSome) →
    ∀ acc : List String × List String, keys.foldlM (diffStep localMap remoteMap) acc =
      some (acc.1 ++ keys.filter (sends localMap remoteMap),
        acc.2 ++ keys.filter (sends remoteMap localMap))
  | [], _, acc => by simp
  | k :: keys, h, acc => by
    rw [List.foldlM_cons, diffStep_eq (h k (List.mem_cons_self k keys))]
    refine (foldlM_diffStep keys (fun k' hk' => h k' (List.mem_cons_of_mem k hk')) _).trans ?_
    simp only [List.append_assoc, ← List.filter_append, List.singleton_append]

theorem diffRoots_eq (localRoots remoteRoots : List (String × Bytes))
    (order : KeyOrder (collectMap localRoots) (collectMap remoteRoots)) :
    diffRoots localRoots remoteRoots order =
      some ((order.keys.filter (sends (collectMap localRoots) (collectMap remoteRoots))).mergeSort,
        (order.keys.filter (sends (collectMap remoteRoots) (collectMap localRoots))).mergeSort) := by
  rw [diffRoots, foldlM_diffStep _ fun k hk => (order.mem_iff k).mp hk]
  rfl

theorem mem_filter_sends (order : KeyOrder localMap remoteMap) (id : String) :
    id ∈ order.keys.filter (sends localMap remoteMap) ↔
      (localMap.get id).isSome ∧ remoteMap.get id ≠ localMap.get id := by
  simp only [List.mem_filter, order.mem_iff, sends, Bool.and_eq_true, decide_eq_true_eq]
  exact and_iff_right_of_imp fun h => .inl h.1

/-- The same visiting order, the two maps exchanged. -/
def KeyOrder.swap (order : KeyOrder localMap remoteMap) : KeyOrder remoteMap localMap :=
  ⟨order.keys, order.nodup, fun id => (order.mem_iff id).trans or_comm⟩

theorem mem_filter_sends_swap (order : KeyOrder localMap remoteMap) (id : String) :
    id ∈ order.keys.filter (sends remoteMap localMap) ↔
      (remoteMap.get id).isSome ∧ localMap.get id ≠ remoteMap.get id :=
  mem_filter_sends order.swap id

/-- Two visiting orders of the same ids, whichever map is called local. -/
theorem KeyOrder.perm (order : KeyOrder localMap remoteMap) (order' : KeyOrder remoteMap localMap) :
    order.keys.Perm order'.keys :=
  (List.perm_ext_iff_of_nodup order.nodup order'.nodup).mpr fun id => by
    rw [order.mem_iff, order'.mem_iff, or_comm]

/-! ### The sort -/

/-- Sorting ids without repeats leaves them strictly ascending in byte order. -/
theorem mergeSort_asBytes_lt {ids : List String} (h : ids.Nodup) :
    ids.mergeSort.Pairwise fun a b => asBytes a < asBytes b :=
  ((List.sorted_mergeSort' ids).and ((List.mergeSort_perm ids _).nodup_iff.mpr h)).imp
    fun h => lt_iff_asBytes_lt.mp (lt_of_le_of_ne h.1 h.2)

theorem mergeSort_eq_of_perm {ids ids' : List String} (h : ids.Perm ids') :
    ids.mergeSort = ids'.mergeSort :=
  List.eq_of_perm_of_sorted ((List.mergeSort_perm ids _).trans (h.trans (List.mergeSort_perm ids' _).symm))
    (List.sorted_mergeSort' ids) (List.sorted_mergeSort' ids')

theorem mergeSort_eq_nil_iff {ids : List String} : ids.mergeSort = [] ↔ ids = [] := by
  rw [← List.length_eq_zero, List.length_mergeSort, List.length_eq_zero]

/-- **The exact difference.** In every order the `HashSet` may visit the ids, `diff_roots` returns
(no panic) the ids the local list has whose hash the remote list lacks or holds otherwise, and those
the remote list has whose hash the local list lacks or holds otherwise, each strictly ascending in
byte order; an id's hash in a list is that of its last pair. Hence `diff_roots(a, b)` is
`diff_roots(b, a)` swapped, whichever orders the two calls visit. -/
theorem diffRoots_exact (localRoots remoteRoots : List (String × Bytes)) :
    (∀ order : KeyOrder (collectMap localRoots) (collectMap remoteRoots),
      ∃ toSend toRequest, diffRoots localRoots remoteRoots order = some (toSend, toRequest) ∧
        toSend.Pairwise (fun a b => asBytes a < asBytes b) ∧
        (∀ id, id ∈ toSend ↔
          (digestOf localRoots id).isSome ∧ digestOf remoteRoots id ≠ digestOf localRoots id) ∧
        toRequest.Pairwise (fun a b => asBytes a < asBytes b) ∧
        (∀ id, id ∈ toRequest ↔
          (digestOf remoteRoots id).isSome ∧ digestOf localRoots id ≠ digestOf remoteRoots id)) ∧
    ∀ (order : KeyOrder (collectMap localRoots) (collectMap remoteRoots))
      (order' : KeyOrder (collectMap remoteRoots) (collectMap localRoots)),
      (diffRoots localRoots remoteRoots order).map Prod.swap =
        diffRoots remoteRoots localRoots order' := by
  refine ⟨fun order => ⟨_, _, diffRoots_eq localRoots remoteRoots order,
    mergeSort_asBytes_lt (order.nodup.filter _), fun id => ?_,
    mergeSort_asBytes_lt (order.nodup.filter _), fun id => ?_⟩, fun order order' => ?_⟩
  · rw [List.mem_mergeSort, mem_filter_sends, get_collectMap, get_collectMap]
  · rw [List.mem_mergeSort, mem_filter_sends_swap, get_collectMap, get_collectMap]
  · rw [diffRoots_eq, diffRoots_eq, Option.map_some', Prod.swap_prod_mk,
      mergeSort_eq_of_perm ((order.perm order').filter _),
      mergeSort_eq_of_perm ((order.perm order').filter _)]

/-! ### Empty differences -/

/-- With distinct ids, an id's hash is the hash of its one pair. -/
theorem digestOf_eq_some_iff : ∀ {pairs : List (String × Bytes)}, (pairs.map Prod.fst).Nodup →
    ∀ {id : String} {d : Bytes}, digestOf pairs id = some d ↔ (id, d) ∈ pairs
  | [], _, _, _ => by simp [digestOf]
  | p :: ps, h, id, d => by
    rw [List.map_cons, List.nodup_cons] at h
    rw [digestOf_cons, List.mem_cons]
    by_cases hp : p.1 = id
    · have hid : ∀ d', (id, d') ∉ ps := fun d' hd' => h.1 (hp ▸ List.mem_map_of_mem Prod.fst hd')
      have hnone : digestOf ps id = none := Option.eq_none_iff_forall_not_mem.mpr fun d' hd' =>
        hid d' ((digestOf_eq_some_iff h.2).mp hd')
      obtain ⟨k, v⟩ := p
      subst hp
      simp [hnone, hid, eq_comm]
    · simp [hp, digestOf_eq_some_iff h.2, Prod.ext_iff, Ne.symm hp]

theorem perm_iff_digestOf {a b : List (String × Bytes)} (ha : (a.map Prod.fst).Nodup)
    (hb : (b.map Prod.fst).Nodup) : a.Perm b ↔ ∀ id, digestOf a id = digestOf b id := by
  rw [List.perm_ext_iff_of_nodup (ha.of_map _) (hb.of_map _)]
  refine ⟨fun h id => Option.ext fun d => ?_, fun h ⟨id, d⟩ => ?_⟩
  · rw [Option.mem_def, Option.mem_def, digestOf_eq_some_iff ha, digestOf_eq_some_iff hb, h]
  · rw [← digestOf_eq_some_iff ha, ← digestOf_eq_some_iff hb, h]

/-- The diff is empty exactly when the two lists give every id the same hash. -/
theorem diffRoots_eq_nil_iff {a b : List (String × Bytes)}
    (order : KeyOrder (collectMap a) (collectMap b)) :
    diffRoots a b order = some ([], []) ↔ ∀ id, digestOf a id = digestOf b id := by
  rw [diffRoots_eq, Option.some.injEq, Prod.mk.injEq, mergeSort_eq_nil_iff, mergeSort_eq_nil_iff,
    List.eq_nil_iff_forall_not_mem, List.eq_nil_iff_forall_not_mem, ← forall_and]
  refine forall_congr' fun id => ?_
  rw [mem_filter_sends, mem_filter_sends_swap, get_collectMap, get_collectMap]
  cases digestOf a id <;> cases digestOf b id <;> simp [eq_comm]

/-- **An empty diff means one root.** Two root sets, each with distinct ids, get an empty
`diff_roots` (in any visiting order) exactly when they hold the same pairs; their combined roots
are then equal, whatever the node hash. -/
theorem diffRoots_empty_iff_perm {a b : List (String × Bytes)} (ha : (a.map Prod.fst).Nodup)
    (hb : (b.map Prod.fst).Nodup) (order : KeyOrder (collectMap a) (collectMap b)) :
    (diffRoots a b order = some ([], []) ↔ a.Perm b) ∧
      (diffRoots a b order = some ([], []) → ∀ node, computeRoot node a = computeRoot node b) := by
  have hiff : diffRoots a b order = some ([], []) ↔ a.Perm b :=
    (diffRoots_eq_nil_iff order).trans (perm_iff_digestOf ha hb).symm
  refine ⟨hiff, fun h node => ?_⟩
  have hp := hiff.mp h
  rw [computeRoot, computeRoot, hp.isEmpty_eq, sortById_eq_of_perm hp ha]

theorem diffRoots_empty_iff_perm_at_swap :
    (([("a", [1]), ("b", [2])] : List (String × Bytes)).map Prod.fst).Nodup ∧
    (([("b", [2]), ("a", [1])] : List (String × Bytes)).map Prod.fst).Nodup ∧
    ((diffRoots [("a", [1]), ("b", [2])] [("b", [2]), ("a", [1])] default = some ([], []) ↔
        ([("a", [1]), ("b", [2])] : List (String × Bytes)).Perm [("b", [2]), ("a", [1])]) ∧
      (diffRoots [("a", [1]), ("b", [2])] [("b", [2]), ("a", [1])] default = some ([], []) →
        ∀ node, computeRoot node [("a", [1]), ("b", [2])] =
          computeRoot node [("b", [2]), ("a", [1])])) :=
  have ha : (([("a", [1]), ("b", [2])] : List (String × Bytes)).map Prod.fst).Nodup := by simp
  have hb : (([("b", [2]), ("a", [1])] : List (String × Bytes)).map Prod.fst).Nodup := by simp
  ⟨ha, hb, diffRoots_empty_iff_perm ha hb default⟩

end KeyringStore.Merkle.Diff
