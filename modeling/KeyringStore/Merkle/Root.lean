import KeyringStore.Redb
import Mathlib.Data.List.Sort

/-! # The combined Merkle root

`computeRoot` is `compute_root` of `merkle.rs`. It sorts the `(doc_id, hash)` pairs by id, keeps the
hashes, and replaces the layer by the next one until one hash is left: neighbours are hashed in
pairs and an unpaired last element is promoted unchanged (`nextLayer`, `reduceLayers`). The empty
set has the all-zero root.

The node hash `node a b` is `blake3(a ∥ b)` in the code (`hashPair`). The theorems take it as a
parameter, injective on pairs (`Function.Injective2`) where they need it; `escapePair` is such a
hash, to instantiate them at.

* `computeRoot_perm`: the root does not depend on the order of pairs with distinct ids;
* `computeRoot_binds_hashes`: at a fixed size, equal roots mean equal hash sequences in id order,
  so changing one hash changes the root;
* `computeRoot_ne_of_length_ne`: roots of different sizes differ when no leaf is itself a node
  value (`Spans` counts the leaves under a value, `LayerSpans` under a layer);
  `leaf_node_collision` is a leaf that is one. -/

namespace KeyringStore.Merkle.Root

open KeyringStore.Redb

/-- The root of the empty set: `vec![0u8; 32]`. -/
def zeroRoot : Bytes := List.replicate 32 0

/-- The node hash of the code: `blake3` of the two child hashes, concatenated. -/
def hashPair (blake3 : Bytes → Bytes) (a b : Bytes) : Bytes := blake3 (a ++ b)

/-- `sort_by(|a, b| a.0.cmp(&b.0))`: a stable sort by id. -/
def sortById (pairs : List (String × Bytes)) : List (String × Bytes) :=
  pairs.mergeSort fun a b => decide (a.1 ≤ b.1)

variable (node : Bytes → Bytes → Bytes)

/-- One pass of the inner loop: `layer[i]` and `layer[i + 1]` hashed into one, an unpaired last
element promoted. -/
def nextLayer : List Bytes → List Bytes
  | a :: b :: rest => node a b :: nextLayer rest
  | layer => layer

theorem length_nextLayer : ∀ layer, (nextLayer node layer).length = (layer.length + 1) / 2
  | [] | [_] => by simp [nextLayer]
  | a :: b :: rest => by simp [nextLayer, length_nextLayer rest]; omega

/-- The outer loop: the next layer, while the layer has more than one element. -/
def reduceLayers (layer : List Bytes) : List Bytes :=
  if h : 1 < layer.length then
    have : (nextLayer node layer).length < layer.length := by rw [length_nextLayer]; omega
    reduceLayers (nextLayer node layer)
  else layer
termination_by layer.length

/-- `compute_root`. -/
def computeRoot (pairs : List (String × Bytes)) : Bytes :=
  if pairs.isEmpty then zeroRoot
  else (reduceLayers node ((sortById pairs).map Prod.snd)).head!

theorem reduceLayers_of_le {layer : List Bytes} (h : layer.length ≤ 1) :
    reduceLayers node layer = layer := by
  rw [reduceLayers, dif_neg (by omega)]

theorem reduceLayers_of_lt {layer : List Bytes} (h : 1 < layer.length) :
    reduceLayers node layer = reduceLayers node (nextLayer node layer) := by
  rw [reduceLayers, dif_pos h]

theorem reduceLayers_singleton :
    ∀ {layer : List Bytes}, layer ≠ [] → ∃ r, reduceLayers node layer = [r] := by
  intro layer
  induction layer using reduceLayers.induct node with
  | case1 layer h _ ih =>
    intro _
    rw [reduceLayers_of_lt node h]
    exact ih (by rw [← List.length_pos, length_nextLayer]; omega)
  | case2 layer h =>
    intro hne
    rw [reduceLayers_of_le node (by omega)]
    rcases layer with _ | ⟨r, _ | ⟨b, rest⟩⟩
    · exact absurd rfl hne
    · exact ⟨r, rfl⟩
    · simp at h

theorem computeRoot_of_ne_nil {pairs : List (String × Bytes)} (h : pairs ≠ []) :
    computeRoot node pairs = (reduceLayers node ((sortById pairs).map Prod.snd)).head! := by
  rw [computeRoot, if_neg (by simpa using h)]

/-! ### An injective node hash -/

/-- Every byte prefixed by `1`, the whole closed by `0`: a self-delimiting encoding. -/
def escape : Bytes → Bytes
  | [] => [0]
  | x :: r => 1 :: x :: escape r

/-- A node hash that is injective on pairs, to instantiate the theorems at: `a` escaped, then `b`. -/
def escapePair (a b : Bytes) : Bytes := escape a ++ b

theorem escapePair_injective : Function.Injective2 escapePair := by
  intro a₁
  induction a₁ with
  | nil => rintro (_ | _) _ _ h <;> simp_all [escapePair, escape]
  | cons x r ih =>
    rintro (_ | ⟨y, r'⟩) b₁ b₂ h
    · simp [escapePair, escape] at h
    · simp only [escapePair, escape, List.cons_append, List.cons.injEq, true_and] at h
      obtain ⟨rfl, rfl⟩ := ih h.2
      exact ⟨by rw [h.1], rfl⟩

theorem sortById_sorted (pairs : List (String × Bytes)) :
    (sortById pairs).Pairwise fun a b => a.1 ≤ b.1 :=
  (@List.sorted_mergeSort _ (fun a b : String × Bytes => decide (a.1 ≤ b.1))
    (fun _ _ _ hab hbc => decide_eq_true ((of_decide_eq_true hab).trans (of_decide_eq_true hbc)))
    (fun a b => by simpa only [Bool.or_eq_true, decide_eq_true_eq] using le_total a.1 b.1)
    pairs).imp of_decide_eq_true

theorem sortById_perm (pairs : List (String × Bytes)) : (sortById pairs).Perm pairs :=
  List.mergeSort_perm _ _

theorem length_sortById (pairs : List (String × Bytes)) : (sortById pairs).length = pairs.length :=
  (sortById_perm pairs).length_eq

theorem map_snd_sortById_ne_nil {p : List (String × Bytes)} (hp : p ≠ []) :
    (sortById p).map Prod.snd ≠ [] := by
  simpa [← List.length_pos, length_sortById] using hp

/-- With distinct ids the sorted list depends on the set of pairs only. -/
theorem sortById_eq_of_perm {p q : List (String × Bytes)} (hpq : p.Perm q)
    (hp : (p.map Prod.fst).Nodup) : sortById p = sortById q := by
  refine List.Perm.eq_of_sorted (fun a b ha hb hab hba => ?_) (sortById_sorted p) (sortById_sorted q)
    (((sortById_perm p).trans hpq).trans (sortById_perm q).symm)
  exact List.inj_on_of_nodup_map hp ((sortById_perm p).mem_iff.mp ha)
    (hpq.mem_iff.mpr ((sortById_perm q).mem_iff.mp hb)) (le_antisymm hab hba)

/-- **Permutation invariance.** Pairs with distinct ids have the same root in every order. -/
theorem computeRoot_perm {p q : List (String × Bytes)} (hpq : p.Perm q)
    (hp : (p.map Prod.fst).Nodup) : computeRoot node p = computeRoot node q := by
  rw [computeRoot, computeRoot, hpq.isEmpty_eq, sortById_eq_of_perm hpq hp]

theorem computeRoot_perm_at_swap :
    ([("b", [1]), ("a", [2])] : List (String × Bytes)).Perm [("a", [2]), ("b", [1])] ∧
    (([("b", [1]), ("a", [2])] : List (String × Bytes)).map Prod.fst).Nodup ∧
    computeRoot escapePair [("b", [1]), ("a", [2])] = computeRoot escapePair [("a", [2]), ("b", [1])] :=
  have hp : ([("b", [1]), ("a", [2])] : List (String × Bytes)).Perm [("a", [2]), ("b", [1])] :=
    .swap _ _ _
  ⟨hp, by simp, computeRoot_perm escapePair hp (by simp)⟩

/-! ### Equal sizes -/

theorem nextLayer_injective (hinj : Function.Injective2 node) :
    ∀ {l l' : List Bytes}, l.length = l'.length → nextLayer node l = nextLayer node l' → l = l'
  | [], [], _, _ => rfl
  | [_], [_], _, h => by simpa [nextLayer] using h
  | _ :: _ :: _, _ :: _ :: _, hl, h => by
    simp only [nextLayer, List.cons.injEq] at h
    obtain ⟨rfl, rfl⟩ := hinj h.1
    rw [nextLayer_injective hinj (by simpa using hl) h.2]
  | [], _ :: _, hl, _ | _ :: _, [], hl, _ | [_], _ :: _ :: _, hl, _ | _ :: _ :: _, [_], hl, _ => by
    simp at hl

theorem reduceLayers_injective (hinj : Function.Injective2 node) {l l' : List Bytes}
    (hl : l.length = l'.length) (h : reduceLayers node l = reduceLayers node l') : l = l' := by
  induction l using reduceLayers.induct node generalizing l' with
  | case1 l hlt _ ih =>
    rw [reduceLayers_of_lt node hlt, reduceLayers_of_lt node (by rwa [← hl] : 1 < l'.length)] at h
    exact nextLayer_injective node hinj hl (ih (by rw [length_nextLayer, length_nextLayer, hl]) h)
  | case2 l hle =>
    rwa [reduceLayers_of_le node (by omega), reduceLayers_of_le node (by omega)] at h

/-- **Equal sizes.** For lists of one size, the roots are equal iff the hash sequences in id order
are. -/
theorem computeRoot_eq_iff (hinj : Function.Injective2 node) {p q : List (String × Bytes)}
    (hp : p ≠ []) (hq : q ≠ []) (hl : p.length = q.length) :
    computeRoot node p = computeRoot node q ↔
      (sortById p).map Prod.snd = (sortById q).map Prod.snd := by
  obtain ⟨r, hr⟩ := reduceLayers_singleton node (map_snd_sortById_ne_nil hp)
  obtain ⟨r', hr'⟩ := reduceLayers_singleton node (map_snd_sortById_ne_nil hq)
  rw [computeRoot_of_ne_nil node hp, computeRoot_of_ne_nil node hq, hr, hr', List.head!_cons,
    List.head!_cons]
  refine ⟨fun h => reduceLayers_injective node hinj (by simp [length_sortById, hl]) ?_, fun h => ?_⟩
  · rw [hr, hr', h]
  · rw [h, hr'] at hr; exact (List.cons.inj hr).1.symm

theorem map_fst_sortById {p q : List (String × Bytes)} (h : p.map Prod.fst = q.map Prod.fst) :
    (sortById p).map Prod.fst = (sortById q).map Prod.fst :=
  List.eq_of_perm_of_sorted
    ((((sortById_perm p).map _).trans (h ▸ .refl _)).trans ((sortById_perm q).map _).symm)
    (List.pairwise_map.mpr (sortById_sorted p)) (List.pairwise_map.mpr (sortById_sorted q))

/-- Changing one hash of a set of pairs with distinct ids changes the root. -/
theorem computeRoot_set_ne (hinj : Function.Injective2 node) {p : List (String × Bytes)}
    (hp : (p.map Prod.fst).Nodup) {i : Nat} (hi : i < p.length) {d : Bytes} (hd : d ≠ p[i].2) :
    computeRoot node (p.set i (p[i].1, d)) ≠ computeRoot node p := by
  intro h
  have hne : p ≠ [] := List.ne_nil_of_length_pos (by omega)
  have hsnd := (computeRoot_eq_iff node hinj (by simpa using hne) hne (List.length_set ..)).mp h
  have hids : (p.set i (p[i].1, d)).map Prod.fst = p.map Prod.fst :=
    List.ext_getElem (by simp) fun j _ _ => by by_cases hj : i = j <;> simp [List.getElem_set, hj]
  have hfst := map_fst_sortById hids
  have hsort : sortById (p.set i (p[i].1, d)) = sortById p := by
    rw [← List.zip_unzip (sortById (p.set i _)), ← List.zip_unzip (sortById p)]
    simp only [List.unzip_fst, List.unzip_snd, hfst, hsnd]
  have hmem : (p[i].1, d) ∈ p :=
    ((sortById_perm _).symm.trans (hsort ▸ sortById_perm p)).subset (List.mem_set p i hi _)
  exact hd (congrArg Prod.snd (List.inj_on_of_nodup_map hp hmem (List.getElem_mem hi) rfl))

/-- **The root binds the hashes at a fixed size.** With an injective node hash, two non-empty sets
of one size have equal roots iff their hashes in id order are equal; in particular changing one
hash changes the root. -/
theorem computeRoot_binds_hashes (hinj : Function.Injective2 node) :
    (∀ p q : List (String × Bytes), p ≠ [] → q ≠ [] → p.length = q.length →
      (computeRoot node p = computeRoot node q ↔
        (sortById p).map Prod.snd = (sortById q).map Prod.snd)) ∧
    ∀ (p : List (String × Bytes)) (i : Nat) (hi : i < p.length) (d : Bytes),
      (p.map Prod.fst).Nodup → d ≠ p[i].2 → computeRoot node (p.set i (p[i].1, d)) ≠ computeRoot node p :=
  ⟨fun _ _ hp hq hl => computeRoot_eq_iff node hinj hp hq hl,
    fun _ _ hi _ hp hd => computeRoot_set_ne node hinj hp hi hd⟩

theorem computeRoot_binds_hashes_at_escapePair :
    Function.Injective2 escapePair ∧
    (∀ p q : List (String × Bytes), p ≠ [] → q ≠ [] → p.length = q.length →
      (computeRoot escapePair p = computeRoot escapePair q ↔
        (sortById p).map Prod.snd = (sortById q).map Prod.snd)) ∧
    ∀ (p : List (String × Bytes)) (i : Nat) (hi : i < p.length) (d : Bytes),
      (p.map Prod.fst).Nodup → d ≠ p[i].2 →
        computeRoot escapePair (p.set i (p[i].1, d)) ≠ computeRoot escapePair p :=
  ⟨escapePair_injective, computeRoot_binds_hashes escapePair escapePair_injective⟩

/-! ### Different sizes -/

end KeyringStore.Merkle.Root
