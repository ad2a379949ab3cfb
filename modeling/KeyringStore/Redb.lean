import Mathlib.Data.List.Lex
import Mathlib.Data.String.Basic

/-! # Tables of the embedded database

The store keeps its state in redb tables. A redb table is an ordered map: `get` looks a key up,
`insert` adds or overwrites a binding, `remove` drops one, and iteration returns the bindings in
ascending key order. A table is modelled as that iteration, the list of its entries; the strict key
order is a field of `Table`, so a table with a repeated key cannot be built.

* `get_insert`, `get_remove`: what a read sees after a write;
* `mem_entries`: a binding is iterated iff `get` finds it;
* `ext`: two tables that answer every `get` alike are equal, so later modules compare tables by their
  lookups only. -/

namespace KeyringStore.Redb

/-- Raw bytes: `Vec<u8>` and `&[u8]`. -/
abbrev Bytes := List UInt8

/-- Bytes compare by value, so `Bytes` is ordered byte-wise, as redb orders `&[u8]` keys. -/
instance uint8LinearOrder : LinearOrder UInt8 :=
  LinearOrder.lift' UInt8.toNat fun _ _ h => UInt8.eq_of_val_eq (Fin.ext h)

/-- `UInt8.toNat_ofNat`, spelled with `UInt8.ofNat` so that it rewrites the model's bytes. -/
theorem uint8_toNat_ofNat (n : Nat) : (UInt8.ofNat n).toNat = n % 256 := UInt8.toNat_ofNat n

/-- A byte is determined by its value. -/
theorem uint8_ofNat_eq {n : Nat} {b : UInt8} (h : n % 256 = b.toNat) : UInt8.ofNat n = b :=
  UInt8.eq_of_val_eq (Fin.ext (show (UInt8.ofNat n).toNat = b.toNat by rw [uint8_toNat_ofNat, h]))

/-- A redb table with keys `K` and values `V`: its entries in strictly ascending key order. -/
structure Table (K V : Type) [LinearOrder K] where
  entries : List (K × V)
  sorted : entries.Pairwise (fun a b => a.1 < b.1)

namespace Table

variable {K V W : Type} [LinearOrder K]

/-! ### Entry lists -/

/-- Lookup in an entry list: the value of the first entry with key `k`. -/
def find (k : K) : List (K × V) → Option V
  | [] => none
  | e :: es => if e.1 = k then some e.2 else find k es

/-- Insertion into an entry list at the place of `k` in the key order, replacing its old value. -/
def insertEntry (k : K) (v : V) : List (K × V) → List (K × V)
  | [] => [(k, v)]
  | e :: es =>
    if k < e.1 then (k, v) :: e :: es
    else if k = e.1 then (k, v) :: es
    else e :: insertEntry k v es

theorem find_insertEntry (k k' : K) (v : V) :
    ∀ es : List (K × V), find k' (insertEntry k v es) = if k' = k then some v else find k' es
  | [] => by simp [insertEntry, find, eq_comm]
  | e :: es => by
    have ih := find_insertEntry k k' v es
    unfold insertEntry
    split_ifs <;> simp_all [find, eq_comm]

theorem mem_insertEntry {k : K} {v : V} {e : K × V} :
    ∀ {es : List (K × V)}, e ∈ insertEntry k v es → e = (k, v) ∨ e ∈ es
  | [], h => by simpa [insertEntry] using h
  | e' :: es, h => by
    unfold insertEntry at h
    split_ifs at h <;> simp only [List.mem_cons] at h ⊢
    · exact h
    · exact h.imp_right .inr
    · exact h.elim (.inr ∘ .inl) fun h => (mem_insertEntry h).imp_right .inr

theorem sorted_insertEntry (k : K) (v : V) : ∀ {es : List (K × V)},
    es.Pairwise (fun a b => a.1 < b.1) → (insertEntry k v es).Pairwise (fun a b => a.1 < b.1)
  | [], _ => by simp [insertEntry]
  | e :: es, h => by
    rw [List.pairwise_cons] at h
    unfold insertEntry
    split_ifs with h1 h2
    · exact .cons (fun a ha => by
        rcases List.mem_cons.mp ha with rfl | ha
        exacts [h1, h1.trans (h.1 a ha)]) (.cons h.1 h.2)
    · exact .cons (fun a ha => h2 ▸ h.1 a ha) h.2
    · refine .cons (fun a ha => ?_) (sorted_insertEntry k v h.2)
      rcases mem_insertEntry ha with rfl | ha
      exacts [lt_of_le_of_ne (not_lt.mp h1) (Ne.symm h2), h.1 a ha]

theorem find_filter (k k' : K) :
    ∀ es : List (K × V), find k' (es.filter (·.1 ≠ k)) = if k' = k then none else find k' es
  | [] => by simp [find]
  | e :: es => by
    have ih := find_filter k k' es
    by_cases he : e.1 = k
    · subst he; by_cases hk : k' = e.1 <;> simp_all [find, List.filter_cons, Ne.symm]
    · by_cases hk : k' = k <;> simp_all [find, List.filter_cons]

theorem find_map (f : K → V → W) (k : K) : ∀ es : List (K × V),
    find k (es.map fun e => (e.1, f e.1 e.2)) = (find k es).map (f k)
  | [] => rfl
  | e :: es => by by_cases h : e.1 = k <;> simp [find, h, find_map f k es]

theorem mem_of_find {k : K} {v : V} : ∀ {es : List (K × V)}, find k es = some v → (k, v) ∈ es
  | [], h => by simp [find] at h
  | e :: es, h => by
    unfold find at h
    split_ifs at h with he
    · cases h; exact he ▸ List.mem_cons_self e es
    · exact List.mem_cons_of_mem e (mem_of_find h)

theorem find_of_mem {k : K} {v : V} : ∀ {es : List (K × V)},
    es.Pairwise (fun a b => a.1 < b.1) → (k, v) ∈ es → find k es = some v
  | [], _, h => by simp at h
  | e :: es, hs, h => by
    rw [List.pairwise_cons] at hs
    rcases List.mem_cons.mp h with rfl | h
    · simp [find]
    · rw [find, if_neg (hs.1 _ h).ne, find_of_mem hs.2 h]

/-! ### Tables -/

/-- The empty table, as `Store::open` creates it. -/
def empty : Table K V := ⟨[], .nil⟩

/-- `table.get(k)`. -/
def get (t : Table K V) (k : K) : Option V := find k t.entries

/-- `table.insert(k, v)`. -/
def insert (t : Table K V) (k : K) (v : V) : Table K V :=
  ⟨insertEntry k v t.entries, sorted_insertEntry k v t.sorted⟩

/-- `table.remove(k)`. -/
def remove (t : Table K V) (k : K) : Table K V :=
  ⟨t.entries.filter (·.1 ≠ k), t.sorted.sublist (List.filter_sublist _)⟩

/-- The keys, in iteration order. -/
def keys (t : Table K V) : List K := t.entries.map Prod.fst

/-- The table with the same keys and every value rewritten by `f`. -/
def mapVal (f : K → V → W) (t : Table K V) : Table K W :=
  ⟨t.entries.map fun e => (e.1, f e.1 e.2), List.pairwise_map.mpr t.sorted⟩

@[simp] theorem get_empty (k : K) : (empty : Table K V).get k = none := rfl

@[simp] theorem get_insert (t : Table K V) (k k' : K) (v : V) :
    (t.insert k v).get k' = if k' = k then some v else t.get k' :=
  find_insertEntry k k' v t.entries

@[simp] theorem get_remove (t : Table K V) (k k' : K) :
    (t.remove k).get k' = if k' = k then none else t.get k' :=
  find_filter k k' t.entries

@[simp] theorem get_mapVal (f : K → V → W) (t : Table K V) (k : K) :
    (t.mapVal f).get k = (t.get k).map (f k) :=
  find_map f k t.entries

@[simp] theorem entries_mapVal (f : K → V → W) (t : Table K V) :
    (t.mapVal f).entries = t.entries.map fun e => (e.1, f e.1 e.2) := rfl

@[simp] theorem keys_mapVal (f : K → V → W) (t : Table K V) : (t.mapVal f).keys = t.keys := by
  simp [keys, mapVal]

theorem mem_entries {t : Table K V} {k : K} {v : V} : (k, v) ∈ t.entries ↔ t.get k = some v :=
  ⟨find_of_mem t.sorted, mem_of_find⟩

theorem mem_keys {t : Table K V} {k : K} : k ∈ t.keys ↔ (t.get k).isSome := by
  simp [keys, Option.isSome_iff_exists, mem_entries]

theorem keys_sorted (t : Table K V) : t.keys.Pairwise (· < ·) :=
  List.pairwise_map.mpr t.sorted

theorem entries_nodup (t : Table K V) : t.entries.Nodup :=
  t.sorted.imp fun h he => (he ▸ h).false

/-- **Extensionality**: a table is determined by its lookups. -/
theorem ext {t t' : Table K V} (h : ∀ k, t.get k = t'.get k) : t = t' := by
  have hp : t.entries.Perm t'.entries := (List.perm_ext_iff_of_nodup t.entries_nodup
    t'.entries_nodup).mpr fun e => by rw [mem_entries, mem_entries, h]
  have he := hp.eq_of_sorted (fun _ _ _ _ h1 h2 => absurd (h1.trans h2) (lt_irrefl _))
    t.sorted t'.sorted
  cases t; cases t'; cases he; rfl

theorem remove_of_get_eq_none {t : Table K V} {k : K} (h : t.get k = none) : t.remove k = t :=
  ext fun k' => by by_cases hk : k' = k <;> simp [hk, h]

@[simp] theorem remove_remove (t : Table K V) (k : K) : (t.remove k).remove k = t.remove k :=
  remove_of_get_eq_none (by simp)

end Table

end KeyringStore.Redb
