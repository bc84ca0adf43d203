import Mathlib.Data.List.Pairwise
import Mathlib.Order.Defs.LinearOrder
import Mathlib.Order.Basic
import Mathlib.Algebra.Order.Group.Nat
import Mathlib.Data.List.Basic
import Mathlib.Tactic.Ring

/-! Finite maps kept as a list with strictly ascending keys, as an ordered
associative container iterates over them. Order and absence of duplicates are
part of the type, so a map is determined by its lookups (`ext_find`). -/

/-- Entries in ascending key order, each key once. -/
structure OrderedMap (κ ν : Type) [LinearOrder κ] where
  entries : List (κ × ν)
  ascending : entries.Pairwise (fun a b => a.1 < b.1)

namespace OrderedMap

variable {κ ν : Type} [LinearOrder κ]

instance [DecidableEq ν] : DecidableEq (OrderedMap κ ν) := fun a b =>
  decidable_of_iff (a.entries = b.entries) <| by
    cases a; cases b; simp

instance : EmptyCollection (OrderedMap κ ν) := ⟨⟨[], .nil⟩⟩

instance : Inhabited (OrderedMap κ ν) := ⟨∅⟩

def size (m : OrderedMap κ ν) : Nat := m.entries.length

/-- The value of the first entry for `k`. -/
def lookupEntry (k : κ) : List (κ × ν) → Option ν
  | [] => none
  | e :: es => if k = e.1 then some e.2 else lookupEntry k es

def find? (m : OrderedMap κ ν) (k : κ) : Option ν := lookupEntry k m.entries

/-- The entry for `k` replaced, or put where `k` belongs. -/
def insertEntry (k : κ) (v : ν) : List (κ × ν) → List (κ × ν)
  | [] => [(k, v)]
  | e :: es =>
    if k < e.1 then (k, v) :: e :: es
    else if k = e.1 then (k, v) :: es
    else e :: insertEntry k v es

theorem mem_insertEntry {k : κ} {v : ν} {e : κ × ν} {es : List (κ × ν)}
    (h : e ∈ insertEntry k v es) : e = (k, v) ∨ e ∈ es := by
  induction es with
  | nil => simpa [insertEntry] using h
  | cons e' es ih =>
    unfold insertEntry at h
    split_ifs at h with hlt heq
    · simpa using h
    · rcases List.mem_cons.mp h with h | h
      · exact Or.inl h
      · exact Or.inr (List.mem_cons_of_mem _ h)
    · rcases List.mem_cons.mp h with h | h
      · exact Or.inr (h ▸ List.mem_cons_self)
      · exact (ih h).imp_right (List.mem_cons_of_mem _)

theorem insertEntry_ascending (k : κ) (v : ν) {es : List (κ × ν)}
    (h : es.Pairwise (fun a b => a.1 < b.1)) :
    (insertEntry k v es).Pairwise (fun a b => a.1 < b.1) := by
  induction es with
  | nil => simp [insertEntry]
  | cons e es ih =>
    obtain ⟨hhead, htail⟩ := List.pairwise_cons.mp h
    unfold insertEntry
    split_ifs with hlt heq
    · refine List.pairwise_cons.mpr ⟨?_, h⟩
      intro b hb
      rcases List.mem_cons.mp hb with rfl | hb
      · exact hlt
      · exact hlt.trans (hhead b hb)
    · exact List.pairwise_cons.mpr ⟨fun b hb => heq ▸ hhead b hb, htail⟩
    · refine List.pairwise_cons.mpr ⟨?_, ih htail⟩
      intro b hb
      rcases mem_insertEntry hb with rfl | hb
      · exact lt_of_le_of_ne (not_lt.mp hlt) (Ne.symm heq)
      · exact hhead b hb

def insert (m : OrderedMap κ ν) (k : κ) (v : ν) : OrderedMap κ ν :=
  ⟨insertEntry k v m.entries, insertEntry_ascending k v m.ascending⟩

def erase (m : OrderedMap κ ν) (k : κ) : OrderedMap κ ν :=
  ⟨m.entries.filter (fun e => e.1 ≠ k), m.ascending.filter _⟩

/-! ## Lookups -/

@[simp] theorem entries_empty : (∅ : OrderedMap κ ν).entries = [] := rfl

@[simp] theorem find_empty (k : κ) : (∅ : OrderedMap κ ν).find? k = none := rfl

theorem lookup_insertEntry (k k' : κ) (v : ν) (es : List (κ × ν)) :
    lookupEntry k' (insertEntry k v es) = if k' = k then some v else lookupEntry k' es := by
  induction es with
  | nil => rfl
  | cons e es ih =>
    by_cases hlt : k < e.1
    · simp only [insertEntry, if_pos hlt, lookupEntry]
    · by_cases heq : k = e.1
      · rw [insertEntry, if_neg hlt, if_pos heq]
        grind [lookupEntry]
      · simp only [insertEntry, if_neg hlt, if_neg heq, lookupEntry, ih]
        grind

theorem find_insert (m : OrderedMap κ ν) (k k' : κ) (v : ν) :
    (m.insert k v).find? k' = if k' = k then some v else m.find? k' :=
  lookup_insertEntry k k' v m.entries

@[simp] theorem find_insert_self (m : OrderedMap κ ν) (k : κ) (v : ν) :
    (m.insert k v).find? k = some v := by
  rw [find_insert, if_pos rfl]

theorem find_insert_of_ne (m : OrderedMap κ ν) {k k' : κ} (v : ν) (h : k' ≠ k) :
    (m.insert k v).find? k' = m.find? k' := by
  rw [find_insert, if_neg h]

theorem lookup_filter (k k' : κ) (es : List (κ × ν)) :
    lookupEntry k' (es.filter (fun e => e.1 ≠ k)) =
      if k' = k then none else lookupEntry k' es := by
  induction es with
  | nil => simp [lookupEntry]
  | cons e es ih =>
    by_cases hek : e.1 = k
    · rw [List.filter_cons_of_neg (by simpa using hek), ih]
      grind [lookupEntry]
    · rw [List.filter_cons_of_pos (by simpa using hek)]
      grind [lookupEntry]

theorem find_erase (m : OrderedMap κ ν) (k k' : κ) :
    (m.erase k).find? k' = if k' = k then none else m.find? k' :=
  lookup_filter k k' m.entries

theorem mem_of_lookup {k : κ} {v : ν} {es : List (κ × ν)} (h : lookupEntry k es = some v) :
    (k, v) ∈ es := by
  induction es with
  | nil => simp [lookupEntry] at h
  | cons e es ih =>
    unfold lookupEntry at h
    split_ifs at h with hk
    · obtain rfl : e.2 = v := by simpa using h
      simp [hk]
    · exact List.mem_cons_of_mem _ (ih h)

theorem lookup_of_mem {k : κ} {v : ν} {es : List (κ × ν)}
    (hes : es.Pairwise (fun a b => a.1 < b.1)) (h : (k, v) ∈ es) : lookupEntry k es = some v := by
  induction es with
  | nil => simp at h
  | cons e es ih =>
    obtain ⟨hhead, htail⟩ := List.pairwise_cons.mp hes
    rcases List.mem_cons.mp h with rfl | h
    · simp [lookupEntry]
    · rw [lookupEntry, if_neg (hhead _ h).ne', ih htail h]

theorem find_eq_some {m : OrderedMap κ ν} {k : κ} {v : ν} :
    m.find? k = some v ↔ (k, v) ∈ m.entries :=
  ⟨mem_of_lookup, lookup_of_mem m.ascending⟩

theorem nodup_entries (m : OrderedMap κ ν) : m.entries.Nodup :=
  m.ascending.imp fun h heq => absurd (heq ▸ h) (lt_irrefl _)

/-- A map is determined by what it finds. -/
theorem ext_find {m m' : OrderedMap κ ν} (h : ∀ k, m.find? k = m'.find? k) : m = m' := by
  have hmem : ∀ e, e ∈ m.entries ↔ e ∈ m'.entries := by
    rintro ⟨k, v⟩
    rw [← find_eq_some, ← find_eq_some, h]
  have hperm : m.entries.Perm m'.entries :=
    (List.perm_ext_iff_of_nodup m.nodup_entries m'.nodup_entries).mpr hmem
  have heq : m.entries = m'.entries :=
    hperm.eq_of_pairwise (fun a b _ _ hab hba => absurd hab hba.not_gt) m.ascending m'.ascending
  cases m; cases m'; simpa using heq

/-! ## Sizes -/

theorem length_insertEntry_new {k : κ} (v : ν) {es : List (κ × ν)} (h : lookupEntry k es = none) :
    (insertEntry k v es).length = es.length + 1 := by
  induction es with
  | nil => rfl
  | cons e es ih =>
    unfold lookupEntry at h
    split_ifs at h with heq
    unfold insertEntry
    split_ifs
    · rfl
    · rw [List.length_cons, ih h, List.length_cons]

theorem size_insert_new {m : OrderedMap κ ν} {k : κ} (v : ν) (h : m.find? k = none) :
    (m.insert k v).size = m.size + 1 :=
  length_insertEntry_new v h

theorem length_insertEntry_le (k : κ) (v : ν) (es : List (κ × ν)) :
    (insertEntry k v es).length ≤ es.length + 1 := by
  induction es with
  | nil => rfl
  | cons e es ih =>
    unfold insertEntry
    split_ifs
    · rfl
    · exact Nat.le_succ _
    · exact Nat.succ_le_succ ih

theorem size_insert_le (m : OrderedMap κ ν) (k : κ) (v : ν) : (m.insert k v).size ≤ m.size + 1 :=
  length_insertEntry_le k v m.entries

theorem size_erase_le (m : OrderedMap κ ν) (k : κ) : (m.erase k).size ≤ m.size :=
  List.length_filter_le _ _

/-! ## Rebuilding a map from its entries -/

/-- Store the entries one after the other, later ones over earlier ones. -/
def store (m : OrderedMap κ ν) (es : List (κ × ν)) : OrderedMap κ ν :=
  es.foldl (fun m e => m.insert e.1 e.2) m

theorem find_store_of_not_mem {m : OrderedMap κ ν} {es : List (κ × ν)} {k : κ}
    (h : ∀ e ∈ es, e.1 ≠ k) : (m.store es).find? k = m.find? k := by
  induction es generalizing m with
  | nil => rfl
  | cons e es ih =>
    simp only [store, List.foldl_cons]
    have hrest : ((m.insert e.1 e.2).store es).find? k = (m.insert e.1 e.2).find? k :=
      ih fun e' he' => h e' (List.mem_cons_of_mem _ he')
    rw [find_insert_of_ne _ _ (h e List.mem_cons_self).symm] at hrest
    exact hrest

theorem find_store_of_mem {m : OrderedMap κ ν} {es : List (κ × ν)} {k : κ} {v : ν}
    (hes : es.Pairwise (fun a b => a.1 ≠ b.1)) (h : (k, v) ∈ es) :
    (m.store es).find? k = some v := by
  induction es generalizing m with
  | nil => simp at h
  | cons e es ih =>
    obtain ⟨hhead, htail⟩ := List.pairwise_cons.mp hes
    rcases List.mem_cons.mp h with rfl | h
    · have hrest : ((m.insert k v).store es).find? k = (m.insert k v).find? k :=
        find_store_of_not_mem fun e' he' => (hhead e' he').symm
      rw [find_insert_self] at hrest
      exact hrest
    · exact ih (m := m.insert e.1 e.2) htail h

theorem store_entries (m : OrderedMap κ ν) : (∅ : OrderedMap κ ν).store m.entries = m := by
  apply ext_find
  intro k
  cases hk : m.find? k with
  | some v =>
    exact find_store_of_mem (m.ascending.imp fun h => h.ne) (find_eq_some.mp hk)
  | none =>
    apply find_store_of_not_mem
    rintro ⟨k', v⟩ he rfl
    simp [find_eq_some.mpr he] at hk

end OrderedMap
