import Mathlib.Data.List.Nodup
import Mathlib.Order.Lattice

/-!
# Maps sorted by their keys

A map as a list of entries in the strict order of their keys, which the type
carries. An entry is found by its key, a new one is inserted at its place, and a loop
over the map visits the entries in order.

* `mem_insert` / `mem_erase` / `mem_adjust` — the entries after each operation.
* `get?_eq_some_iff` — what is found under a key is its entry.
* `entries_insert` — a new entry goes between those with smaller and those with larger keys.
-/

namespace Lib

/-- Entries in the order of their keys. -/
structure SortedMap (κ : Type*) [LinearOrder κ] (α : Type*) where
  entries : List (κ × α)
  sorted : entries.Pairwise fun a b => a.1 < b.1

namespace SortedMap

variable {κ : Type*} [LinearOrder κ] {α : Type*}

/-! ## Operations -/

def empty : SortedMap κ α := ⟨[], .nil⟩

def isEmpty (m : SortedMap κ α) : Bool := m.entries.isEmpty

def keys (m : SortedMap κ α) : List κ := m.entries.map Prod.fst

def values (m : SortedMap κ α) : List α := m.entries.map Prod.snd

def get? (m : SortedMap κ α) (k : κ) : Option α := (m.entries.find? (·.1 = k)).map Prod.snd

/-- A new entry at its place, or a new value for the entry that is there. -/
def insertEntry (k : κ) (v : α) : List (κ × α) → List (κ × α)
  | [] => [(k, v)]
  | e :: es =>
    if k < e.1 then (k, v) :: e :: es
    else if e.1 < k then e :: insertEntry k v es
    else (k, v) :: es

/-- The entries after an insertion. -/
theorem mem_insertEntry {k : κ} {v : α} {es : List (κ × α)}
    (hsorted : es.Pairwise fun a b => a.1 < b.1) {e : κ × α} :
    e ∈ insertEntry k v es ↔ e = (k, v) ∨ (e ∈ es ∧ e.1 ≠ k) := by
  induction es with
  | nil => simp [insertEntry]
  | cons d es ih =>
    obtain ⟨hhead, htail⟩ := List.pairwise_cons.mp hsorted
    rw [insertEntry]
    split
    · -- before all others
      rename_i hlt
      have hne : ∀ e ∈ d :: es, e.1 ≠ k := by
        intro e he
        rcases List.mem_cons.mp he with rfl | he
        · exact ne_of_gt hlt
        · exact ne_of_gt (hlt.trans (hhead e he))
      rw [List.mem_cons]
      exact or_congr_right ⟨fun he => ⟨he, hne e he⟩, And.left⟩
    · split
      · rename_i hgt
        rw [List.mem_cons, ih htail, List.mem_cons]
        constructor
        · rintro (rfl | rfl | ⟨he, hne⟩)
          · exact .inr ⟨.inl rfl, ne_of_lt hgt⟩
          · exact .inl rfl
          · exact .inr ⟨.inr he, hne⟩
        · rintro (rfl | ⟨rfl | he, hne⟩)
          · exact .inr (.inl rfl)
          · exact .inl rfl
          · exact .inr (.inr ⟨he, hne⟩)
      · -- in the place of an entry with this key
        rename_i hnlt hngt
        have hkey : d.1 = k := le_antisymm (not_lt.mp hnlt) (not_lt.mp hngt)
        rw [List.mem_cons, List.mem_cons]
        constructor
        · rintro (rfl | he)
          · exact .inl rfl
          · exact .inr ⟨.inr he, ne_of_gt (hkey ▸ hhead e he)⟩
        · rintro (rfl | ⟨rfl | he, hne⟩)
          · exact .inl rfl
          · exact absurd hkey hne
          · exact .inr he

theorem pairwise_insertEntry (k : κ) (v : α) {es : List (κ × α)}
    (hsorted : es.Pairwise fun a b => a.1 < b.1) :
    (insertEntry k v es).Pairwise fun a b => a.1 < b.1 := by
  induction es with
  | nil => exact List.pairwise_singleton _ _
  | cons d es ih =>
    obtain ⟨hhead, htail⟩ := List.pairwise_cons.mp hsorted
    rw [insertEntry]
    split
    -- the new entry is the first
    · rename_i hlt
      refine List.pairwise_cons.mpr ⟨?_, hsorted⟩
      intro e he
      rcases List.mem_cons.mp he with rfl | he
      · exact hlt
      · exact hlt.trans (hhead e he)
    · split
      -- it comes further on
      · rename_i hgt
        refine List.pairwise_cons.mpr ⟨?_, ih htail⟩
        intro e he
        rcases (mem_insertEntry htail).mp he with rfl | ⟨he, -⟩
        · exact hgt
        · exact hhead e he
      -- it takes the place of the old one
      · rename_i hnlt hngt
        have hkey : d.1 = k := le_antisymm (not_lt.mp hnlt) (not_lt.mp hngt)
        exact List.pairwise_cons.mpr ⟨fun e he => hkey ▸ hhead e he, htail⟩

def insert (m : SortedMap κ α) (k : κ) (v : α) : SortedMap κ α :=
  ⟨insertEntry k v m.entries, pairwise_insertEntry k v m.sorted⟩

def erase (m : SortedMap κ α) (k : κ) : SortedMap κ α :=
  ⟨m.entries.filter (·.1 ≠ k), m.sorted.filter _⟩

/-- A new value for the entry with key `k`, if there is one. -/
def adjust (m : SortedMap κ α) (k : κ) (f : α → α) : SortedMap κ α :=
  ⟨m.entries.map fun e => if e.1 = k then (e.1, f e.2) else e, by
    refine List.Pairwise.map _ ?_ m.sorted
    intro a b hab
    split <;> split <;> exact hab⟩

/-- New values for all entries. -/
def map {β : Type*} (m : SortedMap κ α) (f : α → β) : SortedMap κ β :=
  ⟨m.entries.map fun e => (e.1, f e.2), m.sorted.map _ fun _ _ h => h⟩

/-- The entries with smaller keys. -/
def before (m : SortedMap κ α) (k : κ) : List (κ × α) := m.entries.filter (·.1 < k)

/-- The entries with larger keys. -/
def after (m : SortedMap κ α) (k : κ) : List (κ × α) := m.entries.filter (k < ·.1)

/-! ## Entries -/

variable {m : SortedMap κ α} {k : κ}

theorem mem_insert {v : α} {e : κ × α} :
    e ∈ (m.insert k v).entries ↔ e = (k, v) ∨ (e ∈ m.entries ∧ e.1 ≠ k) :=
  mem_insertEntry m.sorted

theorem mem_erase {e : κ × α} : e ∈ (m.erase k).entries ↔ e ∈ m.entries ∧ e.1 ≠ k := by
  simp [erase]

/-- The entries when one value is changed. -/
theorem mem_adjust {f : α → α} {e : κ × α} :
    e ∈ (m.adjust k f).entries ↔
      ∃ d ∈ m.entries, (if d.1 = k then (d.1, f d.2) else d) = e := by
  simp [adjust]

@[simp] theorem keys_adjust (f : α → α) : (m.adjust k f).keys = m.keys := by
  simp only [keys, adjust, List.map_map]
  refine List.map_congr_left fun e _ => ?_
  simp only [Function.comp_apply]
  split <;> rfl

theorem mem_keys : k ∈ m.keys ↔ ∃ v, (k, v) ∈ m.entries := by
  simp [keys]

/-- No two entries have the same key. -/
theorem eq_of_mem {v w : α} (hv : (k, v) ∈ m.entries) (hw : (k, w) ∈ m.entries) : v = w := by
  have hnodup : (m.entries.map Prod.fst).Nodup :=
    List.pairwise_map.mpr (m.sorted.imp fun h => ne_of_lt h)
  exact (Prod.mk.inj (List.inj_on_of_nodup_map hnodup hv hw rfl)).2

theorem get?_eq_some_iff {v : α} : m.get? k = some v ↔ (k, v) ∈ m.entries := by
  rw [get?, Option.map_eq_some_iff]
  constructor
  · rintro ⟨e, he, rfl⟩
    have hkey : e.1 = k := by simpa using List.find?_some he
    exact hkey ▸ List.mem_of_find?_eq_some he
  · intro hv
    have hfound : (m.entries.find? (·.1 = k)).isSome := by
      rw [List.find?_isSome]
      exact ⟨(k, v), hv, by simp⟩
    obtain ⟨e, he⟩ := Option.isSome_iff_exists.mp hfound
    have hkey : e.1 = k := by simpa using List.find?_some he
    exact ⟨e, he, eq_of_mem (hkey ▸ List.mem_of_find?_eq_some he) hv⟩

/-- Looking up fails when the key is not there. -/
theorem get?_eq_none_iff : m.get? k = none ↔ k ∉ m.keys := by
  rw [mem_keys, Option.eq_none_iff_forall_ne_some]
  simp only [ne_eq, get?_eq_some_iff, not_exists]

/-- What is found after an insertion. -/
theorem get?_insert (v : α) (k' : κ) :
    (m.insert k v).get? k' = if k' = k then some v else m.get? k' := by
  refine Option.ext fun w => ?_
  rw [get?_eq_some_iff, mem_insert]
  split
  · rename_i hkey
    simp [hkey, eq_comm]
  · rename_i hkey
    rw [get?_eq_some_iff]
    simp [hkey]

theorem get?_erase (k' : κ) : (m.erase k).get? k' = if k' = k then none else m.get? k' := by
  refine Option.ext fun w => ?_
  rw [get?_eq_some_iff, mem_erase]
  split
  · rename_i hkey
    simp [hkey]
  · rename_i hkey
    rw [get?_eq_some_iff]
    simp [hkey]

theorem get?_adjust (f : α → α) (k' : κ) :
    (m.adjust k f).get? k' = if k' = k then (m.get? k').map f else m.get? k' := by
  refine Option.ext fun w => ?_
  rw [get?_eq_some_iff, mem_adjust]
  split
  -- the value at `k` is the old one, changed
  · rename_i hkey
    rw [Option.map_eq_some_iff]
    simp only [get?_eq_some_iff]
    refine ⟨?_, ?_⟩
    · rintro ⟨⟨d, v⟩, hd, he⟩
      by_cases hd' : d = k
      · rw [if_pos hd', Prod.mk.injEq] at he
        exact ⟨v, he.1 ▸ hd, he.2⟩
      · rw [if_neg hd', Prod.mk.injEq] at he
        exact absurd (he.1.trans hkey) hd'
    · rintro ⟨v, hv, rfl⟩
      exact ⟨(k', v), hv, by rw [if_pos hkey]⟩
  -- other keys keep theirs
  · rename_i hkey
    rw [get?_eq_some_iff]
    refine ⟨?_, ?_⟩
    · rintro ⟨⟨d, v⟩, hd, he⟩
      by_cases hd' : d = k
      · rw [if_pos hd', Prod.mk.injEq] at he
        exact absurd (he.1.symm.trans hd') hkey
      · rw [if_neg hd'] at he
        exact he ▸ hd
    · intro hw
      exact ⟨(k', w), hw, by rw [if_neg hkey]⟩

/-- A new value for another entry can be given before an insertion or after it. -/
theorem adjust_insert {k' : κ} (hne : k ≠ k') (f : α → α) (v : α) :
    (m.insert k v).adjust k' f = (m.adjust k' f).insert k v := by
  -- neither changes the key at which the new entry goes in
  have hentries : ∀ es : List (κ × α),
      (insertEntry k v es).map (fun e => if e.1 = k' then (e.1, f e.2) else e)
        = insertEntry k v (es.map fun e => if e.1 = k' then (e.1, f e.2) else e) := by
    intro es
    induction es with
    | nil => simp [insertEntry, hne]
    | cons d es ih =>
      have hkey : (if d.1 = k' then (d.1, f d.2) else d).1 = d.1 := by split <;> rfl
      rw [List.map_cons, insertEntry, insertEntry, hkey, ← ih]
      split
      · simp [hne]
      · split
        · rfl
        · simp [hne]
  have hmap := hentries m.entries
  simp only [adjust, insert]
  congr 1

theorem mem_keys_insert {v : α} {k' : κ} : k' ∈ (m.insert k v).keys ↔ k' = k ∨ k' ∈ m.keys := by
  simp only [mem_keys, mem_insert, Prod.mk.injEq]
  refine ⟨?_, ?_⟩
  · rintro ⟨w, ⟨rfl, -⟩ | ⟨hw, -⟩⟩
    · exact .inl rfl
    · exact .inr ⟨w, hw⟩
  · rintro (rfl | ⟨w, hw⟩)
    · exact ⟨v, .inl ⟨rfl, rfl⟩⟩
    · by_cases hkey : k' = k
      · exact ⟨v, .inl ⟨hkey, rfl⟩⟩
      · exact ⟨w, .inr ⟨hw, hkey⟩⟩

theorem mem_keys_erase {k' : κ} : k' ∈ (m.erase k).keys ↔ k' ∈ m.keys ∧ k' ≠ k := by
  simp only [mem_keys, mem_erase]
  exact ⟨fun ⟨v, hv, hne⟩ => ⟨⟨v, hv⟩, hne⟩, fun ⟨⟨v, hv⟩, hne⟩ => ⟨v, hv, hne⟩⟩

section Map

variable {β γ : Type*}

@[simp] theorem keys_map (m : SortedMap κ α) (f : α → β) : (m.map f).keys = m.keys := by
  simp [keys, map]

@[simp] theorem values_map (m : SortedMap κ α) (f : α → β) :
    (m.map f).values = m.values.map f := by
  simp [values, map]

theorem map_map (m : SortedMap κ α) (f : α → β) (g : β → γ) :
    (m.map f).map g = m.map (g ∘ f) := by
  simp [map]

@[simp] theorem map_id (m : SortedMap κ α) : m.map id = m := by
  simp [map]

/-- Maps over the values agree when they agree on every value. -/
theorem map_eq_map_iff {f g : α → β} :
    m.map f = m.map g ↔ ∀ v ∈ m.values, f v = g v := by
  simp only [map, SortedMap.mk.injEq, List.map_inj_left, values, List.forall_mem_map,
    Prod.mk.injEq, true_and]

end Map

/-- **A new entry** goes between those with smaller and those with larger keys. -/
theorem entries_insert (h : m.get? k = none) (v : α) :
    m.entries = m.before k ++ m.after k ∧
      (m.insert k v).entries = m.before k ++ (k, v) :: m.after k := by
  have hcut : ∀ es : List (κ × α), es.Pairwise (fun a b => a.1 < b.1) → (∀ e ∈ es, e.1 ≠ k) →
      es = es.filter (·.1 < k) ++ es.filter (k < ·.1) ∧
        insertEntry k v es = es.filter (·.1 < k) ++ (k, v) :: es.filter (k < ·.1) := by
    intro es hsorted hne
    induction es with
    | nil => exact ⟨rfl, rfl⟩
    | cons d es ih =>
      obtain ⟨hhead, htail⟩ := List.pairwise_cons.mp hsorted
      obtain ⟨hes, hinsert⟩ := ih htail fun e he => hne e (List.mem_cons_of_mem d he)
      rw [insertEntry]
      by_cases hlt : d.1 < k
      · -- a smaller key stays in front
        have hnot : ¬ k < d.1 := lt_asymm hlt
        rw [List.filter_cons_of_pos (by simpa using hlt),
          List.filter_cons_of_neg (by simpa using hnot), if_neg hnot, if_pos hlt, hinsert,
          List.cons_append, ← hes]
        exact ⟨rfl, rfl⟩
      · -- all that follow are larger
        have hgt : k < d.1 := lt_of_le_of_ne (not_lt.mp hlt) (hne d List.mem_cons_self).symm
        have hafter : ∀ e ∈ d :: es, k < e.1 := by
          intro e he
          rcases List.mem_cons.mp he with rfl | he
          · exact hgt
          · exact hgt.trans (hhead e he)
        rw [List.filter_eq_nil_iff.mpr fun e he => by simpa using le_of_lt (hafter e he),
          List.filter_eq_self.mpr fun e he => by simpa using hafter e he, if_pos hgt]
        exact ⟨rfl, rfl⟩
  refine hcut m.entries m.sorted fun e he hkey => ?_
  exact get?_eq_none_iff.mp h (mem_keys.mpr ⟨e.2, hkey ▸ he⟩)

end SortedMap

end Lib
