import Mathlib.Data.List.Nodup

/-! Finite maps that remember the order in which their keys came. Growing one appends a key that
it does not have yet, so that a key keeps its value and its position. -/

/-- A list of pairs with distinct keys. -/
structure OrderedMap (κ ν : Type*) where
  entries : List (κ × ν)
  nodup : (entries.map Prod.fst).Nodup

namespace OrderedMap

variable {κ ν : Type*} (m : OrderedMap κ ν)

def keys : List κ := m.entries.map Prod.fst

/-- `m` with one more key. -/
def append (k : κ) (v : ν) (h : k ∉ m.keys) : OrderedMap κ ν where
  entries := m.entries ++ [(k, v)]
  nodup := by
    rw [List.map_append, List.nodup_append']
    refine ⟨m.nodup, List.nodup_singleton _, ?_⟩
    intro k' hk' hk
    obtain rfl : k' = k := by simpa using hk
    exact h hk'

variable {m}

theorem mem_keys : k ∈ m.keys ↔ ∃ v, (k, v) ∈ m.entries := by
  simp [keys]

/-- A key has one value. -/
theorem value_unique (h : (k, v) ∈ m.entries) (h' : (k, v') ∈ m.entries) : v = v' :=
  (Prod.mk.inj (List.inj_on_of_nodup_map m.nodup h h' rfl)).2

/-- An entry has one position. -/
theorem index_unique {i j : Nat} (h : m.entries[i]? = some e) (h' : m.entries[j]? = some e) :
    i = j := by
  obtain ⟨hi, -⟩ := List.getElem?_eq_some_iff.mp h
  exact (List.getElem?_inj hi (List.Nodup.of_map _ m.nodup)).mp (h.trans h'.symm)

end OrderedMap
