/-!
Finite maps with their entries in ascending order of the keys.

Keys are distinct.  Inserting under a key that is present replaces its value.
-/

namespace ElementKernel

instance stringLtTrans : Trans (α := String) (β := String) (γ := String) (· < ·) (· < ·) (· < ·) :=
  ⟨fun h h' => String.lt_trans h h'⟩

structure OrderedMap (κ α : Type) [LT κ] where
  entries : List (κ × α) := []
  ascending : (entries.map Prod.fst).Pairwise (· < ·) := by exact List.Pairwise.nil

namespace OrderedMap

variable {κ α : Type} [LT κ] [DecidableLT κ]

def insertEntry (key : κ) (value : α) : List (κ × α) → List (κ × α)
  | [] => [(key, value)]
  | (k, v) :: rest =>
      if key < k then (key, value) :: (k, v) :: rest
      else if k < key then (k, v) :: insertEntry key value rest
      else (k, value) :: rest

theorem mem_keys_insertEntry {key k : κ} {value : α} {entries : List (κ × α)}
    (h : k ∈ (insertEntry key value entries).map Prod.fst) :
    k = key ∨ k ∈ entries.map Prod.fst := by
  induction entries with
  | nil => simpa [insertEntry] using h
  | cons entry rest ih =>
      obtain ⟨k', v⟩ := entry
      unfold insertEntry at h
      split at h
      · simpa using h
      · split at h
        · rcases List.mem_cons.1 h with h | h
          · exact Or.inr (List.mem_cons.2 (Or.inl h))
          · exact (ih h).imp_right fun h => List.mem_cons.2 (Or.inr h)
        · exact Or.inr h

variable [Trans (α := κ) (β := κ) (γ := κ) (· < ·) (· < ·) (· < ·)]

theorem ascending_insertEntry (key : κ) (value : α) {entries : List (κ × α)}
    (h : (entries.map Prod.fst).Pairwise (· < ·)) :
    ((insertEntry key value entries).map Prod.fst).Pairwise (· < ·) := by
  induction entries with
  | nil => simp [insertEntry]
  | cons entry rest ih =>
      obtain ⟨k, v⟩ := entry
      rw [List.map_cons, List.pairwise_cons] at h
      unfold insertEntry
      split
      next hlt =>
        refine List.pairwise_cons.2 ⟨fun k' hk' => ?_, List.pairwise_cons.2 h⟩
        rcases List.mem_cons.1 hk' with rfl | hk'
        · exact hlt
        · exact Std.lt_trans hlt (h.1 k' hk')
      next =>
        split
        next hlt =>
          refine List.pairwise_cons.2 ⟨fun k' hk' => ?_, ih h.2⟩
          rcases mem_keys_insertEntry hk' with rfl | hk'
          · exact hlt
          · exact h.1 k' hk'
        next => exact List.pairwise_cons.2 h

def insert (map : OrderedMap κ α) (key : κ) (value : α) : OrderedMap κ α :=
  ⟨insertEntry key value map.entries, ascending_insertEntry key value map.ascending⟩

/-- The map with the given entries; of entries with one key the last counts. -/
def ofList (entries : List (κ × α)) : OrderedMap κ α :=
  entries.foldl (fun map entry => map.insert entry.1 entry.2) {}

omit [DecidableLT κ] [Trans (α := κ) (β := κ) (γ := κ) (· < ·) (· < ·) (· < ·)] in
theorem ext {a b : OrderedMap κ α} (h : a.entries = b.entries) : a = b := by
  cases a
  cases b
  cases h
  rfl

def keys (map : OrderedMap κ α) : List κ := map.entries.map Prod.fst

def get? [BEq κ] (map : OrderedMap κ α) (key : κ) : Option α := map.entries.lookup key

def contains [BEq κ] (map : OrderedMap κ α) (key : κ) : Bool := (map.get? key).isSome

end OrderedMap

end ElementKernel
