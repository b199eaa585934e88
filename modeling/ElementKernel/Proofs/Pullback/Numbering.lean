import ElementKernel.Monomial.Classification
import ElementKernel.Monomial.Transformed
import ElementKernel.Proofs.Outcome
import Mathlib.Data.List.Induction
import Mathlib.Data.List.Nodup

/-!
# Roles, ids and first occurrences

A summed role is one whose indices are numbered.  Its counter hands out its count and advances by
one.  Handles are told apart by the first occurrence of each, and so are the unique indices of a
transformed monomial once their ids are distinct.
-/

namespace ElementKernel

def IndexRole.IsSummed (role : IndexRole) : Prop :=
  role = .secondary ∨ role = .internal ∨ role = .external

namespace IndexRole

@[simp] theorem not_isSummed_fixed : ¬IsSummed .fixed := by simp [IsSummed]

@[simp] theorem not_isSummed_primary : ¬IsSummed .primary := by simp [IsSummed]

theorem isSummed_of_occurrences {m n : Nat} {role : IndexRole}
    (h : ofOccurrences m n = some role) : role.IsSummed := by
  unfold ofOccurrences at h
  unfold IsSummed
  split at h
  · exact Or.inl (Option.some.inj h).symm
  · exact Or.inr (Or.inl (Option.some.inj h).symm)
  · exact Or.inr (Or.inr (Option.some.inj h).symm)
  · cases h

end IndexRole

/-! ## Counters -/

namespace IndexCounters

variable {counters advanced : IndexCounters} {role : IndexRole} {id : Nat}

/-- A counter hands out its count and advances by one in a machine word; the others stay. -/
theorem exists_advance (counters : IndexCounters) (hrole : role.IsSummed) :
    ∃ advance : Nat → IndexCounters,
      counters.next role = (do
        let advanced ← Word.add (counters.count role) 1
        return (counters.count role, advance advanced)) ∧
      ∀ n, (advance n).count role = n ∧
        ∀ other, other ≠ role → (advance n).count other = counters.count other := by
  obtain rfl | rfl | rfl := hrole
  · refine ⟨fun n => { counters with secondary := n }, rfl, fun n => ⟨rfl, fun other hother => ?_⟩⟩
    cases other <;> first | rfl | exact absurd rfl hother
  · refine ⟨fun n => { counters with internal := n }, rfl, fun n => ⟨rfl, fun other hother => ?_⟩⟩
    cases other <;> first | rfl | exact absurd rfl hother
  · refine ⟨fun n => { counters with external := n }, rfl, fun n => ⟨rfl, fun other hother => ?_⟩⟩
    cases other <;> first | rfl | exact absurd rfl hother

@[simp] theorem count_empty (role : IndexRole) : ({} : IndexCounters).count role = 0 := by
  cases role <;> rfl

theorem isSummed_of_next (h : counters.next role = .ok (id, advanced)) : role.IsSummed := by
  cases role with
  | fixed | primary => cases h
  | secondary => exact Or.inl rfl
  | internal => exact Or.inr (Or.inl rfl)
  | external => exact Or.inr (Or.inr rfl)

theorem next_eq_ok (h : counters.next role = .ok (id, advanced)) :
    id = counters.count role ∧ advanced.count role = id + 1 ∧
      ∀ other, other ≠ role → advanced.count other = counters.count other := by
  obtain ⟨advance, hnext, hadvance⟩ := exists_advance counters (isSummed_of_next h)
  rw [hnext] at h
  obtain ⟨n, hn, h⟩ := bind_eq_ok.1 h
  obtain ⟨rfl, rfl⟩ := Prod.mk.inj (Except.ok.inj h)
  exact ⟨rfl, (hadvance n).1.trans (Word.fit_eq_ok_iff.1 hn).1.symm, (hadvance n).2⟩

theorem exists_next (hrole : role.IsSummed) (h : counters.count role + 1 < Word.limit) :
    ∃ id advanced, counters.next role = .ok (id, advanced) := by
  obtain ⟨advance, hnext, -⟩ := exists_advance counters hrole
  have hadd : Word.add (counters.count role) 1 = .ok (counters.count role + 1) := if_pos h
  exact ⟨_, _, by rw [hnext, hadd]; rfl⟩

theorem next_eq_error (hrole : role.IsSummed) (h : Word.limit ≤ counters.count role + 1) :
    counters.next role = .error .overflow := by
  obtain ⟨advance, hnext, -⟩ := exists_advance counters hrole
  have hadd : Word.add (counters.count role) 1 = .error .overflow := if_neg (Nat.not_lt.2 h)
  rw [hnext, hadd]
  rfl

end IndexCounters

/-! ## Arenas -/

namespace IndexArena

theorem get?_set_self {arena : IndexArena} {handle : IndexHandle} {old : MonomialIndex}
    (h : arena.get? handle = some old) (index : MonomialIndex) :
    (arena.set handle index).get? handle = some index := by
  have hlt : handle < arena.indices.length := (List.getElem?_eq_some_iff.1 h).1
  simp [get?, set, List.getElem?_set_self hlt]

theorem get?_set_ne {arena : IndexArena} {handle other : IndexHandle} (h : other ≠ handle)
    (index : MonomialIndex) : (arena.set handle index).get? other = arena.get? other := by
  simp [get?, set, List.getElem?_set_ne h.symm]

end IndexArena

/-! ## First occurrences -/

section

variable {α : Type} [BEq α] [LawfulBEq α]

theorem eraseDups_concat (xs : List α) (x : α) :
    (xs ++ [x]).eraseDups = xs.eraseDups ++ if xs.contains x then [] else [x] := by
  rw [List.eraseDups_append]
  by_cases h : x ∈ xs <;> simp [List.removeAll, h, List.eraseDups_cons]

theorem eraseDups_filter (p : α → Bool) (xs : List α) :
    (xs.filter p).eraseDups = xs.eraseDups.filter p := by
  induction xs using List.reverseRecOn with
  | nil => rfl
  | append_singleton xs x ih =>
      rw [eraseDups_concat, List.filter_append, List.filter_append, ← ih]
      cases hx : p x with
      | false => cases xs.contains x <;> simp [hx]
      | true => rw [List.filter_cons_of_pos hx, List.filter_nil, eraseDups_concat]
                by_cases hmem : x ∈ xs <;> simp [hx, hmem]

theorem nodup_eraseDups (xs : List α) : xs.eraseDups.Nodup := by
  induction xs using List.reverseRecOn with
  | nil => simp
  | append_singleton xs x ih =>
      rw [eraseDups_concat]
      by_cases hmem : x ∈ xs
      · simpa [hmem] using ih
      · simpa [hmem, List.nodup_append] using ⟨ih, fun y hy hxy => hmem (hxy ▸ hy)⟩

theorem length_eraseDups_le (xs : List α) : xs.eraseDups.length ≤ xs.length := by
  induction xs using List.reverseRecOn with
  | nil => simp
  | append_singleton xs x ih =>
      rw [eraseDups_concat, List.length_append, List.length_append]
      split
      · exact Nat.le_trans ih (Nat.le_add_right _ _)
      · exact Nat.add_le_add_right ih 1

theorem eraseDups_perm {xs ys : List α} (hnodup : ys.Nodup) (hmem : ∀ a, a ∈ xs ↔ a ∈ ys) :
    xs.eraseDups.Perm ys :=
  (List.perm_ext_iff_of_nodup (nodup_eraseDups xs) hnodup).2 fun a =>
    List.mem_eraseDups.trans (hmem a)

end

/-! ## Unique handles -/

namespace TransformedMonomial

/-- The handles that do not count as the same index as one before. -/
def unique (arena : IndexArena) (handles : List IndexHandle) : List IndexHandle :=
  handles.foldl (fun seen h => if seen.any (sameIndex arena · h) then seen else seen ++ [h]) []

theorem sameIndex_iff {arena : IndexArena} {a b : IndexHandle} {x y : MonomialIndex}
    (ha : arena.get? a = some x) (hb : arena.get? b = some y) :
    sameIndex arena a b = true ↔
      a = b ∨ y.isFixed = false ∧ x.role = y.role ∧ x.id = y.id := by
  simp [sameIndex, ha, hb, and_assoc]

theorem uniqueIndices_eq_unique (m : TransformedMonomial) (role : IndexRole) :
    m.uniqueIndices role = unique m.arena (m.indices role) := rfl

theorem unique_concat (arena : IndexArena) (handles : List IndexHandle) (h : IndexHandle) :
    unique arena (handles ++ [h]) =
      if (unique arena handles).any (sameIndex arena · h) then unique arena handles
      else unique arena handles ++ [h] := by
  rw [unique, List.foldl_append]
  rfl

theorem unique_subset (arena : IndexArena) (handles : List IndexHandle) :
    unique arena handles ⊆ handles := by
  induction handles using List.reverseRecOn with
  | nil => exact List.Subset.refl _
  | append_singleton handles h ih =>
      rw [unique_concat]
      split
      · exact fun a ha => List.mem_append_left _ (ih ha)
      · exact List.append_subset.2
          ⟨fun a ha => List.mem_append_left _ (ih ha), List.subset_append_right _ _⟩

/-- When handles count as the same index exactly if they agree in a key, the keys of the unique
handles are the different keys. -/
theorem map_unique {α : Type} [BEq α] [LawfulBEq α] {arena : IndexArena} {key : IndexHandle → α}
    {handles : List IndexHandle} (hsame : ∀ a ∈ handles, ∀ b ∈ handles,
      sameIndex arena a b = true ↔ key a = key b) :
    (unique arena handles).map key = (handles.map key).eraseDups := by
  induction handles using List.reverseRecOn with
  | nil => rfl
  | append_singleton handles h ih =>
      have hkeys :=
        ih fun a ha b hb => hsame a (List.mem_append_left _ ha) b (List.mem_append_left _ hb)
      have hany : (unique arena handles).any (sameIndex arena · h) =
          (handles.map key).contains (key h) := by
        rw [Bool.eq_iff_iff, List.any_eq_true, List.contains_iff_mem, ← List.mem_eraseDups, ← hkeys,
          List.mem_map]
        refine exists_congr fun a => and_congr_right fun ha => ?_
        exact hsame a (List.mem_append_left _ (unique_subset arena handles ha)) h (by simp)
      rw [unique_concat, hany, List.map_append, List.map_singleton, eraseDups_concat, ← hkeys]
      split
      · rw [List.append_nil]
      · rw [List.map_append, List.map_singleton]

theorem unique_eq_eraseDups {arena : IndexArena} {handles : List IndexHandle}
    (hsame : ∀ a ∈ handles, ∀ b ∈ handles, sameIndex arena a b = true → a = b) :
    unique arena handles = handles.eraseDups := by
  have hkeys : (unique arena handles).map id = (handles.map id).eraseDups :=
    map_unique fun a ha b hb => ⟨hsame a ha b hb, fun heq : a = b => by simp [sameIndex, heq]⟩
  rwa [List.map_id, List.map_id] at hkeys

end TransformedMonomial

end ElementKernel
