import ElementKernel.Integrand.Contribution
import Mathlib.Data.List.Induction
import Mathlib.Data.List.Lex
import Mathlib.Data.Prod.Lex
import Mathlib.Order.Compare

/-!
# Insertion of contributions

The entries of a partition are found by bisection, which needs them in order, and insertion keeps
them in order.  The invariant of a run of insertions is that the blocks ascend and that the entries
are the blocks which something has been added to, each with what has been added in that order.
-/

namespace ElementKernel

/-! ## Order of blocks -/

namespace DofBlock

/-- The ranges of a block as elements of a lexicographically ordered list, of pairs which are ordered
lexicographically themselves. -/
def key (block : DofBlock) : List (ℕ ×ₗ ℕ) := block.map toLex

theorem key_inj {a b : DofBlock} (h : a.key = b.key) : a = b :=
  List.map_injective_iff.2 toLex.injective h

theorem compares_then_pair {o o' : Ordering} {x y : Nat × Nat} (h : o.Compares x.1 y.1)
    (h' : o'.Compares x.2 y.2) : (o.then o').Compares (toLex x) (toLex y) := by
  cases o with
  | lt => exact Prod.Lex.toLex_lt_toLex.2 (.inl h)
  | gt => exact Prod.Lex.toLex_lt_toLex.2 (.inl h)
  | eq =>
      have hfirst : x.1 = y.1 := h
      cases o' with
      | lt => exact Prod.Lex.toLex_lt_toLex.2 (.inr ⟨hfirst, h'⟩)
      | gt => exact Prod.Lex.toLex_lt_toLex.2 (.inr ⟨hfirst.symm, h'⟩)
      | eq => exact congrArg toLex (Prod.ext hfirst h')

theorem compares_then_cons {α : Type} [LinearOrder α] {o o' : Ordering} {a b : α} {as bs : List α}
    (h : o.Compares a b) (h' : o'.Compares as bs) :
    (o.then o').Compares (a :: as) (b :: bs) := by
  cases o with
  | lt => exact List.cons_lt_cons_iff.2 (.inl h)
  | gt => exact List.cons_lt_cons_iff.2 (.inl h)
  | eq =>
      have hhead : a = b := h
      cases o' with
      | lt => exact List.cons_lt_cons_iff.2 (.inr ⟨hhead, h'⟩)
      | gt => exact List.cons_lt_cons_iff.2 (.inr ⟨hhead.symm, h'⟩)
      | eq => exact congrArg₂ List.cons hhead h'

theorem compares_order (a b : DofBlock) : (order a b).Compares a.key b.key := by
  induction a generalizing b with
  | nil =>
      cases b with
      | nil => exact rfl
      | cons y ys => exact List.nil_lt_cons _ _
  | cons x xs ih =>
      cases b with
      | nil => exact List.nil_lt_cons _ _
      | cons y ys =>
          have haxis := compares_then_pair ((compare_iff x.1 y.1).1 rfl)
            ((compare_iff x.2 y.2).1 rfl)
          rw [order, ← Ordering.then_assoc]
          exact compares_then_cons haxis (ih ys)

end DofBlock

/-! ## Bisection -/

/-- Where the positions before `n` are reached, bisection ends at the last of them. -/
theorem bisect_eq {reached : Nat → Bool} {n start size : Nat}
    (hreached : ∀ i, reached i = true ↔ i < n) (hn : n ≤ start + size) :
    bisect reached start size = max start (n - 1) := by
  fun_induction bisect reached start size with
  | case1 start size hsize => omega
  | case2 start size hsize half ih =>
      -- The interval keeps the last reached position in it: the upper part if its first position is
      -- reached, else the lower part, behind which nothing is.
      have hhalf : half = size / 2 := rfl
      simp only [dite_eq_ite] at ih
      by_cases hmiddle : reached (start + half) = true
      · have hlt := (hreached _).1 hmiddle
        rw [if_pos hmiddle] at ih ⊢
        rw [ih (by omega)]
        omega
      · have hle := mt (hreached _).2 hmiddle
        rw [if_neg hmiddle] at ih ⊢
        exact ih (by omega)

/-! ## Entries -/

namespace BlockEntry

variable {before after : List BlockEntry} {block : DofBlock} {contributions : List BlockContribution}

/-- How the block of the entry at a position compares, as insertion looks at it. -/
def orderAt (entries : List BlockEntry) (block : DofBlock) (i : Nat) : Ordering :=
  (entries[i]?.map (·.1.order block)).getD .gt

theorem orderAt_append_length (before after : List BlockEntry) (entry : BlockEntry)
    (block : DofBlock) :
    orderAt (before ++ entry :: after) block before.length = entry.1.order block := by
  simp [orderAt]

/-- Bisection finds the last entry that is not behind the block. -/
theorem bisect_orderAt {low high : List BlockEntry} (hlow : ∀ entry ∈ low, entry.1.key ≤ block.key)
    (hhigh : ∀ entry ∈ high, block.key < entry.1.key) :
    bisect (fun i => (orderAt (low ++ high) block i).isLE) 0 (low ++ high).length =
      low.length - 1 := by
  have hreached : ∀ i, (orderAt (low ++ high) block i).isLE = true ↔ i < low.length := by
    intro i
    rw [Ordering.isLE_iff_ne_gt]
    obtain hi | hi := Nat.lt_or_ge i low.length
    · have hentry := hlow _ (List.getElem_mem hi)
      simp only [orderAt, List.getElem?_append_left hi, List.getElem?_eq_getElem hi,
        Option.map_some, Option.getD_some, hi, iff_true]
      exact (DofBlock.compares_order _ _).ne_gt.2 hentry
    -- Past the end nothing is reached either.
    · refine iff_of_false (not_not.2 ?_) (Nat.not_lt.2 hi)
      rw [orderAt, List.getElem?_append_right hi]
      cases hentry : high[i - low.length]? with
      | none => rfl
      | some entry =>
          exact (DofBlock.compares_order _ _).eq_gt.2 (hhigh _ (List.mem_of_getElem? hentry))
  rw [bisect_eq hreached (by simp), Nat.zero_max]

theorem insert_eq {entries : List BlockEntry} {place : Nat} (contribution : BlockContribution)
    (hplace : bisect (fun i => (orderAt entries block i).isLE) 0 entries.length = place) :
    insert entries block contribution =
      match orderAt entries block place with
      | .eq => entries.modify place fun entry => (entry.1, entry.2 ++ [contribution])
      | .lt => entries.insertIdx (place + 1) (block, [contribution])
      | .gt => entries.insertIdx place (block, [contribution]) := by
  subst hplace
  rfl

/-- A block without entry gets one between the smaller and the greater blocks. -/
theorem insert_of_absent (contribution : BlockContribution)
    (hbefore : ∀ entry ∈ before, entry.1.key < block.key)
    (hafter : ∀ entry ∈ after, block.key < entry.1.key) :
    insert (before ++ after) block contribution =
      before ++ (block, [contribution]) :: after := by
  have hplace := bisect_orderAt (fun entry hentry => (hbefore entry hentry).le) hafter
  have hinsert : (before ++ after).insertIdx before.length (block, [contribution]) =
      before ++ (block, [contribution]) :: after := List.modifyTailIdx_add _ 0 before after
  rw [insert_eq contribution hplace]
  -- Without a smaller block bisection ends at the start, which is behind the block.
  obtain rfl | ⟨low, last, rfl⟩ := List.eq_nil_or_concat' before
  · have horder : orderAt after block 0 = .gt := by
      cases after with
      | nil => rfl
      | cons entry rest =>
          exact (DofBlock.compares_order _ _).eq_gt.2 (hafter entry List.mem_cons_self)
    simp only [List.nil_append, List.length_nil, Nat.zero_sub, horder]
    exact hinsert
  · have horder : orderAt (low ++ [last] ++ after) block low.length = .lt := by
      rw [List.append_assoc, List.singleton_append, orderAt_append_length]
      exact (DofBlock.compares_order _ _).eq_lt.2 (hbefore last (by simp))
    have hlength : (low ++ [last]).length = low.length + 1 := List.length_append
    rw [hlength] at hinsert ⊢
    rw [Nat.add_sub_cancel, horder]
    exact hinsert

/-- The entry of a block gets the contribution behind those that it has. -/
theorem insert_of_present (contribution : BlockContribution)
    (hbefore : ∀ entry ∈ before, entry.1.key < block.key)
    (hafter : ∀ entry ∈ after, block.key < entry.1.key) :
    insert (before ++ (block, contributions) :: after) block contribution =
      before ++ (block, contributions ++ [contribution]) :: after := by
  have hplace : bisect
      (fun i => (orderAt (before ++ (block, contributions) :: after) block i).isLE) 0
      (before ++ (block, contributions) :: after).length = before.length := by
    have hlow : ∀ entry ∈ before ++ [(block, contributions)], entry.1.key ≤ block.key :=
      List.forall_mem_append.2
        ⟨fun entry hentry => (hbefore entry hentry).le, List.forall_mem_singleton.2 le_rfl⟩
    rw [List.append_cons, bisect_orderAt hlow hafter]
    simp
  rw [insert_eq contribution hplace, orderAt_append_length, DofBlock.order_self]
  exact List.modifyTailIdx_add _ 0 before _

/-- Entries in strictly ascending order. -/
def Ascending (entries : List BlockEntry) : Prop :=
  entries.Pairwise fun entry other => entry.1.key < other.1.key

/-- Ascending entries consist of those before a block, its own one if there is one, and those
behind. -/
theorem Ascending.exists_split {entries : List BlockEntry} (h : Ascending entries)
    (block : DofBlock) :
    ∃ before own after, entries = before ++ own ++ after ∧
      (own = [] ∨ ∃ contributions, own = [(block, contributions)]) ∧
      (∀ entry ∈ before, entry.1.key < block.key) ∧
      ∀ entry ∈ after, block.key < entry.1.key := by
  induction entries with
  | nil =>
      exact ⟨[], [], [], rfl, .inl rfl, List.forall_mem_nil _, List.forall_mem_nil _⟩
  | cons first rest ih =>
      obtain ⟨hfirst, hrest⟩ := List.pairwise_cons.1 h
      obtain hlt | heq | hgt := lt_trichotomy first.1.key block.key
      · obtain ⟨before, own, after, rfl, hown, hbefore, hafter⟩ := ih hrest
        exact ⟨first :: before, own, after, rfl, hown, List.forall_mem_cons.2 ⟨hlt, hbefore⟩,
          hafter⟩
      · obtain ⟨block', contributions⟩ := first
        obtain rfl := DofBlock.key_inj heq
        exact ⟨[], [(block', contributions)], rest, rfl, .inr ⟨contributions, rfl⟩,
          List.forall_mem_nil _, hfirst⟩
      · refine ⟨[], [], first :: rest, rfl, .inl rfl, List.forall_mem_nil _, ?_⟩
        exact List.forall_mem_cons.2 ⟨hgt, fun entry hentry => hgt.trans (hfirst entry hentry)⟩

/-- The entries are in order, and they are the blocks that something has been added to, each with
what has been added. -/
structure Groups (added : DofBlock → List BlockContribution) (entries : List BlockEntry) : Prop where
  ascending : Ascending entries
  mem_iff : ∀ entry, entry ∈ entries ↔ entry.2 = added entry.1 ∧ entry.2 ≠ []

namespace Groups

variable {added : DofBlock → List BlockContribution} {entries : List BlockEntry}

theorem nil : Groups (fun _ => []) [] where
  ascending := .nil
  mem_iff entry := by simp

theorem insert (h : Groups added entries) (block : DofBlock) (contribution : BlockContribution) :
    Groups (Function.update added block (added block ++ [contribution]))
      (BlockEntry.insert entries block contribution) := by
  obtain ⟨before, own, after, rfl, hown, hbefore, hafter⟩ := h.ascending.exists_split block
  have hnotMem : ∀ entry ∈ before ++ after, entry.1 ≠ block := by
    rintro ⟨_, contributions⟩ hentry rfl
    obtain hentry | hentry := List.mem_append.1 hentry
    · exact lt_irrefl _ (hbefore _ hentry)
    · exact lt_irrefl _ (hafter _ hentry)
  have hinsert : BlockEntry.insert (before ++ own ++ after) block contribution =
      before ++ (block, added block ++ [contribution]) :: after := by
    obtain rfl | ⟨contributions, rfl⟩ := hown
    -- A block without entry is one that nothing has been added to.
    · have hnone : added block = [] := by
        by_contra hsome
        have hmem := (h.mem_iff (block, added block)).2 ⟨rfl, hsome⟩
        exact hnotMem _ (by simpa using hmem) rfl
      rw [List.append_nil, hnone]
      exact insert_of_absent contribution hbefore hafter
    · have hsome := ((h.mem_iff (block, contributions)).1 (by simp)).1
      rw [List.append_assoc, List.singleton_append, ← hsome]
      exact insert_of_present contribution hbefore hafter
  have hmem (entry : BlockEntry) :
      entry ∈ before ++ (block, added block ++ [contribution]) :: after ↔
        entry = (block, added block ++ [contribution]) ∨ entry ∈ before ++ after :=
    List.perm_middle.mem_iff.trans List.mem_cons
  rw [hinsert]
  refine ⟨?_, fun entry => (hmem entry).trans ?_⟩
  · have hothers : Ascending (before ++ after) :=
      h.ascending.sublist ((List.sublist_append_left before own).append_right after)
    obtain ⟨hlow, hhigh, hcross⟩ := List.pairwise_append.1 hothers
    exact List.pairwise_append.2 ⟨hlow, List.pairwise_cons.2 ⟨hafter, hhigh⟩, fun entry hentry =>
      List.forall_mem_cons.2 ⟨hbefore entry hentry, hcross entry hentry⟩⟩
  -- Only the entry of the block itself is another one than before.
  obtain ⟨block', contributions⟩ := entry
  obtain rfl | hne := eq_or_ne block' block
  · have hnone : (block', contributions) ∉ before ++ after := fun hentry => hnotMem _ hentry rfl
    rw [Function.update_self, or_iff_left hnone, Prod.mk.injEq, and_iff_right rfl]
    refine (and_iff_left_of_imp ?_).symm
    rintro rfl
    exact List.append_ne_nil_of_right_ne_nil _ (List.cons_ne_nil _ _)
  · have hown' : (block', contributions) ∉ own := by
      obtain rfl | ⟨_, rfl⟩ := hown
      · exact List.not_mem_nil
      · simp [hne]
    rw [Function.update_of_ne hne, or_iff_right (fun heq => hne (congrArg Prod.fst heq)),
      ← h.mem_iff]
    simp [hown']

theorem eq_of_groups {entries' : List BlockEntry} (h : Groups added entries)
    (h' : Groups added entries') : entries = entries' := by
  have hnodup {entries : List BlockEntry} (h : Groups added entries) : entries.Nodup :=
    List.Pairwise.imp (fun hlt heq => hlt.ne (congrArg (·.1.key) heq)) h.ascending
  refine List.Perm.eq_of_pairwise (fun _ _ _ _ hlt hgt => absurd hgt hlt.asymm) h.ascending
    h'.ascending ((List.perm_ext_iff_of_nodup (hnodup h) (hnodup h')).2 fun entry => ?_)
  rw [h.mem_iff, h'.mem_iff]

theorem added_eq {added' : DofBlock → List BlockContribution} (h : Groups added entries)
    (h' : Groups added' entries) : added = added' := by
  funext block
  have hsome {added added' : DofBlock → List BlockContribution} (h : Groups added entries)
      (h' : Groups added' entries) (hne : added block ≠ []) : added block = added' block :=
    ((h'.mem_iff _).1 ((h.mem_iff (block, added block)).2 ⟨rfl, hne⟩)).1
  by_cases hne : added block = []
  · by_contra hdiffer
    exact hdiffer (hsome h' h fun hnone => hdiffer (hne.trans hnone.symm)).symm
  · exact hsome h h' hne

end Groups

end BlockEntry

/-! ## Runs of insertions -/

/-- A contribution that is inserted into a block of a partition. -/
structure Insertion where
  partition : Partition
  block : DofBlock
  contribution : BlockContribution

namespace Insertion

/-- The contributions that are inserted into a block of a partition, in order. -/
def added (insertions : List Insertion) (partition : Partition) (block : DofBlock) :
    List BlockContribution :=
  (insertions.filter fun i => i.partition = partition ∧ i.block = block).map (·.contribution)

theorem added_concat (insertions : List Insertion) (i : Insertion) (partition : Partition) :
    added (insertions ++ [i]) partition =
      if i.partition = partition then
        Function.update (added insertions partition) i.block
          (added insertions partition i.block ++ [i.contribution])
      else added insertions partition := by
  funext block
  split
  next hpartition =>
    obtain rfl | hne := eq_or_ne block i.block
    · simp [added, hpartition]
    · simp [added, hne, hne.symm]
  next hpartition => simp [added, hpartition]

end Insertion

namespace BlockContributions

/-- The contributions that a run of insertions leaves. -/
def ofInsertions (insertions : List Insertion) : BlockContributions :=
  insertions.foldl (fun contributions i =>
    contributions.insert i.partition i.block i.contribution) {}

theorem ext_get {contributions contributions' : BlockContributions}
    (h : ∀ partition, contributions.get partition = contributions'.get partition) :
    contributions = contributions' := by
  obtain ⟨piecewise, varying⟩ := contributions
  obtain ⟨piecewise', varying'⟩ := contributions'
  obtain rfl : piecewise = piecewise' := h .piecewise
  obtain rfl : varying = varying' := h .varying
  rfl

theorem get_insert (contributions : BlockContributions) (partition other : Partition)
    (block : DofBlock) (contribution : BlockContribution) :
    (contributions.insert partition block contribution).get other =
      if partition = other then BlockEntry.insert (contributions.get other) block contribution
      else contributions.get other := by
  cases partition <;> cases other <;> rfl

/-- After any insertions, each partition has the blocks that were inserted there in order, each with
its contributions in the order of their insertion. -/
theorem groups_ofInsertions (insertions : List Insertion) (partition : Partition) :
    BlockEntry.Groups (Insertion.added insertions partition)
      ((ofInsertions insertions).get partition) := by
  induction insertions using List.reverseRecOn with
  | nil => cases partition <;> exact .nil
  | append_singleton insertions i ih =>
      rw [ofInsertions, List.foldl_concat, get_insert, Insertion.added_concat]
      split
      · exact ih.insert i.block i.contribution
      · exact ih

/-- Insertions leave the same exactly if they insert the same into every block, in the same
order. -/
theorem ofInsertions_eq_iff {first second : List Insertion} :
    ofInsertions first = ofInsertions second ↔
      ∀ partition, Insertion.added first partition = Insertion.added second partition := by
  constructor
  · intro heq partition
    exact (groups_ofInsertions first partition).added_eq
      (heq ▸ groups_ofInsertions second partition)
  · intro hadded
    refine ext_get fun partition => (groups_ofInsertions first partition).eq_of_groups ?_
    rw [hadded]
    exact groups_ofInsertions second partition

end BlockContributions

end ElementKernel
