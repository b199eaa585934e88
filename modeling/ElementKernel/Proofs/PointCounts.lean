import ElementKernel.Proofs.Scoping.Declarations

/-!
# Numbers of points

The code for one number of quadrature points depends on nothing that another one leaves behind: an
integral is generated exactly if it is for every number of points alone, and its kernel is put
together from what follows the reset of the element tensor in these kernels.
-/

namespace ElementKernel

open Kernel

/-! ## Maps -/

namespace OrderedMap

variable {κ α : Type} [LT κ]

/-- The map with at most one key left. -/
def keep [DecidableEq κ] (map : OrderedMap κ α) (key : κ) : OrderedMap κ α where
  entries := map.entries.filter (·.1 = key)
  ascending := map.ascending.sublist (List.filter_sublist.map Prod.fst)

theorem entries_keep [DecidableEq κ] [Std.Irrefl (α := κ) (· < ·)] {map : OrderedMap κ α}
    {key : κ} {value : α} (h : (key, value) ∈ map.entries) :
    (map.keep key).entries = [(key, value)] := by
  have hunique : ∀ entry ∈ (map.keep key).entries, entry = (key, value) := by
    rintro ⟨_, other⟩ hentry
    obtain ⟨hmem, hkey⟩ := List.mem_filter.1 hentry
    obtain rfl := of_decide_eq_true hkey
    have hother := get?_eq_some_iff.2 hmem
    rw [get?_eq_some_iff.2 h] at hother
    rw [Option.some.inj hother]
  have hnodup : (map.keep key).entries.Nodup := (map.keep key).nodup_keys.of_map _
  have hmem : (key, value) ∈ (map.keep key).entries := List.mem_filter.2 ⟨h, by simp⟩
  cases hentries : (map.keep key).entries with
  | nil => simp [hentries] at hmem
  | cons first rest =>
      rw [hentries] at hunique hnodup
      obtain rfl := hunique first List.mem_cons_self
      cases rest with
      | nil => rfl
      | cons second rest =>
          obtain rfl := hunique second (by simp)
          simp at hnodup

theorem get?_keep [DecidableEq κ] [Std.Irrefl (α := κ) (· < ·)] {map : OrderedMap κ α}
    {key k : κ} {value : α} :
    (map.keep key).get? k = some value ↔ k = key ∧ map.get? k = some value := by
  simp [get?_eq_some_iff, keep, List.mem_filter, and_comm]

variable [DecidableLT κ] [Std.Trichotomous (α := κ) (· < ·)]

theorem mem_keys_insertEntry_iff {key k : κ} {value : α} {entries : List (κ × α)} :
    k ∈ (insertEntry key value entries).map Prod.fst ↔ k = key ∨ k ∈ entries.map Prod.fst := by
  induction entries with
  | nil => simp [insertEntry]
  | cons entry rest ih =>
      obtain ⟨first, v⟩ := entry
      unfold insertEntry
      split
      next => simp
      next hle =>
        split
        next => simp only [List.map_cons, List.mem_cons, ih, or_left_comm]
        next hge =>
          obtain rfl := Std.Trichotomous.trichotomous (r := (· < ·)) key first hle hge
          simp

variable [Trans (α := κ) (β := κ) (γ := κ) (· < ·) (· < ·) (· < ·)]

theorem mem_keys_ofList {entries : List (κ × α)} {key : κ} :
    key ∈ (ofList entries).keys ↔ key ∈ entries.map Prod.fst := by
  suffices h : ∀ map : OrderedMap κ α,
      key ∈ (entries.foldl (fun map entry => map.insert entry.1 entry.2) map).keys ↔
        key ∈ map.keys ∨ key ∈ entries.map Prod.fst by
    exact (h {}).trans (by simp [keys])
  induction entries with
  | nil => simp
  | cons entry rest ih =>
      intro map
      rw [List.foldl_cons, ih, List.map_cons, List.mem_cons, ← or_assoc]
      exact or_congr_left (mem_keys_insertEntry_iff.trans or_comm)

end OrderedMap

/-! ## What follows the reset -/

namespace Stmt

/-- Comments and arrays stand in front of the reset of the element tensor. -/
def isPreamble : Stmt → Bool
  | .comment _ | .array _ => true
  | _ => false

/-- The statements behind the first one that is neither a comment nor an array.  In a kernel that is
the one that resets the element tensor. -/
def afterReset (body : List Stmt) : List Stmt := (body.dropWhile isPreamble).tail

theorem afterReset_append {tables rest : List Stmt} {s : Stmt}
    (htables : ∀ s ∈ tables, s.isPreamble) (hs : s.isPreamble = false) :
    afterReset (tables ++ s :: rest) = rest := by
  rw [afterReset, List.dropWhile_append_of_pos htables, List.dropWhile_cons_of_neg (by simp [hs]),
    List.tail_cons]

end Stmt

/-- The statements of a kernel that follow the reset of the element tensor. -/
def GeneratedKernel.computations (kernel : GeneratedKernel) : List Stmt :=
  match kernel.body with
  | .list body => Stmt.afterReset body
  | _ => []

namespace Kernel

variable {integral : Integral} {options : KernelOptions}

theorem afterReset_body {rules reset code : List Stmt}
    (hrules : quadratureTables options integral = .ok rules)
    (hreset : tensorReset integral = .ok reset) :
    Stmt.afterReset (rules ++ elementTables options integral ++ reset ++ code) = code := by
  obtain ⟨size, -, h⟩ := bind_eq_ok.1 hreset
  cases h
  rw [List.append_assoc _ _ code, List.cons_append, List.singleton_append, List.append_cons]
  refine Stmt.afterReset_append (List.forall_mem_append.2
    ⟨forall_mem_tables hrules (fun _ => rfl) fun _ => rfl, List.forall_mem_singleton.2 rfl⟩) ?_
  · split
    · rfl
    · rfl

theorem mem_operatorNames {operators : List Operator} {name : String} :
    name ∈ operatorNames operators ↔ ∃ op ∈ operators, op.name = name := by
  simp [operatorNames, OrderedMap.mem_keys_ofList]

end Kernel

/-! ## Integrals -/

namespace Integral

variable {integral : Integral} {target : Target} {options : KernelOptions}

/-- The integral with the integrand for one number of points, and with all rules. -/
def keep (integral : Integral) (pointCount : Nat) : Integral :=
  { integral with integrands := integral.integrands.keep pointCount }

/-- What generation asks of the parts of a kernel, and the kernel that is made of them. -/
theorem generate_eq_ok_iff {kernel : GeneratedKernel} :
    integral.generate target options = .ok kernel ↔
      integral.type ≠ .expression ∧
      (∀ entry ∈ integral.integrands.entries, checkIntegrand entry.2 = .ok ()) ∧
      ∃ rules reset codes, quadratureTables options integral = .ok rules ∧
        tensorReset integral = .ok reset ∧
        List.Forall₂ (fun entry code =>
          integrandCode target options integral entry.1 entry.2 = .ok code)
          integral.integrands.entries codes ∧
        kernel.body = .list (rules ++ elementTables options integral ++ reset ++
          joinCodes (codes.map (·.1))) ∧
        kernel.operators = operatorNames (codes.flatMap (·.2)) := by
  unfold generate
  split
  next hexpression => exact iff_of_false nofun fun h => h.1 hexpression
  next hintegrates =>
    constructor
    · intro h
      obtain ⟨_, hchecks, h⟩ := bind_eq_ok.1 h
      obtain ⟨rules, hrules, h⟩ := bind_eq_ok.1 h
      obtain ⟨reset, hreset, h⟩ := bind_eq_ok.1 h
      obtain ⟨codes, hcodes, h⟩ := bind_eq_ok.1 h
      cases h
      exact ⟨hintegrates, forM_eq_ok.1 hchecks, rules, reset, codes, hrules, liftM_eq_ok.1 hreset,
        mapM_eq_ok.1 hcodes, rfl, rfl⟩
    · obtain ⟨body, operators⟩ := kernel
      rintro ⟨-, hchecks, rules, reset, codes, hrules, hreset, hcodes, rfl, rfl⟩
      refine bind_eq_ok.2 ⟨(), forM_eq_ok.2 hchecks, bind_eq_ok.2 ⟨rules, hrules, ?_⟩⟩
      exact bind_eq_ok.2 ⟨reset, liftM_eq_ok.2 hreset,
        bind_eq_ok.2 ⟨codes, mapM_eq_ok.2 hcodes, rfl⟩⟩

theorem exists_generate_iff :
    (∃ kernel, integral.generate target options = .ok kernel) ↔
      integral.type ≠ .expression ∧ (∃ reset, tensorReset integral = .ok reset) ∧
      (∃ rules, quadratureTables options integral = .ok rules) ∧
      ∀ entry ∈ integral.integrands.entries, checkIntegrand entry.2 = .ok () ∧
        ∃ code, integrandCode target options integral entry.1 entry.2 = .ok code := by
  constructor
  · rintro ⟨kernel, h⟩
    obtain ⟨htype, hchecks, rules, reset, codes, hrules, hreset, hcodes, -⟩ :=
      generate_eq_ok_iff.1 h
    refine ⟨htype, ⟨reset, hreset⟩, ⟨rules, hrules⟩, fun entry hentry =>
      ⟨hchecks entry hentry, ?_⟩⟩
    obtain ⟨code, -, hcode⟩ := exists_of_forall₂_left hcodes hentry
    exact ⟨code, hcode⟩
  · rintro ⟨htype, ⟨reset, hreset⟩, ⟨rules, hrules⟩, hentries⟩
    obtain ⟨codes, hcodes⟩ := exists_mapM_eq_ok.2 fun entry hentry => (hentries entry hentry).2
    exact ⟨⟨_, _⟩, generate_eq_ok_iff.2 ⟨htype, fun entry hentry => (hentries entry hentry).1,
      rules, reset, codes, hrules, hreset, mapM_eq_ok.1 hcodes, rfl, rfl⟩⟩

/-! ### One number of points -/

theorem entries_keep {entry : Nat × Integrand} (h : entry ∈ integral.integrands.entries) :
    (integral.keep entry.1).integrands.entries = [entry] :=
  OrderedMap.entries_keep h

theorem rulesComplete_iff (hsome : integral.integrands.entries ≠ []) :
    integral.RulesComplete ↔
      ∀ entry ∈ integral.integrands.entries, (integral.keep entry.1).RulesComplete := by
  constructor
  · intro h entry hentry
    refine ⟨fun other hother => ?_, h.size⟩
    rw [entries_keep hentry, List.mem_singleton] at hother
    subst hother
    exact h.registered other hentry
  · intro h
    obtain ⟨first, hfirst⟩ := List.exists_mem_of_ne_nil _ hsome
    refine ⟨fun entry hentry => ?_, (h first hfirst).size⟩
    exact (h entry hentry).registered entry (by simp [entries_keep hentry])

/-- An integral has its tables of weights and points exactly if every integrand alone has them. -/
theorem exists_quadratureTables_iff (hsome : integral.integrands.entries ≠ []) :
    (∃ rules, quadratureTables options integral = .ok rules) ↔
      ∀ entry ∈ integral.integrands.entries,
        ∃ rules, quadratureTables options (integral.keep entry.1) = .ok rules := by
  simp only [(quadratureTables_decides options _).exists_ok_iff, rulesComplete_iff hsome]
  constructor
  · rintro ⟨hcomplete, hfits⟩ entry hentry
    refine ⟨fun hstatic => hcomplete hstatic entry hentry,
      fun hstatic rule hrule integrand hget => ?_⟩
    exact hfits hstatic rule hrule integrand (OrderedMap.get?_keep.1 hget).2
  · intro h
    refine ⟨fun hstatic entry hentry => (h entry hentry).1 hstatic,
      fun hstatic rule hrule integrand hget => ?_⟩
    exact (h _ (OrderedMap.get?_eq_some_iff.1 hget)).2 hstatic rule hrule integrand
      (OrderedMap.get?_keep.2 ⟨rfl, hget⟩)

/-- Generation succeeds exactly if it does for every number of points alone. -/
theorem exists_generate_iff_keep (hsome : integral.integrands.entries ≠ []) :
    (∃ kernel, integral.generate target options = .ok kernel) ↔
      ∀ entry ∈ integral.integrands.entries,
        ∃ kernel, (integral.keep entry.1).generate target options = .ok kernel := by
  simp only [exists_generate_iff, exists_quadratureTables_iff hsome]
  constructor
  · rintro ⟨htype, hreset, hrules, hentries⟩ entry hentry
    refine ⟨htype, hreset, hrules entry hentry, ?_⟩
    rw [entries_keep hentry, List.forall_mem_singleton]
    exact hentries entry hentry
  · intro h
    obtain ⟨first, hfirst⟩ := List.exists_mem_of_ne_nil _ hsome
    obtain ⟨htype, hreset, -⟩ := h first hfirst
    refine ⟨htype, hreset, fun entry hentry => (h entry hentry).2.2.1, fun entry hentry => ?_⟩
    exact (h entry hentry).2.2.2 entry (by simp [entries_keep hentry])

/-- What a kernel says behind the reset of the element tensor, and the operators that it uses. -/
def Computes (code : List Stmt × List Operator) (kernel : GeneratedKernel) : Prop :=
  kernel.computations = code.1 ∧ kernel.operators = operatorNames code.2

/-- Alone, a number of points has the code that it has among others. -/
theorem exists_alone {kernel : GeneratedKernel}
    (h : integral.generate target options = .ok kernel) {entry : Nat × Integrand}
    (hentry : entry ∈ integral.integrands.entries) {code : List Stmt × List Operator}
    (hcode : integrandCode target options integral entry.1 entry.2 = .ok code) :
    ∃ single, (integral.keep entry.1).generate target options = .ok single ∧
      Computes code single := by
  obtain ⟨single, hsingle⟩ :=
    (exists_generate_iff_keep (List.ne_nil_of_mem hentry)).1 ⟨kernel, h⟩ entry hentry
  obtain ⟨-, -, rules, reset, codes, hrules, hreset, hcodes, hbody, hoperators⟩ :=
    generate_eq_ok_iff.1 hsingle
  rw [entries_keep hentry] at hcodes
  obtain _ | ⟨hown, _ | _⟩ := hcodes
  -- Of the integral, the code of an integrand sees only the shape of the tensor.
  obtain rfl := Except.ok.inj (hcode.symm.trans hown)
  refine ⟨single, hsingle, ?_, by simpa using hoperators⟩
  rw [GeneratedKernel.computations, hbody]
  simpa [joinCodes] using afterReset_body hrules hreset

theorem scopes_eq {codes : List (List Stmt × List Operator)} {singles : List GeneratedKernel}
    (h : List.Forall₂ Computes codes singles) :
    codes.map (fun code => Stmt.scope code.1) =
      singles.map fun single => .scope single.computations := by
  rw [← List.forall₂_eq_eq_eq, List.forall₂_map_left_iff, List.forall₂_map_right_iff]
  exact h.imp fun _ _ hcode => congrArg Stmt.scope hcode.1.symm

theorem mem_operatorNames_flatMap {codes : List (List Stmt × List Operator)}
    {singles : List GeneratedKernel} (h : List.Forall₂ Computes codes singles) {name : String} :
    name ∈ operatorNames (codes.flatMap (·.2)) ↔ ∃ single ∈ singles, name ∈ single.operators := by
  rw [mem_operatorNames]
  constructor
  · rintro ⟨op, hop, rfl⟩
    obtain ⟨code, hcode, hop⟩ := List.mem_flatMap.1 hop
    obtain ⟨single, hsingle, hcomputes⟩ := exists_of_forall₂_left h hcode
    exact ⟨single, hsingle, hcomputes.2 ▸ mem_operatorNames.2 ⟨op, hop, rfl⟩⟩
  · rintro ⟨single, hsingle, hname⟩
    obtain ⟨code, hcode, hcomputes⟩ := exists_of_forall₂_right h hsingle
    obtain ⟨op, hop, hname⟩ := mem_operatorNames.1 (hcomputes.2 ▸ hname)
    exact ⟨op, List.mem_flatMap.2 ⟨code, hcode, hop⟩, hname⟩

/-- Numbers of points are generated independently: an integral with several of them has a kernel
exactly if each of them alone has one, and then the reset of the element tensor is followed by one
scope for each number, in ascending order, with what follows the reset in the kernel for this number
alone; the operators that are used are those of these kernels. -/
theorem generate_independent (integral : Integral) (target : Target) (options : KernelOptions)
    (hseveral : 1 < integral.integrands.keys.length) :
    ((∃ kernel, integral.generate target options = .ok kernel) ↔
      ∀ n ∈ integral.integrands.keys,
        ∃ single, (integral.keep n).generate target options = .ok single) ∧
    integral.integrands.keys.Pairwise (· < ·) ∧
    ∀ kernel, integral.generate target options = .ok kernel →
      ∃ singles : List GeneratedKernel,
        List.Forall₂ (fun n single => (integral.keep n).generate target options = .ok single)
          integral.integrands.keys singles ∧
        kernel.computations = singles.map (fun single => .scope single.computations) ∧
        kernel.operators.Pairwise (· < ·) ∧
        ∀ name, name ∈ kernel.operators ↔ ∃ single ∈ singles, name ∈ single.operators := by
  have hlength : 1 < integral.integrands.entries.length := by
    simpa [OrderedMap.keys] using hseveral
  have hsome : integral.integrands.entries ≠ [] := List.ne_nil_of_length_pos (by omega)
  refine ⟨(exists_generate_iff_keep hsome).trans (by simp [OrderedMap.keys]),
    integral.integrands.ascending, fun kernel h => ?_⟩
  obtain ⟨-, -, rules, reset, codes, hrules, hreset, hcodes, hbody, hoperators⟩ :=
    generate_eq_ok_iff.1 h
  have hmem := (List.forall₂_and_left _ _).2 ⟨fun _ hentry => hentry, hcodes⟩
  have halone : List.Forall₂ (fun entry code =>
      ∃ single, (integral.keep entry.1).generate target options = .ok single ∧
        Computes code single) integral.integrands.entries codes := by
    refine hmem.imp ?_
    rintro entry code ⟨hentry, hcode⟩
    exact exists_alone h hentry hcode
  obtain ⟨singles, halone, hcomputes⟩ := exists_forall₂_of_forall₂ halone
  refine ⟨singles, List.forall₂_map_left_iff.2 halone, ?_, ?_, fun name => ?_⟩
  · have hcodesLength : 1 < (codes.map (·.1)).length := by
      rwa [List.length_map, ← hcodes.length_eq]
    rw [GeneratedKernel.computations, hbody, ← scopes_eq hcomputes]
    refine (afterReset_body hrules hreset).trans ?_
    rw [joinCodes, if_pos hcodesLength, List.map_map]
    rfl
  · rw [hoperators]
    exact OrderedMap.ascending _
  · rw [hoperators]
    exact mem_operatorNames_flatMap hcomputes

/-- The kernel for one and two points, from the kernels for one point and for two. -/
theorem generate_independent_loadTwice : ∃ kernel one two,
    (loadTwice "FE0" "FE1").generate cellTarget {} = .ok kernel ∧
    ((loadTwice "FE0" "FE1").keep 1).generate cellTarget {} = .ok one ∧
    ((loadTwice "FE0" "FE1").keep 2).generate cellTarget {} = .ok two ∧
    kernel.computations = [.scope one.computations, .scope two.computations] := by
  have hkernel := eq_ok_get (x := (loadTwice "FE0" "FE1").generate cellTarget {})
    (by decide +kernel)
  obtain ⟨singles, halone, hcomputations, -⟩ :=
    (generate_independent (loadTwice "FE0" "FE1") cellTarget {} (by decide)).2.2 _ hkernel
  obtain _ | ⟨hone, _ | ⟨htwo, _ | _⟩⟩ := halone
  exact ⟨_, _, _, hkernel, hone, htwo, hcomputations⟩

end Integral

end ElementKernel
