import ElementKernel.Proofs.Scoping.Readings

/-!
# Names in kernels

The names that a kernel gives to its weights, points, slots and variables are told apart by their
letters and by the numbers in them.  A variable lists the derivatives of its terminal without
separators, which is unambiguous as long as every count has one digit.
-/

namespace ElementKernel

open Kernel

/-- Two texts that are split at the first character without `p` are split in the same place. -/
theorem append_inj_of_heads {α : Type} {p : α → Bool} {xs ys rest rest' : List α}
    (hxs : ∀ c ∈ xs, p c) (hys : ∀ c ∈ ys, p c) (hrest : ∀ c ∈ rest.head?, p c = false)
    (hrest' : ∀ c ∈ rest'.head?, p c = false) (h : xs ++ rest = ys ++ rest') :
    xs = ys ∧ rest = rest' := by
  have hnone : ∀ {tail : List α}, (∀ c ∈ tail.head?, p c = false) → tail.takeWhile p = [] := by
    intro tail htail
    cases tail with
    | nil => rfl
    | cons c tail => simp [htail c rfl]
  have htake := congrArg (List.takeWhile p) h
  rw [List.takeWhile_append_of_pos hxs, List.takeWhile_append_of_pos hys, hnone hrest,
    hnone hrest', List.append_nil, List.append_nil] at htake
  subst htake
  exact ⟨rfl, List.append_cancel_left h⟩

/-! ## Numbers -/

theorem isDigit_of_mem_repr {n : Nat} {c : Char} (h : c ∈ (toString n).toList) : c.isDigit := by
  rw [Nat.toString_eq_repr, Nat.toList_repr] at h
  exact Nat.isDigit_of_mem_toDigits (by decide) (by decide) h

theorem toList_toString_inj {m n : Nat} (h : (toString m).toList = (toString n).toList) :
    m = n := by
  simp only [Nat.toString_eq_repr, Nat.toList_repr] at h
  simpa using congrArg (Nat.ofDigitChars 10 · 0) h

theorem append_toString_inj (letters : String) {m n : Nat}
    (h : letters ++ toString m = letters ++ toString n) : m = n := by
  have hchars := congrArg String.toList h
  rw [String.toList_append, String.toList_append] at hchars
  exact toList_toString_inj (List.append_cancel_left hchars)

theorem toList_toString_of_lt {n : Nat} (h : n < 10) : (toString n).toList = [n.digitChar] := by
  rw [Nat.toString_eq_repr, Nat.toList_repr, Nat.toDigits_of_lt_base h]

theorem map_digitChar_inj {xs ys : List Nat} (hxs : ∀ n ∈ xs, n < 10) (hys : ∀ n ∈ ys, n < 10)
    (h : xs.map Nat.digitChar = ys.map Nat.digitChar) : xs = ys := by
  have hdigit : ∀ n < 10, n.digitChar.toNat - 48 = n := by decide
  have hback : ∀ {zs : List Nat}, (∀ n ∈ zs, n < 10) →
      (zs.map Nat.digitChar).map (fun c => c.toNat - 48) = zs := by
    intro zs hzs
    rw [List.map_map]
    exact (List.map_congr_left fun n hn => hdigit n (hzs n hn)).trans (List.map_id zs)
  rw [← hback hxs, ← hback hys, h]

theorem underscore_notMem_append (letters : String) (h : '_' ∉ letters.toList) (n : Nat) :
    '_' ∉ (letters ++ toString n).toList := by
  rw [String.toList_append, List.mem_append]
  rintro (hletter | hdigit)
  · exact h hletter
  · exact absurd (isDigit_of_mem_repr hdigit) (by decide)

/-! ## Weights, points and slots -/

/-- The names of the weights and points of a rule. -/
def Kernel.ruleNames (pointCount : Nat) : List String :=
  [weightsName pointCount, pointsName pointCount]

namespace Kernel

theorem weightsName_inj {m n : Nat} (h : weightsName m = weightsName n) : m = n :=
  append_toString_inj "weights" h

theorem pointsName_inj {m n : Nat} (h : pointsName m = pointsName n) : m = n :=
  append_toString_inj "points" h

theorem head_weightsName (n : Nat) : (weightsName n).toList.head? = some 'w' := by
  rw [weightsName, String.toList_append]
  rfl

theorem head_pointsName (n : Nat) : (pointsName n).toList.head? = some 'p' := by
  rw [pointsName, String.toList_append]
  rfl

theorem head_slotsName (partition : Partition) (n : Nat) :
    (slotsName partition n).toList.head? = some 's' := by
  cases partition <;> (rw [slotsName, String.toList_append]; rfl)

theorem ne_of_heads {name other : String} {c d : Char} (hname : name.toList.head? = some c)
    (hother : other.toList.head? = some d) (hcd : c ≠ d) : name ≠ other := by
  rintro rfl
  exact hcd (Option.some.inj (hname.symm.trans hother))

theorem slotsName_inj {partition partition' : Partition} {m n : Nat}
    (h : slotsName partition m = slotsName partition' n) : partition = partition' ∧ m = n := by
  have hchars := congrArg String.toList h
  cases partition <;> cases partition'
  · exact ⟨rfl, append_toString_inj "sp" h⟩
  · rw [slotsName, slotsName, String.toList_append, String.toList_append] at hchars
    change 's' :: 'p' :: _ = 's' :: 'v' :: _ at hchars
    cases hchars
  · rw [slotsName, slotsName, String.toList_append, String.toList_append] at hchars
    change 's' :: 'v' :: _ = 's' :: 'p' :: _ at hchars
    cases hchars
  · exact ⟨rfl, append_toString_inj "sv" h⟩

theorem underscore_notMem_slotsName (partition : Partition) (n : Nat) :
    '_' ∉ (slotsName partition n).toList := by
  cases partition
  · exact underscore_notMem_append "sp" (by decide) n
  · exact underscore_notMem_append "sv" (by decide) n

theorem underscore_notMem_ruleNames (n : Nat) : ∀ name ∈ ruleNames n, '_' ∉ name.toList :=
  List.forall_mem_cons.2 ⟨underscore_notMem_append "weights" (by decide) n,
    List.forall_mem_singleton.2 (underscore_notMem_append "points" (by decide) n)⟩

theorem nodup_flatMap_ruleNames {counts : List Nat} (h : counts.Nodup) :
    (counts.flatMap ruleNames).Nodup := by
  refine List.nodup_flatMap.2 ⟨fun n _ => ?_, h.imp fun {m n} hne name hm hn => ?_⟩
  · have hne := ne_of_heads (head_weightsName n) (head_pointsName n) (by decide)
    simp [ruleNames, hne]
  · simp only [ruleNames, List.mem_cons, List.not_mem_nil, or_false] at hm hn
    obtain rfl | rfl := hm <;> obtain hname | hname := hn
    · exact hne (weightsName_inj hname)
    · exact ne_of_heads (head_weightsName m) (head_pointsName n) (by decide) hname
    · exact ne_of_heads (head_pointsName m) (head_weightsName n) (by decide) hname
    · exact hne (pointsName_inj hname)

end Kernel

/-! ## Variables -/

namespace Terminal

/-- What the variable of an expanded terminal is called first. -/
def base? : Terminal → Option String
  | .coefficient number => some s!"w{number}"
  | .spatialCoordinate => some "x"
  | .jacobian => some "J"
  | _ => none

variable {terminal terminal' : Terminal} {base : String}

theorem base?_eq_some (h : terminal.base? = some base) :
    (∃ number : Nat, terminal = .coefficient number ∧ base = s!"w{number}") ∨
      terminal = .spatialCoordinate ∧ base = "x" ∨ terminal = .jacobian ∧ base = "J" := by
  cases terminal with
  | coefficient number =>
      cases h
      exact .inl ⟨number, rfl, rfl⟩
  | spatialCoordinate =>
      cases h
      exact .inr (.inl ⟨rfl, rfl⟩)
  | jacobian =>
      cases h
      exact .inr (.inr ⟨rfl, rfl⟩)
  | _ => cases h

theorem underscore_notMem_base (h : terminal.base? = some base) : '_' ∉ base.toList := by
  obtain ⟨number, -, rfl⟩ | ⟨-, rfl⟩ | ⟨-, rfl⟩ := base?_eq_some h
  · exact underscore_notMem_append "w" (by decide) number
  · decide
  · decide

theorem base?_inj (h : terminal.base? = some base) (h' : terminal'.base? = some base) :
    terminal = terminal' := by
  have hcoefficient (number : Nat) : (s!"w{number}").toList.head? = some 'w' := by
    rw [String.toList_append]
    rfl
  obtain ⟨number, rfl, rfl⟩ | ⟨rfl, rfl⟩ | ⟨rfl, rfl⟩ := base?_eq_some h
  · obtain ⟨number', rfl, heq⟩ | ⟨rfl, heq⟩ | ⟨rfl, heq⟩ := base?_eq_some h'
    · rw [append_toString_inj "w" heq]
    · exact absurd heq (ne_of_heads (hcoefficient number) (d := 'x') rfl (by decide))
    · exact absurd heq (ne_of_heads (hcoefficient number) (d := 'J') rfl (by decide))
  · obtain ⟨number', rfl, heq⟩ | ⟨rfl, -⟩ | ⟨rfl, heq⟩ := base?_eq_some h'
    · exact absurd heq.symm (ne_of_heads (hcoefficient number') (d := 'x') rfl (by decide))
    · rfl
    · exact absurd heq (by decide)
  · obtain ⟨number', rfl, heq⟩ | ⟨rfl, heq⟩ | ⟨rfl, -⟩ := base?_eq_some h'
    · exact absurd heq.symm (ne_of_heads (hcoefficient number') (d := 'J') rfl (by decide))
    · exact absurd heq (by decide)
    · rfl

end Terminal

namespace ModifiedTerminal

/-- The terminal without derivative counts that are all zero. -/
def normalized (t : ModifiedTerminal) : ModifiedTerminal :=
  { t with localDerivatives := if t.localDerivatives.any (0 < ·) then t.localDerivatives else [] }

/-- The part of the name of a variable that lists the derivatives. -/
def derivativeText (t : ModifiedTerminal) : List Char :=
  if t.localDerivatives.any (0 < ·) then '_' :: 'd' :: t.localDerivatives.map Nat.digitChar else []

/-- The part of the name of a variable that tells the side. -/
def sideText (t : ModifiedTerminal) : List Char :=
  match t.restriction with
  | none => []
  | some r => ['_', 'r', r.side.digitChar]

variable {t t' : ModifiedTerminal}

/-- The part of the name of a variable that lists the derivatives, with all digits of every count. -/
def derivativeDigits (t : ModifiedTerminal) : List Char :=
  if t.localDerivatives.any (0 < ·) then
    '_' :: 'd' :: t.localDerivatives.flatMap fun count => (toString count).toList
  else []

theorem derivativeDigits_of_lt (h : ∀ count ∈ t.localDerivatives, count < 10) :
    t.derivativeDigits = t.derivativeText := by
  have hcounts : (t.localDerivatives.flatMap fun count => (toString count).toList) =
      t.localDerivatives.map Nat.digitChar := by
    rw [List.map_eq_flatMap]
    exact List.flatMap_congr fun count hcount => toList_toString_of_lt (h count hcount)
  rw [derivativeDigits, derivativeText, hcounts]

theorem toList_variableName (base : String) :
    (t.variableName base).toList = base.toList ++
      ('_' :: 'c' :: ((toString t.component).toList ++ (t.derivativeDigits ++ t.sideText))) := by
  have hderivatives : (if t.localDerivatives.any (0 < ·) then
      "_d" ++ String.join (t.localDerivatives.map toString) else "").toList =
        t.derivativeDigits := by
    unfold derivativeDigits
    split
    · rw [String.toList_append, String.toList_join, List.flatMap_map]
      rfl
    · rfl
  have hside : ((t.restriction.map fun r => s!"_r{r.side}").getD "").toList = t.sideText := by
    unfold sideText
    cases t.restriction with
    | none => rfl
    | some r => cases r <;> rfl
  unfold variableName
  dsimp only
  rw [String.toList_append, String.toList_append, hderivatives, hside, String.toList_append,
    String.toList_append, List.append_assoc, List.append_assoc, List.append_assoc]
  rfl

theorem isDigit_head_sideText : ∀ c ∈ t.sideText.head?, c.isDigit = false := by
  unfold sideText
  split
  · nofun
  · rintro c ⟨⟩
    rfl

theorem isDigit_head_derivativeDigits :
    ∀ c ∈ (t.derivativeDigits ++ t.sideText).head?, c.isDigit = false := by
  unfold derivativeDigits
  split
  · rintro c ⟨⟩
    rfl
  · exact isDigit_head_sideText

theorem sideText_inj (h : t.sideText = t'.sideText) : t.restriction = t'.restriction := by
  unfold sideText at h
  cases hrestriction : t.restriction with
  | none =>
      cases hrestriction' : t'.restriction with
      | none => rfl
      | some r' => simp [hrestriction, hrestriction'] at h
  | some r =>
      cases hrestriction' : t'.restriction with
      | none => simp [hrestriction, hrestriction'] at h
      | some r' =>
          rw [hrestriction, hrestriction'] at h
          cases r <;> cases r' <;> first | rfl | cases h

/-- The derivatives are not taken for a side. -/
theorem sideText_ne (counts rest : List Char) : t.sideText ≠ '_' :: 'd' :: counts ++ rest := by
  unfold sideText
  split <;> simp

theorem derivativeDigits_append_inj
    (heq : t.derivativeDigits ++ t.sideText = t'.derivativeDigits ++ t'.sideText) :
    t.derivativeDigits = t'.derivativeDigits ∧ t.restriction = t'.restriction := by
  have hdigits : ∀ counts : List Nat,
      ∀ c ∈ counts.flatMap (fun count => (toString count).toList), c.isDigit := by
    intro counts c hc
    obtain ⟨count, -, hc⟩ := List.mem_flatMap.1 hc
    exact isDigit_of_mem_repr hc
  unfold derivativeDigits at heq ⊢
  split at heq
  next hany =>
    split at heq
    next hany' =>
      obtain ⟨hcounts, hside⟩ := append_inj_of_heads (hdigits _) (hdigits _)
        isDigit_head_sideText isDigit_head_sideText (List.cons.inj (List.cons.inj heq).2).2
      rw [if_pos hany, if_pos hany', hcounts]
      exact ⟨rfl, sideText_inj hside⟩
    next => exact absurd heq.symm (sideText_ne _ _)
  next hnone =>
    split at heq
    next => exact absurd heq (sideText_ne _ _)
    next hnone' =>
      rw [if_neg hnone, if_neg hnone']
      exact ⟨rfl, sideText_inj heq⟩

/-- What the name of a variable tells: its base, the component, the digits of the derivatives one
after the other, and the side. -/
theorem variableName_eq_iff {base base' : String} (hbase : '_' ∉ base.toList)
    (hbase' : '_' ∉ base'.toList) :
    t.variableName base = t'.variableName base' ↔
      base = base' ∧ t.component = t'.component ∧
        t.derivativeDigits = t'.derivativeDigits ∧ t.restriction = t'.restriction := by
  rw [← String.toList_inj, toList_variableName, toList_variableName]
  constructor
  · intro heq
    have hother : ∀ {letters : List Char}, '_' ∉ letters → ∀ c ∈ letters, (c != '_') = true :=
      fun hletters c hc => bne_iff_ne.2 fun heq => hletters (heq ▸ hc)
    obtain ⟨hletters, hrest⟩ := append_inj_of_heads (p := fun c => c != '_') (hother hbase)
      (hother hbase') (by simp) (by simp) heq
    obtain ⟨hcomponent, htail⟩ := append_inj_of_heads (p := Char.isDigit)
      (fun c hc => isDigit_of_mem_repr hc) (fun c hc => isDigit_of_mem_repr hc)
      isDigit_head_derivativeDigits isDigit_head_derivativeDigits
      (List.cons.inj (List.cons.inj hrest).2).2
    obtain ⟨hderivatives, hrestriction⟩ := derivativeDigits_append_inj htail
    exact ⟨String.toList_inj.1 hletters, toList_toString_inj hcomponent, hderivatives,
      hrestriction⟩
  · rintro ⟨rfl, hcomponent, hderivatives, hrestriction⟩
    rw [hcomponent, hderivatives, sideText, hrestriction, sideText]

theorem normalized_derivatives_inj (h : ∀ count ∈ t.localDerivatives, count < 10)
    (h' : ∀ count ∈ t'.localDerivatives, count < 10)
    (heq : t.derivativeDigits = t'.derivativeDigits) :
    t.normalized.localDerivatives = t'.normalized.localDerivatives := by
  rw [derivativeDigits_of_lt h, derivativeDigits_of_lt h'] at heq
  unfold derivativeText at heq
  unfold normalized
  dsimp only
  split at heq
  next hany =>
    split at heq
    next hany' =>
      rw [if_pos hany, if_pos hany']
      exact map_digitChar_inj h h' (List.cons.inj (List.cons.inj heq).2).2
    next => cases heq
  next hnone =>
    split at heq
    next => cases heq
    next hnone' => rw [if_neg hnone, if_neg hnone']

theorem expansionName_eq_some {range? : Option TableRange} {name : String}
    (h : t.expansionName? range? = some name) :
    ∃ base, t.terminal.base? = some base ∧ name = t.variableName base := by
  unfold expansionName? at h
  split at h
  next number _ hterminal =>
    split at h <;> cases h
    exact ⟨_, by rw [hterminal]; rfl, rfl⟩
  next hterminal =>
    split at h <;> cases h
    exact ⟨_, by rw [hterminal]; rfl, rfl⟩
  next hterminal =>
    split at h <;> cases h
    exact ⟨_, by rw [hterminal]; rfl, rfl⟩
  next => cases h

/-- Two terminals with one variable are the same, up to derivative counts that are all zero. -/
theorem normalized_eq_of_expansionName {range? range?' : Option TableRange} {name : String}
    (hname : t.expansionName? range? = some name) (hname' : t'.expansionName? range?' = some name)
    (h : ∀ count ∈ t.localDerivatives, count < 10)
    (h' : ∀ count ∈ t'.localDerivatives, count < 10) : t.normalized = t'.normalized := by
  obtain ⟨base, hbase, rfl⟩ := expansionName_eq_some hname
  obtain ⟨base', hbase', heq⟩ := expansionName_eq_some hname'
  obtain ⟨rfl, hcomponent, hdigits, hrestriction⟩ := (variableName_eq_iff
    (Terminal.underscore_notMem_base hbase) (Terminal.underscore_notMem_base hbase')).1 heq
  have hterminal := Terminal.base?_inj hbase hbase'
  have hderivatives := normalized_derivatives_inj h h' hdigits
  unfold normalized at hderivatives ⊢
  dsimp only at hderivatives
  rw [hderivatives, hterminal, hcomponent, hrestriction]

theorem ne_of_expansionName {range? : Option TableRange} {name other : String}
    (h : t.expansionName? range? = some name) (hother : '_' ∉ other.toList) :
    name ≠ other := by
  rintro rfl
  obtain ⟨base, -, rfl⟩ := expansionName_eq_some h
  refine hother ?_
  simp only [variableName, String.toList_append, List.mem_append]
  exact .inl (.inl (.inl (.inr (by decide))))

end ModifiedTerminal

end ElementKernel
