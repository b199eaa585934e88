import ElementKernel.Interchange.Json
import ElementKernel.Proofs.Outcome
import Mathlib

/-!
# Values that JSON gives back

A value is restored when reading what is written of it gives the value.  A faithful format restores
all of its values.  Formats with floating-point numbers are not faithful, since a number that is not
finite is written as null, and nor are maps, whose keys have to fit the machine word when they are
read: for these the statements below are about one value and its parts.
-/

namespace ElementKernel

namespace JsonFormat

section

variable {α : Type} [JsonFormat α]

def Restored (x : α) : Prop := decode (encode x) = .ok x

variable (α) in
/-- Formats that give all values back. -/
class Faithful : Prop where
  restored (x : α) : Restored x

variable (α) in
/-- Formats in which no value is written as null, so that null is free for a missing value. -/
class NonNull : Prop where
  encode_ne_null (x : α) : encode x ≠ .null

end

@[simp] theorem ok_bind {α β : Type} (a : α) (k : α → Decoded β) :
    (.ok a >>= k : Decoded β) = k a :=
  rfl

@[simp] theorem map_ok {α β : Type} (f : α → β) (a : α) :
    (f <$> .ok a : Decoded β) = .ok (f a) :=
  rfl

@[simp] theorem liftM_some {α : Type} (a : α) : (liftM (some a) : Decoded α) = .ok a := rfl

theorem mapM_map_eq_ok {α β : Type} {xs : List α} {write : α → β} {read : β → Decoded α}
    (h : ∀ x ∈ xs, read (write x) = .ok x) : (xs.map write).mapM read = .ok xs := by
  rw [mapM_eq_ok, List.forall₂_map_left_iff, List.forall₂_same]
  exact h

/-! ## Records and alternatives -/

theorem lookup_of_mem {α : Type} {members : List (String × α)}
    (hnodup : (members.map Prod.fst).Nodup) {key : String} {value : α}
    (h : (key, value) ∈ members) : members.lookup key = some value := by
  induction members with
  | nil => cases h
  | cons first rest ih =>
      obtain ⟨hfresh, hnodup⟩ := List.nodup_cons.1 hnodup
      obtain _ | ⟨_, hrest⟩ := h
      · simp [List.lookup]
      · have hne : key ≠ first.1 := fun heq => hfresh (heq ▸ List.mem_map_of_mem hrest)
        rw [List.lookup_cons, beq_false_of_ne hne]
        exact ih hnodup hrest

theorem members?_object {names : List String} {members : List (String × JsonValue)}
    (hnodup : names.Nodup) (hnames : members.map Prod.fst = names) :
    JsonValue.members? names (.object members) =
      some (members.map fun member => some member.2) := by
  subst hnames
  rw [JsonValue.members?, List.map_map]
  exact congrArg some
    (List.map_congr_left fun member hmember => lookup_of_mem hnodup hmember)

theorem record_of_members {α : Type} {names : List String}
    {read : List (Option JsonValue) → Decoded α} {members : List (String × JsonValue)}
    {fields : List (Option JsonValue)} {x : α}
    (hmembers : JsonValue.members? names (.object members) = some fields)
    (h : read fields = .ok x) : JsonValue.record names read (.object members) = .ok x := by
  simp only [JsonValue.record, hmembers]
  exact h

theorem record_restores {α : Type} {names : List String}
    {read : List (Option JsonValue) → Decoded α} {members : List (String × JsonValue)} {x : α}
    (hnodup : names.Nodup) (hnames : members.map Prod.fst = names)
    (h : read (members.map fun member => some member.2) = .ok x) :
    JsonValue.record names read (.object members) = .ok x :=
  record_of_members (members?_object hnodup hnames) h

/-- Alternatives with different names are told apart by them. -/
theorem named_restores {α : Type} {all : List α} {name : α → String}
    (hnodup : (all.map name).Nodup) {a : α} (ha : a ∈ all) :
    JsonValue.named all name (.string (name a)) = .ok a := by
  have hfind : all.find? (fun b => name b = name a) = some a := by
    rw [List.find?_eq_some_iff_append]
    obtain ⟨before, after, rfl⟩ := List.append_of_mem ha
    refine ⟨by simp, before, after, rfl, fun b hb => ?_⟩
    rw [List.map_append, List.map_cons] at hnodup
    have hne := (List.nodup_append.1 hnodup).2.2 (name b) (List.mem_map_of_mem hb) (name a)
      List.mem_cons_self
    simpa using hne
  simp only [JsonValue.named, JsonValue.plainName?, JsonValue.alternative?]
  change (liftM (all.find? fun b => name b = name a) : Decoded α) = .ok a
  rw [hfind]
  rfl

/-! ## Basic types -/

@[simp] theorem decode_encode {α : Type} [JsonFormat α] [Faithful α] (x : α) :
    decode (encode x) = .ok x :=
  Faithful.restored x

instance : Faithful Bool := ⟨fun _ => rfl⟩

instance : Faithful String := ⟨fun _ => rfl⟩

instance : Faithful Nat := ⟨fun _ => rfl⟩

instance : NonNull Nat := ⟨fun _ => nofun⟩

instance : Faithful Int64 where
  restored n := by
    have hn : Int64.ofInt n.toInt = n := Int64.ofInt_toInt n
    change (if (Int64.ofInt n.toInt).toInt = n.toInt then _ else _) = _
    rw [hn, if_pos rfl]

theorem restored_float {x : Float} (h : x.isFinite) : Restored x := by
  change decode (if x.isFinite then .float x else .null) = _
  rw [if_pos h]
  rfl

section

variable {α β γ : Type} [JsonFormat α] [JsonFormat β] [JsonFormat γ]

theorem restored_list {xs : List α} (h : ∀ x ∈ xs, Restored x) : Restored xs :=
  mapM_map_eq_ok h

instance [Faithful α] : Faithful (List α) := ⟨fun _ => restored_list fun x _ => decode_encode x⟩

theorem restored_pair {x : α × β} (ha : Restored x.1) (hb : Restored x.2) : Restored x :=
  bind_eq_ok.2 ⟨_, ha, bind_eq_ok.2 ⟨_, hb, rfl⟩⟩

instance [Faithful α] [Faithful β] : Faithful (α × β) :=
  ⟨fun _ => restored_pair (decode_encode _) (decode_encode _)⟩

theorem restored_triple {x : α × β × γ} (ha : Restored x.1) (hb : Restored x.2.1)
    (hc : Restored x.2.2) : Restored x :=
  bind_eq_ok.2 ⟨_, ha, bind_eq_ok.2 ⟨_, hb, bind_eq_ok.2 ⟨_, hc, rfl⟩⟩⟩

instance [Faithful α] [Faithful β] [Faithful γ] : Faithful (α × β × γ) :=
  ⟨fun _ => restored_triple (decode_encode _) (decode_encode _) (decode_encode _)⟩

theorem decode_option {json : JsonValue} (h : json ≠ .null) :
    (decode json : Decoded (Option α)) = some <$> decode json := by
  cases json with
  | null => exact absurd rfl h
  | bool | integer | float | string | array | object => rfl

instance [Faithful α] [NonNull α] : Faithful (Option α) where
  restored x := by
    cases x with
    | none => rfl
    | some a =>
        have hread := decode_option (α := α) (NonNull.encode_ne_null a)
        rw [decode_encode] at hread
        exact hread

end

/-! ## Maps -/

end JsonFormat

namespace OrderedMap

variable {κ α : Type} [LT κ] [DecidableLT κ] [Std.Asymm (α := κ) (· < ·)]

theorem insertEntry_last {key : κ} {value : α} {entries : List (κ × α)}
    (h : ∀ k ∈ entries.map Prod.fst, k < key) :
    insertEntry key value entries = entries ++ [(key, value)] := by
  induction entries with
  | nil => rfl
  | cons entry rest ih =>
      obtain ⟨hfirst, hrest⟩ := List.forall_mem_cons.1 h
      have hnot : ¬key < entry.1 := Std.Asymm.asymm _ _ hfirst
      rw [insertEntry, if_neg hnot, if_pos hfirst, ih hrest, List.cons_append]

variable [Trans (α := κ) (β := κ) (γ := κ) (· < ·) (· < ·) (· < ·)]

theorem entries_foldl_insert {start : OrderedMap κ α} {rest : List (κ × α)}
    (h : ((start.entries ++ rest).map Prod.fst).Pairwise (· < ·)) :
    (rest.foldl (fun map entry => map.insert entry.1 entry.2) start).entries =
      start.entries ++ rest := by
  induction rest generalizing start with
  | nil => simp
  | cons entry rest ih =>
      have hlast : (start.insert entry.1 entry.2).entries = start.entries ++ [entry] := by
        refine insertEntry_last fun k hk => ?_
        rw [List.map_append, List.map_cons] at h
        exact (List.pairwise_append.1 h).2.2 k hk _ List.mem_cons_self
      rw [List.foldl_cons, ih, hlast, List.append_assoc, List.singleton_append]
      rwa [hlast, List.append_assoc, List.singleton_append]

theorem ofList_entries (map : OrderedMap κ α) : ofList map.entries = map :=
  ext (entries_foldl_insert map.ascending)

end OrderedMap

namespace JsonFormat

section

variable {α : Type} [JsonFormat α]

theorem numberKey?_toString {n : Nat} (h : n < Word.limit) : numberKey? (toString n) = some n := by
  simp [numberKey?, h]

theorem restored_numbered {map : OrderedMap Nat α} (hkeys : ∀ key ∈ map.keys, key < Word.limit)
    (h : ∀ entry ∈ map.entries, Restored entry.2) : Restored map := by
  have hentries : (map.entries.map fun entry => (toString entry.1, encode entry.2)).mapM
      numberedEntry = .ok map.entries := by
    refine mapM_map_eq_ok fun entry hentry => ?_
    have hkey := numberKey?_toString (hkeys entry.1 (List.mem_map_of_mem hentry))
    unfold numberedEntry
    rw [hkey]
    exact bind_eq_ok.2 ⟨_, rfl, bind_eq_ok.2 ⟨_, h entry hentry, rfl⟩⟩
  change OrderedMap.ofList <$> List.mapM numberedEntry _ = _
  rw [hentries, map_ok, OrderedMap.ofList_entries]

theorem restored_lexical {map : OrderedMap String α}
    (h : ∀ entry ∈ map.entries, Restored entry.2) : Restored map := by
  have hentries : (map.entries.map fun entry => (entry.1, encode entry.2)).mapM
      (fun member => (member.1, ·) <$> (decode member.2 : Decoded α)) = .ok map.entries := by
    refine mapM_map_eq_ok fun entry hentry => ?_
    have hvalue : decode (encode entry.2) = .ok entry.2 := h entry hentry
    rw [hvalue, map_ok]
  change OrderedMap.ofList <$> List.mapM _ _ = _
  rw [hentries, map_ok, OrderedMap.ofList_entries]

end

end JsonFormat

end ElementKernel
