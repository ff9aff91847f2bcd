import ConstraintLogic.Ident.Basic
import Mathlib.Data.List.Nodup
/-!
# Registries as functions

Look-ups in registries that are filled from a list, and the lists that registries and sets of
identifiers turn into.
-/

namespace ConstraintLogic

namespace Registry

variable {α ι : Type}

theorem compare_eq_iff {a b : Ident} : compare a b = .eq ↔ a = b :=
  Std.LawfulEqCmp.compare_eq_iff_eq

theorem mem_iff_exists {t : Registry α} {id : Ident} : id ∈ t ↔ ∃ a, t[id]? = some a := by
  rw [Std.ExtTreeMap.mem_iff_isSome_getElem?, Option.isSome_iff_exists]

theorem mem_of_getElem? {t : Registry α} {id : Ident} {a : α} (h : t[id]? = some a) : id ∈ t :=
  mem_iff_exists.2 ⟨a, h⟩

private theorem pairwise_of_nodup {l : List ι} {key : ι → Ident} (f : ι → α)
    (h : (l.map key).Nodup) :
    (l.map fun i => (key i, f i)).Pairwise fun a b => ¬compare a.1 b.1 = .eq := by
  rw [List.pairwise_map]
  refine (List.pairwise_map.1 h).imp ?_
  intro a b hab heq
  exact hab (compare_eq_iff.1 heq)

theorem getElem?_insertMany_map_of_mem {t : Registry α} {l : List ι} {key : ι → Ident}
    {f : ι → α} (h : (l.map key).Nodup) {i : ι} (hi : i ∈ l) :
    (t.insertMany (l.map fun i => (key i, f i)))[key i]? = some (f i) :=
  Std.ExtTreeMap.getElem?_insertMany_list_of_mem (compare_eq_iff.2 rfl) (pairwise_of_nodup f h)
    (List.mem_map.2 ⟨i, hi, rfl⟩)

theorem getElem?_insertMany_map_of_not_mem {t : Registry α} {l : List ι} {key : ι → Ident}
    {f : ι → α} {id : Ident} (hid : id ∉ l.map key) :
    (t.insertMany (l.map fun i => (key i, f i)))[id]? = t[id]? := by
  apply Std.ExtTreeMap.getElem?_insertMany_list_of_contains_eq_false
  simpa [List.map_map, Function.comp_def] using hid

theorem mem_insertMany_map {t : Registry α} {l : List ι} {key : ι → Ident} {f : ι → α}
    {id : Ident} : id ∈ t.insertMany (l.map fun i => (key i, f i)) ↔ id ∈ t ∨ id ∈ l.map key := by
  simp [Std.ExtTreeMap.mem_insertMany_list, List.map_map, Function.comp_def]

/-- A key that comes later in a list without repetitions is still free after the entries before. -/
theorem not_mem_insertMany_map {t : Registry α} {l l' : List ι} {key : ι → Ident} {f : ι → α}
    (h : ((l ++ l').map key).Nodup) (ht : ∀ i ∈ l ++ l', key i ∉ t) {i : ι} (hi : i ∈ l') :
    key i ∉ t.insertMany (l.map fun i => (key i, f i)) := by
  rw [mem_insertMany_map]
  rintro (hold | hold)
  · exact ht i (List.mem_append_right _ hi) hold
  · rw [List.map_append, List.nodup_append] at h
    exact h.2.2 _ hold _ (List.mem_map_of_mem hi) rfl

/-- Entries whose keys differ are all found, and they cover what was there before. -/
theorem getElem?_insertMany_map {t : Registry α} {l : List ι} {key : ι → Ident} {f : ι → α}
    (h : (l.map key).Nodup) {id : Ident} {a : α} :
    (t.insertMany (l.map fun i => (key i, f i)))[id]? = some a ↔
      (∃ i ∈ l, key i = id ∧ f i = a) ∨ id ∉ l.map key ∧ t[id]? = some a := by
  by_cases hid : id ∈ l.map key
  · obtain ⟨i, hi, rfl⟩ := List.mem_map.1 hid
    rw [getElem?_insertMany_map_of_mem h hi]
    constructor
    · intro ha
      exact .inl ⟨i, hi, rfl, by simpa using ha⟩
    · rintro (⟨j, hj, hkey, rfl⟩ | ⟨hnot, -⟩)
      · rw [List.inj_on_of_nodup_map h hj hi hkey]
      · exact absurd hid hnot
  · rw [getElem?_insertMany_map_of_not_mem hid]
    constructor
    · intro ha
      exact .inr ⟨hid, ha⟩
    · rintro (⟨i, hi, hkey, -⟩ | ⟨-, ha⟩)
      · exact absurd (List.mem_map.2 ⟨i, hi, hkey⟩) hid
      · exact ha

theorem getElem?_insertMany_empty_map {l : List ι} {key : ι → Ident} {f : ι → α}
    (h : (l.map key).Nodup) {id : Ident} {a : α} :
    ((∅ : Registry α).insertMany (l.map fun i => (key i, f i)))[id]? = some a ↔
      ∃ i ∈ l, key i = id ∧ f i = a := by
  rw [getElem?_insertMany_map h]
  simp

theorem size_insertMany_empty_map {l : List ι} {key : ι → Ident} {f : ι → α}
    (h : (l.map key).Nodup) :
    ((∅ : Registry α).insertMany (l.map fun i => (key i, f i))).size = l.length := by
  rw [← Std.ExtTreeMap.ofList_eq_insertMany_empty,
    Std.ExtTreeMap.size_ofList (pairwise_of_nodup f h), List.length_map]

/-- What is found among entries put in one after the other is one of them or was there before. -/
theorem mem_or_of_getElem?_insertMany {t : Registry α} {l : List ι} {key : ι → Ident} {f : ι → α}
    {id : Ident} {a : α} (h : (t.insertMany (l.map fun i => (key i, f i)))[id]? = some a) :
    (∃ i ∈ l, key i = id ∧ f i = a) ∨ id ∉ l.map key ∧ t[id]? = some a := by
  induction l generalizing t with
  | nil => exact .inr ⟨by simp, by simpa using h⟩
  | cons i rest ih =>
    rw [List.map_cons, Std.ExtTreeMap.insertMany_cons] at h
    rcases ih h with ⟨j, hj, hkey⟩ | ⟨hrest, hold⟩
    · exact .inl ⟨j, List.mem_cons_of_mem _ hj, hkey⟩
    · rw [Std.ExtTreeMap.getElem?_insert] at hold
      split at hold
      · next heq =>
        exact .inl ⟨i, List.mem_cons_self, compare_eq_iff.1 heq, Option.some.inj hold⟩
      · next hne =>
        rw [compare_eq_iff] at hne
        exact .inr ⟨by simpa [Ne.symm hne] using hrest, hold⟩

/-- An entry may be replaced by one that a function does not tell apart from it. -/
theorem map_getElem?_insert {β : Type} {t : Registry α} {f : α → β} {id : Ident} {a a' : α}
    (ha : t[id]? = some a) (hf : f a' = f a) (key : Ident) :
    (t.insert id a')[key]?.map f = t[key]?.map f := by
  rw [Std.ExtTreeMap.getElem?_insert]
  split
  · next heq =>
    obtain rfl := compare_eq_iff.1 heq
    rw [ha, Option.map_some, Option.map_some, hf]
  · rfl

/-! ## Functions on the entries -/

section Map

variable {β : Type} {t t' : Registry α} {f : α → β} {id : Ident}

/-- A function sees the same of two registries if it sees the same under every name. -/
theorem map_eq_map_iff :
    ((t.map fun _ => f) = t'.map fun _ => f) ↔ ∀ id : Ident, t[id]?.map f = t'[id]?.map f := by
  constructor
  · intro h id
    rw [← Std.ExtTreeMap.getElem?_map (f := fun _ => f), h, Std.ExtTreeMap.getElem?_map]
  · intro h
    apply Std.ExtTreeMap.ext_getElem?
    intro id
    rw [Std.ExtTreeMap.getElem?_map, Std.ExtTreeMap.getElem?_map, h]

theorem map_insert (t : Registry α) (f : α → β) (id : Ident) (a : α) :
    (t.insert id a).map (fun _ => f) = (t.map fun _ => f).insert id (f a) := by
  apply Std.ExtTreeMap.ext_getElem?
  intro key
  simp only [Std.ExtTreeMap.getElem?_map, Std.ExtTreeMap.getElem?_insert]
  split <;> rfl

theorem map_insert_congr (h : (t.map fun _ => f) = t'.map fun _ => f) {a a' : α} (ha : f a = f a')
    (id : Ident) : (t.insert id a).map (fun _ => f) = (t'.insert id a').map fun _ => f := by
  rw [map_insert, map_insert, h, ha]

theorem map_insert_of_eq {a a' : α} (ha : t[id]? = some a) (hf : f a' = f a) :
    (t.insert id a').map (fun _ => f) = t.map fun _ => f :=
  map_eq_map_iff.2 (map_getElem?_insert ha hf)

theorem map_erase_congr (h : (t.map fun _ => f) = t'.map fun _ => f) (id : Ident) :
    (t.erase id).map (fun _ => f) = (t'.erase id).map fun _ => f := by
  rw [map_eq_map_iff] at h ⊢
  intro key
  simp only [Std.ExtTreeMap.getElem?_erase]
  split
  · rfl
  · exact h key

/-- What is done to an entry is done to what the function sees of it. -/
theorem map_modify_congr (h : (t.map fun _ => f) = t'.map fun _ => f) {change : α → α}
    {seen : β → β} (hf : ∀ a, f (change a) = seen (f a)) (id : Ident) :
    (t.modify id change).map (fun _ => f) = (t'.modify id change).map fun _ => f := by
  rw [map_eq_map_iff] at h ⊢
  intro key
  have hchange (o : Option α) : (o.map change).map f = (o.map f).map seen := by
    cases o with
    | none => rfl
    | some a => exact congrArg some (hf a)
  simp only [Std.ExtTreeMap.getElem?_modify]
  split
  · rw [hchange, hchange, h]
  · exact h key

/-- A function that does not see what is done to an entry does not see it in the registry. -/
theorem map_modify_of_eq {change : α → α} (hf : ∀ a, f (change a) = f a) (t : Registry α)
    (id : Ident) : (t.modify id change).map (fun _ => f) = t.map fun _ => f := by
  rw [map_eq_map_iff]
  intro key
  simp only [Std.ExtTreeMap.getElem?_modify, compare_eq_iff]
  split
  · next heq =>
    subst heq
    cases t[id]? with
    | none => rfl
    | some a => exact congrArg some (hf a)
  · rfl

/-- Two registries of which a function sees the same have nothing, or entries of which it sees the
same, under any name. -/
theorem getElem?_cases_of_map_eq (h : (t.map fun _ => f) = t'.map fun _ => f) (id : Ident) :
    t[id]? = none ∧ t'[id]? = none ∨
      ∃ a a', t[id]? = some a ∧ t'[id]? = some a' ∧ f a = f a' := by
  have hseen := map_eq_map_iff.1 h id
  cases ha : t[id]? with
  | none =>
    rw [ha, Option.map_none, eq_comm, Option.map_eq_none_iff] at hseen
    exact .inl ⟨rfl, hseen⟩
  | some a =>
    rw [ha, Option.map_some, eq_comm, Option.map_eq_some_iff] at hseen
    obtain ⟨a', ha', hsame⟩ := hseen
    exact .inr ⟨a, a', rfl, ha', hsame.symm⟩

theorem mem_iff_of_map_eq (h : (t.map fun _ => f) = t'.map fun _ => f) : id ∈ t ↔ id ∈ t' := by
  rw [← Std.ExtTreeMap.mem_map (f := fun _ => f), h, Std.ExtTreeMap.mem_map]

end Map

/-! ## Names -/

variable {t t' : Registry α} {name : α → Ident}

/-- Every entry stands under its own name, which is not the root. -/
def Named (t : Registry α) (name : α → Ident) : Prop :=
  ∀ (id : Ident) (a : α), t[id]? = some a → name a = id ∧ id.isRoot = false

theorem named_empty (name : α → Ident) : Named ∅ name := by
  intro id a h
  simp at h

theorem Named.insert (h : Named t name) {id : Ident} {a : α} (hname : name a = id)
    (hid : id.isRoot = false) : Named (t.insert id a) name := by
  intro key b hb
  rw [Std.ExtTreeMap.getElem?_insert] at hb
  split at hb
  · next heq =>
    obtain rfl := compare_eq_iff.1 heq
    rw [← Option.some.inj hb]
    exact ⟨hname, hid⟩
  · exact h key b hb

theorem Named.mono (h : Named t name)
    (hsub : ∀ (id : Ident) (a' : α), t'[id]? = some a' → ∃ a, t[id]? = some a ∧ name a = name a') :
    Named t' name := by
  intro id a' ha'
  obtain ⟨a, ha, hname⟩ := hsub id a' ha'
  rw [← hname]
  exact h id a ha

theorem getElem?_filter {p : Ident → α → Bool} {id : Ident} {a : α} :
    (t.filter p)[id]? = some a ↔ t[id]? = some a ∧ p id a = true := by
  rw [Std.ExtTreeMap.getElem?_filter, Option.pfilter_eq_some_iff]
  constructor
  · rintro ⟨ha, hp⟩
    exact ⟨ha, by simpa [Std.ExtTreeMap.getKey_eq] using hp⟩
  · rintro ⟨ha, hp⟩
    exact ⟨ha, by simpa [Std.ExtTreeMap.getKey_eq] using hp⟩

end Registry

namespace IdentSet

theorem nodup_toList (s : IdentSet) : s.toList.Nodup :=
  s.distinct_toList.imp fun hab heq => hab (Registry.compare_eq_iff.2 heq)

/-- A set turns into any list of its members, up to their order. -/
theorem toList_perm {s : IdentSet} {l : List Ident} (hl : l.Nodup) (h : ∀ id, id ∈ s ↔ id ∈ l) :
    s.toList.Perm l := by
  rw [List.perm_ext_iff_of_nodup (nodup_toList s) hl]
  intro id
  rw [Std.ExtTreeSet.mem_toList, h]

end IdentSet

end ConstraintLogic
