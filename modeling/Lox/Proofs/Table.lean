import Lox.Table
import Mathlib.Data.Set.Insert

/-!
# Laws of tables
-/

namespace Lox.Table

variable {α : Type}

theorem lookup_cons_eq_ite (n x : String) (b : α) (rest : List (String × α)) :
    ((n, b) :: rest).lookup x = if x = n then some b else rest.lookup x := by
  by_cases h : x = n
  · subst h
    simp
  · have hb : (x == n) = false := beq_false_of_ne h
    simp [List.lookup_cons, hb, h]

theorem lookup_insertEntry (name x : String) (a : α) (entries : List (String × α)) :
    (insertEntry name a entries).lookup x =
      if x = name then some a else entries.lookup x := by
  induction entries with
  | nil => rw [insertEntry, lookup_cons_eq_ite]
  | cons entry rest ih =>
    obtain ⟨n, b⟩ := entry
    rw [insertEntry, lookup_cons_eq_ite]
    by_cases hn : name = n
    · subst hn
      rw [if_pos rfl, lookup_cons_eq_ite]
      split <;> rfl
    · rw [if_neg hn, lookup_cons_eq_ite, ih]
      by_cases hx : x = n
      · have hne : x ≠ name := fun h => hn (h ▸ hx)
        rw [if_pos hx, if_neg hne, if_pos hx]
      · rw [if_neg hx, if_neg hx]

@[simp] theorem get?_insert (t : Table α) (name x : String) (a : α) :
    (t.insert name a).get? x = if x = name then some a else t.get? x :=
  lookup_insertEntry name x a t.entries

@[simp] theorem get?_empty (x : String) : (empty : Table α).get? x = none := rfl

def domain (t : Table α) : Set String := {x | t.contains x = true}

theorem mem_domain {t : Table α} {x : String} : x ∈ t.domain ↔ ∃ a, t.get? x = some a := by
  simp [domain, contains, Option.isSome_iff_exists]

@[simp] theorem domain_empty : (empty : Table α).domain = ∅ := by
  ext x
  simp [mem_domain]

@[simp] theorem domain_insert (t : Table α) (name : String) (a : α) :
    (t.insert name a).domain = Set.insert name t.domain := by
  ext x
  change _ ↔ x = name ∨ x ∈ t.domain
  by_cases h : x = name <;> simp [mem_domain, h]

@[simp] theorem domain_modify (t : Table α) (name : String) (f : α → α) :
    (t.modify name f).domain = t.domain := by
  unfold modify
  split
  · next a ha =>
    rw [domain_insert]
    exact Set.insert_eq_of_mem (mem_domain.2 ⟨a, ha⟩)
  · rfl

def All (p : α → Prop) (t : Table α) : Prop := ∀ x a, t.get? x = some a → p a

theorem All.empty (p : α → Prop) : (Table.empty : Table α).All p := by
  intro x a h
  simp at h

theorem All.insert {p : α → Prop} {t : Table α} {a : α} (h : t.All p) (name : String)
    (ha : p a) : (t.insert name a).All p := by
  intro x b hb
  rw [get?_insert] at hb
  split at hb
  · exact Option.some.inj hb ▸ ha
  · exact h x b hb

theorem All.mono {p q : α → Prop} {t : Table α} (h : t.All p) (hpq : ∀ a, p a → q a) :
    t.All q :=
  fun x a ha => hpq a (h x a ha)

theorem mem_entries_of_get? {t : Table α} {x : String} {a : α} (h : t.get? x = some a) :
    (x, a) ∈ t.entries := by
  obtain ⟨entries⟩ := t
  change entries.lookup x = some a at h
  induction entries with
  | nil => cases h
  | cons entry rest ih =>
    obtain ⟨n, b⟩ := entry
    rw [lookup_cons_eq_ite] at h
    split at h
    · next hx =>
      cases h
      simp [hx]
    · exact List.mem_cons_of_mem _ (ih h)

theorem mem_entries_insert {t : Table α} {name : String} {a : α} {entry : String × α}
    (h : entry ∈ (t.insert name a).entries) : entry ∈ t.entries ∨ entry = (name, a) := by
  obtain ⟨entries⟩ := t
  change entry ∈ insertEntry name a entries at h
  change entry ∈ entries ∨ _
  induction entries with
  | nil => exact Or.inr (List.mem_singleton.1 h)
  | cons first rest ih =>
    obtain ⟨n, b⟩ := first
    rw [insertEntry] at h
    split at h
    · next hn =>
      rcases List.mem_cons.1 h with rfl | h
      · exact Or.inr (by rw [hn])
      · exact Or.inl (List.mem_cons_of_mem _ h)
    · rcases List.mem_cons.1 h with rfl | h
      · exact Or.inl (by simp)
      · exact (ih h).imp_left (List.mem_cons_of_mem _)

/-! ### The order of the names -/

theorem mem_names {t : Table α} {x : String} : x ∈ t.names ↔ ∃ a, t.get? x = some a := by
  obtain ⟨entries⟩ := t
  change x ∈ entries.map (·.1) ↔ ∃ a, entries.lookup x = some a
  induction entries with
  | nil => simp
  | cons entry rest ih =>
    obtain ⟨n, b⟩ := entry
    rw [lookup_cons_eq_ite, List.map_cons, List.mem_cons]
    by_cases hx : x = n
    · simp [hx]
    · simpa [hx] using ih

theorem names_insert (t : Table α) (name : String) (a : α) :
    (t.insert name a).names = if name ∈ t.names then t.names else t.names ++ [name] := by
  obtain ⟨entries⟩ := t
  change (insertEntry name a entries).map (·.1) =
    if name ∈ entries.map (·.1) then entries.map (·.1) else entries.map (·.1) ++ [name]
  induction entries with
  | nil => simp [insertEntry]
  | cons entry rest ih =>
    obtain ⟨n, b⟩ := entry
    rw [insertEntry]
    by_cases hn : name = n
    · simp [hn]
    · rw [if_neg hn, List.map_cons, ih]
      by_cases hm : name ∈ rest.map (·.1) <;> simp [hn, hm]

theorem names_modify (t : Table α) (name : String) (f : α → α) : (t.modify name f).names = t.names := by
  unfold modify
  split
  · next a ha => rw [names_insert, if_pos (mem_names.2 ⟨a, ha⟩)]
  · rfl

theorem get?_modify (t : Table α) (name x : String) (f : α → α) :
    (t.modify name f).get? x = if x = name then (t.get? x).map f else t.get? x := by
  unfold modify
  split
  · next a ha =>
    rw [get?_insert]
    split
    · next hx => rw [hx, ha, Option.map_some]
    · rfl
  · next hnone =>
    split
    · next hx => rw [hx, hnone, Option.map_none]
    · rfl

theorem modify_cons (n x : String) (b : α) (rest : List (String × α)) (f : α → α) :
    (⟨(n, b) :: rest⟩ : Table α).modify x f =
      if x = n then ⟨(n, f b) :: rest⟩ else ⟨(n, b) :: ((⟨rest⟩ : Table α).modify x f).entries⟩ := by
  unfold modify get? insert
  rw [lookup_cons_eq_ite]
  by_cases hx : x = n
  · simp [hx, insertEntry]
  · rw [if_neg hx, if_neg hx]
    cases rest.lookup x <;> simp [hx, insertEntry]

theorem modify_comm (t : Table α) (x y : String) {f g : α → α} (h : ∀ a, f (g a) = g (f a)) :
    (t.modify x f).modify y g = (t.modify y g).modify x f := by
  obtain ⟨entries⟩ := t
  induction entries with
  | nil => rfl
  | cons entry rest ih =>
    obtain ⟨n, b⟩ := entry
    by_cases hx : x = n <;> by_cases hy : y = n <;>
      simp only [modify_cons, hx, hy, if_true, if_false, h, ih]

theorem get?_of_mem_entries {t : Table α} (h : t.names.Nodup) {x : String} {a : α}
    (hm : (x, a) ∈ t.entries) : t.get? x = some a := by
  obtain ⟨entries⟩ := t
  change (entries.map (·.1)).Nodup at h
  change entries.lookup x = some a
  induction entries with
  | nil => cases hm
  | cons entry rest ih =>
    obtain ⟨n, b⟩ := entry
    rw [List.map_cons, List.nodup_cons] at h
    rw [lookup_cons_eq_ite]
    rcases List.mem_cons.1 hm with heq | hrest
    · cases heq
      rw [if_pos rfl]
    · have hx : x ≠ n := by
        rintro rfl
        exact h.1 (List.mem_map.2 ⟨(x, a), hrest, rfl⟩)
      rw [if_neg hx]
      exact ih hrest h.2

theorem nodup_insert {t : Table α} (h : t.names.Nodup) (name : String) (a : α) :
    (t.insert name a).names.Nodup := by
  rw [names_insert]
  split
  · exact h
  · next hname => simpa [List.nodup_append, h] using fun x hx => ne_of_mem_of_not_mem hx hname

theorem get?_filter {t : Table α} (h : t.names.Nodup) (p : α → Bool) (x : String) :
    (t.filter p).get? x = (t.get? x).filter p := by
  obtain ⟨entries⟩ := t
  change (entries.map (·.1)).Nodup at h
  change (entries.filter fun entry => p entry.2).lookup x = (entries.lookup x).filter p
  induction entries with
  | nil => rfl
  | cons entry rest ih =>
    obtain ⟨n, b⟩ := entry
    rw [List.map_cons, List.nodup_cons] at h
    rw [List.filter_cons, lookup_cons_eq_ite]
    by_cases hx : x = n
    · -- the entry is the only one of its name
      subst hx
      have hrest : rest.lookup x = none := by
        by_contra hsome
        obtain ⟨a, ha⟩ := Option.ne_none_iff_exists'.1 hsome
        exact h.1 (mem_names.2 ⟨a, (ha : (⟨rest⟩ : Table α).get? x = some a)⟩)
      by_cases hp : p b = true
      · rw [if_pos hp, lookup_cons_eq_ite, if_pos rfl, if_pos rfl, Option.filter_some, if_pos hp]
      · rw [if_neg hp, ih h.2, hrest, if_pos rfl, Option.filter_some, if_neg hp, Option.filter_none]
    · by_cases hp : p b = true
      · rw [if_pos hp, lookup_cons_eq_ite, if_neg hx, if_neg hx, ih h.2]
      · rw [if_neg hp, if_neg hx, ih h.2]

/-! ### Other values -/

def map {β : Type} (g : α → β) (t : Table α) : Table β := ⟨t.entries.map fun entry => (entry.1, g entry.2)⟩

variable {β : Type} (g : α → β) (t : Table α)

@[simp] theorem get?_map (name : String) : (t.map g).get? name = (t.get? name).map g := by
  obtain ⟨entries⟩ := t
  change (entries.map _).lookup name = (entries.lookup name).map g
  induction entries with
  | nil => rfl
  | cons entry rest ih =>
    obtain ⟨n, a⟩ := entry
    rw [List.map_cons, lookup_cons_eq_ite, lookup_cons_eq_ite, ih]
    split <;> rfl

@[simp] theorem contains_map (name : String) : (t.map g).contains name = t.contains name := by
  simp [contains]

@[simp] theorem map_empty : (empty : Table α).map g = empty := rfl

@[simp] theorem map_insert (name : String) (a : α) :
    (t.insert name a).map g = (t.map g).insert name (g a) := by
  obtain ⟨entries⟩ := t
  refine congrArg Table.mk ?_
  change (insertEntry name a entries).map _ = insertEntry name (g a) (entries.map _)
  induction entries with
  | nil => rfl
  | cons entry rest ih =>
    obtain ⟨n, b⟩ := entry
    simp only [insertEntry, List.map_cons]
    split
    · rfl
    · rw [List.map_cons, ih]

theorem map_id : t.map id = t := congrArg Table.mk (List.map_id t.entries)

end Lox.Table
