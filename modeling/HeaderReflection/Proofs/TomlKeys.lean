/-
  HeaderReflection.Proofs.TomlKeys

  A table that a document writes has each of its keys once. Whatever a line does
  to a table, it adds a key that is not there, or changes the value of one that
  is; a table that is opened late is taken out before it is put in again.
-/
import HeaderReflection.Toml.Document
import Mathlib.Data.List.Nodup

namespace HeaderReflection.Toml

variable {t t' : Table} {k : Text} {v : Value} {byKey : Bool} {path : List Text} {kind : TableKind}
variable {d d' : Document} {s r : Text}

namespace Table

/-- Does no key stand in the table twice? -/
def HasDistinctKeys (t : Table) : Prop :=
  (t.map (·.1)).Nodup

theorem get?_eq_none : t.get? k = none ↔ k ∉ t.map (·.1) := by
  rw [get?, Option.map_eq_none_iff, List.find?_eq_none]
  simp only [List.mem_map, beq_iff_eq, not_exists, not_and]

/-- Another value leaves the keys as they are. -/
theorem keys_replace (t : Table) (k : Text) (v : Value) :
    (t.replace k v).map (·.1) = t.map (·.1) := by
  rw [replace, List.map_map]
  refine List.map_congr_left fun e _ => ?_
  by_cases he : e.1 = k <;> simp [he]

namespace HasDistinctKeys

/-- An entry can be added under a key that has none. -/
theorem add (h : t.HasDistinctKeys) (hk : t.get? k = none) : (t.add k v).HasDistinctKeys := by
  have hnot := get?_eq_none.1 hk
  rw [HasDistinctKeys, Table.add, List.map_append, List.nodup_append]
  refine ⟨h, List.nodup_singleton _, ?_⟩
  rintro a ha b hb rfl
  obtain rfl := List.mem_singleton.1 hb
  exact hnot ha

theorem replace (h : t.HasDistinctKeys) : (t.replace k v).HasDistinctKeys := by
  rw [HasDistinctKeys, keys_replace]
  exact h

/-- An entry can be put in the place of another one. -/
theorem erase_add (h : t.HasDistinctKeys) : ((t.erase k).add k v).HasDistinctKeys := by
  have herase : (t.erase k).HasDistinctKeys := h.sublist (List.filter_sublist.map _)
  refine herase.add (get?_eq_none.2 fun hk => ?_)
  obtain ⟨e, he, hek⟩ := List.mem_map.1 hk
  simp [Table.erase, hek] at he

end HasDistinctKeys

end Table

open Table

/-! ## Lines -/

/-- A change keeps the keys distinct. -/
def KeepsKeys (change : TableKind → Table → Option Table) : Prop :=
  ∀ kind t t', t.HasDistinctKeys → change kind t = some t' → t'.HasDistinctKeys

/-- A change at the end of a path only adds or replaces a key of the table that the path starts in. -/
theorem keepsKeys_updateAt {change : TableKind → Table → Option Table} (hchange : KeepsKeys change)
    (byKey : Bool) (path : List Text) : KeepsKeys (updateAt byKey change path) := by
  intro kind t t' ht h
  cases path with
  | nil => exact hchange kind t t' ht h
  | cons k path =>
    rw [updateAt] at h
    -- Below a key that is there, only the value changes.
    split at h
    · next hk =>
      obtain ⟨inner, -, h⟩ := Option.bind_eq_some_iff.1 h
      obtain rfl := Option.some.inj h
      exact ht.add hk
    · split at h
      · simp at h
      · obtain ⟨inner, -, h⟩ := Option.bind_eq_some_iff.1 h
        obtain rfl := Option.some.inj h
        exact ht.replace
    · obtain ⟨last, -, h⟩ := Option.bind_eq_some_iff.1 h
      obtain ⟨inner, -, h⟩ := Option.bind_eq_some_iff.1 h
      obtain rfl := Option.some.inj h
      exact ht.replace
    · simp at h

/-- Setting a key leaves a table with distinct keys. -/
theorem keepsKeys_setKey (path : List Text) (v : Value) : KeepsKeys (setKey path v) := by
  intro kind t t' ht h
  obtain ⟨last, -, h⟩ := Option.bind_eq_some_iff.1 h
  refine keepsKeys_updateAt (fun kind t t' ht h => ?_) _ _ kind t t' ht h
  split at h
  · simp at h
  · next hset =>
    obtain rfl := Option.some.inj h
    rw [Bool.or_eq_true, not_or] at hset
    exact ht.add (by simpa using hset.2)

theorem openTable_keeps (ht : t.HasDistinctKeys) (h : openTable path t = some t') :
    t'.HasDistinctKeys := by
  obtain ⟨last, -, h⟩ := Option.bind_eq_some_iff.1 h
  refine keepsKeys_updateAt (fun kind t t' ht h => ?_) _ _ .header t t' ht h
  split at h
  · next hk =>
    obtain rfl := Option.some.inj h
    exact ht.add hk
  · obtain rfl := Option.some.inj h
    exact ht.erase_add
  · simp at h

theorem openElement_keeps (ht : t.HasDistinctKeys) (h : openElement path t = some t') :
    t'.HasDistinctKeys := by
  obtain ⟨last, -, h⟩ := Option.bind_eq_some_iff.1 h
  refine keepsKeys_updateAt (fun kind t t' ht h => ?_) _ _ .header t t' ht h
  split at h
  · next hk =>
    obtain rfl := Option.some.inj h
    exact ht.add hk
  · obtain rfl := Option.some.inj h
    exact ht.replace
  · simp at h

/-! ## Documents -/

namespace Document

theorem readHeader_keeps (hd : d.entries.HasDistinctKeys) (h : d.readHeader s = some (d', r)) :
    d'.entries.HasDistinctKeys := by
  unfold readHeader at h
  split at h
  · obtain ⟨⟨path, _⟩, -, h⟩ := Option.bind_eq_some_iff.1 h
    obtain ⟨_, -, h⟩ := Option.bind_eq_some_iff.1 h
    obtain ⟨_, -, h⟩ := Option.bind_eq_some_iff.1 h
    obtain ⟨entries, hopen, h⟩ := Option.bind_eq_some_iff.1 h
    obtain ⟨rfl, -⟩ := Prod.mk.inj (Option.some.inj h)
    exact openElement_keeps hd hopen
  · obtain ⟨⟨path, _⟩, -, h⟩ := Option.bind_eq_some_iff.1 h
    obtain ⟨_, -, h⟩ := Option.bind_eq_some_iff.1 h
    obtain ⟨_, -, h⟩ := Option.bind_eq_some_iff.1 h
    obtain ⟨entries, hopen, h⟩ := Option.bind_eq_some_iff.1 h
    obtain ⟨rfl, -⟩ := Prod.mk.inj (Option.some.inj h)
    exact openTable_keeps hd hopen
  · simp at h

theorem readKeyValue_keeps (hd : d.entries.HasDistinctKeys) (h : d.readKeyValue s = some (d', r)) :
    d'.entries.HasDistinctKeys := by
  obtain ⟨⟨⟨path, v⟩, _⟩, -, h⟩ := Option.bind_eq_some_iff.1 h
  obtain ⟨entries, hentries, h⟩ := Option.bind_eq_some_iff.1 h
  obtain ⟨_, -, h⟩ := Option.bind_eq_some_iff.1 h
  obtain ⟨rfl, -⟩ := Prod.mk.inj (Option.some.inj h)
  exact keepsKeys_updateAt (keepsKeys_setKey path v) _ _ _ _ _ hd hentries

/-- No line of a document brings in a key for the second time. -/
theorem readLines_keeps {bound : Nat} (hd : d.entries.HasDistinctKeys)
    (h : readLines bound d s = some d') : d'.entries.HasDistinctKeys := by
  induction bound generalizing d s with
  | zero => simp [readLines] at h
  | succ bound ih =>
      rw [readLines] at h
      split at h
      · obtain rfl := Option.some.inj h
        exact hd
      · obtain ⟨⟨d₁, r⟩, hheader, h⟩ := Option.bind_eq_some_iff.1 h
        exact ih (readHeader_keeps hd hheader) h
      · split at h
        · obtain ⟨r, -, h⟩ := Option.bind_eq_some_iff.1 h
          exact ih hd h
        · obtain ⟨⟨d₁, r⟩, hkey, h⟩ := Option.bind_eq_some_iff.1 h
          exact ih (readKeyValue_keeps hd hkey) h

end Document

/-- Dates in the place of tables leave the keys as they are. -/
theorem keys_entriesWithDates (h : entriesWithDates? t = some t') :
    t'.map (·.1) = t.map (·.1) := by
  induction t generalizing t' with
  | nil =>
      obtain rfl := Option.some.inj h
      rfl
  | cons e t ih =>
      rw [entriesWithDates?] at h
      obtain ⟨v, -, h⟩ := Option.bind_eq_some_iff.1 h
      obtain ⟨rest, hrest, h⟩ := Option.bind_eq_some_iff.1 h
      obtain rfl := Option.some.inj h
      rw [List.map_cons, List.map_cons, ih hrest]

/-- A document writes each key once. -/
theorem hasDistinctKeys_of_parse? (h : parse? s = some t) : t.HasDistinctKeys := by
  obtain ⟨d, hlines, h⟩ := Option.bind_eq_some_iff.1 h
  rw [HasDistinctKeys, keys_entriesWithDates h]
  exact Document.readLines_keeps (d := ⟨[], []⟩) List.nodup_nil hlines

end HeaderReflection.Toml
