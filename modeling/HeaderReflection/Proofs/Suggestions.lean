/-
  HeaderReflection.Proofs.Suggestions

  What a configuration says of keys that it does not know. Each of them brings
  one warning, with the known key that the fewest edits lead to if three are
  enough; and none of them has a say in the settings.
-/
import HeaderReflection.Config.Reader
import HeaderReflection.Proofs.EditScripts
import HeaderReflection.Proofs.TextBytes
import HeaderReflection.Proofs.TomlKeys

namespace HeaderReflection

variable {written : Text} {keys : List ConfigKey} {k : ConfigKey} {t t' : Toml.Table}

/-! ## The nearest key -/

namespace ConfigKey

/-- No key of the list is nearer to the written one, and none before it is as near. -/
def IsFirstNearest (written : Text) (keys : List ConfigKey) (k : ConfigKey) : Prop :=
  ∃ before after, keys = before ++ k :: after ∧
    (∀ other ∈ before, distance written k < distance written other) ∧
    ∀ other ∈ after, distance written k ≤ distance written other

theorem IsFirstNearest.distance_le (h : IsFirstNearest written keys k) :
    ∀ other ∈ keys, distance written k ≤ distance written other := by
  obtain ⟨before, after, rfl, hbefore, hafter⟩ := h
  intro other hother
  rcases List.mem_append.1 hother with hother | hother
  · exact Nat.le_of_lt (hbefore other hother)
  · rcases List.mem_cons.1 hother with rfl | hother
    · exact Nat.le_refl _
    · exact hafter other hother

/-- What the search for a nearest key finds is the first one of the nearest. -/
theorem isFirstNearest_nearest (h : nearest written keys = some k) :
    IsFirstNearest written keys k := by
  induction keys generalizing k with
  | nil => simp [nearest] at h
  | cons key keys ih =>
      rw [nearest] at h
      split at h
      · next hnone =>
        obtain rfl := Option.some.inj h
        -- Only the empty list has no nearest key.
        cases keys with
        | nil => exact ⟨[], [], rfl, by simp, by simp⟩
        | cons other keys =>
          rw [nearest] at hnone
          split at hnone
          · simp at hnone
          · split at hnone <;> simp at hnone
      · next other hother =>
        have hfirst := ih hother
        split at h
        · next hlt =>
          obtain rfl := Option.some.inj h
          obtain ⟨before, after, rfl, hbefore, hafter⟩ := hfirst
          exact ⟨key :: before, after, rfl, List.forall_mem_cons.2 ⟨hlt, hbefore⟩, hafter⟩
        · next hlt =>
          obtain rfl := Option.some.inj h
          refine ⟨[], keys, rfl, by simp, fun other' hother' => ?_⟩
          have := hfirst.distance_le other' hother'
          omega

theorem exists_nearest (h : keys ≠ []) (written : Text) : ∃ k, nearest written keys = some k := by
  cases keys with
  | nil => exact absurd rfl h
  | cons key keys =>
    rw [nearest]
    split
    · exact ⟨key, rfl⟩
    · split
      · exact ⟨_, rfl⟩
      · exact ⟨_, rfl⟩

theorem mem_all (k : ConfigKey) : k ∈ all := by
  cases k <;> decide

/-- A suggestion is made if some key is within three edits, and it is the first of the nearest keys. -/
structure IsSuggestion (written : Text) (suggestion : Option ConfigKey) : Prop where
  isSome_iff : suggestion.isSome ↔ ∃ k, distance written k ≤ 3
  first_nearest : ∀ k, suggestion = some k → IsFirstNearest written all k

/-- The suggestion for a key is the nearest known one, if it is near enough. -/
theorem isSuggestion_suggestion (written : Text) : IsSuggestion written (suggestion written) := by
  obtain ⟨k, hk⟩ : ∃ k, nearest written all = some k := exists_nearest (by decide) written
  have hfirst := isFirstNearest_nearest hk
  have hsuggestion : suggestion written =
      if distance written k ≤ maxEdits then some k else none := by
    rw [suggestion, hk, Option.filter_some]
    simp only [decide_eq_true_eq]
  rw [hsuggestion]
  split
  · next hle =>
    refine ⟨iff_of_true rfl ⟨k, hle⟩, fun k' hk' => ?_⟩
    rwa [← Option.some.inj hk']
  · next hnot =>
    refine ⟨iff_of_false (by simp) ?_, by simp⟩
    rintro ⟨other, hother⟩
    exact hnot ((hfirst.distance_le other (mem_all other)).trans hother)

end ConfigKey

/-! ## Tables -/

namespace Config

/-- The known keys are the spellings of the settings. -/
theorem isKnownKey_iff : isKnownKey written = true ↔ ∃ k : ConfigKey, written = k.spelling := by
  rw [isKnownKey, List.any_eq_true]
  constructor
  · rintro ⟨k, -, hk⟩
    exact ⟨k, (beq_iff_eq.1 hk).symm⟩
  · rintro ⟨k, rfl⟩
    exact ⟨k, ConfigKey.mem_all k, beq_self_eq_true _⟩

theorem mem_sortedKeys {key : Text} : key ∈ t.sortedKeys ↔ key ∈ t.map (·.1) := by
  rw [Toml.Table.sortedKeys, List.mem_mergeSort]

/-- Distinct keys are sorted strictly by their bytes. -/
theorem pairwise_sortedKeys (h : t.HasDistinctKeys) :
    t.sortedKeys.Pairwise fun key key' => key.bytes < key'.bytes := by
  have hle : t.sortedKeys.Pairwise fun key key' => (compare key key').isLE = true :=
    List.pairwise_mergeSort (fun _ _ _ => Std.TransCmp.isLE_trans) (fun a b => by
      have hswap : compare b a = (compare a b).swap := Std.OrientedCmp.eq_swap
      rw [Bool.or_eq_true, hswap]
      cases compare a b <;> simp) _
  have hne : t.sortedKeys.Pairwise (· ≠ ·) :=
    (List.mergeSort_perm _ _).nodup_iff.2 h
  refine (hle.and hne).imp fun {key key'} hboth => Text.bytes_lt_of_compare ?_
  cases hcompare : compare key key' with
  | lt => rfl
  | eq => exact absurd (Std.LawfulEqOrd.eq_of_compare hcompare) hboth.2
  | gt => simp [hcompare] at hboth

/-- The keys of the warnings are the unknown keys of the table in the order of their bytes. -/
theorem exists_keys_warningsOf (h : t.HasDistinctKeys) :
    ∃ keys : List Text,
      warningsOf t = keys.map (fun key => .unknownKey key (ConfigKey.suggestion key)) ∧
      keys.Pairwise (fun key key' => key.bytes < key'.bytes) ∧
      ∀ key, key ∈ keys ↔ key ∈ t.map (·.1) ∧ ∀ k : ConfigKey, key ≠ k.spelling := by
  refine ⟨t.sortedKeys.filter fun key => !isKnownKey key, rfl, (pairwise_sortedKeys h).filter _,
    fun key => ?_⟩
  rw [List.mem_filter, mem_sortedKeys, Bool.not_eq_true', ← Bool.not_eq_true, isKnownKey_iff,
    not_exists]

/-- A setting is read from the entry of its own key. -/
theorem setFrom_congr {key : ConfigKey} (h : t.get? key.spelling = t'.get? key.spelling) :
    setFrom t key = setFrom t' key := by
  funext set c
  rw [setFrom, setFrom, h]

/-- The settings depend on the known keys alone. -/
theorem ofTable_congr (h : ∀ k : ConfigKey, t.get? k.spelling = t'.get? k.spelling) :
    ofTable t = ofTable t' := by
  rw [ofTable, ofTable, setFrom_congr (h .extension), setFrom_congr (h .generatedSuffix),
    setFrom_congr (h .sentinelCases), setFrom_congr (h .skipDirs)]

theorem read_of_parse? {document : Text} (h : Toml.parse? document = some t) :
    read document = (warningsOf t, ofTable t) := by
  rw [read, h]

open EditDistance in
/-- The distance of two texts is the least number of edits of single bytes that lead from the one to
the other, and so a metric. The table of a document has each of its keys once. Of each key that is not
known, and of no other, there is one warning, in the order of the keys' bytes; it suggests the first of
the nearest known keys, if one is within three edits. The settings, or what is wrong with them, do not
depend on unknown keys. -/
theorem suggestions_follow_distance :
    (∀ a b : Text, IsLeast {n | Script n a.bytes b.bytes} (editDistance a.bytes b.bytes)) ∧
    (∀ a b : Text, editDistance a.bytes b.bytes = editDistance b.bytes a.bytes) ∧
    (∀ a b : Text, editDistance a.bytes b.bytes = 0 ↔ a = b) ∧
    (∀ a b c : Text, editDistance a.bytes c.bytes ≤
      editDistance a.bytes b.bytes + editDistance b.bytes c.bytes) ∧
    (∀ (document : Text) (t : Toml.Table), Toml.parse? document = some t →
      t.HasDistinctKeys ∧ read document = (warningsOf t, ofTable t)) ∧
    (∀ t : Toml.Table, t.HasDistinctKeys → ∃ keys : List Text,
      warningsOf t = keys.map (fun key => .unknownKey key (ConfigKey.suggestion key)) ∧
      keys.Pairwise (fun key key' => key.bytes < key'.bytes) ∧
      ∀ key, key ∈ keys ↔ key ∈ t.map (·.1) ∧ ∀ k : ConfigKey, key ≠ k.spelling) ∧
    (∀ key : Text, ConfigKey.IsSuggestion key (ConfigKey.suggestion key)) ∧
    ∀ t t' : Toml.Table, (∀ k : ConfigKey, t.get? k.spelling = t'.get? k.spelling) →
      ofTable t = ofTable t' := by
  refine ⟨fun a b => isLeast_editDistance _ _, fun a b => editDistance_comm _ _, fun a b => ?_,
    fun a b c => editDistance_triangle _ _ _,
    fun document t ht => ⟨Toml.hasDistinctKeys_of_parse? ht, read_of_parse? ht⟩,
    fun t ht => exists_keys_warningsOf ht, ConfigKey.isSuggestion_suggestion,
    fun t t' => ofTable_congr⟩
  rw [editDistance_eq_zero, Text.bytes_inj]

/-- Two keys with a letter wrong and a letter missing, not in the order of their bytes. -/
def misspeltKeys : Text :=
  "skip_dir = []\nextention = \"hpp\"\n".toList

open EditDistance in
theorem suggestions_follow_distance_misspelt :
    IsLeast {n | Script n (Text.bytes "extention".toList) (Text.bytes "extension".toList)} 1 ∧
    ∃ t, Toml.parse? misspeltKeys = some t ∧ t.HasDistinctKeys ∧
      (read misspeltKeys).1 =
        [.unknownKey "extention".toList (some .extension),
          .unknownKey "skip_dir".toList (some .skipDirs)] := by
  obtain ⟨hleast, -, -, -, hparse, hwarnings, -, -⟩ := suggestions_follow_distance
  have hone : editDistance (Text.bytes "extention".toList) (Text.bytes "extension".toList) = 1 := by
    decide +kernel
  have hkeys : (Toml.parse? misspeltKeys).map (fun t => t.map (·.1)) =
      some ["skip_dir".toList, "extention".toList] := by
    decide +kernel
  obtain ⟨t, ht, htkeys⟩ := Option.map_eq_some_iff.1 hkeys
  obtain ⟨hdistinct, hread⟩ := hparse misspeltKeys t ht
  obtain ⟨keys, hwarn, hsorted, hmem⟩ := hwarnings t hdistinct
  refine ⟨hone ▸ hleast _ _, t, ht, hdistinct, ?_⟩
  -- The keys are known up to their order, and they are sorted.
  have hperm : keys.Perm ["extention".toList, "skip_dir".toList] := by
    have hnodup : keys.Nodup := hsorted.imp fun {a b} hlt heq => by
      rw [heq] at hlt
      exact List.lt_irrefl _ hlt
    refine (List.perm_ext_iff_of_nodup hnodup (by decide)).2 fun key => ?_
    rw [hmem, htkeys]
    simp only [List.mem_cons, List.not_mem_nil, or_false]
    constructor
    · rintro ⟨rfl | rfl, -⟩
      · exact .inr rfl
      · exact .inl rfl
    · rintro (rfl | rfl)
      · exact ⟨.inr rfl, fun k => by cases k <;> decide⟩
      · exact ⟨.inl rfl, fun k => by cases k <;> decide⟩
  have heq : keys = ["extention".toList, "skip_dir".toList] :=
    hperm.eq_of_pairwise (fun a b _ _ hab hba => absurd (List.lt_trans hab hba) (List.lt_irrefl _))
      hsorted (by decide +kernel)
  have hsuggestions : ["extention".toList, "skip_dir".toList].map ConfigKey.suggestion =
      [some .extension, some .skipDirs] := by
    decide +kernel
  simp only [List.map_cons, List.map_nil, List.cons.injEq, and_true] at hsuggestions
  rw [hread, hwarn, heq, List.map_cons, List.map_cons, hsuggestions.1, hsuggestions.2]
  rfl

end Config

end HeaderReflection
