import Mathlib.Data.List.Nodup

/-!
# Entries of a dictionary

A dictionary is the list of its entries, in the order in which the keys came in. A key that is put
again keeps its place.
-/
namespace EventSourcery.DictEntries
variable {K V : Type*} [DecidableEq K]

/-- The value under a key. -/
def findEntry (key : K) : List (K × V) → Option V
  | [] => none
  | (k, v) :: entries => if k = key then some v else findEntry key entries

/-- Putting a value under a key keeps the key's place, or adds it at the end. -/
def putEntry (key : K) (value : V) : List (K × V) → List (K × V)
  | [] => [(key, value)]
  | (k, v) :: entries =>
      if k = key then (k, value) :: entries else (k, v) :: putEntry key value entries

variable {key k : K} {value u v : V} {entries : List (K × V)}

theorem findEntry_putEntry (key k : K) (value : V) (entries : List (K × V)) :
    findEntry k (putEntry key value entries) =
      if k = key then some value else findEntry k entries := by
  induction entries with
  | nil => simp only [putEntry, findEntry, eq_comm]
  | cons entry entries ih =>
    obtain ⟨l, v⟩ := entry
    by_cases hl : l = key
    · subst hl
      by_cases hk : k = l
      · simp [putEntry, findEntry, hk]
      · simp [putEntry, findEntry, hk, Ne.symm hk]
    · by_cases hk : l = k
      · subst hk
        simp [putEntry, findEntry, hl]
      · simp [putEntry, findEntry, hl, hk, ih]

theorem putEntry_findEntry (h : findEntry key entries = some value) :
    putEntry key value entries = entries := by
  induction entries with
  | nil => cases h
  | cons entry entries ih =>
    obtain ⟨l, v⟩ := entry
    by_cases hl : l = key
    · simp only [findEntry, if_pos hl, Option.some.injEq] at h
      simp [putEntry, hl, h]
    · simp only [findEntry, if_neg hl] at h
      simp [putEntry, hl, ih h]

theorem putEntry_putEntry (key : K) (value v : V) (entries : List (K × V)) :
    putEntry key value (putEntry key v entries) = putEntry key value entries := by
  induction entries with
  | nil => simp [putEntry]
  | cons entry entries ih =>
    obtain ⟨l, u⟩ := entry
    by_cases hl : l = key <;> simp [putEntry, hl, ih]

/-- Values are put under two keys in either order, if one of them is there. -/
theorem putEntry_comm (hne : key ≠ k) (h : findEntry key entries = some u) :
    putEntry key value (putEntry k v entries) = putEntry k v (putEntry key value entries) := by
  induction entries with
  | nil => cases h
  | cons entry entries ih =>
    obtain ⟨l, w⟩ := entry
    by_cases hl : l = key
    · have hk : l ≠ k := hl ▸ hne
      simp [putEntry, hl, hne]
    · rw [findEntry, if_neg hl] at h
      by_cases hk : l = k
      · simp [putEntry, hk, hne.symm]
      · simp [putEntry, hl, hk, ih h]

theorem putEntry_new (h : key ∉ entries.map Prod.fst) :
    putEntry key value entries = entries ++ [(key, value)] := by
  induction entries with
  | nil => rfl
  | cons entry entries ih =>
    rw [List.map_cons, List.mem_cons, not_or] at h
    simp [putEntry, Ne.symm h.1, ih h.2]

theorem mem_of_findEntry (h : findEntry key entries = some value) : (key, value) ∈ entries := by
  induction entries with
  | nil => cases h
  | cons entry entries ih =>
    obtain ⟨l, v⟩ := entry
    by_cases hl : l = key
    · simp only [findEntry, if_pos hl, Option.some.injEq] at h
      simp [hl, h]
    · simp only [findEntry, if_neg hl] at h
      exact List.mem_cons_of_mem _ (ih h)

theorem findEntry_of_mem (hnodup : (entries.map Prod.fst).Nodup) (h : (key, value) ∈ entries) :
    findEntry key entries = some value := by
  induction entries with
  | nil => cases h
  | cons entry entries ih =>
    obtain ⟨l, v⟩ := entry
    rw [List.map_cons, List.nodup_cons] at hnodup
    rcases List.mem_cons.1 h with heq | hmem
    · cases heq
      simp [findEntry]
    · have hne : l ≠ key := by
        rintro rfl
        exact hnodup.1 (List.mem_map.2 ⟨_, hmem, rfl⟩)
      rw [findEntry, if_neg hne]
      exact ih hnodup.2 hmem

/-- A key that is there keeps its place, and no other key comes in. -/
theorem keys_putEntry : (putEntry key value entries).map Prod.fst =
    if key ∈ entries.map Prod.fst then entries.map Prod.fst
    else entries.map Prod.fst ++ [key] := by
  induction entries with
  | nil => simp [putEntry]
  | cons entry entries ih =>
    obtain ⟨l, v⟩ := entry
    by_cases hl : l = key
    · simp [putEntry, hl]
    · simp only [putEntry, if_neg hl, List.map_cons, ih, List.mem_cons, Ne.symm hl, false_or]
      split <;> rfl

theorem nodup_putEntry (h : (entries.map Prod.fst).Nodup) :
    ((putEntry key value entries).map Prod.fst).Nodup := by
  rw [keys_putEntry]
  split
  · exact h
  · rename_i hnew
    rw [← List.concat_eq_append]
    exact List.Nodup.concat hnew h

end EventSourcery.DictEntries
