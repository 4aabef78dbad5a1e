import EventSourcery.Dto
import Mathlib.Data.List.Infix

/-!
# Nested dictionaries

`NestedDict` reads and writes the values of nested dicts under dotted names. A
write goes into the dict that the caller holds, so it is modelled as the new value
of the outer dict. Constructing one from a dict sets its keys one by one, which
fails when a key has a dot. A nested value that is no dict fails in Python too,
except that it would take a list of pairs for one.

Below this, `At` and `put` are what reads and writes of existing paths come to, with
the laws of an accessor.
-/
namespace EventSourcery.NestedDict
open JsonText DictEntries

/-- The keys that a dotted name goes through. -/
def parts (item : String) : List String := (item.toList.splitOn '.').map String.ofList

def Undotted (data : Dict) : Prop := ∀ field ∈ data, '.' ∉ field.1.toList

instance (data : Dict) : Decidable (Undotted data) :=
  inferInstanceAs (Decidable (∀ field ∈ data, '.' ∉ field.1.toList))

/-- `NestedDict(data)` -/
def ofDict (data : Dict) : Except SerdeError Dict :=
  if Undotted data then .ok data else .error .keyError

/-- `NestedDict(value)` for a nested value. -/
def wrap : Json → Except SerdeError Dict
  | .obj fields => ofDict fields
  | .null => .ok []
  | _ => .error .typeError

def getPath : List String → Dict → Except SerdeError Json
  | [], _ => .error .keyError
  | [key], data =>
      match lookup key data with
      | none => .error .keyError
      | some value => .ok value
  | key :: next :: path, data =>
      match lookup key data with
      | none => .error .keyError
      | some value => (wrap value).bind (getPath (next :: path))

/-- The last key is set in a dict that is not wrapped. -/
def setPath : List String → Json → Dict → Except SerdeError Dict
  | [], _, _ => .error .keyError
  | [key], value, data => .ok (store key value data)
  | [key, last], value, data =>
      match lookup key data with
      | none => .error .keyError
      | some (.obj inner) => .ok (store key (.obj (store last value inner)) data)
      | some _ => .error .typeError
  | key :: next :: last :: path, value, data =>
      match lookup key data with
      | none => .error .keyError
      | some nested => do
          let inner ← wrap nested
          let inner ← setPath (next :: last :: path) value inner
          return store key (.obj inner) data

/-- `__getitem__` -/
def getItem (item : String) (data : Dict) : Except SerdeError Json := getPath (parts item) data

/-- `__setitem__` -/
def setItem (item : String) (value : Json) (data : Dict) : Except SerdeError Dict :=
  setPath (parts item) value data

/-- A value that a path leads to, through dicts without dotted keys. -/
inductive At : List String → Dict → Json → Prop
  | here {key : String} {data : Dict} {value : Json} (h : lookup key data = some value) :
      At [key] data value
  | there {key : String} {path : List String} {data inner : Dict} {value : Json}
      (h : lookup key data = some (.obj inner)) (hkeys : Undotted inner)
      (hpath : At path inner value) : At (key :: path) data value

/-- Put a value where a path leads to. -/
def put : List String → Json → Dict → Dict
  | [], _, data => data
  | [key], value, data => store key value data
  | key :: next :: path, value, data =>
      match lookup key data with
      | some (.obj inner) => store key (.obj (put (next :: path) value inner)) data
      | _ => data

/-- Neither path leads through the other. -/
def Apart (p q : List String) : Prop := ¬ p <+: q ∧ ¬ q <+: p

theorem Apart.symm {p q : List String} (h : Apart p q) : Apart q p := ⟨h.2, h.1⟩

theorem apart_cons {key : String} {p q : List String} :
    Apart (key :: p) (key :: q) ↔ Apart p q := by
  simp [Apart]

theorem apart_of_ne {key other : String} {p q : List String} (h : key ≠ other) :
    Apart (key :: p) (other :: q) := by
  simp [Apart, h, h.symm]

section Names

/-- A name without a dot is one key. -/
theorem parts_of_undotted {field : String} (h : '.' ∉ field.toList) : parts field = [field] := by
  simp [parts, List.splitOn_eq_singleton h]

/-- A nested name begins with the field it is in. -/
theorem parts_nested {field : String} (h : '.' ∉ field.toList) (nested : String) :
    parts (field ++ "." ++ nested) = field :: parts nested := by
  have htext : (field ++ "." ++ nested).toList = field.toList ++ '.' :: nested.toList := by
    simp
  unfold parts
  rw [htext, List.splitOn_append_cons_self_of_not_mem h]
  simp

end Names

section Stored
variable {key other : String} {value v w : Json} {data : Dict}

theorem lookup_mem (h : lookup key data = some value) : (key, value) ∈ data := by
  rw [lookup_eq_findEntry] at h
  exact mem_of_findEntry h

/-- A key that is there keeps its place. -/
theorem keys_store (h : lookup key data = some value) :
    (store key v data).map Prod.fst = data.map Prod.fst := by
  rw [store_eq_putEntry, keys_putEntry, if_pos (List.mem_map_of_mem (lookup_mem h))]

theorem store_comm (hne : key ≠ other) (h : lookup key data = some value) :
    store key v (store other w data) = store other w (store key v data) := by
  rw [lookup_eq_findEntry] at h
  simp only [store_eq_putEntry, putEntry_comm hne h]

theorem undotted_iff : Undotted data ↔ ∀ key ∈ data.map Prod.fst, '.' ∉ key.toList := by
  simp [Undotted]

theorem undotted_of_keys {data' : Dict} (h : data'.map Prod.fst = data.map Prod.fst)
    (hdata : Undotted data) : Undotted data' := by
  rw [undotted_iff] at hdata ⊢
  rw [h]
  exact hdata

theorem ofDict_eq_ok {data' : Dict} : ofDict data = .ok data' ↔ Undotted data ∧ data' = data := by
  unfold ofDict
  split_ifs with h
  · simp [h, eq_comm]
  · simp [h]

end Stored

section Paths
variable {key : String} {p q : List String} {v w x y : Json} {data : Dict}

theorem At.ne_nil (h : At p data v) : p ≠ [] := by
  cases h <;> exact List.cons_ne_nil _ _

theorem at_cons (hp : p ≠ []) : At (key :: p) data v ↔
    ∃ inner, lookup key data = some (.obj inner) ∧ Undotted inner ∧ At p inner v := by
  constructor
  · intro h
    cases h with
    | here => exact absurd rfl hp
    | there hlookup hkeys hpath => exact ⟨_, hlookup, hkeys, hpath⟩
  · rintro ⟨inner, hlookup, hkeys, hpath⟩
    exact .there hlookup hkeys hpath

theorem at_singleton : At [key] data v ↔ lookup key data = some v := by
  constructor
  · intro h
    cases h with
    | here hlookup => exact hlookup
    | there _ _ hpath => exact absurd rfl hpath.ne_nil
  · exact .here

/-- A longer path goes on from the dict that its beginning leads to. -/
theorem at_append (hp : p ≠ []) (hq : q ≠ []) : At (p ++ q) data v ↔
    ∃ inner, At p data (.obj inner) ∧ Undotted inner ∧ At q inner v := by
  induction p generalizing data with
  | nil => exact absurd rfl hp
  | cons key p ih =>
    rw [List.cons_append, at_cons (by simp [hq])]
    cases p with
    | nil => simp [at_singleton]
    | cons next p =>
      simp only [ih (List.cons_ne_nil _ _), at_cons (List.cons_ne_nil next p)]
      constructor
      · rintro ⟨outer, hlookup, hkeys, inner, hpath, hinner, hrest⟩
        exact ⟨inner, ⟨outer, hlookup, hkeys, hpath⟩, hinner, hrest⟩
      · rintro ⟨inner, ⟨outer, hlookup, hkeys, hpath⟩, hinner, hrest⟩
        exact ⟨outer, hlookup, hkeys, inner, hpath, hinner, hrest⟩

theorem put_cons {inner : Dict} (hp : p ≠ []) (h : lookup key data = some (.obj inner)) :
    put (key :: p) w data = store key (.obj (put p w inner)) data := by
  cases p with
  | nil => exact absurd rfl hp
  | cons next path => simp only [put, h]

theorem put_cons_store {inner : Dict} (hp : p ≠ []) :
    put (key :: p) w (store key (.obj inner) data) = store key (.obj (put p w inner)) data := by
  have hlookup : lookup key (store key (.obj inner) data) = some (.obj inner) := by simp
  rw [put_cons hp hlookup, store_store]

theorem put_cons_store_of_ne {other : String} {inner : Dict} (hp : p ≠ []) (hne : key ≠ other)
    (h : lookup key data = some (.obj inner)) : put (key :: p) w (store other x data) =
      store key (.obj (put p w inner)) (store other x data) := by
  apply put_cons hp
  rw [lookup_store, if_neg hne, h]

theorem At.unique (hv : At p data v) (hw : At p data w) : v = w := by
  induction hv with
  | here hlookup =>
    rw [at_singleton, hlookup, Option.some.injEq] at hw
    exact hw
  | there hlookup _ hpath ih =>
    obtain ⟨inner, hlookup', -, hw⟩ := (at_cons hpath.ne_nil).1 hw
    rw [hlookup, Option.some.injEq, Json.obj.injEq] at hlookup'
    exact ih (hlookup' ▸ hw)

/-- Values inside a well-formed dict are well formed. -/
theorem At.wellFormed (h : At p data v) (hdata : WellFormedFields data) : WellFormed v := by
  have hfield : ∀ {data : Dict} {k : String} {u : Json}, (k, u) ∈ data → WellFormedFields data →
      WellFormed u := by
    intro data k u hmem hfields
    induction data with
    | nil => cases hmem
    | cons field data ih =>
      rcases List.mem_cons.1 hmem with rfl | hmem
      · exact hfields.1
      · exact ih hmem hfields.2
  induction h with
  | here hlookup => exact hfield (lookup_mem hlookup) hdata
  | there hlookup _ _ ih =>
    have hinner : WellFormed (.obj _) := hfield (lookup_mem hlookup) hdata
    exact ih hinner.2

/-- Reading a path gives the value it leads to. -/
theorem getPath_eq_ok : getPath p data = .ok v ↔ At p data v := by
  induction p generalizing data with
  | nil =>
    constructor
    · intro h
      cases h
    · intro h
      exact absurd rfl h.ne_nil
  | cons key path ih =>
    cases path with
    | nil =>
      rw [at_singleton, getPath]
      cases lookup key data <;> simp
    | cons next path =>
      rw [at_cons (List.cons_ne_nil _ _), getPath]
      cases lookup key data with
      | none => simp
      | some nested =>
        cases nested with
        | obj inner =>
          simp only [wrap, ofDict, Option.some.injEq, Json.obj.injEq, exists_eq_left']
          split_ifs with hkeys
          · simp [Except.bind, hkeys, ih]
          · simp [Except.bind, hkeys]
        | null =>
          have hnone : ∀ u, getPath (next :: path) [] ≠ .ok u := by
            intro u hu
            cases path <;> cases hu
          simp [wrap, Except.bind, hnone]
        | _ => simp [wrap, Except.bind]

/-- Writing to a path that leads somewhere puts the value there. -/
theorem setPath_of_at (h : At p data v) : setPath p w data = .ok (put p w data) := by
  induction h with
  | here => rfl
  | @there key path data inner v hlookup hkeys hpath ih =>
    rw [put_cons hpath.ne_nil hlookup]
    cases path with
    | nil => exact absurd rfl hpath.ne_nil
    | cons next path =>
      cases path with
      | nil =>
        simp only [setPath, hlookup]
        rfl
      | cons last path =>
        simp only [setPath, hlookup, wrap, ofDict, if_pos hkeys, bind, Except.bind, ih]
        rfl

theorem keys_put (h : At p data v) : (put p w data).map Prod.fst = data.map Prod.fst := by
  cases h with
  | here hlookup => exact keys_store hlookup
  | there hlookup _ hpath =>
    rw [put_cons hpath.ne_nil hlookup]
    exact keys_store hlookup

theorem at_put (h : At p data v) : At p (put p w data) w := by
  induction h with
  | here => exact .here (by simp [put])
  | there hlookup hkeys hpath ih =>
    rw [put_cons hpath.ne_nil hlookup]
    exact .there (by simp) (undotted_of_keys (keys_put hpath) hkeys) ih

theorem put_put (h : At p data v) : put p w (put p x data) = put p w data := by
  induction h with
  | here => simp [put]
  | there hlookup hkeys hpath ih =>
    rw [put_cons hpath.ne_nil hlookup, put_cons hpath.ne_nil hlookup,
      put_cons_store hpath.ne_nil, ih]

theorem put_self (h : At p data v) : put p v data = data := by
  induction h with
  | here hlookup => exact store_lookup hlookup
  | there hlookup _ hpath ih =>
    rw [put_cons hpath.ne_nil hlookup, ih, store_lookup hlookup]

/-- What a path leads to when another path begins with another key. -/
theorem lookup_put_of_ne {other : String} (hne : key ≠ other) (h : At (key :: p) data v) :
    lookup other (put (key :: p) w data) = lookup other data := by
  cases h with
  | here => simp [put, hne.symm]
  | there hlookup _ hpath => simp [put_cons hpath.ne_nil hlookup, hne.symm]

/-- A path apart from the one that is written leads where it led. -/
theorem at_put_of_apart (hapart : Apart p q) (h : At p data v) :
    At q (put p w data) x ↔ At q data x := by
  induction p generalizing q data with
  | nil => exact absurd rfl h.ne_nil
  | cons key p ih =>
    cases q with
    | nil => exact absurd List.nil_prefix hapart.2
    | cons other q =>
      by_cases hne : key = other
      · subst hne
        rw [apart_cons] at hapart
        have hp : p ≠ [] := by
          rintro rfl
          exact hapart.1 List.nil_prefix
        have hq : q ≠ [] := by
          rintro rfl
          exact hapart.2 List.nil_prefix
        obtain ⟨inner, hlookup, hkeys, hpath⟩ := (at_cons hp).1 h
        have hkeys' : Undotted (put p w inner) := undotted_of_keys (keys_put hpath) hkeys
        simp [at_cons hq, put_cons hp hlookup, hlookup, hkeys, hkeys', ih hapart hpath]
      · have hlookup := lookup_put_of_ne (w := w) hne h
        cases q with
        | nil => simp only [at_singleton, hlookup]
        | cons next q => simp only [at_cons (List.cons_ne_nil _ _), hlookup]

/-- Writes to paths apart from each other commute. -/
theorem put_comm (hapart : Apart p q) (hv : At p data v) (hw : At q data w) :
    put p x (put q y data) = put q y (put p x data) := by
  induction hv generalizing q w with
  | @here key data v hlookup =>
    cases hw with
    | @here other _ _ hother =>
      have hne : key ≠ other := by
        rintro rfl
        exact hapart.1 List.prefix_rfl
      exact store_comm hne hlookup
    | @there other path _ inner _ hother _ hpath =>
      have hne : key ≠ other := by
        rintro rfl
        exact hapart.1 ⟨path, rfl⟩
      rw [put_cons hpath.ne_nil hother, put, put, put_cons_store_of_ne hpath.ne_nil hne.symm hother]
      exact store_comm hne hlookup
  | @there key path data inner v hlookup hkeys hpath ih =>
    cases hw with
    | @here other _ _ hother =>
      have hne : key ≠ other := by
        rintro rfl
        exact hapart.2 ⟨path, rfl⟩
      rw [put_cons hpath.ne_nil hlookup, put, put, put_cons_store_of_ne hpath.ne_nil hne hlookup]
      exact store_comm hne hlookup
    | @there other path' _ inner' _ hother _ hpath' =>
      rw [put_cons hpath.ne_nil hlookup, put_cons hpath'.ne_nil hother]
      by_cases hne : key = other
      · subst hne
        rw [hlookup, Option.some.injEq, Json.obj.injEq] at hother
        subst hother
        rw [put_cons_store hpath.ne_nil, put_cons_store hpath'.ne_nil,
          ih (apart_cons.1 hapart) hpath']
      · rw [put_cons_store_of_ne hpath.ne_nil hne hlookup,
          put_cons_store_of_ne hpath'.ne_nil (Ne.symm hne) hother]
        exact store_comm hne hlookup

end Paths

end EventSourcery.NestedDict
