import EventSourcery.DictHeaps
import EventSourcery.KurrentNames
import EventSourcery.NestedDict

/-!
# Nested dictionaries by reference

`NestedDict` with the dicts that it holds and makes. `NestedDict(value)` is a new dict with the
values of the given one, so a dict in it is the one that was there. An item that is read through
copies is therefore the item itself, and what is set in it is set for all who hold it.

The fuel bounds the calls within a call. A list of pairs, which would be taken for a dict, is not.
-/
namespace EventSourcery.NestedDictHeap
open JsonText DictEntries DictHeaps NestedDict
open Kurrent (splitFirst splitLast splitFirst_eq_none splitFirst_eq_some splitLast_eq_none
  splitLast_eq_some)

/-- `item.split(".", 1)`, if it has two parts. -/
def split (item : String) : Option (String × String) :=
  (splitFirst '.' item.toList).map fun parts => (String.ofList parts.1, String.ofList parts.2)

/-- `item.rsplit(".", 1)`, if it has two parts. -/
def rsplit (item : String) : Option (String × String) :=
  (splitLast '.' item.toList).map fun parts => (String.ofList parts.1, String.ofList parts.2)

/-- All dicts; what is no dict is a leaf. -/
abbrev Dicts := Heap String Json

abbrev Run (A : Type) := StateT Dicts (Except SerdeError) A

/-- `self.data[key]` -/
def getKey (self : Ref) (key : String) : Run (Slot Json) := do
  match ((← get)[self]?).bind (Fields.get key) with
  | some value => return value
  | none => throw .keyError

/-- `data[key] = value` of a dict. -/
def setKey (self : Ref) (key : String) (value : Slot Json) : Run Unit :=
  modify (write self key value)

/-- `{}` -/
def alloc : Run Ref := do
  let dicts ← get
  set (dicts ++ [Fields.empty])
  return dicts.length

def entriesOf (other : Ref) : Run (List (String × Slot Json)) := do
  return ((← get)[other]?).elim [] Fields.entries

def recursionError : SerdeError := .raised "RecursionError"

mutual
/-- `NestedDict(value)`, as the dict in its `data`. -/
def create : ℕ → Slot Json → Run Ref
  | 0, _ => throw recursionError
  | fuel + 1, value => do
      let self ← alloc
      match value with
      | .leaf .null => return self
      | .leaf _ => throw .typeError
      | .dict other =>
          (← entriesOf other).forM fun field => setItem fuel self field.1 field.2
          return self
/-- `__getitem__` -/
def getItem (fuel : ℕ) (self : Ref) (item : String) : Run (Slot Json) :=
  match split item with
  | none => getKey self item
  | some (front, key) =>
      match fuel with
      | 0 => throw recursionError
      | fuel + 1 => do
          let nested ← create fuel (← getKey self front)
          getItem fuel nested key
/-- `__setitem__` -/
def setItem (fuel : ℕ) (self : Ref) (item : String) (value : Slot Json) : Run Unit :=
  match rsplit item with
  | none => setKey self item value
  | some (front, key) =>
      match fuel with
      | 0 => throw recursionError
      | fuel + 1 => do
          match ← getItem fuel self front with
          | .dict r => setKey r key value
          | .leaf _ => throw .typeError
end

/-! ## Dotted names -/

section Names
variable {item front key : String}

theorem parts_of_split_none (h : split item = none) : parts item = [item] :=
  parts_of_undotted (splitFirst_eq_none (Option.map_eq_none_iff.1 h))

theorem parts_of_split_some (h : split item = some (front, key)) :
    parts item = front :: parts key := by
  obtain ⟨⟨before, after⟩, hparts, heq⟩ := Option.map_eq_some_iff.1 h
  cases heq
  obtain ⟨hbefore, htext⟩ := splitFirst_eq_some hparts
  unfold parts
  rw [htext, List.splitOn_append_cons_self_of_not_mem hbefore]
  simp

theorem parts_of_rsplit_none (h : rsplit item = none) : parts item = [item] :=
  parts_of_undotted (splitLast_eq_none (Option.map_eq_none_iff.1 h))

theorem parts_of_rsplit_some (h : rsplit item = some (front, key)) :
    parts item = parts front ++ [key] := by
  obtain ⟨⟨before, after⟩, hparts, heq⟩ := Option.map_eq_some_iff.1 h
  cases heq
  obtain ⟨hafter, htext⟩ := splitLast_eq_some hparts
  unfold parts
  rw [htext, List.splitOn_append_cons_self, List.splitOn_eq_singleton hafter]
  simp

theorem rsplit_of_undotted (h : '.' ∉ item.toList) : rsplit item = none := by
  cases hsplit : rsplit item with
  | none => rfl
  | some halves =>
    obtain ⟨⟨before, after⟩, hparts, -⟩ := Option.map_eq_some_iff.1 hsplit
    rw [(splitLast_eq_some hparts).2] at h
    simp at h

theorem parts_ne_nil (item : String) : parts item ≠ [] := by
  unfold parts
  rw [ne_eq, List.map_eq_nil_iff]
  exact List.splitOn_ne_nil '.' item.toList

theorem fuel_ne_zero {fuel : ℕ} (h : (parts item).length ≤ fuel) : fuel ≠ 0 :=
  Nat.ne_of_gt ((List.length_pos_of_ne_nil (parts_ne_nil item)).trans_le h)

end Names

/-! ## What the calls do -/

section Calls
variable {dicts : Dicts} {fields : Fields String Json} {self r : Ref} {key item : String}
  {value v : Slot Json} {path : List String} {fuel : ℕ}

theorem bind_run {A B : Type} {first : Run A} {next : A → Run B} {dicts dicts' : Dicts} {a : A}
    (h : first dicts = .ok (a, dicts')) : (first >>= next) dicts = next a dicts' := by
  change (first dicts).bind _ = _
  rw [h]
  rfl

theorem getKey_eq (hcell : dicts[self]? = some fields) (hget : fields.get key = some v) :
    getKey self key dicts = .ok (v, dicts) := by
  have hfound : (dicts[self]?).bind (Fields.get key) = some v := by
    rw [hcell, Option.bind_some, hget]
  unfold getKey
  rw [bind_run rfl, hfound]
  rfl

theorem setKey_eq (self : Ref) (key : String) (value : Slot Json) (dicts : Dicts) :
    setKey self key value dicts = .ok ((), write self key value dicts) := rfl

theorem alloc_eq (dicts : Dicts) : alloc dicts = .ok (dicts.length, dicts ++ [Fields.empty]) := rfl

theorem entriesOf_eq (hcell : dicts[r]? = some fields) :
    entriesOf r dicts = .ok (fields.entries, dicts) := by
  unfold entriesOf
  rw [bind_run rfl, hcell]
  rfl

/-- An item without a dot is set in the dict itself. -/
theorem setItem_of_undotted (h : '.' ∉ item.toList) (fuel : ℕ) (self : Ref) (value : Slot Json) :
    setItem fuel self item value = setKey self item value := by
  rw [setItem.eq_def, rsplit_of_undotted h]

/-- No key has a dot. -/
def Plain (fields : Fields String Json) : Prop :=
  ∀ key ∈ fields.entries.map Prod.fst, '.' ∉ key.toList

theorem write_last (dicts : Dicts) (fields : Fields String Json) (key : String) (v : Slot Json) :
    write dicts.length key v (dicts ++ [fields]) = dicts ++ [fields.set key v] := by
  apply List.ext_getElem?
  intro r
  rw [getElem?_write]
  by_cases hr : dicts.length = r
  · subst hr
    simp
  · rw [if_neg hr]
    rcases Nat.lt_or_ge r dicts.length with hlt | hge
    · rw [List.getElem?_append_left hlt, List.getElem?_append_left hlt]
    · have hbeyond : dicts.length + 1 ≤ r := Nat.lt_of_le_of_ne hge hr
      rw [List.getElem?_eq_none (by simpa using hbeyond),
        List.getElem?_eq_none (by simpa using hbeyond)]

/-- Setting the entries of a dict one by one makes a dict of these entries. -/
theorem forM_setItem {entries : List (String × Slot Json)} {before : Fields String Json}
    (hplain : Plain fields) (h : before.entries ++ entries = fields.entries) :
    (entries.forM fun field => setItem fuel dicts.length field.1 field.2) (dicts ++ [before]) =
      .ok ((), dicts ++ [fields]) := by
  induction entries generalizing before with
  | nil =>
    rw [List.append_nil] at h
    rw [Fields.ext h]
    rfl
  | cons entry entries ih =>
    obtain ⟨key, v⟩ := entry
    have hkey : '.' ∉ key.toList := hplain key (by simp [← h])
    have hnew : key ∉ before.entries.map Prod.fst := by
      have hnodup := fields.nodup
      rw [← h, List.map_append, List.nodup_append] at hnodup
      exact fun hmem => hnodup.2.2 key hmem key (by simp) rfl
    have hadd : (before.set key v).entries = before.entries ++ [(key, v)] := putEntry_new hnew
    have hset : setItem fuel dicts.length key v (dicts ++ [before]) =
        .ok ((), dicts ++ [before.set key v]) := by
      rw [setItem_of_undotted hkey, setKey_eq, write_last]
    rw [List.forM]
    refine (bind_run hset).trans (ih ?_)
    rw [hadd, List.append_assoc, List.singleton_append, h]

/-- A copy is a new dict with the entries of the dict. -/
theorem create_eq (hcell : dicts[r]? = some fields) (hplain : Plain fields) (fuel : ℕ) :
    create (fuel + 1) (.dict r) dicts = .ok (dicts.length, dicts ++ [fields]) := by
  rw [create, bind_run (alloc_eq dicts)]
  dsimp only
  rw [bind_run (entriesOf_eq (cell_extend hcell [Fields.empty])),
    bind_run (forM_setItem hplain rfl)]
  rfl

/-- What a path leads to from a dict, through dicts whose keys have no dots. -/
inductive Leads (dicts : Dicts) : List String → Ref → Slot Json → Prop
  | here {self : Ref} {key : String} {fields : Fields String Json} {v : Slot Json}
      (hcell : dicts[self]? = some fields) (hget : fields.get key = some v) :
      Leads dicts [key] self v
  | there {self r : Ref} {key : String} {path : List String} {fields inner : Fields String Json}
      {v : Slot Json} (hcell : dicts[self]? = some fields)
      (hget : fields.get key = some (.dict r)) (hinner : dicts[r]? = some inner)
      (hplain : Plain inner) (hpath : Leads dicts path r v) : Leads dicts (key :: path) self v

theorem Leads.ne_nil (h : Leads dicts path self v) : path ≠ [] := by
  cases h <;> exact List.cons_ne_nil _ _

theorem leads_singleton : Leads dicts [key] self v ↔
    ∃ fields, dicts[self]? = some fields ∧ fields.get key = some v := by
  constructor
  · intro h
    cases h with
    | here hcell hget => exact ⟨_, hcell, hget⟩
    | there _ _ _ _ hpath => exact absurd rfl hpath.ne_nil
  · rintro ⟨fields, hcell, hget⟩
    exact .here hcell hget

theorem leads_cons (hpath : path ≠ []) : Leads dicts (key :: path) self v ↔
    ∃ fields r inner, dicts[self]? = some fields ∧ fields.get key = some (.dict r) ∧
      dicts[r]? = some inner ∧ Plain inner ∧ Leads dicts path r v := by
  constructor
  · intro h
    cases h with
    | here => exact absurd rfl hpath
    | there hcell hget hinner hplain hrest => exact ⟨_, _, _, hcell, hget, hinner, hplain, hrest⟩
  · rintro ⟨fields, r, inner, hcell, hget, hinner, hplain, hrest⟩
    exact .there hcell hget hinner hplain hrest

theorem follow_of_leads (h : Leads dicts path self v) :
    follow dicts path (.dict self) = some v := by
  induction h with
  | here hcell hget => rw [follow_cons hcell hget, follow]
  | there hcell hget _ _ _ ih => rw [follow_cons hcell hget, ih]

theorem Leads.extend (h : Leads dicts path self v) (new : Dicts) :
    Leads (dicts ++ new) path self v := by
  induction h with
  | here hcell hget => exact .here (cell_extend hcell new) hget
  | there hcell hget hinner hplain _ ih =>
    exact .there (cell_extend hcell new) hget (cell_extend hinner new) hplain ih

/-- From a copy a path leads to what it leads to from the dict. -/
theorem Leads.copy (h : Leads dicts path r v) (hcell : dicts[r]? = some fields) :
    Leads (dicts ++ [fields]) path dicts.length v := by
  have hcopy : (dicts ++ [fields])[dicts.length]? = some fields := List.getElem?_concat_length
  cases h with
  | here hcell' hget =>
    cases hcell.symm.trans hcell'
    exact .here hcopy hget
  | there hcell' hget hinner hplain hpath =>
    cases hcell.symm.trans hcell'
    exact .there hcopy hget (cell_extend hinner _) hplain (hpath.extend _)

/-- The dict that holds what a path leads to. -/
theorem Leads.holder (h : Leads dicts (path ++ [key]) self v) (hpath : path ≠ []) :
    ∃ r fields, Leads dicts path self (.dict r) ∧ dicts[r]? = some fields ∧ Plain fields ∧
      fields.get key = some v := by
  induction path generalizing self with
  | nil => exact absurd rfl hpath
  | cons first path ih =>
    obtain ⟨fields, r, inner, hcell, hget, hinner, hplain, hrest⟩ :=
      (leads_cons (by simp)).1 h
    cases path with
    | nil =>
      obtain ⟨fields', hcell', hget'⟩ := leads_singleton.1 hrest
      cases hinner.symm.trans hcell'
      exact ⟨r, inner, .here hcell hget, hinner, hplain, hget'⟩
    | cons next path =>
      obtain ⟨r', fields', hholder, hcell', hplain', hget'⟩ := ih hrest (List.cons_ne_nil _ _)
      exact ⟨r', fields', .there hcell hget hinner hplain hholder, hcell', hplain', hget'⟩

/-- The dicts inside of a path have no dotted keys. -/
def Through (dicts : Dicts) (path : List String) (self : Ref) : Prop :=
  ∀ p q r, path = p ++ q → p ≠ [] → q ≠ [] → follow dicts p (.dict self) = some (.dict r) →
    ∃ inner, dicts[r]? = some inner ∧ Plain inner

theorem through_of_leads (h : Leads dicts path self v) : Through dicts path self := by
  intro p q r hsplit hp hq hreach
  induction h generalizing p with
  | here =>
    rcases List.append_eq_singleton_iff.1 hsplit.symm with ⟨hnil, -⟩ | ⟨-, hnil⟩
    · exact absurd hnil hp
    · exact absurd hnil hq
  | @there self t k path fields inner v hcell hget hinner hplain hpath ih =>
    obtain ⟨k', p, rfl⟩ := List.exists_cons_of_ne_nil hp
    obtain ⟨rfl, hrest⟩ := List.cons.inj hsplit
    rw [follow_cons hcell hget] at hreach
    by_cases hnil : p = []
    · subst hnil
      cases hreach
      exact ⟨inner, hinner, hplain⟩
    · exact ih p hrest hnil hreach

theorem leads_of_follow (hpath : path ≠ []) (hfollow : follow dicts path (.dict self) = some v)
    (hthrough : Through dicts path self) : Leads dicts path self v := by
  induction path generalizing self with
  | nil => exact absurd rfl hpath
  | cons key path ih =>
    obtain ⟨fields, u, hcell, hget, hrest⟩ := follow_cons_eq_some.1 hfollow
    by_cases hnil : path = []
    · subst hnil
      cases hrest
      exact .here hcell hget
    · obtain ⟨r, rfl⟩ := dict_of_follow hnil hrest
      obtain ⟨inner, hinner, hplain⟩ :=
        hthrough [key] path r rfl (List.cons_ne_nil _ _) hnil (follow_cons hcell hget [])
      refine .there hcell hget hinner hplain (ih hnil hrest fun p q t hsplit hp hq hreach => ?_)
      refine hthrough (key :: p) q t (by rw [hsplit, List.cons_append]) (List.cons_ne_nil _ _) hq ?_
      rw [follow_cons hcell hget, hreach]

/-- A value put under a key that is there brings no dotted key. -/
theorem plain_write {t : Ref} {old : Slot Json} {inner : Fields String Json}
    (hcell : dicts[r]? = some fields) (hget : fields.get key = some old)
    (hinner : dicts[t]? = some inner) (hplain : Plain inner) :
    ∃ inner, (write r key value dicts)[t]? = some inner ∧ Plain inner := by
  rw [getElem?_write, hinner]
  by_cases ht : r = t
  · subst ht
    cases hcell.symm.trans hinner
    refine ⟨fields.set key value, if_pos rfl, ?_⟩
    rwa [Plain, Fields.keys_set hget]
  · exact ⟨inner, if_neg ht, hplain⟩

/-- A path whose dicts are where they were still has no dotted keys inside. -/
theorem through_write {old : Slot Json} (h : Through dicts path self)
    (hcell : dicts[r]? = some fields) (hget : fields.get key = some old)
    (hsame : ∀ p q, path = p ++ q → q ≠ [] →
      follow (write r key value dicts) p (.dict self) = follow dicts p (.dict self)) :
    Through (write r key value dicts) path self := by
  intro p q t hsplit hp hq hreach
  rw [hsame p q hsplit hq] at hreach
  obtain ⟨inner, hinner, hplain⟩ := h p q t hsplit hp hq hreach
  exact plain_write hcell hget hinner hplain

/-- A path apart from the written one leads where it led. -/
theorem leads_write {front : List String} {old : Slot Json} (h : Leads dicts path self v)
    (htree : Tree dicts (.dict self)) (hfront : follow dicts front (.dict self) = some (.dict r))
    (hcell : dicts[r]? = some fields) (hget : fields.get key = some old)
    (hapart : ¬ front ++ [key] <+: path) : Leads (write r key value dicts) path self v := by
  have hsame : ∀ p q, path = p ++ q →
      follow (write r key value dicts) p (.dict self) = follow dicts p (.dict self) := by
    intro p q hsplit
    refine htree.follow_write_apart hfront fun hprefix => hapart ?_
    exact hprefix.trans ⟨q, hsplit.symm⟩
  refine leads_of_follow h.ne_nil ?_ ?_
  · rw [hsame path [] (List.append_nil path).symm, follow_of_leads h]
  · exact through_write (through_of_leads h) hcell hget fun p q hsplit _ => hsame p q hsplit

/-- What is written under the last key of a path, the path leads to. -/
theorem leads_written {front : List String} (h : Leads dicts (front ++ [key]) self v)
    (htree : Tree dicts (.dict self)) (hfront : follow dicts front (.dict self) = some (.dict r))
    (hcell : dicts[r]? = some fields) (hget : fields.get key = some v) :
    Leads (write r key value dicts) (front ++ [key]) self value := by
  refine leads_of_follow h.ne_nil (htree.follow_written hfront hcell) ?_
  refine through_write (through_of_leads h) hcell hget fun p q hsplit hq => ?_
  -- a proper part of the path does not go through the written key
  refine htree.follow_write_apart hfront fun hprefix => hq ?_
  rw [hsplit] at hprefix
  have hlength := hprefix.length_le
  rw [List.length_append] at hlength
  exact List.length_eq_zero_iff.1 (by omega)

/-- A read through copies gives the item itself. -/
theorem getItem_eq (h : Leads dicts (parts item) self v) (hfuel : (parts item).length ≤ fuel) :
    ∃ copies, getItem fuel self item dicts = .ok (v, dicts ++ copies) := by
  induction fuel generalizing dicts self item with
  | zero => exact absurd rfl (fuel_ne_zero hfuel)
  | succ fuel ih =>
    cases hsplit : split item with
    | none =>
      rw [parts_of_split_none hsplit] at h
      obtain ⟨fields, hcell, hget⟩ := leads_singleton.1 h
      refine ⟨[], ?_⟩
      rw [getItem, hsplit, List.append_nil]
      exact getKey_eq hcell hget
    | some halves =>
      obtain ⟨front, key⟩ := halves
      rw [parts_of_split_some hsplit] at h hfuel
      obtain ⟨fields, r, inner, hcell, hget, hinner, hplain, hrest⟩ :=
        (leads_cons (parts_ne_nil key)).1 h
      have hrestFuel : (parts key).length ≤ fuel := Nat.le_of_succ_le_succ hfuel
      obtain ⟨copies, hread⟩ := ih (hrest.copy hinner) hrestFuel
      obtain ⟨left, rfl⟩ := Nat.exists_eq_add_one_of_ne_zero (fuel_ne_zero hrestFuel)
      refine ⟨inner :: copies, ?_⟩
      rw [getItem, hsplit]
      dsimp only
      rw [bind_run (getKey_eq hcell hget), bind_run (create_eq hinner hplain left), hread,
        List.append_assoc, List.singleton_append]

/-- Setting an item that is there is one write, to the dict that holds the item. -/
theorem setItem_eq (h : Leads dicts (parts item) self v) (hfuel : (parts item).length ≤ fuel)
    (value : Slot Json) :
    ∃ front key r fields copies, parts item = front ++ [key] ∧
      follow dicts front (.dict self) = some (.dict r) ∧ dicts[r]? = some fields ∧
      fields.get key = some v ∧
      setItem fuel self item value dicts = .ok ((), write r key value dicts ++ copies) := by
  cases hsplit : rsplit item with
  | none =>
    rw [parts_of_rsplit_none hsplit] at h
    obtain ⟨fields, hcell, hget⟩ := leads_singleton.1 h
    refine ⟨[], item, self, fields, [], parts_of_rsplit_none hsplit, rfl, hcell, hget, ?_⟩
    rw [setItem, hsplit, List.append_nil]
    exact setKey_eq self item value dicts
  | some halves =>
    obtain ⟨front, key⟩ := halves
    have hparts := parts_of_rsplit_some hsplit
    obtain ⟨left, rfl⟩ := Nat.exists_eq_add_one_of_ne_zero (fuel_ne_zero hfuel)
    rw [hparts] at h hfuel
    obtain ⟨r, fields, hholder, hcell, -, hget⟩ := h.holder (parts_ne_nil front)
    rw [List.length_append, List.length_singleton] at hfuel
    obtain ⟨copies, hread⟩ := getItem_eq hholder (Nat.le_of_succ_le_succ hfuel)
    refine ⟨parts front, key, r, fields, copies, hparts, follow_of_leads hholder, hcell, hget, ?_⟩
    rw [setItem, hsplit]
    dsimp only
    rw [bind_run hread]
    dsimp only
    rw [setKey_eq, write_append hcell]

end Calls

/-! ## JSON objects in dicts -/

mutual
/-- A value in the dicts is a JSON value. -/
inductive Shows (dicts : Dicts) : Json → Slot Json → Prop
  | leaf {j : Json} (h : ∀ data, j ≠ .obj data) : Shows dicts j (.leaf j)
  | dict {data : Dict} {r : Ref} {fields : Fields String Json} (hcell : dicts[r]? = some fields)
      (hentries : ShowsEntries dicts data fields.entries) : Shows dicts (.obj data) (.dict r)
inductive ShowsEntries (dicts : Dicts) : Dict → List (String × Slot Json) → Prop
  | nil : ShowsEntries dicts [] []
  | cons {key : String} {j : Json} {v : Slot Json} {data : Dict}
      {entries : List (String × Slot Json)} (hvalue : Shows dicts j v)
      (hrest : ShowsEntries dicts data entries) :
      ShowsEntries dicts ((key, j) :: data) ((key, v) :: entries)
end

mutual
/-- A value is the same in dicts that have not changed where it reaches. -/
theorem shows_transport {dicts dicts' : Dicts} {j : Json} {v : Slot Json}
    (hsame : ∀ p r, follow dicts p v = some (.dict r) → dicts'[r]? = dicts[r]?)
    (h : Shows dicts j v) : Shows dicts' j v := by
  cases h with
  | leaf h => exact .leaf h
  | @dict data r fields hcell hentries =>
    refine .dict ((hsame [] r rfl).trans hcell) (showsEntries_transport ?_ hentries)
    intro entry hentry p t hp
    refine hsame (entry.1 :: p) t ?_
    rw [follow_cons hcell (Fields.get_of_mem hentry), hp]
theorem showsEntries_transport {dicts dicts' : Dicts} {data : Dict}
    {entries : List (String × Slot Json)}
    (hsame : ∀ entry ∈ entries, ∀ p r, follow dicts p entry.2 = some (.dict r) →
      dicts'[r]? = dicts[r]?)
    (h : ShowsEntries dicts data entries) : ShowsEntries dicts' data entries := by
  cases h with
  | nil => exact .nil
  | cons hvalue hrest =>
    refine .cons (shows_transport (hsame _ List.mem_cons_self) hvalue)
      (showsEntries_transport (fun entry hentry => ?_) hrest)
    exact hsame entry (List.mem_cons_of_mem _ hentry)
end

section Json
variable {dicts dicts' : Dicts} {fields : Fields String Json} {self r : Ref} {key : String}
  {value v u : Slot Json} {path : List String} {data : Dict} {j w old : Json}
  {entries : List (String × Slot Json)}

theorem keys_of_shows (h : ShowsEntries dicts data entries) :
    entries.map Prod.fst = data.map Prod.fst := by
  induction data generalizing entries with
  | nil =>
    cases h
    rfl
  | cons field data ih =>
    cases h with
    | cons _ hrest => rw [List.map_cons, List.map_cons, ih hrest]

theorem plain_iff (h : ShowsEntries dicts data fields.entries) : Plain fields ↔ Undotted data := by
  rw [undotted_iff, Plain, keys_of_shows h]

theorem find_of_lookup (h : ShowsEntries dicts data entries) (hlookup : lookup key data = some j) :
    ∃ v, findEntry key entries = some v ∧ Shows dicts j v := by
  induction data generalizing entries with
  | nil => cases hlookup
  | cons field data ih =>
    cases h with
    | @cons k _ v _ _ hvalue hrest =>
      by_cases hk : k = key
      · rw [lookup, if_pos hk, Option.some_inj] at hlookup
        exact ⟨v, if_pos hk, hlookup ▸ hvalue⟩
      · rw [lookup, if_neg hk] at hlookup
        rw [findEntry, if_neg hk]
        exact ih hrest hlookup

theorem lookup_of_find (h : ShowsEntries dicts data entries)
    (hfind : findEntry key entries = some v) :
    ∃ j, lookup key data = some j ∧ Shows dicts j v := by
  induction data generalizing entries with
  | nil =>
    cases h
    cases hfind
  | cons field data ih =>
    cases h with
    | @cons k j _ _ _ hvalue hrest =>
      by_cases hk : k = key
      · rw [findEntry, if_pos hk, Option.some_inj] at hfind
        exact ⟨j, if_pos hk, hfind ▸ hvalue⟩
      · rw [findEntry, if_neg hk] at hfind
        rw [lookup, if_neg hk]
        exact ih hrest hfind

/-- A JSON value is in the dicts as a whole. -/
theorem closed_of_shows (h : Shows dicts j v) : Closed dicts v := by
  intro p r hp
  induction p generalizing j v with
  | nil =>
    cases hp
    cases h with
    | dict hcell _ => exact (List.getElem?_eq_some_iff.1 hcell).1
  | cons key p ih =>
    cases h with
    | leaf h => cases hp
    | dict hcell hentries =>
      rw [follow_dict hcell] at hp
      obtain ⟨u, hget, hrest⟩ := Option.bind_eq_some_iff.1 hp
      obtain ⟨inner, -, hvalue⟩ := lookup_of_find hentries hget
      exact ih hvalue hrest

theorem shows_extend (h : Shows dicts j v) (new : Dicts) : Shows (dicts ++ new) j v :=
  shows_transport (fun p r hp => List.getElem?_append_left (closed_of_shows h p r hp)) h

/-- A copy shows what the dict shows. -/
theorem shows_copy (h : Shows dicts (.obj data) (.dict r)) (hcell : dicts[r]? = some fields) :
    Shows (dicts ++ [fields]) (.obj data) (.dict dicts.length) := by
  have hextended := shows_extend h [fields]
  cases hextended with
  | dict hcell' hentries =>
    cases (cell_extend hcell [fields]).symm.trans hcell'
    exact .dict List.getElem?_concat_length hentries

/-- What a path leads to in a JSON object, it leads to in the dicts. -/
theorem leads_of_at (hat : At path data j) (h : Shows dicts (.obj data) (.dict self)) :
    ∃ v, Leads dicts path self v ∧ Shows dicts j v := by
  induction hat generalizing self with
  | here hlookup =>
    cases h with
    | dict hcell hentries =>
      obtain ⟨v, hget, hvalue⟩ := find_of_lookup hentries hlookup
      exact ⟨v, .here hcell hget, hvalue⟩
  | there hlookup hkeys _ ih =>
    cases h with
    | dict hcell hentries =>
      obtain ⟨v, hget, hvalue⟩ := find_of_lookup hentries hlookup
      cases hvalue with
      | leaf h => exact absurd rfl (h _)
      | dict hinner hentries' =>
        obtain ⟨u, hpath, hshows⟩ := ih (.dict hinner hentries')
        exact ⟨u, .there hcell hget hinner ((plain_iff hentries').2 hkeys) hpath, hshows⟩

theorem showsEntries_of_forall (h : ShowsEntries dicts data entries)
    (hall : ∀ k u, (k, u) ∈ entries → ∀ j, Shows dicts j u → Shows dicts' j u) :
    ShowsEntries dicts' data entries := by
  induction data generalizing entries with
  | nil =>
    cases h
    exact .nil
  | cons field data ih =>
    cases h with
    | cons hvalue hrest =>
      exact .cons (hall _ _ List.mem_cons_self _ hvalue)
        (ih hrest fun k u hmem => hall k u (List.mem_cons_of_mem _ hmem))

/-- Entries with one value put in, and the others as they were. -/
theorem showsEntries_put (h : ShowsEntries dicts data entries)
    (hnodup : (entries.map Prod.fst).Nodup) (hvalue : Shows dicts' w value)
    (hothers : ∀ k u, (k, u) ∈ entries → k ≠ key → ∀ j, Shows dicts j u → Shows dicts' j u) :
    ShowsEntries dicts' (store key w data) (putEntry key value entries) := by
  induction data generalizing entries with
  | nil =>
    cases h
    exact .cons hvalue .nil
  | cons field data ih =>
    cases h with
    | @cons k _ v _ entries hfirst hrest =>
      rw [List.map_cons, List.nodup_cons] at hnodup
      have hlater : ∀ k' u, (k', u) ∈ entries → k' ≠ key → ∀ j, Shows dicts j u →
          Shows dicts' j u := fun k' u hmem => hothers k' u (List.mem_cons_of_mem _ hmem)
      by_cases hk : k = key
      · rw [store, if_pos hk, putEntry, if_pos hk]
        refine .cons hvalue (showsEntries_of_forall hrest fun k' u hmem => hlater k' u hmem ?_)
        rintro rfl
        exact hnodup.1 (List.mem_map.2 ⟨(k', u), hmem, hk.symm⟩)
      · rw [store, if_neg hk, putEntry, if_neg hk]
        exact .cons (hothers k v List.mem_cons_self hk _ hfirst) (ih hrest hnodup.2 hlater)

/-- What does not reach the written dict shows what it showed. -/
theorem shows_write (hnot : ∀ p, follow dicts p u ≠ some (.dict r)) (h : Shows dicts j u) :
    Shows (write r key value dicts) j u := by
  refine shows_transport (fun p t hp => ?_) h
  rw [getElem?_write, if_neg]
  rintro rfl
  exact hnot p hp

/-- A write to the dict that a path ends in puts the value where the path leads to. -/
theorem shows_put {front : List String} {new : Dicts} (hat : At path data old)
    (h : Shows dicts (.obj data) (.dict self)) (htree : Tree dicts (.dict self))
    (hpath : path = front ++ [key]) (hfront : follow dicts front (.dict self) = some (.dict r))
    (hvalue : Shows (write r key value dicts ++ new) w value) :
    Shows (write r key value dicts ++ new) (.obj (put path w data)) (.dict self) := by
  induction hat generalizing self front with
  | @here k data old hlookup =>
    obtain ⟨rfl, rfl⟩ : front = [] ∧ k = key := by
      cases front <;> simp_all
    cases hfront
    cases h with
    | @dict _ _ fields hcell hentries =>
      have hwritten : (write r k value dicts)[r]? = some (fields.set k value) := by
        rw [getElem?_write, if_pos rfl, hcell, Option.map_some]
      refine .dict (cell_extend hwritten new) (showsEntries_put hentries fields.nodup hvalue ?_)
      intro k' u hmem hk j
      have hu : follow dicts [k'] (.dict r) = some u :=
        follow_cons hcell (Fields.get_of_mem hmem) []
      have hnot := htree.unreached rfl hu (List.cons_ne_nil _ _ ∘ List.prefix_nil.1)
      exact fun hvalue => shows_extend (shows_write hnot hvalue) new
  | @there k path data inner old hlookup hkeys hrest ih =>
    cases front with
    | nil => exact absurd (List.cons.inj hpath).2 hrest.ne_nil
    | cons k' front =>
      obtain ⟨rfl, hrestPath⟩ := List.cons.inj hpath
      have hself : r ≠ self := by
        rintro rfl
        exact List.cons_ne_nil _ _ (htree _ _ _ hfront rfl)
      cases h with
      | @dict _ _ fields hcell hentries =>
        obtain ⟨u, hget, hinner⟩ := find_of_lookup hentries hlookup
        have hu : follow dicts [k] (.dict self) = some u := follow_cons hcell hget []
        have hput : Shows (write r key value dicts ++ new) (.obj (put path w inner)) u := by
          rw [follow_cons hcell hget] at hfront
          cases hinner with
          | leaf h => exact absurd rfl (h _)
          | dict hcell' hentries' =>
            exact ih (.dict hcell' hentries') (htree.get hcell hget) hrestPath hfront
        have hcell' : (write r key value dicts)[self]? = some fields := by
          rw [getElem?_write, if_neg hself, hcell]
        rw [put_cons hrest.ne_nil hlookup]
        refine .dict (cell_extend hcell' new) ?_
        rw [← putEntry_findEntry hget]
        refine showsEntries_put hentries fields.nodup hput fun k' u' hmem hk j => ?_
        have hu' : follow dicts [k'] (.dict self) = some u' :=
          follow_cons hcell (Fields.get_of_mem hmem) []
        have hnot := htree.unreached hfront hu' fun hprefix => hk (by simpa using hprefix)
        exact fun hvalue => shows_extend (shows_write hnot hvalue) new

end Json

/-! ## Every object is in some dicts -/

mutual
/-- A JSON value can be placed behind any dicts as a tree of new ones. -/
theorem exists_tree (j : Json) (h : WellFormed j) (dicts : Dicts) :
    ∃ new v, Shows (dicts ++ new) j v ∧ Tree (dicts ++ new) v ∧
      ∀ p r, follow (dicts ++ new) p v = some (.dict r) → dicts.length ≤ r := by
  cases j with
  | obj data =>
    obtain ⟨hnodup, hfields⟩ : (data.map Prod.fst).Nodup ∧ WellFormedFields data := h
    obtain ⟨new, entries, hentries, htrees, hbounds, hapart⟩ := exists_trees data hfields dicts
    let fields : Fields String Json := ⟨entries, (keys_of_shows hentries).symm ▸ hnodup⟩
    have hmem : ∀ k v, fields.get k = some v → (k, v) ∈ entries := fun k v => mem_of_findEntry
    have hclosed : ∀ k v, fields.get k = some v → Closed (dicts ++ new) v := by
      intro k v hget
      obtain ⟨j, -, hvalue⟩ := lookup_of_find hentries hget
      exact closed_of_shows hvalue
    refine ⟨new ++ [fields], .dict (dicts ++ new).length, ?_⟩
    rw [← List.append_assoc]
    refine ⟨.dict List.getElem?_concat_length ?_, ?_, ?_⟩
    · exact showsEntries_of_forall hentries fun _ _ _ _ hvalue => shows_extend hvalue [fields]
    · refine tree_alloc hclosed (fun k v hget => htrees k v (hmem k v hget)) ?_
      intro k k' v v' p q r hget hget'
      exact hapart k k' v v' p q r (hmem k v hget) (hmem k' v' hget')
    · intro p r hp
      cases p with
      | nil =>
        cases hp
        simp
      | cons key p =>
        rw [follow_alloc hclosed] at hp
        obtain ⟨v, hget, hp⟩ := Option.bind_eq_some_iff.1 hp
        exact hbounds key v (hmem key v hget) p r hp
  | _ =>
    exact ⟨[], .leaf _, .leaf nofun, tree_leaf _ _, fun p _ hp => absurd hp (follow_leaf _ p _)⟩
theorem exists_trees (data : Dict) (h : WellFormedFields data) (dicts : Dicts) :
    ∃ new entries, ShowsEntries (dicts ++ new) data entries ∧
      (∀ k v, (k, v) ∈ entries → Tree (dicts ++ new) v) ∧
      (∀ k v, (k, v) ∈ entries → ∀ p r, follow (dicts ++ new) p v = some (.dict r) →
        dicts.length ≤ r) ∧
      ∀ k k' v v' p q r, (k, v) ∈ entries → (k', v') ∈ entries →
        follow (dicts ++ new) p v = some (.dict r) →
          follow (dicts ++ new) q v' = some (.dict r) → k = k' := by
  cases data with
  | nil =>
    exact ⟨[], [], .nil, nofun, nofun, nofun⟩
  | cons field data =>
    obtain ⟨key, j⟩ := field
    obtain ⟨new, v, hvalue, htree, hbound⟩ := exists_tree j h.1 dicts
    obtain ⟨later, entries, hentries, htrees, hbounds, hapart⟩ :=
      exists_trees data h.2 (dicts ++ new)
    have hclosed := closed_of_shows hvalue
    have hbefore : ∀ p r, follow (dicts ++ new ++ later) p v = some (.dict r) →
        dicts.length ≤ r ∧ r < (dicts ++ new).length := by
      intro p r hp
      rw [follow_extend hclosed] at hp
      exact ⟨hbound p r hp, hclosed p r hp⟩
    refine ⟨new ++ later, (key, v) :: entries, ?_⟩
    rw [← List.append_assoc]
    refine ⟨.cons (shows_extend hvalue later) hentries, ?_, ?_, ?_⟩
    · intro k u hmem
      rcases List.mem_cons.1 hmem with hfirst | hmem
      · cases hfirst
        exact htree.extend hclosed later
      · exact htrees k u hmem
    · intro k u hmem p r hp
      rcases List.mem_cons.1 hmem with hfirst | hmem
      · cases hfirst
        exact (hbefore p r hp).1
      · refine le_trans ?_ (hbounds k u hmem p r hp)
        simp
    · intro k k' u u' p q r hmem hmem' hp hq
      rcases List.mem_cons.1 hmem with hfirst | hmem <;>
        rcases List.mem_cons.1 hmem' with hfirst' | hmem'
      · cases hfirst
        cases hfirst'
        rfl
      · cases hfirst
        exact absurd (hbounds k' u' hmem' q r hq) (Nat.not_le.2 (hbefore p r hp).2)
      · cases hfirst'
        exact absurd (hbounds k u hmem p r hp) (Nat.not_le.2 (hbefore q r hq).2)
      · exact hapart k k' u u' p q r hmem hmem' hp hq
end

section Json
variable {dicts dicts' : Dicts} {fields : Fields String Json} {self r : Ref} {key : String}
  {value v u : Slot Json} {path : List String} {data : Dict} {j w old : Json}
  {entries : List (String × Slot Json)}

/-! ## The laws of an accessor -/

/-- Reading an item gives a value, and changes none of the dicts. -/
def Reads (fuel : ℕ) (self : Ref) (item : String) (dicts : Dicts) (v : Slot Json) : Prop :=
  ∃ copies, getItem fuel self item dicts = .ok (v, dicts ++ copies)

/-- The dict in a new `NestedDict` shows the object as a tree. -/
theorem create_object {root : Ref} {fuel : ℕ} (h : Shows dicts (.obj data) (.dict root))
    (htree : Tree dicts (.dict root)) (hkeys : Undotted data) (hfuel : fuel ≠ 0) :
    ∃ before, create fuel (.dict root) dicts = .ok (dicts.length, before) ∧
      Shows before (.obj data) (.dict dicts.length) ∧ Tree before (.dict dicts.length) := by
  have hclosed := closed_of_shows h
  cases h with
  | @dict _ _ fields hcell hentries =>
    obtain ⟨left, rfl⟩ := Nat.exists_eq_add_one_of_ne_zero hfuel
    exact ⟨dicts ++ [fields], create_eq hcell ((plain_iff hentries).2 hkeys) left,
      shows_copy (.dict hcell hentries) hcell, htree.copy hclosed hcell⟩

/-- `NestedDict` of an object, with an item that is there set to any value: reading the item gives
the value, items apart from it are what they were, setting what was there changes no dict, and the
dict in `data` holds the value itself. What it shows is what the write makes of the object. -/
theorem nestedDict_lawful {root : Ref} (hobject : Shows dicts (.obj data) (.dict root))
    (htree : Tree dicts (.dict root)) (hkeys : Undotted data) {item : String}
    (hat : At (parts item) data old) {fuel : ℕ} (hfuel : (parts item).length ≤ fuel)
    (value : Slot Json) :
    ∃ self before current after, create fuel (.dict root) dicts = .ok (self, before) ∧
      Reads fuel self item before current ∧ Shows before old current ∧
      setItem fuel self item value before = .ok ((), after) ∧
      Reads fuel self item after value ∧
      (∀ other x, At (parts other) data x → (parts other).length ≤ fuel →
        Apart (parts item) (parts other) →
          ∃ v, Reads fuel self other before v ∧ Shows before x v ∧
            Reads fuel self other after v ∧ Shows after x v) ∧
      (value = current → before <+: after) ∧
      follow after (parts item) (.dict self) = some value ∧
      ∀ w, Shows after w value → ∃ data', NestedDict.setItem item w data = .ok data' ∧
        Shows after (.obj data') (.dict self) := by
  obtain ⟨before, hcreate, hshows, htree'⟩ :=
    create_object hobject htree hkeys (fuel_ne_zero hfuel)
  obtain ⟨current, hleads, hcurrent⟩ := leads_of_at hat hshows
  obtain ⟨front, key, r, fields, copies, hparts, hfront, hcell, hget, hset⟩ :=
    setItem_eq hleads hfuel value
  have hafter : Leads (write r key value before ++ copies) (parts item) dicts.length value := by
    rw [hparts] at hleads ⊢
    exact (leads_written hleads htree' hfront hcell hget).extend copies
  refine ⟨_, before, current, _, hcreate, getItem_eq hleads hfuel, hcurrent, hset,
    getItem_eq hafter hfuel, ?_, ?_, follow_of_leads hafter, ?_⟩
  · intro other x hother hotherFuel hapart
    obtain ⟨v, hv, hx⟩ := leads_of_at hother hshows
    have hunreached : ∀ s, follow before s v ≠ some (.dict r) := by
      refine htree'.unreached hfront (follow_of_leads hv) fun hprefix => hapart.2 ?_
      exact hparts ▸ hprefix.trans (List.prefix_append front [key])
    have hv' : Leads (write r key value before) (parts other) dicts.length v :=
      leads_write hv htree' hfront hcell hget (hparts ▸ hapart.1)
    exact ⟨v, getItem_eq hv hotherFuel, hx, getItem_eq (hv'.extend copies) hotherFuel,
      shows_extend (shows_write hunreached hx) copies⟩
  · -- what is there already is what the dict holds under the key
    rintro rfl
    rw [write_get hcell hget]
    exact List.prefix_append before copies
  · intro w hw
    exact ⟨_, setPath_of_at hat, shows_put hat hshows htree' hparts hfront hw⟩

end Json

section Example

def addressFields : Fields String Json := ⟨[("street", .leaf (.str "Main"))], by decide⟩

def personFields : Fields String Json :=
  ⟨[("address", .dict 0), ("name", .leaf (.str "Ann"))], by decide⟩

def person : Dict := [("address", .obj [("street", .str "Main")]), ("name", .str "Ann")]

theorem shows_person : Shows [addressFields, personFields] (.obj person) (.dict 1) :=
  .dict rfl (.cons (.dict rfl (.cons (.leaf nofun) .nil)) (.cons (.leaf nofun) .nil))

theorem tree_address : Tree [addressFields] (.dict 0) := by
  have hstreet : ∀ k v, addressFields.get k = some v → v = .leaf (.str "Main") := by
    intro k v hget
    have hmem : (k, v) ∈ [("street", Slot.leaf (Json.str "Main"))] := mem_of_findEntry hget
    simp_all
  have hempty : ([] : Dicts) ++ [addressFields] = [addressFields] := rfl
  rw [← hempty]
  refine tree_alloc (fun k v hget => ?_) (fun k v hget => ?_) fun k k' v v' p q r hget _ hp => ?_
  · rw [hstreet k v hget]
    exact closed_leaf _ _
  · rw [hstreet k v hget]
    exact tree_leaf _ _
  · rw [hstreet k v hget] at hp
    exact absurd hp (follow_leaf _ p _)

theorem tree_person : Tree [addressFields, personFields] (.dict 1) := by
  have hfields : ∀ k v, personFields.get k = some v →
      k = "address" ∧ v = .dict 0 ∨ v = .leaf (.str "Ann") := by
    intro k v hget
    have hmem : (k, v) ∈ [("address", Slot.dict 0), ("name", Slot.leaf (Json.str "Ann"))] :=
      mem_of_findEntry hget
    simp only [List.mem_cons, Prod.mk.injEq, List.not_mem_nil, or_false] at hmem
    exact hmem.imp id And.right
  have hclosed : Closed [addressFields] (.dict 0) := by
    have haddress : Shows [addressFields] (.obj [("street", .str "Main")]) (.dict 0) :=
      .dict rfl (.cons (.leaf nofun) .nil)
    exact closed_of_shows haddress
  have hextended : [addressFields] ++ [personFields] = [addressFields, personFields] := rfl
  rw [← hextended]
  refine tree_alloc (fun k v hget => ?_) (fun k v hget => ?_)
    fun k k' v v' p q r hget hget' hp hq => ?_
  · obtain ⟨-, rfl⟩ | rfl := hfields k v hget
    · exact hclosed
    · exact closed_leaf _ _
  · obtain ⟨-, rfl⟩ | rfl := hfields k v hget
    · exact tree_address
    · exact tree_leaf _ _
  · obtain ⟨rfl, rfl⟩ | rfl := hfields k v hget
    · obtain ⟨rfl, -⟩ | rfl := hfields k' v' hget'
      · rfl
      · exact absurd hq (follow_leaf _ q _)
    · exact absurd hp (follow_leaf _ p _)

/-- The street is masked in the dict that the person's dict holds. -/
theorem nestedDict_lawful_street :
    ∃ self before after, create 2 (.dict 1) [addressFields, personFields] = .ok (self, before) ∧
      setItem 2 self "address.street" (.leaf (.str "***")) before = .ok ((), after) ∧
      Reads 2 self "address.street" after (.leaf (.str "***")) ∧
      follow after ["address", "street"] (.dict self) = some (.leaf (.str "***")) := by
  have hat : At (parts "address.street") person (.str "Main") := getPath_eq_ok.1 rfl
  have hfuel : (parts "address.street").length ≤ 2 := by decide
  obtain ⟨self, before, current, after, hcreate, -, -, hset, hread, -, -, hfollow, -⟩ :=
    nestedDict_lawful shows_person tree_person (by decide) hat hfuel (.leaf (.str "***"))
  exact ⟨self, before, after, hcreate, hset, hread, hfollow⟩

end Example

end EventSourcery.NestedDictHeap
