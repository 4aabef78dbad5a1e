import EventSourcery.DictEntries
import Mathlib.Data.List.Infix

/-!
# Heaps of dictionaries

A dictionary is held by reference, so that all who hold it see what is written to it. Here is what
a path through nested dictionaries leads to, and what a write to one of them changes: nothing but
the paths that go through the written key of that dictionary. In a tree there is only one path to
it.
-/
namespace EventSourcery.DictHeaps
open DictEntries

abbrev Ref := ℕ

/-- What a dictionary has under a key. -/
inductive Slot (L : Type*) where
  | leaf (leaf : L)
  | dict (ref : Ref)
  deriving DecidableEq

/-- What a dictionary holds: each key once. -/
structure Fields (K L : Type*) where
  entries : List (K × Slot L)
  nodup : (entries.map Prod.fst).Nodup

namespace Fields
variable {K L : Type*}

@[ext] theorem ext {fields fields' : Fields K L} (h : fields.entries = fields'.entries) :
    fields = fields' := by
  cases fields
  cases fields'
  cases h
  rfl

def empty : Fields K L := ⟨[], List.nodup_nil⟩

variable [DecidableEq K]

def get (key : K) (fields : Fields K L) : Option (Slot L) := findEntry key fields.entries

def set (key : K) (value : Slot L) (fields : Fields K L) : Fields K L :=
  ⟨putEntry key value fields.entries, nodup_putEntry fields.nodup⟩

@[simp] theorem get_set (key k : K) (value : Slot L) (fields : Fields K L) :
    (fields.set key value).get k = if k = key then some value else fields.get k :=
  findEntry_putEntry key k value fields.entries

theorem get_of_mem {key : K} {value : Slot L} {fields : Fields K L}
    (h : (key, value) ∈ fields.entries) : fields.get key = some value :=
  findEntry_of_mem fields.nodup h

theorem keys_set {key : K} {value v : Slot L} {fields : Fields K L}
    (h : fields.get key = some v) :
    (fields.set key value).entries.map Prod.fst = fields.entries.map Prod.fst := by
  rw [set, keys_putEntry, if_pos (List.mem_map_of_mem (mem_of_findEntry h))]

theorem set_get {key : K} {value : Slot L} {fields : Fields K L}
    (h : fields.get key = some value) : fields.set key value = fields :=
  ext (putEntry_findEntry h)

end Fields

abbrev Heap (K L : Type*) := List (Fields K L)

theorem cell_extend {K L : Type*} {heap : Heap K L} {r : Ref} {fields : Fields K L}
    (h : heap[r]? = some fields) (new : Heap K L) :
    (heap ++ new)[r]? = some fields := by
  rw [List.getElem?_append_left (List.getElem?_eq_some_iff.1 h).1, h]

section Paths
variable {K L : Type*} [DecidableEq K]

/-- What a path leads to from a value. -/
def follow (heap : Heap K L) : List K → Slot L → Option (Slot L)
  | [], v => some v
  | _ :: _, .leaf _ => none
  | key :: path, .dict r =>
      (heap[r]?).bind fun fields => (fields.get key).bind (follow heap path)

/-- Put a value under a key of one of the dictionaries. -/
def write (r : Ref) (key : K) (value : Slot L) (heap : Heap K L) : Heap K L :=
  heap.modify r (Fields.set key value)

/-- No dictionary is reached by two paths. -/
def Tree (heap : Heap K L) (v : Slot L) : Prop :=
  ∀ p q r, follow heap p v = some (.dict r) → follow heap q v = some (.dict r) → p = q

/-- Every dictionary that is reached is in the heap. -/
def Closed (heap : Heap K L) (v : Slot L) : Prop :=
  ∀ p r, follow heap p v = some (.dict r) → r < heap.length

variable {heap : Heap K L} {fields : Fields K L} {key : K} {p q : List K} {r t : Ref}
  {u v x : Slot L}

theorem follow_dict (hcell : heap[r]? = some fields) (key : K) (path : List K) :
    follow heap (key :: path) (.dict r) = (fields.get key).bind (follow heap path) := by
  rw [follow, hcell, Option.bind_some]

theorem follow_cons (hcell : heap[r]? = some fields) (hget : fields.get key = some v)
    (path : List K) : follow heap (key :: path) (.dict r) = follow heap path v := by
  rw [follow_dict hcell, hget, Option.bind_some]

theorem follow_cons_eq_some : follow heap (key :: p) (.dict r) = some x ↔
    ∃ fields v, heap[r]? = some fields ∧ fields.get key = some v ∧ follow heap p v = some x := by
  constructor
  · intro h
    obtain ⟨fields, hcell, h⟩ := Option.bind_eq_some_iff.1 h
    obtain ⟨v, hget, h⟩ := Option.bind_eq_some_iff.1 h
    exact ⟨fields, v, hcell, hget, h⟩
  · rintro ⟨fields, v, hcell, hget, h⟩
    rw [follow_cons hcell hget, h]

/-- A path with a key goes on from a dictionary only. -/
theorem dict_of_follow (hp : p ≠ []) (h : follow heap p v = some x) : ∃ r, v = .dict r := by
  cases v with
  | leaf leaf =>
    cases p with
    | nil => exact absurd rfl hp
    | cons key p => cases h
  | dict r => exact ⟨r, rfl⟩

theorem follow_append (heap : Heap K L) (p q : List K) (v : Slot L) :
    follow heap (p ++ q) v = (follow heap p v).bind (follow heap q) := by
  induction p generalizing v with
  | nil => rfl
  | cons key p ih =>
    cases v with
    | leaf leaf => rfl
    | dict r =>
      cases hcell : heap[r]? with
      | none => simp [follow, hcell]
      | some fields =>
        rw [List.cons_append, follow_dict hcell, follow_dict hcell]
        cases fields.get key with
        | none => rfl
        | some w => exact ih w

theorem follow_trans (hp : follow heap p v = some u) (hq : follow heap q u = some x) :
    follow heap (p ++ q) v = some x := by
  rw [follow_append, hp, Option.bind_some, hq]

theorem follow_leaf (heap : Heap K L) (p : List K) (l : L) :
    follow heap p (.leaf l) ≠ some (.dict r) := by
  cases p <;> exact nofun

/-! ## What a write changes -/

theorem getElem?_write (r t : Ref) (key : K) (x : Slot L) (heap : Heap K L) :
    (write t key x heap)[r]? = if t = r then (heap[r]?).map (Fields.set key x) else heap[r]? := by
  rw [write, List.getElem?_modify]
  split <;> simp

theorem write_get (hcell : heap[t]? = some fields) (hget : fields.get key = some x) :
    write t key x heap = heap := by
  apply List.ext_getElem?
  intro r
  rw [getElem?_write]
  split
  · rename_i hr
    subst hr
    rw [hcell, Option.map_some, Fields.set_get hget]
  · rfl

theorem write_append (hcell : heap[t]? = some fields) (new : Heap K L) :
    write t key x (heap ++ new) = write t key x heap ++ new := by
  have hlt := (List.getElem?_eq_some_iff.1 hcell).1
  have hlength : (write t key x heap).length = heap.length := List.length_modify _ _ _
  apply List.ext_getElem?
  intro r
  rw [getElem?_write]
  rcases Nat.lt_or_ge r heap.length with hr | hr
  · rw [List.getElem?_append_left hr, List.getElem?_append_left (hlength.symm ▸ hr),
      getElem?_write]
  · rw [if_neg (Nat.ne_of_lt (Nat.lt_of_lt_of_le hlt hr)), List.getElem?_append_right hr,
      List.getElem?_append_right (hlength.symm ▸ hr), hlength]

/-- A path that does not go through the written key of the written dictionary leads where it
led. -/
theorem follow_write (h : ∀ q₁ q₂, q = q₁ ++ key :: q₂ → follow heap q₁ v ≠ some (.dict t)) :
    follow (write t key x heap) q v = follow heap q v := by
  induction q generalizing v with
  | nil => rfl
  | cons k q ih =>
    cases v with
    | leaf leaf => rfl
    | dict r =>
      have hrest : ∀ {fields : Fields K L} {w : Slot L}, heap[r]? = some fields →
          fields.get k = some w → follow (write t key x heap) q w = follow heap q w := by
        intro fields w hcell hget
        refine ih fun q₁ q₂ hq hreach => h (k :: q₁) q₂ (by rw [hq, List.cons_append]) ?_
        rw [follow_cons hcell hget, hreach]
      cases hcell : heap[r]? with
      | none => simp [follow, getElem?_write, hcell]
      | some fields =>
        have hcell' : ∃ fields', (write t key x heap)[r]? = some fields' ∧
            fields'.get k = fields.get k := by
          rw [getElem?_write, hcell]
          split
          · rename_i htr
            subst htr
            have hne : k ≠ key := by
              rintro rfl
              exact h [] q rfl rfl
            exact ⟨fields.set key x, rfl, by rw [Fields.get_set, if_neg hne]⟩
          · exact ⟨fields, rfl, rfl⟩
        obtain ⟨fields', hwritten, hget⟩ := hcell'
        rw [follow_dict hwritten, follow_dict hcell, hget]
        cases hfound : fields.get k with
        | none => rfl
        | some w => exact hrest hcell hfound

/-! ## Trees -/

theorem tree_leaf (heap : Heap K L) (l : L) : Tree heap (.leaf l) :=
  fun p _ _ hp => absurd hp (follow_leaf heap p l)

theorem closed_leaf (heap : Heap K L) (l : L) : Closed heap (.leaf l) :=
  fun p _ hp => absurd hp (follow_leaf heap p l)

theorem Tree.get (h : Tree heap (.dict r)) (hcell : heap[r]? = some fields)
    (hget : fields.get key = some v) : Tree heap v := by
  intro p q t hp hq
  rw [← follow_cons hcell hget] at hp hq
  exact (List.cons.inj (h _ _ t hp hq)).2

theorem Closed.get (h : Closed heap (.dict r)) (hcell : heap[r]? = some fields)
    (hget : fields.get key = some v) : Closed heap v := by
  intro p t hp
  rw [← follow_cons hcell hget] at hp
  exact h _ t hp

/-- New dictionaries do not show. -/
theorem follow_extend (h : Closed heap v) (new : Heap K L) (p : List K) :
    follow (heap ++ new) p v = follow heap p v := by
  induction p generalizing v with
  | nil => rfl
  | cons key p ih =>
    cases v with
    | leaf leaf => rfl
    | dict r =>
      obtain ⟨fields, hcell⟩ : ∃ fields, heap[r]? = some fields :=
        ⟨_, List.getElem?_eq_getElem (h [] r rfl)⟩
      rw [follow_dict (cell_extend hcell new), follow_dict hcell]
      cases hget : fields.get key with
      | none => rfl
      | some w => exact ih (h.get hcell hget)

theorem Tree.extend (h : Tree heap v) (hclosed : Closed heap v) (new : Heap K L) :
    Tree (heap ++ new) v := by
  intro p q t hp hq
  rw [follow_extend hclosed] at hp hq
  exact h p q t hp hq

/-- What a path leads to from a new dictionary. -/
theorem follow_alloc (hclosed : ∀ k v, fields.get k = some v → Closed heap v) (key : K)
    (path : List K) : follow (heap ++ [fields]) (key :: path) (.dict heap.length) =
      (fields.get key).bind (follow heap path) := by
  have hcell : (heap ++ [fields])[heap.length]? = some fields := List.getElem?_concat_length
  rw [follow_dict hcell]
  cases hget : fields.get key with
  | none => rfl
  | some v => exact follow_extend (hclosed key v hget) [fields] path

/-- A new dictionary of trees apart from each other is a tree. -/
theorem tree_alloc (hclosed : ∀ k v, fields.get k = some v → Closed heap v)
    (htrees : ∀ k v, fields.get k = some v → Tree heap v)
    (hapart : ∀ k k' v v' p q r, fields.get k = some v → fields.get k' = some v' →
      follow heap p v = some (.dict r) → follow heap q v' = some (.dict r) → k = k') :
    Tree (heap ++ [fields]) (.dict heap.length) := by
  have hstep : ∀ key p t, follow (heap ++ [fields]) (key :: p) (.dict heap.length) =
      some (.dict t) → ∃ v, fields.get key = some v ∧ follow heap p v = some (.dict t) := by
    intro key p t hp
    rw [follow_alloc hclosed] at hp
    exact Option.bind_eq_some_iff.1 hp
  have hfresh : ∀ key p, follow (heap ++ [fields]) (key :: p) (.dict heap.length) ≠
      some (.dict heap.length) := by
    intro key p hp
    obtain ⟨v, hget, hfollow⟩ := hstep key p _ hp
    exact Nat.lt_irrefl _ (hclosed key v hget p _ hfollow)
  intro p q t hp hq
  cases p with
  | nil =>
    cases hp
    cases q with
    | nil => rfl
    | cons key q => exact absurd hq (hfresh key q)
  | cons key p =>
    cases q with
    | nil =>
      cases hq
      exact absurd hp (hfresh key p)
    | cons key' q =>
      obtain ⟨v, hget, hp⟩ := hstep key p t hp
      obtain ⟨v', hget', hq⟩ := hstep key' q t hq
      obtain rfl := hapart key key' v v' p q t hget hget' hp hq
      cases hget.symm.trans hget'
      rw [htrees key v hget p q t hp hq]

/-- A copy of a tree is one. -/
theorem Tree.copy (h : Tree heap (.dict r)) (hclosed : Closed heap (.dict r))
    (hcell : heap[r]? = some fields) : Tree (heap ++ [fields]) (.dict heap.length) := by
  refine tree_alloc (fun _ _ hget => hclosed.get hcell hget) (fun _ _ hget => h.get hcell hget) ?_
  intro k k' v v' p q t hget hget' hp hq
  rw [← follow_cons hcell hget] at hp
  rw [← follow_cons hcell hget'] at hq
  exact (List.cons.inj (h _ _ t hp hq)).1

/-- The written dictionary is still where it was. -/
theorem Tree.follow_write_self (h : Tree heap v) (hp : follow heap p v = some (.dict t)) :
    follow (write t key x heap) p v = some (.dict t) := by
  rw [follow_write fun q₁ q₂ hq hreach => ?_, hp]
  rw [h _ _ t hreach hp] at hq
  simpa using congrArg List.length hq

/-- What is written is where it was put. -/
theorem Tree.follow_written (h : Tree heap v) (hp : follow heap p v = some (.dict t))
    (hcell : heap[t]? = some fields) :
    follow (write t key x heap) (p ++ [key]) v = some x := by
  have hwritten : (write t key x heap)[t]? = some (fields.set key x) := by
    rw [getElem?_write, if_pos rfl, hcell, Option.map_some]
  refine follow_trans (h.follow_write_self hp) ?_
  rw [follow_dict hwritten, Fields.get_set, if_pos rfl, Option.bind_some, follow]

/-- What is not inside of what is written is where it was. -/
theorem Tree.follow_write_apart (h : Tree heap v) (hp : follow heap p v = some (.dict t))
    (hapart : ¬ p ++ [key] <+: q) :
    follow (write t key x heap) q v = follow heap q v := by
  refine follow_write fun q₁ q₂ hq hreach => hapart ⟨q₂, ?_⟩
  rw [← h _ _ t hreach hp, List.append_assoc, List.singleton_append, hq]

/-- What the written dictionary is not inside of does not reach it. -/
theorem Tree.unreached (h : Tree heap v) (hp : follow heap p v = some (.dict t))
    (hq : follow heap q v = some u) (hapart : ¬ q <+: p) (s : List K) :
    follow heap s u ≠ some (.dict t) :=
  fun hs => hapart ⟨s, h _ _ t (follow_trans hq hs) hp⟩

end Paths

end EventSourcery.DictHeaps
