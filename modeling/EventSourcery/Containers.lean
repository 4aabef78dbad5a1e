import Mathlib.Data.Set.Insert
import Mathlib.Logic.Function.Basic

/-!
# Containers of providers

A container makes what it is asked for with the provider of the key, which may ask the container
for other keys. A singleton keeps what its provider has made in a cell, for all containers that
hold it.

A cell is filled when it is first needed, and stays as it is. So what a computation gives is known
from the cells as they are at any later time. `Yields` says so, with a rule for each way to make a
computation. Asking ends where every provider asks for keys of lower rank only.
-/
namespace EventSourcery.Containers

/-- The cells of singletons, and the number of the next new object. -/
structure Store (C O : Type) where
  cells : C → Option O := fun _ => none
  next : ℕ := 0

namespace Store
variable {C O : Type} {s s' s'' : Store C O}

def fill [DecidableEq C] (cell : C) (object : O) (s : Store C O) : Store C O :=
  { s with cells := Function.update s.cells cell (some object) }

/-- What was there is still there. -/
structure Grows (s s' : Store C O) : Prop where
  cells : ∀ cell o, s.cells cell = some o → s'.cells cell = some o
  next : s.next ≤ s'.next

theorem Grows.refl (s : Store C O) : s.Grows s := ⟨fun _ _ h => h, le_rfl⟩

theorem Grows.trans (h : s.Grows s') (h' : s'.Grows s'') : s.Grows s'' :=
  ⟨fun cell o hcell => h'.cells cell o (h.cells cell o hcell), h.next.trans h'.next⟩

theorem grows_fill [DecidableEq C] {cell : C} (h : s.cells cell = none) (object : O) :
    s.Grows (s.fill cell object) where
  cells other o hother := by
    have hne : other ≠ cell := by
      rintro rfl
      rw [h] at hother
      cases hother
    exact (Function.update_of_ne hne _ _).trans hother
  next := le_rfl

end Store

/-- A computation that may raise. What it has done to the store stays. -/
def Make (C O E A : Type) := Store C O → Except E A × Store C O

namespace Make
variable {C O E A B : Type}

def bind (m : Make C O E A) (k : A → Make C O E B) : Make C O E B := fun s =>
  match m s with
  | (.ok a, s') => k a s'
  | (.error e, s') => (.error e, s')

instance : Monad (Make C O E) where
  pure a := fun s => (.ok a, s)
  bind := bind

def raise (e : E) : Make C O E A := fun s => (.error e, s)

/-- The number of a new object. -/
def new : Make C O E ℕ := fun s => (.ok s.next, { s with next := s.next + 1 })

end Make

inductive Failure (K E : Type) where
  | keyError (key : K)
  | recursionError
  | raised (e : E)
  deriving DecidableEq

/-- What a provider can ask of its container. -/
structure Access (K C O E : Type) where
  getItem : K → Make C O (Failure K E) O
  has : K → Bool

/-- `get`, with the default `None` -/
def Access.get {K C O E : Type} (c : Access K C O E) (key : K) :
    Make C O (Failure K E) (Option O) :=
  if c.has key then do return some (← c.getItem key) else return none

abbrev Provider (K C O E : Type) := Access K C O E → Make C O (Failure K E) O

abbrev Container (K C O E : Type) := K → Option (Provider K C O E)

section Code
variable {K C O E : Type}

/-- A provider that gives a value. -/
def value (object : O) : Provider K C O E := fun _ => return object

def notConfigured (error : E) : Provider K C O E := fun _ => .raise (.raised error)

def singleton [DecidableEq C] (cell : C) (provider : Provider K C O E) : Provider K C O E :=
  fun c s =>
    match s.cells cell with
    | some result => (.ok result, s)
    | none =>
        match provider c s with
        | (.ok result, s') => (.ok result, s'.fill cell result)
        | (.error e, s') => (.error e, s')

namespace Container

def empty : Container K C O E := fun _ => none

/-- `__setitem__` -/
def set [DecidableEq K] (key : K) (provider : Provider K C O E) (c : Container K C O E) :
    Container K C O E := Function.update c key (some provider)

def call (c : Container K C O E) (a : Access K C O E) (key : K) : Make C O (Failure K E) O :=
  match c key with
  | none => .raise (.keyError key)
  | some provider => provider a

/-- The container, as its providers can ask it when calls may be nested no deeper than the fuel. -/
def access (c : Container K C O E) : ℕ → Access K C O E
  | 0 => ⟨fun _ => .raise .recursionError, fun key => (c key).isSome⟩
  | fuel + 1 => ⟨c.call (c.access fuel), fun key => (c key).isSome⟩

end Container

end Code

/-! ## What a computation yields -/

namespace Make
variable {C O E A B : Type} {m : Make C O E A} {k : A → Make C O E B} {s s' : Store C O} {b : B}

theorem bind_eq_ok (h : (m >>= k) s = (.ok b, s')) :
    ∃ a s₁, m s = (.ok a, s₁) ∧ k a s₁ = (.ok b, s') := by
  change m.bind k s = _ at h
  unfold bind at h
  split at h
  · rename_i a s₁ hm
    exact ⟨a, s₁, hm, h⟩
  · cases h

end Make

section Rules
variable {C O E A B : Type} {Inv : Store C O → Prop} {Bad Bad' : E → Prop}
  {touched touched' : Set C} {m : Make C O E A}

/-- A computation keeps the store in order, and raises what may be raised. -/
structure Ran (Inv : Store C O → Prop) (Bad : E → Prop) (touched : Set C) (s : Store C O)
    (r : Except E A × Store C O) : Prop where
  inv : Inv r.2
  grows : s.Grows r.2
  untouched : ∀ cell ∉ touched, r.2.cells cell = s.cells cell
  error : ∀ e, r.1 = .error e → Bad e

def Safe (Inv : Store C O → Prop) (Bad : E → Prop) (touched : Set C) (m : Make C O E A) : Prop :=
  ∀ s, Inv s → Ran Inv Bad touched s (m s)

namespace Safe

theorem pure (a : A) : Safe Inv Bad touched (Pure.pure a : Make C O E A) :=
  fun s hs => ⟨hs, .refl s, fun _ _ => rfl, fun _ h => (by cases h)⟩

theorem raise {e : E} (h : Bad e) : Safe Inv Bad touched (.raise e : Make C O E A) :=
  fun s hs => ⟨hs, .refl s, fun _ _ => rfl, fun _ he => (by cases he; exact h)⟩

theorem new (hnext : ∀ s, Inv s → Inv { s with next := s.next + 1 }) :
    Safe Inv Bad touched (.new : Make C O E ℕ) :=
  fun s hs => ⟨hnext s hs, ⟨fun _ _ h => h, Nat.le_succ _⟩, fun _ _ => rfl, fun _ h => (by cases h)⟩

theorem weaken (h : Safe Inv Bad touched m) (hsub : touched ⊆ touched')
    (hbad : ∀ e, Bad e → Bad' e) : Safe Inv Bad' touched' m := fun s hs =>
  { h s hs with
    untouched := fun cell hcell => (h s hs).untouched cell (mt (@hsub cell) hcell)
    error := fun e he => hbad e ((h s hs).error e he) }

theorem bind {k : A → Make C O E B} (h : Safe Inv Bad touched m)
    (hk : ∀ s a, Inv s → (m s).1 = .ok a → Safe Inv Bad touched (k a)) :
    Safe Inv Bad touched (m >>= k) := by
  intro s hs
  have hm := h s hs
  have hnext := hk s
  change Ran Inv Bad touched s (m.bind k s)
  unfold Make.bind
  cases hr : m s with
  | mk answer s' =>
    rw [hr] at hm hnext
    cases answer with
    | error e =>
      exact ⟨hm.inv, hm.grows, hm.untouched, fun _ he => (by cases he; exact hm.error e rfl)⟩
    | ok a =>
      have hka := hnext a hs rfl s' hm.inv
      exact ⟨hka.inv, hm.grows.trans hka.grows,
        fun cell hcell => (hka.untouched cell hcell).trans (hm.untouched cell hcell), hka.error⟩

end Safe

/-- What a computation gives is known from the cells as they are at any later time. -/
structure Yields (Inv : Store C O → Prop) (Bad : E → Prop) (touched : Set C) (m : Make C O E A)
    (f : (C → Option O) → Option A) : Prop where
  safe : Safe Inv Bad touched m
  ok : ∀ s, Inv s → ∀ a, (m s).1 = .ok a → f (m s).2.cells = some a
  stable : ∀ cells cells' : C → Option O, (∀ cell o, cells cell = some o → cells' cell = some o) →
    ∀ a, f cells = some a → f cells' = some a

namespace Yields
variable {f g : (C → Option O) → Option A}

theorem pure (a : A) : Yields Inv Bad touched (Pure.pure a : Make C O E A) fun _ => some a where
  safe := Safe.pure a
  ok _ _ _ h := by
    cases h
    rfl
  stable _ _ _ _ h := h

theorem raise {e : E} (h : Bad e) :
    Yields Inv Bad touched (.raise e : Make C O E A) fun _ => none where
  safe := Safe.raise h
  ok _ _ _ h := by cases h
  stable _ _ _ _ h := h

theorem weaken (h : Yields Inv Bad touched m f) (hsub : touched ⊆ touched')
    (hbad : ∀ e, Bad e → Bad' e) : Yields Inv Bad' touched' m f :=
  { h with safe := h.safe.weaken hsub hbad }

theorem congr (h : Yields Inv Bad touched m f) (heq : ∀ cells, f cells = g cells) :
    Yields Inv Bad touched m g := (funext heq : f = g) ▸ h

theorem bind {k : A → Make C O E B} {l : A → (C → Option O) → Option B}
    (h : Yields Inv Bad touched m f) (hk : ∀ a, Yields Inv Bad touched (k a) (l a)) :
    Yields Inv Bad touched (m >>= k) fun cells => (f cells).bind fun a => l a cells where
  safe := h.safe.bind fun _ a _ _ => (hk a).safe
  ok s hs b hb := by
    obtain ⟨a, s₁, hm, hka⟩ := Make.bind_eq_ok (Prod.ext hb rfl)
    have hran := h.safe s hs
    have ha := h.ok s hs a (congrArg Prod.fst hm)
    rw [hm] at hran ha
    have hgrows := ((hk a).safe s₁ hran.inv).grows
    have hb := (hk a).ok s₁ hran.inv b (congrArg Prod.fst hka)
    rw [hka] at hgrows hb
    -- what the first part has given is still what the cells say
    exact Option.bind_eq_some_iff.2 ⟨a, h.stable _ _ hgrows.cells a ha, hb⟩
  stable cells cells' hmore b hb := by
    obtain ⟨a, ha, hb⟩ := Option.bind_eq_some_iff.1 hb
    exact Option.bind_eq_some_iff.2
      ⟨a, h.stable cells cells' hmore a ha, (hk a).stable cells cells' hmore b hb⟩

/-- A computation and then a function of what it gives. -/
theorem map (h : Yields Inv Bad touched m f) (l : A → B) :
    Yields Inv Bad touched (m >>= fun a => Pure.pure (l a)) fun cells => (f cells).map l :=
  (h.bind fun a => Yields.pure (l a)).congr fun cells => (by cases f cells <;> rfl)

end Yields

end Rules

section Providers
variable {K C O E : Type} {Inv : Store C O → Prop} {Bad : Failure K E → Prop} {touched : Set C}
  {c : Container K C O E} {a : Access K C O E} {key : K} {f : (C → Option O) → Option O}

/-- A singleton is what its cell holds. -/
theorem Yields.singleton [DecidableEq C] {cell : C} {provider : Provider K C O E}
    (h : Safe Inv Bad touched (provider a)) (hcell : cell ∉ touched)
    (hfill : ∀ s s' object, Inv s → s.cells cell = none → provider a s = (.ok object, s') →
      Inv (s'.fill cell object)) :
    Yields Inv Bad (insert cell touched) (Containers.singleton cell provider a)
      fun cells => cells cell where
  safe s hs := by
    unfold Containers.singleton
    cases hheld : s.cells cell with
    | some result => exact ⟨hs, .refl s, fun _ _ => rfl, fun _ h => (by cases h)⟩
    | none =>
      have hran := h s hs
      cases hr : provider a s with
      | mk answer s' =>
        rw [hr] at hran
        have huntouched : ∀ other ∉ insert cell touched, s'.cells other = s.cells other :=
          fun other hother => hran.untouched other fun htouched => hother (.inr htouched)
        cases answer with
        | error e =>
          exact ⟨hran.inv, hran.grows, huntouched,
            fun _ he => (by cases he; exact hran.error e rfl)⟩
        | ok object =>
          have hempty : s'.cells cell = none := (hran.untouched cell hcell).trans hheld
          refine ⟨hfill s s' object hs hheld hr, hran.grows.trans (Store.grows_fill hempty object),
            fun other hother => ?_, fun _ h => (by cases h)⟩
          exact (Function.update_of_ne (fun heq => hother (.inl heq)) _ _).trans
            (huntouched other hother)
  ok s hs o ho := by
    unfold Containers.singleton at ho ⊢
    cases hheld : s.cells cell with
    | some result =>
      rw [hheld] at ho
      cases ho
      exact hheld
    | none =>
      rw [hheld] at ho
      cases hr : provider a s with
      | mk answer s' =>
        rw [hr] at ho
        cases answer with
        | error e => cases ho
        | ok object =>
          cases ho
          exact Function.update_self ..
  stable _ _ hmore o h := hmore cell o h

theorem Yields.get (h : a.has key = true → Yields Inv Bad touched (a.getItem key) f) :
    Yields Inv Bad touched (a.get key) fun cells =>
      if a.has key then (f cells).map some else some none := by
  unfold Access.get
  cases hhas : a.has key with
  | true => exact (h hhas).map some
  | false => exact .pure none

/-- What the provider of each key yields, given what the keys of lower rank do, the container
yields with fuel for the rank. -/
theorem Container.access_yields (rank : K → ℕ) {bad : K → Failure K E → Prop}
    {touches : K → Set C} {given : K → (C → Option O) → Option O}
    (h : ∀ key a, (∀ k, a.has k = (c k).isSome) →
      (∀ k, rank k < rank key → Yields Inv (bad k) (touches k) (a.getItem k) (given k)) →
      Yields Inv (bad key) (touches key) (c.call a key) (given key)) (fuel : ℕ) :
    ∀ key, rank key < fuel →
      Yields Inv (bad key) (touches key) ((c.access fuel).getItem key) (given key) := by
  induction fuel with
  | zero => intro key hkey; omega
  | succ fuel ih =>
    intro key hkey
    refine h key (c.access fuel) (fun k => ?_) fun k hk => ih k (by omega)
    cases fuel <;> rfl

end Providers

end EventSourcery.Containers
