import EventSourcery.Encryption
import Mathlib.Logic.Function.Basic

/-!
# Keys in memory

`InMemoryKeyStorage`: the storages that `scoped_for_tenant` makes share one dict,
keyed by tenant and subject id. How Python hashes and compares ids is a parameter:
ids that are one key of a dict have the same hash here, and an id that cannot be
hashed raises.
-/
namespace EventSourcery
open Runs

/-- The dict that all tenants' storages share. -/
abbrev KeyTable (κ K : Type) := TenantId × κ → Option K

/-- A change of the keys: `store` of a storage or `shred` of an encryption. -/
inductive KeyCall (K : Type) where
  | store (subjectId : Subject) (key : K)
  | shred (subjectId : Subject)

def KeyCall.subjectId {K : Type} : KeyCall K → Subject
  | store subjectId _ => subjectId
  | shred subjectId => subjectId

namespace InMemoryKeyStorage
section Calls
variable {κ K : Type} (hash : Subject → Except SerdeError κ)

def get (table : KeyTable κ K) (t : TenantId) (subjectId : Subject) :
    Except SerdeError (Option K) :=
  (hash subjectId).map fun id => table (t, id)

/-- The storage of a tenant, as an encryption uses it. -/
def scopedForTenant (table : KeyTable κ K) (t : TenantId) : EncryptionKeyStorageStrategy K :=
  ⟨get hash table t⟩

/-- A tenant's encryption with its keys in the table. -/
def encryption (strategy : EncryptionStrategy K) (table : KeyTable κ K) (t : TenantId) :
    Encryption K := ⟨strategy, scopedForTenant hash table t⟩

variable [DecidableEq κ]

def store (table : KeyTable κ K) (t : TenantId) (subjectId : Subject) (key : K) :
    Except SerdeError Unit × KeyTable κ K :=
  match hash subjectId with
  | .error e => (.error e, table)
  | .ok id => (.ok (), Function.update table (t, id) (some key))

/-- `delete`: popping an id that has no key does nothing. -/
def delete (table : KeyTable κ K) (t : TenantId) (subjectId : Subject) :
    Except SerdeError Unit × KeyTable κ K :=
  match hash subjectId with
  | .error e => (.error e, table)
  | .ok id => (.ok (), Function.update table (t, id) none)

def call (table : KeyTable κ K) (i : TenantId × KeyCall K) :
    Except SerdeError Unit × KeyTable κ K :=
  match i.2 with
  | .store subjectId key => store hash table i.1 subjectId key
  | .shred subjectId => delete hash table i.1 subjectId

end Calls

section Keys
variable {κ K : Type} {hash : Subject → Except SerdeError κ}
  {table : KeyTable κ K} {t u : TenantId} {subjectId : Subject} {id : κ}

theorem get_eq_ok {held : Option K} : get hash table t subjectId = .ok held ↔
    ∃ id, hash subjectId = .ok id ∧ table (t, id) = held := by
  unfold get
  cases hash subjectId <;> simp [Except.map]

variable [DecidableEq κ]

/-- A call changes the keys of one tenant and one subject only. -/
theorem call_of_ne {c : KeyCall K} (h : u = t → hash c.subjectId ≠ .ok id) :
    (call hash table (u, c)).2 (t, id) = table (t, id) := by
  have hother : ∀ id', hash c.subjectId = .ok id' → (t, id) ≠ (u, id') := by
    rintro id' hid hsame
    obtain ⟨rfl, rfl⟩ := Prod.mk.inj hsame
    exact h rfl hid
  cases c with
  | store subjectId key =>
    simp only [call, store]
    cases hid : hash subjectId with
    | error e => rfl
    | ok id' => exact Function.update_of_ne (hother id' hid) _ _
  | shred subjectId =>
    simp only [call, delete]
    cases hid : hash subjectId with
    | error e => rfl
    | ok id' => exact Function.update_of_ne (hother id' hid) _ _

theorem call_store {key : K} (hid : hash subjectId = .ok id) :
    (call hash table (t, .store subjectId key)).2 (t, id) = some key := by
  simp [call, store, hid]

theorem call_shred (hid : hash subjectId = .ok id) :
    (call hash table (t, .shred subjectId)).2 (t, id) = none := by
  simp [call, delete, hid]

/-- A key was there before the calls, or one of them stored it. -/
theorem key_origin {calls : List (TenantId × KeyCall K)} {key : K}
    (h : (run (call hash) table calls).2 (t, id) = some key) :
    table (t, id) = some key ∨
      ∃ other, (t, .store other key) ∈ calls ∧ hash other = .ok id := by
  induction calls generalizing table with
  | nil => exact .inl h
  | cons i calls ih =>
    obtain ⟨u, c⟩ := i
    rcases ih h with hkey | ⟨other, hmem, hother⟩
    · by_cases hsame : u = t ∧ hash c.subjectId = .ok id
      · obtain ⟨rfl, hc⟩ := hsame
        cases c with
        | store other key' =>
          change hash other = .ok id at hc
          rw [call_store hc, Option.some.injEq] at hkey
          exact .inr ⟨other, hkey ▸ List.mem_cons_self, hc⟩
        | shred other =>
          change hash other = .ok id at hc
          rw [call_shred hc] at hkey
          cases hkey
      · rw [call_of_ne fun hu hc => hsame ⟨hu, hc⟩] at hkey
        exact .inl hkey
    · exact .inr ⟨other, List.mem_cons_of_mem _ hmem, hother⟩

/-- After a shredding, a key of the subject was stored later. -/
theorem key_origin_shredded {before after : List (TenantId × KeyCall K)} {key : K}
    (hid : hash subjectId = .ok id)
    (h : (run (call hash) table (before ++ (t, .shred subjectId) :: after)).2 (t, id) = some key) :
    ∃ other, (t, .store other key) ∈ after ∧ hash other = .ok id := by
  rw [run_append, run_cons] at h
  rcases key_origin h with hkey | hstored
  · rw [call_shred hid] at hkey
    cases hkey
  · exact hstored

end Keys

end InMemoryKeyStorage

end EventSourcery
