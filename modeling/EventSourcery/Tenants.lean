import EventSourcery.EventStore

/-!
# Many tenants on one backend

Each tenant calls an event store of its own, made by `in_tenant_mode`: the
strategy is scoped for the tenant, and so is the key storage under its
serialization. The stores share the state of the backend. What is shown of the
requests of all tenants carries over to their calls (`unwinding_calls`).
-/
namespace EventSourcery.Tenants
open EventStore Runs

variable {E σ ν γ : Type}

/-- A call of one of the tenants. -/
def callStep (stores : TenantId → EventStore E σ) (s : σ) (i : TenantId × Call E) :
    Answer E × σ := (stores i.1).call s i.2

def requestStep (strategies : TenantId → StorageStrategy σ) (s : σ) (i : TenantId × Request) :
    Except Error (List RawEvent) × σ := (strategies i.1).handle s i.2

/-- A condition on requests, asked of the request that a call makes. A call
that raises before it makes one meets it. -/
def Requesting (serdes : TenantId → Serde E) (ok : σ → TenantId × Request → Prop) (s : σ)
    (i : TenantId × Call E) : Prop :=
  match request (serdes i.1) i.2 with
  | .error _ => True
  | .ok r => ok s (i.1, r)

instance (serdes : TenantId → Serde E) (ok : σ → TenantId × Request → Prop)
    [∀ s i, Decidable (ok s i)] (s : σ) (i : TenantId × Call E) :
    Decidable (Requesting serdes ok s i) := by
  unfold Requesting
  cases request (serdes i.1) i.2 with
  | error e => exact isTrue trivial
  | ok r => exact inferInstanceAs (Decidable (ok s (i.1, r)))

theorem Requesting.ok {serdes : TenantId → Serde E} {ok : σ → TenantId × Request → Prop} {s : σ}
    {u : TenantId} {c : Call E} {r : Request} (h : Requesting serdes ok s (u, c))
    (hr : request (serdes u) c = .ok r) : ok s (u, r) := by
  simpa [Requesting, hr] using h

/-- The uuids of all events and snapshots of the run are different. -/
def DistinctUuids (is : List (TenantId × Call E)) : Prop := (is.flatMap fun i => i.2.uuids).Nodup

instance (is : List (TenantId × Call E)) : Decidable (DistinctUuids is) := by
  unfold DistinctUuids
  infer_instance

theorem callStep_of_error {strategies : TenantId → StorageStrategy σ}
    {serdes : TenantId → Serde E} {s : σ} {u : TenantId} {c : Call E} {e : SerdeError}
    (h : request (serdes u) c = .error e) :
    callStep (fun u => ⟨strategies u, serdes u⟩) s (u, c) = (.error (.serde e), s) := by
  simp [callStep, call_eq, h]

theorem callStep_of_ok {strategies : TenantId → StorageStrategy σ}
    {serdes : TenantId → Serde E} {s : σ} {u : TenantId} {c : Call E} {r : Request}
    (h : request (serdes u) c = .ok r) :
    callStep (fun u => ⟨strategies u, serdes u⟩) s (u, c) =
      (finish (serdes u) (requestStep strategies s (u, r)).1,
        (requestStep strategies s (u, r)).2) := by
  simp [callStep, call_eq, h, requestStep]

/-- If a tenant's requests act on its view as the strategy `own` does, and the
other tenants' requests leave the view alone, then the same holds of calls. -/
theorem unwinding_calls {strategies : TenantId → StorageStrategy σ} {serdes : TenantId → Serde E}
    {ok : σ → TenantId × Request → Prop} {Inv : σ → Prop} {t : TenantId} {view : σ → ν}
    {own : StorageStrategy ν}
    (h : Unwinding (requestStep strategies)
      (fun s i => i.2.Proper ∧ ok s i) Inv t view own.handle) :
    Unwinding (callStep fun u => ⟨strategies u, serdes u⟩) (Requesting serdes ok) Inv t view
      (EventStore.call ⟨own, serdes t⟩) where
  keep s i hs hi := by
    obtain ⟨u, c⟩ := i
    cases hr : request (serdes u) c with
    | error e => rwa [callStep_of_error hr]
    | ok r => rw [callStep_of_ok hr]; exact h.keep s _ hs ⟨request_proper hr, hi.ok hr⟩
  answer s c hs hi := by
    rw [call_eq]
    cases hr : request (serdes t) c with
    | error e => rw [callStep_of_error hr]
    | ok r => rw [callStep_of_ok hr]; simp [h.answer s r hs ⟨request_proper hr, hi.ok hr⟩]
  own s c hs hi := by
    rw [call_eq]
    cases hr : request (serdes t) c with
    | error e => rw [callStep_of_error hr]
    | ok r => rw [callStep_of_ok hr]; simp [h.own s r hs ⟨request_proper hr, hi.ok hr⟩]
  other s u c hu hs hi := by
    cases hr : request (serdes u) c with
    | error e => rw [callStep_of_error hr]
    | ok r => rw [callStep_of_ok hr]; exact h.other s u r hu hs ⟨request_proper hr, hi.ok hr⟩

/-- A strategy run beside a record of what it did: nothing in the strategy reads
the record. `track` makes the new record from the states before and after. -/
def tracked (track : TenantId → σ → σ → γ → γ) (strategy : StorageStrategy σ) (u : TenantId) :
    StorageStrategy (σ × γ) where
  fetchEvents streamId start stop s := strategy.fetchEvents streamId start stop s.1
  insertEvents streamId versioning events s :=
    let r := strategy.insertEvents streamId versioning events s.1
    (r.1, r.2, track u s.1 r.2 s.2)
  saveSnapshot raw s :=
    let r := strategy.saveSnapshot raw s.1
    (r.1, r.2, track u s.1 r.2 s.2)
  deleteStream streamId s :=
    let r := strategy.deleteStream streamId s.1
    (r.1, r.2, track u s.1 r.2 s.2)

theorem callStep_tracked (track : TenantId → σ → σ → γ → γ)
    (strategies : TenantId → StorageStrategy σ) (serdes : TenantId → Serde E) (s : σ × γ)
    (i : TenantId × Call E) :
    callStep (fun u => ⟨strategies u, serdes u⟩) s.1 i =
      ((callStep (fun u => ⟨tracked track (strategies u) u, serdes u⟩) s i).1,
        (callStep (fun u => ⟨tracked track (strategies u) u, serdes u⟩) s i).2.1) := by
  obtain ⟨u, c⟩ := i
  cases hr : request (serdes u) c with
  | error e => rw [callStep_of_error hr, callStep_of_error hr]
  | ok r =>
    rw [callStep_of_ok hr, callStep_of_ok hr]
    cases r <;> rfl

section Example

/-- A serialization of events without content. -/
def plainSerde : Serde Unit where
  nameForType _ := .ok "Event"
  encrypt _ _ := .ok []
  construct _ _ _ := .ok ()

def plainDispatcher : Dispatcher Unit := ⟨plainSerde, fun _ => []⟩

theorem plainDispatcher_quiet : plainDispatcher.Quiet := fun _ _ h => by cases h

def order : StreamId := { uuid := 1 }

def invoice : StreamId := { uuid := 2 }

end Example

end EventSourcery.Tenants
