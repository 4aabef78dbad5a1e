import EventSourcery.InMemory
import EventSourcery.Tenants

/-!
# Tenants of the in-memory backend

The dictionaries of the storage are keyed by stream alone, so a tenant that
writes to a stream another tenant created writes to that tenant's stream. Beside
the storage runs a record of who created each held stream. As long as nobody
writes to a stream of somebody else, the streams a tenant created are its ledger,
and its calls do what they would do on the ledger.
-/
namespace EventSourcery.InMemoryTenants
open EventStore Runs Tenants InMemoryStorageStrategy

variable {E : Type}

abbrev Owners := StreamKey → Option TenantId

/-- Who created each held stream, after a request of the tenant `u`. -/
def track (u : TenantId) (before after : InMemory) (owners : Owners) : Owners := fun key =>
  match before.storage.data key, after.storage.data key with
  | none, some _ => some u
  | some _, none => none
  | _, _ => owners key

abbrev Owned := InMemory × Owners

structure Inv (s : Owned) : Prop where
  sound : s.1.storage.Sound
  owned : ∀ key, (s.2 key).isSome = (s.1.storage.data key).isSome
  tagged : ∀ key, ∀ u ∈ s.2 key, ∀ held ∈ s.1.storage.data key, ∀ record ∈ held,
    record.tenantId = u

/-- The streams that a tenant created, as its ledger. -/
def view (t : TenantId) (s : Owned) : Ledger := fun key =>
  if s.2 key = some t then s.1.storage.page key else none

/-- A write goes to a stream that is not held, or that the tenant created. -/
def OwnStream (s : Owned) (i : TenantId × Request) : Prop :=
  ∀ streamId ∈ i.2.writes, s.2 streamId.key = none ∨ s.2 streamId.key = some i.1

instance (s : Owned) (i : TenantId × Request) : Decidable (OwnStream s i) := by
  unfold OwnStream
  infer_instance

theorem inv_empty : Inv ({}, fun _ => none) where
  sound _ h := by cases h
  owned _ := rfl
  tagged _ _ h := by cases h

section Steps
variable {s : Owned} {u t : TenantId} {key : StreamKey} {after : InMemory}

/-- After a write of the tenant to a stream of its own or of nobody, it owns the
stream, if it is held at all. -/
theorem track_self (h : Inv s) (hown : s.2 key = none ∨ s.2 key = some u) :
    track u s.1 after s.2 key = if (after.storage.data key).isSome then some u else none := by
  have hsame := h.owned key
  rcases hown with hown | hown
  · have hbefore : s.1.storage.data key = none := by simpa [hown] using hsame.symm
    cases hafter : after.storage.data key <;> simp [track, hbefore, hafter, hown]
  · obtain ⟨held, hbefore⟩ := Option.isSome_iff_exists.1 (by simpa [hown] using hsame.symm)
    cases hafter : after.storage.data key <;> simp [track, hbefore, hafter, hown]

theorem track_other {k : StreamKey} (h : after.storage.data k = s.1.storage.data k) :
    track u s.1 after s.2 k = s.2 k := by
  unfold track
  split <;> simp_all

theorem inv_write (h : Inv s) (hown : s.2 key = none ∨ s.2 key = some u)
    (hw : Writes u key s.1.storage after.storage) : Inv (after, track u s.1 after s.2) where
  sound := hw.sound
  owned k := by
    dsimp only
    by_cases hk : k = key
    · subst hk
      rw [track_self h hown]
      split <;> simp_all
    · rw [track_other (hw.data k hk), hw.data k hk]
      exact h.owned k
  tagged k v hv held hheld record hrecord := by
    dsimp only at hv hheld
    by_cases hk : k = key
    · subst hk
      rw [track_self h hown] at hv
      have huv : u = v := by
        split at hv
        · simpa using hv
        · cases hv
      subst huv
      rcases hw.tagged held hheld record hrecord with htag | ⟨held', hheld', hmem⟩
      · exact htag
      · rcases hown with hnone | hsome
        · have := h.owned k
          simp_all
        · exact h.tagged k u hsome held' hheld' record hmem
    · rw [track_other (hw.data k hk)] at hv
      rw [hw.data k hk] at hheld
      exact h.tagged k v hv held hheld record hrecord

/-- A tenant's write changes one page of its own view. -/
theorem view_write (h : Inv s) (hown : s.2 key = none ∨ s.2 key = some t)
    (hw : Writes t key s.1.storage after.storage) :
    view t (after, track t s.1 after s.2) =
      Function.update (view t s) key (after.storage.page key) := by
  funext k
  by_cases hk : k = key
  · subst hk
    simp only [view, track_self h hown, Function.update_self]
    cases hd : after.storage.data k <;> simp [Storage.page, hd]
  · simp only [view, track_other (hw.data k hk), hw.page k hk, Function.update_of_ne hk]

/-- A tenant's write leaves the views of the others. -/
theorem view_write_other (h : Inv s) (hown : s.2 key = none ∨ s.2 key = some u) (hu : u ≠ t)
    (hw : Writes u key s.1.storage after.storage) :
    view t (after, track u s.1 after s.2) = view t s := by
  funext k
  by_cases hk : k = key
  · subst hk
    have hne : s.2 k ≠ some t := by
      rcases hown with hown | hown <;> simp [hown, hu]
    have hne' : track u s.1 after s.2 k ≠ some t := by
      rw [track_self h hown]
      split <;> simp [hu]
    simp [view, hne, hne']
  · simp only [view, track_other (hw.data k hk), hw.page k hk]

/-- The page that a tenant's own write finds is the one in its view. -/
theorem view_of_own (h : Inv s) (hown : s.2 key = none ∨ s.2 key = some t) :
    view t s key = s.1.storage.page key := by
  rcases hown with hown | hown
  · have : s.1.storage.data key = none := by
      have := h.owned key
      simp_all
    simp [view, Storage.page, this]
  · simp [view, hown]

end Steps

/-- What a tenant reads is what its view holds. -/
theorem fetchEvents_view {strategy : InMemoryStorageStrategy E} {s : Owned} (h : Inv s)
    (streamId : StreamId) (start stop : Option ℤ) :
    strategy.fetchEvents streamId start stop s.1 =
      .ok ((view strategy.tenantId s).fetch streamId start stop) := by
  have howned := h.owned streamId.key
  cases hdata : s.1.storage.data streamId.key with
  | none =>
    have : view strategy.tenantId s streamId.key = none := by
      simp [view, Storage.page_of_none hdata]
    simp [fetchEvents, Storage.contains, hdata, Ledger.fetch, this]
  | some held =>
    obtain ⟨u, hu⟩ := Option.isSome_iff_exists.1 (howned.trans (by simp [hdata]))
    have htagged := h.tagged streamId.key u hu held hdata
    by_cases hown : u = strategy.tenantId
    · subst hown
      have hmine : ∀ held' ∈ s.1.storage.data streamId.key, ∀ record ∈ held',
          record.tenantId = strategy.tenantId := fun held' hheld' record hrecord =>
        h.tagged streamId.key _ hu held' hheld' record hrecord
      rw [strategy.fetchEvents_of_tagged h.sound hmine, Ledger.fetch,
        view_of_own h (.inr hu)]
    · have hfilter : (slice (offset start) (offset stop) held).filter
          (fun r => r.tenantId = strategy.tenantId) = [] :=
        List.filter_eq_nil_iff.2 fun r hr => by simpa [htagged r (mem_of_mem_slice hr)] using hown
      have : view strategy.tenantId s streamId.key = none := by simp [view, hu, hown]
      simp [fetchEvents, Storage.contains, Storage.read, hdata, Ledger.fetch, this, hfilter,
        Except.map]

section Backend
variable (dispatchers : TenantId → Dispatcher E) (filterer : Option (RawEvent → Bool))

/-- The strategy of each tenant on one backend. -/
def strategies (u : TenantId) : StorageStrategy InMemory :=
  (InMemoryStorageStrategy.mk (dispatchers u) filterer u).storageStrategy

def trackedStrategies (u : TenantId) : StorageStrategy Owned :=
  tracked track (strategies dispatchers filterer u) u

theorem unwinding (blind : ∀ u, (dispatchers u).PositionBlind) (t : TenantId) :
    Unwinding (requestStep (trackedStrategies dispatchers filterer))
      (fun s i => i.2.Proper ∧ OwnStream s i) Inv t (view t)
      (Ledger.strategy ((dispatchers t).accept t)).handle where
  keep s i hs hi := by
    obtain ⟨u, r⟩ := i
    cases r with
    | fetch streamId start stop => exact hs
    | insert streamId versioning events =>
      exact inv_write hs (hi.2 streamId rfl)
        ((InMemoryStorageStrategy.mk (dispatchers u) filterer u).insertEvents_page (blind u)
          hs.sound versioning hi.1.2).1
    | snapshot raw =>
      exact inv_write hs (hi.2 raw.streamId rfl)
        ((InMemoryStorageStrategy.mk (dispatchers u) filterer u).saveSnapshot_page hs.sound raw).1
    | delete streamId =>
      exact inv_write hs (hi.2 streamId rfl) (deleteStream_page hs.sound streamId u).1
  answer s r hs hi := by
    cases r with
    | fetch streamId start stop => exact fetchEvents_view hs streamId start stop
    | insert streamId versioning events =>
      have hpage := ((InMemoryStorageStrategy.mk (dispatchers t) filterer t).insertEvents_page
        (blind t) hs.sound versioning hi.1.2).2.1
      rw [← view_of_own hs (hi.2 streamId rfl)] at hpage
      exact congrArg (Except.map fun _ => []) hpage
    | snapshot raw => rfl
    | delete streamId =>
      exact congrArg (Except.map fun _ => []) (deleteStream_page hs.sound streamId t).2.1
  own s r hs hi := by
    cases r with
    | fetch streamId start stop => rfl
    | insert streamId versioning events =>
      obtain ⟨hw, -, hpage⟩ :=
        (InMemoryStorageStrategy.mk (dispatchers t) filterer t).insertEvents_page
          (blind t) hs.sound versioning hi.1.2
      refine (view_write hs (hi.2 streamId rfl) hw).trans ?_
      rw [hpage, ← view_of_own hs (hi.2 streamId rfl)]
      rfl
    | snapshot raw =>
      obtain ⟨hw, -, hpage⟩ :=
        (InMemoryStorageStrategy.mk (dispatchers t) filterer t).saveSnapshot_page hs.sound raw
      exact (view_write hs (hi.2 raw.streamId rfl) hw).trans (by rw [hpage]; rfl)
    | delete streamId =>
      obtain ⟨hw, -, hdata⟩ := deleteStream_page hs.sound streamId t
      refine (view_write hs (hi.2 streamId rfl) hw).trans ?_
      rw [Storage.page, hdata]
      rfl
  other s u r hu hs hi := by
    cases r with
    | fetch streamId start stop => rfl
    | insert streamId versioning events =>
      exact view_write_other hs (hi.2 streamId rfl) hu
        ((InMemoryStorageStrategy.mk (dispatchers u) filterer u).insertEvents_page (blind u)
          hs.sound versioning hi.1.2).1
    | snapshot raw =>
      exact view_write_other hs (hi.2 raw.streamId rfl) hu
        ((InMemoryStorageStrategy.mk (dispatchers u) filterer u).saveSnapshot_page hs.sound raw).1
    | delete streamId =>
      exact view_write_other hs (hi.2 streamId rfl) hu (deleteStream_page hs.sound streamId u).1

variable (t : TenantId) {is js : List (TenantId × Call E)}

/-- The event store of each tenant. -/
def stores (u : TenantId) : EventStore E InMemory :=
  ⟨strategies dispatchers filterer u, (dispatchers u).serde⟩

section Calls
variable {dispatchers filterer} {s : InMemory} {u : TenantId} {c : Call E}

theorem stores_of_error {e : SerdeError} (h : request (dispatchers u).serde c = .error e) :
    callStep (stores dispatchers filterer) s (u, c) = (.error (.serde e), s) :=
  show callStep (fun u => ⟨strategies dispatchers filterer u, (dispatchers u).serde⟩) s (u, c) = _
    from callStep_of_error h

theorem stores_of_ok {r : Request} (h : request (dispatchers u).serde c = .ok r) :
    callStep (stores dispatchers filterer) s (u, c) =
      (finish (dispatchers u).serde ((strategies dispatchers filterer u).handle s r).1,
        ((strategies dispatchers filterer u).handle s r).2) :=
  show callStep (fun u => ⟨strategies dispatchers filterer u, (dispatchers u).serde⟩) s (u, c) = _
    from callStep_of_ok h

/-- A call that inserts events: what it stores, and what it dispatches then. -/
theorem stores_of_insert {streamId : StreamId} {versioning : Versioning} {events : List RawEvent}
    (h : request (dispatchers u).serde c = .ok (.insert streamId versioning events)) :
    callStep (stores dispatchers filterer) s (u, c) =
      (let r := (InMemoryStorageStrategy.mk (dispatchers u) filterer u).storeRecords streamId
        versioning events s
      ((r.1.bind (dispatchers u).dispatch).map fun _ => [], r.2)) := by
  rw [stores_of_ok h]
  have hinsert := (InMemoryStorageStrategy.mk (dispatchers u) filterer u).insertEvents_eq_dispatch
    streamId versioning events s
  simp only [StorageStrategy.handle, finish_unit]
  rw [show (strategies dispatchers filterer u).insertEvents streamId versioning events s = _ from
    hinsert]
  rcases (InMemoryStorageStrategy.mk (dispatchers u) filterer u).storeRecords streamId versioning
    events s with ⟨_ | _, s'⟩ <;> rfl

end Calls

/-- The event stores with the record of who created each stream beside the storage. -/
def trackedStores (u : TenantId) : EventStore E Owned :=
  ⟨trackedStrategies dispatchers filterer u, (dispatchers u).serde⟩

/-- The ledger of a tenant, as an event store. -/
def ledgerStore : EventStore E Ledger :=
  ⟨Ledger.strategy ((dispatchers t).accept t), (dispatchers t).serde⟩

theorem unwinding_stores (blind : ∀ u, (dispatchers u).PositionBlind) :
    Unwinding (callStep (trackedStores dispatchers filterer))
      (Requesting (fun u => (dispatchers u).serde) OwnStream) Inv t (view t)
      (ledgerStore dispatchers t).call :=
  unwinding_calls (unwinding dispatchers filterer blind t)

/-- In the run no tenant writes to a stream that another tenant created. -/
def KeepsToOwnStreams (is : List (TenantId × Call E)) : Prop :=
  Meets (callStep (trackedStores dispatchers filterer))
    (Requesting (fun u => (dispatchers u).serde) OwnStream) ({}, fun _ => none) is

instance : Decidable (KeepsToOwnStreams dispatchers filterer is) := by
  unfold KeepsToOwnStreams
  infer_instance

theorem run_tracked :
    run (callStep (stores dispatchers filterer)) {} is =
      ((run (callStep (trackedStores dispatchers filterer)) ({}, fun _ => none) is).1,
        (run (callStep (trackedStores dispatchers filterer)) ({}, fun _ => none) is).2.1) :=
  run_project Prod.fst
    (callStep_tracked track (strategies dispatchers filterer) fun u => (dispatchers u).serde)
    (({}, fun _ => none) : Owned) is

/-- A tenant that shares the backend gets the answers of its own ledger. -/
theorem answers_ledger (blind : ∀ u, (dispatchers u).PositionBlind)
    (h : KeepsToOwnStreams dispatchers filterer is) :
    answersOf t is (run (callStep (stores dispatchers filterer)) {} is).1 =
      (run (ledgerStore dispatchers t).call (fun _ => none) (inputsOf t is)).1 := by
  rw [run_tracked]
  exact (unwinding_stores dispatchers filterer t blind).answers inv_empty h

/-- As long as nobody writes to a stream that another tenant created, what the
others do makes no difference to a tenant. -/
theorem inMemory_isolation (blind : ∀ u, (dispatchers u).PositionBlind)
    (hi : KeepsToOwnStreams dispatchers filterer is)
    (hj : KeepsToOwnStreams dispatchers filterer js) (hsame : inputsOf t is = inputsOf t js) :
    answersOf t is (run (callStep (stores dispatchers filterer)) {} is).1 =
      answersOf t js (run (callStep (stores dispatchers filterer)) {} js).1 := by
  rw [answers_ledger dispatchers filterer t blind hi,
    answers_ledger dispatchers filterer t blind hj, hsame]

end Backend

section Example

/-- The tenant "b" appends to a stream and loads it. -/
def undisturbed : List (TenantId × Call Unit) :=
  [("b", .appendEvents ⟨(), 1, 0⟩ [] order (.version 0)), ("b", .loadStream order none none)]

/-- In between, the tenant "a" appends to another stream and deletes it. -/
def besides : List (TenantId × Call Unit) :=
  [("b", .appendEvents ⟨(), 1, 0⟩ [] order (.version 0)),
    ("a", .appendEvents ⟨(), 2, 0⟩ [⟨(), 3, 0⟩] invoice (.version 0)),
    ("a", .deleteStream invoice), ("b", .loadStream order none none)]

/-- In between, the tenant "a" deletes the stream with the same identifier. -/
def disturbed : List (TenantId × Call Unit) :=
  [("b", .appendEvents ⟨(), 1, 0⟩ [] order (.version 0)), ("a", .deleteStream order),
    ("b", .loadStream order none none)]

theorem inMemory_isolation_besides :
    answersOf "b" undisturbed
        (run (callStep (stores (fun _ => plainDispatcher) none)) {} undisturbed).1 =
      answersOf "b" besides
        (run (callStep (stores (fun _ => plainDispatcher) none)) {} besides).1 :=
  inMemory_isolation _ none "b" (fun _ => plainDispatcher_quiet.positionBlind) (by decide)
    (by decide) rfl

/-- Deleting a stream takes away that of every tenant. -/
theorem inMemory_isolation_disturbed : inputsOf "b" undisturbed = inputsOf "b" disturbed ∧
    answersOf "b" undisturbed
        (run (callStep (stores (fun _ => plainDispatcher) none)) {} undisturbed).1 ≠
      answersOf "b" disturbed
        (run (callStep (stores (fun _ => plainDispatcher) none)) {} disturbed).1 :=
  ⟨rfl, by decide⟩

end Example

end EventSourcery.InMemoryTenants
