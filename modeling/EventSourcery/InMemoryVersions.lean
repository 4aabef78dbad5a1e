import EventSourcery.InMemoryTenants

/-!
# Expected versions on the in-memory backend

In every state that the calls of one tenant reach, the backend answers as a
sound ledger does. An append with an expected version succeeds when it is the
current version of the stream. It also succeeds when the expected version is 0
and the stream has events: the backend compares no expected version that Python
takes for false.
-/
namespace EventSourcery.InMemoryVersions
open EventStore Runs Tenants InMemoryStorageStrategy InMemoryTenants Ledger

variable {E : Type} (dispatcher : Dispatcher E) (filterer : Option (RawEvent → Bool))
  (t : TenantId)

/-- The event store of the only tenant. -/
def store : EventStore E InMemory := stores (fun _ => dispatcher) filterer t

/-- A state that calls of the tenant lead to. -/
def Reachable (s : InMemory) : Prop :=
  ∃ calls : List (Call E), s = (run (store dispatcher filterer t).call {} calls).2

/-- Nobody else created a stream. -/
def Alone (s : Owned) : Prop := ∀ key, s.2 key = none ∨ s.2 key = some t

variable {dispatcher filterer t}

theorem alone_track {s : Owned} (h : Alone t s) (after : InMemory) :
    Alone t (after, track t s.1 after s.2) := by
  intro key
  unfold track
  dsimp only
  split
  · exact .inr rfl
  · exact .inl rfl
  · exact h key

theorem alone_step {s : Owned} (h : Alone t s) (c : Call E) :
    Requesting (fun _ => dispatcher.serde) OwnStream s (t, c) ∧
      Alone t (callStep (trackedStores (fun _ => dispatcher) filterer) s (t, c)).2 := by
  cases hr : request dispatcher.serde c with
  | error e =>
    rw [show callStep (trackedStores (fun _ => dispatcher) filterer) s (t, c) = _ from
      callStep_of_error hr]
    exact ⟨by simp [Requesting, hr], h⟩
  | ok r =>
    rw [show callStep (trackedStores (fun _ => dispatcher) filterer) s (t, c) = _ from
      callStep_of_ok hr]
    have hown : OwnStream s (t, r) := fun streamId _ => h streamId.key
    refine ⟨by simpa [Requesting, hr] using hown, ?_⟩
    cases r with
    | fetch streamId start stop => exact h
    | insert streamId versioning events => exact alone_track h _
    | snapshot raw => exact alone_track h _
    | delete streamId => exact alone_track h _

theorem keepsToOwnStreams (calls : List (Call E)) :
    KeepsToOwnStreams (fun _ => dispatcher) filterer (calls.map fun c => (t, c)) := by
  have hstep : ∀ (s : Owned) (i : TenantId × Call E), i.1 = t → Alone t s →
      Requesting (fun _ => dispatcher.serde) OwnStream s i ∧
        Alone t (callStep (trackedStores (fun _ => dispatcher) filterer) s i).2 := by
    rintro s ⟨u, c⟩ rfl h
    exact alone_step h c
  exact meets_of_invariant hstep (fun _ => .inl rfl) (by simp)

variable (filterer t) in
/-- The only tenant gets the answers of its ledger. -/
theorem run_ledger (quiet : dispatcher.Quiet) (calls : List (Call E)) :
    (run (store dispatcher filterer t).call {} calls).1 =
      (run (ledgerStore (fun _ => dispatcher) t).call (fun _ => none) calls).1 := by
  have h := answers_ledger (fun _ => dispatcher) filterer t (fun _ => quiet.positionBlind)
    (keepsToOwnStreams (t := t) calls)
  rw [answersOf_own t (by simp), inputsOf_own, run_map] at h
  exact h

/-- A reachable state answers every call as some sound ledger does. -/
theorem reachable_ledger (quiet : dispatcher.Quiet) {s : InMemory}
    (h : Reachable dispatcher filterer t s) :
    ∃ l : Ledger, l.Sound ∧ ∀ c,
      ((store dispatcher filterer t).call s c).1 =
        ((ledgerStore (fun _ => dispatcher) t).call l c).1 := by
  obtain ⟨calls, rfl⟩ := h
  refine ⟨(run (ledgerStore (fun _ => dispatcher) t).call (fun _ => none) calls).2,
    run_invariant (fun l c => call_sound) (fun _ _ h => by cases h) calls, fun c => ?_⟩
  have hlast := run_ledger filterer t quiet (calls ++ [c])
  rw [run_append, run_append] at hlast
  simpa using (List.append_inj' hlast rfl).2

theorem reachable_loadStream {s : InMemory} {l : Ledger}
    (h : ∀ c, ((store dispatcher filterer t).call s c).1 =
      ((ledgerStore (fun _ => dispatcher) t).call l c).1) (streamId : StreamId) :
    (store dispatcher filterer t).loadStream streamId none none s =
      (ledgerStore (fun _ => dispatcher) t).loadStream streamId none none l :=
  h (.loadStream streamId none none)

theorem reachable_appendEvents {s : InMemory} {l : Ledger}
    (h : ∀ c, ((store dispatcher filterer t).call s c).1 =
      ((ledgerStore (fun _ => dispatcher) t).call l c).1) (first : BareEvent E)
    (events : List (BareEvent E)) (streamId : StreamId) (expected : ExpectedVersion) :
    ((store dispatcher filterer t).appendEvents first events streamId expected s).1 =
      ((ledgerStore (fun _ => dispatcher) t).appendEvents first events streamId expected l).1 := by
  have hcall := h (.appendEvents first events streamId expected)
  simp only [call, answered] at hcall
  revert hcall
  generalize ((store dispatcher filterer t).appendEvents first events streamId expected s).1 = a
  generalize
    ((ledgerStore (fun _ => dispatcher) t).appendEvents first events streamId expected l).1 = b
  cases a <;> cases b <;> simp [Except.map]

/-- What an append with the expected version `v` promises on a stream of the
current version `c`. -/
def KeepsVersion (r : Except Error Unit) (c v : ℤ) : Prop :=
  (r = .ok () ↔ v = c) ∧ (v ≠ c → ∃ e, r = .error e ∧ e.isConcurrentStreamWriteError = true)

/-- The events can be stored, and those that will be stored can be read back. -/
def Storable (serde : Serde E) (first : BareEvent E) (events : List (BareEvent E))
    (streamId : StreamId) (c v : ℤ) : Prop :=
  ∃ raws, serde.serializeMany (wrapEvents (.version v) 0 (first :: events)) streamId = .ok raws ∧
    (v = c → ∃ stored, serde.deserializeMany raws = .ok stored)

/-- In every reachable state an append keeps its promise if and only if its events
can be stored, and the expected version is not 0 on a stream of another version. -/
theorem appendEvents_keepsVersion_iff (quiet : dispatcher.Quiet) {s : InMemory}
    (h : Reachable dispatcher filterer t s) {streamId : StreamId}
    {loaded : List (WrappedEvent E)}
    (hload : (store dispatcher filterer t).loadStream streamId none none s = .ok loaded)
    {c : ℤ} (hc : currentVersion loaded = some c) (v : ℤ) (first : BareEvent E)
    (events : List (BareEvent E)) :
    KeepsVersion
        ((store dispatcher filterer t).appendEvents first events streamId (.version v) s).1 c v ↔
      Storable dispatcher.serde first events streamId c v ∧ (v = 0 → c = 0) := by
  obtain ⟨l, hsound, hcalls⟩ := reachable_ledger quiet h
  rw [reachable_loadStream hcalls] at hload
  rw [reachable_appendEvents hcalls, ledgerStore, appendEvents_version hsound hload hc]
  simp only [Dispatcher.accept_of_quiet quiet]
  unfold KeepsVersion Storable
  cases hraws : dispatcher.serde.serializeMany
      (wrapEvents (.version v) 0 (first :: events)) streamId with
  | error e => simp [Error.isConcurrentStreamWriteError]
  | ok raws =>
    have haccept : dispatcher.serde.accept raws = .ok () ↔
        ∃ stored, dispatcher.serde.deserializeMany raws = .ok stored := by
      cases hd : dispatcher.serde.deserializeMany raws <;>
        simp [Serde.accept, hd, Except.map, Except.mapError]
    have herror : ∀ e, dispatcher.serde.accept raws = .error e →
        e.isConcurrentStreamWriteError = false := by
      intro e he
      cases hd : dispatcher.serde.deserializeMany raws <;>
        simp [Serde.accept, hd, Except.map, Except.mapError] at he
      subst he
      rfl
    by_cases hv : v = c
    · subst hv
      simp [haccept]
    · by_cases h0 : v = 0
      · subst h0
        refine ⟨fun hkeeps => ?_, fun hcond => absurd (hcond.2 rfl).symm hv⟩
        obtain ⟨e, he, hconcurrent⟩ := hkeeps.2 hv
        simp only [true_or, if_true] at he
        exact absurd (herror e he) (by simp [hconcurrent])
      · simp [hv, h0, Error.isConcurrentStreamWriteError]

section Example

/-- An order with one event. -/
def started : InMemory :=
  (run (store plainDispatcher none defaultTenant).call {}
    [.appendEvents ⟨(), 1, 0⟩ [] order (.version 0)]).2

theorem started_reachable : Reachable plainDispatcher none defaultTenant started := ⟨_, rfl⟩

theorem started_loadStream :
    (store plainDispatcher none defaultTenant).loadStream order none none started =
      .ok [⟨(), some 1, 1, 0, defaultContext⟩] := rfl

theorem appendEvents_keepsVersion_iff_started :
    KeepsVersion ((store plainDispatcher none defaultTenant).appendEvents ⟨(), 2, 0⟩ [] order
      (.version 1) started).1 1 1 :=
  (appendEvents_keepsVersion_iff plainDispatcher_quiet started_reachable started_loadStream rfl 1
    ⟨(), 2, 0⟩ []).2 ⟨⟨_, rfl, fun _ => ⟨_, rfl⟩⟩, by decide⟩

/-- Appending with the expected version 0 succeeds on a stream of version 1. -/
theorem appendEvents_keepsVersion_started_zero :
    (store plainDispatcher none defaultTenant).loadStream order none none started =
        .ok [⟨(), some 1, 1, 0, defaultContext⟩] ∧
      ((store plainDispatcher none defaultTenant).appendEvents ⟨(), 2, 0⟩ [] order (.version 0)
        started).1 = .ok () ∧
      ¬ KeepsVersion ((store plainDispatcher none defaultTenant).appendEvents ⟨(), 2, 0⟩ [] order
        (.version 0) started).1 1 0 := by
  have hok : ((store plainDispatcher none defaultTenant).appendEvents ⟨(), 2, 0⟩ [] order
      (.version 0) started).1 = .ok () := rfl
  exact ⟨started_loadStream, hok, fun h => absurd (h.1.1 hok) (by decide)⟩

end Example

end EventSourcery.InMemoryVersions
