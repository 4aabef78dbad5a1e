import EventSourcery.Conformance

/-!
# Sessions on every backend

A session asks its event store to load the stream and to append to it. On a backend that conforms,
a schedule of sessions is a schedule on the reference, as long as what they ask can be asked of
every backend. The reference has optimistic locking, so that there the sessions that end well can
be run one after the other. On SQLAlchemy each call of a repository has a database session of its
own.
-/
namespace EventSourcery.SessionConformance
open ConsecutiveNumbers ReferenceStore Conformance Repository Runs Sessions
open EventStore (answered request)
open InMemorySessions (RoundTrips roundTrip_many deserializeMany_append)
open Projector (CountsFrom countsFrom_iff)

/-! ## Optimistic locking of the reference -/

section Locking
variable {E : Type} {serde : Serde E} {streamId : StreamId} {books : Books}
  {events : List (WrappedEvent E)}

/-- The books have the events of the stream. -/
structure Holds (serde : Serde E) (streamId : StreamId) (books : Books)
    (events : List (WrappedEvent E)) : Prop where
  numbered : books.Numbered
  read : serde.deserializeMany (books.events streamId) = .ok events

theorem Holds.counted (h : Holds serde streamId books events) : CountsFrom 1 events := by
  rw [countsFrom_iff]
  exact (h.numbered (place streamId)).of_map (serde.deserializeMany_version h.read)

theorem Holds.version (h : Holds serde streamId books events) :
    books.version streamId = events.length := version_eq_length h.read

/-- What a call answers tells what an append has answered. -/
theorem map_unit_injective {r r' : Except Error Unit}
    (h : (r.map fun _ => ([] : List (WrappedEvent E))) = r'.map fun _ => []) : r = r' := by
  cases r <;> cases r' <;> cases h <;> rfl

/-- An append to the reference goes through if and only if it expects the number of events. -/
theorem Holds.append_eq (hserde : ∀ event, RoundTrips serde streamId event)
    (h : Holds serde streamId books events) (first : WrappedEvent E) (new : List (WrappedEvent E))
    (version : ℤ) : ∃ raws, serde.serializeMany (first :: new) streamId = .ok raws ∧
      serde.deserializeMany raws = .ok (first :: new) ∧
      (reference serde).append first new streamId (.version version) books =
        if version = events.length then
          (.ok (), books.write streamId (books.events streamId ++ raws))
        else (.error (.concurrentStreamWriteError []), books) := by
  obtain ⟨raws, hraws, hread⟩ := roundTrip_many hserde (first :: new)
  have hanswer : answered ((reference serde).append first new streamId (.version version) books) =
      if version = books.version streamId then
        (.ok [], books.write streamId (books.events streamId ++ raws))
      else (.error (.concurrentStreamWriteError []), books) :=
    @reference_append E serde (.append first new streamId (.version version)) version rfl raws hraws
      books
  refine ⟨raws, hraws, hread, ?_⟩
  rw [h.version] at hanswer
  refine Prod.ext (map_unit_injective ((congrArg Prod.fst hanswer).trans ?_))
    ((congrArg Prod.snd hanswer).trans ?_)
  · split <;> rfl
  · split <;> rfl

theorem locks (hserde : ∀ event, RoundTrips serde streamId event) :
    Locks (reference serde) streamId (Holds serde streamId) where
  counted _ _ h := h.counted
  load _ _ h := reference_load h.numbered h.read
  append books events first new h hnew := by
    intro r
    obtain ⟨raws, hraws, hread, hr⟩ := h.append_eq hserde first new events.length
    rw [if_pos rfl] at hr
    refine ⟨congrArg Prod.fst hr, ?_⟩
    rw [show r.2 = _ from congrArg Prod.snd hr]
    refine ⟨h.numbered.write (h.numbered.extend ?_), ?_⟩
    · rw [h.version]
      exact (countsFrom_iff.1 hnew).of_map (serde.serializeMany_version hraws)
    · rw [events_write_of_eq rfl]
      exact deserializeMany_append h.read hread
  stale books events first new version h _ _ hstale := by
    obtain ⟨_, -, -, hr⟩ := h.append_eq hserde first new version
    rw [if_neg hstale] at hr
    exact ⟨[], hr⟩

end Locking

/-! ## Schedules of sessions on a backend -/

/-- What a session raises, without the arguments of an exception about versions. -/
def shownError : SessionError → SessionError
  | .repository (.store (.concurrentStreamWriteError _)) =>
      .repository (.store (.concurrentStreamWriteError []))
  | e => e

def shownSession {A E : Type} : Session A E → Session A E
  | .ended answer => .ended (answer.mapError shownError)
  | session => session

/-- The call of a session that ends: it appends what is pending. -/
def savingCall {A E : Type} (draw : ℤ → Uuid × Timestamp) (wrapped : WrappedAggregate A E) :
    Option (Call E) :=
  wrapped.storedVersion.bind fun storedVersion =>
    match wrapPending draw wrapped.context (storedVersion + 1) wrapped.aggregate.changes with
    | [] => none
    | first :: events => some (.append first events wrapped.streamId (.version storedVersion))

/-- The condition on an action: what the session calls can be asked of every backend. -/
def PortableAction {A E : Type} (serde : Serde E) (deletes : Prop) (streamId : StreamId)
    (s : Running A E Books) : Sessions.Action A E → Prop
  | .enter _ _ _ => PortableCall serde deletes s.store (.loadStream streamId none none)
  | .exit i draw => ∀ loaded wrapped, s.sessions i = .opened loaded wrapped →
      ∀ call ∈ savingCall draw wrapped, PortableCall serde deletes s.store call
  | _ => True

section Simulation
variable {A E σ : Type} {apply : A → E → A} {serde : Serde E} {deletes : Prop}
  {backend : StorageStrategy σ} {Stands : σ → Books → Prop} {streamId : StreamId}
  {s s₁ : Running A E σ} {s' : Running A E Books} {i : ℕ} {draw : ℤ → Uuid × Timestamp}
  {wrapped : WrappedAggregate A E} {books : Books} {state : σ}

/-- The sessions are the same, up to the arguments of exceptions about versions. -/
structure Alike (Stands : σ → Books → Prop) (s : Running A E σ) (s' : Running A E Books) :
    Prop where
  stands : Stands s.store s'.store
  numbered : s'.store.Numbered
  sessions : ∀ i, shownSession (s.sessions i) = s'.sessions i

theorem Alike.set (h : Alike Stands s s') {session session' : Session A E}
    (hstands : Stands state books) (hnumbered : books.Numbered)
    (hsession : shownSession session = session') :
    Alike Stands (Running.set i session { s with store := state })
      (Running.set i session' { s' with store := books }) where
  stands := hstands
  numbered := hnumbered
  sessions j := by
    by_cases hj : j = i
    · subst hj
      rw [set_sessions_self, set_sessions_self, hsession]
    · rw [set_sessions_of_ne hj, set_sessions_of_ne hj]
      exact h.sessions j

theorem shown_ended (answer : Except Error Unit) :
    shownSession (.ended ((answer.mapError .store).mapError .repository) : Session A E) =
      .ended (((shown answer).mapError .store).mapError .repository) := by
  cases answer with
  | ok u => rfl
  | error e => cases e <;> rfl

/-- A session that ends does to a backend what it does to the reference. -/
theorem save_alike (h : Conforms serde deletes backend Stands) (hstands : Stands state books)
    (hnumbered : books.Numbered)
    (hportable : ∀ call ∈ savingCall draw wrapped, PortableCall serde deletes books call) :
    let r := save ⟨backend, serde⟩ draw wrapped state
    let r' := save (reference serde) draw wrapped books
    shownSession (.ended (r.1.mapError .repository) : Session A E) =
        .ended (r'.1.mapError .repository) ∧ Stands r.2 r'.2 ∧ r'.2.Numbered := by
  simp only [save]
  cases hversion : wrapped.storedVersion with
  | none => exact ⟨rfl, hstands, hnumbered⟩
  | some storedVersion =>
    dsimp only
    cases hpending : wrapPending draw wrapped.context (storedVersion + 1)
        wrapped.aggregate.changes with
    | nil => exact ⟨rfl, hstands, hnumbered⟩
    | cons first events =>
      dsimp only
      have hcall : PortableCall serde deletes books
          (.append first events wrapped.streamId (.version storedVersion)) := by
        refine hportable _ ?_
        simp [savingCall, hversion, hpending]
      obtain ⟨hanswer, hafter⟩ := h.call hstands hnumbered hcall
      refine ⟨?_, hafter, hnumbered.call hcall⟩
      have hshown : shown (EventStore.append ⟨backend, serde⟩ first events wrapped.streamId
          (.version storedVersion) state).1 = ((reference serde).append first events
            wrapped.streamId (.version storedVersion) books).1 := by
        simp only [EventStore.call, answered, shown_map] at hanswer
        exact map_unit_injective hanswer
      rw [shown_ended, hshown]

/-- Every action of a session has its counterpart. -/
theorem Alike.step (h : Alike Stands s s') (hconforms : Conforms serde deletes backend Stands)
    {a : Sessions.Action A E} (hportable : PortableAction serde deletes streamId s' a)
    (hstep : step apply ⟨backend, serde⟩ streamId s a = some s₁) :
    ∃ s₁', step apply (reference serde) streamId s' a = some s₁' ∧ Alike Stands s₁ s₁' := by
  have hsession := h.sessions a.session
  cases a with
  | enter i state context =>
    simp only [Sessions.step] at hstep
    split at hstep
    · next hopen =>
      rw [Action.session, hopen] at hsession
      simp only [Sessions.step, ← hsession, shownSession]
      have hload : shown (EventStore.loadStream ⟨backend, serde⟩ streamId none none s.store) =
          (reference serde).loadStream streamId none none s'.store :=
        (hconforms.call h.stands h.numbered hportable).1
      simp only [load, fresh] at hstep ⊢
      rw [← hload]
      cases hread : EventStore.loadStream ⟨backend, serde⟩ streamId none none s.store with
      | error e =>
        rw [hread] at hstep
        cases hstep
        refine ⟨_, rfl, h.set h.stands h.numbered ?_⟩
        exact shown_ended (.error e)
      | ok loaded =>
        rw [hread] at hstep
        cases hstep
        exact ⟨_, rfl, h.set h.stands h.numbered rfl⟩
    · cases hstep
  | emit i event =>
    simp only [Sessions.step] at hstep
    split at hstep
    · next loaded wrapped hopen =>
      cases hstep
      rw [Action.session, hopen] at hsession
      simp only [Sessions.step, ← hsession, shownSession]
      exact ⟨_, rfl, h.set h.stands h.numbered rfl⟩
    · cases hstep
  | exit i draw =>
    simp only [Sessions.step] at hstep
    split at hstep
    · next loaded wrapped hopen =>
      cases hstep
      rw [Action.session, hopen] at hsession
      obtain ⟨hended, hafter, hnumbered⟩ := save_alike (A := A) hconforms h.stands h.numbered
        (hportable loaded wrapped hsession.symm)
      simp only [Sessions.step, ← hsession, shownSession]
      exact ⟨_, rfl, h.set hafter hnumbered hended⟩
    · cases hstep
  | raise i =>
    simp only [Sessions.step] at hstep
    split at hstep
    · next loaded wrapped hopen =>
      cases hstep
      rw [Action.session, hopen] at hsession
      simp only [Sessions.step, ← hsession, shownSession]
      exact ⟨_, rfl, h.set h.stands h.numbered rfl⟩
    · cases hstep

end Simulation

section Example
open JsonText (WellFormed WellFormedFields)
open InMemorySessions (count)
open Tenants

/-- Two sessions load the order, of two events, at the same time; the first to save appends. -/
def orderSessions : List (Sessions.Action ℕ Unit) :=
  [.enter 0 0 none, .enter 1 0 none, .emit 0 (), .emit 1 (), .exit 0 fun _ => (4, 0),
    .exit 1 fun _ => (5, 0)]

def orderBooks : Books := (run (reference plainSerde).call {} [openOrder]).2

theorem load_order_portable {books : Books} (hbounded : books.version order ≤ Kurrent.maxPosition) :
    PortableCall plainSerde False books (.loadStream order none none) := by
  intro r hr
  cases hr
  exact ⟨plain_order, by simp, by simp, by simp, hbounded⟩

theorem append_order_portable {books : Books} {event : WrappedEvent Unit} {v : ℤ} (hv : v ≠ 0)
    (hversion : event.version = some (v + 1)) (hcontext : event.context = defaultContext)
    (htime : event.createdAt = 0) (hfresh : event.uuid ∉ books.uuids) :
    PortableCall plainSerde False books (.append event [] order (.version v)) := by
  refine portable_append plain_order (fun event => ⟨"Event", [], rfl, rfl, rfl⟩)
    (fun event data hdata => ?_) ⟨hversion, trivial⟩ (fun other hother => ?_) (absurd · hv)
    (List.nodup_singleton _) (by simpa using hfresh)
  · cases hdata
    simp [WellFormed, WellFormedFields]
  · rw [List.mem_singleton.1 hother]
    refine ⟨?_, ?_, ?_⟩
    · simp [hcontext, defaultContext, WellFormed, WellFormedFields]
    · rw [hcontext]
      decide
    · rw [htime]
      decide +kernel

theorem orderSessions_portable :
    MeetsAll (step count (reference plainSerde) order) (PortableAction plainSerde False order)
      (unopened orderBooks) orderSessions := by
  refine ⟨load_order_portable (by decide +kernel), fun s h => ?_⟩
  cases h
  refine ⟨load_order_portable (by decide +kernel), fun s h => ?_⟩
  cases h
  refine ⟨trivial, fun s h => ?_⟩
  cases h
  refine ⟨trivial, fun s h => ?_⟩
  cases h
  refine ⟨fun loaded wrapped hopen call hcall => ?_, fun s h => ?_⟩
  · cases hopen
    cases hcall
    exact append_order_portable (by decide) rfl rfl rfl (by decide +kernel)
  cases h
  refine ⟨fun loaded wrapped hopen call hcall => ?_, fun s h => ?_⟩
  · cases hopen
    cases hcall
    exact append_order_portable (by decide) rfl rfl rfl (by decide +kernel)
  trivial

end Example

end EventSourcery.SessionConformance
