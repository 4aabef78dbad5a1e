import EventSourcery.InMemoryVersions
import EventSourcery.Sessions

/-!
# Sessions on the in-memory backend

The backend compares the expected version of an append with the version of the stream,
when it is not 0. A session on a stream that holds events never expects 0.
-/
namespace EventSourcery.InMemorySessions
open Runs Tenants Repository Sessions InMemoryStorageStrategy InMemoryVersions
open Projector (CountsFrom)

section Holding
variable {E : Type} {serde : Serde E} {streamId : StreamId}

/-- The type of the event is registered, and the event reads back as it was. -/
def RoundTrips (serde : Serde E) (streamId : StreamId) (event : E) : Prop :=
  ∃ name data, serde.nameForType event = .ok name ∧ serde.encrypt event streamId = .ok data ∧
    serde.construct name data streamId = .ok event

theorem roundTrip_many (h : ∀ event, RoundTrips serde streamId event)
    (events : List (WrappedEvent E)) : ∃ raws,
      serde.serializeMany events streamId = .ok raws ∧ serde.deserializeMany raws = .ok events := by
  induction events with
  | nil => exact ⟨[], rfl, rfl⟩
  | cons event events ih =>
    obtain ⟨raws, hraws, hread⟩ := ih
    obtain ⟨name, data, hname, hdata, hevent⟩ := h event.event
    have hserialize : serde.serialize streamId event = .ok
        { uuid := event.uuid, streamId, createdAt := event.createdAt, name, data
          context := event.context, version := event.version } := by
      simp only [Serde.serialize, hname, hdata]
      rfl
    refine ⟨{ uuid := event.uuid, streamId, createdAt := event.createdAt, name, data
              context := event.context, version := event.version } :: raws, ?_, ?_⟩
    · rw [Serde.serializeMany, List.mapM_cons, hserialize]
      exact bind_eq_ok.2 ⟨_, rfl, bind_eq_ok.2 ⟨raws, hraws, rfl⟩⟩
    · have hdeserialize : serde.deserialize
          { uuid := event.uuid, streamId, createdAt := event.createdAt, name, data
            context := event.context, version := event.version } = .ok event := by
        simp only [Serde.deserialize, hevent]
        rfl
      rw [Serde.deserializeMany, List.mapM_cons, hdeserialize]
      exact bind_eq_ok.2 ⟨_, rfl, bind_eq_ok.2 ⟨events, hread, rfl⟩⟩

theorem deserializeMany_append {raws raws' : List RawEvent} {events events' : List (WrappedEvent E)}
    (h : serde.deserializeMany raws = .ok events) (h' : serde.deserializeMany raws' = .ok events') :
    serde.deserializeMany (raws ++ raws') = .ok (events ++ events') := by
  unfold Serde.deserializeMany at h h' ⊢
  rw [List.mapM_append, h, h']
  rfl

/-- The stream holds the events, numbered, of the tenant and nobody else's. It may also not
be there, if there are none. -/
structure Holds (serde : Serde E) (t : TenantId) (streamId : StreamId) (s : InMemory)
    (events : List (WrappedEvent E)) : Prop where
  sound : s.storage.Sound
  tagged : ∀ held ∈ s.storage.data streamId.key, ∀ record ∈ held, record.tenantId = t
  counted : CountsFrom 1 events
  page : ∃ raws, (s.storage.page streamId.key).getD ⟨[], some 0⟩ = ⟨raws, some events.length⟩ ∧
    serde.deserializeMany raws = .ok events

end Holding

section Backend
variable {E : Type} {dispatcher : Dispatcher E} {filterer : Option (RawEvent → Bool)}
  {t : TenantId} {streamId : StreamId} {s : InMemory} {events : List (WrappedEvent E)}

theorem Holds.fetch (h : Holds dispatcher.serde t streamId s events) {raws : List RawEvent}
    {version : Option ℤ}
    (hpage : (s.storage.page streamId.key).getD ⟨[], some 0⟩ = ⟨raws, version⟩) :
    fetchEvents ⟨dispatcher, filterer, t⟩ streamId none none s = .ok raws := by
  have hraws : (s.storage.page streamId.key).elim [] (·.events) = raws := by
    cases hheld : s.storage.page streamId.key with
    | none =>
      rw [hheld] at hpage
      exact congrArg Page.events hpage
    | some page =>
      rw [hheld] at hpage
      exact congrArg Page.events hpage
  rw [fetchEvents_of_tagged ⟨dispatcher, filterer, t⟩ h.sound h.tagged, hraws]
  simp [offset]

theorem Holds.load (h : Holds dispatcher.serde t streamId s events) :
    (store dispatcher filterer t).loadStream streamId none none s = .ok events := by
  obtain ⟨raws, hpage, hread⟩ := h.page
  exact bind_eq_ok.2 ⟨raws, h.fetch hpage, mapError_eq_ok.2 hread⟩

/-- The events that an append asks the backend to insert. -/
theorem append_eq {first : WrappedEvent E} {new : List (WrappedEvent E)} {raws : List RawEvent}
    (hraws : dispatcher.serde.serializeMany (first :: new) streamId = .ok raws) (version : ℤ) :
    (store dispatcher filterer t).append first new streamId (.version version) s =
      insertEvents ⟨dispatcher, filterer, t⟩ streamId
        (.explicit version ((first :: new).getLast (by simp)).version) raws s := by
  unfold EventStore.append
  rw [show (store dispatcher filterer t).serde = dispatcher.serde from rfl, hraws]
  rfl

/-- Numbered events leave the stream at the version of their last one. -/
theorem version_of_counts {serde : Serde E} {first : WrappedEvent E} {new : List (WrappedEvent E)}
    {raws : List RawEvent} (hraws : serde.serializeMany (first :: new) streamId = .ok raws)
    {version : ℤ} (hnew : CountsFrom version (first :: new)) (before : Option ℤ) :
    raws.getLast?.elim before (·.version) = some (version + new.length) := by
  have hversions : raws.getLast?.map (·.version) = (first :: new).getLast?.map (·.version) := by
    rw [← List.getLast?_map, ← List.getLast?_map, serde.serializeMany_version hraws]
  have hlast := hnew.getLast?_version
  rw [List.getLast?_eq_some_getLast (List.cons_ne_nil first new)] at hversions hlast
  cases hraw : raws.getLast? with
  | none =>
    rw [hraw] at hversions
    cases hversions
  | some raw =>
    rw [hraw] at hversions
    exact (Option.some.inj hversions).trans hlast

theorem Holds.append (quiet : dispatcher.Quiet)
    (hserde : ∀ event, RoundTrips dispatcher.serde streamId event)
    (h : Holds dispatcher.serde t streamId s events) {first : WrappedEvent E}
    {new : List (WrappedEvent E)} (hnew : CountsFrom (events.length + 1) (first :: new)) :
    let r := (store dispatcher filterer t).append first new streamId (.version events.length) s
    r.1 = .ok () ∧ Holds dispatcher.serde t streamId r.2 (events ++ first :: new) := by
  obtain ⟨raws, hpage, hread⟩ := h.page
  obtain ⟨added, hadded, hback⟩ := roundTrip_many hserde (first :: new)
  have hinsert := insertEvents_page ⟨dispatcher, filterer, t⟩ quiet.positionBlind h.sound
    (.explicit events.length ((first :: new).getLast (by simp)).version)
    (dispatcher.serde.serializeMany_streamId hadded)
  have haccept : dispatcher.accept t added = .ok () := by
    rw [Dispatcher.accept_of_quiet quiet, Serde.accept, hback]
    rfl
  have hopened : (s.storage.page streamId.key).getD
      (.opened (.explicit events.length ((first :: new).getLast (by simp)).version)) =
      ⟨raws, some events.length⟩ := hpage
  simp only [Page.insert, hopened, Versioning.admits_explicit, or_true, if_true, haccept] at hinsert
  rw [append_eq hadded]
  obtain ⟨hwrites, hanswer, hafter⟩ := hinsert
  refine ⟨hanswer, hwrites.sound, ?_, h.counted.append (by rwa [add_comm]), raws ++ added, ?_,
    deserializeMany_append hread hback⟩
  · intro held hheld record hrecord
    rcases hwrites.tagged held hheld record hrecord with hmine | ⟨before, hbefore, hmem⟩
    · exact hmine
    · exact h.tagged before hbefore record hmem
  · rw [hafter, Option.getD_some, Page.extend, version_of_counts hadded hnew]
    simp [add_comm, add_left_comm]

theorem Holds.stale (quiet : dispatcher.Quiet)
    (hserde : ∀ event, RoundTrips dispatcher.serde streamId event)
    (h : Holds dispatcher.serde t streamId s events) (hevents : events ≠ [])
    (first : WrappedEvent E) (new : List (WrappedEvent E)) {version : ℤ} (hpos : version ≠ 0)
    (hstale : version ≠ events.length) :
    ∃ args, (store dispatcher filterer t).append first new streamId (.version version) s =
      (.error (.concurrentStreamWriteError args), s) := by
  obtain ⟨raws, hpage, hread⟩ := h.page
  obtain ⟨added, hadded, -⟩ := roundTrip_many hserde (first :: new)
  have hheld : s.storage.contains streamId = true := by
    cases hdata : s.storage.data streamId.key with
    | some held => simp [Storage.contains, hdata]
    | none =>
      simp only [Storage.page, hdata, Option.bind_none, Option.getD_none, Page.mk.injEq] at hpage
      rw [← hpage.1] at hread
      cases hread
      exact absurd rfl hevents
  obtain ⟨held, current, -, -, hcurrent, heq⟩ :=
    insertEvents_eq ⟨dispatcher, filterer, t⟩ quiet.positionBlind h.sound
      (.explicit version ((first :: new).getLast (by simp)).version)
      (dispatcher.serde.serializeMany_streamId hadded)
  have hversion : current = some (events.length : ℤ) :=
    congrArg Page.version (hcurrent.trans hpage)
  have hadmits : ¬ (version = 0 ∨ version = (events.length : ℤ)) := by
    rintro (h0 | hlatest)
    · exact hpos h0
    · exact hstale hlatest
  refine ⟨[.int events.length, .int version], ?_⟩
  rw [append_eq hadded, heq, hversion, Versioning.admits_explicit, if_neg hadmits, ensured,
    if_pos hheld]

theorem locks (quiet : dispatcher.Quiet)
    (hserde : ∀ event, RoundTrips dispatcher.serde streamId event) :
    Locks (store dispatcher filterer t) streamId (Holds dispatcher.serde t streamId) where
  counted _ _ h := h.counted
  load _ _ h := h.load
  append _ _ _ _ h hnew := h.append quiet hserde hnew
  stale _ _ first new _ h hevents hpos hstale := h.stale quiet hserde hevents first new hpos hstale

theorem holds_nothing (hsound : s.storage.Sound) (hfresh : s.storage.data streamId.key = none) :
    Holds dispatcher.serde t streamId s [] where
  sound := hsound
  tagged held hheld := by
    rw [hfresh] at hheld
    cases hheld
  counted := trivial
  page := ⟨[], by simp [Storage.page, hfresh], rfl⟩

end Backend

section Example

/-- Two sessions on an order load it at the same time; the first to save appends. -/
def schedule : List (Sessions.Action ℕ Unit) :=
  [.enter 0 0 none, .enter 1 0 none, .emit 0 (), .emit 1 (), .exit 0 fun _ => (2, 0),
    .exit 1 fun _ => (3, 0)]

theorem plainSerde_roundTrips (event : Unit) : RoundTrips plainSerde order event :=
  ⟨"Event", [], rfl, rfl, rfl⟩

def count (state : ℕ) (_ : Unit) : ℕ := state + 1

/-- A first session appends one event. -/
def written : Running ℕ Unit InMemory :=
  (exec (step count (store plainDispatcher none defaultTenant) order) (unopened {})
    (sessionActions 0 0 none [()] fun _ => (1, 0))).getD (unopened {})

end Example

end EventSourcery.InMemorySessions
