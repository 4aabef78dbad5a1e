import EventSourcery.InMemoryConformance
import EventSourcery.InMemorySessions
import EventSourcery.KurrentConformance
import EventSourcery.SqlConformance

/-!
# One event store on four backends

Each backend gives the answers of the reference to every run of calls that can be asked of all of
them. So a stream is loaded on each of them with the events of the appends that went through since
it was last deleted, and an append goes through if and only if it expects their number. On
SQLAlchemy each call has a session of its own.
-/
namespace EventSourcery.Conformance
open EventStore (request call_eq finish)
open ConsecutiveNumbers (selectFrom_none)
open ReferenceStore Runs Tenants Sql
open InMemorySessions (RoundTrips roundTrip_many deserializeMany_append)

/-- The backends, each with a transaction for each request where it has transactions. -/
inductive Backend (E : Type) where
  | inMemory (strategy : InMemoryStorageStrategy E)
  | sql (store : SqlStore E)
  | kurrentdb (strategy : Kurrent.KurrentDBStorageStrategy)

namespace Backend
variable {E : Type}

abbrev State : Backend E → Type
  | inMemory _ => InMemory
  | sql _ => Database
  | kurrentdb _ => Kurrent.EventLog

/-- Nothing is stored yet. -/
def start : (backend : Backend E) → backend.State
  | inMemory _ => {}
  | sql _ => {}
  | kurrentdb _ => {}

def storageStrategy : (backend : Backend E) → StorageStrategy backend.State
  | inMemory strategy => strategy.storageStrategy
  | sql store => store.storageStrategy
  | kurrentdb strategy => Kurrent.KurrentServer.storageStrategy strategy

/-- KurrentDB does not number the events of a stream that was deleted from 1 again. -/
def Restarts : Backend E → Prop
  | kurrentdb _ => False
  | _ => True

/-- The serialization is that of the backend's dispatcher, to which no listener is registered that
raises. The name of a KurrentDB tenant has no dash in it. -/
def Serves (serde : Serde E) : Backend E → Prop
  | inMemory strategy => strategy.dispatcher.serde = serde ∧ strategy.dispatcher.Quiet
  | sql store => store.dispatcher.serde = serde ∧ store.dispatcher.Quiet
  | kurrentdb strategy => '-' ∉ strategy.tenantId.toList

def eventStore (backend : Backend E) (serde : Serde E) : EventStore E backend.State :=
  ⟨backend.storageStrategy, serde⟩

end Backend

/-- The reference as an event store. -/
def reference {E : Type} (serde : Serde E) : EventStore E Books := ⟨strategy, serde⟩

section Backends
variable {E : Type} {serde : Serde E} {calls : List (Call E)}

/-- Each backend conforms, and with nothing stored it stands for empty books. -/
theorem exists_stands {backend : Backend E} (h : backend.Serves serde) :
    ∃ Stands : backend.State → Books → Prop, Stands backend.start {} ∧
      Conforms serde backend.Restarts backend.storageStrategy Stands := by
  cases backend with
  | inMemory strategy =>
    obtain ⟨rfl, quiet⟩ := h
    exact ⟨_, InMemoryConformance.stands_empty strategy.tenantId,
      InMemoryConformance.conforms quiet⟩
  | sql store =>
    obtain ⟨rfl, quiet⟩ := h
    exact ⟨_, SqlConformance.stands_empty store.engine store.tenantId,
      SqlConformance.conforms store quiet⟩
  | kurrentdb strategy =>
    exact ⟨_, Kurrent.KurrentConformance.stands_empty strategy.tenantId,
      Kurrent.KurrentConformance.conforms h⟩

/-- Calls that can be asked of all backends one after the other, from the beginning. -/
def PortableRun (serde : Serde E) (deletes : Prop) (calls : List (Call E)) : Prop :=
  Meets (reference serde).call (PortableCall serde deletes) {} calls

end Backends

/-! ## What is loaded and what is refused -/

section Contract
variable {E : Type} {serde : Serde E} {streamId : StreamId}

/-- The events of an append as they are stored. -/
def appendedBy : Call E → List (WrappedEvent E)
  | .append first events _ _ => first :: events
  | .appendEvents first events _ expected => wrapEvents expected 0 (first :: events)
  | _ => []

/-- The events of a stream after one more call that succeeded. -/
def keepNext (streamId : StreamId) (events : List (WrappedEvent E)) (call : Call E) :
    List (WrappedEvent E) :=
  if place call.streamId = place streamId then
    match call with
    | .deleteStream _ => []
    | call => events ++ appendedBy call
  else events

/-- The events of the appends that went through since the stream was last deleted. -/
def kept (streamId : StreamId) (past : List (Call E × EventStore.Answer E)) :
    List (WrappedEvent E) :=
  (past.filter fun x => x.2.isOk).foldl (fun events x => keepNext streamId events x.1) []

theorem kept_concat (past : List (Call E × EventStore.Answer E)) (call : Call E)
    (answer : EventStore.Answer E) :
    kept streamId (past ++ [(call, answer)]) =
      if answer.isOk then keepNext streamId (kept streamId past) call else kept streamId past := by
  unfold kept
  rw [List.filter_append, List.foldl_append]
  cases h : answer.isOk <;> simp [h]

theorem kept_shown (streamId : StreamId) (calls : List (Call E))
    (answers : List (EventStore.Answer E)) :
    kept streamId (calls.zip (answers.map shown)) = kept streamId (calls.zip answers) := by
  have hok : ∀ answer : EventStore.Answer E, (shown answer).isOk = answer.isOk := by
    intro answer
    cases answer <;> rfl
  rw [List.zip_map_right, kept, kept, List.filter_map, List.foldl_map]
  simp only [Function.comp_def, Prod.map_snd, Prod.map_fst, hok, id]

/-- The version that an append expects. -/
def expectedBy : Call E → Option ℤ
  | .append _ _ _ (.version v) => some v
  | .appendEvents _ _ _ (.version v) => some v
  | _ => none

/-- What an append with an expected version asks for. -/
theorem request_of_expected {call : Call E} {v : ℤ} (hv : v ∈ expectedBy call)
    {raws : List RawEvent}
    (hraws : serde.serializeMany (appendedBy call) call.streamId = .ok raws) :
    ∃ last, request serde call = .ok (.insert call.streamId (.explicit v last) raws) := by
  cases call with
  | append first events streamId expected =>
    cases expected with
    | noVersioning => cases hv
    | version w =>
      cases hv
      exact ⟨_, map_eq_ok.2 ⟨raws, hraws, rfl⟩⟩
  | appendEvents first events streamId expected =>
    cases expected with
    | noVersioning => cases hv
    | version w =>
      cases hv
      exact ⟨_, map_eq_ok.2 ⟨raws, hraws, rfl⟩⟩
  | _ => cases hv

/-- What an append with an expected version does to the books. -/
theorem reference_append {call : Call E} {v : ℤ} (hv : v ∈ expectedBy call)
    {raws : List RawEvent}
    (hraws : serde.serializeMany (appendedBy call) call.streamId = .ok raws) (books : Books) :
    (reference serde).call books call =
      if v = books.version call.streamId then
        (.ok [], books.write call.streamId (books.events call.streamId ++ raws))
      else (.error (.concurrentStreamWriteError []), books) := by
  obtain ⟨last, hr⟩ := request_of_expected hv hraws
  rw [call_eq, show request (reference serde).serde call = _ from hr]
  change (finish serde ((insertEvents _ _ raws books).1.map fun _ => []),
    (insertEvents _ _ raws books).2) = _
  simp only [insertEvents, Versioning.expectedVersion, Option.some_inj]
  split <;> rfl

/-- An append that is portable expects a version. -/
theorem exists_expected (hserde : ∀ streamId event, RoundTrips serde streamId event)
    {deletes : Prop} {books : Books} {call : Call E} (happends : call.Appends)
    (hportable : PortableCall serde deletes books call) : ∃ v, v ∈ expectedBy call := by
  have hnone : ∀ {streamId raws},
      request serde call = .ok (.insert streamId .noVersioning raws) → False := by
    intro streamId raws hr
    obtain ⟨v, hversioning, -⟩ := (hportable _ hr).numbered
    cases hversioning
  cases call with
  | append first events streamId expected =>
    cases expected with
    | version v => exact ⟨v, rfl⟩
    | noVersioning =>
      obtain ⟨raws, hraws, -⟩ := roundTrip_many (hserde streamId) (first :: events)
      exact (hnone (map_eq_ok.2 ⟨raws, hraws, rfl⟩)).elim
  | appendEvents first events streamId expected =>
    cases expected with
    | version v => exact ⟨v, rfl⟩
    | noVersioning =>
      obtain ⟨raws, hraws, -⟩ := roundTrip_many (hserde streamId)
        (wrapEvents .noVersioning 0 (first :: events))
      exact (hnone (map_eq_ok.2 ⟨raws, hraws, rfl⟩)).elim
  | _ => cases happends

theorem keepNext_of_appends {call : Call E} (h : call.Appends) (past : List (WrappedEvent E)) :
    keepNext streamId past call =
      if place call.streamId = place streamId then past ++ appendedBy call else past := by
  cases call with
  | append first events other expected => rfl
  | appendEvents first events other expected => rfl
  | _ => cases h

/-- A portable call keeps the events that were read, with those that it appends behind them. -/
theorem reference_step (hserde : ∀ streamId event, RoundTrips serde streamId event)
    {deletes : Prop} {books : Books} {call : Call E}
    (hportable : PortableCall serde deletes books call) {past : List (WrappedEvent E)}
    (hpast : serde.deserializeMany (books.events streamId) = .ok past) :
    let r := (reference serde).call books call
    serde.deserializeMany (r.2.events streamId) =
      .ok (if r.1.isOk then keepNext streamId past call else past) := by
  intro r
  have hwritten : ∀ (call : Call E) (events : List RawEvent) (new : List (WrappedEvent E)),
      (place call.streamId = place streamId → serde.deserializeMany events = .ok new) →
      serde.deserializeMany ((books.write call.streamId events).events streamId) =
        .ok (if place call.streamId = place streamId then new else past) := by
    intro call events new hnew
    by_cases hplace : place call.streamId = place streamId
    · rw [if_pos hplace, events_write_of_eq hplace.symm, hnew hplace]
    · rw [if_neg hplace, Books.events, write_of_ne (Ne.symm hplace)]
      exact hpast
  by_cases happends : call.Appends
  · obtain ⟨v, hv⟩ := exists_expected hserde happends hportable
    obtain ⟨raws, hraws, hread⟩ := roundTrip_many (hserde call.streamId) (appendedBy call)
    have hr : r = _ := reference_append hv hraws books
    rw [hr, keepNext_of_appends happends]
    split
    · refine hwritten call _ _ fun hplace => deserializeMany_append ?_ hread
      rw [Books.events, hplace]
      exact hpast
    · exact hpast
  · cases call with
    | append first events other expected => exact absurd trivial happends
    | appendEvents first events other expected => exact absurd trivial happends
    | loadStream other start stop =>
      refine hpast.trans ?_
      simp [keepNext, appendedBy]
    | saveSnapshot other snapshot =>
      cases hsnapshot : serde.serialize other snapshot with
      | ok raw => exact (hportable _ (map_eq_ok.2 ⟨raw, hsnapshot, rfl⟩)).elim
      | error e =>
        have hr : r = (.error (.serde e), books) := by
          simp only [r, call_eq, request, reference, hsnapshot]
          rfl
        rw [hr]
        exact hpast
    | deleteStream other => exact hwritten (.deleteStream other) [] [] fun _ => rfl

/-- What the reference has of the streams after a portable run. -/
theorem reference_kept (hserde : ∀ streamId event, RoundTrips serde streamId event)
    {deletes : Prop} {calls : List (Call E)} (hportable : PortableRun serde deletes calls) :
    let r := run (reference serde).call {} calls
    r.2.Numbered ∧ ∀ streamId,
      serde.deserializeMany (r.2.events streamId) = .ok (kept streamId (calls.zip r.1)) := by
  refine run_history (P := fun past books => books.Numbered ∧ ∀ streamId,
    serde.deserializeMany (books.events streamId) = .ok (kept streamId past))
    (fun past books call hpast hok => ⟨hpast.1.call hok, fun streamId => ?_⟩)
    ⟨fun _ => trivial, fun _ => rfl⟩ calls hportable
  rw [kept_concat]
  exact reference_step hserde hok (hpast.2 streamId)

/-- A load gives all events of the stream. -/
theorem reference_load {books : Books} (hnumbered : books.Numbered) {past : List (WrappedEvent E)}
    (hpast : serde.deserializeMany (books.events streamId) = .ok past) :
    (reference serde).loadStream streamId none none books = .ok past := by
  refine bind_eq_ok.2 ⟨books.events streamId, ?_, mapError_eq_ok.2 hpast⟩
  refine congrArg Except.ok ?_
  rw [hnumbered.fetchEvents_eq, selectFrom_none]

theorem version_eq_length {books : Books} {past : List (WrappedEvent E)}
    (h : serde.deserializeMany (books.events streamId) = .ok past) :
    books.version streamId = past.length := by
  rw [Books.version, (mapM_eq_ok_iff.1 h).length_eq]

end Contract

section Portable
open JsonText (WellFormed WellFormedFields)
open InMemoryRanges (wrapEvents_consecutive)
open Projector (CountsFrom countsFrom_iff)
open Kurrent (Unreserved)
variable {E : Type} {serde : Serde E} {streamId : StreamId} {deletes : Prop} {books : Books} {v : ℤ}

/-- What comes with the event is stored as JSON and read back on every backend. -/
structure Storable (event : WrappedEvent E) : Prop where
  context : WellFormed (.obj event.context)
  keys : Unreserved event.context
  createdAt : Texts.InRange event.createdAt

theorem mem_wrapEvents {expected : ExpectedVersion} {i : ℕ} {events : List (BareEvent E)}
    {event : WrappedEvent E} (h : event ∈ wrapEvents expected i events) : ∃ bare ∈ events,
      event.createdAt = bare.createdAt ∧ event.context = defaultContext := by
  induction events generalizing i with
  | nil => cases h
  | cons bare events ih =>
    rcases List.mem_cons.1 h with rfl | h
    · exact ⟨bare, List.mem_cons_self, rfl, rfl⟩
    · obtain ⟨other, hother, hsame⟩ := ih h
      exact ⟨other, List.mem_cons_of_mem _ hother, hsame⟩

/-- An append of numbered events to a plain stream is portable, if the events can be stored and
read back, their uuids are new, and 0 is expected of a new stream only. -/
theorem portable_append {first : WrappedEvent E} {events : List (WrappedEvent E)}
    (hplain : Plain streamId) (hserde : ∀ event, RoundTrips serde streamId event)
    (hdata : ∀ event data, serde.encrypt event streamId = .ok data → WellFormed (.obj data))
    (hcounts : CountsFrom (v + 1) (first :: events))
    (hstorable : ∀ event ∈ first :: events, Storable event)
    (hzero : v = 0 → books.events streamId = [])
    (hdistinct : ((first :: events).map (·.uuid)).Nodup)
    (hfresh : ∀ uuid ∈ (first :: events).map (·.uuid), uuid ∉ books.uuids) :
    PortableCall serde deletes books (.append first events streamId (.version v)) := by
  intro r hr
  obtain ⟨raws, hraws, rfl⟩ := map_eq_ok.1 hr
  have huuids : raws.map (·.uuid) = (first :: events).map (·.uuid) := serde.serializeMany_uuid hraws
  have hlength : raws.length = events.length + 1 := by
    rw [← List.length_map RawEvent.uuid, huuids, List.length_map, List.length_cons]
  have hlast : ((first :: events).getLast (by simp)).version = some (v + raws.length) := by
    have hversion := hcounts.getLast?_version
    rw [List.getLast?_eq_some_getLast (by simp), Option.bind_some] at hversion
    rw [hversion, hlength]
    push_cast
    ring_nf
  refine ⟨hplain, ⟨v, ?_, ?_, hzero⟩, huuids ▸ hdistinct, fun raw hraw => ?_, fun raw hraw => ?_,
    ?_⟩
  · rw [EventStore.versioning, hlast]
  · exact (countsFrom_iff.1 hcounts).of_map (serde.serializeMany_version hraws)
  · exact hfresh raw.uuid (huuids ▸ List.mem_map_of_mem hraw)
  · obtain ⟨event, hevent, hserialize⟩ := mem_of_mapM hraws hraw
    obtain ⟨name, -, hserialize⟩ := bind_eq_ok.1 hserialize
    obtain ⟨data, hencrypt, hserialize⟩ := bind_eq_ok.1 hserialize
    cases hserialize
    obtain ⟨hcontext, hkeys, htime⟩ := hstorable event hevent
    exact ⟨⟨hdata _ _ hencrypt, hcontext, htime⟩, hkeys⟩
  · obtain ⟨raws', hraws', hread⟩ := roundTrip_many hserde (first :: events)
    cases hraws'.symm.trans hraws
    exact ⟨_, hread⟩

/-- So is an append of bare events, which are numbered on from the expected version. -/
theorem portable_appendEvents {first : BareEvent E} {events : List (BareEvent E)}
    (hplain : Plain streamId) (hserde : ∀ event, RoundTrips serde streamId event)
    (hdata : ∀ event data, serde.encrypt event streamId = .ok data → WellFormed (.obj data))
    (htimes : ∀ bare ∈ first :: events, Texts.InRange bare.createdAt)
    (hzero : v = 0 → books.events streamId = [])
    (hdistinct : ((first :: events).map (·.uuid)).Nodup)
    (hfresh : ∀ uuid ∈ (first :: events).map (·.uuid), uuid ∉ books.uuids) :
    PortableCall serde deletes books (.appendEvents first events streamId (.version v)) := by
  have huuids := EventStore.wrapEvents_uuid (.version v) 0 (first :: events)
  have hcounts := wrapEvents_consecutive v 0 (first :: events)
  rw [Int.natCast_zero, Int.add_zero, ← countsFrom_iff] at hcounts
  refine portable_append hplain hserde hdata hcounts (fun event hevent => ?_) hzero
    (huuids ▸ hdistinct) fun uuid huuid => hfresh uuid (huuids ▸ huuid)
  obtain ⟨bare, hbare, htime, hcontext⟩ :=
    @mem_wrapEvents E (.version v) 0 (first :: events) event hevent
  refine ⟨?_, ?_, htime ▸ htimes bare hbare⟩
  · simp [hcontext, defaultContext, WellFormed, WellFormedFields]
  · rw [hcontext]
    decide

end Portable

section Example
open JsonText (WellFormed WellFormedFields)

def openOrder : Call Unit := .appendEvents ⟨(), 1, 0⟩ [⟨(), 2, 0⟩] order (.version 0)

/-- It is stale after the first append, which is of two events. -/
def staleOrder : Call Unit := .appendEvents ⟨(), 3, 0⟩ [] order (.version 1)

def orderBackend : Backend Unit := .kurrentdb ⟨""⟩

theorem orderBackend_serves : orderBackend.Serves plainSerde := by
  change '-' ∉ "".toList
  decide

theorem plain_order : Plain order := ⟨rfl, by decide, by decide⟩

theorem portable_order {books : Books} {first : BareEvent Unit} {events : List (BareEvent Unit)}
    {v : ℤ} (htimes : ∀ bare ∈ first :: events, bare.createdAt = 0)
    (hzero : v = 0 → books.events order = [])
    (hdistinct : ((first :: events).map (·.uuid)).Nodup)
    (hfresh : ∀ uuid ∈ (first :: events).map (·.uuid), uuid ∉ books.uuids) :
    PortableCall plainSerde False books (.appendEvents first events order (.version v)) := by
  refine portable_appendEvents plain_order (fun event => ⟨"Event", [], rfl, rfl, rfl⟩)
    (fun event data hdata => ?_) (fun bare hbare => ?_) hzero hdistinct hfresh
  · cases hdata
    simp [WellFormed, WellFormedFields]
  · rw [htimes bare hbare]
    decide +kernel

theorem staleOrder_portable : PortableRun plainSerde False [openOrder, staleOrder] := by
  refine ⟨?_, ?_, trivial⟩
  · exact portable_order (by simp) (fun _ => rfl) (by simp) (by simp)
  · refine portable_order (by simp) (fun h => by cases h) (by simp) fun uuid huuid => ?_
    rw [List.mem_singleton.1 huuid]
    change ¬ (3 : Uuid) ∈ [1, 2]
    decide +kernel

end Example

end EventSourcery.Conformance
