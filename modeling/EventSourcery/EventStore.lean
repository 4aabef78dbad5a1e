import EventSourcery.Dto
import EventSourcery.Runs

/-!
# Versioning, serialization and the event store

`EventStore` is generic in the storage strategy, a record of functions over the
backend's state. A call that raises still leaves the state the strategy left:
rollback is a wrapper of its own (`StorageStrategy.transactional`). Serialization
is a parameter: the registry's name for a type, encryption with the dump of the
event, and decryption with the construction of the event, each of which can raise.

Every call makes one request to the strategy at most, so what is shown of a
strategy's requests carries over to the calls of the store (`call_eq`).
-/
namespace EventSourcery

inductive Versioning where
  | noVersioning
  | explicit (expectedVersion : ℤ) (initialVersion : Option ℤ)
  deriving DecidableEq

namespace Versioning

def initialVersion : Versioning → Option ℤ
  | noVersioning => none
  | explicit _ initial => initial

def expectedVersion : Versioning → Option ℤ
  | noVersioning => none
  | explicit expected _ => some expected

def validateIfCompatible : Versioning → Option ℤ → Except Error Unit
  | noVersioning, some _ => .error .noExpectedVersionGivenOnVersionedStream
  | explicit _ _, none => .error .expectedVersionUsedOnVersionlessStream
  | _, _ => .ok ()

/-- The expected version the backends compare with the stream's: none without
versioning, and none for 0, which Python takes for false. -/
def compared : Versioning → Option ℤ
  | noVersioning => none
  | explicit expected _ => if expected = 0 then none else some expected

end Versioning

/-- A fallible function succeeds on a list with its results on the elements. -/
theorem mapM_eq_ok_iff {α β ε : Type} {f : α → Except ε β} {as : List α} {bs : List β} :
    as.mapM f = .ok bs ↔ List.Forall₂ (fun a b => f a = .ok b) as bs := by
  constructor
  · intro h
    induction as generalizing bs with
    | nil =>
      cases h
      exact .nil
    | cons a as ih =>
      rw [List.mapM_cons] at h
      obtain ⟨b, hb, h⟩ := bind_eq_ok.1 h
      obtain ⟨rest, hrest, h⟩ := bind_eq_ok.1 h
      cases h
      exact .cons hb (ih hrest)
  · intro h
    induction h with
    | nil => rfl
    | cons hb _ ih =>
      rw [List.mapM_cons, hb, ih]
      rfl

/-- What a fallible function carries over from each element, it carries over from a list. -/
theorem map_of_mapM {α β γ ε : Type} {f : α → Except ε β} {p : β → γ} {q : α → γ}
    (hpq : ∀ a b, f a = .ok b → p b = q a) {as : List α} {bs : List β}
    (h : as.mapM f = .ok bs) : bs.map p = as.map q := by
  rw [mapM_eq_ok_iff] at h
  induction h with
  | nil => rfl
  | cons hb _ ih => rw [List.map_cons, List.map_cons, hpq _ _ hb, ih]

/-- A result comes from an element. -/
theorem mem_of_mapM {α β ε : Type} {f : α → Except ε β} {as : List α} {bs : List β} {b : β}
    (h : as.mapM f = .ok bs) (hb : b ∈ bs) : ∃ a ∈ as, f a = .ok b := by
  rw [mapM_eq_ok_iff] at h
  induction h with
  | nil => cases hb
  | cons hfirst _ ih =>
    rcases List.mem_cons.1 hb with rfl | hb
    · exact ⟨_, List.mem_cons_self, hfirst⟩
    · obtain ⟨a', ha', hresult⟩ := ih hb
      exact ⟨a', List.mem_cons_of_mem _ ha', hresult⟩

/-- A fallible function that succeeds on a list does on each element. -/
theorem exists_of_mapM {α β ε : Type} {f : α → Except ε β} {as : List α} {bs : List β} {a : α}
    (h : as.mapM f = .ok bs) (ha : a ∈ as) : ∃ b, f a = .ok b := by
  rw [mapM_eq_ok_iff] at h
  induction h with
  | nil => cases ha
  | cons hfirst _ ih =>
    rcases List.mem_cons.1 ha with rfl | ha
    · exact ⟨_, hfirst⟩
    · exact ih ha

/-- A fallible function succeeds on a list when it does on each element. -/
theorem exists_mapM {α β ε : Type} {f : α → Except ε β} {as : List α}
    (h : ∀ a ∈ as, ∃ b, f a = .ok b) : ∃ bs, as.mapM f = .ok bs := by
  induction as with
  | nil => exact ⟨[], rfl⟩
  | cons a as ih =>
    obtain ⟨b, hb⟩ := h a List.mem_cons_self
    obtain ⟨bs, hbs⟩ := ih fun a' ha' => h a' (List.mem_cons_of_mem _ ha')
    exact ⟨b :: bs, by rw [List.mapM_cons, hb, hbs]; rfl⟩

/-- `Serde` with its registry and encryption: `construct` looks the type up by
its name, decrypts and builds the event. -/
structure Serde (E : Type) where
  nameForType : E → Except SerdeError String
  encrypt : E → StreamId → Except SerdeError Dict
  construct : String → Dict → StreamId → Except SerdeError E

namespace Serde
variable {E : Type} (serde : Serde E)

def serialize (streamId : StreamId) (event : WrappedEvent E) : Except SerdeError RawEvent := do
  let name ← serde.nameForType event.event
  let data ← serde.encrypt event.event streamId
  return { uuid := event.uuid, streamId, createdAt := event.createdAt, name, data
           context := event.context, version := event.version }

def serializeMany (events : List (WrappedEvent E)) (streamId : StreamId) :
    Except SerdeError (List RawEvent) := events.mapM (serde.serialize streamId)

/-- What a serialized event keeps of the wrapped one. -/
theorem serialize_eq_ok {streamId : StreamId} {event : WrappedEvent E} {raw : RawEvent}
    (h : serde.serialize streamId event = .ok raw) :
    raw.streamId = streamId ∧ raw.version = event.version ∧ raw.uuid = event.uuid := by
  obtain ⟨name, -, h⟩ := bind_eq_ok.1 h
  obtain ⟨data, -, h⟩ := bind_eq_ok.1 h
  cases h
  exact ⟨rfl, rfl, rfl⟩

theorem serializeMany_streamId {events : List (WrappedEvent E)} {streamId : StreamId}
    {raws : List RawEvent} (h : serde.serializeMany events streamId = .ok raws) :
    ∀ raw ∈ raws, raw.streamId = streamId := by
  have hmap : raws.map (·.streamId) = events.map fun _ => streamId :=
    map_of_mapM (fun _ _ hraw => (serde.serialize_eq_ok hraw).1) h
  intro raw hraw
  have hmem := List.mem_map_of_mem (f := (·.streamId)) hraw
  rw [hmap] at hmem
  exact List.eq_of_mem_map_const hmem

theorem serializeMany_version {events : List (WrappedEvent E)} {streamId : StreamId}
    {raws : List RawEvent} (h : serde.serializeMany events streamId = .ok raws) :
    raws.map (·.version) = events.map (·.version) :=
  map_of_mapM (fun _ _ hraw => (serde.serialize_eq_ok hraw).2.1) h

theorem serializeMany_uuid {events : List (WrappedEvent E)} {streamId : StreamId}
    {raws : List RawEvent} (h : serde.serializeMany events streamId = .ok raws) :
    raws.map (·.uuid) = events.map (·.uuid) :=
  map_of_mapM (fun _ _ hraw => (serde.serialize_eq_ok hraw).2.2) h

def deserialize (event : RawEvent) : Except SerdeError (WrappedEvent E) := do
  let built ← serde.construct event.name event.data event.streamId
  return { event := built, version := event.version, uuid := event.uuid
           createdAt := event.createdAt, context := event.context }

theorem deserialize_version {raw : RawEvent} {event : WrappedEvent E}
    (h : serde.deserialize raw = .ok event) : event.version = raw.version := by
  obtain ⟨built, -, h⟩ := bind_eq_ok.1 h
  cases h
  rfl

theorem deserialize_uuid {raw : RawEvent} {event : WrappedEvent E}
    (h : serde.deserialize raw = .ok event) : event.uuid = raw.uuid := by
  obtain ⟨built, -, h⟩ := bind_eq_ok.1 h
  cases h
  rfl

def deserializeMany (events : List RawEvent) : Except SerdeError (List (WrappedEvent E)) :=
  events.mapM serde.deserialize

theorem deserializeMany_version {raws : List RawEvent} {events : List (WrappedEvent E)}
    (h : serde.deserializeMany raws = .ok events) :
    events.map (·.version) = raws.map (·.version) :=
  map_of_mapM (fun _ _ hevent => serde.deserialize_version hevent) h

theorem deserializeMany_uuid {raws : List RawEvent} {events : List (WrappedEvent E)}
    (h : serde.deserializeMany raws = .ok events) : events.map (·.uuid) = raws.map (·.uuid) :=
  map_of_mapM (fun _ _ hevent => serde.deserialize_uuid hevent) h

def deserializeRecord (record : RecordedRaw) : Except SerdeError (Recorded E) := do
  let wrappedEvent ← serde.deserialize record.entry
  return { wrappedEvent, streamId := record.entry.streamId, position := record.position
           tenantId := record.tenantId }

/-- Whether new events can all be read back. -/
def accept (events : List RawEvent) : Except Error Unit :=
  ((serde.deserializeMany events).mapError .serde).map fun _ => ()

end Serde

/-- `Dispatcher` with its listeners: those registered for the type or the category
of a record. A listener's own calls to a store are further calls of the run. -/
structure Dispatcher (E : Type) where
  serde : Serde E
  listeners : Recorded E → List (Recorded E → Except Error Unit)

namespace Dispatcher
variable {E : Type} (dispatcher : Dispatcher E)

/-- What the listeners answer to a record, one after the other. -/
def notify (record : Recorded E) : Except Error Unit :=
  (dispatcher.listeners record).forM fun listener => listener record

def dispatch : List RecordedRaw → Except Error Unit
  | [] => .ok ()
  | raw :: raws => do
    let record ← (dispatcher.serde.deserializeRecord raw).mapError .serde
    dispatcher.notify record
    dispatch raws

/-- No listener raises. -/
def Quiet : Prop := ∀ record, ∀ listener ∈ dispatcher.listeners record, listener record = .ok ()

/-- Whether the listeners raise does not depend on the positions of records. -/
def PositionBlind : Prop :=
  ∀ record position, dispatcher.notify { record with position } = dispatcher.notify record

/-- The answer of a dispatch of new events of a tenant, their positions apart. -/
def accept (t : TenantId) (events : List RawEvent) : Except Error Unit :=
  dispatcher.dispatch (events.map fun entry => { entry, position := 0, tenantId := t })

theorem notify_of_quiet {dispatcher : Dispatcher E} (quiet : dispatcher.Quiet)
    (record : Recorded E) : dispatcher.notify record = .ok () := by
  have hquiet := quiet record
  unfold notify
  revert hquiet
  generalize dispatcher.listeners record = listeners
  intro hquiet
  induction listeners with
  | nil => rfl
  | cons listener listeners ih =>
    simp only [List.forM, hquiet listener (by simp)]
    exact ih fun l hl => hquiet l (by simp [hl])

theorem Quiet.positionBlind {dispatcher : Dispatcher E} (quiet : dispatcher.Quiet) :
    dispatcher.PositionBlind := fun record position => by
  rw [notify_of_quiet quiet, notify_of_quiet quiet]

theorem dispatch_of_positionBlind {dispatcher : Dispatcher E} (blind : dispatcher.PositionBlind)
    {t : TenantId} {raws : List RecordedRaw} (ht : ∀ raw ∈ raws, raw.tenantId = t) :
    dispatcher.dispatch raws = dispatcher.accept t (raws.map (·.entry)) := by
  unfold accept
  induction raws with
  | nil => rfl
  | cons raw raws ih =>
    have hraw := ht raw (by simp)
    simp only [dispatch, List.map_cons, ← ih fun r hr => ht r (by simp [hr]),
      Serde.deserializeRecord]
    cases dispatcher.serde.deserialize raw.entry with
    | error e => rfl
    | ok event =>
      have hnotify := blind ⟨event, raw.entry.streamId, raw.position, raw.tenantId⟩ 0
      rw [hraw] at hnotify
      simp only [bind, Except.bind, pure, Except.pure, Except.mapError, hraw]
      rw [hnotify]

/-- A dispatch to quiet listeners raises only when a record cannot be read back. -/
theorem accept_of_quiet {dispatcher : Dispatcher E} (quiet : dispatcher.Quiet) (t : TenantId)
    (events : List RawEvent) : dispatcher.accept t events = dispatcher.serde.accept events := by
  unfold accept Serde.accept
  induction events with
  | nil => rfl
  | cons raw events ih =>
    simp only [List.map_cons, dispatch, ih, Serde.deserializeRecord, Serde.deserializeMany,
      List.mapM_cons]
    cases dispatcher.serde.deserialize raw with
    | error e => rfl
    | ok event =>
      have hnotify := notify_of_quiet quiet ⟨event, raw.streamId, 0, t⟩
      simp only [bind, Except.bind, pure, Except.pure, Except.mapError]
      rw [hnotify]
      cases events.mapM dispatcher.serde.deserialize <;> rfl

end Dispatcher

/-- The `expected_version` argument of `append`. -/
inductive ExpectedVersion where
  | version (v : ℤ)
  | noVersioning
  deriving DecidableEq

/-- A bare event, with the uuid and the time that wrapping it will draw. -/
structure BareEvent (E : Type) where
  event : E
  uuid : Uuid
  createdAt : Timestamp
  deriving DecidableEq

def ExpectedVersion.versionAt (expected : ExpectedVersion) (index : ℕ) : Option ℤ :=
  match expected with
  | version v => some (v + 1 + index)
  | noVersioning => none

def BareEvent.wrap {E : Type} (bare : BareEvent E) (version : Option ℤ) : WrappedEvent E :=
  WrappedEvent.wrap bare.event bare.uuid bare.createdAt version

/-- `_wrap_events` from the given index on. -/
def wrapEvents {E : Type} (expected : ExpectedVersion) :
    ℕ → List (BareEvent E) → List (WrappedEvent E)
  | _, [] => []
  | i, bare :: events => bare.wrap (expected.versionAt i) :: wrapEvents expected (i + 1) events

structure StorageStrategy (σ : Type) where
  fetchEvents : StreamId → Option ℤ → Option ℤ → σ → Except Error (List RawEvent)
  insertEvents : StreamId → Versioning → List RawEvent → σ → Except Error Unit × σ
  saveSnapshot : RawEvent → σ → Except Error Unit × σ
  deleteStream : StreamId → σ → Except Error Unit × σ

structure EventStore (E σ : Type) where
  storageStrategy : StorageStrategy σ
  serde : Serde E

/-- A call to the event store. Appended events are a first one and the rest, so
there is at least one. -/
inductive Call (E : Type) where
  | append (first : WrappedEvent E) (events : List (WrappedEvent E)) (streamId : StreamId)
      (expected : ExpectedVersion)
  | appendEvents (first : BareEvent E) (events : List (BareEvent E)) (streamId : StreamId)
      (expected : ExpectedVersion)
  | loadStream (streamId : StreamId) (start stop : Option ℤ)
  | saveSnapshot (streamId : StreamId) (snapshot : WrappedEvent E)
  | deleteStream (streamId : StreamId)

def Call.streamId {E : Type} : Call E → StreamId
  | append _ _ streamId _ => streamId
  | appendEvents _ _ streamId _ => streamId
  | loadStream streamId _ _ => streamId
  | saveSnapshot streamId _ => streamId
  | deleteStream streamId => streamId

/-- The uuids of the events and snapshots that a call may write. -/
def Call.uuids {E : Type} : Call E → List Uuid
  | .append first events _ _ => first.uuid :: events.map (·.uuid)
  | .appendEvents first events _ _ => first.uuid :: events.map (·.uuid)
  | .saveSnapshot _ snapshot => [snapshot.uuid]
  | _ => []

/-- The call is an append, of wrapped or of bare events. -/
def Call.Appends {E : Type} : Call E → Prop
  | .append _ _ _ _ => True
  | .appendEvents _ _ _ _ => True
  | _ => False

namespace EventStore
variable {E σ : Type} (store : EventStore E σ)

def loadStream (streamId : StreamId) (start stop : Option ℤ) (s : σ) :
    Except Error (List (WrappedEvent E)) :=
  (store.storageStrategy.fetchEvents streamId start stop s).bind fun raws =>
    (store.serde.deserializeMany raws).mapError .serde

/-- The versioning that `_append` makes of the expected version and the last event. -/
def versioning (first : WrappedEvent E) (events : List (WrappedEvent E)) :
    ExpectedVersion → Versioning
  | .version v => .explicit v ((first :: events).getLast (by simp)).version
  | .noVersioning => .noVersioning

def append (first : WrappedEvent E) (events : List (WrappedEvent E)) (streamId : StreamId)
    (expected : ExpectedVersion) (s : σ) : Except Error Unit × σ :=
  match store.serde.serializeMany (first :: events) streamId with
  | .error e => (.error (.serde e), s)
  | .ok raws =>
      store.storageStrategy.insertEvents streamId (versioning first events expected) raws s

def appendEvents (first : BareEvent E) (events : List (BareEvent E)) (streamId : StreamId)
    (expected : ExpectedVersion) (s : σ) : Except Error Unit × σ :=
  store.append (first.wrap (expected.versionAt 0)) (wrapEvents expected 1 events) streamId expected
    s

def deleteStream (streamId : StreamId) (s : σ) : Except Error Unit × σ :=
  store.storageStrategy.deleteStream streamId s

def saveSnapshot (streamId : StreamId) (snapshot : WrappedEvent E) (s : σ) :
    Except Error Unit × σ :=
  match store.serde.serialize streamId snapshot with
  | .error e => (.error (.serde e), s)
  | .ok raw => store.storageStrategy.saveSnapshot raw s

/-- The answer to a call: the loaded events, none for a call that loads nothing,
or the exception it raised. -/
abbrev Answer (E : Type) := Except Error (List (WrappedEvent E))

def answered (r : Except Error Unit × σ) : Answer E × σ := (r.1.map fun _ => [], r.2)

def call (s : σ) : Call E → Answer E × σ
  | .append first events streamId expected =>
      answered (store.append first events streamId expected s)
  | .appendEvents first events streamId expected =>
      answered (store.appendEvents first events streamId expected s)
  | .loadStream streamId start stop => (store.loadStream streamId start stop s, s)
  | .saveSnapshot streamId snapshot => answered (store.saveSnapshot streamId snapshot s)
  | .deleteStream streamId => answered (store.deleteStream streamId s)

end EventStore

/-- What a call asks of the storage strategy. -/
inductive Request where
  | fetch (streamId : StreamId) (start stop : Option ℤ)
  | insert (streamId : StreamId) (versioning : Versioning) (events : List RawEvent)
  | snapshot (raw : RawEvent)
  | delete (streamId : StreamId)

/-- The stream a request may change. -/
def Request.writes : Request → Option StreamId
  | .fetch _ _ _ => none
  | .insert streamId _ _ => some streamId
  | .snapshot raw => some raw.streamId
  | .delete streamId => some streamId

def Request.uuids : Request → List Uuid
  | .insert _ _ events => events.map (·.uuid)
  | .snapshot raw => [raw.uuid]
  | _ => []

/-- The events of an insert belong to the stream it names, and there is at least one. -/
def Request.Proper : Request → Prop
  | .insert streamId _ events => events ≠ [] ∧ ∀ raw ∈ events, raw.streamId = streamId
  | _ => True

namespace StorageStrategy
variable {σ : Type} (strategy : StorageStrategy σ)

def handle (s : σ) : Request → Except Error (List RawEvent) × σ
  | .fetch streamId start stop => (strategy.fetchEvents streamId start stop s, s)
  | .insert streamId versioning events =>
      let r := strategy.insertEvents streamId versioning events s
      (r.1.map fun _ => [], r.2)
  | .snapshot raw =>
      let r := strategy.saveSnapshot raw s
      (r.1.map fun _ => [], r.2)
  | .delete streamId =>
      let r := strategy.deleteStream streamId s
      (r.1.map fun _ => [], r.2)

/-- Undo what a call that raised has written. `rollback before after` is the
state that the database returns to. -/
def undo {α : Type} (rollback : σ → σ → σ) (s : σ) (r : Except Error α × σ) : Except Error α × σ :=
  match r.1 with
  | .error e => (.error e, rollback s r.2)
  | .ok a => (.ok a, r.2)

@[simp] theorem undo_answer {α : Type} (rollback : σ → σ → σ) (s : σ)
    (r : Except Error α × σ) : (undo rollback s r).1 = r.1 := by
  obtain ⟨answer, after⟩ := r
  cases answer <;> rfl

/-- The strategy with every request in a transaction of its own, rolled back when it raises. -/
def transactional (rollback : σ → σ → σ) : StorageStrategy σ where
  fetchEvents := strategy.fetchEvents
  insertEvents streamId versioning events s :=
    undo rollback s (strategy.insertEvents streamId versioning events s)
  saveSnapshot raw s := undo rollback s (strategy.saveSnapshot raw s)
  deleteStream streamId s := undo rollback s (strategy.deleteStream streamId s)

end StorageStrategy

namespace EventStore
variable {E σ : Type}

/-- The request a call makes, or the exception that serialization raises first. -/
def request (serde : Serde E) : Call E → Except SerdeError Request
  | .append first events streamId expected =>
      (serde.serializeMany (first :: events) streamId).map
        (.insert streamId (versioning first events expected))
  | .appendEvents first events streamId expected =>
      (serde.serializeMany (first.wrap (expected.versionAt 0) :: wrapEvents expected 1 events)
        streamId).map
        (.insert streamId
          (versioning (first.wrap (expected.versionAt 0)) (wrapEvents expected 1 events) expected))
  | .loadStream streamId start stop => .ok (.fetch streamId start stop)
  | .saveSnapshot streamId snapshot => (serde.serialize streamId snapshot).map .snapshot
  | .deleteStream streamId => .ok (.delete streamId)

theorem request_append_proper {serde : Serde E} {events : List (WrappedEvent E)}
    {streamId : StreamId} {versioning : Versioning} {r : Request} (hne : events ≠ [])
    (h : (serde.serializeMany events streamId).map (.insert streamId versioning) = .ok r) :
    r.Proper := by
  obtain ⟨raws, hraws, rfl⟩ := map_eq_ok.1 h
  refine ⟨?_, serde.serializeMany_streamId hraws⟩
  rintro rfl
  exact hne (List.map_eq_nil_iff.1 (serde.serializeMany_version hraws).symm)

theorem request_proper {serde : Serde E} {c : Call E} {r : Request}
    (h : request serde c = .ok r) : r.Proper := by
  cases c with
  | append first events streamId expected => exact request_append_proper (by simp) h
  | appendEvents first events streamId expected => exact request_append_proper (by simp) h
  | loadStream streamId start stop => cases h; trivial
  | saveSnapshot streamId snapshot =>
    obtain ⟨raw, -, rfl⟩ := map_eq_ok.1 h
    trivial
  | deleteStream streamId => cases h; trivial

/-- A call writes to no other stream than its own. -/
theorem request_writes {serde : Serde E} {c : Call E} {r : Request}
    (h : request serde c = .ok r) : ∀ streamId ∈ r.writes, streamId = c.streamId := by
  intro streamId hwrites
  cases c with
  | append first events target expected =>
    obtain ⟨_, -, rfl⟩ := map_eq_ok.1 h
    exact (Option.some.inj hwrites).symm
  | appendEvents first events target expected =>
    obtain ⟨_, -, rfl⟩ := map_eq_ok.1 h
    exact (Option.some.inj hwrites).symm
  | loadStream target start stop =>
    cases h
    cases hwrites
  | saveSnapshot target snapshot =>
    obtain ⟨raw, hraw, rfl⟩ := map_eq_ok.1 h
    exact (Option.some.inj hwrites).symm.trans (serde.serialize_eq_ok hraw).1
  | deleteStream target =>
    cases h
    exact (Option.some.inj hwrites).symm

theorem request_delete {serde : Serde E} {call : Call E} {streamId : StreamId}
    (h : request serde call = .ok (.delete streamId)) : call = .deleteStream streamId := by
  cases call with
  | deleteStream other =>
    cases h
    rfl
  | loadStream other start stop => cases h
  | append first events other expected =>
    obtain ⟨_, -, h⟩ := map_eq_ok.1 h
    cases h
  | appendEvents first events other expected =>
    obtain ⟨_, -, h⟩ := map_eq_ok.1 h
    cases h
  | saveSnapshot other snapshot =>
    obtain ⟨_, -, h⟩ := map_eq_ok.1 h
    cases h

/-- The request of an append, and the append of the same events without versioning. -/
theorem request_of_appends {serde : Serde E} {call : Call E} {r : Request} (h : call.Appends)
    (hr : request serde call = .ok r) :
    ∃ streamId versioning events, r = .insert streamId versioning events ∧
      ∃ unversioned : Call E,
        request serde unversioned = .ok (.insert streamId .noVersioning events) := by
  cases call with
  | append first events streamId expected =>
    obtain ⟨raws, hraws, rfl⟩ := map_eq_ok.1 hr
    exact ⟨streamId, _, raws, rfl, .append first events streamId .noVersioning,
      map_eq_ok.2 ⟨raws, hraws, rfl⟩⟩
  | appendEvents first events streamId expected =>
    obtain ⟨raws, hraws, rfl⟩ := map_eq_ok.1 hr
    exact ⟨streamId, _, raws, rfl, .append (first.wrap (expected.versionAt 0))
      (wrapEvents expected 1 events) streamId .noVersioning, map_eq_ok.2 ⟨raws, hraws, rfl⟩⟩
  | _ => cases h

theorem wrapEvents_uuid (expected : ExpectedVersion) (i : ℕ) (events : List (BareEvent E)) :
    (wrapEvents expected i events).map (·.uuid) = events.map (·.uuid) := by
  induction events generalizing i with
  | nil => rfl
  | cons bare events ih => simp [wrapEvents, ih, BareEvent.wrap, WrappedEvent.wrap]

theorem request_append_uuids {serde : Serde E} {events : List (WrappedEvent E)}
    {streamId : StreamId} {versioning : Versioning} {r : Request}
    (h : (serde.serializeMany events streamId).map (.insert streamId versioning) = .ok r) :
    r.uuids = events.map (·.uuid) := by
  obtain ⟨raws, hraws, rfl⟩ := map_eq_ok.1 h
  exact serde.serializeMany_uuid hraws

theorem request_uuids {serde : Serde E} {c : Call E} {r : Request}
    (h : request serde c = .ok r) : r.uuids = c.uuids := by
  cases c with
  | append first events streamId expected => simpa [Call.uuids] using request_append_uuids h
  | appendEvents first events streamId expected =>
    simpa [Call.uuids, wrapEvents_uuid, BareEvent.wrap, WrappedEvent.wrap] using
      request_append_uuids h
  | loadStream streamId start stop => cases h; rfl
  | saveSnapshot streamId snapshot =>
    obtain ⟨raw, hraw, rfl⟩ := map_eq_ok.1 h
    simp [Request.uuids, Call.uuids, (serde.serialize_eq_ok hraw).2.2]
  | deleteStream streamId => cases h; rfl

/-- The answer to a call, from what its request gave. -/
def finish (serde : Serde E) (r : Except Error (List RawEvent)) : Answer E :=
  r.bind fun raws => (serde.deserializeMany raws).mapError .serde

@[simp] theorem finish_unit (serde : Serde E) (r : Except Error Unit) :
    finish serde (r.map fun _ => []) = r.map fun _ => [] := by
  cases r <;> rfl

theorem call_eq (store : EventStore E σ) (s : σ) (c : Call E) :
    store.call s c = match request store.serde c with
      | .error e => (.error (.serde e), s)
      | .ok r => (finish store.serde (store.storageStrategy.handle s r).1,
          (store.storageStrategy.handle s r).2) := by
  cases c with
  | append first events streamId expected =>
    simp only [call, append, request]
    cases store.serde.serializeMany (first :: events) streamId with
    | error e => rfl
    | ok raws => exact Prod.ext (finish_unit _ _).symm rfl
  | appendEvents first events streamId expected =>
    simp only [call, appendEvents, append, request]
    cases store.serde.serializeMany
      (first.wrap (expected.versionAt 0) :: wrapEvents expected 1 events) streamId with
    | error e => rfl
    | ok raws => exact Prod.ext (finish_unit _ _).symm rfl
  | loadStream streamId start stop => rfl
  | saveSnapshot streamId snapshot =>
    simp only [call, saveSnapshot, request]
    cases store.serde.serialize streamId snapshot with
    | error e => rfl
    | ok raw => exact Prod.ext (finish_unit _ _).symm rfl
  | deleteStream streamId => exact Prod.ext (finish_unit _ _).symm rfl

end EventStore

end EventSourcery
