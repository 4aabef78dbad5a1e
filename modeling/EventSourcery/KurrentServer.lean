import EventSourcery.KurrentCodec
import EventSourcery.Tenants
import Mathlib.Logic.Function.Basic

/-!
# The KurrentDB server and the whole store

The server keeps the entries of all streams in the order of their commits. A stream has the
entries under its name but for those that were there when it was deleted, and its positions go
on from them. A stream without entries is not found. Event ids are not compared: an entry is
taken to be new. The strategy encodes what it appends and decodes what it reads.
-/
namespace EventSourcery.Kurrent

structure EventLog where
  entries : List RecordedEvent := []
  deleted : String → ℕ := fun _ => 0

namespace EventLog

/-- All entries that were ever written to a stream. -/
def written (name : String) (log : EventLog) : List RecordedEvent :=
  log.entries.filter (·.streamName = name)

def stream (name : String) (log : EventLog) : List RecordedEvent :=
  (log.written name).drop (log.deleted name)

def record (name : String) (entry : NewEvent) (log : EventLog) : EventLog :=
  { log with
    entries := log.entries ++
      [entry.recorded name (log.written name).length (some (log.entries.length + 1))] }

/-- `append_events` with `StreamState.ANY` -/
def append (name : String) : List NewEvent → EventLog → EventLog
  | [], log => log
  | entry :: entries, log => append name entries (log.record name entry)

/-- `delete_stream`; nothing happens to a stream that is not found. -/
def delete (name : String) (log : EventLog) : EventLog :=
  { log with deleted := Function.update log.deleted name (log.written name).length }

/-- `read_stream` from the end with the limit 1; `none` where it is not found. -/
def lastEntry (name : String) (log : EventLog) : Option RecordedEvent := (log.stream name).getLast?

/-- `read_stream`, which sends its position and its limit as unsigned numbers; `none` where
`NotFoundError` is raised while iterating. -/
def readStream (name : String) (position : Option Position) (limit : ℤ) (log : EventLog) :
    Except Error (Option (List RecordedEvent)) :=
  if position.any (· < 0) || limit < 0 then .error .valueError
  else if log.stream name = [] then .ok none
  else
    let entries := (log.stream name).filter fun entry => position.all (· ≤ entry.streamPosition)
    .ok (some (entries.take limit.toNat))

end EventLog

/-- `sys.maxsize` -/
def maxPosition : Position := 9223372036854775807

/-- `stream.scope`: 0 is no version, and the position 0 no end. -/
def scope (startVersion stopVersion : Option ℤ) : Option Position × ℤ :=
  let start := startVersion.map fun v => if v = 0 then 0 else fromVersion v
  let stop := (stopVersion.filter fun v => v ≠ 0 && fromVersion v ≠ 0).elim maxPosition fromVersion
  (start, stop - start.getD 0)

def CodecError.toError : CodecError → Error
  | .typeError => .serde .typeError
  | .keyError => .keyError
  | .valueError => .valueError
  | .name error => error

namespace KurrentServer
open EventStore (request request_delete)
open JsonText (WellFormed WellFormedFields)
open Runs Tenants Texts

variable (strategy : KurrentDBStorageStrategy)

/-- The newest snapshot, beside the entry that it is read from. -/
def readSnapshot (name : Name) (log : EventLog) :
    Except Error (Option (RecordedEvent × RawEvent)) :=
  match log.lastEntry name.snapshot with
  | none => .ok none
  | some entry =>
      ((snapshot entry).map fun raw => some (entry, raw)).mapError CodecError.toError

/-- The snapshot that a load begins with, if it is given no start. -/
def firstSnapshot (name : Name) (start : Option ℤ) (log : EventLog) :
    Except Error (Option (RecordedEvent × RawEvent)) :=
  if start = none then readSnapshot name log else .ok none

/-- The versions that are read behind a snapshot. -/
def rangeAfter (snapshot : Option (RecordedEvent × RawEvent)) (start stop : Option ℤ) :
    Option Position × ℤ :=
  scope (start.or (snapshot.bind fun s => s.2.version.map (· + 1))) stop

/-- What `fetch_events` returns, each event beside the entry that it is read from. -/
def fetchEntries (streamId : StreamId) (start stop : Option ℤ) (log : EventLog) :
    Except Error (List (RecordedEvent × RawEvent)) := do
  let name ← Name.of strategy.tenantId streamId
  let snapshot ← firstSnapshot name start log
  let range := rangeAfter snapshot start stop
  match ← log.readStream name.text range.1 range.2 with
  | none => return []
  | some entries =>
      let events ← entries.mapM fun entry =>
        ((rawEvent entry none).map fun raw => (entry, raw)).mapError CodecError.toError
      return snapshot.toList ++ events

def fetchEvents (streamId : StreamId) (start stop : Option ℤ) (log : EventLog) :
    Except Error (List RawEvent) :=
  (fetchEntries strategy streamId start stop log).map (List.map Prod.snd)

def ensureStream (streamId : StreamId) (versioning : Versioning) (log : EventLog) :
    Except Error Unit := do
  let name ← Name.of strategy.tenantId streamId
  comparePosition versioning ((log.lastEntry name.text).map (·.streamPosition))

/-- `_append_events`; nothing is written when an entry cannot be made. -/
def appendEvents (name : String) (events : List RawEvent) (log : EventLog) :
    Except Error Unit × EventLog :=
  match events.mapM fun raw => newEntry raw [] with
  | .error e => (.error e.toError, log)
  | .ok entries => (.ok (), log.append name entries)

/-- The loop of `insert_events`. -/
def insertEach (versioning : Versioning) (events : List RawEvent) :
    List StreamId → EventLog → Except Error Unit × EventLog
  | [], log => (.ok (), log)
  | streamId :: rest, log =>
      match ensureStream strategy streamId versioning log,
          Name.of strategy.tenantId streamId with
      | .error e, _ => (.error e, log)
      | .ok (), .error e => (.error e, log)
      | .ok (), .ok name =>
          match appendEvents name.text (events.filter fun raw => raw.streamId.eq streamId) log with
          | (.error e, log) => (.error e, log)
          | (.ok (), log) => insertEach versioning events rest log

def insertEvents (versioning : Versioning) (events : List RawEvent) (log : EventLog) :
    Except Error Unit × EventLog :=
  insertEach strategy versioning events (KurrentDBStorageStrategy.streamIds events) log

def saveSnapshot (snapshot : RawEvent) (log : EventLog) : Except Error Unit × EventLog :=
  match Name.of strategy.tenantId snapshot.streamId with
  | .error e => (.error e, log)
  | .ok name =>
      match snapshotEntry snapshot with
      | .error e => (.error e.toError, log)
      | .ok entry => (.ok (), log.append name.snapshot [entry])

def deleteStream (streamId : StreamId) (log : EventLog) : Except Error Unit × EventLog :=
  match Name.of strategy.tenantId streamId with
  | .error e => (.error e, log)
  | .ok name => (.ok (), log.delete name.text)

def storageStrategy : StorageStrategy EventLog where
  fetchEvents := fetchEvents strategy
  insertEvents _ := insertEvents strategy
  saveSnapshot := saveSnapshot strategy
  deleteStream := deleteStream strategy

/-- The event store of each tenant. -/
def stores {E : Type} (serdes : TenantId → Serde E) (t : TenantId) : EventStore E EventLog :=
  ⟨storageStrategy ⟨t⟩, serdes t⟩

/-! ## What is written -/

/-- The commit position of an entry is one more than its index. -/
def Numbered (entries : List RecordedEvent) : Prop :=
  ∀ (i : ℕ) (entry : RecordedEvent), entries[i]? = some entry → entry.commitPosition = some (i + 1)

/-- Entries of a kind are added behind those that are there, and no stream is deleted. -/
structure Grows (kind : RecordedEvent → Prop) (log log' : EventLog) : Prop where
  added : ∃ new, log'.entries = log.entries ++ new ∧ ∀ entry ∈ new, kind entry
  deleted : log'.deleted = log.deleted
  numbered : Numbered log.entries → Numbered log'.entries

section Growth
variable {kind : RecordedEvent → Prop} {log log' log'' : EventLog}

theorem Grows.refl (kind : RecordedEvent → Prop) (log : EventLog) : Grows kind log log :=
  ⟨⟨[], by simp⟩, rfl, id⟩

theorem Grows.trans (h : Grows kind log log') (h' : Grows kind log' log'') :
    Grows kind log log'' := by
  obtain ⟨new, hnew, hkind⟩ := h.added
  obtain ⟨more, hmore, hkind'⟩ := h'.added
  refine ⟨⟨new ++ more, by rw [hmore, hnew, List.append_assoc], ?_⟩,
    h'.deleted.trans h.deleted, h'.numbered ∘ h.numbered⟩
  intro entry hentry
  rcases List.mem_append.1 hentry with hentry | hentry
  · exact hkind entry hentry
  · exact hkind' entry hentry

theorem Grows.mono {kind' : RecordedEvent → Prop} (h : Grows kind log log')
    (hkind : ∀ entry, kind entry → kind' entry) : Grows kind' log log' := by
  obtain ⟨new, hnew, hnewkind⟩ := h.added
  exact ⟨⟨new, hnew, fun entry hentry => hkind entry (hnewkind entry hentry)⟩, h.deleted,
    h.numbered⟩

theorem Numbered.concat {entries : List RecordedEvent} (h : Numbered entries)
    {entry : RecordedEvent} (hentry : entry.commitPosition = some (entries.length + 1)) :
    Numbered (entries ++ [entry]) := by
  intro i other hother
  rw [List.getElem?_append] at hother
  split at hother
  · exact h i other hother
  · rename_i hi
    rw [List.getElem?_singleton] at hother
    split at hother
    · cases hother
      rw [hentry, show entries.length = i by omega]
    · cases hother

theorem grows_record (name : String) (entry : NewEvent) (log : EventLog) :
    Grows (fun e => e.streamName = name ∧ e.toNewEvent = entry) log (log.record name entry) :=
  ⟨⟨_, rfl, by simp [NewEvent.recorded]⟩, rfl, fun h => h.concat rfl⟩

theorem grows_append (name : String) (entries : List NewEvent) (log : EventLog) :
    Grows (fun e => e.streamName = name ∧ e.toNewEvent ∈ entries) log
      (log.append name entries) := by
  induction entries generalizing log with
  | nil => exact .refl _ log
  | cons entry entries ih =>
    refine Grows.trans ((grows_record name entry log).mono fun e he => ?_)
      ((ih (log.record name entry)).mono fun e he => ?_)
    · exact ⟨he.1, he.2 ▸ List.mem_cons_self⟩
    · exact ⟨he.1, List.mem_cons_of_mem _ he.2⟩

end Growth

/-- An entry that an append of the events wrote, in a stream of the tenant. -/
def Appended (t : TenantId) (events : List RawEvent) (entry : RecordedEvent) : Prop :=
  ∃ name : Name, name.tenantId = t ∧ entry.streamName = name.text ∧
    ∃ raw ∈ events, raw.streamId.eq name.uuid ∧ newEntry raw [] = .ok entry.toNewEvent

/-- The entry of a snapshot. -/
def Snapped (t : TenantId) (raw : RawEvent) (entry : RecordedEvent) : Prop :=
  ∃ name : Name, name.tenantId = t ∧ entry.streamName = name.snapshot ∧
    raw.streamId = name.uuid ∧ snapshotEntry raw = .ok entry.toNewEvent

variable {strategy}

theorem appendEvents_grows (name : String) (events : List RawEvent) (log : EventLog) :
    Grows (fun entry => entry.streamName = name ∧
        ∃ raw ∈ events, newEntry raw [] = .ok entry.toNewEvent) log
      (appendEvents name events log).2 := by
  unfold appendEvents
  split
  · exact .refl _ log
  · rename_i entries hentries
    exact (grows_append name entries log).mono fun entry h =>
      ⟨h.1, mem_of_mapM hentries h.2⟩

theorem name_of_eq_ok {t : TenantId} {streamId : StreamId} {name : Name}
    (h : Name.of t streamId = .ok name) : name.tenantId = t ∧ name.uuid = streamId := by
  unfold Name.of at h
  split at h
  · cases h
  · cases h
    exact ⟨rfl, rfl⟩

theorem insertEach_grows (versioning : Versioning) (events : List RawEvent)
    (streamIds : List StreamId) (log : EventLog) :
    Grows (Appended strategy.tenantId events) log
      (insertEach strategy versioning events streamIds log).2 := by
  induction streamIds generalizing log with
  | nil => exact .refl _ log
  | cons streamId rest ih =>
    unfold insertEach
    split
    · exact .refl _ log
    · exact .refl _ log
    · rename_i name _ hname
      obtain ⟨htenant, huuid⟩ := name_of_eq_ok hname
      have hfirst : Grows (Appended strategy.tenantId events) log
          (appendEvents name.text (events.filter fun raw => raw.streamId.eq streamId) log).2 := by
        refine (appendEvents_grows _ _ log).mono ?_
        rintro entry ⟨hstream, raw, hraw, hentry⟩
        obtain ⟨hraw, heq⟩ := List.mem_filter.1 hraw
        exact ⟨name, htenant, hstream, raw, hraw, huuid ▸ heq, hentry⟩
      revert hfirst
      rcases appendEvents name.text _ log with ⟨_ | _, log'⟩
      · exact id
      · exact fun hfirst => hfirst.trans (ih log')

/-- An insert into one stream, as every append of the event store makes. -/
theorem insertEvents_of_one {streamId : StreamId} {events : List RawEvent} (hne : events ≠ [])
    (hstream : ∀ raw ∈ events, raw.streamId = streamId) (versioning : Versioning)
    (log : EventLog) : insertEvents strategy versioning events log =
      match ensureStream strategy streamId versioning log, Name.of strategy.tenantId streamId with
      | .error e, _ => (.error e, log)
      | .ok (), .error e => (.error e, log)
      | .ok (), .ok name => appendEvents name.text events log := by
  have hfilter : events.filter (fun raw => raw.streamId.eq streamId) = events := by
    refine List.filter_eq_self.2 fun raw hraw => ?_
    rw [hstream raw hraw]
    exact StreamId.eq_iff.2 rfl
  unfold insertEvents
  rw [KurrentDBStorageStrategy.streamIds_of_one hne hstream, insertEach]
  split
  · rfl
  · rfl
  · rw [hfilter]
    rcases appendEvents _ events log with ⟨_ | _, log'⟩ <;> rfl

theorem saveSnapshot_grows (raw : RawEvent) (log : EventLog) :
    Grows (Snapped strategy.tenantId raw) log (saveSnapshot strategy raw log).2 := by
  unfold saveSnapshot
  split
  · exact .refl _ log
  · rename_i name hname
    obtain ⟨htenant, huuid⟩ := name_of_eq_ok hname
    split
    · exact .refl _ log
    · rename_i entry hentry
      refine (grows_append name.snapshot [entry] log).mono fun e he => ?_
      exact ⟨name, htenant, he.1, huuid.symm, by rw [List.mem_singleton.1 he.2, hentry]⟩

theorem appendEvents_of_error {name : String} {events : List RawEvent} {log : EventLog}
    {e : Error}
    (h : (appendEvents name events log).1 = .error e) : (appendEvents name events log).2 = log := by
  unfold appendEvents at h ⊢
  split
  · rfl
  · rename_i hentries
    rw [hentries] at h
    cases h

/-- An insert into one stream writes to it, or it raises and writes nothing. -/
theorem insertEvents_cases {streamId : StreamId} {versioning : Versioning}
    {events : List RawEvent} {log : EventLog}
    (hproper : (Request.insert streamId versioning events).Proper) :
    (insertEvents strategy versioning events log).2 = log ∨
      (insertEvents strategy versioning events log).1 = .ok () ∧
      Grows (fun entry => ∃ name : Name, name.uuid = streamId ∧ entry.streamName = name.text) log
        (insertEvents strategy versioning events log).2 := by
  rw [insertEvents_of_one hproper.1 hproper.2]
  split
  · exact .inl rfl
  · exact .inl rfl
  · rename_i name _ hname
    cases hresult : (appendEvents name.text events log).1 with
    | error e => exact .inl (appendEvents_of_error hresult)
    | ok u =>
      exact .inr ⟨rfl, (appendEvents_grows name.text events log).mono fun entry hentry =>
        ⟨name, (name_of_eq_ok hname).2, hentry.1⟩⟩

theorem saveSnapshot_cases (raw : RawEvent) (log : EventLog) :
    (saveSnapshot strategy raw log).2 = log ∨ (saveSnapshot strategy raw log).1 = .ok () := by
  unfold saveSnapshot
  split
  · exact .inl rfl
  · split
    · exact .inl rfl
    · exact .inr rfl

/-! ## What can be read -/

/-- What a Python event holds: JSON objects and a datetime. -/
structure Valid (raw : RawEvent) : Prop where
  data : WellFormed (.obj raw.data)
  context : WellFormed (.obj raw.context)
  createdAt : InRange raw.createdAt

def ValidRequest : Request → Prop
  | .insert _ _ events => ∀ raw ∈ events, Valid raw
  | .snapshot raw => Valid raw
  | _ => True

/-- What a call asks to store is valid. -/
def ValidCall (serdes : TenantId → Serde E) (i : TenantId × Call E) : Prop :=
  ∀ r, request (serdes i.1) i.2 = .ok r → ValidRequest r

/-- An entry that can be read back as what it was written as. -/
def Readable (entry : RecordedEvent) : Prop :=
  (∃ name : Name, entry.streamName = name.text ∧ ∃ raw, rawEvent entry none = .ok raw) ∨
    ∃ name : Name, entry.streamName = name.snapshot ∧
      ∃ raw v, snapshot entry = .ok raw ∧ raw.version = some v

section Steps
variable {E : Type} {serdes : TenantId → Serde E} {log log' : EventLog} {t : TenantId}
  {raw : RawEvent} {entry : RecordedEvent}

theorem readable_appended {events : List RawEvent} (hvalid : ∀ raw ∈ events, Valid raw)
    (h : Appended t events entry) : Readable entry := by
  obtain ⟨name, -, hstream, raw, hraw, -, hentry⟩ := h
  have hv := hvalid raw hraw
  have hname := (congrArg Name.fromStreamName hstream).trans
    (Name.fromStreamName_of name.withoutSuffix_text)
  exact .inl ⟨name, hstream, _, rawEvent_recorded hv.data hv.context hv.createdAt proper_nil
    hentry entry rfl hname none⟩

theorem readable_snapped (hvalid : Valid raw) (h : Snapped t raw entry) : Readable entry := by
  obtain ⟨name, -, hstream, -, hentry⟩ := h
  cases hversion : raw.version with
  | none =>
    rw [snapshotEntry, hversion] at hentry
    cases hentry
  | some v =>
    rw [snapshotEntry, hversion] at hentry
    have hname := (congrArg Name.fromStreamName hstream).trans
      (Name.fromStreamName_of name.withoutSuffix_snapshot)
    have hread := rawEvent_recorded hvalid.data hvalid.context hvalid.createdAt
      (proper_position _) hentry entry rfl hname (some v)
    rw [← snapshot_recorded hvalid.context hentry entry rfl] at hread
    exact .inr ⟨name, hstream, _, v, hread, rfl⟩

/-- A record can be made of what can be read back. -/
theorem Readable.recorded (h : Readable entry) : ∃ record, rawRecord entry = .ok record := by
  obtain ⟨name, hname, raw, hraw⟩ : ∃ name, Name.fromStreamName entry.streamName = .ok name ∧
      ∃ raw, rawEvent entry none = .ok raw := by
    rcases h with ⟨name, hstream, raw, hraw⟩ | ⟨name, hstream, raw, v, hraw, -⟩
    · exact ⟨_, (congrArg _ hstream).trans (Name.fromStreamName_of name.withoutSuffix_text), raw,
        hraw⟩
    · obtain ⟨_, hversion⟩ := snapshot_eq_ok hraw
      exact ⟨_, (congrArg _ hstream).trans (Name.fromStreamName_of name.withoutSuffix_snapshot),
        rawEvent_version hversion none⟩
  exact ⟨_, bind_eq_ok.2 ⟨name, by rw [hname]; rfl, bind_eq_ok.2 ⟨raw, hraw, rfl⟩⟩⟩

theorem deleteStream_cases (strategy : KurrentDBStorageStrategy) (streamId : StreamId)
    (log : EventLog) :
    (deleteStream strategy streamId log).2 = log ∨
      ∃ name, Name.of strategy.tenantId streamId = .ok name ∧
        (deleteStream strategy streamId log).2 = log.delete name.text := by
  unfold deleteStream
  cases hname : Name.of strategy.tenantId streamId with
  | error e => exact .inl rfl
  | ok name => exact .inr ⟨name, rfl, rfl⟩

/-- A call deletes a stream, or adds entries that can be read. -/
theorem callStep_cases {i : TenantId × Call E} (hvalid : ValidCall serdes i) :
    (∃ streamId name, i.2 = .deleteStream streamId ∧ Name.of i.1 streamId = .ok name ∧
      (callStep (stores serdes) log i).2 = log.delete name.text) ∨
    Grows Readable log (callStep (stores serdes) log i).2 := by
  obtain ⟨u, call⟩ := i
  cases hr : request (serdes u) call with
  | error e =>
    rw [show callStep (stores serdes) log (u, call) = _ from callStep_of_error hr]
    exact .inr (.refl _ log)
  | ok r =>
    rw [show callStep (stores serdes) log (u, call) = _ from callStep_of_ok hr]
    have hv := hvalid r hr
    cases r with
    | fetch streamId start stop => exact .inr (.refl _ log)
    | insert streamId versioning events =>
      exact .inr ((insertEach_grows versioning events _ log).mono fun entry h =>
        readable_appended hv h)
    | snapshot raw =>
      exact .inr ((saveSnapshot_grows raw log).mono fun entry h => readable_snapped hv h)
    | delete streamId =>
      rcases deleteStream_cases ⟨u⟩ streamId log with hsame | ⟨name, hname, hdelete⟩
      · refine .inr ?_
        change Grows Readable log (deleteStream ⟨u⟩ streamId log).2
        rw [hsame]
        exact .refl _ log
      · exact .inl ⟨streamId, name, request_delete hr, hname, hdelete⟩

/-- The entries of a log are numbered and can be read. -/
structure Inv (log : EventLog) : Prop where
  numbered : Numbered log.entries
  readable : ∀ entry ∈ log.entries, Readable entry

theorem inv_empty : Inv {} := ⟨by simp [Numbered], by simp⟩

theorem Inv.step {i : TenantId × Call E} (hvalid : ValidCall serdes i) (h : Inv log) :
    Inv (callStep (stores serdes) log i).2 := by
  rcases callStep_cases hvalid with ⟨streamId, name, -, -, hdelete⟩ | hgrows
  · rw [hdelete]
    exact ⟨h.numbered, h.readable⟩
  · obtain ⟨new, hnew, hreadable⟩ := hgrows.added
    refine ⟨hgrows.numbered h.numbered, fun entry hentry => ?_⟩
    rw [hnew] at hentry
    rcases List.mem_append.1 hentry with hentry | hentry
    · exact h.readable entry hentry
    · exact hreadable entry hentry

end Steps

section Example

/-- A serde of one event. -/
def orderSerde : Serde Unit where
  nameForType _ := .ok "Order"
  encrypt _ _ := .ok []
  construct _ _ _ := .ok ()

def orderEvent (version : ℤ) : WrappedEvent Unit :=
  { event := (), version := some version, uuid := version.toNat, createdAt := 1700000000000000
    context := defaultContext }

def orderPlaced (version : ℤ) : TenantId × Call Unit :=
  ("", .append (orderEvent version) [] orderName.uuid .noVersioning)

def orderSaved (version : ℤ) : TenantId × Call Unit :=
  ("", .saveSnapshot orderName.uuid (orderEvent version))

theorem validCall_order {i : TenantId × Call Unit} {version : ℤ}
    (hi : i = orderPlaced version ∨ i = orderSaved version) :
    ValidCall (fun _ => orderSerde) i := by
  intro r hr
  have hvalid : ∀ raw : RawEvent, raw.data = [] → raw.context = defaultContext →
      raw.createdAt = 1700000000000000 → Valid raw := by
    rintro raw hdata hcontext htime
    refine ⟨?_, ?_, htime ▸ by decide⟩
    · simp [hdata, WellFormed, WellFormedFields]
    · simp [hcontext, defaultContext, WellFormed, WellFormedFields]
  rcases hi with rfl | rfl <;> cases hr
  · intro raw hraw
    rw [List.mem_singleton.1 hraw]
    exact hvalid _ rfl rfl rfl
  · exact hvalid _ rfl rfl rfl

end Example

end KurrentServer

end EventSourcery.Kurrent
