import EventSourcery.Ledger

/-!
# The in-memory backend

`Storage` keeps the records in order, and two dictionaries by stream that all
tenants share. A call that raises keeps what it has written. Whatever a request
does, the pages of the storage change as a ledger's pages do, whichever tenant
makes it (`insertEvents_pages`); only reading looks at the tenant.
-/
namespace EventSourcery

structure Storage where
  records : List RecordedRaw := []
  data : StreamKey → Option (List RecordedRaw) := fun _ => none
  versions : StreamKey → Option (Option ℤ) := fun _ => none

namespace Storage

def currentPosition (s : Storage) : Option Position := s.records.getLast?.map (·.position)

def contains (streamId : StreamId) (s : Storage) : Bool := (s.data streamId.key).isSome

def create (streamId : StreamId) (versioning : Versioning) (s : Storage) : Storage :=
  { s with
    data := Function.update s.data streamId.key (some [])
    versions := Function.update s.versions streamId.key
      (some (if versioning = .noVersioning then none else some 0)) }

/-- The loop of `append`. -/
def appendEach : List RecordedRaw → Storage → Except Error Unit × Storage
  | [], s => (.ok (), s)
  | record :: records, s =>
      match s.data record.entry.streamId.key with
      | none => (.error .keyError, s)
      | some held => appendEach records
          { s with
            data := Function.update s.data record.entry.streamId.key (some (held ++ [record]))
            versions := Function.update s.versions record.entry.streamId.key
              (some record.entry.version) }

def append (records : List RecordedRaw) (s : Storage) : Except Error Unit × Storage :=
  appendEach records { s with records := s.records ++ records }

def replace (withSnapshot : RecordedRaw) (s : Storage) : Storage :=
  { s with
    data := Function.update s.data withSnapshot.entry.streamId.key (some [withSnapshot])
    versions := Function.update s.versions withSnapshot.entry.streamId.key
      (some withSnapshot.entry.version) }

def read (streamId : StreamId) (s : Storage) : Except Error (List RecordedRaw) :=
  (s.data streamId.key).elim (.error .keyError) .ok

def delete (streamId : StreamId) (s : Storage) : Storage :=
  { s with data := Function.update s.data streamId.key none }

def getVersion (streamId : StreamId) (s : Storage) : Except Error (Option ℤ) :=
  (s.versions streamId.key).elim (.error .keyError) .ok

/-- A held stream as a page, its records without position and tenant. -/
def page (s : Storage) (key : StreamKey) : Option Page :=
  (s.data key).bind fun held => (s.versions key).map fun version => ⟨held.map (·.entry), version⟩

/-- Every held stream has a version. -/
def Sound (s : Storage) : Prop := ∀ key, (s.data key).isSome → (s.versions key).isSome

theorem page_of_none {s : Storage} {key : StreamKey} (hnone : s.data key = none) :
    s.page key = none := by
  rw [page, hnone, Option.bind_none]

theorem Sound.page_of_held {s : Storage} (h : s.Sound) {key : StreamKey} {held : List RecordedRaw}
    (hheld : s.data key = some held) :
    ∃ version, s.versions key = some version ∧
      s.page key = some ⟨held.map (·.entry), version⟩ := by
  obtain ⟨version, hversion⟩ := Option.isSome_iff_exists.1 (h key (by rw [hheld]; rfl))
  exact ⟨version, hversion, by rw [page, hheld, hversion]; rfl⟩

theorem appendEach_of_held {key : StreamKey} {records : List RecordedRaw}
    (hkey : ∀ record ∈ records, record.entry.streamId.key = key) {s : Storage}
    {held : List RecordedRaw} (hheld : s.data key = some held) :
    appendEach records s = (.ok (),
      { s with
        data := Function.update s.data key (some (held ++ records))
        versions := Function.update s.versions key
          (records.getLast?.elim (s.versions key) fun record => some record.entry.version) }) := by
  induction records generalizing s held with
  | nil => simp [appendEach, ← hheld]
  | cons record records ih =>
    have hrecord := hkey record (by simp)
    simp only [appendEach, hrecord, hheld]
    have hupdated : (Function.update s.data key (some (held ++ [record]))) key =
        some (held ++ [record]) := Function.update_self ..
    rw [ih (fun r hr => hkey r (by simp [hr])) hupdated]
    cases hlast : records.getLast? <;> simp [List.getLast?_cons, hlast]

end Storage

/-- The state of the backend: the storage, and the outbox with the number of
failed attempts beside each record. -/
structure InMemory where
  storage : Storage := {}
  outbox : List (RecordedRaw × ℕ) := []

structure InMemoryStorageStrategy (E : Type) where
  dispatcher : Dispatcher E
  filterer : Option (RawEvent → Bool)
  tenantId : TenantId

namespace InMemoryStorageStrategy
variable {E : Type} (strategy : InMemoryStorageStrategy E)

def fetchEvents (streamId : StreamId) (start stop : Option ℤ) (s : InMemory) :
    Except Error (List RawEvent) :=
  if s.storage.contains streamId then
    (s.storage.read streamId).map fun stream =>
      ((slice (offset start) (offset stop) stream).filter fun r =>
        r.tenantId = strategy.tenantId).map (·.entry)
  else .ok []

/-- A read of a stream that is the tenant's. -/
theorem fetchEvents_of_tagged {s : InMemory} (hs : s.storage.Sound) {streamId : StreamId}
    (htagged : ∀ held ∈ s.storage.data streamId.key, ∀ record ∈ held,
      record.tenantId = strategy.tenantId) (start stop : Option ℤ) :
    strategy.fetchEvents streamId start stop s =
      .ok (slice (offset start) (offset stop)
        ((s.storage.page streamId.key).elim [] (·.events))) := by
  unfold fetchEvents Storage.contains Storage.read
  cases hdata : s.storage.data streamId.key with
  | none => simp [Storage.page_of_none hdata]
  | some held =>
    obtain ⟨version, -, hpage⟩ := hs.page_of_held hdata
    have hmine : (slice (offset start) (offset stop) held).filter
        (fun record => record.tenantId = strategy.tenantId) =
          slice (offset start) (offset stop) held :=
      List.filter_eq_self.2 fun record hrecord =>
        decide_eq_true (htagged held hdata record (mem_of_mem_slice hrecord))
    simp [hpage, hmine, slice_map, Except.map]

/-- The first step of `_ensure_stream`: a stream that is not held is created. -/
def ensured (streamId : StreamId) (versioning : Versioning) (s : Storage) : Storage :=
  if s.contains streamId then s else s.create streamId versioning

def ensureStream (streamId : StreamId) (versioning : Versioning) (s : Storage) :
    Except Error Unit × Storage :=
  let s := ensured streamId versioning s
  let check := do
    versioning.validateIfCompatible (← s.getVersion streamId)
    match versioning.compared with
    | none => return ()
    | some expected =>
        let lastVersion ← if s.contains streamId then s.getVersion streamId else pure none
        if lastVersion = some expected then return ()
        else throw (.concurrentStreamWriteError [versionJson lastVersion, .int expected])
  (check, s)

/-- The records of the events, numbered from the given position on. -/
def recordsFrom : Position → List RawEvent → List RecordedRaw
  | _, [] => []
  | position, raw :: events =>
      { entry := raw, position, tenantId := strategy.tenantId } ::
        recordsFrom (position + 1) events

def putIntoOutbox (records : List RecordedRaw) (outbox : List (RecordedRaw × ℕ)) :
    List (RecordedRaw × ℕ) :=
  match strategy.filterer with
  | none => outbox
  | some filterer => outbox ++ (records.filter fun r => filterer r.entry).map fun r => (r, 0)

def insertEvents (streamId : StreamId) (versioning : Versioning) (events : List RawEvent)
    (s : InMemory) : Except Error Unit × InMemory :=
  let position := s.storage.currentPosition.getD 0
  match ensureStream streamId versioning s.storage with
  | (.error e, storage) => (.error e, { s with storage })
  | (.ok (), storage) =>
      let records := strategy.recordsFrom (position + 1) events
      match storage.append records with
      | (.error e, storage) => (.error e, { s with storage })
      | (.ok (), storage) =>
          (strategy.dispatcher.dispatch records,
            { storage, outbox := strategy.putIntoOutbox records s.outbox })

/-- `insert_events` up to its dispatch, with the records that it dispatches. -/
def storeRecords (streamId : StreamId) (versioning : Versioning) (events : List RawEvent)
    (s : InMemory) : Except Error (List RecordedRaw) × InMemory :=
  let position := s.storage.currentPosition.getD 0
  match ensureStream streamId versioning s.storage with
  | (.error e, storage) => (.error e, { s with storage })
  | (.ok (), storage) =>
      let records := strategy.recordsFrom (position + 1) events
      match storage.append records with
      | (.error e, storage) => (.error e, { s with storage })
      | (.ok (), storage) =>
          (.ok records, { storage, outbox := strategy.putIntoOutbox records s.outbox })

theorem insertEvents_eq_dispatch (streamId : StreamId) (versioning : Versioning)
    (events : List RawEvent) (s : InMemory) :
    strategy.insertEvents streamId versioning events s =
      match strategy.storeRecords streamId versioning events s with
      | (.error e, s) => (.error e, s)
      | (.ok records, s) => (strategy.dispatcher.dispatch records, s) := by
  simp only [insertEvents, storeRecords]
  rcases ensureStream streamId versioning s.storage with ⟨_ | _, storage⟩
  · rfl
  · dsimp only
    rcases storage.append (strategy.recordsFrom (s.storage.currentPosition.getD 0 + 1) events) with
      ⟨_ | _, storage⟩ <;> rfl

def saveSnapshot (snapshot : RawEvent) (s : InMemory) : Except Error Unit × InMemory :=
  let record : RecordedRaw :=
    { entry := snapshot, position := s.storage.currentPosition.getD 0 + 1
      tenantId := strategy.tenantId }
  (.ok (), { s with storage := s.storage.replace record })

def deleteStream (streamId : StreamId) (s : InMemory) : Except Error Unit × InMemory :=
  (.ok (),
    if s.storage.contains streamId then { s with storage := s.storage.delete streamId } else s)

@[simp] theorem deleteStream_records (streamId : StreamId) (s : InMemory) :
    (deleteStream streamId s).2.storage.records = s.storage.records := by
  unfold deleteStream
  split <;> rfl

@[simp] theorem ensured_records (streamId : StreamId) (versioning : Versioning) (s : Storage) :
    (ensured streamId versioning s).records = s.records := by
  unfold ensured
  split <;> rfl

@[simp] theorem recordsFrom_entry (position : Position) (events : List RawEvent) :
    (strategy.recordsFrom position events).map (·.entry) = events := by
  induction events generalizing position with
  | nil => rfl
  | cons raw events ih => simp [recordsFrom, ih]

theorem mem_recordsFrom {position : Position} {events : List RawEvent} {record : RecordedRaw}
    (h : record ∈ strategy.recordsFrom position events) :
    record.entry ∈ events ∧ record.tenantId = strategy.tenantId := by
  induction events generalizing position with
  | nil => cases h
  | cons raw events ih =>
    rcases List.mem_cons.1 h with rfl | h
    · exact ⟨by simp, rfl⟩
    · exact ⟨by simp [(ih h).1], (ih h).2⟩

theorem ensured_held {s : Storage} (hs : s.Sound) (streamId : StreamId) (versioning : Versioning) :
    ∃ held version, (ensured streamId versioning s).data streamId.key = some held ∧
      (ensured streamId versioning s).versions streamId.key = some version ∧
      ⟨held.map (·.entry), version⟩ = (s.page streamId.key).getD (.opened versioning) := by
  unfold ensured
  split
  · rename_i hcontains
    obtain ⟨held, hheld⟩ := Option.isSome_iff_exists.1 hcontains
    obtain ⟨version, hversion, hpage⟩ := hs.page_of_held hheld
    exact ⟨held, version, hheld, hversion, by rw [hpage, Option.getD_some]⟩
  · rename_i hcontains
    have hnone : s.data streamId.key = none := by simpa [Storage.contains] using hcontains
    refine ⟨[], versioning.created, by simp [Storage.create], ?_,
      by simp [Storage.page_of_none hnone, Page.opened]⟩
    cases versioning <;> simp [Storage.create, Versioning.created]

theorem ensureStream_eq {s : Storage} (hs : s.Sound) (streamId : StreamId)
    (versioning : Versioning) :
    ensureStream streamId versioning s =
      (versioning.admits ((s.page streamId.key).getD (.opened versioning)).version,
        ensured streamId versioning s) := by
  obtain ⟨held, version, hheld, hversion, hpage⟩ := ensured_held hs streamId versioning
  have hcontains : (ensured streamId versioning s).contains streamId = true := by
    simp [Storage.contains, hheld]
  simp only [← hpage]
  unfold ensureStream
  simp only [hcontains, Storage.getVersion, hversion, Option.elim, if_true]
  rfl

/-- What an insert stores: the records appended or, when the version is refused, the
stream created only. -/
theorem storeRecords_eq {s : InMemory} (hs : s.storage.Sound) {streamId : StreamId}
    (versioning : Versioning) {events : List RawEvent}
    (haddressed : ∀ raw ∈ events, raw.streamId = streamId) :
    ∃ held version, (ensured streamId versioning s.storage).data streamId.key = some held ∧
      (ensured streamId versioning s.storage).versions streamId.key = some version ∧
      ⟨held.map (·.entry), version⟩ = (s.storage.page streamId.key).getD (.opened versioning) ∧
      strategy.storeRecords streamId versioning events s =
        match versioning.admits version with
        | .error e => (.error e, { s with storage := ensured streamId versioning s.storage })
        | .ok () =>
            let records := strategy.recordsFrom (s.storage.currentPosition.getD 0 + 1) events
            (.ok records,
              { storage :=
                  { records := s.storage.records ++ records
                    data := Function.update (ensured streamId versioning s.storage).data
                      streamId.key (some (held ++ records))
                    versions := Function.update (ensured streamId versioning s.storage).versions
                      streamId.key (records.getLast?.elim (some version) fun record =>
                        some record.entry.version) }
                outbox := strategy.putIntoOutbox records s.outbox }) := by
  obtain ⟨held, version, hheld, hversion, hpage⟩ := ensured_held hs streamId versioning
  refine ⟨held, version, hheld, hversion, hpage, ?_⟩
  have hkey : ∀ record ∈ strategy.recordsFrom (s.storage.currentPosition.getD 0 + 1) events,
      record.entry.streamId.key = streamId.key := by
    intro record hrecord
    rw [haddressed _ (strategy.mem_recordsFrom hrecord).1]
  have hrecords := ensured_records streamId versioning s.storage
  have hversions : ((s.storage.page streamId.key).getD (.opened versioning)).version = version := by
    rw [← hpage]
  unfold storeRecords
  simp only [ensureStream_eq hs, hversions]
  cases versioning.admits version with
  | error e => rfl
  | ok u =>
    simp only [Storage.append]
    rw [Storage.appendEach_of_held hkey (s := { ensured streamId versioning s.storage with
      records := (ensured streamId versioning s.storage).records ++
        strategy.recordsFrom (s.storage.currentPosition.getD 0 + 1) events }) hheld]
    simp only [hversion, hrecords]

/-- What an insert does: the answer, and the storage with the records appended or,
when the version is refused, with the stream created only. -/
theorem insertEvents_eq (blind : strategy.dispatcher.PositionBlind) {s : InMemory}
    (hs : s.storage.Sound)
    {streamId : StreamId} (versioning : Versioning) {events : List RawEvent}
    (haddressed : ∀ raw ∈ events, raw.streamId = streamId) :
    ∃ held version, (ensured streamId versioning s.storage).data streamId.key = some held ∧
      (ensured streamId versioning s.storage).versions streamId.key = some version ∧
      ⟨held.map (·.entry), version⟩ = (s.storage.page streamId.key).getD (.opened versioning) ∧
      strategy.insertEvents streamId versioning events s =
        match versioning.admits version with
        | .error e => (.error e, { s with storage := ensured streamId versioning s.storage })
        | .ok () =>
            let records := strategy.recordsFrom (s.storage.currentPosition.getD 0 + 1) events
            (strategy.dispatcher.accept strategy.tenantId events,
              { storage :=
                  { records := s.storage.records ++ records
                    data := Function.update (ensured streamId versioning s.storage).data
                      streamId.key (some (held ++ records))
                    versions := Function.update (ensured streamId versioning s.storage).versions
                      streamId.key (records.getLast?.elim (some version) fun record =>
                        some record.entry.version) }
                outbox := strategy.putIntoOutbox records s.outbox }) := by
  obtain ⟨held, version, hheld, hversion, hpage, hstored⟩ :=
    strategy.storeRecords_eq hs versioning haddressed
  refine ⟨held, version, hheld, hversion, hpage, ?_⟩
  have hdispatch : ∀ position, strategy.dispatcher.dispatch (strategy.recordsFrom position events) =
      strategy.dispatcher.accept strategy.tenantId events := by
    intro position
    rw [Dispatcher.dispatch_of_positionBlind blind fun r hr => (strategy.mem_recordsFrom hr).2,
      recordsFrom_entry]
  rw [insertEvents_eq_dispatch, hstored]
  cases versioning.admits version with
  | error e => rfl
  | ok u => simp only [hdispatch]

def storageStrategy : StorageStrategy InMemory where
  fetchEvents := strategy.fetchEvents
  insertEvents := strategy.insertEvents
  saveSnapshot := strategy.saveSnapshot
  deleteStream := deleteStream

/-- A tenant's write to one stream: the other streams stay, and the records of
this one are new ones of the tenant or were held before. -/
structure Writes (u : TenantId) (key : StreamKey) (s s' : Storage) : Prop where
  sound : s'.Sound
  data : ∀ k, k ≠ key → s'.data k = s.data k
  page : ∀ k, k ≠ key → s'.page k = s.page k
  tagged : ∀ held' ∈ s'.data key, ∀ record ∈ held',
    record.tenantId = u ∨ ∃ held ∈ s.data key, record ∈ held

theorem Writes.refl {s : Storage} (hs : s.Sound) (u : TenantId) (key : StreamKey) :
    Writes u key s s where
  sound := hs
  data _ _ := rfl
  page _ _ := rfl
  tagged held hheld _ hrecord := .inr ⟨held, hheld, hrecord⟩

/-- Where all records were the tenant's, they are after a write of the tenant. -/
theorem Writes.tagged_all {u : TenantId} {key : StreamKey} {s s' : Storage}
    (h : Writes u key s s')
    (hs : ∀ k, ∀ held ∈ s.data k, ∀ record ∈ held, record.tenantId = u) :
    ∀ k, ∀ held ∈ s'.data k, ∀ record ∈ held, record.tenantId = u := by
  intro k held hheld record hrecord
  by_cases hk : k = key
  · subst hk
    rcases h.tagged held hheld record hrecord with hown | ⟨before, hbefore, hmem⟩
    · exact hown
    · exact hs k before hbefore record hmem
  · rw [h.data k hk] at hheld
    exact hs k held hheld record hrecord

theorem writes_ensured {s : Storage} (hs : s.Sound) (streamId : StreamId)
    (versioning : Versioning) (u : TenantId) :
    Writes u streamId.key s (ensured streamId versioning s) := by
  unfold ensured
  split
  · exact .refl hs u _
  · refine ⟨fun key hkey => ?_, fun k hk => ?_, fun k hk => ?_, fun held hheld record hrecord => ?_⟩
    · by_cases hk : key = streamId.key
      · simp [Storage.create, hk]
      · simpa [Storage.create, hk] using hs key (by simpa [Storage.create, hk] using hkey)
    · simp [Storage.create, hk]
    · simp [Storage.page, Storage.create, hk]
    · simp only [Storage.create, Function.update_self, Option.mem_def, Option.some.injEq] at hheld
      subst hheld
      cases hrecord

/-- Storing what a tenant appended, or its snapshot, under one stream. -/
theorem Writes.update {u : TenantId} {key : StreamKey} {s s' : Storage} (h : Writes u key s s')
    (records : List RecordedRaw) {held : List RecordedRaw} (version : Option ℤ)
    (hheld : ∀ record ∈ held, record.tenantId = u ∨ ∃ held' ∈ s'.data key, record ∈ held') :
    Writes u key s
      { records
        data := Function.update s'.data key (some held)
        versions := Function.update s'.versions key (some version) } where
  sound k hk := by
    by_cases hkey : k = key
    · simp [hkey]
    · simpa [hkey] using h.sound k (by simpa [hkey] using hk)
  data k hk := by simp [hk, h.data k hk]
  page k hk := by simpa [Storage.page, hk] using h.page k hk
  tagged held' hheld' record hrecord := by
    simp only [Function.update_self, Option.mem_def, Option.some.injEq] at hheld'
    subst hheld'
    rcases hheld record hrecord with hu | ⟨held'', hheld'', hmem⟩
    · exact .inl hu
    · exact h.tagged held'' hheld'' record hmem

/-- What is stored by an insert is a write: the page of the stream is extended when its
version is admitted, and at least opened otherwise. -/
theorem storeRecords_page {s : InMemory} (hs : s.storage.Sound) {streamId : StreamId}
    (versioning : Versioning) {events : List RawEvent}
    (haddressed : ∀ raw ∈ events, raw.streamId = streamId) :
    let r := strategy.storeRecords streamId versioning events s
    let page := (s.storage.page streamId.key).getD (.opened versioning)
    Writes strategy.tenantId streamId.key s.storage r.2.storage ∧
      r.2.storage.page streamId.key = some (match versioning.admits page.version with
        | .error _ => page
        | .ok () => page.extend events) := by
  obtain ⟨held, version, hheld, hversion, hpage, heq⟩ :=
    strategy.storeRecords_eq hs versioning haddressed
  have hensured := writes_ensured hs streamId versioning strategy.tenantId
  simp only [heq, ← hpage]
  cases versioning.admits version with
  | error e => exact ⟨hensured, by simp [Storage.page, hheld, hversion]⟩
  | ok u =>
    have hlast : ∀ position,
        ((strategy.recordsFrom position events).getLast?.elim (some version) fun record =>
          some record.entry.version) = some (events.getLast?.elim version (·.version)) := by
      intro position
      have := congrArg List.getLast? (strategy.recordsFrom_entry position events)
      rw [List.getLast?_map] at this
      cases hr : (strategy.recordsFrom position events).getLast? <;>
        cases he : events.getLast? <;> simp_all
    simp only [hlast]
    refine ⟨hensured.update _ _ fun record hrecord => ?_, ?_⟩
    · rcases List.mem_append.1 hrecord with hmem | hmem
      · exact .inr ⟨held, hheld, hmem⟩
      · exact .inl (strategy.mem_recordsFrom hmem).2
    · simp [Storage.page, Page.extend]

theorem insertEvents_state (strategy : InMemoryStorageStrategy E) (streamId : StreamId)
    (versioning : Versioning) (events : List RawEvent) (s : InMemory) :
    (strategy.insertEvents streamId versioning events s).2 =
      (strategy.storeRecords streamId versioning events s).2 := by
  rw [insertEvents_eq_dispatch]
  rcases strategy.storeRecords streamId versioning events s with ⟨_ | _, s'⟩ <;> rfl

/-- An insert is a write, and acts on the page of the stream as on a ledger's page. -/
theorem insertEvents_page (blind : strategy.dispatcher.PositionBlind) {s : InMemory}
    (hs : s.storage.Sound) {streamId : StreamId} (versioning : Versioning)
    {events : List RawEvent} (haddressed : ∀ raw ∈ events, raw.streamId = streamId) :
    let r := strategy.insertEvents streamId versioning events s
    let page := Page.insert (strategy.dispatcher.accept strategy.tenantId) versioning events
      (s.storage.page streamId.key)
    Writes strategy.tenantId streamId.key s.storage r.2.storage ∧ r.1 = page.1 ∧
      r.2.storage.page streamId.key = some page.2 := by
  obtain ⟨hwrites, hstored⟩ := strategy.storeRecords_page hs versioning haddressed
  obtain ⟨held, version, -, -, hpage, heq⟩ :=
    strategy.insertEvents_eq blind hs versioning haddressed
  rw [← insertEvents_state] at hwrites hstored
  simp only [Page.insert, ← hpage] at hstored ⊢
  refine ⟨hwrites, ?_, ?_⟩
  · rw [heq]
    cases versioning.admits version <;> rfl
  · rw [hstored]
    cases versioning.admits version <;> rfl

theorem saveSnapshot_page {s : InMemory} (hs : s.storage.Sound) (snapshot : RawEvent) :
    let r := strategy.saveSnapshot snapshot s
    Writes strategy.tenantId snapshot.streamId.key s.storage r.2.storage ∧ r.1 = .ok () ∧
      r.2.storage.page snapshot.streamId.key = some ⟨[snapshot], snapshot.version⟩ := by
  refine ⟨?_, rfl, by simp [saveSnapshot, Storage.replace, Storage.page]⟩
  exact (Writes.refl hs _ _).update _ _ fun record hrecord => .inl (by simp_all)

theorem deleteStream_page {s : InMemory} (hs : s.storage.Sound) (streamId : StreamId)
    (u : TenantId) :
    let r := deleteStream streamId s
    Writes u streamId.key s.storage r.2.storage ∧ r.1 = .ok () ∧
      r.2.storage.data streamId.key = none := by
  simp only [deleteStream]
  split
  · refine ⟨⟨fun k hk => ?_, fun k hk => ?_, fun k hk => ?_, fun held hheld => ?_⟩, trivial, ?_⟩
    · by_cases hkey : k = streamId.key
      · simp [Storage.delete, hkey] at hk
      · exact hs k (by simpa [Storage.delete, hkey] using hk)
    · simp [Storage.delete, hk]
    · simp [Storage.page, Storage.delete, hk]
    · simp [Storage.delete] at hheld
    · simp [Storage.delete]
  · rename_i hcontains
    exact ⟨.refl hs u _, trivial, by simpa [Storage.contains] using hcontains⟩

section Inserts
variable {strategy} {s : InMemory} {streamId : StreamId} {versioning : Versioning}
  {events : List RawEvent}

/-- The version that an insert finds, or creates the stream with. -/
def foundVersion (streamId : StreamId) (versioning : Versioning) (s : Storage) : Option ℤ :=
  ((s.page streamId.key).getD (.opened versioning)).version

theorem foundVersion_of_held {s : Storage} {version : Option ℤ} (hheld : s.contains streamId = true)
    (hversion : s.getVersion streamId = .ok version) :
    foundVersion streamId versioning s = version := by
  obtain ⟨held, hheld⟩ := Option.isSome_iff_exists.1 hheld
  unfold Storage.getVersion at hversion
  cases hfound : s.versions streamId.key with
  | none => simp [hfound] at hversion
  | some found =>
    rw [hfound] at hversion
    cases hversion
    simp [foundVersion, Storage.page, hheld, hfound]

theorem storeRecords_refused (hs : s.storage.Sound)
    (haddressed : ∀ raw ∈ events, raw.streamId = streamId) {e : Error}
    (h : versioning.admits (foundVersion streamId versioning s.storage) = .error e) :
    strategy.storeRecords streamId versioning events s =
      (.error e, { s with storage := ensured streamId versioning s.storage }) := by
  obtain ⟨held, version, -, -, hpage, heq⟩ := strategy.storeRecords_eq hs versioning haddressed
  have hfound : version = foundVersion streamId versioning s.storage := congrArg Page.version hpage
  rw [heq, hfound, h]

theorem storeRecords_admitted (hs : s.storage.Sound)
    (haddressed : ∀ raw ∈ events, raw.streamId = streamId)
    (h : versioning.admits (foundVersion streamId versioning s.storage) = .ok ()) :
    let r := strategy.storeRecords streamId versioning events s
    let records := strategy.recordsFrom (s.storage.currentPosition.getD 0 + 1) events
    r.1 = .ok records ∧ r.2.storage.records = s.storage.records ++ records := by
  obtain ⟨held, version, -, -, hpage, heq⟩ := strategy.storeRecords_eq hs versioning haddressed
  have hfound : version = foundVersion streamId versioning s.storage := congrArg Page.version hpage
  rw [heq, hfound, h]
  exact ⟨rfl, rfl⟩

/-- An insert keeps a version beside each held stream. -/
theorem storeRecords_sound (hs : s.storage.Sound)
    (haddressed : ∀ raw ∈ events, raw.streamId = streamId) :
    (strategy.storeRecords streamId versioning events s).2.storage.Sound :=
  (strategy.storeRecords_page hs versioning haddressed).1.sound

theorem ensured_page (hs : s.storage.Sound) (streamId : StreamId) (versioning : Versioning) :
    (ensured streamId versioning s.storage).page streamId.key =
      some ((s.storage.page streamId.key).getD (.opened versioning)) := by
  obtain ⟨held, version, hheld, hversion, hpage⟩ := ensured_held hs streamId versioning
  rw [← hpage]
  simp [Storage.page, hheld, hversion]

theorem recordsFrom_ne_nil (h : events ≠ []) (position : Position) :
    strategy.recordsFrom position events ≠ [] := by
  cases events with
  | nil => exact absurd rfl h
  | cons raw events => simp [recordsFrom]

end Inserts

end InMemoryStorageStrategy

end EventSourcery
