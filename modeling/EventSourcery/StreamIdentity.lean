import EventSourcery.StreamSelections

/-!
# Requests through equal stream ids

Stream ids are equal when their uuids and categories are, whatever their names. A row has a
name of its own, that of the id which created it, and the SQL stores look at it: SQLAlchemy
finds an unnamed row through no named id, and neither store appends to a row through a name
that the row does not have. Rows also have no category where the category is empty text.
-/
namespace EventSourcery

def RawEvent.through (streamId : StreamId) (raw : RawEvent) : RawEvent := { raw with streamId }

def RecordedRaw.through (streamId : StreamId) (record : RecordedRaw) : RecordedRaw :=
  { record with entry := record.entry.through streamId }

def Request.through (streamId : StreamId) : Request → Request
  | fetch _ start stop => fetch streamId start stop
  | insert _ versioning events => insert streamId versioning (events.map (·.through streamId))
  | snapshot raw => snapshot (raw.through streamId)
  | delete _ => delete streamId

namespace Sql.StreamIdentity
open EventStore Runs AppendAttempts
open RowVersions (step)

variable {E : Type} {uuid5 : String → Uuid}

section Names
variable {streamId : StreamId} {head : StreamHead}

/-- The stream id has no name, or the name of the stream. -/
def Names (streamId : StreamId) (head : StreamHead) : Prop :=
  streamId.name = none ∨ head.name = streamId.name

instance (streamId : StreamId) (head : StreamHead) : Decidable (Names streamId head) :=
  inferInstanceAs (Decidable (_ ∨ _))

theorem compares_of_names (hkey : head.key = columns streamId) (h : Names streamId head) :
    head.compares streamId = true := by
  simp only [StreamHead.key, columns, Prod.mk.injEq] at hkey
  have hname : streamId.truthyName.all fun name => head.name = some name := by
    rcases h with hnone | hsame
    · simp [StreamId.truthyName, hnone]
    · rw [StreamId.truthyName, ← hsame]
      cases head.name with
      | none => rfl
      | some name => by_cases hempty : name = "" <;> simp [hempty, Option.filter]
  simp [StreamHead.compares, hkey, hname]

/-- The stream is chosen through the ids that name it. -/
theorem chooseStream_one {α : Type} (head : α → StreamHead) {x : α}
    (hkey : (head x).key = columns streamId) (hcategory : streamId.category ≠ some "") :
    SqlAlchemyStorageStrategy.chooseStream head streamId [x] =
      if Names streamId (head x) then .ok x else .error .indexError := by
  have heq := streamId_eq_of_columns hkey hcategory
  have hsame : (head x).category = streamId.categoryText := congrArg Prod.snd hkey
  unfold SqlAlchemyStorageStrategy.chooseStream SqlAlchemyStorageStrategy.checkName
  by_cases hnone : streamId.name = none
  · simp [Names, hnone, heq, Except.bind]
  · by_cases hname : (head x).name = streamId.name
    · simp [Names, hnone, hname, hsame, heq, Except.bind]
    · simp [Names, hnone, hname, Except.bind]

end Names

section Same

/-- The tables without the names that outbox rows give to streams. -/
def unnamed (db : Database) : Database :=
  { db with outbox := db.outbox.map fun row => { row with streamName := none } }

/-- The same answer, and the same tables, where outbox rows tell streams by their uuids. -/
def Same {α : Type} (r r' : α × Database) : Prop := r.1 = r'.1 ∧ unnamed r.2 = unnamed r'.2

variable {α β : Type} {db : Database}

theorem Same.undo {r r' : Except Error α × Database} (h : Same r r') :
    Same (StorageStrategy.undo Database.rollback db r)
      (StorageStrategy.undo Database.rollback db r') := by
  obtain ⟨answer, after⟩ := r
  obtain ⟨answer', after'⟩ := r'
  obtain ⟨hanswer, hafter⟩ := h
  dsimp only at hanswer hafter
  subst hanswer
  cases answer with
  | error e =>
    have hstream := congrArg Database.streamSeq hafter
    have hevent := congrArg Database.eventSeq hafter
    simp only [unnamed] at hstream hevent
    simp only [StorageStrategy.undo, Database.rollback, hstream, hevent]
    exact ⟨rfl, rfl⟩
  | ok x => exact ⟨rfl, hafter⟩

theorem Same.map {r r' : α × Database} (h : Same r r') (f : α → β) :
    Same (f r.1, r.2) (f r'.1, r'.2) := ⟨congrArg f h.1, h.2⟩

theorem Same.view {r r' : α × Database} (h : Same r r') (t : TenantId) :
    r.2.view t = r'.2.view t := by
  have hview := congrArg (Database.view t) h.2
  exact hview

end Same

section Taken
variable (store : SqlStore E)

def outbox : SqlStore E → Option OutboxStrategy
  | .sqlAlchemy strategy => strategy.outbox
  | .django strategy => strategy.outbox

/-- The events are kept for the outbox and handed to the listeners alike with another stream
id. -/
structure TakenAlike (events : List RawEvent) (b : StreamId) : Prop where
  filtered : ∀ strategy ∈ outbox store, ∀ raw ∈ events,
    strategy.filterer (raw.through b) = strategy.filterer raw
  dispatched : ∀ records : List RecordedRaw, records.map (·.entry) = events →
    store.dispatcher.dispatch (records.map (·.through b)) = store.dispatcher.dispatch records

/-- The events of a call are serialized alike through both stream ids, and taken alike. -/
def HandedAlike (a b : StreamId) (call : Call E) : Prop :=
  request store.dispatcher.serde (call.through b) =
      (request store.dispatcher.serde (call.through a)).map (·.through b) ∧
    ∀ streamId versioning events, request store.dispatcher.serde (call.through a) =
      .ok (.insert streamId versioning events) → TakenAlike store events b

/-- The streams are found alike through both stream ids: always on Django, and on SQLAlchemy
if both have names that compare to the row, or neither has. -/
def FoundAlike (db : Database) (a b : StreamId) : Prop :=
  match store with
  | .sqlAlchemy _ => ∀ row ∈ db.streams, row.compares a = row.compares b
  | .django _ => True

/-- Events go alike to the stream through both stream ids, which is there: on SQLAlchemy if both
name it, or neither does, and the category is not empty text; on Django if neither has its name,
and both are refused. -/
def AppendedAlike (db : Database) (a b : StreamId) : Prop :=
  ∃ row ∈ db.streams, row.key = columns a ∧
    match store with
    | .sqlAlchemy _ => a.category ≠ some "" ∧ (Names a row.toStreamHead ↔ Names b row.toStreamHead)
    | .django _ => row.name ≠ a.name ∧ row.name ≠ b.name

/-- The store does not tell the stream ids apart in a call. -/
def Alike (db : Database) (a b : StreamId) : Call E → Prop
  | .loadStream _ _ _ => FoundAlike store db a b
  | .deleteStream _ => FoundAlike store db a b
  | call => a = b ∨ AppendedAlike store db a b ∧ HandedAlike store a b call

/-- The outcome of the call shows whether the stream ids are told apart: it loads a whole
stream, or deletes, or appends with success. -/
def Tells (db : Database) (a b : StreamId) : Call E → Prop
  | .loadStream _ start stop => start = none ∧ stop = none
  | .deleteStream _ => True
  | call => HandedAlike store a b call ∧ (step store db (call.through a)).1.isOk

end Taken

section Interchange
variable {store : SqlStore E} {db : Database} {a b : StreamId} {events : List RawEvent}
  {versioning : Versioning} {row : StreamRow}

theorem selects_alike (h : Inv store uuid5 db) (ha : a.Accepted uuid5) (hb : b.Accepted uuid5)
    (heq : a.eq b) (halike : FoundAlike store db a b) :
    ∀ row ∈ db.streams, store.selects a row.toStreamHead = store.selects b row.toStreamHead := by
  cases store with
  | sqlAlchemy strategy => exact halike
  | django strategy =>
    intro row hrow
    have haccepted := (h.row hrow).2
    have hcolumns := columns_eq heq
    rw [SqlStore.selects, SqlStore.selects, Bool.eq_iff_iff]
    constructor
    · intro haddressed
      exact addressed_of_columns ((columns_of_addressed haccepted ha haddressed).trans hcolumns)
    · intro haddressed
      exact addressed_of_columns
        ((columns_of_addressed haccepted hb haddressed).trans hcolumns.symm)

/-- Where streams are found alike, reads give the same. -/
theorem fetchEvents_alike (hs : db.Sound store.engine)
    (hselects : ∀ row ∈ db.streams,
      store.selects a row.toStreamHead = store.selects b row.toStreamHead)
    (start stop : Option ℤ) : store.storageStrategy.fetchEvents a start stop db =
      store.storageStrategy.fetchEvents b start stop db := by
  apply fetchEvents_congr store hs hs
  apply List.filter_congr
  intro v hv
  obtain ⟨row, hrow, -, rfl⟩ := mem_view.1 hv
  exact hselects row hrow

theorem belongs_congr {hit hit' : StreamRow → Bool}
    (h : ∀ row ∈ db.streams, hit row = hit' row) (id : ℕ) :
    db.belongs hit id = db.belongs hit' id := by
  unfold Database.belongs
  rw [Bool.eq_iff_iff, List.any_eq_true, List.any_eq_true]
  refine exists_congr fun row => and_congr_right fun hrow => ?_
  rw [h row hrow]

/-- Deletions go by the streams that are hit. -/
theorem delete_congr {hit hit' : StreamRow → Bool} (h : ∀ row ∈ db.streams, hit row = hit' row) :
    db.deleteEvents hit = db.deleteEvents hit' ∧
      db.deleteSnapshots hit = db.deleteSnapshots hit' ∧
      db.deleteStreams hit = db.deleteStreams hit' := by
  unfold Database.deleteEvents Database.deleteSnapshots Database.deleteStreams
  simp only [belongs_congr h]
  refine ⟨trivial, trivial, ?_⟩
  congr 1
  apply List.filter_congr
  intro row hrow
  rw [h row hrow]

theorem setVersion_congr {hit hit' : StreamRow → Bool}
    (h : ∀ row ∈ db.streams, hit row = hit' row) (version : Option ℤ) :
    db.setVersion hit version = db.setVersion hit' version := by
  unfold Database.setVersion
  congr 1
  apply List.map_congr_left
  intro row hrow
  rw [h row hrow]

/-- Where streams are found alike, deletions do the same. -/
theorem deleteStream_alike (hselects : ∀ row ∈ db.streams,
      store.selects a row.toStreamHead = store.selects b row.toStreamHead) :
    store.storageStrategy.deleteStream a db = store.storageStrategy.deleteStream b db := by
  cases store with
  | sqlAlchemy strategy =>
    have hcompares : ∀ row ∈ db.streams, row.compares a = row.compares b := hselects
    have hdelete : strategy.deleteStream a db = strategy.deleteStream b db := by
      unfold SqlAlchemyStorageStrategy.deleteStream
      dsimp only
      rw [(delete_congr hcompares).1]
      set deleted := db.deleteEvents fun row => row.compares b
      have hrest : ∀ row ∈ deleted.streams, row.compares a = row.compares b := hcompares
      simp only [belongs_congr hrest, (delete_congr hrest).2.2]
    exact congrArg (StorageStrategy.undo Database.rollback db) hdelete
  | django strategy =>
    have hdelete : strategy.deleteStream a db = strategy.deleteStream b db := by
      have hhit : ∀ row ∈ db.streams,
          (row.addressed a && row.tenantId = strategy.tenantId) =
            (row.addressed b && row.tenantId = strategy.tenantId) := by
        intro row hrow
        exact congrArg (· && decide (row.tenantId = strategy.tenantId)) (hselects row hrow)
      unfold DjangoStorageStrategy.deleteStream
      dsimp only
      rw [(delete_congr hhit).1]
      set deleted := db.deleteEvents fun row =>
        row.addressed b && row.tenantId = strategy.tenantId
      have hrest : ∀ row ∈ deleted.streams,
          (row.addressed a && row.tenantId = strategy.tenantId) =
            (row.addressed b && row.tenantId = strategy.tenantId) := hhit
      rw [(delete_congr hrest).2.1]
      set emptied := deleted.deleteSnapshots fun row =>
        row.addressed b && row.tenantId = strategy.tenantId
      have hlast : ∀ row ∈ emptied.streams,
          (row.addressed a && row.tenantId = strategy.tenantId) =
            (row.addressed b && row.tenantId = strategy.tenantId) := hhit
      rw [(delete_congr hlast).2.2]
    exact congrArg (StorageStrategy.undo Database.rollback db) hdelete

/-- An accepted id addresses the row with its columns only. -/
theorem Inv.addressed_one (h : Inv store uuid5 db) (ha : a.Accepted uuid5)
    (hrow : row ∈ db.streams) (hkey : row.key = columns a) :
    (db.streams.filter fun row => row.addressed a && row.tenantId = store.tenantId) = [row] := by
  apply filter_eq_singleton (List.Nodup.of_map _ h.sound.ids) hrow
  intro other hother
  obtain ⟨ht, haccepted⟩ := h.row hother
  simp only [ht, decide_true, Bool.and_true]
  constructor
  · intro haddressed
    apply eq_of_key h.sound.uniqueKeys hother hrow (ht.trans (h.row hrow).1.symm)
    rw [hkey]
    exact columns_of_addressed haccepted ha haddressed
  · rintro rfl
    exact addressed_of_columns hkey

/-- Ids that name the same row compare to the same rows. -/
theorem Inv.compares_alike (h : Inv store uuid5 db) (hcolumns : columns a = columns b)
    (hrow : row ∈ db.streams) (hkey : row.key = columns a) (hnames : Names a row.toStreamHead)
    (hnames' : Names b row.toStreamHead) :
    ∀ other ∈ db.streams, other.compares a = other.compares b := by
  intro other hother
  by_cases hotherKey : other.key = columns a
  · have hsame : other = row := by
      apply eq_of_key h.sound.uniqueKeys hother hrow _ (hotherKey.trans hkey.symm)
      exact (h.row hother).1.trans (h.row hrow).1.symm
    rw [hsame, compares_of_names hkey hnames, compares_of_names (hkey.trans hcolumns) hnames']
  · have hmiss : ¬ other.compares a := fun hcompares =>
      hotherKey (columns_of_compares hcompares)
    have hmiss' : ¬ other.compares b := fun hcompares =>
      hotherKey ((columns_of_compares hcompares).trans hcolumns.symm)
    rw [Bool.not_eq_true] at hmiss hmiss'
    rw [hmiss, hmiss']

theorem putIntoOutbox_alike {strategy : OutboxStrategy} {records : List RecordedRaw}
    (hrecords : records.map (·.entry) = events)
    (hfiltered : ∀ raw ∈ events, strategy.filterer (raw.through b) = strategy.filterer raw)
    (huuid : ∀ raw ∈ events, raw.streamId.uuid = b.uuid) :
    unnamed (strategy.putIntoOutbox records db) =
      unnamed (strategy.putIntoOutbox (records.map (·.through b)) db) := by
  have hentry : ∀ record ∈ records, record.entry ∈ events := by
    intro record hrecord
    rw [← hrecords]
    exact List.mem_map_of_mem hrecord
  have hfilter : (records.map (·.through b)).filter (fun record =>
      strategy.filterer record.entry) =
        (records.filter fun record => strategy.filterer record.entry).map (·.through b) := by
    rw [List.filter_map]
    congr 1
    apply List.filter_congr
    intro record hrecord
    exact hfiltered record.entry (hentry record hrecord)
  unfold unnamed OutboxStrategy.putIntoOutbox
  dsimp only
  congr 1
  rw [hfilter, List.map_append, List.map_append]
  congr 1
  rw [List.map_map, List.map_map, List.map_map]
  apply List.map_congr_left
  intro record hrecord
  have hsame := huuid record.entry (hentry record (List.mem_of_mem_filter hrecord))
  simp only [Function.comp_apply, hsame]
  rfl

theorem storeEvents_alike {strategy : SqlAlchemyStorageStrategy E} (heq : a.eq b)
    (hstream : ∀ raw ∈ events, raw.streamId = a)
    (htaken : TakenAlike (.sqlAlchemy strategy) events b) (stream : StreamRow) (db : Database) :
    Same (strategy.storeEvents stream events db)
      (strategy.storeEvents stream (events.map (·.through b)) db) := by
  have hentries : (events.map (·.through b)).map EventBody.ofRaw = events.map .ofRaw := by
    rw [List.map_map]
    rfl
  have huuid : ∀ raw ∈ events, raw.streamId.uuid = b.uuid := by
    intro raw hraw
    rw [hstream raw hraw]
    exact congrArg Prod.fst (StreamId.eq_iff.1 heq)
  unfold SqlAlchemyStorageStrategy.storeEvents
  simp only [hentries]
  split
  · set added := db.addEvents strategy.engine stream.id (events.map .ofRaw) with hadded
    have hlength : added.1.length = events.length := by
      simp [hadded, Database.addEvents]
    have hrecords : recordsOf strategy.tenantId (events.map (·.through b)) added.1 =
        (recordsOf strategy.tenantId events added.1).map (·.through b) := by
      unfold recordsOf
      rw [List.zipWith_map_left, List.map_zipWith]
      rfl
    have hentry := recordsOf_entry strategy.tenantId hlength
    rw [hrecords]
    refine ⟨(htaken.dispatched _ hentry).symm, ?_⟩
    cases houtbox : strategy.outbox with
    | none => rfl
    | some outbox => exact putIntoOutbox_alike hentry (htaken.filtered outbox houtbox) huuid
  · exact ⟨rfl, rfl⟩

/-- Ids that both name the row, or both do not, find it alike for an append. -/
theorem ensureStream_alike {strategy : SqlAlchemyStorageStrategy E}
    (h : Inv (.sqlAlchemy strategy) uuid5 db) (ha : a.Accepted uuid5) (hb : b.Accepted uuid5)
    (heq : a.eq b) (halike : AppendedAlike (.sqlAlchemy strategy) db a b)
    (versioning : Versioning) :
    strategy.ensureStream a versioning db = strategy.ensureStream b versioning db := by
  obtain ⟨row, hrow, hkey, hcategory, hnames⟩ := halike
  have hcolumns := columns_eq heq
  have hkey' := hkey.trans hcolumns
  have hcategory' : b.category ≠ some "" := by
    have hsame : a.category = b.category := congrArg Prod.snd (StreamId.eq_iff.1 heq)
    rwa [← hsame]
  have hmatching : strategy.matchingStreams a db = [row] := h.addressed_one ha hrow hkey
  have hmatching' : strategy.matchingStreams b db = [row] := h.addressed_one hb hrow hkey'
  simp only [SqlAlchemyStorageStrategy.ensureStream, SqlAlchemyStorageStrategy.openStream,
    hmatching, hmatching', List.isEmpty_cons, Bool.false_eq_true, if_false,
    chooseStream_one StreamRow.toStreamHead hkey hcategory,
    chooseStream_one StreamRow.toStreamHead hkey' hcategory', ← hnames]
  by_cases hnamed : Names a row.toStreamHead
  · simp only [if_pos hnamed]
    have hhit : ∀ expected : ℤ, ∀ other ∈ db.streams,
        (other.compares a && other.version = some expected) =
          (other.compares b && other.version = some expected) := by
      intro expected other hother
      rw [h.compares_alike hcolumns hrow hkey hnamed (hnames.1 hnamed) other hother]
    have hcount : ∀ expected : ℤ, db.streams.countP (fun other =>
        other.compares a && other.version = some expected) =
          db.streams.countP fun other => other.compares b && other.version = some expected :=
      fun expected => List.countP_congr fun other hother => by rw [hhit expected other hother]
    simp only [hcount, fun expected => setVersion_congr (hhit expected) versioning.initialVersion]
  · simp only [if_neg hnamed]

theorem sqlAlchemy_insert_alike {strategy : SqlAlchemyStorageStrategy E}
    (h : Inv (.sqlAlchemy strategy) uuid5 db) (ha : a.Accepted uuid5) (hb : b.Accepted uuid5)
    (heq : a.eq b) (halike : AppendedAlike (.sqlAlchemy strategy) db a b)
    (hstream : ∀ raw ∈ events, raw.streamId = a)
    (htaken : TakenAlike (.sqlAlchemy strategy) events b) (versioning : Versioning) :
    Same (strategy.insertEvents a versioning events db)
      (strategy.insertEvents b versioning (events.map (·.through b)) db) := by
  unfold SqlAlchemyStorageStrategy.insertEvents
  rw [← ensureStream_alike h ha hb heq halike]
  obtain ⟨answer, ensured⟩ := strategy.ensureStream a versioning db
  cases answer with
  | error e => exact ⟨rfl, rfl⟩
  | ok stream => exact storeEvents_alike heq hstream htaken stream ensured

/-- Django refuses events for a row through an id with another name. -/
theorem django_insert_refused {strategy : DjangoStorageStrategy E}
    (h : Inv (.django strategy) uuid5 db) (ha : a.Accepted uuid5) (hrow : row ∈ db.streams)
    (hkey : row.key = columns a) (hname : row.name ≠ a.name) (versioning : Versioning)
    (events : List RawEvent) :
    strategy.insertEvents a versioning events db = (.error .integrityError, db) := by
  have hmatching : strategy.byStreamId a db = [row] := h.addressed_one ha hrow hkey
  have huuid : row.uuid = a.uuid := congrArg Prod.fst hkey
  have hcheck := DjangoStorageStrategy.checkName_one StreamRow.toStreamHead huuid
  have hnone : (db.streams.filter fun row =>
      DjangoStorageStrategy.sameColumns a row.toStreamHead &&
        row.tenantId = strategy.tenantId) = [] := by
    rw [List.filter_eq_nil_iff]
    intro other hother hsame
    simp only [DjangoStorageStrategy.sameColumns, Bool.and_eq_true, decide_eq_true_eq] at hsame
    have hotherKey : other.key = row.key := by
      rw [hkey]
      exact Prod.ext hsame.1.1.1 hsame.1.2
    have hrowTenant : row.tenantId = strategy.tenantId := (h.row hrow).1
    rw [eq_of_key h.sound.uniqueKeys hother hrow (hsame.2.trans hrowTenant.symm) hotherKey] at hsame
    exact hname hsame.1.1.2
  have hclash : (db.streams.any fun row => row.tenantId = strategy.tenantId &&
      (StreamHead.ofStreamId a versioning.initialVersion).clashes row.toStreamHead) = true := by
    have hrowTenant : row.tenantId = strategy.tenantId := (h.row hrow).1
    refine List.any_eq_true.2 ⟨row, hrow, ?_⟩
    simp only [hrowTenant, decide_true, Bool.true_and]
    exact StreamHead.clashes_of_key hkey
  simp only [DjangoStorageStrategy.insertEvents, DjangoStorageStrategy.ensureStream, hmatching,
    hcheck, DjangoStorageStrategy.getOrCreate, hnone, DjangoStorageStrategy.getOne, hclash]
  rfl

/-- Where events go alike to the stream, appends do the same. -/
theorem insertEvents_alike (h : Inv store uuid5 db) (ha : a.Accepted uuid5)
    (hb : b.Accepted uuid5) (heq : a.eq b) (halike : AppendedAlike store db a b)
    (hstream : ∀ raw ∈ events, raw.streamId = a) (htaken : TakenAlike store events b)
    (versioning : Versioning) :
    Same (store.storageStrategy.insertEvents a versioning events db)
      (store.storageStrategy.insertEvents b versioning (events.map (·.through b)) db) := by
  cases store with
  | sqlAlchemy strategy =>
    exact (sqlAlchemy_insert_alike h ha hb heq halike hstream htaken versioning).undo
  | django strategy =>
    obtain ⟨row, hrow, hkey, hname, hname'⟩ := halike
    have hinsert := django_insert_refused h ha hrow hkey hname versioning events
    have hinsert' := django_insert_refused h hb hrow (hkey.trans (columns_eq heq)) hname' versioning
      (events.map (·.through b))
    have hsame : Same (strategy.insertEvents a versioning events db)
        (strategy.insertEvents b versioning (events.map (·.through b)) db) := by
      rw [hinsert, hinsert']
      exact ⟨rfl, rfl⟩
    exact hsame.undo

/-- An append that the store does not tell the stream ids apart in. -/
theorem step_append_alike {call : Call E} (h : Inv store uuid5 db) (hcall : call.Appends)
    (ha : a.Accepted uuid5) (hb : b.Accepted uuid5) (heq : a.eq b)
    (halike : AppendedAlike store db a b) (hhanded : HandedAlike store a b call) :
    Same (step store db (call.through a)) (step store db (call.through b)) := by
  obtain ⟨hrequest, htaken⟩ := hhanded
  cases hr : request store.dispatcher.serde (call.through a) with
  | error e =>
    rw [hr] at hrequest
    rw [step_of_error hr, step_of_error hrequest]
    exact ⟨rfl, rfl⟩
  | ok r =>
    obtain ⟨versioning, events, rfl, hstream⟩ := request_appends (hcall.through a) hr
    rw [Call.streamId_through] at hstream hr
    rw [hr] at hrequest
    rw [step_of_insert hr, step_of_insert hrequest]
    exact (insertEvents_alike h ha hb heq halike hstream (htaken a versioning events hr)
      versioning).map fun answer => answer.map fun _ => []

/-- A call that the store does not tell the stream ids apart in does the same through both. -/
theorem step_alike {call : Call E} (h : Inv store uuid5 db) (hcall : call.SavesNone)
    (ha : a.Accepted uuid5) (hb : b.Accepted uuid5) (heq : a.eq b)
    (halike : Alike store db a b call) :
    Same (step store db (call.through a)) (step store db (call.through b)) := by
  cases call with
  | append first events streamId expected =>
    rcases halike with rfl | ⟨happended, hhanded⟩
    · exact ⟨rfl, rfl⟩
    · exact step_append_alike h trivial ha hb heq happended hhanded
  | appendEvents first events streamId expected =>
    rcases halike with rfl | ⟨happended, hhanded⟩
    · exact ⟨rfl, rfl⟩
    · exact step_append_alike h trivial ha hb heq happended hhanded
  | loadStream streamId start stop =>
    have hfetch := fetchEvents_alike h.sound (selects_alike h ha hb heq halike) start stop
    refine ⟨?_, rfl⟩
    exact congrArg (finish store.dispatcher.serde) hfetch
  | saveSnapshot streamId snapshot => exact hcall.elim
  | deleteStream streamId =>
    have hdelete := deleteStream_alike (selects_alike h ha hb heq halike)
    have hstep : step store db (.deleteStream a) = step store db (.deleteStream b) :=
      congrArg answered hdelete
    exact ⟨congrArg Prod.fst hstep, congrArg (fun r => unnamed r.2) hstep⟩

end Interchange

section Converse
variable {store : SqlStore E} {db : Database} {a b : StreamId}

theorem found_of_selects (h : ∀ row ∈ db.streams,
      store.selects a row.toStreamHead = store.selects b row.toStreamHead) :
    FoundAlike store db a b := by
  cases store with
  | sqlAlchemy strategy => exact h
  | django strategy => trivial

/-- Deletions that do the same have found the same. -/
theorem found_of_deletions (h : Inv store uuid5 db)
    (hsame : Same (step store db (.deleteStream a)) (step store db (.deleteStream b))) :
    FoundAlike store db a b := by
  have hkept : ((db.view store.tenantId).filter fun v => !store.selects a v.toStreamHead) =
      (db.view store.tenantId).filter fun v => !store.selects b v.toStreamHead :=
    (h.deleteStream a).2.symm.trans ((hsame.view _).trans (h.deleteStream b).2)
  apply found_of_selects
  intro row hrow
  have hmem : db.viewOf row ∈ db.view store.tenantId :=
    mem_view.2 ⟨row, hrow, (h.row hrow).1, rfl⟩
  have hiff : db.viewOf row ∈ _ ↔ db.viewOf row ∈ _ :=
    iff_of_eq (congrArg (db.viewOf row ∈ ·) hkept)
  simp only [List.mem_filter, hmem, true_and, Bool.not_eq_true'] at hiff
  rw [Bool.eq_iff_iff, ← Bool.not_eq_false, ← Bool.not_eq_false]
  exact not_congr hiff

/-- Nothing is loaded if and only if nothing is found. -/
theorem load_eq_nil_iff {strategy : SqlAlchemyStorageStrategy E}
    (h : Inv (.sqlAlchemy strategy) uuid5 db) (a : StreamId) :
    (step (.sqlAlchemy strategy) db (.loadStream a none none)).1 = .ok [] ↔
      ∀ row ∈ db.streams, row.compares a = false := by
  have hanswer : (step (.sqlAlchemy strategy) db (.loadStream a none none)).1 =
      finish strategy.dispatcher.serde (.ok (SqlAlchemyViews.fetch strategy.engine a none none
        (db.view strategy.tenantId))) :=
    congrArg (finish strategy.dispatcher.serde)
      (SqlAlchemyViews.fetchEvents_view h.sound.uniqueKeys a none none)
  have hmem : ∀ row ∈ db.streams, db.viewOf row ∈ db.view strategy.tenantId :=
    fun row hrow => mem_view.2 ⟨row, hrow, (h.row hrow).1, rfl⟩
  rw [hanswer]
  unfold SqlAlchemyViews.fetch
  cases hfound : (db.view strategy.tenantId).filter fun v => v.compares a with
  | nil =>
    refine ⟨fun _ row hrow => ?_, fun _ => rfl⟩
    rw [← Bool.not_eq_true]
    exact List.filter_eq_nil_iff.1 hfound (db.viewOf row) (hmem row hrow)
  | cons v rest =>
    obtain ⟨hv, hcompares⟩ := List.mem_filter.1 (hfound ▸ List.mem_cons_self : v ∈ _)
    constructor
    · intro hnil
      have hversions := strategy.dispatcher.serde.deserializeMany_version (mapError_eq_ok.1 hnil)
      have hsnapshots : v.snapshots = [] := by
        obtain ⟨row, -, -, rfl⟩ := mem_view.1 hv
        simp [Database.viewOf, Database.snapshotsOf, h.snapshots]
      dsimp only at hversions
      rw [hsnapshots, RowVersions.fetchRows_inOrder, List.map_nil, eq_comm, List.map_eq_nil_iff,
        List.map_eq_nil_iff] at hversions
      obtain ⟨body, hbody⟩ := List.exists_mem_of_ne_nil _ (h.held v hv)
      have hread : body ∈ LastVersions.inOrder strategy.engine v.events :=
        LastVersions.mem_inOrder.2 hbody
      rw [hversions] at hread
      cases hread
    · intro hnone
      obtain ⟨row, hrow, -, rfl⟩ := mem_view.1 hv
      have hmiss : (db.viewOf row).compares a = false := hnone row hrow
      rw [hmiss] at hcompares
      cases hcompares

/-- Equal ids that both find a stream find the same one. -/
theorem Inv.compares_of_found (h : Inv store uuid5 db) (hcolumns : columns a = columns b)
    {row : StreamRow} (hrow : row ∈ db.streams) (hcompares : row.compares a)
    (hfound : ¬ ∀ row ∈ db.streams, row.compares b = false) : row.compares b = true := by
  push Not at hfound
  obtain ⟨other, hother, hothers⟩ := hfound
  rw [ne_eq, Bool.not_eq_false] at hothers
  have hsame : row = other := by
    apply eq_of_key h.sound.uniqueKeys hrow hother ((h.row hrow).1.trans (h.row hother).1.symm)
    exact (columns_of_compares hcompares).trans (hcolumns.trans (columns_of_compares hothers).symm)
  rwa [hsame]

/-- Loads that give the same have found the same. -/
theorem found_of_loads (h : Inv store uuid5 db) (heq : a.eq b)
    (hsame : Same (step store db (.loadStream a none none))
      (step store db (.loadStream b none none))) : FoundAlike store db a b := by
  cases store with
  | django strategy => trivial
  | sqlAlchemy strategy =>
    have hiff := load_eq_nil_iff h a
    rw [hsame.1, load_eq_nil_iff h b] at hiff
    have hcolumns := columns_eq heq
    intro row hrow
    rw [Bool.eq_iff_iff]
    constructor
    · intro hcompares
      apply h.compares_of_found hcolumns hrow hcompares
      intro hnone
      rw [hiff.1 hnone row hrow] at hcompares
      cases hcompares
    · intro hcompares
      apply h.compares_of_found hcolumns.symm hrow hcompares
      intro hnone
      rw [hiff.2 hnone row hrow] at hcompares
      cases hcompares

/-- An insertion that succeeds has named the row that was there. -/
theorem names_of_insert_ok {strategy : SqlAlchemyStorageStrategy E}
    (h : Inv (.sqlAlchemy strategy) uuid5 db) (ha : a.Accepted uuid5) {row : StreamRow}
    (hrow : row ∈ db.streams) (hkey : row.key = columns a) {versioning : Versioning}
    {events : List RawEvent}
    (hok : (strategy.insertEvents a versioning events db).1 = .ok ()) :
    a.category ≠ some "" ∧ Names a row.toStreamHead := by
  have hmatching : strategy.matchingStreams a db = [row] := h.addressed_one ha hrow hkey
  have hchosen : ∃ stream, SqlAlchemyStorageStrategy.chooseStream StreamRow.toStreamHead a [row] =
      .ok stream := by
    unfold SqlAlchemyStorageStrategy.insertEvents SqlAlchemyStorageStrategy.ensureStream
      SqlAlchemyStorageStrategy.openStream at hok
    simp only [hmatching, List.isEmpty_cons, Bool.false_eq_true, if_false] at hok
    cases hchosen : SqlAlchemyStorageStrategy.chooseStream StreamRow.toStreamHead a [row] with
    | ok stream => exact ⟨stream, rfl⟩
    | error e =>
      rw [hchosen] at hok
      cases hok
  obtain ⟨stream, hchosen⟩ := hchosen
  have hcategory : a.category ≠ some "" := by
    intro hempty
    have heq := (SqlAlchemyStorageStrategy.chooseStream_eq_ok hchosen).2
    have hsame := congrArg Prod.snd (StreamId.eq_iff.1 heq)
    simp only [StreamId.key, StreamHead.streamId, hempty] at hsame
    split at hsame
    · cases hsame
    · rename_i hne
      exact hne (Option.some.inj hsame)
  refine ⟨hcategory, ?_⟩
  by_contra hnames
  rw [chooseStream_one StreamRow.toStreamHead hkey hcategory, if_neg hnames] at hchosen
  cases hchosen

/-- An insertion that succeeds where no stream has the columns has created one with the name. -/
theorem name_of_inserted {streams streams' : Streams} {versioning : Versioning}
    {bodies : List EventBody} (hnone : ∀ v ∈ streams, v.key ≠ columns a)
    (hinserted : Inserted a versioning bodies streams streams') :
    ∀ v ∈ streams', v.key = columns a → v.name = a.name := by
  obtain ⟨base, hsearched, -, rfl⟩ := hinserted
  have hbase : ∀ v ∈ base, v.key = columns a → v.name = a.name := by
    rcases hsearched with rfl | ⟨-, rfl⟩
    · exact fun v hv hkey => absurd hkey (hnone v hv)
    · intro v hv hkey
      rcases List.mem_append.1 hv with hv | hv
      · exact absurd hkey (hnone v hv)
      · rw [List.mem_singleton.1 hv]
        rfl
  intro v' hv' hkey'
  obtain ⟨v, hv, rfl⟩ := List.mem_map.1 hv'
  by_cases hkey : v.key = columns a
  · rw [if_pos hkey]
    exact hbase v hv hkey
  · rw [if_neg hkey] at hkey'
    exact absurd hkey' hkey

theorem eq_of_name (heq : a.eq b) (hname : a.name = b.name) : a = b := by
  have hkey := StreamId.eq_iff.1 heq
  simp only [StreamId.key, Prod.mk.injEq] at hkey
  obtain ⟨uuid, name, category⟩ := a
  obtain ⟨uuid', name', category'⟩ := b
  dsimp only at hkey hname
  rw [hkey.1, hkey.2, hname]

/-- Insertions that succeed and do the same have gone alike to the stream. -/
theorem appended_of_inserts (h : Inv store uuid5 db) (ha : a.Accepted uuid5)
    (hb : b.Accepted uuid5) (heq : a.eq b) {versioning : Versioning} {events : List RawEvent}
    (hstream : ∀ raw ∈ events, raw.streamId = a)
    (hok : (store.storageStrategy.insertEvents a versioning events db).1 = .ok ())
    (hsame : Same (store.storageStrategy.insertEvents a versioning events db)
      (store.storageStrategy.insertEvents b versioning (events.map (·.through b)) db)) :
    a = b ∨ AppendedAlike store db a b := by
  have hok' := hsame.1.symm.trans hok
  have hcolumns := columns_eq heq
  by_cases hthere : ∃ row ∈ db.streams, row.key = columns a
  · obtain ⟨row, hrow, hkey⟩ := hthere
    have hkey' := hkey.trans hcolumns
    cases store with
    | sqlAlchemy strategy =>
      have hanswer := (StorageStrategy.undo_answer _ db _).symm.trans hok
      have hanswer' := (StorageStrategy.undo_answer _ db _).symm.trans hok'
      obtain ⟨hcategory, hnames⟩ := names_of_insert_ok h ha hrow hkey hanswer
      obtain ⟨-, hnames'⟩ := names_of_insert_ok h hb hrow hkey' hanswer'
      exact .inr ⟨row, hrow, hkey, hcategory, iff_of_true hnames hnames'⟩
    | django strategy =>
      have hname : ∀ {id : StreamId} {events : List RawEvent}, id.Accepted uuid5 →
          row.key = columns id → (strategy.insertEvents id versioning events db).1 = .ok () →
            row.name = id.name := by
        intro id events hid hkey hok
        by_contra hother
        rw [django_insert_refused h hid hrow hkey hother] at hok
        cases hok
      have ha' := hname ha hkey ((StorageStrategy.undo_answer _ db _).symm.trans hok)
      have hb' := hname hb hkey' ((StorageStrategy.undo_answer _ db _).symm.trans hok')
      exact .inl (eq_of_name heq (ha'.symm.trans hb'))
  · left
    apply eq_of_name heq
    have hnone : ∀ v ∈ db.view store.tenantId, v.key ≠ columns a := by
      intro v hv hkey
      obtain ⟨row, hrow, -, rfl⟩ := mem_view.1 hv
      exact hthere ⟨row, hrow, hkey⟩
    have hstream' : ∀ raw ∈ events.map (·.through b), raw.streamId = b := by
      intro raw hraw
      obtain ⟨raw, -, rfl⟩ := List.mem_map.1 hraw
      rfl
    obtain ⟨-, -, hcases⟩ := store.insertEvents_inserted versioning h.sound h.only hstream
    obtain ⟨-, -, hcases'⟩ := store.insertEvents_inserted versioning h.sound h.only hstream'
    rcases hcases with ⟨⟨e, herror⟩, -⟩ | ⟨-, hinserted⟩
    · cases hok.symm.trans herror
    rcases hcases' with ⟨⟨e, herror⟩, -⟩ | ⟨-, hinserted'⟩
    · cases hok'.symm.trans herror
    obtain ⟨-, v, hv, hkey⟩ := hinserted.grows
    have hname' := name_of_inserted (hcolumns ▸ hnone) hinserted' v (hsame.view _ ▸ hv)
      (hkey.trans hcolumns)
    exact (name_of_inserted hnone hinserted v hv hkey).symm.trans hname'

/-- Appends that succeed and do the same have gone alike to the stream. -/
theorem appended_of_steps {call : Call E} (h : Inv store uuid5 db) (hcall : call.Appends)
    (ha : a.Accepted uuid5) (hb : b.Accepted uuid5) (heq : a.eq b)
    (hhanded : HandedAlike store a b call) (hok : (step store db (call.through a)).1.isOk)
    (hsame : Same (step store db (call.through a)) (step store db (call.through b))) :
    a = b ∨ AppendedAlike store db a b := by
  obtain ⟨hrequest, -⟩ := hhanded
  cases hr : request store.dispatcher.serde (call.through a) with
  | error e =>
    rw [step_of_error hr] at hok
    cases hok
  | ok r =>
    obtain ⟨versioning, events, rfl, hstream⟩ := request_appends (hcall.through a) hr
    rw [Call.streamId_through] at hstream hr
    rw [hr] at hrequest
    rw [step_of_insert hr] at hok hsame
    rw [step_of_insert hrequest] at hsame
    have hdone : ∀ answer : Except Error Unit, (answer.map fun _ : Unit =>
        ([] : List (WrappedEvent E))).isOk → answer = .ok () := by
      intro answer hok
      cases answer with
      | error e => cases hok
      | ok u => rfl
    have hinsert := hdone _ hok
    have hinsert' := hdone _ (hsame.1 ▸ hok)
    exact appended_of_inserts h ha hb heq hstream hinsert ⟨hinsert.trans hinsert'.symm, hsame.2⟩

/-- Ids through which such a call does the same are not told apart in it. -/
theorem alike_of_same {call : Call E} (h : Inv store uuid5 db) (hcall : call.SavesNone)
    (ha : a.Accepted uuid5) (hb : b.Accepted uuid5) (heq : a.eq b)
    (htells : Tells store db a b call)
    (hsame : Same (step store db (call.through a)) (step store db (call.through b))) :
    Alike store db a b call := by
  cases call with
  | append first events streamId expected =>
    have hcall : (Call.append first events streamId expected).Appends := trivial
    exact (appended_of_steps h hcall ha hb heq htells.1 htells.2 hsame).imp_right
      fun happended => ⟨happended, htells.1⟩
  | appendEvents first events streamId expected =>
    have hcall : (Call.appendEvents first events streamId expected).Appends := trivial
    exact (appended_of_steps h hcall ha hb heq htells.1 htells.2 hsame).imp_right
      fun happended => ⟨happended, htells.1⟩
  | loadStream streamId start stop =>
    obtain ⟨rfl, rfl⟩ := htells
    exact found_of_loads h heq hsame
  | saveSnapshot streamId snapshot => exact hcall.elim
  | deleteStream streamId => exact found_of_deletions h hsame

end Converse

section Main

/-- In every state that appends, loads and deletions through accepted stream ids lead to, a call
does the same through equal ids that the store does not tell apart in it, and only through
such ids if it loads a whole stream, deletes, or appends with success. A call through one id
leaves what is loaded through another, unless both have the same columns. -/
theorem streamIds_interchangeable (store : SqlStore E) {uuid5 : String → Uuid}
    {calls : List (Call E)}
    (hcalls : ∀ call ∈ calls, call.SavesNone ∧ call.streamId.Accepted uuid5) {a b : StreamId}
    (ha : a.Accepted uuid5) (hb : b.Accepted uuid5) {call : Call E} (hcall : call.SavesNone) :
    let db := (run (step store) {} calls).2
    (a.eq b →
      (Alike store db a b call →
        Same (step store db (call.through a)) (step store db (call.through b))) ∧
      (Tells store db a b call →
        Same (step store db (call.through a)) (step store db (call.through b)) →
          Alike store db a b call)) ∧
    (¬ a.eq b → columns a ≠ columns b → ∀ start stop,
      (store.eventStore store.dispatcher.serde).loadStream b start stop
          (step store db (call.through a)).2 =
        (store.eventStore store.dispatcher.serde).loadStream b start stop db) := by
  intro db
  have h : Inv store uuid5 db := run_inv hcalls
  refine ⟨fun heq => ⟨step_alike h hcall ha hb heq, alike_of_same h hcall ha hb heq⟩, ?_⟩
  intro _ hne start stop
  have hid := call.streamId_through a
  apply step_apart h (hcall.through a) _ hb _ start stop
  · rwa [hid]
  · rwa [hid]

end Main

section Example
open Tenants
open RowVersions (viaSqlAlchemy viaDjango)

/-- What stands for `uuid5`. -/
def hashed (name : String) : Uuid := BitVec.ofNat 128 name.length

def byName : StreamId := { uuid := 5, name := some "order" }

def byUuid : StreamId := { uuid := 5 }

def inNoCategory : StreamId := { uuid := 5, category := some "" }

def appendTo (streamId : StreamId) (uuid : Uuid) : Call Unit :=
  .appendEvents ⟨(), uuid, 0⟩ [] streamId .noVersioning

theorem dispatch_plain (records : List RecordedRaw) :
    plainDispatcher.dispatch records = .ok () := by
  induction records with
  | nil => rfl
  | cons record records ih => exact ih

/-- A stream that was created by name takes events by name and by uuid. -/
theorem streamIds_interchangeable_order :
    let db := (run (step viaSqlAlchemy) {} [appendTo byName 1]).2
    Same (step viaSqlAlchemy db (appendTo byUuid 2)) (step viaSqlAlchemy db (appendTo byName 2)) ∧
      (viaSqlAlchemy.eventStore plainSerde).loadStream invoice none none
          (step viaSqlAlchemy db (appendTo byName 2)).2 =
        (viaSqlAlchemy.eventStore plainSerde).loadStream invoice none none db := by
  intro db
  have hcalls : ∀ call ∈ [appendTo byName 1], call.SavesNone ∧ call.streamId.Accepted hashed := by
    intro call hcall
    rw [List.mem_singleton.1 hcall]
    exact ⟨trivial, by decide⟩
  have hname : byName.Accepted hashed := by decide
  have huuid : byUuid.Accepted hashed := by decide
  have hinvoice : invoice.Accepted hashed := by decide
  have hequal := @streamIds_interchangeable Unit viaSqlAlchemy hashed _ hcalls _ _ huuid hname
    (appendTo byUuid 2) trivial
  have hother := @streamIds_interchangeable Unit viaSqlAlchemy hashed _ hcalls _ _ hname hinvoice
    (appendTo byName 2) trivial
  have hrow : AppendedAlike viaSqlAlchemy db byUuid byName :=
    ⟨db.streams.head (by decide), List.head_mem _, rfl, by decide, by decide⟩
  have hhanded : HandedAlike viaSqlAlchemy byUuid byName (appendTo byUuid 2) := by
    refine ⟨rfl, fun streamId versioning events _ => ?_⟩
    constructor
    · intro strategy hnone
      cases hnone
    · intro records _
      exact (dispatch_plain _).trans (dispatch_plain _).symm
  exact ⟨(hequal.1 rfl).1 (.inr ⟨hrow, hhanded⟩), hother.2 (by decide) (by decide) none none⟩

/-- A stream that was created by uuid takes no events by name, and SQLAlchemy does not find it by
name either; an id without a category and one whose category is empty text share a stream. -/
theorem streamIds_told_apart :
    let loaded := fun (store : SqlStore Unit) (db : Database) (streamId : StreamId) =>
      (step store db (.loadStream streamId none none)).1.map List.length
    let byUuidFirst := fun store : SqlStore Unit => (run (step store) {} [appendTo byUuid 1]).2
    (byUuid.Accepted hashed ∧ byName.Accepted hashed ∧ byUuid.eq byName = true ∧
      loaded viaSqlAlchemy (byUuidFirst viaSqlAlchemy) byUuid = .ok 1 ∧
      loaded viaSqlAlchemy (byUuidFirst viaSqlAlchemy) byName = .ok 0 ∧
      (step viaSqlAlchemy (byUuidFirst viaSqlAlchemy) (appendTo byUuid 2)).1 = .ok [] ∧
      (step viaSqlAlchemy (byUuidFirst viaSqlAlchemy) (appendTo byName 2)).1 =
        .error .indexError ∧
      (step viaDjango (byUuidFirst viaDjango) (appendTo byUuid 2)).1 = .ok [] ∧
      (step viaDjango (byUuidFirst viaDjango) (appendTo byName 2)).1 = .error .integrityError) ∧
    (inNoCategory.Accepted hashed ∧ byUuid.eq inNoCategory = false ∧
      loaded viaSqlAlchemy {} inNoCategory = .ok 0 ∧
      loaded viaSqlAlchemy (byUuidFirst viaSqlAlchemy) inNoCategory = .ok 1 ∧
      loaded viaDjango {} inNoCategory = .ok 0 ∧
      loaded viaDjango (byUuidFirst viaDjango) inNoCategory = .ok 1) := by
  decide

end Example

end Sql.StreamIdentity

end EventSourcery
