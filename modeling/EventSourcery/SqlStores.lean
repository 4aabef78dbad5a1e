import EventSourcery.AppendAttempts
import EventSourcery.DjangoViews
import EventSourcery.SqlAlchemyViews

/-!
# The SQL stores as one

What the SQLAlchemy and the Django store have in common, for one tenant with a
transaction for each request. Snapshots matter to reads only: appends leave them
alone and never look at them, and a read without a snapshot in its range gives what
it would give if there were none. The rows of a stream's events come from the
appends to it.
-/
namespace EventSourcery.Sql
open AppendAttempts

inductive SqlStore (E : Type) where
  | sqlAlchemy (strategy : SqlAlchemyStorageStrategy E)
  | django (strategy : DjangoStorageStrategy E)

namespace SqlStore
variable {E : Type}

def engine : SqlStore E → Engine
  | sqlAlchemy strategy => strategy.engine
  | django strategy => strategy.engine

def tenantId : SqlStore E → TenantId
  | sqlAlchemy strategy => strategy.tenantId
  | django strategy => strategy.tenantId

def dispatcher : SqlStore E → Dispatcher E
  | sqlAlchemy strategy => strategy.dispatcher
  | django strategy => strategy.dispatcher

/-- The streams of the tenant that a read for a stream id selects. -/
def selects (store : SqlStore E) (streamId : StreamId) (head : StreamHead) : Bool :=
  match store with
  | sqlAlchemy _ => head.compares streamId
  | django _ => head.addressed streamId

/-- The strategy, with every request in a transaction of its own. -/
def storageStrategy : SqlStore E → StorageStrategy Database
  | sqlAlchemy strategy => strategy.storageStrategy.transactional Database.rollback
  | django strategy => strategy.storageStrategy.transactional Database.rollback

def eventStore (store : SqlStore E) (serde : Serde E) : EventStore E Database :=
  ⟨store.storageStrategy, serde⟩

end SqlStore

def StreamView.withoutSnapshots (stream : StreamView) : StreamView :=
  { stream with snapshots := [] }

namespace Database

def withoutSnapshots (db : Database) : Database := { db with snapshots := [] }

theorem view_withoutSnapshots (t : TenantId) (db : Database) :
    db.withoutSnapshots.view t = (db.view t).map StreamView.withoutSnapshots := by
  unfold view
  rw [List.map_map]
  rfl

/-- Tables that differ in snapshots only have the same streams, with the same events. -/
theorem view_of_withoutSnapshots {db db' : Database}
    (h : db'.withoutSnapshots = db.withoutSnapshots) {t : TenantId} {v : StreamView}
    (hv : v ∈ db'.view t) : ∃ w ∈ db.view t, w.key = v.key ∧ w.events = v.events := by
  have hviews : (db'.view t).map StreamView.withoutSnapshots =
      (db.view t).map StreamView.withoutSnapshots := by
    rw [← view_withoutSnapshots, h, view_withoutSnapshots]
  have hmem := List.mem_map_of_mem (f := StreamView.withoutSnapshots) hv
  rw [hviews] at hmem
  obtain ⟨w, hw, hsame⟩ := List.mem_map.1 hmem
  have hkey := congrArg (fun stream : StreamView => stream.key) hsame
  have hevents := congrArg (fun stream : StreamView => stream.events) hsame
  exact ⟨w, hw, hkey, hevents⟩

theorem Sound.withoutSnapshots {engine : Engine} {db : Database} (h : db.Sound engine) :
    db.withoutSnapshots.Sound engine :=
  ⟨h.ids, h.bounded, h.keys, h.events, by simp [Database.withoutSnapshots]⟩

end Database

section Rows
variable {α : Type} {engine : Engine} {body : α → EventBody} {start stop : Option ℤ}
  {events snapshots : List α}

/-- A read without a snapshot in its range. -/
theorem fetchRows_of_clear (h : ∀ x ∈ snapshots, inWindow start stop (body x).version = false) :
    fetchRows engine body start stop events snapshots =
      fetchRows engine body start stop events [] := by
  have hnone : snapshots.filter (fun x => inWindow start stop (body x).version) = [] := by
    rw [List.filter_eq_nil_iff]
    intro x hx
    simp [h x hx]
  simp [fetchRows, hnone]

theorem mem_of_mem_fetchRows {x : α} (h : x ∈ fetchRows engine body start stop events []) :
    x ∈ events := (mem_fetchRows engine h).resolve_right List.not_mem_nil

end Rows

/-- The selection of streams does not look at their snapshots. -/
theorem filter_withoutSnapshots (p : StreamHead → Bool) (streams : Streams) :
    (streams.map StreamView.withoutSnapshots).filter (fun v => p v.toStreamHead) =
      (streams.filter fun v => p v.toStreamHead).map StreamView.withoutSnapshots :=
  List.filter_map

section Reads
variable {E : Type} {store : SqlStore E} {db : Database} {streamId : StreamId}
  {start stop : Option ℤ} {engine : Engine} {streams : Streams}

theorem SqlAlchemyViews.fetch_withoutSnapshots (h : ∀ v ∈ streams, v.compares streamId →
    ∀ body ∈ v.snapshots, inWindow start stop body.version = false) :
    SqlAlchemyViews.fetch engine streamId start stop streams =
      SqlAlchemyViews.fetch engine streamId start stop
        (streams.map StreamView.withoutSnapshots) := by
  have hfilter := filter_withoutSnapshots (fun head => head.compares streamId) streams
  simp only [SqlAlchemyViews.fetch, hfilter]
  cases hfound : streams.filter fun v => v.compares streamId with
  | nil => rfl
  | cons v rest =>
    obtain ⟨hv, hcompares⟩ := List.mem_filter.1 (hfound ▸ List.mem_cons_self : v ∈ _)
    have hclear := h v hv hcompares
    exact congrArg (List.map (toRaw v.toStreamHead)) (fetchRows_of_clear hclear)

theorem DjangoViews.fetch_withoutSnapshots (h : ∀ v ∈ streams, v.addressed streamId →
    ∀ body ∈ v.snapshots, inWindow start stop body.version = false) :
    DjangoViews.fetch engine streamId start stop streams =
      DjangoViews.fetch engine streamId start stop
        (streams.map StreamView.withoutSnapshots) := by
  have hfilter := filter_withoutSnapshots (fun head => head.addressed streamId) streams
  simp only [DjangoViews.fetch, hfilter, DjangoStorageStrategy.getOne_map]
  cases hfound : DjangoStorageStrategy.getOne (streams.filter fun v => v.addressed streamId) with
  | error e => cases e <;> rfl
  | ok v =>
    have hone := DjangoStorageStrategy.getOne_eq_ok hfound
    obtain ⟨hv, haddressed⟩ := List.mem_filter.1 (hone ▸ List.mem_singleton_self v)
    have hclear := h v hv haddressed
    exact congrArg (fun rows => Except.ok (rows.map (toRaw v.toStreamHead)))
      (fetchRows_of_clear hclear)

/-- None of the snapshots that a read could select is in its range. -/
def SqlStore.Clear (store : SqlStore E) (streamId : StreamId) (start stop : Option ℤ)
    (db : Database) : Prop :=
  ∀ v ∈ db.view store.tenantId, store.selects streamId v.toStreamHead →
    ∀ body ∈ v.snapshots, inWindow start stop body.version = false

/-- Such a read gives what it would give without snapshots. -/
theorem SqlStore.Clear.fetchEvents (h : store.Clear streamId start stop db)
    (hs : db.Sound store.engine) : store.storageStrategy.fetchEvents streamId start stop db =
      store.storageStrategy.fetchEvents streamId start stop db.withoutSnapshots := by
  cases store with
  | sqlAlchemy strategy =>
    have hview : strategy.fetchEvents streamId start stop db = _ :=
      SqlAlchemyViews.fetchEvents_view hs.uniqueKeys streamId start stop
    have hview' : strategy.fetchEvents streamId start stop db.withoutSnapshots = _ :=
      SqlAlchemyViews.fetchEvents_view hs.withoutSnapshots.uniqueKeys streamId start stop
    have hclear : ∀ v ∈ db.view strategy.tenantId, v.compares streamId →
        ∀ body ∈ v.snapshots, inWindow start stop body.version = false := h
    rw [SqlAlchemyViews.fetch_withoutSnapshots hclear, ← Database.view_withoutSnapshots] at hview
    exact hview.trans hview'.symm
  | django strategy =>
    have hview : strategy.fetchEvents streamId start stop db = _ :=
      DjangoViews.fetchEvents_view streamId start stop
    have hclear : ∀ v ∈ db.view strategy.tenantId, v.addressed streamId →
        ∀ body ∈ v.snapshots, inWindow start stop body.version = false := h
    rw [DjangoViews.fetch_withoutSnapshots hclear, ← Database.view_withoutSnapshots,
      ← DjangoViews.fetchEvents_view] at hview
    exact hview

end Reads

section Writes
variable {E : Type} {db : Database} {streamId : StreamId}
  {versioning : Versioning} {events : List RawEvent}

/-- The same answer, and the same tables but for the snapshots. -/
def forgetting {α : Type} (r : Except Error α × Database) : Except Error α × Database :=
  (r.1, r.2.withoutSnapshots)

theorem forgetting_undo {α : Type} {r : Except Error α × Database} :
    StorageStrategy.undo Database.rollback db.withoutSnapshots (forgetting r) =
      forgetting (StorageStrategy.undo Database.rollback db r) := by
  obtain ⟨answer, db'⟩ := r
  cases answer <;> rfl

namespace SqlAlchemyStorageStrategy
variable (strategy : SqlAlchemyStorageStrategy E)

theorem openStream_withoutSnapshots (initialVersion : Option ℤ) :
    strategy.openStream streamId initialVersion db.withoutSnapshots =
      (strategy.openStream streamId initialVersion db).withoutSnapshots := by
  simp only [openStream, insertOrNothing, apply_ite Database.withoutSnapshots]
  rfl

theorem ensureStream_withoutSnapshots :
    strategy.ensureStream streamId versioning db.withoutSnapshots =
      forgetting (strategy.ensureStream streamId versioning db) := by
  simp only [ensureStream, openStream_withoutSnapshots]
  generalize strategy.openStream streamId versioning.initialVersion db = opened
  have hmatching : strategy.matchingStreams streamId opened.withoutSnapshots =
      strategy.matchingStreams streamId opened := rfl
  rw [hmatching]
  cases chooseStream StreamRow.toStreamHead streamId (strategy.matchingStreams streamId opened) with
  | error e => rfl
  | ok stream =>
    dsimp only
    cases versioning.validateIfCompatible stream.version with
    | error e => rfl
    | ok u =>
      cases versioning.compared with
      | none => rfl
      | some expected =>
        dsimp only
        rw [show opened.withoutSnapshots.streams = opened.streams from rfl]
        split <;> rfl

theorem storeEvents_withoutSnapshots (stream : StreamRow) :
    strategy.storeEvents stream events db.withoutSnapshots =
      forgetting (strategy.storeEvents stream events db) := by
  simp only [storeEvents]
  rw [show db.withoutSnapshots.events = db.events from rfl,
    show db.withoutSnapshots.eventsOf stream.id = db.eventsOf stream.id from rfl]
  split
  · cases strategy.outbox <;> rfl
  · rfl

theorem insertEvents_withoutSnapshots :
    strategy.insertEvents streamId versioning events db.withoutSnapshots =
      forgetting (strategy.insertEvents streamId versioning events db) := by
  simp only [insertEvents, ensureStream_withoutSnapshots]
  obtain ⟨answer, ensured⟩ := strategy.ensureStream streamId versioning db
  cases answer with
  | error e => rfl
  | ok stream => exact strategy.storeEvents_withoutSnapshots stream

theorem saveSnapshot_forgotten (snapshot : RawEvent) :
    (saveSnapshot snapshot db).2.withoutSnapshots = db.withoutSnapshots := by
  unfold saveSnapshot
  split
  · rfl
  · split <;> rfl
  · rfl

end SqlAlchemyStorageStrategy

namespace DjangoStorageStrategy
variable (strategy : DjangoStorageStrategy E)

theorem getOrCreate_withoutSnapshots (initialVersion : Option ℤ) :
    strategy.getOrCreate streamId initialVersion db.withoutSnapshots =
      forgetting (strategy.getOrCreate streamId initialVersion db) := by
  simp only [getOrCreate]
  rw [show db.withoutSnapshots.streams = db.streams from rfl]
  split
  · split <;> rfl
  · rfl

theorem ensureStream_withoutSnapshots :
    strategy.ensureStream streamId versioning db.withoutSnapshots =
      forgetting (strategy.ensureStream streamId versioning db) := by
  simp only [ensureStream, getOrCreate_withoutSnapshots]
  rw [show strategy.byStreamId streamId db.withoutSnapshots = strategy.byStreamId streamId db
    from rfl]
  cases checkName StreamRow.toStreamHead streamId (strategy.byStreamId streamId db) with
  | error e => rfl
  | ok u =>
    obtain ⟨answer, created⟩ := strategy.getOrCreate streamId versioning.initialVersion db
    cases answer with
    | error e => rfl
    | ok model =>
      simp only [forgetting]
      rw [show created.withoutSnapshots.streams = created.streams from rfl]
      cases versioning.validateIfCompatible model.version with
      | error e => rfl
      | ok u =>
        cases versioning.compared with
        | none => rfl
        | some expected =>
          dsimp only
          split <;> rfl

theorem storeEvents_withoutSnapshots :
    strategy.storeEvents events db.withoutSnapshots =
      forgetting (strategy.storeEvents events db) := by
  simp only [storeEvents]
  cases events.head? with
  | none => rfl
  | some event =>
    dsimp only
    rw [show strategy.byStreamId event.streamId db.withoutSnapshots =
        strategy.byStreamId event.streamId db from rfl,
      show db.withoutSnapshots.events = db.events from rfl]
    cases getOne (strategy.byStreamId event.streamId db) with
    | error e => rfl
    | ok stream =>
      dsimp only
      split
      · cases strategy.outbox <;> rfl
      · rfl

theorem insertEvents_withoutSnapshots :
    strategy.insertEvents streamId versioning events db.withoutSnapshots =
      forgetting (strategy.insertEvents streamId versioning events db) := by
  simp only [insertEvents, ensureStream_withoutSnapshots]
  obtain ⟨answer, ensured⟩ := strategy.ensureStream streamId versioning db
  cases answer with
  | error e => rfl
  | ok u => exact strategy.storeEvents_withoutSnapshots

theorem saveSnapshot_forgotten (snapshot : RawEvent) :
    (strategy.saveSnapshot snapshot db).2.withoutSnapshots = db.withoutSnapshots := by
  unfold saveSnapshot
  split
  · rfl
  · split <;> rfl

end DjangoStorageStrategy

variable (store : SqlStore E)

/-- An append does the same on tables without snapshots. -/
theorem SqlStore.insertEvents_withoutSnapshots :
    store.storageStrategy.insertEvents streamId versioning events db.withoutSnapshots =
      forgetting (store.storageStrategy.insertEvents streamId versioning events db) := by
  cases store with
  | sqlAlchemy strategy =>
    have hinsert : strategy.insertEvents streamId versioning events db.withoutSnapshots = _ :=
      strategy.insertEvents_withoutSnapshots
    exact (congrArg (StorageStrategy.undo _ _) hinsert).trans forgetting_undo
  | django strategy =>
    have hinsert : strategy.insertEvents streamId versioning events db.withoutSnapshots = _ :=
      strategy.insertEvents_withoutSnapshots
    exact (congrArg (StorageStrategy.undo _ _) hinsert).trans forgetting_undo

theorem undo_forgotten {r : Except Error Unit × Database}
    (h : r.2.withoutSnapshots = db.withoutSnapshots) :
    (StorageStrategy.undo Database.rollback db r).2.withoutSnapshots = db.withoutSnapshots := by
  obtain ⟨answer, db'⟩ := r
  cases answer with
  | ok u => exact h
  | error e =>
    have hsame : db'.withoutSnapshots = db.withoutSnapshots := h
    simp only [Database.withoutSnapshots, Database.mk.injEq] at hsame
    obtain ⟨-, -, -, -, hstreams, hevents⟩ := hsame
    simp [StorageStrategy.undo, Database.rollback, Database.withoutSnapshots, hstreams, hevents]

/-- Saving a snapshot changes nothing else. -/
theorem SqlStore.saveSnapshot_forgotten (db : Database) (snapshot : RawEvent) :
    (store.storageStrategy.saveSnapshot snapshot db).2.withoutSnapshots =
      db.withoutSnapshots := by
  cases store with
  | sqlAlchemy strategy =>
    exact undo_forgotten (SqlAlchemyStorageStrategy.saveSnapshot_forgotten snapshot)
  | django strategy => exact undo_forgotten (strategy.saveSnapshot_forgotten snapshot)

end Writes

/-- Streams stay, and events that are new in a stream are given ones for a given stream id. -/
structure Grows (streamId : StreamId) (bodies : List EventBody) (streams streams' : Streams) :
    Prop where
  kept : ∀ v ∈ streams, ∃ v' ∈ streams', v'.key = v.key
  events : ∀ v' ∈ streams', ∀ body ∈ v'.events,
    (∃ v ∈ streams, v.key = v'.key ∧ body ∈ v.events) ∨ v'.key = columns streamId ∧ body ∈ bodies

section Growth
variable {streamId : StreamId} {bodies : List EventBody} {streams streams' streams'' : Streams}

theorem Grows.refl : Grows streamId bodies streams streams :=
  ⟨fun v hv => ⟨v, hv, rfl⟩, fun v hv _ hbody => .inl ⟨v, hv, rfl, hbody⟩⟩

theorem Grows.trans (h : Grows streamId bodies streams streams')
    (h' : Grows streamId bodies streams' streams'') : Grows streamId bodies streams streams'' := by
  refine ⟨fun v hv => ?_, fun v'' hv'' body hbody => ?_⟩
  · obtain ⟨v', hv', hkey⟩ := h.kept v hv
    obtain ⟨v'', hv'', hkey'⟩ := h'.kept v' hv'
    exact ⟨v'', hv'', hkey'.trans hkey⟩
  · rcases h'.events v'' hv'' body hbody with ⟨v', hv', hkey, hbody'⟩ | hnew
    · rcases h.events v' hv' body hbody' with ⟨v, hv, hkey', hold⟩ | ⟨hkey', hnew⟩
      · exact .inl ⟨v, hv, hkey'.trans hkey, hold⟩
      · exact .inr ⟨hkey.symm.trans hkey', hnew⟩
    · exact .inr hnew

/-- A stream without events is new. -/
theorem Grows.append {v : StreamView} (h : v.events = []) :
    Grows streamId bodies streams (streams ++ [v]) := by
  refine ⟨fun w hw => ⟨w, List.mem_append_left _ hw, rfl⟩, fun w hw body hbody => ?_⟩
  rcases List.mem_append.1 hw with hw | hw
  · exact .inl ⟨w, hw, rfl, hbody⟩
  · rw [List.mem_singleton.1 hw, h] at hbody
    cases hbody

/-- Every stream keeps its key, and its events but for new ones of the stream id. -/
theorem Grows.map {f : StreamView → StreamView} (hkey : ∀ v, (f v).key = v.key)
    (hevents : ∀ v ∈ streams, ∀ body ∈ (f v).events,
      body ∈ v.events ∨ v.key = columns streamId ∧ body ∈ bodies) :
    Grows streamId bodies streams (streams.map f) := by
  refine ⟨fun v hv => ⟨f v, List.mem_map_of_mem hv, hkey v⟩, fun v' hv' body hbody => ?_⟩
  obtain ⟨v, hv, rfl⟩ := List.mem_map.1 hv'
  rw [hkey v]
  rcases hevents v hv body hbody with hold | hnew
  · exact .inl ⟨v, hv, rfl, hold⟩
  · exact .inr hnew

theorem Grows.advance {versioning : Versioning} :
    Grows streamId bodies streams
      (modify (columns streamId) (advanceBy versioning bodies) streams) := by
  apply Grows.map
  · intro v
    split <;> rfl
  · intro v _ body hbody
    split at hbody
    · next hkey =>
      rcases List.mem_append.1 hbody with hold | hnew
      · exact .inl hold
      · exact .inr ⟨hkey, hnew⟩
    · exact .inl hbody

end Growth

section Inserts
variable {streamId : StreamId} {versioning : Versioning} {events : List RawEvent}
  {streams streams' : Streams} {verdict : Except Error Unit}

/-- An insertion lets its stream grow, which is there afterwards. -/
theorem Inserted.grows {bodies : List EventBody}
    (h : Inserted streamId versioning bodies streams streams') :
    Grows streamId bodies streams streams' ∧ ∃ v ∈ streams', v.key = columns streamId := by
  obtain ⟨base, hsearched, ⟨v, hv, hadmitted⟩, rfl⟩ := h
  have hopened : Grows streamId bodies streams base := by
    rcases hsearched with rfl | ⟨-, rfl⟩
    · exact .refl
    · exact .append rfl
  have hadvanced := @Grows.advance streamId bodies base versioning
  obtain ⟨v', hv', hkey⟩ := hadvanced.kept v hv
  exact ⟨hopened.trans hadvanced, v', hv', hkey.trans hadmitted.key⟩

end Inserts

section Store
variable {E : Type} (store : SqlStore E) {db : Database} {streamId : StreamId}
  {events : List RawEvent}

/-- An append on the tables of one tenant raises and changes no stream, or inserts its
events. -/
theorem SqlStore.insertEvents_inserted (versioning : Versioning) (hs : db.Sound store.engine)
    (honly : Only store.tenantId db) (hstream : ∀ raw ∈ events, raw.streamId = streamId) :
    let r := store.storageStrategy.insertEvents streamId versioning events db
    r.2.Sound store.engine ∧ Only store.tenantId r.2 ∧
      ((∃ e, r.1 = .error e) ∧ r.2.view store.tenantId = db.view store.tenantId ∨
        r.1 = .ok () ∧ Inserted streamId versioning (events.map .ofRaw) (db.view store.tenantId)
          (r.2.view store.tenantId)) := by
  have hapart := honly.eventsApart hs events
  cases store with
  | sqlAlchemy strategy =>
    have hmisses : SqlAlchemyViews.MissesOthers strategy.engine db
        (strategy.tenantId, .insert streamId versioning events) :=
      fun _ _ row hrow ht => absurd (honly.tenantId hrow) ht
    obtain ⟨verdict, -, heffect⟩ := SqlAlchemyViews.insertEvents_effect strategy hs hmisses hapart
    obtain ⟨hanswer, hsound, hview, hothers⟩ := heffect.undo hs
    refine ⟨hsound, fun u hu => (hothers u hu).trans (honly u hu), ?_⟩
    cases hown : SqlAlchemyViews.insert verdict streamId versioning events
        (db.view strategy.tenantId) with
    | error e =>
      rw [hown] at hanswer hview
      exact .inl ⟨⟨e, hanswer⟩, hview⟩
    | ok streams =>
      rw [hown] at hanswer hview
      have hinserted := SqlAlchemyViews.insert_inserted (view_keys hs.uniqueKeys _) hown
      exact .inr ⟨hanswer, hview ▸ hinserted⟩
  | django strategy =>
    obtain ⟨verdict, -, heffect⟩ := DjangoViews.insertEvents_effect strategy hs streamId versioning
      hapart
    obtain ⟨hanswer, hsound, hview, hothers⟩ := heffect.undo hs
    refine ⟨hsound, fun u hu => (hothers u hu).trans (honly u hu), ?_⟩
    cases hown : DjangoViews.insert verdict streamId versioning events
        (db.view strategy.tenantId) with
    | mk answer streams =>
      rw [hown] at hanswer hview
      cases answer with
      | error e => exact .inl ⟨⟨e, hanswer⟩, hview⟩
      | ok u =>
        have hinserted := DjangoViews.insert_inserted (view_keys hs.uniqueKeys _) hstream hown
        exact .inr ⟨hanswer, hview ▸ hinserted⟩

/-- An append on the tables of one tenant raises and changes no stream, or lets the stream
that it names grow. -/
theorem SqlStore.insertEvents_grows (versioning : Versioning) (hs : db.Sound store.engine)
    (honly : Only store.tenantId db) (hstream : ∀ raw ∈ events, raw.streamId = streamId) :
    let r := store.storageStrategy.insertEvents streamId versioning events db
    r.2.Sound store.engine ∧ Only store.tenantId r.2 ∧
      ((∃ e, r.1 = .error e) ∧ r.2.view store.tenantId = db.view store.tenantId ∨
        r.1 = .ok () ∧ Grows streamId (events.map .ofRaw) (db.view store.tenantId)
            (r.2.view store.tenantId) ∧
          ∃ v ∈ r.2.view store.tenantId, v.key = columns streamId) := by
  obtain ⟨hsound, honly', hcases⟩ :=
    store.insertEvents_inserted versioning hs honly hstream
  refine ⟨hsound, honly', ?_⟩
  rcases hcases with hraised | ⟨hok, hinserted⟩
  · exact .inl hraised
  · exact .inr ⟨hok, hinserted.grows⟩

theorem SqlStore.saveSnapshot_sound (hs : db.Sound store.engine) (snapshot : RawEvent) :
    (store.storageStrategy.saveSnapshot snapshot db).2.Sound store.engine := by
  have hundo : ∀ r : Except Error Unit × Database, r.2.Sound store.engine →
      (StorageStrategy.undo Database.rollback db r).2.Sound store.engine := by
    rintro ⟨answer, db'⟩ hr
    cases answer with
    | ok u => exact hr
    | error e => exact sound_rollback hs db'
  cases store with
  | sqlAlchemy strategy =>
    apply hundo
    unfold SqlAlchemyStorageStrategy.storageStrategy SqlAlchemyStorageStrategy.saveSnapshot
    dsimp only
    split
    · exact hs
    · next stream hstream =>
      split
      · exact hs
      · have hmem : stream ∈ db.streams := List.mem_of_mem_filter (hstream ▸ List.mem_cons_self)
        exact sound_addSnapshot hs hmem _
    · exact hs
  | django strategy =>
    apply hundo
    unfold DjangoStorageStrategy.storageStrategy DjangoStorageStrategy.saveSnapshot
    dsimp only
    split
    · exact hs
    · next stream hstream =>
      split
      · exact hs
      · have hdropped : Database.Sound strategy.engine { db with
            snapshots := db.snapshots.filter fun row => row.body.uuid ≠ snapshot.uuid } :=
          ⟨hs.ids, hs.bounded, hs.keys, hs.events, fun held hheld =>
            hs.snapshots held (List.mem_of_mem_filter hheld)⟩
        exact sound_addSnapshot hdropped (DjangoViews.found_of_getOne hstream).1 _

/-- A read that finds one stream gives rows of this stream. -/
theorem SqlStore.fetchEvents_of_one (hkeys : db.UniqueKeys) {stream : StreamView}
    (hone : (db.view store.tenantId).filter (fun v => store.selects streamId v.toStreamHead) =
      [stream]) (start stop : Option ℤ) :
    store.storageStrategy.fetchEvents streamId start stop db =
      .ok ((fetchRows store.engine id start stop stream.events stream.snapshots).map
        (toRaw stream.toStreamHead)) := by
  cases store with
  | sqlAlchemy strategy =>
    have hview : strategy.fetchEvents streamId start stop db = _ :=
      SqlAlchemyViews.fetchEvents_view hkeys streamId start stop
    have hcompares : (db.view strategy.tenantId).filter (fun v => v.compares streamId) =
        [stream] := hone
    rw [SqlAlchemyViews.fetch, hcompares] at hview
    exact hview
  | django strategy =>
    have hview : strategy.fetchEvents streamId start stop db = _ :=
      DjangoViews.fetchEvents_view streamId start stop
    have haddressed : (db.view strategy.tenantId).filter (fun v => v.addressed streamId) =
        [stream] := hone
    rw [DjangoViews.fetch, haddressed] at hview
    exact hview

/-- A read that gives anything has found one stream. -/
theorem SqlStore.fetchEvents_found (hs : db.Sound store.engine) {start stop : Option ℤ}
    {raws : List RawEvent}
    (h : store.storageStrategy.fetchEvents streamId start stop db = .ok raws) :
    raws = [] ∨ ∃ v,
      ((db.view store.tenantId).filter fun v => store.selects streamId v.toStreamHead) = [v] ∧
      raws = (fetchRows store.engine id start stop v.events v.snapshots).map
        (toRaw v.toStreamHead) := by
  have hrows : ∀ v, ((db.view store.tenantId).filter fun v =>
      store.selects streamId v.toStreamHead) = [v] →
        raws = (fetchRows store.engine id start stop v.events v.snapshots).map
          (toRaw v.toStreamHead) := fun v hone =>
    Except.ok.inj (h.symm.trans (store.fetchEvents_of_one hs.uniqueKeys hone start stop))
  cases store with
  | sqlAlchemy strategy =>
    cases hfound : (db.view strategy.tenantId).filter fun v => v.compares streamId with
    | nil =>
      have hview : strategy.fetchEvents streamId start stop db = _ :=
        SqlAlchemyViews.fetchEvents_view hs.uniqueKeys streamId start stop
      rw [SqlAlchemyViews.fetch, hfound] at hview
      exact .inl (Except.ok.inj (hview.symm.trans h)).symm
    | cons v rest =>
      obtain ⟨hv, hcompares⟩ := List.mem_filter.1 (hfound ▸ List.mem_cons_self : v ∈ _)
      have hkeys := view_keys hs.uniqueKeys strategy.tenantId
      have hone : ((db.view strategy.tenantId).filter fun v => v.compares streamId) = [v] := by
        apply filter_eq_singleton (List.Nodup.of_map _ hkeys) hv
        intro w hw
        constructor
        · intro hw'
          exact List.inj_on_of_nodup_map hkeys hw hv
            ((columns_of_compares hw').trans (columns_of_compares hcompares).symm)
        · rintro rfl
          exact hcompares
      exact .inr ⟨v, hone, hrows v hone⟩
  | django strategy =>
    have hview : strategy.fetchEvents streamId start stop db = _ :=
      DjangoViews.fetchEvents_view streamId start stop
    have hfetch := hview.symm.trans h
    unfold DjangoViews.fetch at hfetch
    cases hfound : DjangoStorageStrategy.getOne
        ((db.view strategy.tenantId).filter fun v => v.addressed streamId) with
    | error e =>
      rw [hfound] at hfetch
      cases e with
      | doesNotExist => exact .inl (Except.ok.inj hfetch).symm
      | _ => cases hfetch
    | ok v =>
      have hone := DjangoStorageStrategy.getOne_eq_ok hfound
      exact .inr ⟨v, hone, hrows v hone⟩

/-- Without snapshots a read gives rows of the events of the stream, if the stream is there. -/
theorem SqlStore.fetchEvents_rows (hs : db.Sound store.engine)
    (hown : ∃ v ∈ db.view store.tenantId, v.key = columns streamId) {start stop : Option ℤ}
    {raws : List RawEvent} (h : store.storageStrategy.fetchEvents streamId start stop
      db.withoutSnapshots = .ok raws) {raw : RawEvent} (hraw : raw ∈ raws) :
    ∃ v ∈ db.view store.tenantId, v.key = columns streamId ∧
      ∃ body ∈ v.events, raw = toRaw v.toStreamHead body := by
  rcases store.fetchEvents_found hs.withoutSnapshots h with rfl | ⟨v', hfound, rfl⟩
  · cases hraw
  rw [Database.view_withoutSnapshots] at hfound
  obtain ⟨hmem, hselects⟩ := List.mem_filter.1 (hfound ▸ List.mem_singleton_self v')
  obtain ⟨v, hv, rfl⟩ := List.mem_map.1 hmem
  have hkey : v.key = columns streamId := by
    cases store with
    | sqlAlchemy strategy => exact columns_of_compares hselects
    | django strategy =>
      obtain ⟨w, hw, hwkey⟩ := hown
      have haddressed : w.withoutSnapshots.addressed streamId := addressed_of_columns hwkey
      have hsame : w.withoutSnapshots ∈ [v.withoutSnapshots] := by
        rw [← hfound]
        exact List.mem_filter.2 ⟨List.mem_map_of_mem hw, haddressed⟩
      rw [List.mem_singleton] at hsame
      exact (congrArg (fun stream : StreamView => stream.key) hsame).symm.trans hwkey
  obtain ⟨body, hbody, rfl⟩ := List.mem_map.1 hraw
  exact ⟨v, hv, hkey, body, mem_of_mem_fetchRows hbody, rfl⟩

end Store

end EventSourcery.Sql
