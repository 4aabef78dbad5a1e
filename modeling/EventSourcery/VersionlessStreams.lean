import EventSourcery.RowVersions

/-!
# Streams without versions in the SQL stores

Events are read in the order of their versions, and the database is free to give rows that
compare equal in any order. The events of a stream without versions have NULL there, so that
all of them compare equal, and a read may give them in any order.
-/
namespace EventSourcery.Sql.VersionlessStreams
open EventStore Runs AppendAttempts LastVersions

/-! ## What a query may answer -/

section Queries
variable {α β : Type} (engine : Engine)

/-- What `ORDER BY version` may give. -/
def Orders (body : α → EventBody) (rows ordered : List α) : Prop :=
  ordered.Perm rows ∧
    ordered.Pairwise fun x y => versionLe engine (body x).version (body y).version

/-- What the queries of a ranged read may select: a snapshot that is as new as any in the range
and the events in the range after it, or all events in the range. -/
def Selects (body : α → EventBody) (start stop : Option ℤ) (events snapshots rows : List α) :
    Prop :=
  let inRange := fun x => inWindow start stop (body x).version
  (snapshots.filter inRange = [] ∧ Orders engine body (events.filter inRange) rows) ∨
    ∃ snapshot newer, rows = snapshot :: newer ∧ snapshot ∈ snapshots.filter inRange ∧
      (∀ other ∈ snapshots.filter inRange,
        (body other).createdAt ≤ (body snapshot).createdAt) ∧
      Orders engine body ((events.filter inRange).filter fun x =>
        (body x).version.any fun version => (body snapshot).version.any (· < version)) newer

theorem insertionSort_orders (body : α → EventBody) (rows : List α) :
    Orders engine body rows
      (rows.insertionSort fun x y => versionLe engine (body x).version (body y).version) :=
  ⟨List.perm_insertionSort _ _, pairwise_insertionSort engine body rows⟩

/-- The first of the snapshots from the newest on is as new as any. -/
theorem createdAt_le_head {body : α → EventBody} {snapshots : List α} {snapshot : α}
    (h : (snapshots.insertionSort fun x y => (body y).createdAt ≤ (body x).createdAt).head? =
      some snapshot) :
    snapshot ∈ snapshots ∧ ∀ other ∈ snapshots,
      (body other).createdAt ≤ (body snapshot).createdAt := by
  have htrans : IsTrans α fun x y => (body y).createdAt ≤ (body x).createdAt :=
    ⟨fun _ _ _ h h' => le_trans h' h⟩
  have htotal : Std.Total fun x y : α => (body y).createdAt ≤ (body x).createdAt :=
    ⟨fun _ _ => le_total _ _⟩
  have hsorted := List.pairwise_insertionSort
    (fun x y : α => (body y).createdAt ≤ (body x).createdAt) snapshots
  obtain ⟨rest, hrest⟩ := List.head?_eq_some_iff.1 h
  rw [hrest, List.pairwise_cons] at hsorted
  have hmem : ∀ x, x ∈ snapshots ↔ x ∈ snapshot :: rest := by
    intro x
    rw [← hrest, List.mem_insertionSort]
  refine ⟨(hmem snapshot).2 List.mem_cons_self, fun other hother => ?_⟩
  rcases List.mem_cons.1 ((hmem other).1 hother) with rfl | hlater
  · exact le_rfl
  · exact hsorted.1 other hlater

/-- The rows of `fetchRows` are among those that may be selected. -/
theorem fetchRows_selects (body : α → EventBody) (start stop : Option ℤ)
    (events snapshots : List α) :
    Selects engine body start stop events snapshots
      (fetchRows engine body start stop events snapshots) := by
  unfold fetchRows
  dsimp only
  split
  · rename_i hnone
    refine .inl ⟨?_, insertionSort_orders engine body _⟩
    rw [List.head?_eq_none_iff] at hnone
    have hlength := List.length_insertionSort
      (fun x y : α => (body y).createdAt ≤ (body x).createdAt)
      (snapshots.filter fun x => inWindow start stop (body x).version)
    rw [hnone] at hlength
    exact List.length_eq_zero_iff.1 hlength.symm
  · rename_i snapshot hnewest
    obtain ⟨hmem, hle⟩ := createdAt_le_head hnewest
    exact .inr ⟨snapshot, _, rfl, hmem, hle, insertionSort_orders engine body _⟩

/-- Without bounds and snapshots, all events are selected. -/
theorem selects_all {body : α → EventBody} {events rows : List α} :
    Selects engine body none none events [] rows ↔ Orders engine body events rows := by
  have hevents : events.filter (fun x => inWindow none none (body x).version) = events :=
    List.filter_eq_self.2 fun _ _ => rfl
  simp [Selects, hevents]

theorem orders_map {f : β → α} {body : α → EventBody} {rows : List β} {ordered : List α} :
    Orders engine body (rows.map f) ordered ↔
      ∃ sources, Orders engine (body ∘ f) rows sources ∧ ordered = sources.map f := by
  constructor
  · rintro ⟨hperm, hsorted⟩
    rw [← congrFun₂ (List.eq_map_comp_perm f) ordered rows] at hperm
    obtain ⟨sources, rfl, hsources⟩ := hperm
    exact ⟨sources, ⟨hsources, List.pairwise_map.1 hsorted⟩, rfl⟩
  · rintro ⟨sources, ⟨hperm, hsorted⟩, rfl⟩
    exact ⟨hperm.map f, List.pairwise_map.2 hsorted⟩

/-- Any order will do for rows without versions. -/
theorem orders_of_versionless {body : α → EventBody} {rows ordered : List α}
    (hversions : ∀ x ∈ rows, (body x).version = none) (hperm : ordered.Perm rows) :
    Orders engine body rows ordered := by
  refine ⟨hperm, List.pairwise_of_forall_mem_list fun x hx y hy => ?_⟩
  rw [hversions x (hperm.mem_iff.1 hx), hversions y (hperm.mem_iff.1 hy)]
  rfl

end Queries

section Reads
variable {E : Type}

/-- What `fetch_events` may give. -/
def SqlAlchemyFetches (strategy : SqlAlchemyStorageStrategy E) (streamId : StreamId)
    (start stop : Option ℤ) (db : Database) (raws : List RawEvent) : Prop :=
  let mine := fun row : StreamRow => row.compares streamId && row.tenantId = strategy.tenantId
  let events := (SqlAlchemyStorageStrategy.joined (·.dbStreamId) db.events db).filter
    fun x => mine x.1
  let snapshots := (SqlAlchemyStorageStrategy.joined (·.dbStreamId) db.snapshots db).filter
    fun x => mine x.1
  ∃ rows, Selects strategy.engine Prod.snd start stop (events.map fun x => (x.1, x.2.body))
      (snapshots.map fun x => (x.1, x.2.body)) rows ∧
    raws = rows.map fun x => toRaw x.1.toStreamHead x.2

def DjangoFetches (strategy : DjangoStorageStrategy E) (streamId : StreamId)
    (start stop : Option ℤ) (db : Database) (raws : List RawEvent) : Prop :=
  match DjangoStorageStrategy.getOne (strategy.byStreamId streamId db) with
  | .error .doesNotExist => raws = []
  | .error _ => False
  | .ok stream =>
      ∃ rows, Selects strategy.engine id start stop (db.eventsOf stream.id)
          (db.snapshotsOf stream.id) rows ∧
        raws = rows.map (toRaw stream.toStreamHead)

def Fetches (store : SqlStore E) (streamId : StreamId) (start stop : Option ℤ) (db : Database)
    (raws : List RawEvent) : Prop :=
  match store with
  | .sqlAlchemy strategy => SqlAlchemyFetches strategy streamId start stop db raws
  | .django strategy => DjangoFetches strategy streamId start stop db raws

/-- What `load_stream` may give. -/
def Loads (store : SqlStore E) (streamId : StreamId) (start stop : Option ℤ) (db : Database)
    (loaded : List (WrappedEvent E)) : Prop :=
  ∃ raws, Fetches store streamId start stop db raws ∧
    store.dispatcher.serde.deserializeMany raws = .ok loaded

/-- What the store gives in the model is among what it may give. -/
theorem fetchEvents_fetches (store : SqlStore E) {streamId : StreamId} {start stop : Option ℤ}
    {db : Database} {raws : List RawEvent}
    (h : store.storageStrategy.fetchEvents streamId start stop db = .ok raws) :
    Fetches store streamId start stop db raws := by
  cases store with
  | sqlAlchemy strategy =>
    cases h
    exact ⟨_, fetchRows_selects _ _ _ _ _ _, rfl⟩
  | django strategy =>
    have hfetch : strategy.fetchEvents streamId start stop db = .ok raws := h
    change DjangoFetches strategy streamId start stop db raws
    unfold DjangoStorageStrategy.fetchEvents at hfetch
    unfold DjangoFetches
    cases hone : DjangoStorageStrategy.getOne (strategy.byStreamId streamId db) with
    | error e =>
      rw [hone] at hfetch
      cases e <;> first
        | exact (Except.ok.inj hfetch).symm
        | cases hfetch
    | ok stream =>
      rw [hone] at hfetch
      exact ⟨_, fetchRows_selects _ _ _ _ _ _, (Except.ok.inj hfetch).symm⟩

/-- A read of one stream without snapshots. -/
theorem fetches_of_one {store : SqlStore E} {streamId : StreamId} {db : Database}
    {stream : StreamView} {raws : List RawEvent} (hkeys : db.UniqueKeys)
    (hone : (db.view store.tenantId).filter (fun v => store.selects streamId v.toStreamHead) =
      [stream]) (hsnapshots : stream.snapshots = []) :
    Fetches store streamId none none db raws ↔ ∃ bodies,
      Orders store.engine id stream.events bodies ∧
        raws = bodies.map (toRaw stream.toStreamHead) := by
  cases store with
  | sqlAlchemy strategy =>
    have hview := filter_view db strategy.tenantId fun head => head.compares streamId
    have hrows : (db.streams.filter fun row =>
        row.compares streamId && row.tenantId = strategy.tenantId).map db.viewOf = [stream] :=
      hview.symm.trans hone
    obtain ⟨row, hrow, rfl⟩ := List.map_eq_singleton_iff.1 hrows
    have hevents : ((db.events.filter fun x => x.dbStreamId = row.id).map fun x => (row, x)).map
        (fun x => (x.1, x.2.body)) = (db.eventsOf row.id).map fun body => (row, body) := by
      simp [Database.eventsOf]
    have hnone : db.snapshots.filter (fun x => x.dbStreamId = row.id) = [] :=
      List.map_eq_nil_iff.1 hsnapshots
    change SqlAlchemyFetches strategy streamId none none db raws ↔ _
    unfold SqlAlchemyFetches
    dsimp only
    rw [SqlAlchemyViews.filter_joined hkeys hrow EventRow.dbStreamId,
      SqlAlchemyViews.filter_joined hkeys hrow SnapshotRow.dbStreamId, hevents, hnone]
    simp only [List.map_nil, selects_all, orders_map]
    constructor
    · rintro ⟨_, ⟨bodies, horders, rfl⟩, rfl⟩
      exact ⟨bodies, horders, List.map_map⟩
    · rintro ⟨bodies, horders, rfl⟩
      exact ⟨_, ⟨bodies, horders, rfl⟩, by rw [List.map_map]; rfl⟩
  | django strategy =>
    have hrows : (strategy.byStreamId streamId db).map db.viewOf = [stream] :=
      (DjangoViews.byStreamId_view streamId db).symm.trans hone
    obtain ⟨row, hrow, rfl⟩ := List.map_eq_singleton_iff.1 hrows
    have hnone : db.snapshotsOf row.id = [] := hsnapshots
    change DjangoFetches strategy streamId none none db raws ↔ _
    unfold DjangoFetches
    rw [hrow]
    simp only [DjangoStorageStrategy.getOne, hnone, selects_all]
    rfl

theorem loads_of_one {store : SqlStore E} {streamId : StreamId} {db : Database}
    {stream : StreamView} {loaded : List (WrappedEvent E)} (hkeys : db.UniqueKeys)
    (hone : (db.view store.tenantId).filter (fun v => store.selects streamId v.toStreamHead) =
      [stream]) (hsnapshots : stream.snapshots = []) :
    Loads store streamId none none db loaded ↔ ∃ bodies,
      Orders store.engine id stream.events bodies ∧
        store.dispatcher.serde.deserializeMany (bodies.map (toRaw stream.toStreamHead)) =
          .ok loaded := by
  simp only [Loads, fetches_of_one hkeys hone hsnapshots]
  constructor
  · rintro ⟨_, ⟨bodies, horders, rfl⟩, hloaded⟩
    exact ⟨bodies, horders, hloaded⟩
  · rintro ⟨bodies, horders, hloaded⟩
    exact ⟨_, ⟨bodies, horders, rfl⟩, hloaded⟩

/-- A read that finds no stream. -/
theorem fetches_of_none {store : SqlStore E} {streamId : StreamId} {db : Database}
    {raws : List RawEvent}
    (hnone : (db.view store.tenantId).filter (fun v => store.selects streamId v.toStreamHead) =
      []) (h : Fetches store streamId none none db raws) : raws = [] := by
  cases store with
  | sqlAlchemy strategy =>
    have hview := filter_view db strategy.tenantId fun head => head.compares streamId
    have hrows : (db.streams.filter fun row =>
        row.compares streamId && row.tenantId = strategy.tenantId) = [] :=
      List.map_eq_nil_iff.1 (hview.symm.trans hnone)
    obtain ⟨rows, hselects, rfl⟩ : SqlAlchemyFetches strategy streamId none none db raws := h
    rw [SqlAlchemyViews.filter_joined_nil hrows, SqlAlchemyViews.filter_joined_nil hrows,
      List.map_nil, List.map_nil, selects_all] at hselects
    rw [List.perm_nil.1 hselects.1, List.map_nil]
  | django strategy =>
    have hrows : strategy.byStreamId streamId db = [] :=
      List.map_eq_nil_iff.1 ((DjangoViews.byStreamId_view streamId db).symm.trans hnone)
    have hfetches : DjangoFetches strategy streamId none none db raws := h
    unfold DjangoFetches at hfetches
    rw [hrows] at hfetches
    exact hfetches

end Reads

section Inserts
variable {E : Type} {db : Database} {streamId : StreamId} {versioning : Versioning}
  {events : List RawEvent}

theorem sqlAlchemy_ensureStream_events (strategy : SqlAlchemyStorageStrategy E)
    (streamId : StreamId) (versioning : Versioning) (db : Database) :
    (strategy.ensureStream streamId versioning db).2.events = db.events := by
  have hopened : (strategy.openStream streamId versioning.initialVersion db).events =
      db.events := by
    unfold SqlAlchemyStorageStrategy.openStream SqlAlchemyStorageStrategy.insertOrNothing
    split
    · split <;> rfl
    · rfl
  unfold SqlAlchemyStorageStrategy.ensureStream
  dsimp only
  split
  · exact hopened
  · split
    · exact hopened
    · exact hopened
    · split <;> exact hopened

theorem django_ensureStream_events (strategy : DjangoStorageStrategy E)
    (streamId : StreamId) (versioning : Versioning) (db : Database) :
    (strategy.ensureStream streamId versioning db).2.events = db.events := by
  have hcreated : (strategy.getOrCreate streamId versioning.initialVersion db).2.events =
      db.events := by
    unfold DjangoStorageStrategy.getOrCreate
    dsimp only
    split
    · split <;> rfl
    · rfl
  unfold DjangoStorageStrategy.ensureStream
  split
  · rfl
  · revert hcreated
    rcases strategy.getOrCreate streamId versioning.initialVersion db with ⟨_ | _, db'⟩
    · exact id
    · intro hcreated
      dsimp only
      split
      · exact hcreated
      · exact hcreated
      · split <;> exact hcreated

/-- The uuids of events that were inserted are new. -/
theorem uuidsFree_of_insert {store : SqlStore E}
    (h : (store.storageStrategy.insertEvents streamId versioning events db).1 = .ok ()) :
    uuidsFree (events.map .ofRaw) (db.events.map (·.body)) = true := by
  cases store with
  | sqlAlchemy strategy =>
    have hinsert : (strategy.insertEvents streamId versioning events db).1 = .ok () :=
      (StorageStrategy.undo_answer _ db _).symm.trans h
    have hevents := sqlAlchemy_ensureStream_events strategy streamId versioning db
    unfold SqlAlchemyStorageStrategy.insertEvents at hinsert
    revert hinsert hevents
    rcases strategy.ensureStream streamId versioning db with ⟨_ | stream, db'⟩
    · exact fun hinsert => nomatch hinsert
    · intro hinsert hevents
      dsimp only at hevents
      unfold SqlAlchemyStorageStrategy.storeEvents at hinsert
      dsimp only at hinsert
      split at hinsert
      · rename_i hfree
        rw [hevents] at hfree
        exact (Bool.and_eq_true_iff.1 hfree).1
      · cases hinsert
  | django strategy =>
    have hinsert : (strategy.insertEvents streamId versioning events db).1 = .ok () :=
      (StorageStrategy.undo_answer _ db _).symm.trans h
    have hevents := django_ensureStream_events strategy streamId versioning db
    unfold DjangoStorageStrategy.insertEvents at hinsert
    revert hinsert hevents
    rcases strategy.ensureStream streamId versioning db with ⟨_ | _, db'⟩
    · exact fun hinsert => nomatch hinsert
    · intro hinsert hevents
      dsimp only at hevents
      unfold DjangoStorageStrategy.storeEvents at hinsert
      dsimp only at hinsert
      split at hinsert
      · cases hinsert
      split at hinsert
      · cases hinsert
      split at hinsert
      · rename_i hfree
        rwa [hevents] at hfree
      · cases hinsert

end Inserts

section Runs
variable {E : Type} {store : SqlStore E} {streamId : StreamId} {db : Database}

/-- Bare events are appended to a stream without versions. -/
def appendCall (streamId : StreamId) (events : BareEvent E × List (BareEvent E)) : Call E :=
  .appendEvents events.1 events.2 streamId .noVersioning

/-- The uuids of the events whose appends have succeeded, in their order. -/
def appended : List (BareEvent E × List (BareEvent E)) → List (Answer E) → List Uuid
  | events :: batches, answer :: answers =>
      (if answer.isOk then (events.1 :: events.2).map (·.uuid) else []) ++ appended batches answers
  | _, _ => []

/-- The stream with these events, or none if there are none; it has no versions. -/
structure Holds (store : SqlStore E) (streamId : StreamId) (uuids : List Uuid) (db : Database) :
    Prop where
  sound : db.Sound store.engine
  only : Only store.tenantId db
  distinct : uuids.Nodup
  stream : ((db.view store.tenantId).filter fun v => v.addressed streamId) = [] ∧ uuids = [] ∨
    ∃ v, ((db.view store.tenantId).filter fun v => v.addressed streamId) = [v] ∧
      v.key = columns streamId ∧ v.compares streamId ∧ v.snapshots = [] ∧
      v.events.map (·.uuid) = uuids ∧ ∀ body ∈ v.events, body.version = none

theorem addressed_of_compares {head : StreamHead} (h : head.compares streamId) :
    head.addressed streamId = true :=
  addressed_of_columns (columns_of_compares h)

/-- The stream is the one that reads select. -/
theorem filter_selects {v : StreamView} {streams : Streams}
    (hone : (streams.filter fun v => v.addressed streamId) = [v])
    (hcompares : v.compares streamId) :
    (streams.filter fun v => store.selects streamId v.toStreamHead) = [v] := by
  cases store with
  | django strategy => exact hone
  | sqlAlchemy strategy =>
    have hnarrow : (streams.filter fun v => v.compares streamId) =
        (streams.filter fun v => v.addressed streamId).filter fun v => v.compares streamId := by
      rw [List.filter_filter]
      refine List.filter_congr fun w _ => ?_
      cases hw : StreamHead.compares streamId w.toStreamHead with
      | false => rfl
      | true => rw [addressed_of_compares hw, Bool.and_true]
    refine hnarrow.trans ?_
    rw [hone, List.filter_singleton, hcompares]
    rfl

theorem filter_selects_nil {streams : Streams}
    (hnone : (streams.filter fun v => v.addressed streamId) = []) :
    (streams.filter fun v => store.selects streamId v.toStreamHead) = [] := by
  rw [List.filter_eq_nil_iff] at hnone ⊢
  intro v hv hselected
  cases store with
  | django strategy => exact hnone v hv hselected
  | sqlAlchemy strategy => exact hnone v hv (addressed_of_compares hselected)

theorem compares_created (streamId : StreamId) (version : Option ℤ) :
    (createdStream streamId version).compares streamId = true := by
  simp only [StreamHead.compares, Bool.and_eq_true, decide_eq_true_eq, Option.all_eq_true]
  exact ⟨⟨rfl, fun name hname => (Option.filter_eq_some_iff.1 hname).1⟩, rfl⟩

theorem filter_modify {f : StreamView → StreamView} {key : Uuid × String} (streams : Streams)
    (hsame : ∀ v : StreamView,
      (f v).addressed streamId = StreamHead.addressed streamId v.toStreamHead) :
    ((modify key f streams).filter fun v => v.addressed streamId) =
      modify key f (streams.filter fun v => v.addressed streamId) := by
  unfold modify
  rw [List.filter_map]
  refine congrArg _ (List.filter_congr fun v _ => ?_)
  simp only [Function.comp_apply]
  split
  · exact hsame v
  · rfl

/-- An insertion goes to the end of the stream, which is created if there is none. -/
theorem inserted_stream {streams streams' : Streams} {bodies : List EventBody}
    (hinserted : Inserted streamId .noVersioning bodies streams streams') :
    ((streams.filter fun v => v.addressed streamId) = [] →
      (streams'.filter fun v => v.addressed streamId) =
        [(createdStream streamId none).addEvents bodies]) ∧
      ∀ v, (streams.filter fun v => v.addressed streamId) = [v] → v.key = columns streamId →
        (streams'.filter fun v => v.addressed streamId) = [v.addEvents bodies] := by
  obtain ⟨base, hsearched, ⟨w, hw, hadmitted⟩, rfl⟩ := hinserted
  rw [filter_modify (f := advanceBy .noVersioning bodies) base fun v => rfl]
  have hone : ∀ v : StreamView, v.key = columns streamId →
      modify (columns streamId) (advanceBy .noVersioning bodies) [v] = [v.addEvents bodies] := by
    intro v hv
    rw [modify, List.map_singleton, if_pos hv]
    rfl
  rcases hsearched with rfl | ⟨hfree, rfl⟩
  · refine ⟨fun hnone => ?_, fun v hv hkey => ?_⟩
    · have hfound := List.filter_eq_nil_iff.1 hnone w hw
      exact absurd (addressed_of_columns hadmitted.key) hfound
    · rw [hv, hone v hkey]
  · have hcreated : (createdStream streamId Versioning.noVersioning.initialVersion).addressed
        streamId = true := addressed_of_compares (compares_created streamId _)
    refine ⟨fun hnone => ?_, fun v hv hkey => ?_⟩
    · rw [List.filter_append, hnone, List.nil_append, List.filter_singleton, hcreated]
      exact hone _ rfl
    · have hmem : v ∈ streams := List.mem_of_mem_filter (hv ▸ List.mem_singleton_self v)
      exact absurd hkey (ne_columns_of_not_clashes (hfree v hmem))

/-- The bodies of bare events that are appended without versions. -/
theorem bodies_of_request {serde : Serde E} {events : BareEvent E × List (BareEvent E)}
    {r : Request} (h : request serde (appendCall streamId events) = .ok r) :
    ∃ raws, r = .insert streamId .noVersioning raws ∧
      (∀ raw ∈ raws, raw.streamId = streamId) ∧
      (raws.map EventBody.ofRaw).map (·.uuid) = (events.1 :: events.2).map (·.uuid) ∧
      ∀ body ∈ raws.map EventBody.ofRaw, body.version = none := by
  obtain ⟨raws, hraws, rfl⟩ := map_eq_ok.1 h
  have hwrapped : events.1.wrap (ExpectedVersion.noVersioning.versionAt 0) ::
      wrapEvents .noVersioning 1 events.2 = wrapEvents .noVersioning 0 (events.1 :: events.2) := rfl
  rw [hwrapped] at hraws
  refine ⟨raws, rfl, serde.serializeMany_streamId hraws, ?_, ?_⟩
  · rw [List.map_map]
    exact (serde.serializeMany_uuid hraws).trans (wrapEvents_uuid _ _ _)
  · have hversions := (serde.serializeMany_version hraws).trans (wrapEvents_version _ _ _)
    intro body hbody
    obtain ⟨raw, hraw, rfl⟩ := List.mem_map.1 hbody
    have hmem := List.mem_map_of_mem (f := (·.version)) hraw
    rw [hversions] at hmem
    obtain ⟨i, -, hi⟩ := List.mem_map.1 hmem
    exact hi.symm

theorem nodup_of_uuidsFree {bodies held : List EventBody} (h : uuidsFree bodies held = true) :
    (bodies.map (·.uuid)).Nodup ∧ ∀ body ∈ bodies, ∀ other ∈ held, other.uuid ≠ body.uuid := by
  simpa [uuidsFree] using h

/-- New events have other uuids than those of the stream. -/
theorem nodup_append {v : StreamView} {bodies : List EventBody} (hv : v ∈ db.view store.tenantId)
    (hdistinct : (v.events.map (·.uuid)).Nodup)
    (hfree : uuidsFree bodies (db.events.map (·.body)) = true) :
    ((v.events ++ bodies).map (·.uuid)).Nodup := by
  obtain ⟨hbodies, hother⟩ := nodup_of_uuidsFree hfree
  rw [List.map_append]
  refine hdistinct.append hbodies fun uuid hold hnew => ?_
  obtain ⟨body, hbody, rfl⟩ := List.mem_map.1 hnew
  obtain ⟨held, hheld, huuid⟩ := List.mem_map.1 hold
  obtain ⟨event, hevent, rfl, -⟩ := mem_view_events.1 (List.mem_flatMap.2 ⟨v, hv, hheld⟩)
  exact hother body hbody event.body (List.mem_map_of_mem hevent) huuid

/-- An append that succeeds adds its events, and one that fails adds none. -/
theorem step_holds {uuids : List Uuid} (h : Holds store streamId uuids db)
    (events : BareEvent E × List (BareEvent E)) :
    let r := RowVersions.step store db (appendCall streamId events)
    Holds store streamId
      (uuids ++ if r.1.isOk then (events.1 :: events.2).map (·.uuid) else []) r.2 := by
  unfold RowVersions.step
  rw [call_eq]
  cases hrequest : request store.dispatcher.serde (appendCall streamId events) with
  | error e =>
    have hrequest' : request (store.eventStore store.dispatcher.serde).serde
        (appendCall streamId events) = .error e := hrequest
    rw [hrequest']
    simpa [Except.isOk, Except.toBool] using h
  | ok r =>
    have hrequest' : request (store.eventStore store.dispatcher.serde).serde
        (appendCall streamId events) = .ok r := hrequest
    obtain ⟨raws, rfl, hstream, huuids, hversions⟩ := bodies_of_request hrequest
    obtain ⟨hsound, honly, hcases⟩ :=
      store.insertEvents_inserted .noVersioning h.sound h.only hstream
    rw [hrequest']
    change Holds store streamId (uuids ++ if (finish store.dispatcher.serde
      ((store.storageStrategy.insertEvents streamId .noVersioning raws db).1.map
        fun _ => [])).isOk then _ else _)
      (store.storageStrategy.insertEvents streamId .noVersioning raws db).2
    rw [finish_unit]
    rcases hcases with ⟨⟨e, herror⟩, hview⟩ | ⟨hok, hinserted⟩
    · rw [herror]
      refine ⟨hsound, honly, ?_, ?_⟩
      · simpa [Except.isOk, Except.toBool, Except.map] using h.distinct
      · rw [hview]
        simpa [Except.isOk, Except.toBool, Except.map] using h.stream
    · have hfree := uuidsFree_of_insert hok
      obtain ⟨hcreated, hextended⟩ := inserted_stream hinserted
      rw [hok, ← huuids]
      change Holds store streamId (uuids ++ (raws.map EventBody.ofRaw).map (·.uuid)) _
      rcases h.stream with ⟨hnone, rfl⟩ | ⟨v, hone, hkey, hcompares, hsnapshots, hevents, hall⟩
      · refine ⟨hsound, honly, (nodup_of_uuidsFree hfree).1, .inr ⟨_, hcreated hnone, rfl,
          compares_created streamId none, rfl, rfl, hversions⟩⟩
      · have hv := List.mem_of_mem_filter (hone ▸ List.mem_singleton_self v :
          v ∈ (db.view store.tenantId).filter fun v => v.addressed streamId)
        have hdistinct := nodup_append hv (hevents ▸ h.distinct) hfree
        rw [List.map_append, hevents] at hdistinct
        refine ⟨hsound, honly, hdistinct, .inr ⟨_, hextended v hone hkey, hkey, hcompares,
          hsnapshots, ?_, ?_⟩⟩
        · rw [← hevents]
          exact List.map_append
        · intro body hbody
          rcases List.mem_append.1 hbody with hold | hnew
          · exact hall body hold
          · exact hversions body hnew

theorem run_holds {uuids : List Uuid} (h : Holds store streamId uuids db)
    (batches : List (BareEvent E × List (BareEvent E))) :
    let r := run (RowVersions.step store) db (batches.map (appendCall streamId))
    Holds store streamId (uuids ++ appended batches r.1) r.2 := by
  induction batches generalizing db uuids with
  | nil => simpa [appended] using h
  | cons events batches ih =>
    have hrest := ih (step_holds h events)
    dsimp only at hrest
    rw [List.append_assoc] at hrest
    exact hrest

/-- Every event of the stream can be read back. -/
def Readable (store : SqlStore E) (streamId : StreamId) (db : Database) : Prop :=
  ∀ v ∈ db.view store.tenantId, store.selects streamId v.toStreamHead → ∀ body ∈ v.events,
    ∃ event, store.dispatcher.serde.deserialize (toRaw v.toStreamHead body) = .ok event

theorem reverse_ne {α : Type} {l : List α} (hnodup : l.Nodup) (hlength : 1 < l.length) :
    l.reverse ≠ l := by
  intro hsame
  cases l with
  | nil => exact absurd hlength (by simp)
  | cons a l =>
    have hne : l ≠ [] := by
      rintro rfl
      exact absurd hlength (by simp)
    have hhead := congrArg List.head? hsame
    rw [List.head?_reverse, List.head?_cons, List.getLast?_cons_of_ne_nil hne] at hhead
    exact (List.nodup_cons.1 hnodup).1 (List.mem_of_getLast? hhead)

/-- Every load that succeeds gives the events in their order, if and only if there is at most
one, or one that cannot be read back. -/
theorem Holds.in_order_iff {uuids : List Uuid} (h : Holds store streamId uuids db) :
    (∀ loaded, Loads store streamId none none db loaded → loaded.map (·.uuid) = uuids) ↔
      (Readable store streamId db → uuids.length ≤ 1) := by
  rcases h.stream with ⟨hnone, rfl⟩ | ⟨v, hone, -, hcompares, hsnapshots, rfl, hversions⟩
  · refine iff_of_true ?_ fun _ => Nat.zero_le 1
    rintro loaded ⟨raws, hfetches, hloaded⟩
    rw [fetches_of_none (filter_selects_nil hnone) hfetches] at hloaded
    cases hloaded
    rfl
  · have hselects : ((db.view store.tenantId).filter
        fun v => store.selects streamId v.toStreamHead) = [v] := filter_selects hone hcompares
    have hloads := fun loaded : List (WrappedEvent E) =>
      @loads_of_one _ store streamId db v loaded h.sound.uniqueKeys hselects hsnapshots
    have huuids : ∀ {bodies : List EventBody} {loaded : List (WrappedEvent E)},
        store.dispatcher.serde.deserializeMany (bodies.map (toRaw v.toStreamHead)) = .ok loaded →
          loaded.map (·.uuid) = bodies.map (·.uuid) := by
      intro bodies loaded hloaded
      rw [Serde.deserializeMany_uuid _ hloaded, List.map_map]
      rfl
    constructor
    · -- the reverse order will do, too
      intro hall hreadable
      by_contra hlength
      rw [Nat.not_le] at hlength
      have hread : ∀ raw ∈ v.events.reverse.map (toRaw v.toStreamHead),
          ∃ event, store.dispatcher.serde.deserialize raw = .ok event := by
        intro raw hraw
        obtain ⟨body, hbody, rfl⟩ := List.mem_map.1 hraw
        obtain ⟨hmem, hselected⟩ := List.mem_filter.1 (hselects ▸ List.mem_singleton_self v)
        exact hreadable v hmem hselected body (List.mem_reverse.1 hbody)
      obtain ⟨loaded, hloaded⟩ := exists_mapM hread
      have hreverse : Orders store.engine id v.events v.events.reverse :=
        orders_of_versionless _ hversions (List.reverse_perm _)
      have hsame := hall loaded ((hloads loaded).2 ⟨_, hreverse, hloaded⟩)
      rw [huuids hloaded, List.map_reverse] at hsame
      exact reverse_ne h.distinct hlength hsame
    · intro hshort loaded hload
      obtain ⟨bodies, ⟨hperm, -⟩, hloaded⟩ := (hloads loaded).1 hload
      have hreadable : Readable store streamId db := by
        intro w hw hselected body hbody
        have hwv : w ∈ [v] := hselects ▸ List.mem_filter.2 ⟨hw, hselected⟩
        obtain rfl := List.mem_singleton.1 hwv
        exact exists_of_mapM hloaded (List.mem_map_of_mem (hperm.mem_iff.2 hbody))
      rw [huuids hloaded]
      have hlength := hshort hreadable
      rw [List.length_map] at hlength
      refine congrArg _ ?_
      match hevents : v.events with
      | [] => exact List.perm_nil.1 (hevents ▸ hperm)
      | [body] => exact List.perm_singleton.1 (hevents ▸ hperm)
      | _ :: _ :: _ => exact absurd hlength (by simp [hevents])

/-- The stream of the id is new: there is none of the tenant that its appends could find. -/
structure Fresh (store : SqlStore E) (streamId : StreamId) (db : Database) : Prop where
  sound : db.Sound store.engine
  only : Only store.tenantId db
  free : ∀ v ∈ db.view store.tenantId, v.addressed streamId = false

/-- After any appends without versions to a new stream, every load gives the events in the order
in which they were appended, whatever order the database gives to rows that compare equal,
if and only if at most one was appended, or one of them cannot be read back. -/
theorem versionless_in_order_iff (h : Fresh store streamId db)
    (batches : List (BareEvent E × List (BareEvent E))) :
    let r := run (RowVersions.step store) db (batches.map (appendCall streamId))
    (∀ loaded, Loads store streamId none none r.2 loaded →
        loaded.map (·.uuid) = appended batches r.1) ↔
      (Readable store streamId r.2 → (appended batches r.1).length ≤ 1) := by
  have hnone : ((db.view store.tenantId).filter fun v => v.addressed streamId) = [] :=
    List.filter_eq_nil_iff.2 fun v hv => by simp [h.free v hv]
  have hstart : Holds store streamId [] db := ⟨h.sound, h.only, List.nodup_nil, .inl ⟨hnone, rfl⟩⟩
  have hend := run_holds hstart batches
  dsimp only at hend
  rw [List.nil_append] at hend
  exact hend.in_order_iff

end Runs

section Example
open Tenants RowVersions

/-- Two events, appended one after the other. -/
def placed : List (BareEvent Unit × List (BareEvent Unit)) := [(⟨(), 1, 0⟩, []), (⟨(), 2, 0⟩, [])]

def placedIn (store : SqlStore Unit) : Database :=
  (run (step store) {} (placed.map (appendCall order))).2

theorem fresh_empty (store : SqlStore E) (streamId : StreamId) : Fresh store streamId {} :=
  ⟨Database.sound_empty _, fun _ _ => rfl, fun _ hv => by cases hv⟩

/-- The first event alone comes as it was appended. -/
theorem versionless_in_order_iff_one :
    let r := run (step viaDjango) {} ((placed.take 1).map (appendCall order))
    appended (placed.take 1) r.1 = [1] ∧
      ∀ loaded, Loads viaDjango order none none r.2 loaded → loaded.map (·.uuid) = [1] :=
  ⟨rfl, (versionless_in_order_iff (fresh_empty viaDjango order) (placed.take 1)).2
    fun _ => le_rfl⟩

/-- The two events as they are stored. -/
def body (uuid : Uuid) : EventBody :=
  { uuid, createdAt := 0, version := none, name := "Event", data := []
    eventContext := defaultContext }

/-- The stream as it is stored. -/
def placedStream : StreamView :=
  { StreamHead.ofStreamId order none with events := [body 1, body 2], snapshots := [] }

/-- The second event may come first. -/
theorem versionless_disordered :
    (∃ loaded, Loads viaSqlAlchemy order none none (placedIn viaSqlAlchemy) loaded ∧
        loaded.map (·.uuid) = [2, 1]) ∧
      ∃ loaded, Loads viaDjango order none none (placedIn viaDjango) loaded ∧
        loaded.map (·.uuid) = [2, 1] := by
  have horders : Orders sqlite id [body 1, body 2] [body 2, body 1] :=
    ⟨List.Perm.swap _ _ _, by decide⟩
  have hread : plainSerde.deserializeMany ([body 2, body 1].map (toRaw placedStream.toStreamHead)) =
      .ok [⟨(), none, 2, 0, defaultContext⟩, ⟨(), none, 1, 0, defaultContext⟩] := rfl
  constructor
  · have hkeys : (placedIn viaSqlAlchemy).UniqueKeys := ⟨by decide, by decide⟩
    have hone : ((placedIn viaSqlAlchemy).view defaultTenant).filter
        (fun v => viaSqlAlchemy.selects order v.toStreamHead) = [placedStream] := by decide
    exact ⟨_, (loads_of_one hkeys hone rfl).2 ⟨_, horders, hread⟩, rfl⟩
  · have hkeys : (placedIn viaDjango).UniqueKeys := ⟨by decide, by decide⟩
    have hone : ((placedIn viaDjango).view defaultTenant).filter
        (fun v => viaDjango.selects order v.toStreamHead) = [placedStream] := by decide
    exact ⟨_, (loads_of_one hkeys hone rfl).2 ⟨_, horders, hread⟩, rfl⟩

end Example

end EventSourcery.Sql.VersionlessStreams
