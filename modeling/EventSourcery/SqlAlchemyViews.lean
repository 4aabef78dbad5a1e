import EventSourcery.SqlAlchemyStore

/-!
# The SQLAlchemy store as one tenant sees it

The requests of a tenant act on its view as they would on a database of its own,
when the statements that do not look at the tenant find no row of another tenant,
and new uuids are in no row of another tenant. A request that raises changes
nothing, since its transaction is rolled back.
-/
namespace EventSourcery.Sql.SqlAlchemyViews
open SqlAlchemyStorageStrategy

variable {E : Type}

def fetch (engine : Engine) (streamId : StreamId) (start stop : Option ℤ) (streams : Streams) :
    List RawEvent :=
  match streams.filter fun v => v.compares streamId with
  | [] => []
  | v :: _ => (fetchRows engine id start stop v.events v.snapshots).map (toRaw v.toStreamHead)

/-- The streams after the search for the stream, which is created when nothing is found. -/
def opened (streamId : StreamId) (initialVersion : Option ℤ) (streams : Streams) : Streams :=
  let head := StreamHead.ofStreamId streamId initialVersion
  if streams.any (fun v => v.addressed streamId) ||
      streams.any (fun v => head.clashes v.toStreamHead) then streams
  else streams ++ [{ head with events := [], snapshots := [] }]

/-- The version bump, when there is an expected version to compare. -/
def bump (streamId : StreamId) (versioning : Versioning) (streams : Streams) :
    Except Error Streams :=
  match versioning.compared with
  | none => .ok streams
  | some expected =>
      let hit := fun v : StreamHead => v.compares streamId && v.version = some expected
      if streams.countP (fun v => hit v.toStreamHead) ≠ 1 then
        .error (.concurrentStreamWriteError [])
      else .ok (streams.map fun v =>
        if hit v.toStreamHead then { v with version := versioning.initialVersion } else v)

/-- Add the events to the stream, if the constraints allow it and the listeners do:
`verdict` is what the dispatch answers. -/
def store (verdict : Except Error Unit) (stream : StreamView) (events : List RawEvent)
    (streams : Streams) : Except Error Streams :=
  let entries := events.map EventBody.ofRaw
  if uuidsFree entries (streams.flatMap (·.events)) && versionsFree entries stream.events then
    verdict.map fun _ => modify stream.key (·.addEvents entries) streams
  else .error .integrityError

def insert (verdict : Except Error Unit) (streamId : StreamId) (versioning : Versioning)
    (events : List RawEvent) (streams : Streams) : Except Error Streams := do
  let streams := opened streamId versioning.initialVersion streams
  let stream ← chooseStream StreamView.toStreamHead streamId
    (streams.filter fun v => v.addressed streamId)
  versioning.validateIfCompatible stream.version
  let streams ← bump streamId versioning streams
  store verdict stream events streams

def snapshot (raw : RawEvent) (streams : Streams) : Except Error Streams :=
  match streams.filter fun v => v.compares raw.streamId with
  | [] => .error .noResultFound
  | [v] =>
      if raw.version = none ||
          (streams.flatMap (·.snapshots)).any fun body => body.uuid = raw.uuid then
        .error .integrityError
      else .ok (modify v.key (·.addSnapshot (.ofRaw raw)) streams)
  | _ => .error .multipleResultsFound

def delete (engine : Engine) (streamId : StreamId) (streams : Streams) : Except Error Streams :=
  if engine.enforcesForeignKeys &&
      streams.any fun v => v.compares streamId && !v.snapshots.isEmpty then .error .integrityError
  else .ok (streams.filter fun v => !v.compares streamId)

/-- Keep the new streams, or the old ones when the request raised. -/
def commit (streams : Streams) (r : Except Error Streams) : Except Error Unit × Streams :=
  match r with
  | .error e => (.error e, streams)
  | .ok streams => (.ok (), streams)

def strategy (engine : Engine) (accept : List RawEvent → Except Error Unit) :
    StorageStrategy Streams where
  fetchEvents streamId start stop streams := .ok (fetch engine streamId start stop streams)
  insertEvents streamId versioning events streams :=
    commit streams (insert (accept events) streamId versioning events streams)
  saveSnapshot raw streams := commit streams (snapshot raw streams)
  deleteStream streamId streams := commit streams (delete engine streamId streams)

/-- What a statement's request does to the tables, beside what it does to a view. -/
structure Effect (engine : Engine) (t : TenantId) (db : Database) (own : Except Error Streams)
    (r : Except Error Unit × Database) : Prop where
  error : ∀ e, own = .error e → r.1 = .error e
  ok : ∀ streams, own = .ok streams → r.1 = .ok () ∧ r.2.Sound engine ∧ r.2.view t = streams ∧
    ∀ u, u ≠ t → r.2.view u = db.view u

theorem Effect.of_others {engine : Engine} {t : TenantId} {db db' : Database}
    {own : Except Error Streams} {r : Except Error Unit × Database}
    (h : Effect engine t db' own r) (hothers : ∀ u, u ≠ t → db'.view u = db.view u) :
    Effect engine t db own r where
  error := h.error
  ok streams hown := by
    obtain ⟨hok, hsound, hview, hrest⟩ := h.ok streams hown
    exact ⟨hok, hsound, hview, fun u hu => (hrest u hu).trans (hothers u hu)⟩

theorem Effect.of_error {engine : Engine} {t : TenantId} {db db' : Database} {e : Error} :
    Effect engine t db (.error e) (.error e, db') where
  error e' h := by cases h; rfl
  ok _ h := by cases h

theorem Effect.of_ok {engine : Engine} {t : TenantId} {db db' : Database} {streams : Streams}
    (hsound : db'.Sound engine) (hview : db'.view t = streams)
    (hothers : ∀ u, u ≠ t → db'.view u = db.view u) :
    Effect engine t db (.ok streams) (.ok (), db') where
  error _ h := by cases h
  ok streams' h := by
    cases h
    exact ⟨rfl, hsound, hview, hothers⟩

/-- The same request in a transaction, rolled back when it raises. -/
theorem Effect.undo {engine : Engine} {t : TenantId} {db : Database} {own : Except Error Streams}
    {r : Except Error Unit × Database} (h : Effect engine t db own r) (hs : db.Sound engine) :
    let r' := StorageStrategy.undo Database.rollback db r
    r'.1 = (commit (db.view t) own).1 ∧ r'.2.Sound engine ∧
      r'.2.view t = (commit (db.view t) own).2 ∧ ∀ u, u ≠ t → r'.2.view u = db.view u := by
  cases own with
  | error e =>
    have hr := h.error e rfl
    simp only [StorageStrategy.undo, hr, commit]
    exact ⟨trivial, sound_rollback hs _, rfl, fun _ _ => rfl⟩
  | ok streams =>
    obtain ⟨hr, hsound, hview, hothers⟩ := h.ok streams rfl
    simp only [StorageStrategy.undo, hr, commit]
    exact ⟨trivial, hsound, hview, hothers⟩

section Steps
variable {strategy : SqlAlchemyStorageStrategy E} {db : Database}

/-- The statements of the request that do not look at the tenant find no row of
another tenant, and deleted ids are not given to others with snapshots left behind. -/
def MissesOthers (engine : Engine) (db : Database) (i : TenantId × Request) : Prop :=
  match i.2 with
  | .fetch _ _ _ => True
  | .insert streamId versioning _ => ∀ expected ∈ versioning.compared, ∀ row ∈ db.streams,
      row.tenantId ≠ i.1 → row.compares streamId → row.version ≠ some expected
  | .snapshot raw => ∀ row ∈ db.streams, row.tenantId ≠ i.1 → row.compares raw.streamId = false
  | .delete streamId => (∀ row ∈ db.streams, row.tenantId ≠ i.1 → row.compares streamId = false) ∧
      (engine.enforcesForeignKeys ∨ engine.reusesIds = false ∨ ∀ snapshot ∈ db.snapshots,
        db.belongs (fun row => row.compares streamId) snapshot.dbStreamId = false)

instance (engine : Engine) (db : Database) (i : TenantId × Request) :
    Decidable (MissesOthers engine db i) := by
  unfold MissesOthers
  split <;> infer_instance

/-- The uuids that the request writes are in no row but the tenant's. -/
def UuidsApart (db : Database) (i : TenantId × Request) : Prop :=
  match i.2 with
  | .insert _ _ events => EventsApart db i.1 events
  | .snapshot raw => ∀ held ∈ db.snapshots, (∀ row ∈ db.streams, row.id = held.dbStreamId →
      row.tenantId ≠ i.1) → held.body.uuid ≠ raw.uuid
  | _ => True

/-- The streams of the tenant that a stream id names: one at most. -/
theorem own_cases (h : db.UniqueKeys) (streamId : StreamId) (t : TenantId) :
    (db.streams.filter fun row => row.compares streamId && row.tenantId = t) = [] ∨
      ∃ row, (db.streams.filter fun row => row.compares streamId && row.tenantId = t) = [row] := by
  have hnodup := (List.Nodup.of_map _ h.ids).filter
    fun row => row.compares streamId && row.tenantId = t
  have hsame : ∀ a ∈ db.streams.filter fun row => row.compares streamId && row.tenantId = t,
      ∀ b ∈ db.streams.filter fun row => row.compares streamId && row.tenantId = t, a = b := by
    intro a ha b hb
    simp only [List.mem_filter, StreamHead.compares, Bool.and_eq_true, decide_eq_true_eq] at ha hb
    exact eq_of_key h ha.1 hb.1 (ha.2.2.trans hb.2.2.symm)
      (Prod.ext (ha.2.1.1.1.trans hb.2.1.1.1.symm) (ha.2.1.2.trans hb.2.1.2.symm))
  revert hnodup hsame
  generalize (db.streams.filter fun row => row.compares streamId && row.tenantId = t) = rows
  intro hnodup hsame
  match rows with
  | [] => exact .inl rfl
  | [row] => exact .inr ⟨row, rfl⟩
  | a :: b :: _ => simp [hsame a (by simp) b (by simp)] at hnodup

/-- A join with the one stream of a selection has the rows that belong to it. -/
theorem filter_joined {α : Type} (h : db.UniqueKeys) {p : StreamRow → Bool}
    {row : StreamRow} (hp : db.streams.filter p = [row]) (dbStreamId : α → ℕ) (xs : List α) :
    ((joined dbStreamId xs db).filter fun x => p x.1) =
      (xs.filter fun x => dbStreamId x = row.id).map fun x => (row, x) := by
  have hrow : row ∈ db.streams ∧ p row := List.mem_filter.1 (hp ▸ List.mem_singleton_self row)
  have honly : ∀ r ∈ db.streams, p r → r = row := fun r hr hpr => by
    simpa [hp] using List.mem_filter.2 ⟨hr, hpr⟩
  induction xs with
  | nil => rfl
  | cons x xs ih =>
    simp only [joined, List.filterMap_cons, List.filter_cons] at ih ⊢
    cases hfind : db.streams.find? (·.id = dbStreamId x) with
    | none =>
      have hne : dbStreamId x ≠ row.id := by
        have := List.find?_eq_none.1 hfind row hrow.1
        simpa [eq_comm] using this
      simp [hne, ih]
    | some r =>
      have hmem := List.mem_of_find?_eq_some hfind
      have hid : r.id = dbStreamId x := by simpa using List.find?_some hfind
      by_cases hx : dbStreamId x = row.id
      · have : r = row := eq_of_id h hmem hrow.1 (hid.trans hx)
        subst this
        simp [hx, hrow.2, ih]
      · have : p r = false := by
          by_contra hpr
          exact hx (by rw [← hid, honly r hmem (by simpa using hpr)])
        simp [hx, this, ih]

theorem filter_joined_nil {α : Type} {p : StreamRow → Bool} (hp : db.streams.filter p = [])
    (dbStreamId : α → ℕ) (xs : List α) :
    ((joined dbStreamId xs db).filter fun x => p x.1) = [] := by
  rw [List.filter_eq_nil_iff] at hp ⊢
  intro x hx
  obtain ⟨y, -, hy⟩ := List.mem_filterMap.1 hx
  obtain ⟨row, hrow, rfl⟩ := Option.map_eq_some_iff.1 hy
  exact hp row (List.mem_of_find?_eq_some hrow)

theorem fetchEvents_view (h : db.UniqueKeys) (streamId : StreamId)
    (start stop : Option ℤ) :
    strategy.fetchEvents streamId start stop db =
      .ok (fetch strategy.engine streamId start stop (db.view strategy.tenantId)) := by
  have hview := filter_view db strategy.tenantId fun head => head.compares streamId
  rcases own_cases h streamId strategy.tenantId with hnone | ⟨row, hrow⟩
  · simp only [fetch, hview, hnone, List.map_nil]
    simp [fetchEvents, filter_joined_nil hnone, fetchRows]
  · simp only [fetch, hview, hrow, List.map_cons, List.map_nil]
    have hevents : ((db.events.filter fun x => x.dbStreamId = row.id).map fun x => (row, x)).map
        (fun x => (x.1, x.2.body)) = (db.eventsOf row.id).map fun body => (row, body) := by
      simp [Database.eventsOf]
    have hsnapshots : ((db.snapshots.filter fun x => x.dbStreamId = row.id).map
        fun x => (row, x)).map (fun x => (x.1, x.2.body)) =
          (db.snapshotsOf row.id).map fun body => (row, body) := by
      simp [Database.snapshotsOf]
    simp only [fetchEvents, filter_joined h hrow, hevents, hsnapshots, fetchRows_map, List.map_map]
    rfl

/-- The tables after the first step of `_ensure_stream`. -/
theorem openStream_spec (h : db.Sound strategy.engine) (streamId : StreamId)
    (initialVersion : Option ℤ) :
    let db' := strategy.openStream streamId initialVersion db
    db'.Sound strategy.engine ∧
      db'.view strategy.tenantId = opened streamId initialVersion (db.view strategy.tenantId) ∧
      (∀ u, u ≠ strategy.tenantId → db'.view u = db.view u) ∧ db'.events = db.events ∧
      (∀ row ∈ db.streams, row ∈ db'.streams) ∧
      ∀ row ∈ db'.streams, row.tenantId ≠ strategy.tenantId → row ∈ db.streams := by
  have hmatching : (strategy.matchingStreams streamId db).isEmpty =
      !(db.view strategy.tenantId).any fun v => v.addressed streamId := by
    rw [any_view fun head => head.addressed streamId, Bool.eq_iff_iff]
    simp [matchingStreams, List.filter_eq_nil_iff]
  set head := StreamHead.ofStreamId streamId initialVersion with hhead
  simp only [openStream, insertOrNothing, ← hhead, hmatching, clashes_view, opened]
  cases hfound : (db.view strategy.tenantId).any fun v => v.addressed streamId with
  | true => exact ⟨h, by simp, fun _ _ => rfl, rfl, fun _ hrow => hrow, fun _ hrow _ => hrow⟩
  | false =>
    cases hfree : (db.view strategy.tenantId).any fun v => head.clashes v.toStreamHead with
    | true => exact ⟨h, by simp, fun _ _ => rfl, rfl, fun _ hrow => hrow, fun _ hrow _ => hrow⟩
    | false =>
      simp only [Bool.not_false, if_true, Bool.false_eq_true, if_false, Bool.or_self]
      refine ⟨sound_insertStream h _ _ fun r hr ht hkey => ?_, ?_, fun u hu => ?_, rfl,
        fun row hrow => List.mem_append_left _ hrow, fun row hrow ht => ?_⟩
      · rw [← clashes_view, List.any_eq_false] at hfree
        apply hfree r hr
        simp [ht, StreamHead.clashes_of_key hkey]
      · rw [view_insertStream h, if_pos rfl]
      · rw [view_insertStream h, if_neg (Ne.symm hu)]
      · rcases List.mem_append.1 hrow with hrow | hrow
        · exact hrow
        · rw [List.mem_singleton.1 hrow] at ht
          exact absurd rfl ht

/-- The insertion of the events into a stream of the tenant. -/
theorem storeEvents_effect (h : db.Sound strategy.engine)
    {row : StreamRow} (hrow : row ∈ db.streams) (ht : row.tenantId = strategy.tenantId)
    {stream : StreamRow} (hid : stream.id = row.id) {v : StreamView} (hkey : v.key = row.key)
    (hevents : v.events = db.eventsOf row.id) {events : List RawEvent}
    (hapart : EventsApart db strategy.tenantId events) :
    ∃ verdict, (strategy.dispatcher.PositionBlind →
        verdict = strategy.dispatcher.accept strategy.tenantId events) ∧
      Effect strategy.engine strategy.tenantId db
        (store verdict v events (db.view strategy.tenantId))
        (strategy.storeEvents stream events db) := by
  set added := db.addEvents strategy.engine row.id (events.map EventBody.ofRaw) with hadded
  refine ⟨strategy.dispatcher.dispatch (recordsOf strategy.tenantId events added.1),
    fun blind => dispatch_added blind _ _ _ _ _, ?_⟩
  simp only [store, storeEvents, ← hapart.uuidsFree, hid, hkey, hevents, ← hadded]
  cases uuidsFree (events.map .ofRaw) (db.events.map (·.body)) &&
      versionsFree (events.map .ofRaw) (db.eventsOf row.id) with
  | false => exact .of_error
  | true =>
    simp only [if_true]
    obtain ⟨hsound, hview⟩ := outbox_view (sound_addEvents h hrow (events.map .ofRaw))
      strategy.outbox (recordsOf strategy.tenantId events added.1)
    cases strategy.dispatcher.dispatch (recordsOf strategy.tenantId events added.1) with
    | error e => exact .of_error
    | ok u =>
      obtain ⟨hown, hother⟩ := view_addEvents h hrow (events.map .ofRaw)
      refine .of_ok hsound ?_ fun u hu => ?_
      · rw [hview, ← ht]
        exact hown
      · rw [hview]
        exact hother u (ht ▸ hu)

/-- The version bump, when it finds no row of another tenant. -/
theorem bump_spec {streamId : StreamId} {expected : ℤ}
    (hmisses : ∀ row ∈ db.streams, row.tenantId ≠ strategy.tenantId → row.compares streamId →
      row.version ≠ some expected) (initialVersion : Option ℤ) :
    let hit := fun row : StreamRow => row.compares streamId && row.version = some expected
    let p := fun v : StreamHead => v.compares streamId && v.version = some expected
    db.streams.countP hit =
        (db.view strategy.tenantId).countP (fun v => p v.toStreamHead) ∧
      (db.setVersion hit initialVersion).view strategy.tenantId =
        (db.view strategy.tenantId).map (fun v =>
          if p v.toStreamHead then { v with version := initialVersion } else v) ∧
      ∀ u, u ≠ strategy.tenantId → (db.setVersion hit initialVersion).view u = db.view u := by
  intro hit p
  have hmiss : ∀ row ∈ db.streams, row.tenantId ≠ strategy.tenantId → hit row = false := by
    intro row hrow ht
    have := hmisses row hrow ht
    simpa [hit] using this
  exact setVersion_spec initialVersion (fun _ _ _ => rfl) hmiss

/-- The stream that is chosen among the rows is chosen in the view. -/
theorem chooseStream_view (streamId : StreamId) (db : Database) :
    chooseStream StreamView.toStreamHead streamId
      ((db.view strategy.tenantId).filter fun v => v.addressed streamId) =
        (chooseStream StreamRow.toStreamHead streamId (strategy.matchingStreams streamId db)).map
          db.viewOf := by
  rw [filter_view db strategy.tenantId (fun head => head.addressed streamId), chooseStream_map]
  rfl

/-- What `_ensure_stream` does to the tables: it opens the stream, and perhaps bumps versions. -/
theorem ensureStream_tables (streamId : StreamId) (versioning : Versioning) (db : Database) :
    (strategy.ensureStream streamId versioning db).2 =
        strategy.openStream streamId versioning.initialVersion db ∨
      ∃ hit, (strategy.ensureStream streamId versioning db).2 =
        (strategy.openStream streamId versioning.initialVersion db).setVersion hit
          versioning.initialVersion := by
  unfold ensureStream
  dsimp only
  split
  · exact .inl rfl
  · split
    · exact .inl rfl
    · exact .inl rfl
    · split
      · exact .inr ⟨_, rfl⟩
      · exact .inr ⟨_, rfl⟩

/-- The stream that is ensured is chosen from the matching ones. -/
theorem ensureStream_chosen {streamId : StreamId} {versioning : Versioning} {db db' : Database}
    {stream : StreamRow} (h : strategy.ensureStream streamId versioning db = (.ok stream, db')) :
    chooseStream StreamRow.toStreamHead streamId (strategy.matchingStreams streamId
      (strategy.openStream streamId versioning.initialVersion db)) = .ok stream := by
  unfold ensureStream at h
  dsimp only at h
  split at h
  · cases h
  · rename_i other hother
    split at h
    · cases h
    · cases h
      exact hother
    · split at h
      · cases h
      · cases h
        exact hother

/-- The stream that is ensured has a row of its id, of the tenant and with its stream id. -/
theorem ensureStream_row {streamId : StreamId} {versioning : Versioning} {db db' : Database}
    {stream : StreamRow} (h : strategy.ensureStream streamId versioning db = (.ok stream, db')) :
    ∃ row ∈ db'.streams, row.id = stream.id ∧ row.tenantId = strategy.tenantId ∧
      row.streamId.eq streamId := by
  obtain ⟨hmatching, heq⟩ := chooseStream_eq_ok (ensureStream_chosen h)
  obtain ⟨hmem, hmatches⟩ := List.mem_filter.1 hmatching
  have htenant : stream.tenantId = strategy.tenantId := by
    simpa using (Bool.and_eq_true_iff.1 hmatches).2
  have htables := @ensureStream_tables _ strategy streamId versioning db
  rw [h] at htables
  rcases htables with hsame | ⟨hit, hbumped⟩
  · change db' = _ at hsame
    subst hsame
    exact ⟨stream, hmem, rfl, htenant, heq⟩
  · change db' = _ at hbumped
    subst hbumped
    refine ⟨_, List.mem_map_of_mem hmem, ?_⟩
    split
    · exact ⟨rfl, htenant, heq⟩
    · exact ⟨rfl, htenant, heq⟩

/-- A version bump leaves the other columns. -/
theorem columns_bumped (hit : StreamRow → Bool) (version : Option ℤ) (row : StreamRow) :
    let bumped := if hit row then { row with version } else row
    bumped.id = row.id ∧ bumped.tenantId = row.tenantId ∧ bumped.key = row.key := by
  intro bumped
  unfold bumped
  split <;> exact ⟨rfl, rfl, rfl⟩

variable (strategy) in
theorem insertEvents_effect (h : db.Sound strategy.engine)
    {streamId : StreamId} {versioning : Versioning} {events : List RawEvent}
    (hmisses : MissesOthers strategy.engine db
      (strategy.tenantId, .insert streamId versioning events))
    (hapart : UuidsApart db (strategy.tenantId, .insert streamId versioning events)) :
    ∃ verdict, (strategy.dispatcher.PositionBlind →
        verdict = strategy.dispatcher.accept strategy.tenantId events) ∧
      Effect strategy.engine strategy.tenantId db
        (insert verdict streamId versioning events (db.view strategy.tenantId))
        (strategy.insertEvents streamId versioning events db) := by
  obtain ⟨hsound, hview, hothers, hevents, hkept, hforeign⟩ :=
    openStream_spec h streamId versioning.initialVersion
  revert hsound hview hothers hevents hkept hforeign
  simp only [insertEvents, ensureStream]
  generalize strategy.openStream streamId versioning.initialVersion db = db'
  intro hsound hview hothers hevents hkept hforeign
  have hapart' : EventsApart db' strategy.tenantId events :=
    EventsApart.mono hapart hevents fun row hrow => ⟨row, hkept row hrow, rfl, rfl⟩
  simp only [insert, ← hview, chooseStream_view]
  cases hchosen : chooseStream StreamRow.toStreamHead streamId
      (strategy.matchingStreams streamId db') with
  | error e => exact ⟨_, fun _ => rfl, .of_error⟩
  | ok row =>
    obtain ⟨hrow, ht⟩ := List.mem_filter.1 (chooseStream_eq_ok hchosen).1
    simp only [Bool.and_eq_true, decide_eq_true_eq] at ht
    simp only [Except.map, bind, Except.bind]
    rw [show (db'.viewOf row).version = row.version from rfl]
    cases versioning.validateIfCompatible row.version with
    | error e => exact ⟨_, fun _ => rfl, .of_error⟩
    | ok u =>
      cases hcompared : versioning.compared with
      | none =>
        simp only [bump, hcompared]
        obtain ⟨verdict, hquiet, heffect⟩ :=
          storeEvents_effect hsound hrow ht.2 rfl (v := db'.viewOf row) rfl rfl hapart'
        exact ⟨verdict, hquiet, heffect.of_others hothers⟩
      | some expected =>
        obtain ⟨hcount, hbumped, hrest⟩ := bump_spec (fun r hr hrt =>
          hmisses expected hcompared r (hforeign r hr hrt) hrt) versioning.initialVersion
        simp only [bump, hcompared, ← hcount]
        by_cases hone : db'.streams.countP
            (fun row => row.compares streamId && row.version = some expected) = 1
        · simp only [hone, ne_eq, not_true_eq_false, if_false, ← hbumped]
          set hit := fun row : StreamRow => row.compares streamId && row.version = some expected
          have hbumpedRow :
              (if hit row then { row with version := versioning.initialVersion } else row)
              ∈ (db'.setVersion hit versioning.initialVersion).streams := List.mem_map_of_mem hrow
          have hsame := columns_bumped hit versioning.initialVersion
          obtain ⟨hid, htenant, hkey⟩ := hsame row
          have hbumpedApart : EventsApart (db'.setVersion hit versioning.initialVersion)
              strategy.tenantId events :=
            hapart'.mono rfl fun r hr =>
              ⟨_, List.mem_map_of_mem hr, (hsame r).1, (hsame r).2.1⟩
          obtain ⟨verdict, hquiet, heffect⟩ :=
            storeEvents_effect (sound_setVersion hsound hit _) hbumpedRow (htenant.trans ht.2)
              hid.symm (v := db'.viewOf row) hkey.symm (by rw [hid]; rfl) hbumpedApart
          exact ⟨verdict, hquiet, heffect.of_others fun u hu =>
            (hrest u hu).trans (hothers u hu)⟩
        · simp only [hone, ne_eq, not_false_eq_true, if_true]
          exact ⟨_, fun _ => rfl, .of_error⟩

theorem saveSnapshot_effect {engine : Engine} {t : TenantId} (h : db.Sound engine)
    {raw : RawEvent}
    (hmisses : MissesOthers engine db (t, .snapshot raw))
    (hapart : UuidsApart db (t, .snapshot raw)) :
    Effect engine t db (snapshot raw (db.view t))
      (saveSnapshot raw db) := by
  have hscoped : (db.streams.filter fun row => row.compares raw.streamId) =
      db.streams.filter fun row => row.compares raw.streamId && row.tenantId = t := by
    refine List.filter_congr fun row hrow => ?_
    by_cases ht : row.tenantId = t
    · simp [ht]
    · simp [ht, hmisses row hrow ht]
  have hview := filter_view db t fun head =>
    head.compares raw.streamId
  have hfree : (db.snapshots.any fun row => row.body.uuid = raw.uuid) =
      ((db.view t).flatMap (·.snapshots)).any fun body => body.uuid = raw.uuid := by
    rw [Bool.eq_iff_iff]
    simp only [List.any_eq_true, decide_eq_true_eq]
    constructor
    · rintro ⟨held, hheld, huuid⟩
      by_contra hnone
      refine hapart held hheld (fun r hr hid ht => hnone ?_) huuid
      exact ⟨held.body, mem_view_snapshots.2 ⟨held, hheld, rfl, r, hr, hid, ht⟩, huuid⟩
    · rintro ⟨body, hbody, huuid⟩
      obtain ⟨held, hheld, rfl, -⟩ := mem_view_snapshots.1 hbody
      exact ⟨held, hheld, huuid⟩
  simp only [snapshot, saveSnapshot, hscoped, hview, hfree]
  rcases own_cases h.uniqueKeys raw.streamId t with hnone | ⟨row, hrow⟩
  · rw [hnone]
    exact .of_error
  · obtain ⟨hmem, hown⟩ := List.mem_filter.1 (hrow ▸ List.mem_singleton_self row)
    simp only [Bool.and_eq_true, decide_eq_true_eq] at hown
    rw [hrow]
    simp only [List.map_cons, List.map_nil]
    cases decide (raw.version = none) ||
        ((db.view t).flatMap (·.snapshots)).any fun body => body.uuid = raw.uuid with
    | true => exact .of_error
    | false =>
      have hsame : (db.addSnapshot row.id (.ofRaw raw)).streams = db.streams := rfl
      have hf : ∀ r ∈ db.streams, (db.addSnapshot row.id (.ofRaw raw)).viewOf r =
          if r.id = row.id then (db.viewOf r).addSnapshot (.ofRaw raw) else db.viewOf r :=
        fun r _ => viewOf_addSnapshot _ _ r
      refine .of_ok (sound_addSnapshot h hmem _) ?_ fun u hu =>
        view_modify_other h hmem hsame hf (hown.2 ▸ hu)
      rw [← hown.2]
      exact view_modify h hmem hsame hf

variable (strategy) in
theorem deleteStream_effect (h : db.Sound strategy.engine) {streamId : StreamId}
    (hmisses : MissesOthers strategy.engine db (strategy.tenantId, .delete streamId)) :
    Effect strategy.engine strategy.tenantId db
      (delete strategy.engine streamId (db.view strategy.tenantId))
      (strategy.deleteStream streamId db) := by
  obtain ⟨hmiss, hleft⟩ := hmisses
  set hit := fun row : StreamRow => row.compares streamId with hhit
  have hsnapshots : (db.snapshots.any fun held => db.belongs hit held.dbStreamId) =
      (db.view strategy.tenantId).any fun v => v.compares streamId && !v.snapshots.isEmpty := by
    rw [Bool.eq_iff_iff]
    simp only [List.any_eq_true, Bool.and_eq_true, Database.belongs, decide_eq_true_eq, mem_view]
    constructor
    · rintro ⟨held, hheld, row, hrow, hid, hrowhit⟩
      have ht : row.tenantId = strategy.tenantId := by
        by_contra ht
        simp [hhit, hmiss row hrow ht] at hrowhit
      have hbody : held.body ∈ db.snapshotsOf row.id :=
        List.mem_map_of_mem (List.mem_filter.2 ⟨hheld, by simp [hid]⟩)
      refine ⟨db.viewOf row, ⟨row, hrow, ht, rfl⟩, hrowhit, ?_⟩
      simpa [Database.viewOf] using List.ne_nil_of_mem hbody
    · rintro ⟨v, ⟨row, hrow, -, rfl⟩, hcompares, hsome⟩
      obtain ⟨body, hbody⟩ := List.exists_mem_of_ne_nil _ (by simpa using hsome)
      obtain ⟨held, hheld, -⟩ := List.mem_map.1 hbody
      obtain ⟨hheld, hid⟩ := List.mem_filter.1 hheld
      exact ⟨held, hheld, row, hrow, by simpa [eq_comm] using hid, hcompares⟩
  have hbelongs : ∀ id, (db.deleteEvents hit).belongs hit id = db.belongs hit id := fun _ => rfl
  simp only [delete, deleteStream, ← hhit, hbelongs, ← hsnapshots]
  rw [show (db.deleteEvents hit).snapshots = db.snapshots from rfl]
  cases hchecked : strategy.engine.enforcesForeignKeys &&
      db.snapshots.any fun held => db.belongs hit held.dbStreamId with
  | true => exact .of_error
  | false =>
    have hsame : ((db.deleteEvents hit).deleteStreams hit).streams =
        db.streams.filter fun row => !hit row := rfl
    have hkept : ∀ r ∈ db.streams, hit r = false →
        ((db.deleteEvents hit).deleteStreams hit).viewOf r = db.viewOf r := fun r hr hr' =>
      congrArg (fun events => StreamView.mk r.toStreamHead events (db.snapshotsOf r.id))
        (eventsOf_deleteEvents h hr hr')
    refine .of_ok ?_ (view_delete hsame hkept fun _ _ _ => rfl) fun u hu =>
      view_delete_other hsame hkept fun row hrow hrt => hmiss row hrow (hrt ▸ hu)
    · refine sound_delete h hsame rfl (fun held hheld => ⟨hheld, ?_⟩) rfl
      rcases hleft with hforeign | hreuses | hnone
      · rw [hforeign, Bool.true_and, List.any_eq_false] at hchecked
        exact .inl (by simpa using hchecked held hheld)
      · exact .inr hreuses
      · exact .inl (hnone held hheld)

end Steps

section Backend
open Runs Tenants
variable (engine : Engine) (dispatchers : TenantId → Dispatcher E) (outbox : Option OutboxStrategy)

/-- The strategy of each tenant on one database, with a transaction for each request. -/
def strategies (u : TenantId) : StorageStrategy Database :=
  (SqlAlchemyStorageStrategy.mk engine (dispatchers u) outbox u).storageStrategy.transactional
    Database.rollback

/-- What a request does to the answer, the tables, and the views. -/
theorem requestStep_effect (blind : ∀ u, (dispatchers u).PositionBlind) {db : Database}
    (h : db.Sound engine) {u : TenantId} {r : Request} (hmisses : MissesOthers engine db (u, r))
    (hapart : UuidsApart db (u, r)) :
    let r' := requestStep (strategies engine dispatchers outbox) db (u, r)
    let own := (strategy engine ((dispatchers u).accept u)).handle (db.view u) r
    r'.1 = own.1 ∧ r'.2.Sound engine ∧ r'.2.view u = own.2 ∧
      ∀ t, t ≠ u → r'.2.view t = db.view t := by
  let mine : SqlAlchemyStorageStrategy E := ⟨engine, dispatchers u, outbox, u⟩
  cases r with
  | fetch streamId start stop =>
    have hfetch : mine.fetchEvents streamId start stop db = _ :=
      fetchEvents_view h.uniqueKeys streamId start stop
    exact ⟨hfetch, h, rfl, fun _ _ => rfl⟩
  | insert streamId versioning events =>
    obtain ⟨verdict, hverdict, heffect⟩ := insertEvents_effect mine h hmisses hapart
    rw [hverdict (blind u)] at heffect
    obtain ⟨hanswer, hrest⟩ := heffect.undo h
    exact ⟨congrArg (Except.map fun _ => []) hanswer, hrest⟩
  | snapshot raw =>
    have heffect : Effect engine u db _ (saveSnapshot raw db) :=
      saveSnapshot_effect h hmisses hapart
    obtain ⟨hanswer, hrest⟩ := heffect.undo h
    exact ⟨congrArg (Except.map fun _ => []) hanswer, hrest⟩
  | delete streamId =>
    have heffect : Effect engine u db _ (mine.deleteStream streamId db) :=
      deleteStream_effect mine h hmisses
    obtain ⟨hanswer, hrest⟩ := heffect.undo h
    exact ⟨congrArg (Except.map fun _ => []) hanswer, hrest⟩

theorem unwinding (blind : ∀ u, (dispatchers u).PositionBlind) (t : TenantId) :
    Unwinding (requestStep (strategies engine dispatchers outbox))
      (fun db i => i.2.Proper ∧ MissesOthers engine db i ∧ UuidsApart db i)
      (Database.Sound engine) t (Database.view t)
      (strategy engine ((dispatchers t).accept t)).handle where
  keep _ _ hs hi := (requestStep_effect engine dispatchers outbox blind hs hi.2.1 hi.2.2).2.1
  answer _ _ hs hi := (requestStep_effect engine dispatchers outbox blind hs hi.2.1 hi.2.2).1
  own _ _ hs hi := (requestStep_effect engine dispatchers outbox blind hs hi.2.1 hi.2.2).2.2.1
  other _ _ _ hu hs hi :=
    (requestStep_effect engine dispatchers outbox blind hs hi.2.1 hi.2.2).2.2.2 t (Ne.symm hu)

/-- The event store of each tenant. -/
def stores (u : TenantId) : EventStore E Database :=
  ⟨strategies engine dispatchers outbox u, (dispatchers u).serde⟩

/-- The event store that a tenant's view amounts to. -/
def ownStore (t : TenantId) : EventStore E Streams :=
  ⟨strategy engine ((dispatchers t).accept t), (dispatchers t).serde⟩

theorem unwinding_stores (blind : ∀ u, (dispatchers u).PositionBlind) (t : TenantId) :
    Unwinding (callStep (stores engine dispatchers outbox))
      (Requesting (fun u => (dispatchers u).serde) fun db i =>
        MissesOthers engine db i ∧ UuidsApart db i) (Database.Sound engine) t
      (Database.view t) (ownStore engine dispatchers t).call :=
  unwinding_calls (unwinding engine dispatchers outbox blind t)

end Backend

end EventSourcery.Sql.SqlAlchemyViews
