import EventSourcery.Insertions

/-!
# SQLAlchemy sessions

Calls, rollbacks and commits of one session, which keeps every stream object that
`_ensure_stream` has found in its `strong_set`. `insert_events` looks for the stream there once
more, in no order, among objects whose rows are gone and objects that a deletion has taken out of
the session.

An object is expired by every commit and rollback, and loaded again when it is read or when a query
returns its row. The bulk deletion looks only at the objects that are loaded: an expired one stays
in the session, without a row. Until the end of its transaction, a deleted object passes events on
to the session, which cannot store them without a stream.
-/
namespace EventSourcery.Sql.SqlAlchemySessions
open Runs Tenants SqlAlchemyStorageStrategy

variable {E : Type}

/-- In the identity map of the session; deleted in the transaction; driven out of the identity map
by another object of the row; or out of the session. -/
inductive Standing where
  | held
  | deleted
  | replaced
  | detached
  deriving DecidableEq

/-- A stream object with its attributes, unless they are expired, and whether its `events` are
loaded. -/
structure StreamObject where
  id : ℕ
  attributes : Option StreamRow := none
  eventsLoaded : Bool := false
  standing : Standing := .held
  deriving DecidableEq

namespace StreamObject

/-- The attributes, which are loaded when they are expired; `ObjectDeletedError` without a row. -/
def read (db : Database) (o : StreamObject) : Option StreamRow :=
  o.attributes.or (db.streams.find? (·.id = o.id))

def expire (o : StreamObject) : StreamObject :=
  if o.standing = .held then { o with attributes := none, eventsLoaded := false } else o

/-- Queries load the objects of the rows that they return, and the `UPDATE` changes the objects
that are loaded as it changes their rows. -/
def refresh (matching : List StreamRow) (db : Database) (o : StreamObject) : StreamObject :=
  if o.standing = .held && (o.attributes.isSome || matching.any (·.id = o.id)) then
    { o with attributes := db.streams.find? (·.id = o.id) }
  else o

/-- The bulk deletion takes the loaded objects that it matches out of the identity map. -/
def expunge (hit : StreamRow → Bool) (o : StreamObject) : StreamObject :=
  if o.standing = .held && o.attributes.any hit then { o with standing := .deleted } else o

/-- At the commit. -/
def detach (o : StreamObject) : StreamObject :=
  if o.standing = .deleted then { o with standing := .detached } else o

end StreamObject

/-- What a transaction has failed with: a flush, after which the session refuses everything but a
rollback, or another statement, after which PostgreSQL does. -/
inductive Failure where
  | flush
  | statement
  deriving DecidableEq

def Failure.error : Failure → Error
  | .flush => .pendingRollbackError
  | .statement => .internalError

/-- The tables in the transaction and as it began. -/
structure Transaction where
  db : Database
  start : Database := db
  failure : Option Failure := none

namespace Transaction

def rollback (s : Transaction) : Transaction := { db := s.start.rollback s.db }

/-- A flush that fails rolls the transaction back. -/
def failFlush (s : Transaction) : Transaction := { s.rollback with failure := some .flush }

/-- The commit of a transaction in which a statement has failed is a rollback on PostgreSQL. -/
def commit (s : Transaction) : Transaction :=
  if s.failure = some .statement then s.rollback else { db := s.db }

end Transaction

/-- A session with `session.info["strong_set"]`. -/
structure Session extends Transaction where
  strongSet : List StreamObject := []

/-- A call, a rollback or a commit, with the orders in which sets happen to be iterated. -/
inductive Action where
  | insert (tenantId : TenantId) (streamId : StreamId) (versioning : Versioning)
      (events : List RawEvent) (iterated restored : List StreamObject)
  | delete (tenantId : TenantId) (streamId : StreamId)
  | rollback (restored : List StreamObject)
  | commit

/-- `strong_set.add(stream)`: the session has one object for a row. -/
def hold (stream : StreamRow) (db : Database) (objects : List StreamObject) : List StreamObject :=
  if objects.any fun o => o.standing = .held && o.id = stream.id then objects
  else { id := stream.id, attributes := db.streams.find? (·.id = stream.id) } :: objects

/-- A set in the order that it happens to be iterated in. -/
def ordered (iterated objects : List StreamObject) : List StreamObject :=
  if iterated.Perm objects then iterated else objects

/-- `first_true(strong_set, pred=...)` of `insert_events`, with the objects that it has loaded, and
the `events` of the one that it has found. -/
def search (db : Database) (t : TenantId) (streamId : StreamId) :
    List StreamObject → Except Error (Option (StreamRow × StreamObject)) × List StreamObject
  | [] => (.ok none, [])
  | o :: os =>
      match o.read db with
      | none => (.error .objectDeletedError, o :: os)
      | some row =>
          let o := { o with attributes := some row }
          if row.streamId.eq streamId && row.tenantId = t then
            if o.standing = .detached then
              (if o.eventsLoaded then .ok (some (row, o)) else .error .detachedInstanceError,
                o :: os)
            else (.ok (some (row, o)), { o with eventsLoaded := true } :: os)
          else
            let rest := search db t streamId os
            (rest.1, o :: rest.2)

/-- A rollback takes the deleted objects into the identity map again, one for each id, instead of
those that are there for the id. -/
def restore (gone : List ℕ) : List ℕ → List StreamObject → List StreamObject
  | _, [] => []
  | taken, o :: os =>
      match o.standing with
      | .held =>
          (if o.id ∈ gone then { o with standing := .replaced } else o) :: restore gone taken os
      | .deleted =>
          if o.id ∈ taken then { o with standing := .replaced } :: restore gone taken os
          else { o with standing := .held } :: restore gone (o.id :: taken) os
      | _ => o :: restore gone taken os

/-- The objects after a rollback. -/
def rolledBack (restored objects : List StreamObject) : List StreamObject :=
  let objects := ordered restored objects
  let gone := (objects.filter (·.standing = .deleted)).map (·.id)
  (restore gone [] objects).map .expire

namespace Session

def rollback (restored : List StreamObject) (s : Session) : Session :=
  { toTransaction := s.toTransaction.rollback, strongSet := rolledBack restored s.strongSet }

def failFlush (restored : List StreamObject) (s : Session) : Session :=
  { toTransaction := s.toTransaction.failFlush, strongSet := rolledBack restored s.strongSet }

def commit (s : Session) : Session :=
  { toTransaction := s.toTransaction.commit
    strongSet := s.strongSet.map fun o => o.detach.expire }

end Session

section Steps
variable (engine : Engine) (dispatchers : TenantId → Dispatcher E) (outbox : Option OutboxStrategy)
  (noPosition : Position)

/-- `scoped_for_tenant` -/
def strategy (t : TenantId) : SqlAlchemyStorageStrategy E := ⟨engine, dispatchers t, outbox, t⟩

/-- `_ensure_stream`. What it reads of the objects is in the tables, for they are loaded. Where no
stream is found, the set gets `None`, which no search looks at. -/
def ensureStream (t : TenantId) (streamId : StreamId) (versioning : Versioning) (s : Session) :
    Except Error StreamRow × Session :=
  let strategy := strategy engine dispatchers outbox t
  let matching :=
    strategy.matchingStreams streamId (strategy.openStream streamId versioning.initialVersion s.db)
  let r := strategy.ensureStream streamId versioning s.db
  let objects := s.strongSet.map (StreamObject.refresh matching r.2)
  (r.1, { s with
    db := r.2
    strongSet := match chooseStream StreamRow.toStreamHead streamId matching with
      | .error _ => objects
      | .ok stream => hold stream r.2 objects })

/-- Whether the flush of the events finds the unique columns free. -/
def fits (stream : StreamRow) (events : List RawEvent) (db : Database) : Bool :=
  let entries := events.map EventBody.ofRaw
  uuidsFree entries (db.events.map (·.body)) && versionsFree entries (db.eventsOf stream.id)

/-- The events of an object that is out of the session are not flushed, and get no ids. -/
def loseEvents (t : TenantId) (events : List RawEvent) (db : Database) :
    Except Error Unit × Database :=
  let records := events.map fun entry => { entry, position := noPosition, tenantId := t }
  ((dispatchers t).dispatch records, outbox.elim db (·.putIntoOutbox records db))

/-- `insert_events` from the search on. -/
def attach (t : TenantId) (streamId : StreamId) (events : List RawEvent)
    (restored : List StreamObject) (s : Session) : Except Error Unit × Session :=
  match search s.db t streamId s.strongSet with
  | (.error e, strongSet) => (.error e, { s with strongSet })
  | (.ok none, strongSet) => (.error .attributeError, { s with strongSet })
  | (.ok (some (row, o)), strongSet) =>
      let s := { s with strongSet }
      match o.standing with
      | .held =>
          let r := (strategy engine dispatchers outbox t).storeEvents row events s.db
          (r.1, if fits row events s.db then { s with db := r.2 }
            else { s with db := r.2 }.failFlush restored)
      | .detached =>
          let r := loseEvents dispatchers outbox noPosition t events s.db
          (r.1, { s with db := r.2 })
      | _ =>
          -- the events are in the session, and nothing gives them a stream
          if events = [] then
            let r := loseEvents dispatchers outbox noPosition t events s.db
            (r.1, { s with db := r.2 })
          else (.error .integrityError, s.failFlush restored)

def insertEvents (t : TenantId) (streamId : StreamId) (versioning : Versioning)
    (events : List RawEvent) (iterated restored : List StreamObject) (s : Session) :
    Except Error Unit × Session :=
  match ensureStream engine dispatchers outbox t streamId versioning s with
  | (.error e, s) => (.error e, s)
  | (.ok _, s) =>
      attach engine dispatchers outbox noPosition t streamId events restored
        { s with strongSet := ordered iterated s.strongSet }

def deleteStream (t : TenantId) (streamId : StreamId) (s : Session) :
    Except Error Unit × Session :=
  match (strategy engine dispatchers outbox t).deleteStream streamId s.db with
  | (.error e, db) => (.error e, { s with db, failure := some .statement })
  | (.ok (), db) =>
      (.ok (), { s with
        db, strongSet := s.strongSet.map (StreamObject.expunge fun row => row.compares streamId) })

def step (s : Session) : Action → Except Error Unit × Session
  | .insert t streamId versioning events iterated restored =>
      match s.failure with
      | some failure => (.error failure.error, s)
      | none =>
          insertEvents engine dispatchers outbox noPosition t streamId versioning events iterated
            restored s
  | .delete t streamId =>
      match s.failure with
      | some failure => (.error failure.error, s)
      | none => deleteStream engine dispatchers outbox t streamId s
  | .rollback restored => (.ok (), s.rollback restored)
  | .commit =>
      if s.failure = some .flush then (.error .pendingRollbackError, s) else (.ok (), s.commit)

/-- What the answers and the tables are to be: events go to the stream that is ensured. -/
def plainStep (s : Transaction) : Action → Except Error Unit × Transaction
  | .insert t streamId versioning events _ _ =>
      match s.failure with
      | some failure => (.error failure.error, s)
      | none =>
          match (strategy engine dispatchers outbox t).ensureStream streamId versioning s.db with
          | (.error e, db) => (.error e, { s with db })
          | (.ok stream, db) =>
              let r := (strategy engine dispatchers outbox t).storeEvents stream events db
              (r.1, if fits stream events db then { s with db := r.2 }
                else { s with db := r.2 }.failFlush)
  | .delete t streamId =>
      match s.failure with
      | some failure => (.error failure.error, s)
      | none =>
          match (strategy engine dispatchers outbox t).deleteStream streamId s.db with
          | (.error e, db) => (.error e, { s with db, failure := some .statement })
          | (.ok (), db) => (.ok (), { s with db })
  | .rollback _ => (.ok (), s.rollback)
  | .commit =>
      if s.failure = some .flush then (.error .pendingRollbackError, s) else (.ok (), s.commit)

end Steps

/-- An object that gets in the way of a search: its row is gone, or it is not in the identity map
and was of the stream that is searched. -/
def Stale (t : TenantId) (streamId : StreamId) (db : Database) (o : StreamObject) : Prop :=
  o.read db = none ∨ o.standing ≠ .held ∧
    (o.read db).any (fun row => row.streamId.eq streamId && row.tenantId = t) = true

instance (t : TenantId) (streamId : StreamId) (db : Database) (o : StreamObject) :
    Decidable (Stale t streamId db o) := inferInstanceAs (Decidable (_ ∨ _ ∧ _))

/-- An insertion that gets as far as the search finds no stale object. -/
def Clear (engine : Engine) (dispatchers : TenantId → Dispatcher E)
    (outbox : Option OutboxStrategy) (s : Session) : Action → Prop
  | .insert t streamId versioning _ _ _ =>
      let ensured := (strategy engine dispatchers outbox t).ensureStream streamId versioning s.db
      s.failure = none → ensured.1.toBool = true →
        ∀ o ∈ s.strongSet, ¬ Stale t streamId ensured.2 o
  | _ => True

instance (engine : Engine) (dispatchers : TenantId → Dispatcher E)
    (outbox : Option OutboxStrategy) (s : Session) :
    (a : Action) → Decidable (Clear engine dispatchers outbox s a)
  | .insert _ _ _ _ _ _ => inferInstanceAs (Decidable (_ → _ → _))
  | .delete _ _ => inferInstanceAs (Decidable True)
  | .rollback _ => inferInstanceAs (Decidable True)
  | .commit => inferInstanceAs (Decidable True)

/-! ## Tables -/

/-- The constraints on streams hold. -/
def Keyed (engine : Engine) (db : Database) : Prop :=
  Database.Sound engine { db with events := [], snapshots := [] }

section Tables
variable {engine : Engine} {db db' : Database} {strategy : SqlAlchemyStorageStrategy E}

theorem keyed_empty (engine : Engine) : Keyed engine {} := Database.sound_empty engine

theorem Keyed.of_streams (h : Keyed engine db) (hstreams : db'.streams = db.streams)
    (hseq : db'.streamSeq = db.streamSeq) : Keyed engine db' := by
  refine ⟨?_, ?_, ?_, by simp, by simp⟩
  · change (db'.streams.map _).Nodup
    rw [hstreams]
    exact h.ids
  · change ∀ row ∈ db'.streams, row.id ≤ db'.streamSeq
    rw [hstreams, hseq]
    exact h.bounded
  · change (db'.streams.map _).Nodup
    rw [hstreams]
    exact h.keys

theorem Keyed.openStream (h : Keyed strategy.engine db) (streamId : StreamId)
    (initialVersion : Option ℤ) :
    Keyed strategy.engine (strategy.openStream streamId initialVersion db) := by
  unfold SqlAlchemyStorageStrategy.openStream insertOrNothing
  split
  · split
    · exact h
    · rename_i hclash
      refine sound_insertStream h _ _ fun r hr ht hkey => hclash (List.any_eq_true.2 ⟨r, hr, ?_⟩)
      simp [ht, StreamHead.clashes_of_key hkey]
  · exact h

theorem Keyed.ensureStream (h : Keyed strategy.engine db) (streamId : StreamId)
    (versioning : Versioning) :
    Keyed strategy.engine (strategy.ensureStream streamId versioning db).2 := by
  have hopen := h.openStream streamId versioning.initialVersion
  rcases @SqlAlchemyViews.ensureStream_tables _ strategy streamId versioning db with
    hsame | ⟨hit, hbumped⟩
  · rw [hsame]
    exact hopen
  · rw [hbumped]
    exact sound_setVersion hopen hit _

theorem Keyed.deleteStream (h : Keyed strategy.engine db) (streamId : StreamId) :
    Keyed strategy.engine (strategy.deleteStream streamId db).2 := by
  have hdeleted : Keyed strategy.engine
      ((db.deleteEvents fun row => row.compares streamId).deleteStreams
        fun row => row.compares streamId) :=
    sound_delete h rfl rfl (by simp) rfl
  unfold SqlAlchemyStorageStrategy.deleteStream
  dsimp only
  split
  · exact h.of_streams rfl rfl
  · exact hdeleted

theorem Keyed.rollback (h : Keyed engine db) (after : Database) :
    Keyed engine (db.rollback after) := sound_rollback h after

/-- Storing events leaves the streams. -/
theorem storeEvents_streams (stream : StreamRow) (events : List RawEvent) (db : Database) :
    (strategy.storeEvents stream events db).2.streams = db.streams ∧
      (strategy.storeEvents stream events db).2.streamSeq = db.streamSeq := by
  unfold SqlAlchemyStorageStrategy.storeEvents
  dsimp only
  split
  · cases strategy.outbox <;> exact ⟨rfl, rfl⟩
  · exact ⟨rfl, rfl⟩

/-- Storing events looks at nothing but the id of the stream. -/
theorem storeEvents_congr {stream other : StreamRow} (hid : other.id = stream.id)
    (events : List RawEvent) (db : Database) :
    strategy.storeEvents other events db = strategy.storeEvents stream events db ∧
      fits other events db = fits stream events db := by
  unfold SqlAlchemyStorageStrategy.storeEvents fits
  rw [hid]
  exact ⟨rfl, rfl⟩

/-- The stream that is ensured is the only one of its stream id in the tenant. -/
theorem Keyed.unique (h : Keyed engine db) {row other : StreamRow} (hrow : row ∈ db.streams)
    (hother : other ∈ db.streams) (htenant : other.tenantId = row.tenantId)
    {streamId : StreamId} (heq : row.streamId.eq streamId) (heq' : other.streamId.eq streamId) :
    other = row := by
  exact eq_of_key h.uniqueKeys hother hrow htenant
    ((columns_of_eq heq').trans (columns_of_eq heq).symm)

/-- Ensuring a stream leaves every id. -/
theorem ensureStream_ids (streamId : StreamId) (versioning : Versioning) {row : StreamRow}
    (hrow : row ∈ db.streams) :
    ∃ row' ∈ (strategy.ensureStream streamId versioning db).2.streams, row'.id = row.id := by
  have hopened : row ∈ (strategy.openStream streamId versioning.initialVersion db).streams := by
    unfold SqlAlchemyStorageStrategy.openStream insertOrNothing
    split
    · split
      · exact hrow
      · exact List.mem_append_left _ hrow
    · exact hrow
  rcases @SqlAlchemyViews.ensureStream_tables _ strategy streamId versioning db with
    hsame | ⟨hit, hbumped⟩
  · rw [hsame]
    exact ⟨row, hopened, rfl⟩
  · rw [hbumped]
    refine ⟨_, List.mem_map_of_mem hopened, ?_⟩
    split <;> rfl

/-- Ensuring a stream leaves the events. -/
theorem ensureStream_events (streamId : StreamId) (versioning : Versioning) (db : Database) :
    (strategy.ensureStream streamId versioning db).2.events = db.events := by
  have hopened : (strategy.openStream streamId versioning.initialVersion db).events =
      db.events := by
    unfold SqlAlchemyStorageStrategy.openStream insertOrNothing
    split
    · split <;> rfl
    · rfl
  rcases @SqlAlchemyViews.ensureStream_tables _ strategy streamId versioning db with
    hsame | ⟨hit, hbumped⟩
  · rw [hsame, hopened]
  · rw [hbumped]
    exact hopened

end Tables

/-! ## Objects -/

/-- The objects in the identity map that are loaded have the columns of their rows. -/
def Loaded (db : Database) (objects : List StreamObject) : Prop :=
  ∀ o ∈ objects, o.standing = .held → ∀ row ∈ o.attributes, row ∈ db.streams ∧ row.id = o.id

section Objects
variable {engine : Engine} {db db' : Database} {t : TenantId} {streamId : StreamId}
  {stream row : StreamRow} {o : StreamObject} {objects : List StreamObject}

theorem loaded_of_expired
    (h : ∀ o ∈ objects, o.standing = .held → o.attributes = none) : Loaded db objects := by
  intro o ho hstanding row hrow
  rw [h o ho hstanding] at hrow
  cases hrow

theorem Loaded.of_streams (h : Loaded db objects) (hstreams : db'.streams = db.streams) :
    Loaded db' objects := by
  intro o ho hstanding row hrow
  rw [hstreams]
  exact h o ho hstanding row hrow

theorem Loaded.perm (h : Loaded db objects) {iterated : List StreamObject}
    (hperm : iterated.Perm objects) : Loaded db iterated :=
  fun o ho => h o (hperm.mem_iff.1 ho)

theorem mem_of_find (h : db.streams.find? (·.id = o.id) = some row) :
    row ∈ db.streams ∧ row.id = o.id :=
  ⟨List.mem_of_find?_eq_some h, by simpa using List.find?_some h⟩

theorem loaded_refresh (matching : List StreamRow) (db : Database) (objects : List StreamObject) :
    Loaded db (objects.map (StreamObject.refresh matching db)) := by
  intro o' ho' hstanding row hrow
  obtain ⟨o, ho, rfl⟩ := List.mem_map.1 ho'
  unfold StreamObject.refresh at hstanding hrow ⊢
  split at hrow
  · rename_i hmatch
    rw [if_pos hmatch]
    exact mem_of_find hrow
  · rename_i hmatch
    rw [if_neg hmatch] at hstanding
    simp [hstanding, Option.mem_def.1 hrow] at hmatch

theorem expire_attributes (h : o.expire.standing = .held) : o.expire.attributes = none := by
  unfold StreamObject.expire at h ⊢
  split
  · rfl
  · rename_i hstanding
    rw [if_neg hstanding] at h
    exact absurd h hstanding

theorem loaded_expire (f : StreamObject → StreamObject) (db : Database)
    (objects : List StreamObject) : Loaded db (objects.map fun o => (f o).expire) := by
  refine loaded_of_expired fun o' ho' hstanding => ?_
  obtain ⟨o, -, rfl⟩ := List.mem_map.1 ho'
  exact expire_attributes hstanding

theorem loaded_rolledBack (restored objects : List StreamObject) (db : Database) :
    Loaded db (rolledBack restored objects) := loaded_expire id db _

/-- Objects that stay in the identity map at a deletion keep their rows. -/
theorem Loaded.expunge (h : Loaded db objects) {hit : StreamRow → Bool}
    (hstreams : db'.streams = db.streams.filter fun row => !hit row) :
    Loaded db' (objects.map (StreamObject.expunge hit)) := by
  intro o' ho' hstanding row hrow
  obtain ⟨o, ho, rfl⟩ := List.mem_map.1 ho'
  unfold StreamObject.expunge at hstanding hrow ⊢
  split at hstanding
  · cases hstanding
  · rename_i hkept
    rw [if_neg hkept] at hrow ⊢
    obtain ⟨hmem, hid⟩ := h o ho hstanding row hrow
    refine ⟨?_, hid⟩
    rw [hstreams, List.mem_filter]
    simp only [hstanding, Option.mem_def.1 hrow, decide_true, Bool.true_and, Option.any_some]
      at hkept
    simpa [hmem] using hkept

/-- The session has an object for the row, and it is the only new one. -/
theorem hold_spec (stream : StreamRow) (db : Database) (objects : List StreamObject) :
    (∃ o ∈ hold stream db objects, o.standing = .held ∧ o.id = stream.id) ∧
      (∀ o ∈ objects, o ∈ hold stream db objects) ∧
      ∀ o ∈ hold stream db objects, o ∈ objects ∨
        o = { id := stream.id, attributes := db.streams.find? (·.id = stream.id) } := by
  unfold hold
  split
  · rename_i hheld
    obtain ⟨o, ho, hmatch⟩ := List.any_eq_true.1 hheld
    simp only [Bool.and_eq_true, decide_eq_true_eq] at hmatch
    exact ⟨⟨o, ho, hmatch⟩, fun _ h => h, fun _ h => .inl h⟩
  · exact ⟨⟨_, List.mem_cons_self, rfl, rfl⟩, fun _ h => List.mem_cons_of_mem _ h,
      fun o ho => (List.mem_cons.1 ho).symm⟩

theorem Loaded.hold (h : Loaded db objects) (stream : StreamRow) :
    Loaded db (hold stream db objects) := by
  intro o ho hstanding row hrow
  rcases (hold_spec stream db objects).2.2 o ho with ho | rfl
  · exact h o ho hstanding row hrow
  · exact mem_of_find (o := { id := stream.id }) hrow

/-- Being loaded makes no object stale, and none that was stale another one. -/
theorem stale_refresh (hkept : ∀ row ∈ o.attributes, ∃ row' ∈ db.streams, row'.id = o.id)
    (matching : List StreamRow) :
    Stale t streamId db (o.refresh matching db) ↔ Stale t streamId db o := by
  unfold StreamObject.refresh
  split
  · rename_i hmatch
    simp only [Bool.and_eq_true, decide_eq_true_eq] at hmatch
    simp only [Stale, StreamObject.read, hmatch.1, ne_eq, not_true_eq_false, false_and, or_false,
      Option.or_self]
    cases hattributes : o.attributes with
    | none => simp
    | some row =>
      obtain ⟨row', hrow', hid⟩ := hkept row hattributes
      simp only [Option.some_or, reduceCtorEq, iff_false, List.find?_eq_none, decide_eq_true_eq]
      exact fun hnone => hnone row' hrow' hid
  · exact Iff.rfl

end Objects

/-! ## The search -/

section Search
variable {engine : Engine} {db : Database} {t : TenantId} {streamId : StreamId}
  {row : StreamRow} {objects : List StreamObject}

theorem read_held {o : StreamObject}
    (hloaded : ∀ row ∈ o.attributes, row ∈ db.streams ∧ row.id = o.id)
    (hread : o.read db = some row) : row ∈ db.streams ∧ row.id = o.id := by
  unfold StreamObject.read at hread
  cases hattributes : o.attributes with
  | none =>
    rw [hattributes, Option.none_or] at hread
    exact mem_of_find hread
  | some loaded =>
    rw [hattributes, Option.some_or] at hread
    cases hread
    exact hloaded row hattributes

theorem Loaded.search (h : Loaded db objects) (t : TenantId) (streamId : StreamId) :
    Loaded db (search db t streamId objects).2 := by
  induction objects with
  | nil => exact h
  | cons o os ih =>
    have hrest := ih fun other hother => h other (List.mem_cons_of_mem _ hother)
    have hcons : ∀ (o' : StreamObject) (others : List StreamObject),
        (o'.standing = .held → ∀ row ∈ o'.attributes, row ∈ db.streams ∧ row.id = o'.id) →
          Loaded db others → Loaded db (o' :: others) := fun o' others ho' hothers =>
      List.forall_mem_cons.2 ⟨ho', hothers⟩
    have hos : Loaded db os := fun other hother => h other (List.mem_cons_of_mem _ hother)
    unfold SqlAlchemySessions.search
    split
    · exact h
    · rename_i row hread
      have hread' : o.standing = .held → ∀ row' ∈ some row,
          row' ∈ db.streams ∧ row'.id = o.id := by
        rintro hstanding row' hrow'
        cases hrow'
        exact read_held (h o List.mem_cons_self hstanding) hread
      dsimp only
      split
      · split
        · exact hcons _ _ hread' hos
        · exact hcons _ _ hread' hos
      · exact hcons _ _ hread' hrest

/-- A search among objects none of which is stale finds the object of the stream. -/
theorem search_finds (h : Keyed engine db) (hloaded : Loaded db objects)
    (hrow : row ∈ db.streams) (htenant : row.tenantId = t) (heq : row.streamId.eq streamId)
    (hclear : ∀ o ∈ objects, ¬ Stale t streamId db o)
    (hheld : ∃ o ∈ objects, o.standing = .held ∧ o.id = row.id) :
    ∃ o, (search db t streamId objects).1 = .ok (some (row, o)) ∧ o.standing = .held := by
  induction objects with
  | nil =>
    obtain ⟨o, ho, -⟩ := hheld
    cases ho
  | cons o os ih =>
    have hfresh := hclear o List.mem_cons_self
    simp only [Stale, not_or, not_and] at hfresh
    obtain ⟨attributes, hread⟩ := Option.ne_none_iff_exists'.1 hfresh.1
    simp only [search, hread]
    split
    · rename_i hmatch
      by_cases hstanding : o.standing = .held
      · obtain ⟨hmem, -⟩ := read_held (hloaded o List.mem_cons_self hstanding) hread
        simp only [Bool.and_eq_true, decide_eq_true_eq] at hmatch
        obtain rfl := h.unique hrow hmem (hmatch.2.trans htenant.symm) heq hmatch.1
        exact ⟨{ o with attributes := some attributes }, by simp [hstanding], hstanding⟩
      · exact absurd (by simpa [hread] using hmatch) (hfresh.2 hstanding)
    · rename_i hmiss
      refine ih (fun other hother => hloaded other (List.mem_cons_of_mem _ hother))
        (fun other hother => hclear other (List.mem_cons_of_mem _ hother)) ?_
      obtain ⟨live, hlive, hstanding, hid⟩ := hheld
      rcases List.mem_cons.1 hlive with rfl | hlive
      · obtain ⟨hmem, hsame⟩ := read_held (hloaded live List.mem_cons_self hstanding) hread
        obtain rfl := eq_of_id h.uniqueKeys hmem hrow (hsame.trans hid)
        exact absurd (by simp [heq, htenant]) hmiss
      · exact ⟨live, hlive, hstanding, hid⟩

end Search

/-! ## Runs -/

section Runs
variable {engine : Engine} {dispatchers : TenantId → Dispatcher E}
  {outbox : Option OutboxStrategy} {noPosition : Position} {s : Session} {t : TenantId}
  {streamId : StreamId} {versioning : Versioning} {events : List RawEvent}
  {iterated restored : List StreamObject}

theorem ordered_perm (iterated objects : List StreamObject) :
    (ordered iterated objects).Perm objects := by
  unfold ordered
  split
  · assumption
  · exact List.Perm.refl _

/-- The streams in the tables meet their constraints, in the transaction and as it began, and the
objects that are loaded go with them. -/
structure Sane (engine : Engine) (s : Session) : Prop where
  db : Keyed engine s.db
  start : Keyed engine s.start
  loaded : Loaded s.db s.strongSet

theorem Sane.rollback (h : Sane engine s) (restored : List StreamObject) :
    Sane engine (s.rollback restored) :=
  ⟨h.start.rollback _, h.start.rollback _, loaded_rolledBack _ _ _⟩

theorem Sane.failFlush (h : Sane engine s) (restored : List StreamObject) :
    Sane engine (s.failFlush restored) :=
  ⟨h.start.rollback _, h.start.rollback _, loaded_rolledBack _ _ _⟩

theorem Sane.commit (h : Sane engine s) : Sane engine s.commit := by
  have hkeyed : Keyed engine s.toTransaction.commit.db ∧
      Keyed engine s.toTransaction.commit.start := by
    unfold Transaction.commit
    split
    · exact ⟨h.start.rollback _, h.start.rollback _⟩
    · exact ⟨h.db, h.db⟩
  exact ⟨hkeyed.1, hkeyed.2, loaded_expire StreamObject.detach _ _⟩

/-- Tables with other events keep a session sane. -/
theorem Sane.of_streams (h : Sane engine s) {db : Database} (hstreams : db.streams = s.db.streams)
    (hseq : db.streamSeq = s.db.streamSeq) : Sane engine { s with db } :=
  ⟨h.db.of_streams hstreams hseq, h.start, h.loaded.of_streams hstreams⟩

theorem Sane.of_loaded (h : Sane engine s) {strongSet : List StreamObject}
    (hloaded : Loaded s.db strongSet) : Sane engine { s with strongSet } :=
  ⟨h.db, h.start, hloaded⟩

theorem Sane.ensureStream (h : Sane engine s) (t : TenantId) (streamId : StreamId)
    (versioning : Versioning) :
    Sane engine (ensureStream engine dispatchers outbox t streamId versioning s).2 := by
  have hdb := @Keyed.ensureStream _ _ (strategy engine dispatchers outbox t) h.db streamId
    versioning
  refine ⟨hdb, h.start, ?_⟩
  unfold SqlAlchemySessions.ensureStream
  dsimp only
  split
  · exact loaded_refresh _ _ _
  · exact (loaded_refresh _ _ _).hold _

theorem loseEvents_streams (dispatchers : TenantId → Dispatcher E) (outbox : Option OutboxStrategy)
    (noPosition : Position) (t : TenantId) (events : List RawEvent) (db : Database) :
    let r := loseEvents dispatchers outbox noPosition t events db
    r.2.streams = db.streams ∧ r.2.streamSeq = db.streamSeq ∧ r.2.events = db.events := by
  unfold loseEvents
  cases outbox <;> exact ⟨rfl, rfl, rfl⟩

theorem Sane.attach (h : Sane engine s) (t : TenantId) (streamId : StreamId)
    (events : List RawEvent) (restored : List StreamObject) :
    Sane engine (attach engine dispatchers outbox noPosition t streamId events restored s).2 := by
  have hsearched := h.of_loaded (h.loaded.search t streamId)
  have hlost : ∀ strongSet, Loaded s.db strongSet → Sane engine { s with
      db := (loseEvents dispatchers outbox noPosition t events s.db).2, strongSet } := by
    intro strongSet hloaded
    obtain ⟨hstreams, hseq, -⟩ := loseEvents_streams dispatchers outbox noPosition t events s.db
    exact (h.of_loaded hloaded).of_streams hstreams hseq
  unfold SqlAlchemySessions.attach
  revert hsearched
  generalize search s.db t streamId s.strongSet = r
  intro hsearched
  split
  · exact hsearched
  · exact hsearched
  · rename_i row o strongSet
    dsimp only
    split
    · have hstored := hsearched.of_streams
        (@storeEvents_streams _ (strategy engine dispatchers outbox t) row events s.db).1
        (storeEvents_streams _ _ _).2
      split
      · exact hstored
      · exact hstored.failFlush restored
    · exact hlost _ hsearched.loaded
    · split
      · exact hlost _ hsearched.loaded
      · exact hsearched.failFlush restored

theorem Sane.insertEvents (h : Sane engine s) (t : TenantId) (streamId : StreamId)
    (versioning : Versioning) (events : List RawEvent) (iterated restored : List StreamObject) :
    Sane engine (insertEvents engine dispatchers outbox noPosition t streamId versioning events
      iterated restored s).2 := by
  have hensured := @Sane.ensureStream _ _ dispatchers outbox _ h t streamId versioning
  unfold SqlAlchemySessions.insertEvents
  revert hensured
  generalize SqlAlchemySessions.ensureStream engine dispatchers outbox t streamId versioning s = r
  intro hensured
  split
  · exact hensured
  · exact (hensured.of_loaded (hensured.loaded.perm (ordered_perm _ _))).attach t streamId events _

theorem Sane.deleteStream (h : Sane engine s) (t : TenantId) (streamId : StreamId) :
    Sane engine (deleteStream engine dispatchers outbox t streamId s).2 := by
  have hkeyed := @Keyed.deleteStream _ _ (strategy engine dispatchers outbox t) h.db streamId
  unfold SqlAlchemySessions.deleteStream
  revert hkeyed
  unfold SqlAlchemyStorageStrategy.deleteStream
  dsimp only
  split
  · exact fun hkeyed => ⟨hkeyed, h.start, h.loaded.of_streams rfl⟩
  · exact fun hkeyed => ⟨hkeyed, h.start, h.loaded.expunge rfl⟩

theorem Sane.step (h : Sane engine s) (a : Action) :
    Sane engine (step engine dispatchers outbox noPosition s a).2 := by
  cases a with
  | insert t streamId versioning events iterated restored =>
    unfold SqlAlchemySessions.step
    dsimp only
    split
    · exact h
    · exact h.insertEvents t streamId versioning events iterated restored
  | delete t streamId =>
    unfold SqlAlchemySessions.step
    dsimp only
    split
    · exact h
    · exact h.deleteStream t streamId
  | rollback restored => exact h.rollback restored
  | commit =>
    unfold SqlAlchemySessions.step
    dsimp only
    split
    · exact h
    · exact h.commit

/-- The objects that an insertion searches are stale as those that there were before it. -/
theorem stale_ensured (h : Sane engine s) {o : StreamObject} (ho : o ∈ s.strongSet)
    (matching : List StreamRow) :
    let db := ((strategy engine dispatchers outbox t).ensureStream streamId versioning s.db).2
    Stale t streamId db (o.refresh matching db) ↔ Stale t streamId db o := by
  intro db
  by_cases hstanding : o.standing = .held
  · refine stale_refresh (fun row hrow => ?_) matching
    obtain ⟨hmem, hid⟩ := h.loaded o ho hstanding row hrow
    obtain ⟨row', hrow', hsame⟩ := @ensureStream_ids _ _ (strategy engine dispatchers outbox t)
      streamId versioning row hmem
    exact ⟨row', hrow', hsame.trans hid⟩
  · have hkept : o.refresh matching db = o := by simp [StreamObject.refresh, hstanding]
    rw [hkept]

/-- The stream that was ensured, its row, and the objects that are searched. -/
theorem ensureStream_spec (h : Sane engine s) {stream : StreamRow} {db : Database}
    (hdb : (strategy engine dispatchers outbox t).ensureStream streamId versioning s.db =
      (.ok stream, db)) :
    ∃ row ∈ db.streams, row.id = stream.id ∧ row.tenantId = t ∧ row.streamId.eq streamId = true ∧
      ∃ objects, ensureStream engine dispatchers outbox t streamId versioning s =
          (.ok stream, { s with db, strongSet := objects }) ∧
        Sane engine { s with db, strongSet := objects } ∧
        (∃ o ∈ objects, o.standing = .held ∧ o.id = row.id) ∧
        ((∀ o ∈ objects, ¬ Stale t streamId db o) ↔
          ∀ o ∈ s.strongSet, ¬ Stale t streamId db o) := by
  obtain ⟨row, hrow, hid, htenant, heq⟩ := SqlAlchemyViews.ensureStream_row hdb
  have hchosen := SqlAlchemyViews.ensureStream_chosen hdb
  have hsane := @Sane.ensureStream _ _ dispatchers outbox _ h t streamId versioning
  have hstale := fun o ho matching => @stale_ensured _ _ dispatchers outbox _ t streamId versioning
    h o ho matching
  unfold SqlAlchemySessions.ensureStream at hsane ⊢
  simp only [hdb, hchosen] at hsane hstale ⊢
  refine ⟨row, hrow, hid, htenant, heq, _, rfl, hsane, ?_, ?_⟩
  · obtain ⟨o, ho, hstanding, hsame⟩ := (hold_spec stream db _).1
    exact ⟨o, ho, hstanding, hsame.trans hid.symm⟩
  · constructor
    · intro hclear o ho
      rw [← hstale o ho]
      exact hclear _ ((hold_spec stream db _).2.1 _ (List.mem_map_of_mem ho))
    · intro hclear o' ho'
      rcases (hold_spec stream db _).2.2 o' ho' with ho' | rfl
      · obtain ⟨o, ho, rfl⟩ := List.mem_map.1 ho'
        rw [hstale o ho]
        exact hclear o ho
      · have hfind : db.streams.find? (fun r => r.id = stream.id) ≠ none := by
          rw [Ne, List.find?_eq_none]
          exact fun hnone => hnone row hrow (decide_eq_true hid)
        simp [Stale, StreamObject.read, hfind]

/-- An insertion that finds no stale object does what it is to do. -/
theorem insertEvents_plain (h : Sane engine s) (hfailure : s.failure = none)
    (hclear : Clear engine dispatchers outbox s
      (.insert t streamId versioning events iterated restored)) :
    let r := insertEvents engine dispatchers outbox noPosition t streamId versioning events
      iterated restored s
    (r.1, r.2.toTransaction) = plainStep engine dispatchers outbox s.toTransaction
      (.insert t streamId versioning events iterated restored) := by
  cases hdb : (strategy engine dispatchers outbox t).ensureStream streamId versioning s.db with
  | mk r db =>
    cases r with
    | error e => simp [insertEvents, ensureStream, plainStep, hfailure, hdb]
    | ok stream =>
      obtain ⟨row, hrow, hid, htenant, heq, objects, hensured, hsane, hheld, hstale⟩ :=
        ensureStream_spec h hdb
      have hfresh : ∀ o ∈ objects, ¬ Stale t streamId db o := by
        rw [hstale]
        simp only [Clear, hdb] at hclear
        exact hclear hfailure rfl
      have hperm := ordered_perm iterated objects
      obtain ⟨o, hsearch, hstanding⟩ := search_finds hsane.db (hsane.loaded.perm hperm) hrow htenant
        heq (fun o ho => hfresh o (hperm.mem_iff.1 ho))
        (by
          obtain ⟨o, ho, hmatch⟩ := hheld
          exact ⟨o, hperm.mem_iff.2 ho, hmatch⟩)
      obtain ⟨hstored, hfits⟩ := @storeEvents_congr _ (strategy engine dispatchers outbox t)
        stream row hid events db
      simp only [insertEvents, hensured, attach, plainStep, hfailure, hdb]
      rw [show search db t streamId (ordered iterated objects) =
        (.ok (some (row, o)), (search db t streamId (ordered iterated objects)).2) from
          Prod.ext hsearch rfl]
      simp only [hstanding, hstored, hfits]
      split <;> rfl

/-- A step that finds no stale object does what it is to do. -/
theorem step_plain (h : Sane engine s) {a : Action} (hclear : Clear engine dispatchers outbox s a) :
    let r := step engine dispatchers outbox noPosition s a
    (r.1, r.2.toTransaction) = plainStep engine dispatchers outbox s.toTransaction a := by
  cases a with
  | insert t streamId versioning events iterated restored =>
    cases hfailure : s.failure with
    | some failure => simp [step, plainStep, hfailure]
    | none =>
      simp only [step, hfailure]
      exact insertEvents_plain h hfailure hclear
  | delete t streamId =>
    cases hfailure : s.failure with
    | some failure => simp [step, plainStep, hfailure]
    | none =>
      cases hdb : (strategy engine dispatchers outbox t).deleteStream streamId s.db with
      | mk r db => cases r <;> simp [step, deleteStream, plainStep, hfailure, hdb]
  | rollback restored => rfl
  | commit =>
    simp only [step, plainStep]
    split <;> rfl

/-- A stale object that is searched first makes an insertion go wrong. -/
theorem attach_stale {o : StreamObject} {os : List StreamObject} (hset : s.strongSet = o :: os)
    (hstale : Stale t streamId s.db o) (hevents : events ≠ []) (restored : List StreamObject) :
    let r := attach engine dispatchers outbox noPosition t streamId events restored s
    r.1 = .ok () → r.2.db.events = s.db.events := by
  intro r hok
  have hr : r = attach engine dispatchers outbox noPosition t streamId events restored s := rfl
  unfold attach at hr
  rw [hset] at hr
  cases hread : o.read s.db with
  | none =>
    simp only [search, hread] at hr
    rw [hr] at hok
    cases hok
  | some row =>
    simp only [Stale, hread, reduceCtorEq, false_or, Option.any_some] at hstale
    simp only [search, hread, hstale.2, if_true] at hr
    cases hstanding : o.standing with
    | held => exact absurd hstanding hstale.1
    | detached =>
      simp only [hstanding, if_true] at hr
      split at hr
      · rw [hr] at hok
        cases hok
      · rw [hr] at hok
        cases hok
      · rename_i row' o' strongSet hsearch
        obtain ⟨hfound, -⟩ := Prod.mk.inj hsearch
        split at hfound
        · cases hfound
          simp only at hr
          rw [hr]
          exact (loseEvents_streams dispatchers outbox noPosition t events s.db).2.2
        · cases hfound
    | deleted | replaced =>
      simp only [hstanding, reduceCtorEq, if_false, if_neg hevents] at hr
      rw [hr] at hok
      cases hok

/-- An insertion that goes through has stored its events. -/
theorem storeEvents_length {strategy : SqlAlchemyStorageStrategy E} {stream : StreamRow}
    {db : Database} (h : (strategy.storeEvents stream events db).1 = .ok ()) :
    fits stream events db = true ∧
      (strategy.storeEvents stream events db).2.events.length =
        db.events.length + events.length := by
  unfold SqlAlchemyStorageStrategy.storeEvents at h ⊢
  dsimp only at h ⊢
  split at h
  · rename_i hfits
    rw [if_pos hfits]
    refine ⟨hfits, ?_⟩
    have hrows : ((db.addEvents strategy.engine stream.id (events.map .ofRaw)).2).events.length =
        db.events.length + events.length := by
      have hbodies := congrArg List.length (eventRows_body stream.id
        (strategy.engine.nextId (db.events.map (·.id)) db.eventSeq) (events.map .ofRaw))
      rw [List.length_map, List.length_map] at hbodies
      simp [Database.addEvents, hbodies]
    cases strategy.outbox <;> exact hrows
  · cases h

variable (engine dispatchers outbox noPosition s t streamId versioning events) in
/-- Whatever the order of the set, an insertion does what it is to do. -/
def AsEnsured : Prop :=
  ∀ iterated restored,
    let a := Action.insert t streamId versioning events iterated restored
    let r := step engine dispatchers outbox noPosition s a
    (r.1, r.2.toTransaction) = plainStep engine dispatchers outbox s.toTransaction a

/-- An insertion that is to go through does so and stores its events with its stream, if and only
if it finds no stale object. -/
theorem asEnsured_iff (h : Sane engine s) (hfailure : s.failure = none) (hevents : events ≠ [])
    (hok : (plainStep engine dispatchers outbox s.toTransaction
      (.insert t streamId versioning events [] [])).1 = .ok ()) :
    AsEnsured engine dispatchers outbox noPosition s t streamId versioning events ↔
      ∀ o ∈ s.strongSet, ¬ Stale t streamId
        ((strategy engine dispatchers outbox t).ensureStream streamId versioning s.db).2 o := by
  constructor
  · intro hall
    cases hdb : (strategy engine dispatchers outbox t).ensureStream streamId versioning s.db with
    | mk r db =>
      cases r with
      | error e => simp [plainStep, hfailure, hdb] at hok
      | ok stream =>
        obtain ⟨row, -, -, -, -, objects, hensured, -, -, hstale⟩ := ensureStream_spec h hdb
        rw [← hstale]
        intro o ho hobject
        -- the stale object comes first
        have hperm := (List.perm_cons_erase ho).symm
        have hfirst := hall (o :: objects.erase o) []
        simp only [step, hfailure, insertEvents, hensured, ordered, if_pos hperm] at hfirst
        simp only [plainStep, hfailure, hdb] at hok hfirst
        obtain ⟨hanswer, htables⟩ := Prod.mk.inj hfirst
        obtain ⟨hfits, hlength⟩ := storeEvents_length hok
        rw [if_pos hfits] at htables
        have hkept := @attach_stale _ engine dispatchers outbox noPosition
          { db, start := s.start, strongSet := o :: objects.erase o } t streamId events o _ rfl
          hobject hevents [] (hanswer.trans hok)
        have hevents' := congrArg (fun x => x.db.events.length) htables
        dsimp only at hkept hevents'
        rw [hkept, hlength] at hevents'
        have hpos := List.length_pos_iff.2 hevents
        omega
  · intro hclear iterated restored
    exact step_plain h (a := .insert t streamId versioning events iterated restored)
      fun _ _ => hclear

/-- A session as it is opened. -/
def Session.of (db : Database) : Session := { db }

/-- A run whose insertions find no stale object answers as it is to and leaves the tables as they
are to be. In every state that is reached, an insertion that is to go through does so and stores
its events with the stream that it has ensured, whatever the order of the set, if and only if no
object is stale. -/
theorem inserts_as_ensured_iff (dispatchers : TenantId → Dispatcher E)
    (outbox : Option OutboxStrategy) (noPosition : Position) {db : Database}
    (hkeyed : Keyed engine db) (actions : List Action) :
    let r := run (step engine dispatchers outbox noPosition) (Session.of db) actions
    (Meets (step engine dispatchers outbox noPosition) (Clear engine dispatchers outbox)
        (Session.of db) actions →
      run (plainStep engine dispatchers outbox) { db } actions = (r.1, r.2.toTransaction)) ∧
    ∀ t streamId versioning events, r.2.failure = none → events ≠ [] →
      (plainStep engine dispatchers outbox r.2.toTransaction
        (.insert t streamId versioning events [] [])).1 = .ok () →
      (AsEnsured engine dispatchers outbox noPosition r.2 t streamId versioning events ↔
        ∀ o ∈ r.2.strongSet, ¬ Stale t streamId ((strategy engine dispatchers outbox t).ensureStream
          streamId versioning r.2.db).2 o) := by
  intro r
  have hopened : Sane engine (Session.of db) := ⟨hkeyed, hkeyed, fun _ ho => by cases ho⟩
  constructor
  · intro hmeets
    have hstep : ∀ s p a, Sane engine s ∧ p = s.toTransaction →
        Clear engine dispatchers outbox s a →
          (step engine dispatchers outbox noPosition s a).1 =
              (plainStep engine dispatchers outbox p a).1 ∧
            Sane engine (step engine dispatchers outbox noPosition s a).2 ∧
            (plainStep engine dispatchers outbox p a).2 =
              (step engine dispatchers outbox noPosition s a).2.toTransaction := by
      rintro s _ a ⟨hsane, rfl⟩ hclear
      obtain ⟨hanswer, htables⟩ := Prod.ext_iff.1 (@step_plain _ _ _ _ noPosition _ hsane _ hclear)
      exact ⟨hanswer, hsane.step a, htables.symm⟩
    obtain ⟨hanswers, -, htables⟩ := run_simulates (f := id) (Q := Eq)
      (R := fun s p => Sane engine s ∧ p = s.toTransaction) hstep ⟨hopened, rfl⟩ hmeets
    rw [List.map_id] at hanswers htables
    rw [List.forall₂_eq_eq_eq] at hanswers
    exact Prod.ext hanswers.symm htables
  · intro t streamId versioning events hfailure hevents hok
    have hsane : Sane engine r.2 := run_invariant (fun s a h => h.step a) hopened actions
    exact asEnsured_iff hsane hfailure hevents hok

end Runs

section Example

/-- An event of a stream. -/
def eventOf (streamId : StreamId) (uuid : Uuid) : RawEvent :=
  { uuid, streamId, createdAt := 0, name := "Order", data := [], context := [], version := none }

def placed (uuid : Uuid) (iterated : List StreamObject) : Action :=
  .insert "" order .noVersioning [eventOf order uuid] iterated []

def shopStep (engine : Engine) : Session → Action → Except Error Unit × Session :=
  step engine (fun _ => plainDispatcher) none 0

theorem inserts_as_ensured_iff_placed :
    run (plainStep sqlite (fun _ => plainDispatcher) none) { db := {} } [placed 1 [], placed 2 []] =
      ((run (shopStep sqlite) (Session.of {}) [placed 1 [], placed 2 []]).1,
        (run (shopStep sqlite) (Session.of {}) [placed 1 [], placed 2 []]).2.toTransaction) :=
  (inserts_as_ensured_iff (fun _ => plainDispatcher) none 0 (keyed_empty sqlite)
    [placed 1 [], placed 2 []]).1 (by decide)

/-- The object of a stream, with the id of its row; events were added before it was deleted. -/
def objectOf (streamId : StreamId) (id : ℕ) (standing : Standing) : StreamObject :=
  { id
    attributes := some
      { uuid := streamId.uuid, name := none, category := "", version := none, id, tenantId := "" }
    eventsLoaded := standing ≠ .held
    standing }

/-- The order is deleted and placed again in its transaction, and the deleted object comes
first. -/
def deletedFirst : List Action :=
  [placed 1 [], .delete "" order, placed 2 [objectOf order 1 .deleted, objectOf order 1 .held]]

/-- The transaction is committed in between. -/
def detachedFirst : List Action :=
  [placed 1 [], .delete "" order, .commit,
    placed 2 [objectOf order 1 .detached, objectOf order 1 .held]]

/-- The order is rolled back and placed again, and the object without a row comes first. -/
def rolledBackFirst : List Action :=
  [placed 1 [], .rollback [], placed 2 [{ id := 1 }, objectOf order 2 .held]]

/-- The order is deleted after a commit, and its object gets in the way of an invoice. -/
def expiredFirst : List Action :=
  [placed 1 [], .commit, .delete "" order, .commit,
    .insert "" invoice .noVersioning [eventOf invoice 2] [{ id := 1 }, objectOf invoice 2 .held] []]

/-- Objects of streams that were deleted or rolled back make later appends fail, and events are
lost with them. -/
theorem inserts_into_stale :
    (run (shopStep sqlite) (Session.of {}) deletedFirst).1 =
      [.ok (), .ok (), .error .integrityError] ∧
    (run (shopStep sqlite) (Session.of {}) detachedFirst).1 = [.ok (), .ok (), .ok (), .ok ()] ∧
    (run (shopStep sqlite) (Session.of {}) detachedFirst).2.db.events = [] ∧
    (run (shopStep postgres) (Session.of {}) rolledBackFirst).1 =
      [.ok (), .ok (), .error .objectDeletedError] ∧
    (run (shopStep postgres) (Session.of {}) expiredFirst).1 =
      [.ok (), .ok (), .ok (), .ok (), .error .objectDeletedError] := by
  decide

end Example

end EventSourcery.Sql.SqlAlchemySessions
