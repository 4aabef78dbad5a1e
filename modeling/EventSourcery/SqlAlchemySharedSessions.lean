import EventSourcery.SqlAlchemySessions
import EventSourcery.SqlAlchemyTenants

/-!
# Tenants that share a SQLAlchemy session

A backend has one session, and so have its copies for tenants: `in_tenant_mode` changes the tenant
and nothing else. Each call is a transaction, which is committed, or rolled back when the call
raises. The `strong_set` of the session outlives all of them, so that an insertion of one tenant
looks at the stream objects of all others.
-/
namespace EventSourcery.Sql.SqlAlchemySharedSessions
open EventStore Runs Tenants SqlAlchemySessions
open SqlAlchemyViews (MissesOthers strategies stores)

variable {E : Type}

/-- The orders in which a call happens to iterate the `strong_set`, and the objects to restore. -/
structure Orders where
  iterated : List StreamObject := []
  restored : List StreamObject := []

/-- The end of a transaction of one call. -/
def close (orders : Orders) (r : Except Error Unit × Session) : Except Error Unit × Session :=
  match r.1 with
  | .ok () => (.ok (), r.2.commit)
  | .error e => (.error e, r.2.rollback orders.restored)

/-- `save_snapshot` loads the streams that it finds, and adds none to the `strong_set`. -/
def saveSnapshot (raw : RawEvent) (orders : Orders) (s : Session) :
    Except Error Unit × Session :=
  let r := SqlAlchemyStorageStrategy.saveSnapshot raw s.db
  let matching := s.db.streams.filter fun row => row.compares raw.streamId
  let s := { s with
    db := r.2, strongSet := s.strongSet.map (StreamObject.refresh matching r.2) }
  (r.1, if r.1 = .error .integrityError then s.failFlush orders.restored else s)

section Backend
variable (engine : Engine) (dispatchers : TenantId → Dispatcher E) (outbox : Option OutboxStrategy)
  (noPosition : Position)

def storageStrategy (u : TenantId) (orders : Orders) : StorageStrategy Session where
  fetchEvents streamId start stop s :=
    (strategy engine dispatchers outbox u).fetchEvents streamId start stop s.db
  insertEvents streamId versioning events s :=
    close orders (insertEvents engine dispatchers outbox noPosition u streamId versioning events
      orders.iterated orders.restored s)
  saveSnapshot raw s := close orders (saveSnapshot raw orders s)
  deleteStream streamId s := close orders (deleteStream engine dispatchers outbox u streamId s)

/-- A call of a tenant on the session that all share. -/
def sharedStep (s : Session) (i : TenantId × Call E × Orders) : Answer E × Session :=
  EventStore.call ⟨storageStrategy engine dispatchers outbox noPosition i.1 i.2.2,
    (dispatchers i.1).serde⟩ s i.2.1

/-- No statement of the request finds a row of another tenant, and no insertion that gets as far as
the search finds a stale object. -/
def Undisturbed (s : Session) (i : TenantId × Request) : Prop :=
  MissesOthers engine s.db i ∧
    match i.2 with
    | .insert streamId versioning events =>
        Clear engine dispatchers outbox s (.insert i.1 streamId versioning events [] [])
    | _ => True

instance (s : Session) :
    (i : TenantId × Request) → Decidable (Undisturbed engine dispatchers outbox s i)
  | (_, .insert _ _ _) => inferInstanceAs (Decidable (_ ∧ Clear _ _ _ _ _))
  | (_, .fetch _ _ _) => inferInstanceAs (Decidable (_ ∧ True))
  | (_, .snapshot _) => inferInstanceAs (Decidable (_ ∧ True))
  | (_, .delete _) => inferInstanceAs (Decidable (_ ∧ True))

/-- In the run no call of a tenant is disturbed by another one. -/
def KeepsApart (is : List (TenantId × Call E × Orders)) : Prop :=
  Meets (sharedStep engine dispatchers outbox noPosition)
    (fun s i => Requesting (fun u => (dispatchers u).serde)
      (Undisturbed engine dispatchers outbox) s (i.1, i.2.1)) (Session.of {}) is

instance (is : List (TenantId × Call E × Orders)) :
    Decidable (KeepsApart engine dispatchers outbox noPosition is) := by
  unfold KeepsApart
  infer_instance

end Backend

/-! ## Transactions of one call -/

/-- The end of a transaction of one call, on the tables. -/
def closeTables (r : Except Error Unit × Transaction) : Except Error Unit × Transaction :=
  match r.1 with
  | .ok () => (.ok (), r.2.commit)
  | .error e => (.error e, r.2.rollback)

theorem close_transaction (orders : Orders) (r : Except Error Unit × Session) :
    ((close orders r).1, (close orders r).2.toTransaction) =
      closeTables (r.1, r.2.toTransaction) := by
  obtain ⟨answer, s⟩ := r
  cases answer <;> rfl

theorem rollback_rollback (before after : Database) :
    (before.rollback after).rollback (before.rollback after) = before.rollback after := by
  simp [Database.rollback]

/-- A flush that fails has rolled the transaction back already. -/
theorem close_failFlush (e : Error) (s : Transaction) :
    closeTables (.error e, s.failFlush) = (.error e, s.rollback) := by
  simp [closeTables, Transaction.failFlush, Transaction.rollback, rollback_rollback]

theorem commit_none {s : Transaction} (h : s.failure = none) : s.commit = { db := s.db } := by
  simp [Transaction.commit, h]

/-- A call that does not fail a flush leaves what its transaction is to leave. -/
theorem close_undo (db : Database) (r : Except Error Unit × Database) :
    closeTables (r.1, { db := r.2, start := db }) =
      ((StorageStrategy.undo Database.rollback db r).1,
        { db := (StorageStrategy.undo Database.rollback db r).2 }) := by
  obtain ⟨answer, after⟩ := r
  cases answer with
  | error e => rfl
  | ok u => simp [closeTables, commit_none, StorageStrategy.undo]

section Calls
variable {engine : Engine} {dispatchers : TenantId → Dispatcher E}
  {outbox : Option OutboxStrategy} {noPosition : Position} {db : Database} {t : TenantId}
  {streamId : StreamId}

theorem storeEvents_refused {strategy : SqlAlchemyStorageStrategy E} {stream : StreamRow}
    {events : List RawEvent} (h : fits stream events db = false) :
    strategy.storeEvents stream events db = (.error .integrityError, db) := by
  unfold fits at h
  unfold SqlAlchemyStorageStrategy.storeEvents
  dsimp only at h ⊢
  rw [h]
  rfl

/-- An insertion that goes as it is to, in a transaction of its own. -/
theorem close_insert (versioning : Versioning) (events : List RawEvent)
    (iterated restored : List StreamObject) :
    closeTables (plainStep engine dispatchers outbox { db }
        (.insert t streamId versioning events iterated restored)) =
      let r := StorageStrategy.undo Database.rollback db
        ((strategy engine dispatchers outbox t).insertEvents streamId versioning events db)
      (r.1, { db := r.2 }) := by
  unfold SqlAlchemyStorageStrategy.insertEvents
  cases hdb : (strategy engine dispatchers outbox t).ensureStream streamId versioning db with
  | mk r db' =>
    cases r with
    | error e =>
      simp only [plainStep, hdb]
      exact close_undo db (.error e, db')
    | ok stream =>
      simp only [plainStep, hdb]
      cases hfits : fits stream events db' with
      | true =>
        rw [if_pos rfl]
        exact close_undo db _
      | false =>
        rw [if_neg Bool.false_ne_true, storeEvents_refused hfits, close_failFlush]
        rfl

theorem close_delete :
    closeTables (plainStep engine dispatchers outbox { db } (.delete t streamId)) =
      let r := StorageStrategy.undo Database.rollback db
        ((strategy engine dispatchers outbox t).deleteStream streamId db)
      (r.1, { db := r.2 }) := by
  cases hdb : (strategy engine dispatchers outbox t).deleteStream streamId db with
  | mk r db' =>
    cases r with
    | error e =>
      simp [plainStep, hdb, closeTables, Transaction.rollback, StorageStrategy.undo]
    | ok u =>
      simp only [plainStep, hdb]
      exact close_undo db (.ok (), db')

/-- Snapshots leave the streams. -/
theorem saveSnapshot_streams (raw : RawEvent) (db : Database) :
    let r := SqlAlchemyStorageStrategy.saveSnapshot raw db
    r.2.streams = db.streams ∧ r.2.streamSeq = db.streamSeq := by
  unfold SqlAlchemyStorageStrategy.saveSnapshot
  split
  · exact ⟨rfl, rfl⟩
  · dsimp only
    split <;> exact ⟨rfl, rfl⟩
  · exact ⟨rfl, rfl⟩

/-- A session between two calls, with the tables as they are to be. -/
structure Idle (engine : Engine) (s : Session) (db : Database) : Prop where
  tables : s.toTransaction = { db }
  sane : Sane engine s

theorem idle_close {orders : Orders} {r : Except Error Unit × Session}
    {answer : Except Error Unit} (hsane : Sane engine r.2)
    (hclose : closeTables (r.1, r.2.toTransaction) = (answer, { db })) :
    (close orders r).1 = answer ∧ Idle engine (close orders r).2 db := by
  rw [← close_transaction orders r] at hclose
  obtain ⟨hanswer, htables⟩ := Prod.mk.inj hclose
  refine ⟨hanswer, htables, ?_⟩
  unfold close
  split
  · exact hsane.commit
  · exact hsane.rollback _

theorem close_saveSnapshot {s : Session} (h : Idle engine s db) (raw : RawEvent)
    (orders : Orders) :
    let r := StorageStrategy.undo Database.rollback db
      (SqlAlchemyStorageStrategy.saveSnapshot raw db)
    (close orders (saveSnapshot raw orders s)).1 = r.1 ∧
      Idle engine (close orders (saveSnapshot raw orders s)).2 r.2 := by
  obtain ⟨⟨db', start, failure⟩, objects⟩ := s
  obtain ⟨htables, hsane⟩ := h
  cases htables
  obtain ⟨hstreams, hseq⟩ := saveSnapshot_streams raw db
  have hsaved : Sane engine
      { db := (SqlAlchemyStorageStrategy.saveSnapshot raw db).2, start := db
        strongSet := objects.map (StreamObject.refresh
          (db.streams.filter fun row => row.compares raw.streamId)
          (SqlAlchemyStorageStrategy.saveSnapshot raw db).2) } :=
    ⟨hsane.db.of_streams hstreams hseq, hsane.start, loaded_refresh _ _ _⟩
  unfold saveSnapshot
  dsimp only
  split
  · rename_i hrefused
    refine idle_close (hsaved.failFlush _) ?_
    rw [hrefused]
    refine (close_failFlush _ _).trans ?_
    simp [StorageStrategy.undo, hrefused, Transaction.rollback]
  · exact idle_close hsaved (close_undo db _)

/-- A request that is not disturbed does to the tables what it does in a session of its own. -/
theorem request_simulates {s : Session} (h : Idle engine s db) {i : TenantId × Request}
    (hundisturbed : Undisturbed engine dispatchers outbox s i) (orders : Orders) :
    let r := (storageStrategy engine dispatchers outbox noPosition i.1 orders).handle s i.2
    let plain := requestStep (strategies engine dispatchers outbox) db i
    r.1 = plain.1 ∧ Idle engine r.2 plain.2 := by
  obtain ⟨u, request⟩ := i
  have hdb : s.db = db := congrArg Transaction.db h.tables
  have hfailure : s.failure = none := congrArg Transaction.failure h.tables
  cases request with
  | fetch streamId start stop =>
    subst hdb
    exact ⟨rfl, h⟩
  | insert streamId versioning events =>
    have hplain := @insertEvents_plain _ engine dispatchers outbox noPosition s u streamId
      versioning events orders.iterated orders.restored h.sane hfailure hundisturbed.2
    rw [h.tables] at hplain
    obtain ⟨hanswer, hidle⟩ := idle_close
      (h.sane.insertEvents u streamId versioning events orders.iterated orders.restored)
      ((congrArg closeTables hplain).trans (close_insert _ _ _ _))
    exact ⟨congrArg (Except.map fun _ => []) hanswer, hidle⟩
  | snapshot raw =>
    obtain ⟨hanswer, hidle⟩ := close_saveSnapshot h raw orders
    exact ⟨congrArg (Except.map fun _ => []) hanswer, hidle⟩
  | delete streamId =>
    have hplain := @step_plain _ engine dispatchers outbox noPosition _ h.sane (.delete u streamId)
      trivial
    simp only [step, hfailure] at hplain
    rw [h.tables] at hplain
    obtain ⟨hanswer, hidle⟩ := idle_close
      (h.sane.deleteStream u streamId) ((congrArg closeTables hplain).trans close_delete)
    exact ⟨congrArg (Except.map fun _ => []) hanswer, hidle⟩

end Calls

section Backend
variable (engine : Engine) (dispatchers : TenantId → Dispatcher E) (outbox : Option OutboxStrategy)
  (noPosition : Position)

/-- A call that is not disturbed answers and leaves the tables as in a session of its own. -/
theorem call_simulates {s : Session} {db : Database} (h : Idle engine s db)
    {i : TenantId × Call E × Orders}
    (hundisturbed : Requesting (fun u => (dispatchers u).serde)
      (Undisturbed engine dispatchers outbox) s (i.1, i.2.1)) :
    let r := sharedStep engine dispatchers outbox noPosition s i
    let plain := callStep (stores engine dispatchers outbox) db (i.1, i.2.1)
    r.1 = plain.1 ∧ Idle engine r.2 plain.2 := by
  obtain ⟨u, call, orders⟩ := i
  unfold sharedStep
  rw [call_eq]
  cases hr : request (dispatchers u).serde call with
  | error e =>
    rw [show callStep (stores engine dispatchers outbox) db (u, call) =
      (.error (.serde e), db) from callStep_of_error hr]
    exact ⟨rfl, h⟩
  | ok r =>
    obtain ⟨hanswer, hidle⟩ := @request_simulates _ _ _ _ noPosition _ _ h _ (hundisturbed.ok hr)
      orders
    rw [show callStep (stores engine dispatchers outbox) db (u, call) = _ from callStep_of_ok hr]
    exact ⟨congrArg (finish _) hanswer, hidle⟩

theorem idle_initial : Idle engine (Session.of {}) {} :=
  ⟨rfl, keyed_empty engine, keyed_empty engine, fun _ ho => by cases ho⟩

variable {engine dispatchers outbox noPosition} in
/-- A run in which nobody is disturbed is a run of calls in sessions of their own. -/
theorem answers_plain {is : List (TenantId × Call E × Orders)}
    (h : KeepsApart engine dispatchers outbox noPosition is) :
    (run (sharedStep engine dispatchers outbox noPosition) (Session.of {}) is).1 =
        (run (callStep (stores engine dispatchers outbox)) {} (is.map (Prod.map id Prod.fst))).1 ∧
      SqlAlchemyTenants.KeepsToOwnRows engine dispatchers outbox
        (is.map (Prod.map id Prod.fst)) := by
  constructor
  · have hanswers := (run_simulates (Q := Eq) (f := Prod.map id Prod.fst) (R := Idle engine)
      (fun s db i hs hi => call_simulates engine dispatchers outbox noPosition hs hi)
      (idle_initial engine) h).1
    rwa [List.forall₂_eq_eq_eq] at hanswers
  · refine meets_simulates (R := Idle engine) (fun s db i hs hi => ⟨?_, ?_⟩)
      (idle_initial engine) h
    · have hdb : s.db = db := congrArg Transaction.db hs.tables
      subst hdb
      change Requesting _ _ _ (i.1, i.2.1)
      unfold Requesting at hi ⊢
      split
      · trivial
      · rename_i r hr
        rw [hr] at hi
        exact hi.1
    · exact (call_simulates engine dispatchers outbox noPosition hs hi).2

/-- As long as the statements that do not look at the tenant find no row of another tenant, and
the search of an insertion finds no stale object, what the other tenants do makes no difference to
a tenant. -/
theorem sqlAlchemy_isolation (blind : ∀ u, (dispatchers u).PositionBlind) (t : TenantId)
    {is js : List (TenantId × Call E × Orders)}
    (hi : KeepsApart engine dispatchers outbox noPosition is)
    (hj : KeepsApart engine dispatchers outbox noPosition js)
    (hui : DistinctUuids (is.map (Prod.map id Prod.fst)))
    (huj : DistinctUuids (js.map (Prod.map id Prod.fst)))
    (hsame : (inputsOf t is).map Prod.fst = (inputsOf t js).map Prod.fst) :
    answersOf t is (run (sharedStep engine dispatchers outbox noPosition) (Session.of {}) is).1 =
      answersOf t js
        (run (sharedStep engine dispatchers outbox noPosition) (Session.of {}) js).1 := by
  obtain ⟨hanswers, hown⟩ := answers_plain hi
  obtain ⟨hanswers', hown'⟩ := answers_plain hj
  rw [hanswers, hanswers', ← answersOf_map Prod.fst t is, ← answersOf_map Prod.fst t js]
  refine SqlAlchemyTenants.isolation_of_own_rows engine dispatchers outbox blind t hown hown' hui
    huj ?_
  rw [inputsOf_map, inputsOf_map, hsame]

end Backend

section Example

/-- A call of a tenant, and the orders that do not matter to it. -/
def inAnyOrder (i : TenantId × Call Unit) : TenantId × Call Unit × Orders := (i.1, i.2, {})

/-- The tenant "b" appends to a stream twice and loads it. -/
def undisturbed : List (TenantId × Call Unit × Orders) :=
  [("b", .appendEvents ⟨(), 1, 0⟩ [] order (.version 0)),
    ("b", .appendEvents ⟨(), 2, 0⟩ [] order (.version 1)),
    ("b", .loadStream order none none)].map inAnyOrder

/-- In between, the tenant "a" works on another stream. -/
def besides : List (TenantId × Call Unit × Orders) :=
  [("b", .appendEvents ⟨(), 1, 0⟩ [] order (.version 0)),
    ("a", .appendEvents ⟨(), 3, 0⟩ [] invoice (.version 0)),
    ("a", .appendEvents ⟨(), 4, 0⟩ [] invoice (.version 1)),
    ("b", .appendEvents ⟨(), 2, 0⟩ [] order (.version 1)),
    ("b", .loadStream order none none)].map inAnyOrder

/-- In between, the tenant "a" appends to its stream with the same identifier. -/
def disturbed : List (TenantId × Call Unit × Orders) :=
  [("b", .appendEvents ⟨(), 1, 0⟩ [] order (.version 0)),
    ("a", .appendEvents ⟨(), 3, 0⟩ [] order (.version 0)),
    ("b", .appendEvents ⟨(), 2, 0⟩ [] order (.version 1)),
    ("b", .loadStream order none none)].map inAnyOrder

/-- The tenant "b" appends to a new stream, where the object with the id comes first. -/
def appendedAfter (id : ℕ) : TenantId × Call Unit × Orders :=
  ("b", .appendEvents ⟨(), 1, 0⟩ [] order (.version 0),
    { iterated := [{ id := 1 }, { id, attributes := some { uuid := 1, name := none
                                                           category := "", version := some 1
                                                           id, tenantId := "b" } }] })

/-- Before, the tenant "a" is refused a stream, because it expects it to be there. -/
def refused : List (TenantId × Call Unit × Orders) :=
  [inAnyOrder ("a", .appendEvents ⟨(), 3, 0⟩ [] invoice (.version 1)), appendedAfter 2]

def answersTo (engine : Engine) (is : List (TenantId × Call Unit × Orders)) : List (Answer Unit) :=
  answersOf "b" is (run (sharedStep engine (fun _ => plainDispatcher) none 0) (Session.of {}) is).1

theorem sqlAlchemy_isolation_besides : answersTo sqlite undisturbed = answersTo sqlite besides :=
  sqlAlchemy_isolation sqlite _ none 0 (fun _ => plainDispatcher_quiet.positionBlind) "b"
    (by decide) (by decide) (by decide) (by decide) rfl

/-- With two streams of one identifier and one version, no version bump succeeds. With the object
of a stream that was refused, no append does that comes to read it. -/
theorem sqlAlchemy_isolation_disturbed :
    (DistinctUuids (undisturbed.map (Prod.map id Prod.fst)) ∧
      DistinctUuids (disturbed.map (Prod.map id Prod.fst)) ∧
      inputsOf "b" undisturbed = inputsOf "b" disturbed ∧
      answersTo sqlite undisturbed ≠ answersTo sqlite disturbed) ∧
    DistinctUuids (refused.map (Prod.map id Prod.fst)) ∧
      inputsOf "b" [appendedAfter 2] = inputsOf "b" refused ∧
      answersTo postgres [appendedAfter 2] = [.ok []] ∧
      answersTo postgres refused = [.error .objectDeletedError] :=
  ⟨⟨by decide, by decide, rfl, by decide⟩, by decide, rfl, by decide, by decide⟩

end Example

end EventSourcery.Sql.SqlAlchemySharedSessions
