import EventSourcery.DjangoStore
import EventSourcery.SqlAlchemyStore

/-!
# Rejected appends of the SQL stores

`_ensure_stream` inserts a missing stream with its future version before it looks at the
versions, and bumps a version before it counts the rows that it has bumped. Without a
rollback, an append that is rejected leaves the rows as they were only when its stream was
there and no other row was bumped to a new version in its place.
-/
namespace EventSourcery.Sql

/-- `ConcurrentStreamWriteError`, or a `VersioningMismatch`. -/
def rejects : Error → Bool
  | .concurrentStreamWriteError _ => true
  | .expectedVersionUsedOnVersionlessStream => true
  | .noExpectedVersionGivenOnVersionedStream => true
  | _ => false

def Rejected {α : Type} (answer : Except Error α) : Prop := ∃ e, answer = .error e ∧ rejects e

theorem not_rejected {α : Type} {answer : Except Error α} {e : Error} (h : answer = .error e)
    (hother : rejects e = false) : ¬ Rejected answer := by
  rintro ⟨e', he', hrejects⟩
  rw [h] at he'
  cases he'
  rw [hother] at hrejects
  cases hrejects

/-- The stream and event rows are what they were. -/
def Unchanged (db after : Database) : Prop :=
  after.streams = db.streams ∧ after.events = db.events

/-- A stream of the version that is found is refused, and the bump, when it is tried, writes
nothing new to the rows that it hits. -/
def RefusesInPlace (versioning : Versioning) (found : Option ℤ) (hits : ℤ → ℕ) : Prop :=
  match versioning.validateIfCompatible found, versioning.compared with
  | .error _, _ => True
  | .ok (), none => False
  | .ok (), some expected =>
      hits expected = 0 ∨ hits expected ≠ 1 ∧ versioning.initialVersion = some expected

/-- The end of `_ensure_stream`, on the stream that it has found: `hit` is what the bump of
the expected version updates. -/
def guardVersion (versioning : Versioning) (found : Option ℤ) (hit : ℤ → StreamRow → Bool)
    (db : Database) : Except Error Unit × Database :=
  match versioning.validateIfCompatible found, versioning.compared with
  | .error e, _ => (.error e, db)
  | .ok (), none => (.ok (), db)
  | .ok (), some expected =>
      let bumped := db.setVersion (hit expected) versioning.initialVersion
      if db.streams.countP (hit expected) ≠ 1 then (.error (.concurrentStreamWriteError []), bumped)
      else (.ok (), bumped)

/-- `insert_events` on a stream that is found: the version is guarded, and the events are
stored. -/
def guarded (versioning : Versioning) (found : Option ℤ) (hit : ℤ → StreamRow → Bool)
    (store : Database → Except Error Unit × Database) (db : Database) :
    Except Error Unit × Database :=
  match guardVersion versioning found hit db with
  | (.error e, db) => (.error e, db)
  | (.ok (), db) => store db

/-- Events are stored without a change of the streams, and before a dispatch can raise. -/
structure Stores (store : Database → Except Error Unit × Database) : Prop where
  streams : ∀ db, (store db).2.streams = db.streams
  events : ∀ db, Rejected (store db).1 → (store db).2.events ≠ db.events

section Rows
variable {db : Database} {versioning : Versioning}

/-- A bump of rows of one version changes them when there are any and it brings another. -/
theorem setVersion_streams_iff {hit : StreamRow → Bool} {expected version : Option ℤ}
    (hhit : ∀ row, hit row → row.version = expected) :
    (db.setVersion hit version).streams = db.streams ↔
      db.streams.countP hit = 0 ∨ version = expected := by
  have hrow : ∀ row : StreamRow, hit row →
      (({ row with version } : StreamRow) = row ↔ version = expected) := by
    intro row hrow
    rw [← hhit row hrow]
    constructor
    · intro hsame
      exact congrArg (fun row : StreamRow => row.version) hsame
    · intro hsame
      rw [hsame]
  constructor
  · intro hsame
    by_cases hcount : db.streams.countP hit = 0
    · exact .inl hcount
    · obtain ⟨row, hmem, hrowHit⟩ := List.countP_pos_iff.1 (Nat.pos_of_ne_zero hcount)
      have hfixed := List.map_inj_left.1 (hsame.trans (List.map_id _).symm) row hmem
      rw [if_pos hrowHit] at hfixed
      exact .inr ((hrow row hrowHit).1 hfixed)
  · intro h
    refine Eq.trans (List.map_congr_left fun row hmem => ?_) (List.map_id _)
    split
    · rename_i hrowHit
      rcases h with hcount | hsame
      · exact absurd hrowHit (List.countP_eq_zero.1 hcount row hmem)
      · exact (hrow row hrowHit).2 hsame
    · rfl

theorem guardVersion_length (versioning : Versioning) (found : Option ℤ)
    (hit : ℤ → StreamRow → Bool) (db : Database) :
    (guardVersion versioning found hit db).2.streams.length = db.streams.length := by
  unfold guardVersion
  dsimp only
  split
  · rfl
  · rfl
  · split <;> exact List.length_map _

theorem guardVersion_events (versioning : Versioning) (found : Option ℤ)
    (hit : ℤ → StreamRow → Bool) (db : Database) :
    (guardVersion versioning found hit db).2.events = db.events := by
  unfold guardVersion
  dsimp only
  split
  · rfl
  · rfl
  · split <;> rfl

/-- What is refused is refused in place if and only if the rows stay. -/
theorem guardVersion_error {found : Option ℤ} {hit : ℤ → StreamRow → Bool} {e : Error}
    (hhit : ∀ expected row, hit expected row → row.version = some expected)
    (h : (guardVersion versioning found hit db).1 = .error e) :
    (guardVersion versioning found hit db).2.streams = db.streams ↔
      RefusesInPlace versioning found fun expected => db.streams.countP (hit expected) := by
  revert h
  unfold guardVersion RefusesInPlace
  split
  · simp
  · intro h
    cases h
  · rename_i expected hvalid hcompared
    dsimp only
    split
    · rename_i hne
      intro h
      rw [setVersion_streams_iff (hhit expected)]
      simp [hne]
    · intro h
      cases h

theorem guardVersion_ok {found : Option ℤ} {hit : ℤ → StreamRow → Bool}
    (h : (guardVersion versioning found hit db).1 = .ok ()) :
    ¬ RefusesInPlace versioning found fun expected => db.streams.countP (hit expected) := by
  revert h
  unfold guardVersion RefusesInPlace
  split
  · intro h
    cases h
  · simp
  · rename_i expected hvalid hcompared
    dsimp only
    split
    · intro h
      cases h
    · rename_i hone
      intro h
      omega

section Guarded
variable {found : Option ℤ} {hit : ℤ → StreamRow → Bool}
  {store : Database → Except Error Unit × Database}

theorem guarded_length (h : Stores store) (versioning : Versioning) (found : Option ℤ)
    (hit : ℤ → StreamRow → Bool) (db : Database) :
    (guarded versioning found hit store db).2.streams.length = db.streams.length := by
  have hlength := guardVersion_length versioning found hit db
  unfold guarded
  split
  · rename_i e after heq
    rwa [heq] at hlength
  · rename_i after heq
    rw [heq] at hlength
    rw [h.streams]
    exact hlength

theorem guarded_unchanged_iff (h : Stores store)
    (hhit : ∀ expected row, hit expected row → row.version = some expected)
    (hrejected : Rejected (guarded versioning found hit store db).1) :
    Unchanged db (guarded versioning found hit store db).2 ↔
      RefusesInPlace versioning found fun expected => db.streams.countP (hit expected) := by
  have hevents := guardVersion_events versioning found hit db
  revert hrejected
  unfold guarded
  split
  · rename_i e after heq
    intro _
    have hiff := guardVersion_error hhit (congrArg Prod.fst heq)
    rw [heq] at hevents hiff
    exact ⟨fun hsame => hiff.1 hsame.1, fun hplace => ⟨hiff.2 hplace, hevents⟩⟩
  · rename_i after heq
    intro hrejected
    rw [heq] at hevents
    constructor
    · intro hsame
      exact absurd (hsame.2.trans hevents.symm) (h.events after hrejected)
    · intro hplace
      exact absurd hplace (guardVersion_ok (congrArg Prod.fst heq))

end Guarded

/-- A dispatch that raises was given events, and they were added. -/
theorem events_ne_of_dispatch {E : Type} {dispatcher : Dispatcher E} {t : TenantId}
    {engine : Engine} {id : ℕ} {events : List RawEvent}
    (h : Rejected (dispatcher.dispatch
      (recordsOf t events (db.addEvents engine id (events.map .ofRaw)).1))) :
    (db.addEvents engine id (events.map .ofRaw)).2.events ≠ db.events := by
  obtain ⟨e, he, -⟩ := h
  cases events with
  | nil => cases he
  | cons raw events => simp [Database.addEvents, Database.eventRows]

theorem outbox_rows (outbox : Option OutboxStrategy) (records : List RecordedRaw)
    (db : Database) : Unchanged db (outbox.elim db (·.putIntoOutbox records db)) := by
  cases outbox with
  | none => exact ⟨rfl, rfl⟩
  | some outbox => exact ⟨rfl, rfl⟩

end Rows

namespace SqlAlchemyStorageStrategy
variable {E : Type} (strategy : SqlAlchemyStorageStrategy E) {streamId : StreamId}
  {versioning : Versioning} {events : List RawEvent} {db : Database} {stream : StreamRow}

/-- The rows that the bump of an expected version updates, whatever their tenants. -/
def bumps (streamId : StreamId) (expected : ℤ) (row : StreamRow) : Bool :=
  row.compares streamId && row.version = some expected

/-- The stream is there, and is refused in place. -/
def InPlace (streamId : StreamId) (versioning : Versioning) (db : Database) : Prop :=
  ∃ stream, chooseStream StreamRow.toStreamHead streamId
      (strategy.matchingStreams streamId db) = .ok stream ∧
    RefusesInPlace versioning stream.version fun expected =>
      db.streams.countP (bumps streamId expected)

/-- `insert_events` on a stream that is chosen. -/
theorem insertEvents_of_chosen {opened : Database}
    (hopened : strategy.openStream streamId versioning.initialVersion db = opened)
    (hchosen : chooseStream StreamRow.toStreamHead streamId
      (strategy.matchingStreams streamId opened) = .ok stream) :
    strategy.insertEvents streamId versioning events db =
      guarded versioning stream.version (bumps streamId) (strategy.storeEvents stream events)
        opened := by
  unfold insertEvents ensureStream guarded guardVersion
  simp only [hopened, hchosen]
  cases versioning.validateIfCompatible stream.version with
  | error e => rfl
  | ok =>
    cases versioning.compared with
    | none => rfl
    | some expected =>
      by_cases hone : opened.streams.countP (bumps streamId expected) ≠ 1
      · have hne : opened.streams.countP (fun row =>
            row.compares streamId && row.version = some expected) ≠ 1 := hone
        simp only [if_pos hone, if_pos hne]
        rfl
      · have hne : ¬ opened.streams.countP (fun row =>
            row.compares streamId && row.version = some expected) ≠ 1 := hone
        simp only [if_neg hone, if_neg hne]
        rfl

theorem storeEvents_stores (stream : StreamRow) (events : List RawEvent) :
    Stores (strategy.storeEvents stream events) where
  streams db := by
    unfold storeEvents
    dsimp only
    split
    · rw [(outbox_rows strategy.outbox _ _).1]
      rfl
    · rfl
  events db := by
    unfold storeEvents
    dsimp only
    split
    · intro h
      rw [(outbox_rows strategy.outbox _ _).2]
      exact events_ne_of_dispatch h
    · exact fun h => absurd h (not_rejected rfl rfl)

/-- The errors of the choice of a stream are no rejections. -/
theorem chooseStream_error {matching : List StreamRow} {e : Error}
    (h : chooseStream StreamRow.toStreamHead streamId matching = .error e) : rejects e = false := by
  unfold chooseStream at h
  cases hcheck : checkName StreamRow.toStreamHead streamId matching with
  | error e' =>
    rw [hcheck] at h
    cases h
    unfold checkName at hcheck
    split at hcheck
    · cases hcheck
    · split at hcheck
      · cases hcheck
        rfl
      · split at hcheck
        · cases hcheck
        · cases hcheck
          rfl
  | ok =>
    rw [hcheck] at h
    cases hfind : matching.find? fun x => x.streamId.eq streamId with
    | none =>
      simp only [Except.bind, hfind, Option.elim, Except.error.injEq] at h
      rw [← h]
      rfl
    | some row => simp [Except.bind, hfind] at h

theorem chooseStream_nil :
    ¬ ∃ stream, chooseStream StreamRow.toStreamHead streamId [] = .ok stream := by
  rintro ⟨stream, h⟩
  exact List.not_mem_nil (chooseStream_eq_ok h).1

/-- A stream that is not there is inserted, or a stream in its way keeps it out. -/
theorem openStream_of_empty (hempty : strategy.matchingStreams streamId db = [])
    (initialVersion : Option ℤ) :
    strategy.openStream streamId initialVersion db = db ∨
      (strategy.openStream streamId initialVersion db).streams.length = db.streams.length + 1 := by
  unfold openStream insertOrNothing
  rw [if_pos (by simp [hempty])]
  split
  · exact .inl rfl
  · exact .inr (by simp [Database.insertStream])

/-- An append that is rejected leaves the stream and event rows as they were if and only if
its stream was there before and is refused in place. -/
theorem unchanged_iff
    (hrejected : Rejected (strategy.insertEvents streamId versioning events db).1) :
    Unchanged db (strategy.insertEvents streamId versioning events db).2 ↔
      strategy.InPlace streamId versioning db := by
  obtain ⟨opened, hopened⟩ :
      ∃ opened, strategy.openStream streamId versioning.initialVersion db = opened := ⟨_, rfl⟩
  cases hchosen : chooseStream StreamRow.toStreamHead streamId
      (strategy.matchingStreams streamId opened) with
  | error e =>
    have hinsert : (strategy.insertEvents streamId versioning events db).1 = .error e := by
      simp only [insertEvents, ensureStream, hopened, hchosen]
    exact absurd hrejected (not_rejected hinsert (chooseStream_error hchosen))
  | ok stream =>
    have hhit : ∀ expected row, bumps streamId expected row → row.version = some expected := by
      intro expected row h
      simp only [bumps, Bool.and_eq_true, decide_eq_true_eq] at h
      exact h.2
    rw [insertEvents_of_chosen strategy hopened hchosen] at hrejected ⊢
    by_cases hempty : strategy.matchingStreams streamId db = []
    · have hnone : ¬ strategy.InPlace streamId versioning db := by
        intro ⟨stream, hstream, _⟩
        rw [hempty] at hstream
        exact chooseStream_nil ⟨stream, hstream⟩
      refine ⟨fun hsame => ?_, fun hplace => absurd hplace hnone⟩
      rcases strategy.openStream_of_empty hempty versioning.initialVersion with hsame' | hlonger
      · rw [hopened.symm.trans hsame', hempty] at hchosen
        exact absurd ⟨stream, hchosen⟩ chooseStream_nil
      · have hlength := guarded_length (strategy.storeEvents_stores stream events) versioning
          stream.version (bumps streamId) opened
        rw [hsame.1, ← hopened, hlonger] at hlength
        omega
    · have hsame : strategy.openStream streamId versioning.initialVersion db = db := by
        unfold openStream
        rw [if_neg (by simpa using hempty)]
      cases hopened.symm.trans hsame
      rw [guarded_unchanged_iff (strategy.storeEvents_stores stream events) hhit hrejected]
      constructor
      · intro hplace
        exact ⟨stream, hchosen, hplace⟩
      · intro ⟨stream', hchosen', hplace⟩
        cases hchosen.symm.trans hchosen'
        exact hplace

end SqlAlchemyStorageStrategy

namespace DjangoStorageStrategy
variable {E : Type} (strategy : DjangoStorageStrategy E) {streamId : StreamId}
  {versioning : Versioning} {events : List RawEvent} {db : Database} {model : StreamRow}

/-- The rows that `get_or_create` finds. -/
def found (streamId : StreamId) (db : Database) : List StreamRow :=
  db.streams.filter fun row =>
    sameColumns streamId row.toStreamHead && row.tenantId = strategy.tenantId

def bumps (model : StreamRow) (expected : ℤ) (row : StreamRow) : Bool :=
  row.id = model.id && row.version = some expected

/-- The stream is there, and is refused in place. -/
def InPlace (streamId : StreamId) (versioning : Versioning) (db : Database) : Prop :=
  checkName StreamRow.toStreamHead streamId (strategy.byStreamId streamId db) = .ok () ∧
    ∃ model, getOne (strategy.found streamId db) = .ok model ∧
      RefusesInPlace versioning model.version fun expected =>
        db.streams.countP (bumps model expected)

/-- `insert_events` on a stream that is found or created. -/
theorem insertEvents_of_created {created : Database}
    (hname : checkName StreamRow.toStreamHead streamId (strategy.byStreamId streamId db) = .ok ())
    (hcreated : strategy.getOrCreate streamId versioning.initialVersion db = (.ok model, created)) :
    strategy.insertEvents streamId versioning events db =
      guarded versioning model.version (bumps model) (strategy.storeEvents events) created := by
  unfold insertEvents ensureStream guarded guardVersion
  simp only [hname, hcreated]
  cases versioning.validateIfCompatible model.version with
  | error e => rfl
  | ok =>
    cases versioning.compared with
    | none => rfl
    | some expected =>
      by_cases hone : created.streams.countP (bumps model expected) ≠ 1
      · have hne : created.streams.countP (fun row =>
            row.id = model.id && row.version = some expected) ≠ 1 := hone
        simp only [if_pos hone, if_pos hne]
        rfl
      · have hne : ¬ created.streams.countP (fun row =>
            row.id = model.id && row.version = some expected) ≠ 1 := hone
        simp only [if_neg hone, if_neg hne]
        rfl

theorem getOne_error {α : Type} {xs : List α} {e : Error} (h : getOne xs = .error e) :
    rejects e = false := by
  match xs with
  | [] =>
    cases h
    rfl
  | [x] => cases h
  | _ :: _ :: _ =>
    cases h
    rfl

theorem storeEvents_stores (events : List RawEvent) :
    Stores (strategy.storeEvents events) where
  streams db := by
    unfold storeEvents
    dsimp only
    split
    · rfl
    · split
      · rfl
      · split
        · rw [(outbox_rows strategy.outbox _ _).1]
          rfl
        · rfl
  events db := by
    unfold storeEvents
    dsimp only
    split
    · exact fun h => absurd h (not_rejected rfl rfl)
    · split
      · rename_i e hfound
        exact fun h => absurd h (not_rejected rfl (getOne_error hfound))
      · split
        · intro h
          rw [(outbox_rows strategy.outbox _ _).2]
          exact events_ne_of_dispatch h
        · exact fun h => absurd h (not_rejected rfl rfl)

theorem checkName_error {matching : List StreamRow} {e : Error}
    (h : checkName StreamRow.toStreamHead streamId matching = .error e) : rejects e = false := by
  unfold checkName at h
  split at h
  · cases h
  · split at h
    · cases h
    · split at h
      · cases h
      · cases h
        rfl

/-- A stream is found, or it is inserted, or something that is no rejection is raised. -/
theorem getOrCreate_cases (streamId : StreamId) (initialVersion : Option ℤ) (db : Database) :
    (∃ model, getOne (strategy.found streamId db) = .ok model ∧
      strategy.getOrCreate streamId initialVersion db = (.ok model, db)) ∨
    (∃ e, getOne (strategy.found streamId db) = .error e ∧
      ∃ model created, strategy.getOrCreate streamId initialVersion db = (.ok model, created) ∧
        created.streams.length = db.streams.length + 1) ∨
    ∃ e after, strategy.getOrCreate streamId initialVersion db = (.error e, after) ∧
      rejects e = false := by
  rcases hfound : strategy.found streamId db with _ | ⟨model, _ | ⟨other, rest⟩⟩
  · unfold found at hfound
    simp only [getOrCreate, hfound, getOne]
    split
    · exact .inr (.inr ⟨_, _, rfl, rfl⟩)
    · exact .inr (.inl ⟨_, rfl, _, _, rfl, by simp [Database.insertStream]⟩)
  · unfold found at hfound
    simp only [getOrCreate, hfound, getOne]
    exact .inl ⟨model, rfl, rfl⟩
  · unfold found at hfound
    simp only [getOrCreate, hfound, getOne]
    exact .inr (.inr ⟨_, _, rfl, rfl⟩)

/-- An append that is rejected leaves the stream and event rows as they were if and only if
its stream was there before and is refused in place. -/
theorem unchanged_iff
    (hrejected : Rejected (strategy.insertEvents streamId versioning events db).1) :
    Unchanged db (strategy.insertEvents streamId versioning events db).2 ↔
      strategy.InPlace streamId versioning db := by
  cases hname : checkName StreamRow.toStreamHead streamId (strategy.byStreamId streamId db) with
  | error e =>
    have hinsert : (strategy.insertEvents streamId versioning events db).1 = .error e := by
      simp only [insertEvents, ensureStream, hname]
    exact absurd hrejected (not_rejected hinsert (checkName_error hname))
  | ok =>
    have hhit : ∀ model expected row, bumps model expected row → row.version = some expected := by
      intro model expected row h
      simp only [bumps, Bool.and_eq_true, decide_eq_true_eq] at h
      exact h.2
    rcases strategy.getOrCreate_cases streamId versioning.initialVersion db with
      ⟨model, hfound, hcreated⟩ | ⟨e, hfound, model, created, hcreated, hlonger⟩ |
        ⟨e, after, hfailed, hother⟩
    · rw [insertEvents_of_created strategy hname hcreated] at hrejected ⊢
      rw [guarded_unchanged_iff (strategy.storeEvents_stores events) (hhit model) hrejected]
      constructor
      · exact fun hplace => ⟨hname, model, hfound, hplace⟩
      · intro ⟨_, model', hfound', hplace⟩
        cases hfound.symm.trans hfound'
        exact hplace
    · rw [insertEvents_of_created strategy hname hcreated]
      constructor
      · intro hsame
        have hlength := guarded_length (strategy.storeEvents_stores events) versioning
          model.version (bumps model) created
        rw [hsame.1, hlonger] at hlength
        omega
      · intro ⟨_, model', hfound', _⟩
        cases hfound.symm.trans hfound'
    · have hinsert : (strategy.insertEvents streamId versioning events db).1 = .error e := by
        simp only [insertEvents, ensureStream, hname, hfailed]
      exact absurd hrejected (not_rejected hinsert hother)

end DjangoStorageStrategy

section Main
variable {E : Type} (engine : Engine) (dispatcher : Dispatcher E) (outbox : Option OutboxStrategy)
  (t : TenantId) (streamId : StreamId) (versioning : Versioning) (events : List RawEvent)
  (db : Database)

/-- On either store an append that is rejected leaves the stream and event rows as they were
if and only if its stream was there before and is refused in place. -/
theorem rejectedAppend_unchanged_iff :
    let sqlAlchemy : SqlAlchemyStorageStrategy E := ⟨engine, dispatcher, outbox, t⟩
    let django : DjangoStorageStrategy E := ⟨engine, dispatcher, outbox, t⟩
    (Rejected (sqlAlchemy.insertEvents streamId versioning events db).1 →
      (Unchanged db (sqlAlchemy.insertEvents streamId versioning events db).2 ↔
        sqlAlchemy.InPlace streamId versioning db)) ∧
    (Rejected (django.insertEvents streamId versioning events db).1 →
      (Unchanged db (django.insertEvents streamId versioning events db).2 ↔
        django.InPlace streamId versioning db)) := by
  intro sqlAlchemy django
  exact ⟨sqlAlchemy.unchanged_iff, django.unchanged_iff⟩

end Main

section Example
open Tenants

/-- A stream whose last event has version 3. -/
def threeEvents : Database where
  streams := [{ toStreamHead := .ofStreamId order (some 3), id := 1, tenantId := "a" }]
  streamSeq := 1

def nextEvent (version : ℤ) : RawEvent :=
  { uuid := 1, streamId := order, createdAt := 0, name := "Event", data := []
    context := defaultContext, version := some version }

theorem rejectedAppend_unchanged_iff_order :
    let sqlAlchemy : SqlAlchemyStorageStrategy Unit := ⟨sqlite, plainDispatcher, none, "a"⟩
    let django : DjangoStorageStrategy Unit := ⟨sqlite, plainDispatcher, none, "a"⟩
    (Unchanged threeEvents
        (sqlAlchemy.insertEvents order (.explicit 2 (some 3)) [nextEvent 3] threeEvents).2 ↔
      sqlAlchemy.InPlace order (.explicit 2 (some 3)) threeEvents) ∧
    (Unchanged threeEvents
        (django.insertEvents order (.explicit 2 (some 3)) [nextEvent 3] threeEvents).2 ↔
      django.InPlace order (.explicit 2 (some 3)) threeEvents) := by
  have h := rejectedAppend_unchanged_iff sqlite plainDispatcher none "a" order
    (.explicit 2 (some 3)) [nextEvent 3] threeEvents
  exact ⟨h.1 ⟨_, rfl, rfl⟩, h.2 ⟨_, rfl, rfl⟩⟩

/-- A stream that was not there is left with the version of an event that was not stored. -/
theorem rejectedAppend_leaves_row :
    let sqlAlchemy : SqlAlchemyStorageStrategy Unit := ⟨sqlite, plainDispatcher, none, "a"⟩
    let django : DjangoStorageStrategy Unit := ⟨sqlite, plainDispatcher, none, "a"⟩
    let viaSqlAlchemy := sqlAlchemy.insertEvents order (.explicit 5 (some 6)) [nextEvent 6] {}
    let viaDjango := django.insertEvents order (.explicit 5 (some 6)) [nextEvent 6] {}
    (viaSqlAlchemy.1 = .error (.concurrentStreamWriteError []) ∧
      viaSqlAlchemy.2.streams.map (·.version) = [some 6] ∧ viaSqlAlchemy.2.events = []) ∧
    viaDjango.1 = .error (.concurrentStreamWriteError []) ∧
      viaDjango.2.streams.map (·.version) = [some 6] ∧ viaDjango.2.events = [] :=
  ⟨⟨rfl, rfl, rfl⟩, rfl, rfl, rfl⟩

end Example

end EventSourcery.Sql
