import EventSourcery.DjangoStore

/-!
# The Django store as one tenant sees it

Every statement names the tenant, so the requests of a tenant act on its view as
they would on a database of its own, and leave the views of the others alone, if
the uuids they write are in no row of another tenant. What a request has written
before it raises stays, unless the request is in a transaction.
-/
namespace EventSourcery.Sql.DjangoViews
open DjangoStorageStrategy

variable {E : Type}

def fetch (engine : Engine) (streamId : StreamId) (start stop : Option ℤ) (streams : Streams) :
    Except Error (List RawEvent) :=
  match getOne (streams.filter fun v => v.addressed streamId) with
  | .error .doesNotExist => .ok []
  | .error e => .error e
  | .ok v =>
      .ok ((fetchRows engine id start stop v.events v.snapshots).map (toRaw v.toStreamHead))

def getOrCreate (streamId : StreamId) (initialVersion : Option ℤ) (streams : Streams) :
    Except Error StreamView × Streams :=
  let head := StreamHead.ofStreamId streamId initialVersion
  match getOne (streams.filter fun v => sameColumns streamId v.toStreamHead) with
  | .error .doesNotExist =>
      if streams.any fun v => head.clashes v.toStreamHead then (.error .integrityError, streams)
      else
        (.ok { head with events := [], snapshots := [] },
          streams ++ [{ head with events := [], snapshots := [] }])
  | r => (r, streams)

def ensure (streamId : StreamId) (versioning : Versioning) (streams : Streams) :
    Except Error Unit × Streams :=
  match checkName StreamView.toStreamHead streamId
    (streams.filter fun v => v.addressed streamId) with
  | .error e => (.error e, streams)
  | .ok () =>
      match getOrCreate streamId versioning.initialVersion streams with
      | (.error e, streams) => (.error e, streams)
      | (.ok model, streams) =>
          match versioning.validateIfCompatible model.version, versioning.compared with
          | .error e, _ => (.error e, streams)
          | .ok (), none => (.ok (), streams)
          | .ok (), some expected =>
              let hit := fun v : StreamHead => v.key = model.key && v.version = some expected
              let bumped := streams.map fun v =>
                if hit v.toStreamHead then { v with version := versioning.initialVersion } else v
              if streams.countP (fun v => hit v.toStreamHead) ≠ 1 then
                (.error (.concurrentStreamWriteError []), bumped)
              else (.ok (), bumped)

/-- Add the events to the stream they name; `verdict` is what the dispatch answers. -/
def store (verdict : Except Error Unit) (events : List RawEvent) (streams : Streams) :
    Except Error Unit × Streams :=
  match events.head? with
  | none => (.error .valueError, streams)
  | some event =>
      match getOne (streams.filter fun v => v.addressed event.streamId) with
      | .error e => (.error e, streams)
      | .ok v =>
          let entries := events.map EventBody.ofRaw
          if uuidsFree entries (streams.flatMap (·.events)) then
            (verdict, modify v.key (·.addEvents entries) streams)
          else (.error .integrityError, streams)

def insert (verdict : Except Error Unit) (streamId : StreamId) (versioning : Versioning)
    (events : List RawEvent) (streams : Streams) : Except Error Unit × Streams :=
  match ensure streamId versioning streams with
  | (.error e, streams) => (.error e, streams)
  | (.ok (), streams) => store verdict events streams

def snapshot (raw : RawEvent) (streams : Streams) : Except Error Unit × Streams :=
  match getOne (streams.filter fun v => v.addressed raw.streamId) with
  | .error e => (.error e, streams)
  | .ok v =>
      if raw.version = none then (.error .integrityError, streams)
      else
        (.ok (), modify v.key (·.addSnapshot (.ofRaw raw)) (streams.map fun w =>
          { w with snapshots := w.snapshots.filter fun body => body.uuid ≠ raw.uuid }))

def delete (streamId : StreamId) (streams : Streams) : Except Error Unit × Streams :=
  (.ok (), streams.filter fun v => !v.addressed streamId)

def strategy (engine : Engine) (accept : List RawEvent → Except Error Unit) :
    StorageStrategy Streams where
  fetchEvents := fetch engine
  insertEvents streamId versioning events :=
    insert (accept events) streamId versioning events
  saveSnapshot := snapshot
  deleteStream := delete

/-- A statement or a request gives the answer that it gives on the tenant's view, leaves
the view it leaves there, and leaves those of the other tenants alone. -/
structure Effect {α : Type} (engine : Engine) (t : TenantId) (db : Database)
    (own : Except Error α × Streams) (r : Except Error α × Database) : Prop where
  answer : r.1 = own.1
  sound : r.2.Sound engine
  view : r.2.view t = own.2
  others : ∀ u, u ≠ t → r.2.view u = db.view u

theorem Effect.refl {α : Type} {engine : Engine} {t : TenantId} {db : Database}
    (h : db.Sound engine) (answer : Except Error α) :
    Effect engine t db (answer, db.view t) (answer, db) :=
  ⟨rfl, h, rfl, fun _ _ => rfl⟩

/-- The same request in a transaction, rolled back when it raises. -/
theorem Effect.undo {α : Type} {engine : Engine} {t : TenantId} {db : Database}
    {own : Except Error α × Streams} {r : Except Error α × Database}
    (h : Effect engine t db own r) (hs : db.Sound engine) :
    Effect engine t db (StorageStrategy.undo (fun before _ => before) (db.view t) own)
      (StorageStrategy.undo Database.rollback db r) := by
  unfold StorageStrategy.undo
  rw [h.answer]
  cases own.1 with
  | error e => exact ⟨rfl, sound_rollback hs _, rfl, fun _ _ => rfl⟩
  | ok a => exact ⟨rfl, h.sound, h.view, h.others⟩

theorem Effect.map {α β : Type} {engine : Engine} {t : TenantId} {db : Database}
    {own : Except Error α × Streams} {r : Except Error α × Database}
    (h : Effect engine t db own r) (f : α → β) :
    Effect engine t db (own.1.map f, own.2) (r.1.map f, r.2) :=
  ⟨congrArg (Except.map f) h.answer, h.sound, h.view, h.others⟩

section Steps
variable {strategy : DjangoStorageStrategy E} {db : Database}

theorem byStreamId_view (streamId : StreamId) (db : Database) :
    ((db.view strategy.tenantId).filter fun v => v.addressed streamId) =
      (strategy.byStreamId streamId db).map db.viewOf :=
  filter_view db strategy.tenantId fun head => head.addressed streamId

theorem fetchEvents_view (streamId : StreamId) (start stop : Option ℤ) :
    strategy.fetchEvents streamId start stop db =
      fetch strategy.engine streamId start stop (db.view strategy.tenantId) := by
  simp only [fetch, fetchEvents, byStreamId_view, getOne_map]
  cases getOne (strategy.byStreamId streamId db) with
  | error e => cases e <;> rfl
  | ok stream => rfl

/-- The uuids that the request writes are in no row of another tenant. -/
def Apart (db : Database) (i : TenantId × Request) : Prop :=
  match i.2 with
  | .insert _ _ events => EventsApart db i.1 events
  | .snapshot raw => ∀ u, u ≠ i.1 → ∀ v ∈ db.view u, ∀ body ∈ v.snapshots, body.uuid ≠ raw.uuid
  | _ => True

/-- The rows of streams that are there stay, with their ids and tenants. -/
def KeepsRows (db db' : Database) : Prop :=
  ∀ row ∈ db.streams, ∃ row' ∈ db'.streams, row'.id = row.id ∧ row'.tenantId = row.tenantId

theorem getOrCreate_spec (h : db.Sound strategy.engine) (streamId : StreamId)
    (initialVersion : Option ℤ) :
    let r := strategy.getOrCreate streamId initialVersion db
    let own := getOrCreate streamId initialVersion (db.view strategy.tenantId)
    Effect strategy.engine strategy.tenantId db (own.1.map fun _ => (), own.2)
        (r.1.map fun _ => (), r.2) ∧
      r.2.events = db.events ∧ KeepsRows db r.2 ∧
      ∀ row, r.1 = .ok row → row ∈ r.2.streams ∧ row.tenantId = strategy.tenantId ∧
        own.1 = .ok (r.2.viewOf row) := by
  have hmatching := filter_view db strategy.tenantId (sameColumns streamId)
  set head := StreamHead.ofStreamId streamId initialVersion with hhead
  simp only [DjangoStorageStrategy.getOrCreate, getOrCreate, ← hhead, hmatching, ← clashes_view]
  have hkept : KeepsRows db db := fun row hrow => ⟨row, hrow, rfl, rfl⟩
  match hrows : db.streams.filter fun row =>
    sameColumns streamId row.toStreamHead && row.tenantId = strategy.tenantId with
  | [] =>
    simp only [hrows, getOne, List.map_nil]
    cases hfree : db.streams.any fun row =>
        row.tenantId = strategy.tenantId && head.clashes row.toStreamHead with
    | true => exact ⟨.refl h _, rfl, hkept, fun _ hrow => by cases hrow⟩
    | false =>
      simp only [Bool.false_eq_true, if_false]
      have hsound : (db.insertStream strategy.engine head strategy.tenantId).Sound
          strategy.engine := by
        apply sound_insertStream h
        intro row hrow ht hkey
        rw [List.any_eq_false] at hfree
        apply hfree row hrow
        simp [ht, StreamHead.clashes_of_key hkey]
      refine ⟨⟨rfl, hsound, ?_, ?_⟩, rfl, ?_, ?_⟩
      · rw [view_insertStream h, if_pos rfl]
      · intro u hu
        rw [view_insertStream h, if_neg (Ne.symm hu)]
      · exact fun row hrow => ⟨row, List.mem_append_left _ hrow, rfl, rfl⟩
      · rintro row hrow
        cases hrow
        exact ⟨List.mem_append_right _ (List.mem_singleton_self _), rfl,
          congrArg Except.ok (viewOf_new h head strategy.tenantId).symm⟩
  | [row] =>
    have hmem := List.mem_filter.1 (hrows ▸ List.mem_singleton_self row)
    simp only [Bool.and_eq_true, decide_eq_true_eq] at hmem
    simp only [hrows, getOne, List.map_cons, List.map_nil]
    refine ⟨.refl h _, trivial, hkept, ?_⟩
    rintro row' hrow'
    cases hrow'
    exact ⟨hmem.1, hmem.2.2, rfl⟩
  | a :: b :: rows =>
    simp only [hrows, getOne, List.map_cons]
    exact ⟨.refl h _, trivial, hkept, fun _ hrow => by cases hrow⟩

/-- The version bump goes through the id of a row, as the tenant sees it through the key. -/
theorem bump_spec (h : db.Sound strategy.engine) {model : StreamRow} (hmodel : model ∈ db.streams)
    (ht : model.tenantId = strategy.tenantId) (expected : ℤ) (initialVersion : Option ℤ) :
    let hit := fun row : StreamRow => row.id = model.id && row.version = some expected
    let p := fun v : StreamHead => v.key = model.key && v.version = some expected
    db.streams.countP hit = (db.view strategy.tenantId).countP (fun v => p v.toStreamHead) ∧
      (db.setVersion hit initialVersion).view strategy.tenantId =
        (db.view strategy.tenantId).map (fun v =>
          if p v.toStreamHead then { v with version := initialVersion } else v) ∧
      ∀ u, u ≠ strategy.tenantId → (db.setVersion hit initialVersion).view u = db.view u := by
  intro hit p
  have hown : ∀ row ∈ db.streams, row.tenantId = strategy.tenantId →
      hit row = p row.toStreamHead := by
    intro row hrow hrt
    have hiff : row.id = model.id ↔ row.key = model.key :=
      ⟨fun hid => by rw [eq_of_id h.uniqueKeys hrow hmodel hid],
        fun hkey => by rw [eq_of_key h.uniqueKeys hrow hmodel (hrt.trans ht.symm) hkey]⟩
    simp only [hit, p, hiff]
  have hother : ∀ row ∈ db.streams, row.tenantId ≠ strategy.tenantId → hit row = false := by
    intro row hrow hrt
    have hid : row.id ≠ model.id := fun hid =>
      hrt (by rw [eq_of_id h.uniqueKeys hrow hmodel hid, ht])
    simp [hit, hid]
  exact setVersion_spec initialVersion hown hother

theorem ensureStream_spec (h : db.Sound strategy.engine) (streamId : StreamId)
    (versioning : Versioning) :
    let r := strategy.ensureStream streamId versioning db
    Effect strategy.engine strategy.tenantId db
        (ensure streamId versioning (db.view strategy.tenantId)) r ∧
      r.2.events = db.events ∧ KeepsRows db r.2 := by
  have hkept : KeepsRows db db := fun row hrow => ⟨row, hrow, rfl, rfl⟩
  simp only [ensureStream, ensure, byStreamId_view, checkName_map]
  rw [show StreamView.toStreamHead ∘ db.viewOf = StreamRow.toStreamHead from rfl]
  cases checkName StreamRow.toStreamHead streamId (strategy.byStreamId streamId db) with
  | error e => exact ⟨.refl h _, rfl, hkept⟩
  | ok u =>
    obtain ⟨heffect, hevents, hrows, hmodel⟩ :=
      getOrCreate_spec h streamId versioning.initialVersion
    revert heffect hevents hrows hmodel
    dsimp only
    generalize strategy.getOrCreate streamId versioning.initialVersion db = r
    generalize getOrCreate streamId versioning.initialVersion (db.view strategy.tenantId) = own
    obtain ⟨answer, db'⟩ := r
    obtain ⟨ownAnswer, streams⟩ := own
    rintro ⟨hanswer, hsound, rfl, hothers⟩ hevents hrows hmodel
    cases answer with
    | error e =>
      cases ownAnswer with
      | error e' =>
        simp only [Except.map, Except.error.injEq] at hanswer
        subst hanswer
        exact ⟨⟨rfl, hsound, rfl, hothers⟩, hevents, hrows⟩
      | ok v => simp [Except.map] at hanswer
    | ok model =>
      obtain ⟨hmem, ht, hown⟩ := hmodel model rfl
      dsimp only at hown
      subst hown
      dsimp only
      rw [show (db'.viewOf model).version = model.version from rfl,
        show (db'.viewOf model).key = model.key from rfl]
      cases versioning.validateIfCompatible model.version with
      | error e => exact ⟨⟨rfl, hsound, rfl, hothers⟩, hevents, hrows⟩
      | ok u =>
        cases versioning.compared with
        | none => exact ⟨⟨rfl, hsound, rfl, hothers⟩, hevents, hrows⟩
        | some expected =>
          obtain ⟨hcount, hbumped, hrest⟩ := bump_spec hsound hmem ht expected
            versioning.initialVersion
          simp only [← hcount, ← hbumped]
          have hmapped : ∀ hit, KeepsRows db (db'.setVersion hit versioning.initialVersion) := by
            intro hit row hrow
            obtain ⟨row', hrow', hid, hrt⟩ := hrows row hrow
            refine ⟨_, List.mem_map_of_mem hrow', ?_, ?_⟩
            · split <;> exact hid
            · split <;> exact hrt
          split
          · exact ⟨⟨rfl, sound_setVersion hsound _ _, rfl,
              fun u hu => (hrest u hu).trans (hothers u hu)⟩, hevents, hmapped _⟩
          · exact ⟨⟨rfl, sound_setVersion hsound _ _, rfl,
              fun u hu => (hrest u hu).trans (hothers u hu)⟩, hevents, hmapped _⟩

/-- The stream that a lookup by stream id finds. -/
theorem found_of_getOne {streamId : StreamId} {row : StreamRow}
    (h : getOne (strategy.byStreamId streamId db) = .ok row) :
    row ∈ db.streams ∧ row.tenantId = strategy.tenantId := by
  have hmem := List.mem_filter.1 (getOne_eq_ok h ▸ List.mem_singleton_self row)
  simp only [Bool.and_eq_true, decide_eq_true_eq] at hmem
  exact ⟨hmem.1, hmem.2.2⟩

theorem storeEvents_effect (h : db.Sound strategy.engine) {events : List RawEvent}
    (hapart : EventsApart db strategy.tenantId events) :
    ∃ verdict, (strategy.dispatcher.PositionBlind →
        verdict = strategy.dispatcher.accept strategy.tenantId events) ∧
      Effect strategy.engine strategy.tenantId db
        (store verdict events (db.view strategy.tenantId)) (strategy.storeEvents events db) := by
  simp only [store, storeEvents]
  cases events.head? with
  | none => exact ⟨_, fun _ => rfl, .refl h _⟩
  | some event =>
    simp only [byStreamId_view, getOne_map]
    cases hfound : getOne (strategy.byStreamId event.streamId db) with
    | error e => exact ⟨_, fun _ => rfl, .refl h _⟩
    | ok row =>
      obtain ⟨hrow, ht⟩ := found_of_getOne hfound
      simp only [Except.map, ← hapart.uuidsFree]
      rw [show (db.viewOf row).key = row.key from rfl]
      set added := db.addEvents strategy.engine row.id (events.map EventBody.ofRaw)
      refine ⟨strategy.dispatcher.dispatch (recordsOf strategy.tenantId events added.1),
        fun blind => dispatch_added blind _ _ _ _ _, ?_⟩
      cases uuidsFree (events.map .ofRaw) (db.events.map (·.body)) with
      | false => exact .refl h _
      | true =>
        obtain ⟨hsound, hview⟩ := outbox_view (sound_addEvents h hrow (events.map .ofRaw))
          strategy.outbox (recordsOf strategy.tenantId events added.1)
        obtain ⟨hown, hother⟩ := view_addEvents h hrow (events.map .ofRaw)
        refine ⟨rfl, hsound, ?_, fun u hu => ?_⟩
        · exact (hview _).trans (ht ▸ hown)
        · exact (hview u).trans (hother u (ht ▸ hu))

variable (strategy) in
theorem insertEvents_effect (h : db.Sound strategy.engine) (streamId : StreamId)
    (versioning : Versioning) {events : List RawEvent}
    (hapart : EventsApart db strategy.tenantId events) :
    ∃ verdict, (strategy.dispatcher.PositionBlind →
        verdict = strategy.dispatcher.accept strategy.tenantId events) ∧
      Effect strategy.engine strategy.tenantId db
        (insert verdict streamId versioning events (db.view strategy.tenantId))
        (strategy.insertEvents streamId versioning events db) := by
  obtain ⟨heffect, hevents, hrows⟩ := ensureStream_spec h streamId versioning
  simp only [insert, insertEvents]
  revert heffect hevents hrows
  generalize strategy.ensureStream streamId versioning db = r
  generalize ensure streamId versioning (db.view strategy.tenantId) = own
  obtain ⟨answer, db'⟩ := r
  obtain ⟨ownAnswer, streams⟩ := own
  rintro ⟨rfl, hsound, rfl, hothers⟩ hevents hrows
  cases answer with
  | error e => exact ⟨_, fun _ => rfl, rfl, hsound, rfl, hothers⟩
  | ok u =>
    obtain ⟨verdict, hverdict, hstored⟩ := storeEvents_effect hsound (hapart.mono hevents hrows)
    exact ⟨verdict, hverdict, hstored.answer, hstored.sound, hstored.view,
      fun u hu => (hstored.others u hu).trans (hothers u hu)⟩

/-- The tables without a snapshot that is saved again. -/
theorem viewOf_dropSnapshot (uuid : Uuid) (row : StreamRow) :
    Database.viewOf { db with snapshots := db.snapshots.filter fun x => x.body.uuid ≠ uuid } row =
      { db.viewOf row with
        snapshots := (db.viewOf row).snapshots.filter fun body => body.uuid ≠ uuid } := by
  have hcomm : ((db.snapshots.filter fun x => x.body.uuid ≠ uuid).filter
      fun x => x.dbStreamId = row.id) =
        (db.snapshots.filter fun x => x.dbStreamId = row.id).filter
          fun x => x.body.uuid ≠ uuid := by
    rw [List.filter_filter, List.filter_filter]
    apply List.filter_congr
    intro x _
    rw [Bool.and_comm]
  simp only [Database.viewOf, Database.snapshotsOf, Database.eventsOf, hcomm, List.filter_map]
  rfl

variable (strategy) in
theorem saveSnapshot_effect (h : db.Sound strategy.engine) {raw : RawEvent}
    (hapart : Apart db (strategy.tenantId, .snapshot raw)) :
    Effect strategy.engine strategy.tenantId db (snapshot raw (db.view strategy.tenantId))
      (strategy.saveSnapshot raw db) := by
  simp only [snapshot, saveSnapshot, byStreamId_view, getOne_map]
  cases hfound : getOne (strategy.byStreamId raw.streamId db) with
  | error e => exact .refl h _
  | ok row =>
    obtain ⟨hrow, ht⟩ := found_of_getOne hfound
    simp only [Except.map]
    rw [show (db.viewOf row).key = row.key from rfl]
    split
    · exact .refl h _
    · set dropped : Database :=
        { db with snapshots := db.snapshots.filter fun x => x.body.uuid ≠ raw.uuid } with hdropped
      have hview : ∀ u, dropped.view u = (db.view u).map fun v =>
          { v with snapshots := v.snapshots.filter fun body => body.uuid ≠ raw.uuid } := by
        intro u
        simp only [Database.view, List.map_map]
        apply List.map_congr_left
        intro r _
        exact viewOf_dropSnapshot raw.uuid r
      have hother : ∀ u, u ≠ strategy.tenantId → dropped.view u = db.view u := by
        intro u hu
        rw [hview u]
        refine (List.map_congr_left fun v hv => ?_).trans (List.map_id _)
        have hkept : (v.snapshots.filter fun body => body.uuid ≠ raw.uuid) = v.snapshots := by
          apply List.filter_eq_self.2
          intro body hbody
          simpa using hapart u hu v hv body hbody
        rw [hkept]
        rfl
      have hsound : dropped.Sound strategy.engine :=
        ⟨h.ids, h.bounded, h.keys, h.events, fun held hheld =>
          h.snapshots held (List.mem_filter.1 hheld).1⟩
      have hsame : (dropped.addSnapshot row.id (.ofRaw raw)).streams = dropped.streams := rfl
      have hf : ∀ r ∈ dropped.streams, (dropped.addSnapshot row.id (.ofRaw raw)).viewOf r =
          if r.id = row.id then (dropped.viewOf r).addSnapshot (.ofRaw raw)
          else dropped.viewOf r := fun r _ => viewOf_addSnapshot _ _ r
      refine ⟨rfl, sound_addSnapshot hsound hrow _, ?_, fun u hu => ?_⟩
      · rw [← ht, view_modify hsound hrow hsame hf, hview]
      · rw [view_modify_other hsound hrow hsame hf (ht ▸ hu), hother u hu]

variable (strategy) in
theorem deleteStream_effect (h : db.Sound strategy.engine) (streamId : StreamId) :
    Effect strategy.engine strategy.tenantId db (delete streamId (db.view strategy.tenantId))
      (strategy.deleteStream streamId db) := by
  set hit := fun row : StreamRow => row.addressed streamId && row.tenantId = strategy.tenantId
    with hhit
  have hbelongs : ∀ id, ((db.deleteEvents hit).deleteSnapshots hit).belongs hit id =
      db.belongs hit id := fun _ => rfl
  simp only [delete, deleteStream, ← hhit]
  set deleted := ((db.deleteEvents hit).deleteSnapshots hit).deleteStreams hit
  have hsame : deleted.streams = db.streams.filter fun row => !hit row := rfl
  have hkept : ∀ r ∈ db.streams, hit r = false → deleted.viewOf r = db.viewOf r := fun r hr hr' =>
    congrArg₂ (StreamView.mk r.toStreamHead) (eventsOf_deleteEvents h hr hr')
      (snapshotsOf_deleteSnapshots h hr hr')
  refine ⟨rfl, ?_, view_delete hsame hkept fun r _ hrt => by simp [hhit, hrt], fun u hu =>
    view_delete_other hsame hkept fun r _ hrt => by simp [hhit, hrt, hu]⟩
  apply sound_delete h hsame rfl _ rfl
  intro held hheld
  obtain ⟨hmem, hmiss⟩ := List.mem_filter.1 hheld
  rw [Bool.not_eq_true'] at hmiss
  exact ⟨hmem, .inl hmiss⟩

end Steps

section Backend
open Runs Tenants
variable (engine : Engine) (dispatchers : TenantId → Dispatcher E) (outbox : Option OutboxStrategy)
  (atomic : Bool)

/-- The strategy of each tenant on one database. Requests are in transactions of their own
when `atomic` is set, and otherwise every statement stays. -/
def strategies (u : TenantId) : StorageStrategy Database :=
  let mine := (DjangoStorageStrategy.mk engine (dispatchers u) outbox u).storageStrategy
  if atomic then mine.transactional Database.rollback else mine

/-- The strategy that a tenant's view amounts to. -/
def ownStrategy (t : TenantId) : StorageStrategy Streams :=
  let own := strategy engine ((dispatchers t).accept t)
  if atomic then own.transactional fun before _ => before else own

/-- What a request does to the answer, the tables, and the views. -/
theorem requestStep_effect (blind : ∀ u, (dispatchers u).PositionBlind) {db : Database}
    (h : db.Sound engine) {u : TenantId} {r : Request} (hapart : Apart db (u, r)) :
    Effect engine u db ((ownStrategy engine dispatchers atomic u).handle (db.view u) r)
      (requestStep (strategies engine dispatchers outbox atomic) db (u, r)) := by
  let mine : DjangoStorageStrategy E := ⟨engine, dispatchers u, outbox, u⟩
  cases r with
  | fetch streamId start stop =>
    have hfetch : mine.fetchEvents streamId start stop db =
        fetch engine streamId start stop (db.view u) := fetchEvents_view streamId start stop
    cases atomic with
    | false => exact ⟨hfetch, h, rfl, fun _ _ => rfl⟩
    | true => exact ⟨hfetch, h, rfl, fun _ _ => rfl⟩
  | insert streamId versioning events =>
    obtain ⟨verdict, hverdict, heffect⟩ := insertEvents_effect mine h streamId versioning hapart
    rw [hverdict (blind u)] at heffect
    cases atomic with
    | false => exact heffect.map _
    | true => exact (heffect.undo h).map _
  | snapshot raw =>
    have heffect : Effect engine u db _ (mine.saveSnapshot raw db) :=
      saveSnapshot_effect mine h hapart
    cases atomic with
    | false => exact heffect.map _
    | true => exact (heffect.undo h).map _
  | delete streamId =>
    have heffect : Effect engine u db _ (mine.deleteStream streamId db) :=
      deleteStream_effect mine h streamId
    cases atomic with
    | false => exact heffect.map _
    | true => exact (heffect.undo h).map _

theorem unwinding (blind : ∀ u, (dispatchers u).PositionBlind) (t : TenantId) :
    Unwinding (requestStep (strategies engine dispatchers outbox atomic))
      (fun db i => i.2.Proper ∧ Apart db i) (Database.Sound engine) t (Database.view t)
      (ownStrategy engine dispatchers atomic t).handle where
  keep _ _ hs hi := (requestStep_effect engine dispatchers outbox atomic blind hs hi.2).sound
  answer _ _ hs hi := (requestStep_effect engine dispatchers outbox atomic blind hs hi.2).answer
  own _ _ hs hi := (requestStep_effect engine dispatchers outbox atomic blind hs hi.2).view
  other _ _ _ hu hs hi :=
    (requestStep_effect engine dispatchers outbox atomic blind hs hi.2).others t (Ne.symm hu)

/-- The event store of each tenant. -/
def stores (u : TenantId) : EventStore E Database :=
  ⟨strategies engine dispatchers outbox atomic u, (dispatchers u).serde⟩

/-- The event store that a tenant's view amounts to. -/
def ownStore (t : TenantId) : EventStore E Streams :=
  ⟨ownStrategy engine dispatchers atomic t, (dispatchers t).serde⟩

theorem unwinding_stores (blind : ∀ u, (dispatchers u).PositionBlind) (t : TenantId) :
    Unwinding (callStep (stores engine dispatchers outbox atomic))
      (Requesting (fun u => (dispatchers u).serde) Apart) (Database.Sound engine) t
      (Database.view t) (ownStore engine dispatchers atomic t).call :=
  unwinding_calls (unwinding engine dispatchers outbox atomic blind t)

end Backend

end EventSourcery.Sql.DjangoViews
