import EventSourcery.Insertions

/-!
# Deletion of SQLAlchemy streams

`delete_stream` deletes the events of a stream and its row, and not its snapshots. A database
that checks foreign keys refuses to; one that does not keeps the snapshots, and gives them to a
later stream that gets the id of the row again.
-/
namespace EventSourcery.Sql.SqlAlchemyDeletion
open EventStore (request request_delete Answer)
open Runs Tenants SqlAlchemyStorageStrategy

variable {E : Type}

/-- The database without a stream, its events and its snapshots. -/
def without (streamId : StreamId) (db : Database) : Database :=
  let hit := fun row : StreamRow => row.key = columns streamId
  { db with
    streams := db.streams.filter fun row => !hit row
    events := db.events.filter fun event => !db.belongs hit event.dbStreamId
    snapshots := db.snapshots.filter fun snapshot => !db.belongs hit snapshot.dbStreamId }

section Calls
variable (strategy : SqlAlchemyStorageStrategy E)

def store : EventStore E Database := ⟨strategy.storageStrategy, strategy.dispatcher.serde⟩

/-- A call, and whether the caller rolls back what it has done when it raises. -/
def callStep (db : Database) (i : Call E × Bool) : Answer E × Database :=
  let r := (store strategy).call db i.1
  match r.1 with
  | .error e => (.error e, if i.2 then db.rollback r.2 else r.2)
  | .ok events => (.ok events, r.2)

/-- An append, or a call that saves a snapshot. -/
def Saves : Call E → Prop
  | .append _ _ _ _ => True
  | .appendEvents _ _ _ _ => True
  | .saveSnapshot _ _ => True
  | _ => False

/-- What a call asks to save. -/
def savedBy (call : Call E) : List EventBody :=
  match request strategy.dispatcher.serde call with
  | .ok (.insert _ _ events) => events.map EventBody.ofRaw
  | .ok (.snapshot raw) => [EventBody.ofRaw raw]
  | _ => []

/-- The deletion succeeds, takes all of the stream and nothing else, and what is loaded from the
stream after later calls are bodies that these saved. -/
structure DeletesCompletely (streamId : StreamId) (db : Database) : Prop where
  deleted : strategy.deleteStream streamId db = (.ok (), without streamId db)
  later : ∀ calls : List (Call E × Bool), (∀ i ∈ calls, Saves i.1) → ∀ start stop raws,
    strategy.fetchEvents streamId start stop
        (run (callStep strategy) (strategy.deleteStream streamId db).2 calls).2 = .ok raws →
      ∀ raw ∈ raws, ∃ i ∈ calls, EventBody.ofRaw raw ∈ savedBy strategy i.1

/-- A stream that its deletion takes all of: it has no snapshots, and no other name than the one
that is given, if one is. -/
def Unsnapshotted (streamId : StreamId) (db : Database) : Prop :=
  ∀ row ∈ db.streams, row.key = columns streamId →
    row.compares streamId = true ∧ db.snapshotsOf row.id = []

instance (streamId : StreamId) (db : Database) : Decidable (Unsnapshotted streamId db) :=
  inferInstanceAs (Decidable (∀ row ∈ db.streams, _ → _))

end Calls

/-- The tables of one tenant whose snapshots all belong to streams, with what is kept of the
events and snapshots of the stream with the given columns. -/
structure Held (engine : Engine) (t : TenantId) (key : Uuid × String) (saved : EventBody → Prop)
    (db : Database) : Prop where
  sound : db.Sound engine
  tenants : ∀ row ∈ db.streams, row.tenantId = t
  attached : ∀ snapshot ∈ db.snapshots, ∃ row ∈ db.streams, row.id = snapshot.dbStreamId
  events : ∀ row ∈ db.streams, row.key = key → ∀ body ∈ db.eventsOf row.id, saved body
  snapshots : ∀ row ∈ db.streams, row.key = key → ∀ body ∈ db.snapshotsOf row.id, saved body

section Statements
variable {engine : Engine} {t : TenantId} {key : Uuid × String} {saved saved' : EventBody → Prop}
  {db : Database}

theorem held_empty : Held engine t key saved {} :=
  ⟨Database.sound_empty engine, by simp, by simp, by simp, by simp⟩

theorem Held.mono (h : Held engine t key saved db) (hsaved : ∀ body, saved body → saved' body) :
    Held engine t key saved' db :=
  ⟨h.sound, h.tenants, h.attached, fun row hrow hkey body hbody =>
    hsaved body (h.events row hrow hkey body hbody), fun row hrow hkey body hbody =>
    hsaved body (h.snapshots row hrow hkey body hbody)⟩

theorem Held.rollback (h : Held engine t key saved db) (after : Database) :
    Held engine t key saved (db.rollback after) :=
  ⟨sound_rollback h.sound after, h.tenants, h.attached, h.events, h.snapshots⟩

/-- A new stream is empty, since its id is not that of another. -/
theorem Held.insertStream (h : Held engine t key saved db) {head : StreamHead}
    (hfree : ∀ r ∈ db.streams, r.tenantId = t → r.key ≠ head.key) :
    Held engine t key saved (db.insertStream engine head t) := by
  have hsound := sound_insertStream h.sound head t hfree
  have hnew := viewOf_new h.sound head t
  refine ⟨hsound, fun row hrow => ?_, fun snapshot hsnapshot => ?_,
    fun row hrow hkey body hbody => ?_, fun row hrow hkey body hbody => ?_⟩
  · rcases List.mem_append.1 hrow with hrow | hrow
    · exact h.tenants row hrow
    · rw [List.mem_singleton.1 hrow]
  · obtain ⟨row, hrow, hid⟩ := h.attached snapshot hsnapshot
    exact ⟨row, List.mem_append_left _ hrow, hid⟩
  · rcases List.mem_append.1 hrow with hrow | hrow
    · exact h.events row hrow hkey body hbody
    · have hnone := congrArg StreamView.events hnew
      rw [List.mem_singleton.1 hrow] at hbody
      change body ∈ db.eventsOf _ at hbody
      change db.eventsOf _ = [] at hnone
      rw [hnone] at hbody
      cases hbody
  · rcases List.mem_append.1 hrow with hrow | hrow
    · exact h.snapshots row hrow hkey body hbody
    · have hnone := congrArg StreamView.snapshots hnew
      rw [List.mem_singleton.1 hrow] at hbody
      change body ∈ db.snapshotsOf _ at hbody
      change db.snapshotsOf _ = [] at hnone
      rw [hnone] at hbody
      cases hbody

theorem Held.setVersion (h : Held engine t key saved db) (hit : StreamRow → Bool)
    (version : Option ℤ) : Held engine t key saved (db.setVersion hit version) := by
  have hrow : ∀ row ∈ (db.setVersion hit version).streams, ∃ old ∈ db.streams,
      row.id = old.id ∧ row.tenantId = old.tenantId ∧ row.key = old.key := by
    intro row hrow
    obtain ⟨old, hold, rfl⟩ := List.mem_map.1 hrow
    exact ⟨old, hold, SqlAlchemyViews.columns_bumped hit version old⟩
  refine ⟨sound_setVersion h.sound hit version, fun row hmem => ?_, fun snapshot hsnapshot => ?_,
    fun row hmem hkey body hbody => ?_, fun row hmem hkey body hbody => ?_⟩
  · obtain ⟨old, hold, -, htenant, -⟩ := hrow row hmem
    rw [htenant, h.tenants old hold]
  · obtain ⟨row, hmem, hid⟩ := h.attached snapshot hsnapshot
    exact ⟨_, List.mem_map_of_mem hmem, by
      rw [(SqlAlchemyViews.columns_bumped hit version row).1, hid]⟩
  · obtain ⟨old, hold, hid, -, hsame⟩ := hrow row hmem
    exact h.events old hold (hsame ▸ hkey) body (hid ▸ hbody)
  · obtain ⟨old, hold, hid, -, hsame⟩ := hrow row hmem
    exact h.snapshots old hold (hsame ▸ hkey) body (hid ▸ hbody)

theorem Held.addEvents (h : Held engine t key saved db) {row : StreamRow} (hrow : row ∈ db.streams)
    {bodies : List EventBody} (hbodies : ∀ body ∈ bodies, saved body) :
    Held engine t key saved (db.addEvents engine row.id bodies).2 := by
  have hview := fun r => @viewOf_addEvents db engine row.id bodies r
  refine ⟨sound_addEvents h.sound hrow bodies, h.tenants, h.attached,
    fun r hr hkey body hbody => ?_, h.snapshots⟩
  have hevents := congrArg StreamView.events (hview r)
  change (db.addEvents engine row.id bodies).2.eventsOf r.id = _ at hevents
  rw [hevents] at hbody
  split at hbody
  · rcases List.mem_append.1 hbody with hbody | hbody
    · exact h.events r hr hkey body hbody
    · exact hbodies body hbody
  · exact h.events r hr hkey body hbody

theorem Held.addSnapshot (h : Held engine t key saved db) {row : StreamRow}
    (hrow : row ∈ db.streams) {body : EventBody} (hbody : saved body) :
    Held engine t key saved (db.addSnapshot row.id body) := by
  have hview := fun r => @viewOf_addSnapshot db row.id body r
  refine ⟨sound_addSnapshot h.sound hrow body, h.tenants, fun snapshot hsnapshot => ?_, h.events,
    fun r hr hkey other hother => ?_⟩
  · rcases List.mem_append.1 hsnapshot with hsnapshot | hsnapshot
    · exact h.attached snapshot hsnapshot
    · rw [List.mem_singleton.1 hsnapshot]
      exact ⟨row, hrow, rfl⟩
  · have hsnapshots := congrArg StreamView.snapshots (hview r)
    change (db.addSnapshot row.id body).snapshotsOf r.id = _ at hsnapshots
    rw [hsnapshots] at hother
    split at hother
    · rcases List.mem_append.1 hother with hother | hother
      · exact h.snapshots r hr hkey other hother
      · rwa [List.mem_singleton.1 hother]
    · exact h.snapshots r hr hkey other hother

theorem Held.putIntoOutbox (h : Held engine t key saved db) (outbox : Option OutboxStrategy)
    (records : List RecordedRaw) :
    Held engine t key saved (outbox.elim db (·.putIntoOutbox records db)) := by
  have hsound := (outbox_view h.sound outbox records).1
  cases outbox with
  | none => exact h
  | some outbox => exact ⟨hsound, h.tenants, h.attached, h.events, h.snapshots⟩

end Statements

section Steps
variable {strategy : SqlAlchemyStorageStrategy E} {key : Uuid × String} {saved : EventBody → Prop}
  {db : Database} {streamId : StreamId} {versioning : Versioning} {events : List RawEvent}

theorem Held.openStream (h : Held strategy.engine strategy.tenantId key saved db)
    (initialVersion : Option ℤ) :
    Held strategy.engine strategy.tenantId key saved
      (strategy.openStream streamId initialVersion db) := by
  unfold SqlAlchemyStorageStrategy.openStream insertOrNothing
  split
  · split
    · exact h
    · rename_i hclash
      refine h.insertStream fun r hr ht hkey => hclash (List.any_eq_true.2 ⟨r, hr, ?_⟩)
      simp [ht, StreamHead.clashes_of_key hkey]
  · exact h

theorem Held.ensureStream (h : Held strategy.engine strategy.tenantId key saved db) :
    Held strategy.engine strategy.tenantId key saved
      (strategy.ensureStream streamId versioning db).2 := by
  have hopen := @Held.openStream _ strategy key saved db streamId h versioning.initialVersion
  rcases @SqlAlchemyViews.ensureStream_tables _ strategy streamId versioning db with
    hsame | ⟨hit, hbumped⟩
  · rw [hsame]
    exact hopen
  · rw [hbumped]
    exact hopen.setVersion hit _

theorem Held.storeEvents (h : Held strategy.engine strategy.tenantId key saved db)
    {stream : StreamRow} (hstream : ∃ row ∈ db.streams, row.id = stream.id)
    (hsaved : ∀ raw ∈ events, saved (.ofRaw raw)) :
    Held strategy.engine strategy.tenantId key saved (strategy.storeEvents stream events db).2 := by
  obtain ⟨row, hrow, hid⟩ := hstream
  have hbodies : ∀ body ∈ events.map EventBody.ofRaw, saved body := by
    intro body hbody
    obtain ⟨raw, hraw, rfl⟩ := List.mem_map.1 hbody
    exact hsaved raw hraw
  unfold SqlAlchemyStorageStrategy.storeEvents
  dsimp only
  split
  · rw [← hid]
    exact (h.addEvents hrow hbodies).putIntoOutbox _ _
  · exact h

theorem Held.insertEvents (h : Held strategy.engine strategy.tenantId key saved db)
    (hsaved : ∀ raw ∈ events, saved (.ofRaw raw)) :
    Held strategy.engine strategy.tenantId key saved
      (strategy.insertEvents streamId versioning events db).2 := by
  have hheld := @Held.ensureStream _ strategy key saved db streamId versioning h
  unfold SqlAlchemyStorageStrategy.insertEvents
  split
  · rename_i hensured
    rw [hensured] at hheld
    exact hheld
  · rename_i stream after hensured
    obtain ⟨row, hrow, hid, -⟩ := SqlAlchemyViews.ensureStream_row hensured
    rw [hensured] at hheld
    exact hheld.storeEvents ⟨row, hrow, hid⟩ hsaved

theorem Held.saveSnapshot {engine : Engine} {t : TenantId} (h : Held engine t key saved db)
    {raw : RawEvent} (hsaved : saved (.ofRaw raw)) :
    Held engine t key saved (saveSnapshot raw db).2 := by
  unfold SqlAlchemyStorageStrategy.saveSnapshot
  split
  · exact h
  · rename_i stream hstream
    have hmem : stream ∈ db.streams :=
      (List.mem_filter.1 (hstream ▸ List.mem_singleton_self stream)).1
    split
    · exact h
    · exact h.addSnapshot hmem hsaved
  · exact h

/-- A call that saves keeps what is held, with what it saves. -/
theorem Held.step (h : Held strategy.engine strategy.tenantId key saved db)
    {i : Call E × Bool} (hsaves : Saves i.1) (hsaved : ∀ body ∈ savedBy strategy i.1, saved body) :
    Held strategy.engine strategy.tenantId key saved (callStep strategy db i).2 := by
  have hcall : Held strategy.engine strategy.tenantId key saved
      ((store strategy).call db i.1).2 := by
    rw [EventStore.call_eq]
    cases hr : request (store strategy).serde i.1 with
    | error e => exact h
    | ok r =>
      have hrequest : request strategy.dispatcher.serde i.1 = .ok r := hr
      rw [savedBy, hrequest] at hsaved
      cases r with
      | fetch streamId start stop => exact h
      | insert streamId versioning events =>
        exact h.insertEvents fun raw hraw => hsaved _ (List.mem_map_of_mem hraw)
      | snapshot raw => exact h.saveSnapshot (hsaved _ (List.mem_singleton_self _))
      | delete streamId =>
        rw [request_delete hr] at hsaves
        cases hsaves
  unfold callStep
  dsimp only
  split
  · split
    · exact h.rollback _
    · exact hcall
  · exact hcall

end Steps

section Deletion
variable {strategy : SqlAlchemyStorageStrategy E} {key : Uuid × String} {saved : EventBody → Prop}
  {db : Database} {streamId : StreamId}

theorem Held.run {calls : List (Call E × Bool)}
    (h : Held strategy.engine strategy.tenantId key saved db)
    (hsaves : ∀ i ∈ calls, Saves i.1 ∧ ∀ body ∈ savedBy strategy i.1, saved body) :
    Held strategy.engine strategy.tenantId key saved (run (callStep strategy) db calls).2 :=
  run_keeps (fun _ _ hi h => h.step hi.1 hi.2) h hsaves

/-- A row of the database that a deletion leaves. -/
theorem mem_without {row : StreamRow} :
    row ∈ (without streamId db).streams ↔ row ∈ db.streams ∧ row.key ≠ columns streamId := by
  simp [without]

/-- What is left after a deletion, of which nothing is the stream's. -/
theorem Held.without (h : Held strategy.engine strategy.tenantId key saved db) :
    Held strategy.engine strategy.tenantId (columns streamId) (fun _ => False)
      (without streamId db) := by
  have hkept : ∀ snapshot ∈ (SqlAlchemyDeletion.without streamId db).snapshots,
      snapshot ∈ db.snapshots ∧
        db.belongs (fun row => row.key = columns streamId) snapshot.dbStreamId = false := by
    intro snapshot hsnapshot
    obtain ⟨hmem, hmiss⟩ := List.mem_filter.1 hsnapshot
    exact ⟨hmem, by simpa using hmiss⟩
  refine ⟨sound_delete h.sound rfl rfl (fun snapshot hsnapshot => ?_) rfl, fun row hrow => ?_,
    fun snapshot hsnapshot => ?_, fun row hrow hkey => ?_, fun row hrow hkey => ?_⟩
  · exact ⟨(hkept snapshot hsnapshot).1, .inl (hkept snapshot hsnapshot).2⟩
  · exact h.tenants row (mem_without.1 hrow).1
  · obtain ⟨hmem, hmiss⟩ := hkept snapshot hsnapshot
    obtain ⟨row, hrow, hid⟩ := h.attached snapshot hmem
    rw [← hid, belongs_of_mem h.sound _ hrow] at hmiss
    exact ⟨row, mem_without.2 ⟨hrow, by simpa using hmiss⟩, hid⟩
  · exact absurd hkey (mem_without.1 hrow).2
  · exact absurd hkey (mem_without.1 hrow).2

/-- What is loaded of a stream is held of it. -/
theorem Held.fetchEvents
    (h : Held strategy.engine strategy.tenantId (columns streamId) saved db) {start stop : Option ℤ}
    {raws : List RawEvent} (hraws : strategy.fetchEvents streamId start stop db = .ok raws) :
    ∀ raw ∈ raws, saved (.ofRaw raw) := by
  rw [SqlAlchemyViews.fetchEvents_view h.sound.uniqueKeys] at hraws
  cases hraws
  intro raw hraw
  unfold SqlAlchemyViews.fetch at hraw
  split at hraw
  · cases hraw
  · rename_i v rest hv
    obtain ⟨hmem, hcompares⟩ := List.mem_filter.1 (hv ▸ List.mem_cons_self)
    obtain ⟨row, hrow, -, rfl⟩ := mem_view.1 hmem
    have hkey : row.key = columns streamId := columns_of_compares hcompares
    obtain ⟨body, hbody, rfl⟩ := List.mem_map.1 hraw
    rcases mem_fetchRows _ hbody with hbody | hbody
    · exact h.events row hrow hkey body hbody
    · exact h.snapshots row hrow hkey body hbody

theorem belongs_columns
    (hcompares : ∀ row ∈ db.streams, row.key = columns streamId → row.compares streamId = true)
    (id : ℕ) : db.belongs (fun row => row.compares streamId) id =
      db.belongs (fun row => row.key = columns streamId) id := by
  rw [Bool.eq_iff_iff]
  simp only [Database.belongs, List.any_eq_true, Bool.and_eq_true, decide_eq_true_eq]
  constructor
  · rintro ⟨row, hrow, hid, hcompared⟩
    exact ⟨row, hrow, hid, columns_of_compares hcompared⟩
  · rintro ⟨row, hrow, hid, hkey⟩
    exact ⟨row, hrow, hid, hcompares row hrow hkey⟩

/-- A deletion that is complete as to the rows. -/
theorem Held.unsnapshotted (h : Held strategy.engine strategy.tenantId key saved db)
    (hdeleted : strategy.deleteStream streamId db =
      (.ok (), SqlAlchemyDeletion.without streamId db)) : Unsnapshotted streamId db := by
  unfold SqlAlchemyStorageStrategy.deleteStream at hdeleted
  dsimp only at hdeleted
  split at hdeleted
  · cases hdeleted
  · have hdb := (Prod.mk.inj hdeleted).2
    have hstreams : db.streams.filter (fun row => !row.compares streamId) = _ :=
      congrArg Database.streams hdb
    have hsnapshots := congrArg Database.snapshots hdb
    change db.snapshots = _ at hsnapshots
    refine fun row hrow hkey => ⟨?_, ?_⟩
    · by_contra hmiss
      have hleft : row ∈ db.streams.filter fun row => !row.compares streamId :=
        List.mem_filter.2 ⟨hrow, by simpa using hmiss⟩
      rw [hstreams] at hleft
      exact (mem_without.1 hleft).2 hkey
    · rw [Database.snapshotsOf, List.map_eq_nil_iff, List.filter_eq_nil_iff]
      intro snapshot hsnapshot hid
      rw [hsnapshots] at hsnapshot
      have hmiss := (List.mem_filter.1 hsnapshot).2
      rw [of_decide_eq_true hid, belongs_of_mem h.sound _ hrow] at hmiss
      simp [hkey] at hmiss

theorem Unsnapshotted.unattached (hall : Unsnapshotted streamId db) {snapshot : SnapshotRow}
    (hsnapshot : snapshot ∈ db.snapshots) :
    db.belongs (fun row => row.key = columns streamId) snapshot.dbStreamId = false := by
  rw [Bool.eq_false_iff]
  intro hbelongs
  obtain ⟨row, hrow, hmatch⟩ := List.any_eq_true.1 hbelongs
  simp only [Bool.and_eq_true, decide_eq_true_eq] at hmatch
  have hnone := (hall row hrow hmatch.2).2
  rw [Database.snapshotsOf, List.map_eq_nil_iff, List.filter_eq_nil_iff] at hnone
  exact hnone snapshot hsnapshot (by simp [hmatch.1])

theorem Unsnapshotted.deleteStream (hall : Unsnapshotted streamId db) :
    strategy.deleteStream streamId db = (.ok (), SqlAlchemyDeletion.without streamId db) := by
  have hbelongs := belongs_columns fun row hrow hkey => (hall row hrow hkey).1
  have hstreams : db.streams.filter (fun row => !row.compares streamId) =
      db.streams.filter fun row => !decide (row.key = columns streamId) := by
    refine List.filter_congr fun row hrow => ?_
    congr 1
    rw [Bool.eq_iff_iff, decide_eq_true_iff]
    exact ⟨fun hcompared => columns_of_compares hcompared, fun hkey => (hall row hrow hkey).1⟩
  have hsnapshots : db.snapshots.filter (fun snapshot =>
      !db.belongs (fun row => row.key = columns streamId) snapshot.dbStreamId) = db.snapshots :=
    List.filter_eq_self.2 fun snapshot hsnapshot => by simp [hall.unattached hsnapshot]
  have hchecked : (db.snapshots.any fun snapshot =>
      (db.deleteEvents fun row => row.compares streamId).belongs
        (fun row => row.compares streamId) snapshot.dbStreamId) = false := by
    rw [List.any_eq_false]
    intro snapshot hsnapshot
    change ¬ db.belongs (fun row => row.compares streamId) snapshot.dbStreamId = true
    rw [hbelongs, hall.unattached hsnapshot]
    exact Bool.false_ne_true
  unfold SqlAlchemyStorageStrategy.deleteStream
  dsimp only
  change (if strategy.engine.enforcesForeignKeys && db.snapshots.any (fun snapshot =>
      (db.deleteEvents fun row => row.compares streamId).belongs
        (fun row => row.compares streamId) snapshot.dbStreamId) then _ else _) = _
  rw [hchecked, Bool.and_false, if_neg Bool.false_ne_true]
  unfold SqlAlchemyDeletion.without Database.deleteStreams Database.deleteEvents
  simp only [hbelongs, hstreams, hsnapshots]

theorem Held.deleteStream_iff (h : Held strategy.engine strategy.tenantId key saved db) :
    strategy.deleteStream streamId db = (.ok (), SqlAlchemyDeletion.without streamId db) ↔
      Unsnapshotted streamId db := ⟨h.unsnapshotted, Unsnapshotted.deleteStream⟩

/-- In a state that appends and saved snapshots lead to, a deletion is complete if and only if
the stream has no snapshot and goes by no other name. -/
theorem deletes_completely_iff {calls : List (Call E × Bool)} (hsaves : ∀ i ∈ calls, Saves i.1)
    (streamId : StreamId) :
    let db := (Runs.run (callStep strategy) {} calls).2
    DeletesCompletely strategy streamId db ↔ Unsnapshotted streamId db := by
  intro db
  have hheld : Held strategy.engine strategy.tenantId (columns streamId) (fun _ => True) db :=
    held_empty.run fun i hi => ⟨hsaves i hi, fun _ _ => trivial⟩
  constructor
  · exact fun h => hheld.deleteStream_iff.1 h.deleted
  · intro h
    have hdeleted := hheld.deleteStream_iff.2 h
    refine ⟨hdeleted, fun later hlater start stop raws hraws => ?_⟩
    rw [hdeleted] at hraws
    have hafter : Held strategy.engine strategy.tenantId (columns streamId)
        (fun body => ∃ i ∈ later, body ∈ savedBy strategy i.1)
        (Runs.run (callStep strategy) (SqlAlchemyDeletion.without streamId db) later).2 :=
      (hheld.without.mono fun _ => False.elim).run fun i hi =>
        ⟨hlater i hi, fun body hbody => ⟨i, hi, hbody⟩⟩
    exact hafter.fetchEvents hraws

end Deletion

section Example

def shop (engine : Engine) : SqlAlchemyStorageStrategy Unit :=
  { engine, dispatcher := plainDispatcher, outbox := none, tenantId := "" }

def placed (uuid : Uuid) : Call Unit × Bool :=
  (.appendEvents ⟨(), uuid, 0⟩ [] order (.version 0), true)

/-- A snapshot of the order at version 1. -/
def saved : Call Unit × Bool := (.saveSnapshot order (.wrap () 2 0 (some 1)), true)

/-- The tables after an order was placed and its snapshot saved. -/
def ordered (engine : Engine) : Database :=
  (run (callStep (shop engine)) {} [placed 1, saved]).2

theorem deletes_completely_iff_placed : DeletesCompletely (shop postgres) order
    (run (callStep (shop postgres)) {} [placed 1]).2 :=
  (@deletes_completely_iff _ _ [placed 1] (by simp [placed, Saves]) order).2 (by decide)

/-- The snapshot of an order keeps its deletion from happening, or is loaded with the next order
of the same id. -/
theorem deletion_keeps_snapshot :
    (((shop postgres).deleteStream order (ordered postgres)).1 = .error .integrityError ∧
      ¬ DeletesCompletely (shop postgres) order (ordered postgres)) ∧
    ((shop sqlite).fetchEvents order none none (run (callStep (shop sqlite))
        ((shop sqlite).deleteStream order (ordered sqlite)).2 [placed 3]).2).map
      (List.map (·.uuid)) = .ok [2] ∧
      ¬ DeletesCompletely (shop sqlite) order (ordered sqlite) := by
  refine ⟨⟨by decide, fun h => ?_⟩, by decide, fun h => ?_⟩
  · have hok := congrArg Prod.fst h.deleted
    exact absurd hok (by decide)
  · have hsnapshots := congrArg (fun r => r.2.snapshots.length) h.deleted
    exact absurd hsnapshots (by decide)

end Example

end EventSourcery.Sql.SqlAlchemyDeletion
