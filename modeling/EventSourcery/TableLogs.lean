import EventSourcery.SqlStores
import EventSourcery.Subscriptions
import Mathlib.Data.List.MinMax

/-!
# The event tables as a log

Subscriptions read the events in the order of their ids, each with the stream that it belongs to.
An append adds the records of its events at the end, a deletion takes those of its streams out, and
no other request is seen. A database that returns to the ids of deleted rows may give one to a
record a second time; nothing else lets the next id go back.
-/
namespace EventSourcery.Sql
open Subscriptions (Entry GetBatch)

namespace Database

/-- The events joined with their streams, as the queries of subscriptions select them. -/
def entries (db : Database) : List Entry :=
  (SqlAlchemyStorageStrategy.joined (·.dbStreamId) db.events db).map fun x =>
    { event := x.2, stream := x.1 }

def records (db : Database) : List RecordedRaw := db.entries.map Entry.toRecordedRaw

/-- The id of the next event. -/
def nextEventId (engine : Engine) (db : Database) : ℕ :=
  engine.nextId (db.events.map (·.id)) db.eventSeq

/-- Streams have different ids, every event belongs to one of them, and the ids of events
increase up to the last one that was given. -/
structure Sequenced (db : Database) : Prop where
  ids : (db.streams.map (·.id)).Nodup
  streamSeq : ∀ row ∈ db.streams, row.id ≤ db.streamSeq
  owned : ∀ event ∈ db.events, ∃ row ∈ db.streams, row.id = event.dbStreamId
  increasing : db.events.Pairwise fun x y => x.id < y.id
  eventSeq : ∀ event ∈ db.events, event.id ≤ db.eventSeq

theorem sequenced_empty : Sequenced {} := ⟨by simp, by simp, by simp, by simp, by simp⟩

end Database

/-- `func.max(id)`, or 0 -/
def SqlAlchemyStorageStrategy.currentPosition (db : Database) : Position :=
  ((db.events.map (·.id)).max?.getD 0 : ℕ)

/-- `Event.objects.last()` is the first event from the largest id down. -/
def DjangoStorageStrategy.currentPosition (db : Database) : Position :=
  match (db.events.insertionSort fun x y => y.id ≤ x.id).head? with
  | none => 0
  | some event => event.id

def SqlStore.currentPosition {E : Type} : SqlStore E → Database → Position
  | sqlAlchemy _ => SqlAlchemyStorageStrategy.currentPosition
  | django _ => DjangoStorageStrategy.currentPosition

/-- `scoped_for_tenant` -/
def SqlStore.scopedForTenant {E : Type} (t : TenantId) : SqlStore E → SqlStore E
  | sqlAlchemy strategy => sqlAlchemy { strategy with tenantId := t }
  | django strategy => django { strategy with tenantId := t }

@[simp] theorem SqlStore.scopedForTenant_tenantId {E : Type} (t : TenantId) (store : SqlStore E) :
    (store.scopedForTenant t).tenantId = t := by cases store <;> rfl

@[simp] theorem SqlStore.scopedForTenant_engine {E : Type} (t : TenantId) (store : SqlStore E) :
    (store.scopedForTenant t).engine = store.engine := by cases store <;> rfl

section Ids
variable {engine : Engine} {ids ids' : List ℕ} {seq seq' : ℕ}

theorem Engine.lt_nextId (engine : Engine) (h : ∀ id ∈ ids, id ≤ seq) {id : ℕ} (hid : id ∈ ids) :
    id < engine.nextId ids seq := by
  unfold nextId
  split
  · exact Nat.lt_succ_of_le (List.le_max_of_le hid le_rfl)
  · exact Nat.lt_succ_of_le (h id hid)

theorem Engine.nextId_mono (engine : Engine) (hids : ids ⊆ ids') (hseq : seq ≤ seq') :
    engine.nextId ids seq ≤ engine.nextId ids' seq' := by
  unfold nextId
  split
  · have hmax : ids.foldr max 0 ≤ ids'.foldr max 0 :=
      List.max_le_of_forall_le ids _ fun id hid => List.le_max_of_le (hids hid) le_rfl
    omega
  · omega

/-- Without reuse an id comes after all that were given. -/
theorem Engine.nextId_of_sequence (hreuses : engine.reusesIds = false) (ids : List ℕ) (seq : ℕ) :
    engine.nextId ids seq = seq + 1 := by
  simp [nextId, hreuses]

end Ids

section Positions
variable {E : Type} {engine : Engine} {db : Database}

/-- Both stores are at the largest id of an event, or at 0 when there is none. -/
theorem SqlStore.currentPosition_spec (store : SqlStore E) (db : Database) :
    (∀ event ∈ db.events, (event.id : ℤ) ≤ store.currentPosition db) ∧
      (store.currentPosition db = 0 ∨
        ∃ event ∈ db.events, store.currentPosition db = event.id) := by
  cases store with
  | sqlAlchemy strategy =>
    have hposition : (sqlAlchemy strategy).currentPosition db =
        ((db.events.map (·.id)).max?.getD 0 : ℕ) := rfl
    rw [hposition]
    cases hmax : (db.events.map (·.id)).max? with
    | none =>
      have hnone : db.events = [] := by simpa using hmax
      simp [hnone]
    | some id =>
      obtain ⟨hmem, hle⟩ := List.max?_eq_some_iff.1 hmax
      obtain ⟨event, hevent, rfl⟩ := List.mem_map.1 hmem
      simp only [Option.getD_some, Nat.cast_le, Nat.cast_inj]
      exact ⟨fun other hother => hle _ (List.mem_map_of_mem hother), .inr ⟨event, hevent, rfl⟩⟩
  | django strategy =>
    have hposition : (django strategy).currentPosition db =
        ((db.events.insertionSort fun x y => y.id ≤ x.id).head?.elim 0 (·.id) : ℕ) := by
      change DjangoStorageStrategy.currentPosition db = _
      unfold DjangoStorageStrategy.currentPosition
      cases (db.events.insertionSort fun x y => y.id ≤ x.id).head? <;> rfl
    rw [hposition]
    have hsorted := List.pairwise_insertionSort (fun x y : EventRow => y.id ≤ x.id) db.events
    cases hlatest : db.events.insertionSort fun x y => y.id ≤ x.id with
    | nil =>
      have hnone : db.events = [] := by
        rw [← List.length_eq_zero_iff, ← List.length_insertionSort (fun x y => y.id ≤ x.id),
          hlatest, List.length_nil]
      simp [hnone]
    | cons event later =>
      rw [hlatest, List.pairwise_cons] at hsorted
      have hmem : ∀ other, other ∈ db.events ↔ other ∈ event :: later := fun other => by
        rw [← hlatest, List.mem_insertionSort]
      simp only [List.head?_cons, Option.elim_some, Nat.cast_le, Nat.cast_inj]
      refine ⟨fun other hother => ?_, .inr ⟨event, (hmem event).2 List.mem_cons_self, rfl⟩⟩
      rcases List.mem_cons.1 ((hmem other).1 hother) with rfl | hlater
      · exact le_rfl
      · exact hsorted.1 other hlater

namespace Database.Sequenced
variable (h : db.Sequenced)
include h

theorem lt_nextEventId (engine : Engine) {event : EventRow} (hevent : event ∈ db.events) :
    event.id < db.nextEventId engine := by
  apply engine.lt_nextId _ (List.mem_map_of_mem hevent)
  intro id hid
  obtain ⟨other, hother, rfl⟩ := List.mem_map.1 hid
  exact h.eventSeq other hother

/-- New events come after the current position. -/
theorem currentPosition_lt (engine : Engine) (store : SqlStore E) :
    store.currentPosition db < db.nextEventId engine := by
  rcases (store.currentPosition_spec db).2 with hzero | ⟨event, hevent, hposition⟩
  · have hpos : 0 < db.nextEventId engine := by
      unfold Database.nextEventId Engine.nextId
      split <;> omega
    rw [hzero]
    exact_mod_cast hpos
  · rw [hposition]
    exact_mod_cast h.lt_nextEventId engine hevent

end Database.Sequenced

end Positions

section Rows
variable {db : Database} {row : StreamRow} {event : EventRow}

/-- The record of an event of a stream. -/
def recordOf (row : StreamRow) (event : EventRow) : RecordedRaw :=
  Entry.toRecordedRaw { event, stream := row }

/-- The records of events whose streams are in the tables. -/
def Database.joinedRecords (db : Database) (events : List EventRow) : List RecordedRaw :=
  events.filterMap fun event =>
    (db.streams.find? (·.id = event.dbStreamId)).map fun row => recordOf row event

theorem Database.records_eq (db : Database) : db.records = db.joinedRecords db.events := by
  unfold Database.records Database.entries Database.joinedRecords SqlAlchemyStorageStrategy.joined
  rw [List.map_map, List.map_filterMap]
  apply List.filterMap_congr
  intro event _
  rw [Option.map_map]
  rfl

/-- The stream of an id is found. -/
theorem find?_id (hids : (db.streams.map (·.id)).Nodup) (hrow : row ∈ db.streams) :
    db.streams.find? (·.id = row.id) = some row := by
  cases hfind : db.streams.find? (·.id = row.id) with
  | none => simpa using List.find?_eq_none.1 hfind row hrow
  | some other =>
    have hid : other.id = row.id := by simpa using List.find?_some hfind
    rw [List.inj_on_of_nodup_map hids (List.mem_of_find?_eq_some hfind) hrow hid]

/-- Tables have the same records of events whose streams differ in their versions only. -/
theorem records_congr {db db' : Database} (hids : (db.streams.map (·.id)).Nodup)
    (hids' : (db'.streams.map (·.id)).Nodup) {events : List EventRow}
    (h : ∀ event ∈ events, ∃ row ∈ db.streams, row.id = event.dbStreamId ∧
      ∃ version, { row with version } ∈ db'.streams) :
    db'.joinedRecords events = db.joinedRecords events := by
  apply List.filterMap_congr
  intro event hevent
  obtain ⟨row, hrow, hid, version, hrow'⟩ := h event hevent
  have hfind' : db'.streams.find? (·.id = row.id) = some { row with version } :=
    find?_id hids' hrow'
  rw [← hid, find?_id hids hrow, hfind']
  rfl

namespace Database.Sequenced
variable (h : db.Sequenced)
include h

/-- The records are at the ids of the events. -/
theorem records_position :
    db.records.map (·.position) = db.events.map fun event => (event.id : ℤ) := by
  rw [Database.records_eq, Database.joinedRecords, List.map_filterMap, ← List.filterMap_eq_map]
  apply List.filterMap_congr
  intro event hevent
  obtain ⟨row, hrow, hid⟩ := h.owned event hevent
  rw [← hid, find?_id h.ids hrow]
  rfl

theorem records_increasing : db.records.Pairwise fun x y => x.position < y.position := by
  rw [← List.pairwise_map (f := RecordedRaw.position), h.records_position, List.pairwise_map]
  exact h.increasing.imp fun hlt => Nat.cast_lt.2 hlt

theorem position_mem {record : RecordedRaw} (hrecord : record ∈ db.records) :
    ∃ event ∈ db.events, record.position = event.id := by
  have hmem := List.mem_map_of_mem (f := RecordedRaw.position) hrecord
  rw [h.records_position] at hmem
  obtain ⟨event, hevent, hposition⟩ := List.mem_map.1 hmem
  exact ⟨event, hevent, hposition.symm⟩

end Database.Sequenced

end Rows

/-- The same events, and every stream but for its version. -/
structure SameEvents (db db' : Database) : Prop where
  events : db'.events = db.events
  eventSeq : db'.eventSeq = db.eventSeq
  sequenced : db'.Sequenced
  rows : ∀ row ∈ db.streams, ∃ version, { row with version } ∈ db'.streams

section Statements
variable {db db' db'' : Database} {row : StreamRow}

theorem SameEvents.refl (h : db.Sequenced) : SameEvents db db :=
  ⟨rfl, rfl, h, fun row hrow => ⟨row.version, hrow⟩⟩

theorem SameEvents.trans (h : SameEvents db db') (h' : SameEvents db' db'') :
    SameEvents db db'' := by
  refine ⟨h'.events.trans h.events, h'.eventSeq.trans h.eventSeq, h'.sequenced, ?_⟩
  intro row hrow
  obtain ⟨version, hrow'⟩ := h.rows row hrow
  exact h'.rows { row with version } hrow'

theorem SameEvents.records (h : SameEvents db db') (hs : db.Sequenced) :
    db'.records = db.records := by
  rw [Database.records_eq, Database.records_eq, h.events]
  refine records_congr hs.ids h.sequenced.ids fun event hevent => ?_
  obtain ⟨row, hrow, hid⟩ := hs.owned event hevent
  exact ⟨row, hrow, hid, h.rows row hrow⟩

theorem SameEvents.nextEventId (h : SameEvents db db') (engine : Engine) :
    db'.nextEventId engine = db.nextEventId engine := by
  unfold Database.nextEventId
  rw [h.events, h.eventSeq]

theorem insertStream_sameEvents (h : db.Sequenced) (engine : Engine) (head : StreamHead)
    (t : TenantId) : SameEvents db (db.insertStream engine head t) := by
  have hlt : ∀ row ∈ db.streams, row.id < engine.nextId (db.streams.map (·.id)) db.streamSeq := by
    intro row hrow
    apply engine.lt_nextId _ (List.mem_map_of_mem hrow)
    intro id hid
    obtain ⟨other, hother, rfl⟩ := List.mem_map.1 hid
    exact h.streamSeq other hother
  refine ⟨rfl, rfl, ⟨?_, ?_, ?_, h.increasing, h.eventSeq⟩, fun row hrow =>
    ⟨row.version, List.mem_append_left _ hrow⟩⟩
  · unfold Database.insertStream
    rw [List.map_append]
    apply h.ids.append (List.nodup_singleton _)
    simp only [List.disjoint_singleton, List.mem_map, not_exists, not_and]
    exact fun row hrow => ne_of_lt (hlt row hrow)
  · intro row hrow
    rcases List.mem_append.1 hrow with hrow | hrow
    · exact (h.streamSeq row hrow).trans (le_max_left _ _)
    · rw [List.mem_singleton.1 hrow]
      exact le_max_right _ _
  · intro event hevent
    obtain ⟨row, hrow, hid⟩ := h.owned event hevent
    exact ⟨row, List.mem_append_left _ hrow, hid⟩

theorem setVersion_sameEvents (h : db.Sequenced) (hit : StreamRow → Bool) (version : Option ℤ) :
    SameEvents db (db.setVersion hit version) := by
  have hrows : ∀ row ∈ db.streams, ∃ version',
      { row with version := version' } ∈ (db.setVersion hit version).streams := by
    intro row hrow
    have hmem := List.mem_map_of_mem (f := fun row : StreamRow =>
      if hit row then { row with version } else row) hrow
    by_cases hhit : hit row
    · rw [if_pos hhit] at hmem
      exact ⟨version, hmem⟩
    · rw [if_neg hhit] at hmem
      exact ⟨row.version, hmem⟩
  have hids : (db.setVersion hit version).streams.map (·.id) = db.streams.map (·.id) := by
    unfold Database.setVersion
    rw [List.map_map]
    apply List.map_congr_left
    intro row _
    rw [Function.comp_apply]
    split <;> rfl
  refine ⟨rfl, rfl, ⟨hids ▸ h.ids, ?_, ?_, h.increasing, h.eventSeq⟩, hrows⟩
  · intro row' hrow'
    have hid := List.mem_map_of_mem (f := fun row : StreamRow => row.id) hrow'
    rw [hids] at hid
    obtain ⟨row, hrow, heq⟩ := List.mem_map.1 hid
    exact heq ▸ h.streamSeq row hrow
  · intro event hevent
    obtain ⟨row, hrow, hid⟩ := h.owned event hevent
    obtain ⟨version', hrow'⟩ := hrows row hrow
    exact ⟨_, hrow', hid⟩

theorem eventRows_id (dbStreamId id : ℕ) (bodies : List EventBody) :
    (Database.eventRows dbStreamId id bodies).map (·.id) = List.range' id bodies.length := by
  induction bodies generalizing id with
  | nil => rfl
  | cons body bodies ih => simp [Database.eventRows, ih, List.range'_succ]

theorem le_foldr_max (n : ℕ) (ns : List ℕ) : n ≤ ns.foldr max n := by
  induction ns with
  | nil => exact le_rfl
  | cons m ns ih => exact ih.trans (le_max_right _ _)

theorem le_id_of_added {engine : Engine} {dbStreamId : ℕ} {bodies : List EventBody}
    {event : EventRow} (hevent : event ∈ (db.addEvents engine dbStreamId bodies).1) :
    db.nextEventId engine ≤ event.id := by
  have hmem := List.mem_map_of_mem (f := fun event : EventRow => event.id) hevent
  change event.id ∈ (Database.eventRows _ _ _).map _ at hmem
  rw [eventRows_id, List.mem_range'_1] at hmem
  exact hmem.1

/-- New events of a stream come at the end of the log. -/
theorem addEvents_records (h : db.Sequenced) (engine : Engine) (hrow : row ∈ db.streams)
    (bodies : List EventBody) :
    let added := db.addEvents engine row.id bodies
    added.2.Sequenced ∧ added.2.records = db.records ++ added.1.map (recordOf row) := by
  have hstream : ∀ event ∈ (db.addEvents engine row.id bodies).1, event.dbStreamId = row.id :=
    eventRows_dbStreamId _ _ _
  refine ⟨⟨h.ids, h.streamSeq, ?_, ?_, ?_⟩, ?_⟩
  · intro event hevent
    rcases List.mem_append.1 hevent with hevent | hevent
    · exact h.owned event hevent
    · exact ⟨row, hrow, (hstream event hevent).symm⟩
  · refine List.pairwise_append.2 ⟨h.increasing, ?_, fun x hx y hy =>
      lt_of_lt_of_le (h.lt_nextEventId engine hx) (le_id_of_added hy)⟩
    rw [← List.pairwise_map (f := fun event : EventRow => event.id), eventRows_id]
    exact List.pairwise_lt_range'
  · intro event hevent
    change event.id ≤ (((db.addEvents engine row.id bodies).1.map (·.id)).foldr max db.eventSeq)
    rcases List.mem_append.1 hevent with hevent | hevent
    · exact (h.eventSeq event hevent).trans (le_foldr_max _ _)
    · exact List.le_max_of_le' _ (List.mem_map_of_mem hevent) le_rfl
  · rw [Database.records_eq, Database.records_eq]
    change db.joinedRecords (db.events ++ (db.addEvents engine row.id bodies).1) = _
    unfold Database.joinedRecords
    rw [List.filterMap_append]
    congr 1
    rw [← List.filterMap_eq_map]
    apply List.filterMap_congr
    intro event hevent
    rw [hstream event hevent, find?_id h.ids hrow]
    rfl

/-- The events of deleted streams are no longer in the log. -/
theorem deleted_records (h : db.Sequenced) (hit : StreamRow → Bool)
    (hstreams : db'.streams = (db.deleteStreams hit).streams)
    (hevents : db'.events = (db.deleteEvents hit).events)
    (hstreamSeq : db'.streamSeq = db.streamSeq) (heventSeq : db'.eventSeq = db.eventSeq) :
    db'.Sequenced ∧ db'.records.Sublist db.records := by
  have hsublist : db'.streams.Sublist db.streams := hstreams ▸ List.filter_sublist
  have hids : (db'.streams.map (·.id)).Nodup := h.ids.sublist (hsublist.map _)
  have hremaining : db'.events.Sublist db.events := hevents ▸ List.filter_sublist
  have howned : ∀ event ∈ db'.events, ∃ row ∈ db.streams, row.id = event.dbStreamId ∧
      row ∈ db'.streams := by
    intro event hevent
    obtain ⟨row, hrow, hid⟩ := h.owned event (hremaining.subset hevent)
    rw [hevents] at hevent
    have hmissed := (List.mem_filter.1 hevent).2
    simp only [Database.belongs, Bool.not_eq_true', List.any_eq_false, Bool.and_eq_true,
      decide_eq_true_eq, not_and, Bool.not_eq_true] at hmissed
    refine ⟨row, hrow, hid, ?_⟩
    rw [hstreams]
    exact List.mem_filter.2 ⟨hrow, by simpa using hmissed row hrow hid⟩
  refine ⟨⟨hids, ?_, ?_, h.increasing.sublist hremaining, ?_⟩, ?_⟩
  · exact fun row hrow => hstreamSeq ▸ h.streamSeq row (hsublist.subset hrow)
  · intro event hevent
    obtain ⟨row, -, hid, hrow⟩ := howned event hevent
    exact ⟨row, hrow, hid⟩
  · exact fun event hevent => heventSeq ▸ h.eventSeq event (hremaining.subset hevent)
  · rw [Database.records_eq, Database.records_eq]
    have hsame : db'.joinedRecords db'.events = db.joinedRecords db'.events := by
      apply records_congr h.ids hids
      intro event hevent
      obtain ⟨row, hrow, hid, hrow'⟩ := howned event hevent
      exact ⟨row, hrow, hid, row.version, hrow'⟩
    rw [hsame]
    exact hremaining.filterMap _

end Statements

/-- The record of an event that a tenant has appended: the tables may have another stream id for
its stream, with the same uuid and category. -/
structure Written (appended : TenantId × RawEvent) (record : RecordedRaw) : Prop where
  tenantId : record.tenantId = appended.1
  entry : record.entry = { appended.2 with streamId := record.entry.streamId }
  stream : columns record.entry.streamId = columns appended.2.streamId

/-- What a request of a tenant does to the log: records of new events come at the end, and only
a deletion takes others out. -/
structure Logs (engine : Engine) (deletes : Bool) (appended : List (TenantId × RawEvent))
    (db db' : Database) : Prop where
  sequenced : db'.Sequenced
  records : ∃ held new, db'.records = held ++ new ∧ held.Sublist db.records ∧
    (deletes = false → held = db.records) ∧ List.Forall₂ Written appended new ∧
    ∀ record ∈ new, (db.nextEventId engine : ℤ) ≤ record.position
  next : deletes = false ∨ engine.reusesIds = false →
    db.nextEventId engine ≤ db'.nextEventId engine

section Requests
variable {E : Type} {engine : Engine} {db db' : Database} {row : StreamRow} {streamId : StreamId}
  {versioning : Versioning} {events : List RawEvent} {deletes : Bool}

/-- Tables with the same records in the log. -/
theorem logs_same (h : db'.Sequenced) (hrecords : db'.records = db.records)
    (hnext : db.nextEventId engine ≤ db'.nextEventId engine) : Logs engine deletes [] db db' :=
  ⟨h, ⟨db.records, [], by simpa using hrecords, List.Sublist.refl _, fun _ => rfl, .nil, by simp⟩,
    fun _ => hnext⟩

theorem logs_congr (h : db.Sequenced) (hstreams : db'.streams = db.streams)
    (hevents : db'.events = db.events) (hstreamSeq : db.streamSeq ≤ db'.streamSeq)
    (heventSeq : db.eventSeq ≤ db'.eventSeq) : Logs engine deletes [] db db' := by
  apply logs_same
  · refine ⟨hstreams ▸ h.ids, fun row hrow => ?_, ?_, hevents ▸ h.increasing,
      fun event hevent => ?_⟩
    · exact (h.streamSeq row (hstreams ▸ hrow)).trans hstreamSeq
    · rw [hstreams, hevents]
      exact h.owned
    · exact (h.eventSeq event (hevents ▸ hevent)).trans heventSeq
  · rw [Database.records_eq, Database.records_eq, Database.joinedRecords, hstreams, hevents]
    rfl
  · unfold Database.nextEventId
    rw [hevents]
    exact engine.nextId_mono (List.Subset.refl _) heventSeq

/-- What is rolled back leaves the log as it was. -/
theorem logs_rollback (h : db.Sequenced) (db' : Database) :
    Logs engine deletes [] db (db.rollback db') :=
  logs_congr h rfl rfl (le_max_left _ _) (le_max_left _ _)

theorem written_eventRows {t : TenantId} (ht : row.tenantId = t)
    (hstream : ∀ raw ∈ events, columns raw.streamId = row.key) (dbStreamId id : ℕ) :
    List.Forall₂ Written (events.map (t, ·))
      ((Database.eventRows dbStreamId id (events.map .ofRaw)).map (recordOf row)) := by
  induction events generalizing id with
  | nil => exact .nil
  | cons raw events ih =>
    have hrest := ih (fun other hother => hstream other (List.mem_cons_of_mem _ hother)) (id + 1)
    refine .cons ⟨ht, rfl, ?_⟩ hrest
    exact (columns_streamId row.toStreamHead).trans (hstream raw List.mem_cons_self).symm

/-- The end of an append: the rows of the events, and the outbox. -/
theorem logs_added (hs : db.Sequenced) (hkept : SameEvents db db') (hrow : row ∈ db'.streams)
    {t : TenantId} (ht : row.tenantId = t)
    (hstream : ∀ raw ∈ events, columns raw.streamId = row.key) (outbox : Option OutboxStrategy)
    (records : List RecordedRaw) :
    let added := db'.addEvents engine row.id (events.map .ofRaw)
    Logs engine deletes (events.map (t, ·)) db
      (outbox.elim added.2 (·.putIntoOutbox records added.2)) := by
  intro added
  obtain ⟨hsequenced, hrecords⟩ := addEvents_records hkept.sequenced engine hrow (events.map .ofRaw)
  have hids : ∀ event ∈ added.1, db.nextEventId engine ≤ event.id := by
    intro event hevent
    rw [← hkept.nextEventId engine]
    exact le_id_of_added hevent
  have hadded : Logs engine deletes (events.map (t, ·)) db added.2 := by
    refine ⟨hsequenced, ⟨db.records, added.1.map (recordOf row), ?_, List.Sublist.refl _,
      fun _ => rfl, written_eventRows ht hstream _ _, ?_⟩, fun _ => ?_⟩
    · rw [hrecords, hkept.records hs]
    · intro record hrecord
      obtain ⟨event, hevent, rfl⟩ := List.mem_map.1 hrecord
      exact Nat.cast_le.2 (hids event hevent)
    · rw [← hkept.nextEventId engine]
      apply engine.nextId_mono
      · exact List.map_subset _ (List.subset_append_left _ _)
      · exact le_foldr_max _ _
  cases outbox with
  | none => exact hadded
  | some outbox =>
    exact ⟨⟨hadded.sequenced.ids, hadded.sequenced.streamSeq, hadded.sequenced.owned,
      hadded.sequenced.increasing, hadded.sequenced.eventSeq⟩, hadded.records, hadded.next⟩

end Requests

section Stores
variable {E : Type} {db db' : Database} {streamId : StreamId} {versioning : Versioning}
  {events : List RawEvent} {deletes : Bool}

namespace SqlAlchemyStorageStrategy
variable (strategy : SqlAlchemyStorageStrategy E)

theorem openStream_sameEvents (hs : db.Sequenced) (initialVersion : Option ℤ) :
    SameEvents db (strategy.openStream streamId initialVersion db) := by
  unfold openStream insertOrNothing
  split
  · split
    · exact .refl hs
    · exact insertStream_sameEvents hs _ _ _
  · exact .refl hs

theorem ensureStream_sameEvents (hs : db.Sequenced) {stream : StreamRow}
    (h : strategy.ensureStream streamId versioning db = (.ok stream, db')) :
    SameEvents db db' ∧ stream.tenantId = strategy.tenantId ∧ stream.key = columns streamId ∧
      ∃ version, { stream with version } ∈ db'.streams := by
  have hopened : SameEvents db (strategy.openStream streamId versioning.initialVersion db) :=
    strategy.openStream_sameEvents hs versioning.initialVersion
  unfold ensureStream at h
  dsimp only at h
  split at h
  · cases h
  · next chosen hchosen =>
    obtain ⟨hmatching, heq⟩ := chooseStream_eq_ok hchosen
    obtain ⟨hmem, hselected⟩ := List.mem_filter.1 hmatching
    simp only [Bool.and_eq_true, decide_eq_true_eq] at hselected
    split at h
    · cases h
    · simp only [Prod.mk.injEq, Except.ok.injEq] at h
      obtain ⟨rfl, rfl⟩ := h
      exact ⟨hopened, hselected.2, columns_of_eq heq, chosen.version, hmem⟩
    · rename_i expected _ _
      split at h
      · cases h
      · simp only [Prod.mk.injEq, Except.ok.injEq] at h
        obtain ⟨rfl, rfl⟩ := h
        have hbumped := setVersion_sameEvents hopened.sequenced (fun row : StreamRow =>
          row.compares streamId && row.version = some expected) versioning.initialVersion
        exact ⟨hopened.trans hbumped, hselected.2, columns_of_eq heq, hbumped.rows chosen hmem⟩

theorem insertEvents_logs (hs : db.Sequenced) (hstream : ∀ raw ∈ events, raw.streamId = streamId)
    (h : (strategy.insertEvents streamId versioning events db).1 = .ok ()) :
    Logs strategy.engine deletes (events.map (strategy.tenantId, ·)) db
      (strategy.insertEvents streamId versioning events db).2 := by
  unfold insertEvents at h ⊢
  cases hensured : strategy.ensureStream streamId versioning db with
  | mk answer ensured =>
    rw [hensured] at h
    cases answer with
    | error e => cases h
    | ok stream =>
      obtain ⟨hkept, ht, hkey, version, hrow⟩ := strategy.ensureStream_sameEvents hs hensured
      unfold storeEvents at h ⊢
      dsimp only at h ⊢
      split at h
      · next hfree =>
        rw [if_pos hfree]
        exact logs_added hs hkept hrow ht (fun raw hraw => by rw [hstream raw hraw, ← hkey]; rfl)
          strategy.outbox _
      · cases h

end SqlAlchemyStorageStrategy

namespace DjangoStorageStrategy
variable (strategy : DjangoStorageStrategy E)

theorem getOrCreate_sameEvents (hs : db.Sequenced) {initialVersion : Option ℤ} {model : StreamRow}
    (h : strategy.getOrCreate streamId initialVersion db = (.ok model, db')) :
    SameEvents db db' ∧ model.tenantId = strategy.tenantId ∧
      sameColumns streamId model.toStreamHead ∧ model ∈ db'.streams := by
  unfold getOrCreate at h
  dsimp only at h
  split at h
  · split at h
    · cases h
    · simp only [Prod.mk.injEq, Except.ok.injEq] at h
      obtain ⟨rfl, rfl⟩ := h
      refine ⟨insertStream_sameEvents hs _ _ _, rfl, ?_, List.mem_append_right _ List.mem_cons_self⟩
      simp [sameColumns, StreamHead.ofStreamId]
  · obtain ⟨hfound, rfl⟩ := Prod.mk.inj h
    have hmem := List.mem_filter.1 (getOne_eq_ok hfound ▸ List.mem_singleton_self model)
    simp only [Bool.and_eq_true, decide_eq_true_eq] at hmem
    exact ⟨.refl hs, hmem.2.2, hmem.2.1, hmem.1⟩

theorem ensureStream_sameEvents (hs : db.Sequenced)
    (h : strategy.ensureStream streamId versioning db = (.ok (), db')) :
    SameEvents db db' ∧ ∃ row ∈ db'.streams, row.tenantId = strategy.tenantId ∧
      sameColumns streamId row.toStreamHead := by
  unfold ensureStream at h
  split at h
  · cases h
  · split at h
    · cases h
    · next model created hcreated =>
      obtain ⟨hkept, ht, hcolumns, hmem⟩ := strategy.getOrCreate_sameEvents hs hcreated
      split at h
      · cases h
      · simp only [Prod.mk.injEq, true_and] at h
        subst h
        exact ⟨hkept, model, hmem, ht, hcolumns⟩
      · rename_i expected _ _
        dsimp only at h
        split at h
        · cases h
        · simp only [Prod.mk.injEq, true_and] at h
          subst h
          have hbumped := setVersion_sameEvents hkept.sequenced (fun row : StreamRow =>
            row.id = model.id && row.version = some expected) versioning.initialVersion
          obtain ⟨version, hrow⟩ := hbumped.rows model hmem
          exact ⟨hkept.trans hbumped, _, hrow, ht, hcolumns⟩

theorem insertEvents_logs (hs : db.Sequenced) (hstream : ∀ raw ∈ events, raw.streamId = streamId)
    (h : (strategy.insertEvents streamId versioning events db).1 = .ok ()) :
    Logs strategy.engine deletes (events.map (strategy.tenantId, ·)) db
      (strategy.insertEvents streamId versioning events db).2 := by
  unfold insertEvents at h ⊢
  cases hensured : strategy.ensureStream streamId versioning db with
  | mk answer ensured =>
    rw [hensured] at h
    cases answer with
    | error e => cases h
    | ok u =>
      obtain ⟨hkept, row, hrow, ht, hcolumns⟩ := strategy.ensureStream_sameEvents hs hensured
      unfold storeEvents at h ⊢
      dsimp only at h ⊢
      cases hhead : events.head? with
      | none =>
        rw [hhead] at h
        cases h
      | some event =>
        rw [hhead] at h
        dsimp only at h ⊢
        rw [hstream event (List.mem_of_head? hhead)] at h ⊢
        cases hfound : getOne (strategy.byStreamId streamId ensured) with
        | error e =>
          rw [hfound] at h
          cases h
        | ok stream =>
          rw [hfound] at h
          dsimp only at h ⊢
          -- The stream that was ensured is among those that are looked up, so it is the one.
          have haddressed : row ∈ strategy.byStreamId streamId ensured :=
            List.mem_filter.2 ⟨hrow, by simp [addressed_of_sameColumns hcolumns, ht]⟩
          rw [getOne_eq_ok hfound, List.mem_singleton] at haddressed
          subst haddressed
          split at h
          · next hfree =>
            rw [if_pos hfree]
            refine logs_added hs hkept hrow ht (fun raw hraw => ?_) strategy.outbox _
            simp only [sameColumns, Bool.and_eq_true, decide_eq_true_eq] at hcolumns
            rw [hstream raw hraw]
            exact (Prod.ext hcolumns.1.1 hcolumns.2).symm
          · cases h

end DjangoStorageStrategy

variable (store : SqlStore E)

theorem logs_undo {α : Type} {engine : Engine} {appended : List (TenantId × RawEvent)}
    (hs : db.Sequenced) {r : Except Error α × Database}
    (h : ∀ a, r.1 = .ok a → Logs engine deletes appended db r.2) :
    let r' := StorageStrategy.undo Database.rollback db r
    Logs engine deletes (if r'.1.isOk then appended else []) db r'.2 := by
  obtain ⟨answer, db'⟩ := r
  cases answer with
  | error e => exact logs_rollback hs db'
  | ok a => exact h a rfl

theorem SqlStore.insertEvents_logs (hs : db.Sequenced)
    (hstream : ∀ raw ∈ events, raw.streamId = streamId) :
    let r := store.storageStrategy.insertEvents streamId versioning events db
    Logs store.engine deletes (if r.1.isOk then events.map (store.tenantId, ·) else []) db r.2 := by
  cases store with
  | sqlAlchemy strategy =>
    exact logs_undo hs fun u h => strategy.insertEvents_logs hs hstream h
  | django strategy => exact logs_undo hs fun u h => strategy.insertEvents_logs hs hstream h

theorem SqlStore.saveSnapshot_logs (hs : db.Sequenced) (snapshot : RawEvent) :
    Logs store.engine deletes [] db (store.storageStrategy.saveSnapshot snapshot db).2 := by
  have hsame := store.saveSnapshot_forgotten db snapshot
  simp only [Database.withoutSnapshots, Database.mk.injEq] at hsame
  obtain ⟨hstreams, hevents, -, -, hstreamSeq, heventSeq⟩ := hsame
  exact logs_congr hs hstreams hevents hstreamSeq.ge heventSeq.ge

theorem logs_deleted {engine : Engine} (hs : db.Sequenced) (hit : StreamRow → Bool)
    (hstreams : db'.streams = (db.deleteStreams hit).streams)
    (hevents : db'.events = (db.deleteEvents hit).events)
    (hstreamSeq : db'.streamSeq = db.streamSeq) (heventSeq : db'.eventSeq = db.eventSeq) :
    Logs engine true [] db db' := by
  obtain ⟨hsequenced, hsublist⟩ := deleted_records hs hit hstreams hevents hstreamSeq heventSeq
  refine ⟨hsequenced, ⟨db'.records, [], by simp, hsublist, by simp, .nil, by simp⟩, ?_⟩
  rintro (h | hreuses)
  · cases h
  · unfold Database.nextEventId
    rw [engine.nextId_of_sequence hreuses, engine.nextId_of_sequence hreuses, heventSeq]

theorem SqlStore.deleteStream_logs (hs : db.Sequenced) (streamId : StreamId) :
    Logs store.engine true [] db (store.storageStrategy.deleteStream streamId db).2 := by
  cases store with
  | sqlAlchemy strategy =>
    have hundo : Logs strategy.engine true
        (if (StorageStrategy.undo Database.rollback db
          (strategy.deleteStream streamId db)).1.isOk then [] else []) db
        (StorageStrategy.undo Database.rollback db (strategy.deleteStream streamId db)).2 := by
      refine logs_undo hs fun u h => ?_
      unfold SqlAlchemyStorageStrategy.deleteStream at h ⊢
      dsimp only at h ⊢
      split at h
      · cases h
      · next hfree =>
        rw [if_neg hfree]
        exact logs_deleted hs _ rfl rfl rfl rfl
    rw [ite_self] at hundo
    exact hundo
  | django strategy => exact logs_deleted hs _ rfl rfl rfl rfl

end Stores

end EventSourcery.Sql
