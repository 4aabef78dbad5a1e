import EventSourcery.PagedLogs
import EventSourcery.TableLogs

/-!
# Subscriptions to the SQL stores

Tenants call their event stores on SQLAlchemy or Django, each call a transaction of its own (and on
SQLAlchemy in a session of its own), while a subscription that began at the position of the store
reads the tables by its queries. Here the transactions follow one another, so that no event becomes
visible behind the cursor: what may still be missed is what is deleted, and on a database that
returns to the ids of deleted rows also what is appended after a deletion.
-/
namespace EventSourcery.Sql.SubscribedStores
open EventStore PagedLogs Paging Runs Subscriptions

/-- Tables that tenants write to while a subscription reads them, and the events that have been
appended since it began, with the tenants that appended them. -/
structure System (τ : Type) where
  db : Database
  reader : Subscriptions.State τ
  appended : List (TenantId × RawEvent) := []

/-- A tenant makes a call, a consumer calls `__next__`, and the call goes once through its loop. -/
inductive Action (E τ : Type) where
  | call (tenantId : TenantId) (call : Call E)
  | next (now : τ)
  | attempt (now : τ)

/-- The call deletes a stream. -/
def deletes {E : Type} : Call E → Bool
  | .deleteStream _ => true
  | _ => false

def Action.deletes {E τ : Type} : Action E τ → Bool
  | .call _ c => SubscribedStores.deletes c
  | _ => false

/-- The events that a call has appended. -/
def appendedBy {E : Type} (serde : Serde E) (t : TenantId) (c : Call E) (answer : Answer E) :
    List (TenantId × RawEvent) :=
  match request serde c with
  | .ok (.insert _ _ events) => if answer.isOk then events.map (t, ·) else []
  | _ => []

section Machine
variable {E τ : Type} [Sub τ] [LT τ] [DecidableLT τ] (store : SqlStore E)
  (serdes : TenantId → Serde E) (filterer : GetBatch) (batchSize : ℕ) (timelimit : τ)

/-- A tenant's event store. -/
def eventStoreOf (t : TenantId) : EventStore E Database :=
  (store.scopedForTenant t).eventStore (serdes t)

/-- Calls are transactions that follow one another, and a query sees what is there. -/
def step (s : System τ) : Action E τ → Option (System τ)
  | .call t c =>
      let r := (eventStoreOf store serdes t).call s.db c
      some { s with db := r.2, appended := s.appended ++ appendedBy (serdes t) t c r.1 }
  | .next now =>
      (Subscriptions.step filterer batchSize timelimit s.reader (.next now)).map fun reader =>
        { s with reader }
  | .attempt now =>
      (Subscriptions.step filterer batchSize timelimit { s.reader with visible := s.db.entries }
        (.attempt now)).map fun reader => { s with reader }

/-- A subscription from the position of the store on. -/
def opened (db : Database) : System τ :=
  { db, reader := Subscriptions.initial (store.currentPosition db) }

/-- The tables after calls of tenants, from the beginning. -/
def tablesAfter (calls : List (TenantId × Call E)) : Database :=
  (run (Tenants.callStep (eventStoreOf store serdes)) {} calls).2

end Machine

/-- What a subscription is for, of records. -/
def wants (filterer : GetBatch) (record : RecordedRaw) : Bool :=
  match filterer with
  | .toAll => true
  | .toCategory category => record.entry.streamId.categoryText = category
  | .toEvents events => events.contains record.entry.name

/-- What the subscription has delivered, of the records of what was appended since it began: they
come in order, each once, it has left out only records whose streams were deleted before it came
to them, and a batch that is not full has caught up with the store. -/
structure Receives {τ : Type} (filterer : GetBatch) (batchSize : ℕ) (start : Position)
    (s : System τ) (log : List RecordedRaw) : Prop where
  written : List.Forall₂ Written s.appended log
  increasing : log.Pairwise fun x y => x.position < y.position
  after : ∀ record ∈ log, start < record.position
  delivered : s.reader.records.Sublist (log.filter (wants filterer))
  missed : ∀ record ∈ log, wants filterer record → record.position ≤ s.reader.cursor →
    record ∉ s.reader.records → record ∉ s.db.records
  short : ∀ d ∈ s.reader.delivered, d.batch.length < batchSize →
    ∀ x ∈ d.visible, filterer.selects x → x.position ≤ d.newCursor

section Calls
variable {E : Type} {db : Database}

/-- A call raises before it asks for anything, or does to the log what its request does. -/
theorem call_logs (store : SqlStore E) (serde : Serde E) (hs : db.Sequenced) (c : Call E) :
    let r := (store.eventStore serde).call db c
    Logs store.engine (deletes c) (appendedBy serde store.tenantId c r.1) db r.2 := by
  intro r
  have hr : r = (store.eventStore serde).call db c := rfl
  rw [call_eq] at hr
  have hsame : Logs store.engine (deletes c) [] db db := logs_same hs rfl le_rfl
  unfold appendedBy
  cases hrequest : request serde c with
  | error e =>
    rw [show (store.eventStore serde).serde = serde from rfl, hrequest] at hr
    rw [hr]
    exact hsame
  | ok asked =>
    rw [show (store.eventStore serde).serde = serde from rfl, hrequest] at hr
    rw [hr]
    cases asked with
    | fetch streamId start stop => exact hsame
    | insert streamId versioning events =>
      have hlogs : let inserted := store.storageStrategy.insertEvents streamId versioning events db
          Logs store.engine (deletes c)
            (if inserted.1.isOk then events.map (store.tenantId, ·) else []) db inserted.2 :=
        store.insertEvents_logs hs (request_proper hrequest).2
      have hanswer : (finish serde ((store.storageStrategy.insertEvents streamId versioning events
          db).1.map fun _ => [])).isOk =
            (store.storageStrategy.insertEvents streamId versioning events db).1.isOk := by
        rw [finish_unit]
        cases (store.storageStrategy.insertEvents streamId versioning events db).1 <;> rfl
      change Logs store.engine (deletes c) (if (finish serde ((store.storageStrategy.insertEvents
        streamId versioning events db).1.map fun _ => [])).isOk then _ else []) db
          (store.storageStrategy.insertEvents streamId versioning events db).2
      rw [hanswer]
      exact hlogs
    | snapshot raw => exact store.saveSnapshot_logs hs raw
    | delete streamId =>
      rw [request_delete hrequest]
      exact store.deleteStream_logs hs streamId

end Calls

section Reads
variable {filterer : GetBatch} {db : Database}

theorem selects_eq (filterer : GetBatch) (x : Entry) :
    filterer.selects x = wants filterer x.toRecordedRaw := by
  cases filterer with
  | toAll => rfl
  | toEvents events => rfl
  | toCategory category =>
    have hcategory := congrArg Prod.snd (columns_streamId x.stream.toStreamHead)
    unfold GetBatch.selects wants
    rw [show x.toRecordedRaw.entry.streamId.categoryText = x.stream.category from hcategory]

/-- A batch has the records of a page of the log. -/
theorem map_getBatch (n : ℕ) (position : Position) (entries : List Entry) :
    (getBatch filterer n position entries).map Entry.toRecordedRaw =
      nextPage RecordedRaw.position (wants filterer) n position
        (entries.map Entry.toRecordedRaw) := by
  have hselects : filterer.selects = wants filterer ∘ Entry.toRecordedRaw :=
    funext (selects_eq filterer)
  unfold getBatch
  rw [hselects]
  exact map_nextPage RecordedRaw.position (wants filterer) Entry.toRecordedRaw n position entries

theorem advance_eq (position : Position) (batch : List Entry) :
    advance position batch =
      pageEnd RecordedRaw.position position (batch.map Entry.toRecordedRaw) :=
  (pageEnd_map RecordedRaw.position Entry.toRecordedRaw position batch).symm

theorem entries_nodup (hs : db.Sequenced) : (db.entries.map Entry.position).Nodup := by
  have hrecords : (db.records.map RecordedRaw.position).Nodup :=
    List.pairwise_map.2 (hs.records_increasing.imp ne_of_lt)
  rw [Database.records, List.map_map] at hrecords
  exact hrecords

theorem records_deliver {τ : Type} (s : Subscriptions.State τ) (start now : τ)
    (batch : List Entry) :
    (s.deliver start now batch).records = s.records ++ batch.map Entry.toRecordedRaw := by
  simp [State.records, State.deliver, Delivery.records]

end Reads

/-- The tables are a log that the subscription follows. -/
structure Inv {τ : Type} (engine : Engine) (filterer : GetBatch) (batchSize : ℕ)
    (start : Position) (s : System τ) (log : List RecordedRaw) : Prop where
  sequenced : s.db.Sequenced
  follows : Follows RecordedRaw.position (wants filterer) start (s.db.nextEventId engine)
    s.db.records log s.reader.records s.reader.cursor
  written : List.Forall₂ Written s.appended log
  exact : ∀ d ∈ s.reader.delivered, Exact filterer batchSize d

section Steps
variable {E τ : Type} [Sub τ] [LT τ] [DecidableLT τ] {store : SqlStore E}
  {serdes : TenantId → Serde E} {filterer : GetBatch} {batchSize : ℕ} {timelimit : τ}
  {start : Position} {s s' : System τ} {log : List RecordedRaw} {engine : Engine}

omit [Sub τ] [LT τ] [DecidableLT τ] in
theorem inv_opened {db : Database} (hs : db.Sequenced) :
    Inv store.engine filterer batchSize (store.currentPosition db)
      (opened store db : System τ) [] where
  sequenced := hs
  follows := by
    refine follows_start hs.records_increasing (fun record hrecord => ?_)
      (hs.currentPosition_lt store.engine store)
    obtain ⟨event, hevent, hposition⟩ := hs.position_mem hrecord
    rw [hposition]
    exact (store.currentPosition_spec db).1 event hevent
  written := .nil
  exact := by simp [opened, Subscriptions.initial]

omit [Sub τ] [LT τ] [DecidableLT τ] in
/-- A call adds the records of what it has appended to the log. -/
theorem Inv.call (h : Inv engine filterer batchSize start s log) {db : Database} {deletes : Bool}
    {appended : List (TenantId × RawEvent)} (hlogs : Logs engine deletes appended s.db db)
    (hkeeps : deletes = false ∨ engine.reusesIds = false) :
    ∃ new, Inv engine filterer batchSize start
        { s with db, appended := s.appended ++ appended } (log ++ new) ∧
      (deletes = false → log ⊆ s.db.records → log ++ new ⊆ db.records) := by
  obtain ⟨held, new, hrecords, hsublist, hkept, hwritten, hafter⟩ := hlogs.records
  have hincreasing := hlogs.sequenced.records_increasing
  rw [hrecords, List.pairwise_append] at hincreasing
  have hbelow : ∀ record ∈ db.records, record.position < db.nextEventId engine := by
    intro record hrecord
    obtain ⟨event, hevent, hposition⟩ := hlogs.sequenced.position_mem hrecord
    rw [hposition]
    exact_mod_cast hlogs.sequenced.lt_nextEventId engine hevent
  have hnext : (s.db.nextEventId engine : ℤ) ≤ db.nextEventId engine :=
    Nat.cast_le.2 (hlogs.next hkeeps)
  have hfollows := (h.follows.shrink hsublist le_rfl).grow hincreasing.2.1
    (fun record hrecord => ⟨hafter record hrecord,
      hbelow record (hrecords ▸ List.mem_append_right _ hrecord)⟩) hnext
  rw [← hrecords] at hfollows
  refine ⟨new, ⟨hlogs.sequenced, hfollows, List.rel_append h.written hwritten, h.exact⟩, ?_⟩
  intro hdeletes hsubset record hrecord
  rw [hrecords, hkept hdeletes]
  rcases List.mem_append.1 hrecord with hrecord | hrecord
  · exact List.mem_append_left _ (hsubset hrecord)
  · exact List.mem_append_right _ hrecord

omit [Sub τ] [LT τ] [DecidableLT τ] in
/-- A reader that stays where it is. -/
theorem Inv.stay (h : Inv engine filterer batchSize start s log) {reader : Subscriptions.State τ}
    (hcursor : reader.cursor = s.reader.cursor)
    (hdelivered : reader.delivered = s.reader.delivered) :
    Inv engine filterer batchSize start { s with reader } log := by
  have hrecords : reader.records = s.reader.records := by
    unfold State.records
    rw [hdelivered]
  have hfollows := h.follows
  rw [← hrecords, ← hcursor] at hfollows
  exact ⟨h.sequenced, hfollows, h.written, hdelivered ▸ h.exact⟩

theorem Inv.next (h : Inv engine filterer batchSize start s log) {now : τ}
    {reader : Subscriptions.State τ}
    (hstep : Subscriptions.step filterer batchSize timelimit s.reader (.next now) = some reader) :
    Inv engine filterer batchSize start { s with reader } log := by
  obtain ⟨-, hcursor, hdelivered⟩ | ⟨x, hcommit, -⟩ | ⟨start', now', hattempt, -⟩ :=
    Subscriptions.step_cases hstep
  · exact h.stay hcursor hdelivered
  · cases hcommit
  · cases hattempt

/-- An attempt leaves the reader where it is, or delivers the next page of the log. -/
theorem Inv.attempt (h : Inv engine filterer batchSize start s log) {now : τ}
    {reader : Subscriptions.State τ}
    (hstep : Subscriptions.step filterer batchSize timelimit
      { s.reader with visible := s.db.entries } (.attempt now) = some reader) :
    Inv engine filterer batchSize start { s with reader } log := by
  obtain ⟨-, hcursor, hdelivered⟩ | ⟨x, hcommit, -⟩ | ⟨start', now', -, -, rfl⟩ :=
    Subscriptions.step_cases hstep
  · exact h.stay hcursor hdelivered
  · cases hcommit
  · have hturn := h.follows.turn batchSize
    refine ⟨h.sequenced, ?_, h.written, ?_⟩
    · rw [records_deliver, map_getBatch]
      unfold State.deliver
      rw [advance_eq, map_getBatch]
      exact hturn
    · intro d hd
      rcases List.mem_append.1 hd with hd | hd
      · exact h.exact d hd
      · rw [List.mem_singleton.1 hd]
        exact ⟨rfl, entries_nodup h.sequenced⟩

/-- A step keeps the log, or adds to it. -/
theorem Inv.step (h : Inv store.engine filterer batchSize start s log) {a : Action E τ}
    (hkeeps : a.deletes = false ∨ store.engine.reusesIds = false)
    (hstep : step store serdes filterer batchSize timelimit s a = some s') :
    ∃ log', Inv store.engine filterer batchSize start s' log' ∧
      (a.deletes = false → log ⊆ s.db.records → log' ⊆ s'.db.records) := by
  cases a with
  | call t c =>
    simp only [SubscribedStores.step, Option.some.injEq] at hstep
    subst hstep
    have hlogs := call_logs (store.scopedForTenant t) (serdes t) h.sequenced c
    rw [SqlStore.scopedForTenant_engine, SqlStore.scopedForTenant_tenantId] at hlogs
    obtain ⟨new, hinv, hkept⟩ := h.call hlogs hkeeps
    exact ⟨log ++ new, hinv, hkept⟩
  | next now =>
    obtain ⟨reader, hreader, rfl⟩ := Option.map_eq_some_iff.1 hstep
    exact ⟨log, h.next hreader, fun _ hsubset => hsubset⟩
  | attempt now =>
    obtain ⟨reader, hreader, rfl⟩ := Option.map_eq_some_iff.1 hstep
    exact ⟨log, h.attempt hreader, fun _ hsubset => hsubset⟩

omit [Sub τ] [LT τ] [DecidableLT τ] in
theorem Inv.receives (h : Inv engine filterer batchSize start s log) :
    Receives filterer batchSize start s log where
  written := h.written
  increasing := h.follows.added_increasing
  after := fun record hrecord => (h.follows.added_within record hrecord).1
  delivered := h.follows.sublist
  missed := fun _ hrecord => h.follows.lost hrecord
  short := fun d hd hshort _ hx hselects => (h.exact d hd).le_newCursor_of_short hshort hx hselects

/-- The tables are in order after any calls. -/
theorem sequenced_tablesAfter (calls : List (TenantId × Call E)) :
    (tablesAfter store serdes calls).Sequenced := by
  refine run_invariant (fun db i hdb => ?_) Database.sequenced_empty calls
  exact (call_logs (store.scopedForTenant i.1) (serdes i.1) hdb i.2).sequenced

/-- A schedule that deletes nothing where ids are returned to keeps the log, and one that deletes
nothing at all keeps it whole. -/
theorem inv_exec {db : Database} (hdb : db.Sequenced) {schedule : List (Action E τ)}
    (hkeeps : store.engine.reusesIds = false ∨ ∀ a ∈ schedule, a.deletes = false)
    (h : exec (step store serdes filterer batchSize timelimit) (opened store db) schedule =
      some s) :
    ∃ log, Inv store.engine filterer batchSize (store.currentPosition db) s log ∧
      ((∀ a ∈ schedule, a.deletes = false) → log ⊆ s.db.records) := by
  have hhistory := exec_history (P := fun past s =>
    (store.engine.reusesIds = false ∨ ∀ a ∈ past, a.deletes = false) →
      ∃ log, Inv store.engine filterer batchSize (store.currentPosition db) s log ∧
        ((∀ a ∈ past, a.deletes = false) → log ⊆ s.db.records)) ?_ ?_ h
  · exact hhistory hkeeps
  · intro past s a s' hpast hstep hkeeps
    have hbefore : ∀ {p : Action E τ → Prop}, (∀ b ∈ past ++ [a], p b) → ∀ b ∈ past, p b :=
      fun hall b hb => hall b (List.mem_append_left _ hb)
    obtain ⟨log, hinv, hkept⟩ := hpast (hkeeps.imp id hbefore)
    have hlast : a.deletes = false ∨ store.engine.reusesIds = false :=
      hkeeps.symm.imp (fun hnone => hnone a (by simp)) id
    obtain ⟨log', hinv', hkept'⟩ := hinv.step hlast hstep
    exact ⟨log', hinv', fun hnone => hkept' (hnone a (by simp)) (hkept (hbefore hnone))⟩
  · exact fun _ => ⟨[], inv_opened hdb, fun _ => List.nil_subset _⟩

end Steps

section Example
open Tenants

/-- An append of one event without versioning. -/
def place (t : TenantId) (uuid : Uuid) (streamId : StreamId) : Action Unit ℤ :=
  .call t (.appendEvents ⟨(), uuid, 0⟩ [] streamId .noVersioning)

/-- SQLite, where an event was appended before the subscription, and two tenants append events
while it waits for a full batch. -/
def shop : SqlStore Unit :=
  .sqlAlchemy { engine := sqlite, dispatcher := plainDispatcher, outbox := none
                tenantId := defaultTenant }

def earlier : List (TenantId × Call Unit) :=
  [("shop", .appendEvents ⟨(), 1, 0⟩ [] order .noVersioning)]

def ordersArrive : List (Action Unit ℤ) :=
  [.next 0, place "shop" 2 order, .attempt 1, place "depot" 3 order, .attempt 2]

theorem ordersArrive_enabled :
    (exec (step shop (fun _ => plainSerde) .toAll 2 5)
      (opened shop (tablesAfter shop (fun _ => plainSerde) earlier)) ordersArrive).isSome := by
  decide

/-- On SQLite a deletion in between gives the next event an id that the subscription has passed:
the event of the stream that is left is never delivered. -/
example :
    let s := exec (step shop (fun _ => plainSerde) .toAll 1 5)
      (opened shop (tablesAfter shop (fun _ => plainSerde) earlier))
      [.call "shop" (.deleteStream order), place "shop" 2 invoice, .next 0, .attempt 9]
    s.map (fun s => (s.reader.records, s.db.records.map (·.position))) = some ([], [1]) := by
  decide

end Example

end EventSourcery.Sql.SubscribedStores
