import EventSourcery.RowVersions
import EventSourcery.StreamIds

/-!
# What stream ids select

Calls of one tenant through stream ids that were accepted. A name leads to no other stream
than its uuid does, and a call changes nothing of the streams that are selected for an id
with another uuid or category.
-/
namespace EventSourcery

namespace Call
variable {E : Type}

/-- The same call through another stream id. -/
def through (streamId : StreamId) : Call E → Call E
  | append first events _ expected => append first events streamId expected
  | appendEvents first events _ expected => appendEvents first events streamId expected
  | loadStream _ start stop => loadStream streamId start stop
  | saveSnapshot _ snapshot => saveSnapshot streamId snapshot
  | deleteStream _ => deleteStream streamId

/-- The call appends, loads or deletes. -/
def SavesNone : Call E → Prop
  | saveSnapshot _ _ => False
  | _ => True

@[simp] theorem streamId_through (streamId : StreamId) (call : Call E) :
    (call.through streamId).streamId = streamId := by
  cases call <;> rfl

theorem Appends.through {call : Call E} (h : call.Appends) (streamId : StreamId) :
    (call.through streamId).Appends := by
  cases call <;> exact h

theorem SavesNone.through {call : Call E} (h : call.SavesNone) (streamId : StreamId) :
    (call.through streamId).SavesNone := by
  cases call <;> exact h

end Call

namespace Sql.StreamIdentity
open EventStore Runs AppendAttempts
open RowVersions (step)

variable {E : Type} {uuid5 : String → Uuid}

section Heads
variable {streamId a b : StreamId} {head : StreamHead}

theorem columns_eq (h : a.eq b) : columns a = columns b := by
  have hkey := StreamId.eq_iff.1 h
  simp only [StreamId.key, Prod.mk.injEq] at hkey
  simp only [columns, StreamId.categoryText, hkey.1, hkey.2]

/-- A name leads to no other stream than the uuid, when both ids were accepted. -/
theorem columns_of_addressed (hhead : head.streamId.Accepted uuid5)
    (hid : streamId.Accepted uuid5) (h : head.addressed streamId) :
    head.key = columns streamId := by
  simp only [StreamHead.addressed, Bool.or_eq_true, Bool.and_eq_true, decide_eq_true_eq,
    Option.any_eq_true] at h
  rcases h with ⟨huuid, hcategory⟩ | ⟨name, hname, hsame, hcategory⟩
  · exact Prod.ext huuid hcategory
  · have hheadName : name ∈ head.streamId.truthyName := by
      have hgiven := (Option.filter_eq_some_iff.1 hname).2
      exact Option.filter_eq_some_iff.2 ⟨hsame, hgiven⟩
    have huuid : uuid5 name = head.uuid := hhead name hheadName
    exact Prod.ext (huuid.symm.trans (hid name hname)) hcategory

end Heads

section States
variable (store : SqlStore E) {db db' : Database} {streamId a b : StreamId}
  {streams streams' : Streams}

/-- What a read gives depends on the streams that it selects. -/
theorem fetchEvents_congr (hs : db.Sound store.engine) (hs' : db'.Sound store.engine)
    (h : ((db.view store.tenantId).filter fun v => store.selects a v.toStreamHead) =
      (db'.view store.tenantId).filter fun v => store.selects b v.toStreamHead)
    (start stop : Option ℤ) : store.storageStrategy.fetchEvents a start stop db =
      store.storageStrategy.fetchEvents b start stop db' := by
  cases store with
  | sqlAlchemy strategy =>
    have hview : strategy.fetchEvents a start stop db = _ :=
      SqlAlchemyViews.fetchEvents_view hs.uniqueKeys a start stop
    have hview' : strategy.fetchEvents b start stop db' = _ :=
      SqlAlchemyViews.fetchEvents_view hs'.uniqueKeys b start stop
    have hfetch : SqlAlchemyViews.fetch strategy.engine a start stop (db.view strategy.tenantId) =
        SqlAlchemyViews.fetch strategy.engine b start stop (db'.view strategy.tenantId) := by
      unfold SqlAlchemyViews.fetch
      rw [show ((db.view strategy.tenantId).filter fun v => v.compares a) = _ from h]
      rfl
    exact hview.trans ((congrArg Except.ok hfetch).trans hview'.symm)
  | django strategy =>
    have hview : strategy.fetchEvents a start stop db = _ :=
      DjangoViews.fetchEvents_view a start stop
    have hview' : strategy.fetchEvents b start stop db' = _ :=
      DjangoViews.fetchEvents_view b start stop
    have hfetch : DjangoViews.fetch strategy.engine a start stop (db.view strategy.tenantId) =
        DjangoViews.fetch strategy.engine b start stop (db'.view strategy.tenantId) := by
      unfold DjangoViews.fetch
      rw [show ((db.view strategy.tenantId).filter fun v => v.addressed a) = _ from h]
      rfl
    exact hview.trans (hfetch.trans hview'.symm)

/-- The tables of one tenant whose stream ids are accepted, and who saves no snapshots. -/
structure Inv (uuid5 : String → Uuid) (db : Database) : Prop where
  sound : db.Sound store.engine
  only : Only store.tenantId db
  accepted : ∀ v ∈ db.view store.tenantId, v.streamId.Accepted uuid5
  held : ∀ v ∈ db.view store.tenantId, v.events ≠ []
  snapshots : db.snapshots = []

variable {store}

theorem inv_empty : Inv store uuid5 {} where
  sound := Database.sound_empty _
  only _ _ := rfl
  accepted v hv := by cases hv
  held v hv := by cases hv
  snapshots := rfl

theorem Inv.row (h : Inv store uuid5 db) {row : StreamRow} (hrow : row ∈ db.streams) :
    row.tenantId = store.tenantId ∧ row.streamId.Accepted uuid5 := by
  have ht := h.only.tenantId hrow
  exact ⟨ht, h.accepted (db.viewOf row) (mem_view.2 ⟨row, hrow, ht, rfl⟩)⟩

theorem columns_of_selects {head : StreamHead} (hhead : head.streamId.Accepted uuid5)
    (hid : streamId.Accepted uuid5) (h : store.selects streamId head) :
    head.key = columns streamId := by
  cases store with
  | sqlAlchemy strategy => exact columns_of_compares h
  | django strategy => exact columns_of_addressed hhead hid h

theorem accepted_searched {version : Option ℤ} {base : Streams}
    (h : ∀ v ∈ streams, v.streamId.Accepted uuid5) (hid : streamId.Accepted uuid5)
    (hsearched : Searched streamId version streams base) :
    ∀ v ∈ base, v.streamId.Accepted uuid5 := by
  rcases hsearched with rfl | ⟨-, rfl⟩
  · exact h
  · intro v hv
    rcases List.mem_append.1 hv with hv | hv
    · exact h v hv
    · rw [List.mem_singleton.1 hv]
      exact hid

theorem accepted_inserted {versioning : Versioning} {bodies : List EventBody}
    (h : ∀ v ∈ streams, v.streamId.Accepted uuid5) (hid : streamId.Accepted uuid5)
    (hinserted : Inserted streamId versioning bodies streams streams') :
    ∀ v ∈ streams', v.streamId.Accepted uuid5 := by
  obtain ⟨base, hsearched, -, rfl⟩ := hinserted
  intro v' hv'
  obtain ⟨v, hv, rfl⟩ := List.mem_map.1 hv'
  have haccepted := accepted_searched h hid hsearched v hv
  split
  · exact haccepted
  · exact haccepted

theorem held_inserted {versioning : Versioning} {bodies : List EventBody}
    (h : ∀ v ∈ streams, v.events ≠ []) (hbodies : bodies ≠ [])
    (hinserted : Inserted streamId versioning bodies streams streams') :
    ∀ v ∈ streams', v.events ≠ [] := by
  obtain ⟨base, hsearched, -, rfl⟩ := hinserted
  intro v' hv'
  obtain ⟨v, hv, rfl⟩ := List.mem_map.1 hv'
  split
  · simp [advanceBy, hbodies]
  · rename_i hkey
    exact h v (hsearched.mem hv hkey)

/-- A change of a stream that is not selected leaves the selection. -/
theorem filter_modify {key : Uuid × String} {f : StreamView → StreamView} {p : StreamView → Bool}
    (hsame : ∀ v, p (f v) = p v) (hmiss : ∀ v ∈ streams, p v → v.key ≠ key) :
    (modify key f streams).filter p = streams.filter p := by
  unfold modify
  rw [List.filter_map]
  have hfilter : streams.filter (p ∘ fun v => if v.key = key then f v else v) =
      streams.filter p := by
    apply List.filter_congr
    intro v _
    rw [Function.comp_apply]
    split
    · exact hsame v
    · rfl
  rw [hfilter]
  refine (List.map_congr_left fun v hv => ?_).trans (List.map_id _)
  obtain ⟨hv, hp⟩ := List.mem_filter.1 hv
  exact if_neg (hmiss v hv hp)

/-- An insertion leaves what is selected for an id with other columns. -/
theorem selected_inserted {versioning : Versioning} {bodies : List EventBody}
    (h : ∀ v ∈ streams, v.streamId.Accepted uuid5) (hid : streamId.Accepted uuid5)
    (hb : b.Accepted uuid5) (hne : columns streamId ≠ columns b)
    (hinserted : Inserted streamId versioning bodies streams streams') :
    (streams'.filter fun v => store.selects b v.toStreamHead) =
      streams.filter fun v => store.selects b v.toStreamHead := by
  obtain ⟨base, hsearched, -, rfl⟩ := hinserted
  have hbase := accepted_searched h hid hsearched
  have hmiss : ∀ v ∈ base, store.selects b v.toStreamHead → v.key ≠ columns streamId := by
    intro v hv hselects hkey
    exact hne (hkey.symm.trans (columns_of_selects (hbase v hv) hb hselects))
  have hsame : ∀ v, store.selects b (advanceBy versioning bodies v).toStreamHead =
      store.selects b v.toStreamHead := by
    intro v
    cases store <;> rfl
  rw [filter_modify hsame hmiss]
  rcases hsearched with rfl | ⟨-, rfl⟩
  · rfl
  · rw [List.filter_append]
    have hcreated : store.selects b
        (createdStream streamId versioning.initialVersion).toStreamHead = false := by
      by_contra hselects
      exact hmiss (createdStream streamId versioning.initialVersion) (by simp)
        (by simpa using hselects) rfl
    simp [hcreated]

theorem undo_snapshots {α : Type} {r : Except Error α × Database} (hdb : db.snapshots = [])
    (hr : r.2.snapshots = []) :
    (StorageStrategy.undo Database.rollback db r).2.snapshots = [] := by
  obtain ⟨answer, after⟩ := r
  cases answer with
  | error e => exact hdb
  | ok x => exact hr

/-- A deletion deletes the streams that a read selects. -/
theorem Inv.deleteStream (h : Inv store uuid5 db) (streamId : StreamId) :
    Inv store uuid5 (store.storageStrategy.deleteStream streamId db).2 ∧
      (store.storageStrategy.deleteStream streamId db).2.view store.tenantId =
        (db.view store.tenantId).filter fun v => !store.selects streamId v.toStreamHead := by
  have hkept : ∀ {p : StreamView → Bool}, ∀ v ∈ (db.view store.tenantId).filter p,
      v.streamId.Accepted uuid5 ∧ v.events ≠ [] := by
    intro p v hv
    have hmem := List.mem_of_mem_filter hv
    exact ⟨h.accepted v hmem, h.held v hmem⟩
  cases store with
  | sqlAlchemy strategy =>
    have hmisses : SqlAlchemyViews.MissesOthers strategy.engine db
        (strategy.tenantId, .delete streamId) := by
      refine ⟨fun row hrow ht => absurd (h.only.tenantId hrow) ht, .inr (.inr ?_)⟩
      rw [h.snapshots]
      exact fun _ hnone => by cases hnone
    have hdelete : SqlAlchemyViews.delete strategy.engine streamId (db.view strategy.tenantId) =
        .ok ((db.view strategy.tenantId).filter fun v => !v.compares streamId) := by
      have hnone : ((db.view strategy.tenantId).any fun v =>
          v.compares streamId && !v.snapshots.isEmpty) = false := by
        rw [List.any_eq_false]
        intro v hv
        obtain ⟨row, -, -, rfl⟩ := mem_view.1 hv
        simp [Database.viewOf, Database.snapshotsOf, h.snapshots]
      simp [SqlAlchemyViews.delete, hnone]
    have heffect := SqlAlchemyViews.deleteStream_effect strategy h.sound hmisses
    rw [hdelete] at heffect
    obtain ⟨-, hsound, hview, hothers⟩ := heffect.undo h.sound
    have hview' := hview.trans
      (rfl : _ = (db.view strategy.tenantId).filter fun v => !v.compares streamId)
    refine ⟨⟨hsound, fun u hu => (hothers u hu).trans (h.only u hu), ?_, ?_, ?_⟩, hview'⟩
    · exact fun v hv => (hkept v (hview' ▸ hv)).1
    · exact fun v hv => (hkept v (hview' ▸ hv)).2
    · apply undo_snapshots h.snapshots
      unfold SqlAlchemyStorageStrategy.storageStrategy SqlAlchemyStorageStrategy.deleteStream
      dsimp only
      split <;> exact h.snapshots
  | django strategy =>
    obtain ⟨-, hsound, hview, hothers⟩ :=
      (DjangoViews.deleteStream_effect strategy h.sound streamId).undo h.sound
    refine ⟨⟨hsound, fun u hu => (hothers u hu).trans (h.only u hu), ?_, ?_, ?_⟩, hview⟩
    · exact fun v hv => (hkept v (hview ▸ hv)).1
    · exact fun v hv => (hkept v (hview ▸ hv)).2
    · apply undo_snapshots h.snapshots
      exact congrArg (List.filter _) h.snapshots

/-- A deletion leaves what is selected for an id with other columns. -/
theorem selected_deleted (h : ∀ v ∈ streams, v.streamId.Accepted uuid5)
    (ha : a.Accepted uuid5) (hb : b.Accepted uuid5) (hne : columns a ≠ columns b) :
    ((streams.filter fun v => !store.selects a v.toStreamHead).filter fun v =>
      store.selects b v.toStreamHead) = streams.filter fun v => store.selects b v.toStreamHead := by
  rw [List.filter_filter]
  apply List.filter_congr
  intro v hv
  cases hselects : store.selects b v.toStreamHead with
  | false => rfl
  | true =>
    have hkey := columns_of_selects (h v hv) hb hselects
    have hmiss : ¬ store.selects a v.toStreamHead := fun hselects' =>
      hne ((columns_of_selects (h v hv) ha hselects').symm.trans hkey)
    simp [hmiss]

end States

section Calls
variable {store : SqlStore E} {db : Database} {serde : Serde E} {call : Call E} {r : Request}
  {b : StreamId}

theorem request_appends (hcall : call.Appends) (hr : request serde call = .ok r) :
    ∃ versioning events, r = .insert call.streamId versioning events ∧
      ∀ raw ∈ events, raw.streamId = call.streamId := by
  cases call with
  | append first events streamId expected =>
    obtain ⟨raws, hraws, rfl⟩ := map_eq_ok.1 hr
    exact ⟨_, raws, rfl, serde.serializeMany_streamId hraws⟩
  | appendEvents first events streamId expected =>
    obtain ⟨raws, hraws, rfl⟩ := map_eq_ok.1 hr
    exact ⟨_, raws, rfl, serde.serializeMany_streamId hraws⟩
  | _ => cases hcall

/-- What a call asks for that saves no snapshot. -/
theorem request_cases (hcall : call.SavesNone) (hr : request serde call = .ok r) :
    (∃ start stop, r = .fetch call.streamId start stop) ∨
    (∃ versioning events, r = .insert call.streamId versioning events ∧
      ∀ raw ∈ events, raw.streamId = call.streamId) ∨ r = .delete call.streamId := by
  cases call with
  | append first events streamId expected => exact .inr (.inl (request_appends trivial hr))
  | appendEvents first events streamId expected => exact .inr (.inl (request_appends trivial hr))
  | loadStream streamId start stop => exact .inl ⟨start, stop, (Except.ok.inj hr).symm⟩
  | saveSnapshot streamId snapshot => exact hcall.elim
  | deleteStream streamId => exact .inr (.inr (Except.ok.inj hr).symm)

theorem step_of_error {e : SerdeError} (hr : request store.dispatcher.serde call = .error e) :
    step store db call = (.error (.serde e), db) := by
  have hr' : request (store.eventStore store.dispatcher.serde).serde call = .error e := hr
  unfold step
  rw [call_eq, hr']

theorem step_of_insert {streamId : StreamId} {versioning : Versioning} {events : List RawEvent}
    (hr : request store.dispatcher.serde call = .ok (.insert streamId versioning events)) :
    step store db call =
      answered (store.storageStrategy.insertEvents streamId versioning events db) := by
  have hr' : request (store.eventStore store.dispatcher.serde).serde call =
      .ok (.insert streamId versioning events) := hr
  unfold step
  rw [call_eq, hr']
  exact Prod.ext (finish_unit _ _) rfl

/-- A call leaves the tables of one tenant, and what is selected for ids with other columns. -/
theorem step_inv (h : Inv store uuid5 db) (hcall : call.SavesNone)
    (hid : call.streamId.Accepted uuid5) : Inv store uuid5 (step store db call).2 ∧
      ∀ b : StreamId, b.Accepted uuid5 → columns call.streamId ≠ columns b →
        (((step store db call).2.view store.tenantId).filter fun v =>
          store.selects b v.toStreamHead) =
          (db.view store.tenantId).filter fun v => store.selects b v.toStreamHead := by
  unfold step
  rw [call_eq]
  cases hr : request (store.eventStore store.dispatcher.serde).serde call with
  | error e => exact ⟨h, fun _ _ _ => rfl⟩
  | ok r =>
    rcases request_cases hcall hr with ⟨start, stop, rfl⟩ | ⟨versioning, events, rfl, hstream⟩ |
      rfl
    · exact ⟨h, fun _ _ _ => rfl⟩
    · obtain ⟨hsound, honly, hcases⟩ :=
        store.insertEvents_inserted versioning h.sound h.only hstream
      have hsnapshots : (store.storageStrategy.insertEvents call.streamId versioning events
          db).2.snapshots = [] := by
        have hplain : db.withoutSnapshots = db := by
          unfold Database.withoutSnapshots
          rw [← h.snapshots]
        have hforgotten := @SqlStore.insertEvents_withoutSnapshots E db call.streamId versioning
          events store
        rw [hplain] at hforgotten
        rw [hforgotten]
        rfl
      rcases hcases with ⟨-, hview⟩ | ⟨-, hinserted⟩
      · refine ⟨⟨hsound, honly, fun v hv => h.accepted v (hview ▸ hv),
          fun v hv => h.held v (hview ▸ hv), hsnapshots⟩, ?_⟩
        intro b _ _
        exact congrArg (List.filter _) hview
      · have hbodies : events.map EventBody.ofRaw ≠ [] := by
          simpa using (request_proper hr).1
        refine ⟨⟨hsound, honly, accepted_inserted h.accepted hid hinserted,
          held_inserted h.held hbodies hinserted, hsnapshots⟩, ?_⟩
        intro b hb hne
        exact selected_inserted h.accepted hid hb hne hinserted
    · obtain ⟨hinv, hview⟩ := h.deleteStream call.streamId
      refine ⟨hinv, fun b hb hne => ?_⟩
      exact (congrArg (List.filter _) hview).trans (selected_deleted h.accepted hid hb hne)

/-- Calls through an id leave what is loaded through ids with other columns. -/
theorem step_apart {call : Call E} (h : Inv store uuid5 db) (hcall : call.SavesNone)
    (hid : call.streamId.Accepted uuid5) (hb : b.Accepted uuid5)
    (hne : columns call.streamId ≠ columns b) (start stop : Option ℤ) :
    (store.eventStore store.dispatcher.serde).loadStream b start stop (step store db call).2 =
      (store.eventStore store.dispatcher.serde).loadStream b start stop db := by
  obtain ⟨hinv, hselected⟩ := step_inv h hcall hid
  have hfetch := fetchEvents_congr store hinv.sound h.sound (hselected b hb hne) start stop
  exact congrArg (finish store.dispatcher.serde) hfetch

theorem run_inv {calls : List (Call E)}
    (hcalls : ∀ call ∈ calls, call.SavesNone ∧ call.streamId.Accepted uuid5) :
    Inv store uuid5 (run (step store) {} calls).2 := by
  have hstep : ∀ (db : Database) (call : Call E),
      call.SavesNone ∧ call.streamId.Accepted uuid5 → Inv store uuid5 db →
        Inv store uuid5 (step store db call).2 :=
    fun _ _ hcall h => (step_inv h hcall.1 hcall.2).1
  exact run_keeps hstep inv_empty hcalls

end Calls

end Sql.StreamIdentity

end EventSourcery
