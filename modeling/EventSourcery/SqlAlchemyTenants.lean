import EventSourcery.SqlAlchemyViews

/-!
# Tenants of the SQLAlchemy store

The version bump, the lookup of `save_snapshot` and the deletions of
`delete_stream` name the stream and not the tenant. As long as they find no row
of another tenant, what the other tenants do makes no difference to a tenant. Each call
has a session of its own here.
-/
namespace EventSourcery.Sql.SqlAlchemyTenants
open EventStore Runs Tenants SqlAlchemyStorageStrategy SqlAlchemyViews

variable {E : Type}

/-- Every event and every snapshot has one of the uuids. -/
structure Drawn (uuids : List Uuid) (db : Database) : Prop where
  events : ∀ event ∈ db.events, event.body.uuid ∈ uuids
  snapshots : ∀ held ∈ db.snapshots, held.body.uuid ∈ uuids

theorem Drawn.mono {uuids uuids' : List Uuid} {db : Database} (h : Drawn uuids db)
    (hsubset : uuids ⊆ uuids') : Drawn uuids' db :=
  ⟨fun event hevent => hsubset (h.events event hevent),
    fun held hheld => hsubset (h.snapshots held hheld)⟩

section Steps
variable (strategy : SqlAlchemyStorageStrategy E) {db : Database} {uuids : List Uuid}

theorem drawn_openStream (h : Drawn uuids db) (streamId : StreamId) (initialVersion : Option ℤ) :
    Drawn uuids (strategy.openStream streamId initialVersion db) := by
  unfold openStream insertOrNothing
  split
  · split
    · exact h
    · exact ⟨h.events, h.snapshots⟩
  · exact h

theorem drawn_ensureStream (h : Drawn uuids db) (streamId : StreamId) (versioning : Versioning) :
    Drawn uuids (strategy.ensureStream streamId versioning db).2 := by
  have hopened := drawn_openStream strategy h streamId versioning.initialVersion
  unfold ensureStream
  dsimp only
  split
  · exact hopened
  · split
    · exact hopened
    · exact hopened
    · split
      · exact ⟨hopened.events, hopened.snapshots⟩
      · exact ⟨hopened.events, hopened.snapshots⟩

theorem drawn_storeEvents (h : Drawn uuids db) (stream : StreamRow) (events : List RawEvent) :
    Drawn (uuids ++ events.map (·.uuid)) (strategy.storeEvents stream events db).2 := by
  have hold : Drawn (uuids ++ events.map (·.uuid)) db := h.mono (List.subset_append_left _ _)
  unfold storeEvents
  dsimp only
  split
  · have hadded : Drawn (uuids ++ events.map (·.uuid))
        (db.addEvents strategy.engine stream.id (events.map .ofRaw)).2 := by
      refine ⟨fun event hevent => ?_, hold.snapshots⟩
      rcases List.mem_append.1 hevent with hevent | hevent
      · exact hold.events event hevent
      · have hbody := List.mem_map_of_mem (f := (·.body)) hevent
        rw [eventRows_body] at hbody
        obtain ⟨raw, hraw, hbody⟩ := List.mem_map.1 hbody
        rw [← hbody]
        exact List.mem_append_right _ (List.mem_map_of_mem (f := (·.uuid)) hraw)
    cases strategy.outbox with
    | none => exact hadded
    | some outbox => exact ⟨hadded.events, hadded.snapshots⟩
  · exact hold

theorem drawn_insertEvents (h : Drawn uuids db) (streamId : StreamId) (versioning : Versioning)
    (events : List RawEvent) :
    Drawn (uuids ++ events.map (·.uuid))
      (strategy.insertEvents streamId versioning events db).2 := by
  have hensured := drawn_ensureStream strategy h streamId versioning
  unfold insertEvents
  revert hensured
  generalize strategy.ensureStream streamId versioning db = r
  intro hensured
  split
  · exact hensured.mono (List.subset_append_left _ _)
  · exact drawn_storeEvents strategy hensured _ _

theorem drawn_saveSnapshot (h : Drawn uuids db) (raw : RawEvent) :
    Drawn (uuids ++ [raw.uuid]) (saveSnapshot raw db).2 := by
  have hold : Drawn (uuids ++ [raw.uuid]) db := h.mono (List.subset_append_left _ _)
  unfold SqlAlchemyStorageStrategy.saveSnapshot
  split
  · exact hold
  · split
    · exact hold
    · refine ⟨hold.events, fun held hheld => ?_⟩
      rcases List.mem_append.1 hheld with hheld | hheld
      · exact hold.snapshots held hheld
      · rw [List.mem_singleton.1 hheld]
        exact List.mem_append_right _ (List.mem_singleton_self _)
  · exact hold

theorem drawn_deleteStream (h : Drawn uuids db) (streamId : StreamId) :
    Drawn uuids (strategy.deleteStream streamId db).2 := by
  have hevents : ∀ event ∈ (db.deleteEvents fun row => row.compares streamId).events,
      event.body.uuid ∈ uuids := fun event hevent => h.events event (List.mem_filter.1 hevent).1
  unfold SqlAlchemyStorageStrategy.deleteStream
  dsimp only
  split
  · exact ⟨hevents, h.snapshots⟩
  · exact ⟨hevents, h.snapshots⟩

theorem drawn_undo {α : Type} {r : Except Error α × Database} (h : Drawn uuids db)
    (hr : Drawn uuids r.2) : Drawn uuids (StorageStrategy.undo Database.rollback db r).2 := by
  unfold StorageStrategy.undo
  split
  · exact ⟨h.events, h.snapshots⟩
  · exact hr

end Steps

section Backend
variable (engine : Engine) (dispatchers : TenantId → Dispatcher E) (outbox : Option OutboxStrategy)

theorem drawn_requestStep {db : Database} {uuids : List Uuid} (h : Drawn uuids db)
    (i : TenantId × Request) :
    Drawn (uuids ++ i.2.uuids) (requestStep (strategies engine dispatchers outbox) db i).2 := by
  have hold : Drawn (uuids ++ i.2.uuids) db := h.mono (List.subset_append_left _ _)
  obtain ⟨u, r⟩ := i
  cases r with
  | fetch streamId start stop => exact hold
  | insert streamId versioning events => exact drawn_undo hold (drawn_insertEvents _ h _ _ _)
  | snapshot raw => exact drawn_undo hold (drawn_saveSnapshot h raw)
  | delete streamId => exact drawn_undo hold (drawn_deleteStream _ hold streamId)

theorem uuidsApart_of_drawn {db : Database} {uuids : List Uuid} (h : Drawn uuids db)
    {i : TenantId × Request} (hfresh : ∀ uuid ∈ i.2.uuids, uuid ∉ uuids) : UuidsApart db i := by
  obtain ⟨u, r⟩ := i
  cases r with
  | fetch streamId start stop => trivial
  | insert streamId versioning events =>
    intro event hevent _ raw hraw huuid
    exact hfresh raw.uuid (List.mem_map_of_mem hraw) (huuid ▸ h.events event hevent)
  | snapshot raw =>
    intro held hheld _ huuid
    exact hfresh raw.uuid (List.mem_singleton_self _) (huuid ▸ h.snapshots held hheld)
  | delete streamId => trivial

/-- In the run no statement of a tenant finds a row of another one. -/
def KeepsToOwnRows (is : List (TenantId × Call E)) : Prop :=
  Meets (callStep (stores engine dispatchers outbox))
    (Requesting (fun u => (dispatchers u).serde) (MissesOthers engine)) {} is

theorem meets_uuidsApart {db : Database} {uuids : List Uuid} (h : Drawn uuids db)
    {is : List (TenantId × Call E)}
    (hnodup : (uuids ++ is.flatMap fun i => i.2.uuids).Nodup)
    (hmeets : Meets (callStep (stores engine dispatchers outbox))
      (Requesting (fun u => (dispatchers u).serde) (MissesOthers engine)) db is) :
    Meets (callStep (stores engine dispatchers outbox))
      (Requesting (fun u => (dispatchers u).serde) fun db i =>
        MissesOthers engine db i ∧ UuidsApart db i) db is := by
  induction is generalizing db uuids with
  | nil => trivial
  | cons i is ih =>
    obtain ⟨u, c⟩ := i
    obtain ⟨hmiss, hrest⟩ := hmeets
    rw [List.flatMap_cons, ← List.append_assoc] at hnodup
    cases hr : request (dispatchers u).serde c with
    | error e =>
      have hstep : callStep (stores engine dispatchers outbox) db (u, c) =
          (.error (.serde e), db) := callStep_of_error hr
      rw [hstep] at hrest
      refine ⟨by simp [Requesting, hr], ?_⟩
      rw [hstep]
      exact ih (h.mono (List.subset_append_left _ _)) hnodup hrest
    | ok r =>
      have hstep : (callStep (stores engine dispatchers outbox) db (u, c)).2 =
          (requestStep (strategies engine dispatchers outbox) db (u, r)).2 :=
        congrArg Prod.snd (callStep_of_ok hr)
      have hdrawn := drawn_requestStep engine dispatchers outbox h (u, r)
      rw [request_uuids hr] at hdrawn
      have hfresh : ∀ uuid ∈ r.uuids, uuid ∉ uuids := by
        rw [request_uuids hr]
        exact fun uuid huuid hold =>
          (List.nodup_append.1 (List.nodup_append.1 hnodup).1).2.2 uuid hold uuid huuid rfl
      rw [hstep] at hrest
      refine ⟨?_, ?_⟩
      · simpa [Requesting, hr] using
          And.intro (hmiss.ok hr) (uuidsApart_of_drawn h (i := (u, r)) hfresh)
      · rw [hstep]
        exact ih hdrawn hnodup hrest

/-- As long as the statements that do not look at the tenant find no row of another
tenant, what the other tenants do makes no difference to a tenant. -/
theorem isolation_of_own_rows (blind : ∀ u, (dispatchers u).PositionBlind) (t : TenantId)
    {is js : List (TenantId × Call E)} (hi : KeepsToOwnRows engine dispatchers outbox is)
    (hj : KeepsToOwnRows engine dispatchers outbox js) (hui : DistinctUuids is)
    (huj : DistinctUuids js) (hsame : inputsOf t is = inputsOf t js) :
    answersOf t is (run (callStep (stores engine dispatchers outbox)) {} is).1 =
      answersOf t js (run (callStep (stores engine dispatchers outbox)) {} js).1 := by
  have hempty : Drawn [] {} := ⟨by simp, by simp⟩
  exact (unwinding_stores engine dispatchers outbox blind t).two_runs (Database.sound_empty engine)
    (meets_uuidsApart engine dispatchers outbox hempty hui hi)
    (meets_uuidsApart engine dispatchers outbox hempty huj hj) hsame

end Backend

end EventSourcery.Sql.SqlAlchemyTenants
