import EventSourcery.DjangoViews

/-!
# Tenants of the Django store

As long as no two tenants write the same uuid, what the other tenants do makes
no difference to a tenant, whatever identifiers and names their streams share.
-/
namespace EventSourcery.Sql.DjangoTenants
open EventStore Runs Tenants DjangoStorageStrategy DjangoViews

variable {E : Type}

/-- Every event and every snapshot of the streams has one of the uuids. -/
def Drawn (uuids : List Uuid) (streams : Streams) : Prop :=
  ∀ v ∈ streams, (∀ body ∈ v.events, body.uuid ∈ uuids) ∧ ∀ body ∈ v.snapshots, body.uuid ∈ uuids

section Requests
variable {uuids : List Uuid} {streams : Streams}

theorem drawn_modify (h : Drawn uuids streams) {f : StreamView → StreamView}
    (hf : ∀ v ∈ streams, (∀ body ∈ (f v).events, body.uuid ∈ uuids) ∧
      ∀ body ∈ (f v).snapshots, body.uuid ∈ uuids) (key : Uuid × String) :
    Drawn uuids (modify key f streams) := by
  intro v hv
  obtain ⟨w, hw, rfl⟩ := List.mem_map.1 hv
  split
  · exact hf w hw
  · exact h w hw

theorem drawn_getOrCreate (h : Drawn uuids streams) (streamId : StreamId)
    (initialVersion : Option ℤ) :
    Drawn uuids (DjangoViews.getOrCreate streamId initialVersion streams).2 := by
  unfold DjangoViews.getOrCreate
  dsimp only
  split
  · split
    · exact h
    · intro v hv
      rcases List.mem_append.1 hv with hv | hv
      · exact h v hv
      · rw [List.mem_singleton.1 hv]
        simp
  · exact h

theorem drawn_ensure (h : Drawn uuids streams) (streamId : StreamId) (versioning : Versioning) :
    Drawn uuids (ensure streamId versioning streams).2 := by
  have hcreated := drawn_getOrCreate h streamId versioning.initialVersion
  revert hcreated
  unfold ensure
  generalize DjangoViews.getOrCreate streamId versioning.initialVersion streams = r
  obtain ⟨answer, created⟩ := r
  intro hcreated
  split
  · exact h
  · cases answer with
    | error e => exact hcreated
    | ok model =>
      have hbumped : ∀ hit : StreamView → Bool, Drawn uuids (created.map fun v =>
          if hit v then { v with version := versioning.initialVersion } else v) := by
        intro hit v hv
        obtain ⟨w, hw, rfl⟩ := List.mem_map.1 hv
        split
        · exact hcreated w hw
        · exact hcreated w hw
      dsimp only
      split
      · exact hcreated
      · exact hcreated
      · split
        · exact hbumped _
        · exact hbumped _

theorem drawn_store (h : Drawn uuids streams) (verdict : Except Error Unit) {events : List RawEvent}
    (hevents : ∀ raw ∈ events, raw.uuid ∈ uuids) :
    Drawn uuids (store verdict events streams).2 := by
  unfold store
  split
  · exact h
  · split
    · exact h
    · dsimp only
      split
      · apply drawn_modify h
        intro v hv
        refine ⟨fun body hbody => ?_, (h v hv).2⟩
        rcases List.mem_append.1 hbody with hbody | hbody
        · exact (h v hv).1 body hbody
        · obtain ⟨raw, hraw, rfl⟩ := List.mem_map.1 hbody
          exact hevents raw hraw
      · exact h

theorem drawn_insert (h : Drawn uuids streams) (verdict : Except Error Unit) (streamId : StreamId)
    (versioning : Versioning) {events : List RawEvent}
    (hevents : ∀ raw ∈ events, raw.uuid ∈ uuids) :
    Drawn uuids (DjangoViews.insert verdict streamId versioning events streams).2 := by
  have hensured := drawn_ensure h streamId versioning
  revert hensured
  unfold DjangoViews.insert
  generalize ensure streamId versioning streams = r
  intro hensured
  split
  · exact hensured
  · exact drawn_store hensured verdict hevents

theorem drawn_snapshot (h : Drawn uuids streams) {raw : RawEvent} (hraw : raw.uuid ∈ uuids) :
    Drawn uuids (snapshot raw streams).2 := by
  unfold snapshot
  split
  · exact h
  · split
    · exact h
    · have hdropped : Drawn uuids (streams.map fun w =>
          { w with snapshots := w.snapshots.filter fun body => body.uuid ≠ raw.uuid }) := by
        intro v hv
        obtain ⟨w, hw, rfl⟩ := List.mem_map.1 hv
        exact ⟨(h w hw).1, fun body hbody => (h w hw).2 body (List.mem_filter.1 hbody).1⟩
      apply drawn_modify hdropped
      intro v hv
      refine ⟨(hdropped v hv).1, fun body hbody => ?_⟩
      rcases List.mem_append.1 hbody with hbody | hbody
      · exact (hdropped v hv).2 body hbody
      · rw [List.mem_singleton.1 hbody]
        exact hraw

theorem drawn_undo {α : Type} {r : Except Error α × Streams} (h : Drawn uuids streams)
    (hr : Drawn uuids r.2) :
    Drawn uuids (StorageStrategy.undo (fun before _ => before) streams r).2 := by
  unfold StorageStrategy.undo
  split
  · exact h
  · exact hr

variable (engine : Engine) (dispatchers : TenantId → Dispatcher E) (atomic : Bool)

theorem drawn_handle (h : Drawn uuids streams) (t : TenantId) {r : Request}
    (hr : r.uuids ⊆ uuids) :
    Drawn uuids ((ownStrategy engine dispatchers atomic t).handle streams r).2 := by
  cases r with
  | fetch streamId start stop =>
    cases atomic with
    | false => exact h
    | true => exact h
  | insert streamId versioning events =>
    have hinsert := drawn_insert h ((dispatchers t).accept t events) streamId versioning
      fun raw hraw => hr (List.mem_map_of_mem hraw)
    cases atomic with
    | false => exact hinsert
    | true => exact drawn_undo h hinsert
  | snapshot raw =>
    have hsnapshot := drawn_snapshot h (hr (List.mem_singleton_self _))
    cases atomic with
    | false => exact hsnapshot
    | true => exact drawn_undo h hsnapshot
  | delete streamId =>
    have hdelete : Drawn uuids (delete streamId streams).2 :=
      fun v hv => h v (List.mem_filter.1 hv).1
    cases atomic with
    | false => exact hdelete
    | true => exact drawn_undo h hdelete

end Requests

/-- No two tenants write the same uuid. -/
def UuidsApart (is : List (TenantId × Call E)) : Prop :=
  ∀ i ∈ is, ∀ j ∈ is, i.1 ≠ j.1 → ∀ uuid ∈ i.2.uuids, uuid ∉ j.2.uuids

instance (is : List (TenantId × Call E)) : Decidable (UuidsApart is) :=
  decidable_of_iff (∀ i ∈ is, ∀ j ∈ is, i.1 ≠ j.1 → i.2.uuids.all (· ∉ j.2.uuids))
    (by simp [UuidsApart])

/-- The uuids that a tenant writes in a run. -/
def uuidsOf (is : List (TenantId × Call E)) (t : TenantId) : List Uuid :=
  (inputsOf t is).flatMap (·.uuids)

theorem uuids_subset {is : List (TenantId × Call E)} {i : TenantId × Call E} (hi : i ∈ is) :
    i.2.uuids ⊆ uuidsOf is i.1 := by
  intro uuid huuid
  refine List.mem_flatMap.2 ⟨i.2, ?_, huuid⟩
  exact List.mem_map_of_mem (List.mem_filter.2 ⟨hi, by simp⟩)

theorem UuidsApart.not_mem {is : List (TenantId × Call E)} (h : UuidsApart is) {t u : TenantId}
    (hne : t ≠ u) {uuid : Uuid} (huuid : uuid ∈ uuidsOf is t) : uuid ∉ uuidsOf is u := by
  intro hother
  simp only [uuidsOf, inputsOf, List.mem_flatMap, List.mem_map, List.mem_filter,
    decide_eq_true_eq] at huuid hother
  obtain ⟨_, ⟨i, ⟨hi, rfl⟩, rfl⟩, hmem⟩ := huuid
  obtain ⟨_, ⟨j, ⟨hj, rfl⟩, rfl⟩, hmem'⟩ := hother
  exact h i hi j hj hne uuid hmem hmem'

section Backend
variable (engine : Engine) (dispatchers : TenantId → Dispatcher E) (outbox : Option OutboxStrategy)
  (atomic : Bool)

/-- The tables are sound, and each tenant's rows have the tenant's uuids. -/
def Inv (uuids : TenantId → List Uuid) (db : Database) : Prop :=
  db.Sound engine ∧ ∀ t, Drawn (uuids t) (db.view t)

theorem apart_of_inv {uuids : TenantId → List Uuid}
    (hapart : ∀ t u, t ≠ u → ∀ uuid ∈ uuids t, uuid ∉ uuids u) {db : Database}
    (h : Inv engine uuids db) {i : TenantId × Request} (hi : i.2.uuids ⊆ uuids i.1) :
    Apart db i := by
  obtain ⟨u, r⟩ := i
  cases r with
  | fetch streamId start stop => trivial
  | delete streamId => trivial
  | insert streamId versioning events =>
    intro event hevent hnone raw hraw huuid
    obtain ⟨row, hrow, hid⟩ := h.1.events event hevent
    have hbody : event.body ∈ (db.viewOf row).events :=
      List.mem_map_of_mem (List.mem_filter.2 ⟨hevent, by simp [hid]⟩)
    have hdrawn := (h.2 row.tenantId _ (mem_view.2 ⟨row, hrow, rfl, rfl⟩)).1 _ hbody
    apply hapart _ _ (hnone row hrow hid) _ hdrawn
    rw [huuid]
    exact hi (List.mem_map_of_mem hraw)
  | snapshot raw =>
    intro t ht v hv body hbody huuid
    apply hapart _ _ ht _ ((h.2 t v hv).2 body hbody)
    rw [huuid]
    exact hi (List.mem_singleton_self _)

theorem inv_requestStep (blind : ∀ u, (dispatchers u).PositionBlind)
    {uuids : TenantId → List Uuid} {db : Database} (h : Inv engine uuids db)
    {i : TenantId × Request} (hapart : Apart db i) (hi : i.2.uuids ⊆ uuids i.1) :
    Inv engine uuids (requestStep (strategies engine dispatchers outbox atomic) db i).2 := by
  have heffect := requestStep_effect engine dispatchers outbox atomic blind h.1 hapart
  refine ⟨heffect.sound, fun t => ?_⟩
  by_cases ht : t = i.1
  · subst ht
    rw [heffect.view]
    exact drawn_handle engine dispatchers atomic (h.2 i.1) i.1 hi
  · rw [heffect.others t ht]
    exact h.2 t

theorem meets_apart (blind : ∀ u, (dispatchers u).PositionBlind)
    {is : List (TenantId × Call E)} (hapart : UuidsApart is) :
    Meets (callStep (stores engine dispatchers outbox atomic))
      (Requesting (fun u => (dispatchers u).serde) Apart) {} is := by
  have hstep : ∀ (db : Database) (i : TenantId × Call E), i.2.uuids ⊆ uuidsOf is i.1 →
      Inv engine (uuidsOf is) db → Requesting (fun u => (dispatchers u).serde) Apart db i ∧
        Inv engine (uuidsOf is) (callStep (stores engine dispatchers outbox atomic) db i).2 := by
    rintro db ⟨u, c⟩ hsubset h
    cases hr : request (dispatchers u).serde c with
    | error e =>
      rw [show callStep (stores engine dispatchers outbox atomic) db (u, c) = _ from
        callStep_of_error hr]
      exact ⟨by simp [Requesting, hr], h⟩
    | ok r =>
      rw [show callStep (stores engine dispatchers outbox atomic) db (u, c) = _ from
        callStep_of_ok hr]
      have hdrawn : r.uuids ⊆ uuidsOf is u := by
        rw [request_uuids hr]
        exact hsubset
      have hrequest : Apart db (u, r) :=
        apart_of_inv engine (fun t u hne uuid huuid => hapart.not_mem hne huuid) h hdrawn
      exact ⟨by simpa [Requesting, hr] using hrequest,
        inv_requestStep engine dispatchers outbox atomic blind h hrequest hdrawn⟩
  exact meets_of_invariant hstep ⟨Database.sound_empty engine, fun t v hv => by cases hv⟩
    fun i hi => uuids_subset hi

/-- What the other tenants do makes no difference to a tenant. -/
theorem django_isolation (blind : ∀ u, (dispatchers u).PositionBlind) (t : TenantId)
    {is js : List (TenantId × Call E)} (hi : UuidsApart is) (hj : UuidsApart js)
    (hsame : inputsOf t is = inputsOf t js) :
    answersOf t is (run (callStep (stores engine dispatchers outbox atomic)) {} is).1 =
      answersOf t js (run (callStep (stores engine dispatchers outbox atomic)) {} js).1 :=
  (unwinding_stores engine dispatchers outbox atomic blind t).two_runs
    (Database.sound_empty engine) (meets_apart engine dispatchers outbox atomic blind hi)
    (meets_apart engine dispatchers outbox atomic blind hj) hsame

end Backend

section Example

/-- The tenant "b" appends to a stream twice and loads it. -/
def undisturbed : List (TenantId × Call Unit) :=
  [("b", .appendEvents ⟨(), 1, 0⟩ [] order (.version 0)),
    ("b", .appendEvents ⟨(), 2, 0⟩ [] order (.version 1)), ("b", .loadStream order none none)]

/-- In between, the tenant "a" works on its stream with the same identifier. -/
def disturbed : List (TenantId × Call Unit) :=
  [("b", .appendEvents ⟨(), 1, 0⟩ [] order (.version 0)),
    ("a", .appendEvents ⟨(), 3, 0⟩ [] order (.version 0)),
    ("b", .appendEvents ⟨(), 2, 0⟩ [] order (.version 1)), ("a", .deleteStream order),
    ("b", .loadStream order none none)]

theorem django_isolation_disturbed :
    answersOf "b" undisturbed
        (run (callStep (stores postgres (fun _ => plainDispatcher) none false)) {} undisturbed).1 =
      answersOf "b" disturbed
        (run (callStep (stores postgres (fun _ => plainDispatcher) none false)) {} disturbed).1 :=
  django_isolation postgres _ none false (fun _ => plainDispatcher_quiet.positionBlind) "b"
    (by decide +kernel) (by decide +kernel) rfl

end Example

end EventSourcery.Sql.DjangoTenants
