import EventSourcery.KurrentServer

/-!
# Tenants of the KurrentDB store

All tenants write to one server, whose commits are numbered over all streams. What keeps the
tenants apart are the names of the streams, from which a tenant is read back. A tenant sees the
entries of its own streams, without the positions of their commits: what it calls depends on
nothing else, and what the others call changes nothing else.
-/
namespace EventSourcery.Kurrent.KurrentTenants
open Runs Tenants KurrentServer

/-- The stream is one of the tenant's, or keeps the snapshots of one. -/
def belongs (t : TenantId) (name : String) : Bool :=
  match Name.fromStreamName name with
  | .error _ => false
  | .ok name => name.tenantId = t

@[simp] theorem belongs_text (t : TenantId) (name : Name) :
    belongs t name.text = decide (name.tenantId = t) := by
  rw [belongs, Name.fromStreamName_of name.withoutSuffix_text]

@[simp] theorem belongs_snapshot (t : TenantId) (name : Name) :
    belongs t name.snapshot = decide (name.tenantId = t) := by
  rw [belongs, Name.fromStreamName_of name.withoutSuffix_snapshot]

theorem belongs_of {t : TenantId} {streamId : StreamId} {name : Name}
    (h : Name.of t streamId = .ok name) : belongs t name.text ∧ belongs t name.snapshot := by
  have htenant := (name_of_eq_ok h).1
  simp [htenant]

/-- An entry without its position among the commits of all tenants. -/
def uncommitted (entry : RecordedEvent) : RecordedEvent := { entry with commitPosition := none }

@[simp] theorem rawEvent_uncommitted (entry : RecordedEvent) (version : Option ℤ) :
    rawEvent (uncommitted entry) version = rawEvent entry version := rfl

@[simp] theorem snapshot_uncommitted (entry : RecordedEvent) :
    snapshot (uncommitted entry) = snapshot entry := rfl

/-- What a tenant sees of the server. -/
def view (t : TenantId) (log : EventLog) : EventLog where
  entries := (log.entries.filter fun entry => belongs t entry.streamName).map uncommitted
  deleted name := if belongs t name then log.deleted name else 0

section Views
variable {t : TenantId} {log log' : EventLog} {name : String}

theorem written_view (h : belongs t name) :
    (view t log).written name = (log.written name).map uncommitted := by
  have hkept : ∀ entry : RecordedEvent,
      (decide (entry.streamName = name) && belongs t entry.streamName) =
        decide (entry.streamName = name) := by
    intro entry
    by_cases hname : entry.streamName = name
    · rw [hname, h, Bool.and_true]
    · simp [hname]
  unfold EventLog.written view
  rw [List.filter_map, List.filter_filter]
  exact congrArg (List.map uncommitted) (List.filter_congr fun entry _ => hkept entry)

theorem stream_view (h : belongs t name) :
    (view t log).stream name = (log.stream name).map uncommitted := by
  unfold EventLog.stream
  rw [written_view h, List.map_drop]
  simp [view, h]

theorem lastEntry_view (h : belongs t name) :
    (view t log).lastEntry name = (log.lastEntry name).map uncommitted := by
  rw [EventLog.lastEntry, stream_view h, List.getLast?_map]
  rfl

theorem readStream_view (h : belongs t name) (position : Option Position) (limit : ℤ) :
    (view t log).readStream name position limit =
      (log.readStream name position limit).map (Option.map (List.map uncommitted)) := by
  unfold EventLog.readStream
  rw [stream_view h]
  split
  · rfl
  · simp only [List.map_eq_nil_iff]
    split
    · rfl
    · rw [List.filter_map, ← List.map_take]
      rfl

/-- Nothing more is lost when what a tenant sees is looked at again. -/
@[simp] theorem view_view (t : TenantId) (log : EventLog) : view t (view t log) = view t log := by
  unfold view
  simp only [EventLog.mk.injEq]
  constructor
  · rw [List.filter_map, List.map_map, List.filter_filter]
    refine congrArg₂ List.map rfl (List.filter_congr fun entry _ => ?_)
    simp [uncommitted]
  · funext name
    split <;> rfl

theorem view_record (h : belongs t name) (entry : NewEvent) :
    view t (log.record name entry) =
      { view t log with
        entries := (view t log).entries ++
          [entry.recorded name ((view t log).written name).length none] } := by
  rw [written_view h, List.length_map]
  simp [view, EventLog.record, uncommitted, NewEvent.recorded, h]

theorem view_append (h : belongs t name) (hsame : view t log = view t log')
    (entries : List NewEvent) :
    view t (log.append name entries) = view t (log'.append name entries) := by
  induction entries generalizing log log' with
  | nil => exact hsame
  | cons entry entries ih =>
    apply ih
    rw [view_record h, view_record h, hsame]

theorem view_delete (h : belongs t name) (hsame : view t log = view t log') :
    view t (log.delete name) = view t (log'.delete name) := by
  have hlength : (log.written name).length = (log'.written name).length := by
    rw [← List.length_map uncommitted, ← written_view h, hsame, written_view h, List.length_map]
  simp only [view, EventLog.mk.injEq] at hsame ⊢
  refine ⟨hsame.1, funext fun other => ?_⟩
  have hother := congrFun hsame.2 other
  by_cases heq : other = name
  · simp [EventLog.delete, heq, hlength]
  · simpa [EventLog.delete, heq] using hother

/-- Entries of other tenants do not show. -/
theorem view_of_grows {kind : RecordedEvent → Prop} (h : Grows kind log log')
    (hkind : ∀ entry, kind entry → belongs t entry.streamName = false) :
    view t log' = view t log := by
  obtain ⟨new, hnew, hall⟩ := h.added
  have hnone : new.filter (fun entry => belongs t entry.streamName) = [] :=
    List.filter_eq_nil_iff.2 fun entry hentry => by simp [hkind entry (hall entry hentry)]
  unfold view
  rw [hnew, List.filter_append, hnone, List.append_nil, h.deleted]

end Views

section Requests
variable {t : TenantId} {log log' : EventLog}

theorem readSnapshot_view {name : Name} (h : name.tenantId = t) :
    readSnapshot name (view t log) =
      (readSnapshot name log).map (Option.map (Prod.map uncommitted id)) := by
  unfold readSnapshot
  rw [lastEntry_view (by simp [h])]
  cases log.lastEntry name.snapshot with
  | none => rfl
  | some entry =>
    simp only [Option.map_some, snapshot_uncommitted]
    cases snapshot entry <;> rfl

theorem firstSnapshot_view {name : Name} (h : name.tenantId = t) (start : Option ℤ) :
    firstSnapshot name start (view t log) =
      (firstSnapshot name start log).map (Option.map (Prod.map uncommitted id)) := by
  unfold firstSnapshot
  split
  · exact readSnapshot_view h
  · rfl

theorem rangeAfter_uncommitted (found : Option (RecordedEvent × RawEvent)) (start stop : Option ℤ) :
    rangeAfter (found.map (Prod.map uncommitted id)) start stop = rangeAfter found start stop := by
  cases found <;> rfl

theorem decode_uncommitted (entries : List RecordedEvent) :
    (entries.map uncommitted).mapM (fun entry =>
        ((rawEvent entry none).map fun raw => (entry, raw)).mapError CodecError.toError) =
      (entries.mapM fun entry =>
        ((rawEvent entry none).map fun raw => (entry, raw)).mapError CodecError.toError).map
          (List.map (Prod.map uncommitted id)) := by
  induction entries with
  | nil => rfl
  | cons entry entries ih =>
    rw [List.map_cons, List.mapM_cons, List.mapM_cons, ih, rawEvent_uncommitted]
    cases rawEvent entry none with
    | error e => rfl
    | ok raw => cases entries.mapM fun entry =>
        ((rawEvent entry none).map fun raw => (entry, raw)).mapError CodecError.toError <;> rfl

/-- What a tenant loads, it loads from what it sees. -/
theorem fetchEvents_view (streamId : StreamId) (start stop : Option ℤ) :
    fetchEvents ⟨t⟩ streamId start stop (view t log) = fetchEvents ⟨t⟩ streamId start stop log := by
  unfold fetchEvents fetchEntries
  cases hname : Name.of t streamId with
  | error e => rfl
  | ok name =>
    simp only [bind, Except.bind, firstSnapshot_view (name_of_eq_ok hname).1]
    cases firstSnapshot name start log with
    | error e => rfl
    | ok found =>
      have hread := @readStream_view t log name.text (belongs_of hname).1
        (rangeAfter found start stop).1 (rangeAfter found start stop).2
      have hmapped : (Except.ok found : Except Error _).map
          (Option.map (Prod.map uncommitted id)) = .ok (found.map (Prod.map uncommitted id)) := rfl
      simp only [hmapped, rangeAfter_uncommitted, hread]
      cases log.readStream name.text (rangeAfter found start stop).1
          (rangeAfter found start stop).2 with
      | error e => rfl
      | ok entries =>
        cases entries with
        | none => rfl
        | some entries =>
          change Except.map _ (Except.bind (List.mapM _ (entries.map uncommitted)) _) =
            Except.map _ (Except.bind (List.mapM _ entries) _)
          rw [decode_uncommitted]
          cases entries.mapM fun entry =>
              ((rawEvent entry none).map fun raw => (entry, raw)).mapError CodecError.toError with
          | error e => rfl
          | ok events => cases found <;> simp [Except.map, Except.bind, pure, Except.pure]

/-- Where a tenant sees the same, an operation answers the same and leaves it the same to see. -/
def Respects (t : TenantId) (f : EventLog → Except Error Unit × EventLog) : Prop :=
  ∀ log log', view t log = view t log' →
    (f log).1 = (f log').1 ∧ view t (f log).2 = view t (f log').2

theorem ensureStream_view (streamId : StreamId) (versioning : Versioning)
    (hsame : view t log = view t log') :
    ensureStream ⟨t⟩ streamId versioning log = ensureStream ⟨t⟩ streamId versioning log' := by
  unfold ensureStream
  cases hname : Name.of t streamId with
  | error e => rfl
  | ok name =>
    have hpositions : ∀ log,
        ((view t log).lastEntry name.text).map (fun e => (e.streamPosition : ℤ)) =
          (log.lastEntry name.text).map fun e => (e.streamPosition : ℤ) := by
      intro log
      rw [lastEntry_view (belongs_of hname).1, Option.map_map]
      rfl
    simp only [bind, Except.bind]
    rw [← hpositions log, hsame, hpositions]

theorem respects_appendEvents {name : String} (h : belongs t name) (events : List RawEvent) :
    Respects t (KurrentServer.appendEvents name events) := by
  intro log log' hsame
  unfold KurrentServer.appendEvents
  cases events.mapM fun raw => newEntry raw [] with
  | error e => exact ⟨rfl, hsame⟩
  | ok entries => exact ⟨rfl, view_append h hsame entries⟩

theorem respects_insertEach (versioning : Versioning) (events : List RawEvent)
    (streamIds : List StreamId) : Respects t (insertEach ⟨t⟩ versioning events streamIds) := by
  induction streamIds with
  | nil => exact fun log log' hsame => ⟨rfl, hsame⟩
  | cons streamId rest ih =>
    intro log log' hsame
    unfold insertEach
    rw [ensureStream_view streamId versioning hsame]
    cases ensureStream ⟨t⟩ streamId versioning log' with
    | error e => exact ⟨rfl, hsame⟩
    | ok u =>
      cases hname : Name.of t streamId with
      | error e => exact ⟨rfl, hsame⟩
      | ok name =>
        have hfirst := respects_appendEvents (belongs_of hname).1
          (events.filter fun raw => raw.streamId.eq streamId) log log' hsame
        revert hfirst
        dsimp only
        generalize KurrentServer.appendEvents name.text _ log = r
        generalize KurrentServer.appendEvents name.text _ log' = r'
        obtain ⟨answer, after⟩ := r
        obtain ⟨answer', after'⟩ := r'
        rintro ⟨hanswer, hview⟩
        dsimp only at hanswer
        subst hanswer
        cases answer with
        | error e => exact ⟨rfl, hview⟩
        | ok u => exact ih after after' hview

theorem respects_saveSnapshot (raw : RawEvent) : Respects t (saveSnapshot ⟨t⟩ raw) := by
  intro log log' hsame
  unfold saveSnapshot
  cases hname : Name.of t raw.streamId with
  | error e => exact ⟨rfl, hsame⟩
  | ok name =>
    cases snapshotEntry raw with
    | error e => exact ⟨rfl, hsame⟩
    | ok entry => exact ⟨rfl, view_append (belongs_of hname).2 hsame [entry]⟩

theorem respects_deleteStream (streamId : StreamId) : Respects t (deleteStream ⟨t⟩ streamId) := by
  intro log log' hsame
  unfold deleteStream
  cases hname : Name.of t streamId with
  | error e => exact ⟨rfl, hsame⟩
  | ok name => exact ⟨rfl, view_delete (belongs_of hname).1 hsame⟩

end Requests

/-- The strategy of a tenant on what the tenant sees. -/
def ownStrategy (t : TenantId) : StorageStrategy EventLog where
  fetchEvents := fetchEvents ⟨t⟩
  insertEvents _ versioning events log :=
    (insertEvents ⟨t⟩ versioning events log).map id (view t)
  saveSnapshot raw log := (saveSnapshot ⟨t⟩ raw log).map id (view t)
  deleteStream streamId log := (deleteStream ⟨t⟩ streamId log).map id (view t)

theorem Respects.own {t : TenantId} {f : EventLog → Except Error Unit × EventLog}
    (h : Respects t f) (log : EventLog) :
    (f log).1 = (f (view t log)).1 ∧ view t (f log).2 = view t (f (view t log)).2 :=
  h log (view t log) (view_view t log).symm

theorem requestStep_own (t : TenantId) (log : EventLog) (r : Request) :
    (requestStep (fun u => storageStrategy ⟨u⟩) log (t, r)).1 =
        ((ownStrategy t).handle (view t log) r).1 ∧
      view t (requestStep (fun u => storageStrategy ⟨u⟩) log (t, r)).2 =
        ((ownStrategy t).handle (view t log) r).2 := by
  cases r with
  | fetch streamId start stop => exact ⟨(fetchEvents_view streamId start stop).symm, rfl⟩
  | insert streamId versioning events =>
    obtain ⟨hanswer, hview⟩ := (respects_insertEach versioning events _).own log
    exact ⟨congrArg (Except.map _) hanswer, hview⟩
  | snapshot raw =>
    obtain ⟨hanswer, hview⟩ := (respects_saveSnapshot raw).own log
    exact ⟨congrArg (Except.map _) hanswer, hview⟩
  | delete streamId =>
    obtain ⟨hanswer, hview⟩ := (respects_deleteStream streamId).own log
    exact ⟨congrArg (Except.map _) hanswer, hview⟩

/-- A request of another tenant does not show. -/
theorem requestStep_other {t u : TenantId} (hne : u ≠ t) (log : EventLog) (r : Request) :
    view t (requestStep (fun u => storageStrategy ⟨u⟩) log (u, r)).2 = view t log := by
  cases r with
  | fetch streamId start stop => rfl
  | insert streamId versioning events =>
    apply view_of_grows (insertEach_grows versioning events _ log)
    rintro entry ⟨name, htenant, hstream, -⟩
    dsimp only at htenant
    simp [hstream, htenant, hne]
  | snapshot raw =>
    apply view_of_grows (saveSnapshot_grows raw log)
    rintro entry ⟨name, htenant, hstream, -⟩
    dsimp only at htenant
    simp [hstream, htenant, hne]
  | delete streamId =>
    change view t (deleteStream ⟨u⟩ streamId log).2 = view t log
    rcases deleteStream_cases ⟨u⟩ streamId log with hsame | ⟨name, hname, hdelete⟩
    · rw [hsame]
    · have hforeign : belongs t name.text = false := by
        simp [(name_of_eq_ok hname).1, hne]
      rw [hdelete]
      simp only [view, EventLog.delete, EventLog.mk.injEq, true_and]
      funext other
      by_cases heq : other = name.text
      · simp [heq, hforeign]
      · simp [heq]

theorem unwinding_stores {E : Type} (serdes : TenantId → Serde E) (t : TenantId) :
    Unwinding (callStep (stores serdes)) (Requesting serdes fun _ _ => True) (fun _ => True) t
      (view t) (EventStore.call ⟨ownStrategy t, serdes t⟩) :=
  unwinding_calls
    { keep := fun _ _ _ _ => trivial
      answer := fun log r _ _ => (requestStep_own t log r).1
      own := fun log r _ _ => (requestStep_own t log r).2
      other := fun log _ r hne _ _ => requestStep_other hne log r }

/-- What the other tenants call makes no difference to a tenant, whatever identifiers, categories
and events they share. -/
theorem kurrent_isolation {E : Type} (serdes : TenantId → Serde E) (t : TenantId)
    {is js : List (TenantId × Call E)} (hsame : inputsOf t is = inputsOf t js) :
    answersOf t is (run (callStep (stores serdes)) {} is).1 =
      answersOf t js (run (callStep (stores serdes)) {} js).1 := by
  have hmeets : ∀ is : List (TenantId × Call E),
      Meets (callStep (stores serdes)) (Requesting serdes fun _ _ => True) {} is := by
    intro is
    apply meets_of_forall
    intro log i
    unfold Requesting
    split <;> trivial
  exact (unwinding_stores serdes t).two_runs trivial (hmeets is) (hmeets js) hsame

section Example

/-- The tenant "b" appends to a stream twice and loads it. -/
def undisturbed : List (TenantId × Call Unit) :=
  [("b", .append (orderEvent 1) [] order .noVersioning),
    ("b", .append (orderEvent 2) [] order (.version 1)), ("b", .loadStream order none none)]

/-- In between, the tenant "a" works on its stream with the same identifier. -/
def disturbed : List (TenantId × Call Unit) :=
  [("b", .append (orderEvent 1) [] order .noVersioning),
    ("a", .append (orderEvent 1) [] order .noVersioning),
    ("a", .saveSnapshot order (orderEvent 1)),
    ("b", .append (orderEvent 2) [] order (.version 1)), ("a", .deleteStream order),
    ("b", .loadStream order none none)]

theorem kurrent_isolation_disturbed :
    answersOf "b" undisturbed (run (callStep (stores fun _ => orderSerde)) {} undisturbed).1 =
      answersOf "b" disturbed (run (callStep (stores fun _ => orderSerde)) {} disturbed).1 :=
  kurrent_isolation (fun _ => orderSerde) "b" rfl

end Example

end EventSourcery.Kurrent.KurrentTenants
