import EventSourcery.Projector
import EventSourcery.SqlStores

/-!
# Projectors and snapshots

A projector that catches up reads the events it has missed with `load_stream`, which
gives a snapshot in the place of the events before it. So a snapshot whose version is
in the range of the missed events reaches the read model, and those events do not. The
runs here append, save snapshots and project, on the SQLAlchemy or the Django store;
bare events are appended wrapped.
-/
namespace EventSourcery.ProjectorSnapshots
open Runs Sql AppendAttempts SqlAlchemyCursorsDao
open Projector (project catchUp)

section Reads
variable {E : Type} {name : String} {streamId : StreamId} {version : ℤ} {rows : Cursors}
  {load load' : StreamId → Option ℤ → Option ℤ → Except Error (List (WrappedEvent E))}
  {event : WrappedEvent E} {s : ProjectorState E}

/-- The cursor that an error reports, when the projector then catches up. -/
def reported : CursorsError → Option (Option ℤ)
  | .streamNotTracked => some none
  | .behindStream current => some (some current)
  | _ => none

theorem increment_reported {e : CursorsError} {cursor : Option ℤ}
    (h : (increment name streamId version rows).1 = .error e) (hcursor : reported e = some cursor) :
    version ≠ 1 ∧ currentVersion name streamId rows = cursor := by
  rw [(increment_actsAt name streamId version rows).answer] at h
  rw [currentVersion_eq]
  revert h
  generalize versionsAt rows (name, streamId.key) = versions
  intro h
  unfold incrementVersion at h
  split at h
  · split at h <;> cases h
    cases hcursor
  · next hfirst =>
    refine ⟨hfirst, ?_⟩
    dsimp only at h
    split at h
    · cases h
    · cases versions with
      | nil =>
        cases h
        exact Option.some.inj hcursor
      | cons v rest =>
        simp only [List.map_cons, List.head?_cons] at h
        -- the first row was not the one before the event, which would now be at its version
        by_cases hv : v = version - 1
        · simp only [if_pos hv, lt_self_iff_false, if_false, Except.error.injEq] at h
          subst h
          cases hcursor
        · simp only [if_neg hv] at h
          split at h <;> cases h
          · exact Option.some.inj hcursor
          · cases hcursor

theorem catchUp_congr {start : Option ℤ} {placed : Except CursorsError Unit × Cursors}
    (h : load streamId start (some version) = load' streamId start (some version)) :
    catchUp load event streamId start version placed s =
      catchUp load' event streamId start version placed s := by
  unfold catchUp
  rw [h]

/-- A call reads one range: the versions after the cursor, up to the event. -/
theorem project_congr (hversion : event.version = some version)
    (h : version ≠ 1 →
      let start := (currentVersion name streamId s.cursors).map (· + 1)
      load streamId start (some version) = load' streamId start (some version)) :
    project name load event streamId s = project name load' event streamId s := by
  simp only [project, hversion]
  cases hincrement : increment name streamId version s.cursors with
  | mk answer cursors =>
    cases answer with
    | ok u => rfl
    | error e =>
      cases e with
      | streamNotTracked =>
        obtain ⟨hfirst, hcurrent⟩ := increment_reported (congrArg Prod.fst hincrement) rfl
        have hload := h hfirst
        rw [hcurrent] at hload
        exact catchUp_congr hload
      | behindStream current =>
        obtain ⟨hfirst, hcurrent⟩ := increment_reported (congrArg Prod.fst hincrement) rfl
        have hload := h hfirst
        rw [hcurrent] at hload
        exact catchUp_congr hload
      | aheadOfStream current => rfl
      | integrityError => rfl

/-- What is new to the read model is the event or was loaded. -/
def Feeds (load : StreamId → Option ℤ → Option ℤ → Except Error (List (WrappedEvent E)))
    (event : WrappedEvent E) (streamId : StreamId) (s s' : ProjectorState E) : Prop :=
  ∀ r ∈ s'.received, r ∈ s.received ∨ r.2 = streamId ∧ (r.1 = event ∨
    ∃ start stop missed, load streamId start stop = .ok missed ∧ r.1 ∈ missed)

theorem catchUp_feeds {start : Option ℤ} {placed : Except CursorsError Unit × Cursors} :
    Feeds load event streamId s (catchUp load event streamId start version placed s).2 := by
  intro r hr
  unfold catchUp at hr
  split at hr
  · exact .inl hr
  · split at hr
    · exact .inl hr
    · next missed hload =>
      rcases List.mem_append.1 hr with hr | hr
      · exact .inl hr
      · obtain ⟨value, hvalue, rfl⟩ := List.mem_map.1 hr
        rcases List.mem_append.1 hvalue with hmissed | hevent
        · exact .inr ⟨rfl, .inr ⟨start, some version, missed, hload, hmissed⟩⟩
        · exact .inr ⟨rfl, .inl (List.mem_singleton.1 hevent)⟩

theorem project_feeds : Feeds load event streamId s (project name load event streamId s).2 := by
  unfold project
  split
  · exact fun r hr => .inl hr
  · split
    · intro r hr
      rcases List.mem_append.1 hr with hr | hr
      · exact .inl hr
      · rw [List.mem_singleton.1 hr]
        exact .inr ⟨rfl, .inl rfl⟩
    · exact catchUp_feeds
    · exact catchUp_feeds
    · exact fun r hr => .inl hr
    · exact fun r hr => .inl hr

end Reads

/-- The tables, a projector over them, and the events that have been appended. -/
structure Running (E : Type) where
  database : Database := {}
  projector : ProjectorState E
  appended : List (StreamId × WrappedEvent E) := []

inductive Input (E : Type) where
  | append (first : WrappedEvent E) (events : List (WrappedEvent E)) (streamId : StreamId)
      (expected : ExpectedVersion)
  | saveSnapshot (streamId : StreamId) (snapshot : WrappedEvent E)
  | project (event : WrappedEvent E) (streamId : StreamId)

def Input.isSnapshot {E : Type} : Input E → Bool
  | .saveSnapshot _ _ => true
  | _ => false

section Runs
variable {E : Type} (name : String) (store : SqlStore E) (serde : Serde E)

/-- `load_stream` on the tables as they are. -/
def load (db : Database) (streamId : StreamId) (start stop : Option ℤ) :
    Except Error (List (WrappedEvent E)) :=
  (store.eventStore serde).loadStream streamId start stop db

def step (s : Running E) : Input E → Except ProjectorError Unit × Running E
  | .append first events streamId expected =>
      let r := (store.eventStore serde).append first events streamId expected s.database
      let added := match r.1 with
        | .ok () => (first :: events).map (streamId, ·)
        | .error _ => []
      (r.1.mapError .store, { s with database := r.2, appended := s.appended ++ added })
  | .saveSnapshot streamId snapshot =>
      let r := (store.eventStore serde).saveSnapshot streamId snapshot s.database
      (r.1.mapError .store, { s with database := r.2 })
  | .project event streamId =>
      let r := project name (load store serde s.database) event streamId s.projector
      (r.1, { s with projector := r.2 })

/-- An appended event as it is read back, with the columns of its stream. -/
def ReadsBack (appended : StreamId × WrappedEvent E) (value : WrappedEvent E) : Prop :=
  ∃ raw streamId, serde.serialize appended.1 appended.2 = .ok raw ∧
    columns streamId = columns appended.1 ∧ serde.deserialize { raw with streamId } = .ok value

/-- The value is an event that was appended to the stream, as it was or as it reads back. -/
def Appended (appended : List (StreamId × WrappedEvent E)) (streamId : StreamId)
    (value : WrappedEvent E) : Prop :=
  ∃ p ∈ appended, columns p.1 = columns streamId ∧ (value = p.2 ∨ ReadsBack serde p value)

/-- Only appended events are projected. -/
def Proper (s : Running E) : Input E → Prop
  | .project event streamId => Appended serde s.appended streamId event
  | _ => True

/-- No snapshot is in the range that a call of the projector may read: from the version
after the cursor, or from the first one if there is no cursor, up to the event. Nothing is
read for version 1. -/
def Clear (s : Running E) : Input E → Prop
  | .project event streamId => ∀ version ∈ event.version, version ≠ 1 →
      store.Clear streamId ((currentVersion name streamId s.projector.cursors).map (· + 1))
        (some version) s.database
  | _ => True

/-- The rows of events come from the appends, and every append has its stream. -/
structure Written (s : Running E) : Prop where
  sound : s.database.Sound store.engine
  only : Only store.tenantId s.database
  held : ∀ p ∈ s.appended, ∃ v ∈ s.database.view store.tenantId, v.key = columns p.1
  rows : ∀ v ∈ s.database.view store.tenantId, ∀ body ∈ v.events,
    ∃ p ∈ s.appended, columns p.1 = v.key ∧
      ∃ raw, serde.serialize p.1 p.2 = .ok raw ∧ EventBody.ofRaw raw = body

instance (s : Running E) (input : Input E) : Decidable (Clear name store s input) := by
  unfold Clear SqlStore.Clear
  split <;> infer_instance

/-- Everything received was appended. -/
def Received (s : Running E) : Prop :=
  ∀ r ∈ s.projector.received, Appended serde s.appended r.2 r.1

end Runs

section Steps
variable {E : Type} {name : String} {store : SqlStore E} {serde : Serde E} {s : Running E}
  {streamId : StreamId} {value : WrappedEvent E} {p : StreamId × WrappedEvent E}

theorem Appended.mono {appended added : List (StreamId × WrappedEvent E)}
    (h : Appended serde appended streamId value) :
    Appended serde (appended ++ added) streamId value := by
  obtain ⟨p, hp, hrest⟩ := h
  exact ⟨p, List.mem_append_left _ hp, hrest⟩

theorem Appended.uuid {appended : List (StreamId × WrappedEvent E)}
    (h : Appended serde appended streamId value) : ∃ p ∈ appended, p.2.uuid = value.uuid := by
  obtain ⟨p, hp, -, rfl | ⟨raw, read, hserialize, -, hdeserialize⟩⟩ := h
  · exact ⟨p, hp, rfl⟩
  · obtain ⟨built, -, hbuilt⟩ := bind_eq_ok.1 hdeserialize
    cases hbuilt
    exact ⟨p, hp, (serde.serialize_eq_ok hserialize).2.2.symm⟩

/-- What is loaded without snapshots was appended. -/
theorem Written.loaded (h : Written store serde s)
    (hown : ∃ p ∈ s.appended, columns p.1 = columns streamId) {start stop : Option ℤ}
    {missed : List (WrappedEvent E)}
    (hload : load store serde s.database.withoutSnapshots streamId start stop = .ok missed)
    (hvalue : value ∈ missed) : Appended serde s.appended streamId value := by
  obtain ⟨raws, hfetch, hread⟩ := bind_eq_ok.1 hload
  have hmany : serde.deserializeMany raws = .ok missed := mapError_eq_ok.1 hread
  obtain ⟨raw, hraw, hdeserialize⟩ := mem_of_mapM hmany hvalue
  have hstream : ∃ v ∈ s.database.view store.tenantId, v.key = columns streamId := by
    obtain ⟨p, hp, hcolumns⟩ := hown
    obtain ⟨v, hv, hkey⟩ := h.held p hp
    exact ⟨v, hv, hkey.trans hcolumns⟩
  obtain ⟨v, hv, hkey, body, hbody, rfl⟩ := store.fetchEvents_rows h.sound hstream hfetch hraw
  obtain ⟨p, hp, hcolumns, raw, hserialize, rfl⟩ := h.rows v hv body hbody
  exact ⟨p, hp, hcolumns.trans hkey, .inr ⟨raw, v.streamId, hserialize,
    (columns_streamId v.toStreamHead).trans hcolumns.symm, hdeserialize⟩⟩

theorem Written.append (h : Written store serde s) (first : WrappedEvent E)
    (events : List (WrappedEvent E)) (streamId : StreamId) (expected : ExpectedVersion) :
    Written store serde (step name store serde s (.append first events streamId expected)).2 := by
  simp only [step, EventStore.append, SqlStore.eventStore]
  cases hraws : serde.serializeMany (first :: events) streamId with
  | error e => simpa using h
  | ok raws =>
    have hstream := serde.serializeMany_streamId hraws
    obtain ⟨hsound, honly, ⟨⟨e, hanswer⟩, hview⟩ | ⟨hanswer, hgrows, hown⟩⟩ :=
      store.insertEvents_grows (EventStore.versioning first events expected) h.sound h.only hstream
    · simp only [hanswer, List.append_nil]
      exact ⟨hsound, honly, hview ▸ h.held, hview ▸ h.rows⟩
    · simp only [hanswer]
      refine ⟨hsound, honly, fun p hp => ?_, fun v hv body hbody => ?_⟩
      · rcases List.mem_append.1 hp with hp | hp
        · obtain ⟨v, hv, hkey⟩ := h.held p hp
          obtain ⟨v', hv', hkey'⟩ := hgrows.kept v hv
          exact ⟨v', hv', hkey'.trans hkey⟩
        · obtain ⟨event, -, rfl⟩ := List.mem_map.1 hp
          exact hown
      · rcases hgrows.events v hv body hbody with ⟨w, hw, hkey, hold⟩ | ⟨hkey, hnew⟩
        · obtain ⟨p, hp, hcolumns, hraw⟩ := h.rows w hw body hold
          exact ⟨p, List.mem_append_left _ hp, hcolumns.trans hkey, hraw⟩
        · obtain ⟨raw, hraw, rfl⟩ := List.mem_map.1 hnew
          obtain ⟨event, hevent, hserialize⟩ := mem_of_mapM hraws hraw
          exact ⟨(streamId, event), List.mem_append_right _ (List.mem_map_of_mem hevent),
            hkey.symm, raw, hserialize, rfl⟩

theorem Written.saveSnapshot (h : Written store serde s) (streamId : StreamId)
    (snapshot : WrappedEvent E) :
    Written store serde (step name store serde s (.saveSnapshot streamId snapshot)).2 := by
  simp only [step, EventStore.saveSnapshot, SqlStore.eventStore]
  cases serde.serialize streamId snapshot with
  | error e => exact h
  | ok raw =>
    dsimp only
    have hforgotten := store.saveSnapshot_forgotten s.database raw
    have hsound := store.saveSnapshot_sound h.sound raw
    refine ⟨hsound, fun u hu => ?_, fun p hp => ?_, fun v hv body hbody => ?_⟩
    · rw [List.eq_nil_iff_forall_not_mem]
      intro v hv
      obtain ⟨w, hw, -⟩ := Database.view_of_withoutSnapshots hforgotten hv
      rw [h.only u hu] at hw
      cases hw
    · obtain ⟨v, hv, hkey⟩ := h.held p hp
      obtain ⟨w, hw, hsame, -⟩ := Database.view_of_withoutSnapshots hforgotten.symm hv
      exact ⟨w, hw, hsame.trans hkey⟩
    · obtain ⟨w, hw, hkey, hevents⟩ := Database.view_of_withoutSnapshots hforgotten hv
      obtain ⟨p, hp, hcolumns, hraw⟩ := h.rows w hw body (hevents ▸ hbody)
      exact ⟨p, hp, hcolumns.trans hkey, hraw⟩

/-- A call reads what it would read without snapshots. -/
theorem project_of_clear (h : Written store serde s) {event : WrappedEvent E}
    (hclear : Clear name store s (.project event streamId)) :
    project name (load store serde s.database) event streamId s.projector =
      project name (load store serde s.database.withoutSnapshots) event streamId s.projector := by
  cases hversion : event.version with
  | none => simp [project, hversion]
  | some version =>
    apply project_congr hversion
    intro hfirst
    have hfetch := (hclear version hversion hfirst).fetchEvents h.sound
    exact congrArg (fun raws : Except Error (List RawEvent) => raws.bind fun raws =>
      (serde.deserializeMany raws).mapError Error.serde) hfetch

theorem Written.step (h : Written store serde s) (input : Input E) :
    Written store serde (step name store serde s input).2 := by
  cases input with
  | append first events streamId expected => exact h.append first events streamId expected
  | saveSnapshot streamId snapshot => exact h.saveSnapshot streamId snapshot
  | project event streamId => exact ⟨h.sound, h.only, h.held, h.rows⟩

theorem Received.step (hreceived : Received serde s) (h : Written store serde s) {input : Input E}
    (hproper : Proper serde s input) (hclear : Clear name store s input) :
    Received serde (step name store serde s input).2 := by
  cases input with
  | append first events streamId expected => exact fun r hr => (hreceived r hr).mono
  | saveSnapshot streamId snapshot => exact hreceived
  | project event streamId =>
    intro r hr
    have hcall := project_of_clear h hclear
    simp only [ProjectorSnapshots.step, hcall] at hr
    rcases project_feeds r hr with hr | ⟨hstream, hevent | ⟨start, stop, missed, hload, hmissed⟩⟩
    · exact hreceived r hr
    · rw [hstream, hevent]
      exact hproper
    · rw [hstream]
      obtain ⟨p, hp, hcolumns, -⟩ := hproper
      exact h.loaded ⟨p, hp, hcolumns⟩ hload hmissed

end Steps

def Running.withoutSnapshots {E : Type} (s : Running E) : Running E :=
  { s with database := s.database.withoutSnapshots }

section Comparison
variable {E : Type} {name : String} {store : SqlStore E} {serde : Serde E} {s : Running E}

theorem append_withoutSnapshots (db : Database) (first : WrappedEvent E)
    (events : List (WrappedEvent E)) (streamId : StreamId) (expected : ExpectedVersion) :
    (store.eventStore serde).append first events streamId expected db.withoutSnapshots =
      forgetting ((store.eventStore serde).append first events streamId expected db) := by
  simp only [EventStore.append, SqlStore.eventStore]
  cases serde.serializeMany (first :: events) streamId with
  | error e => rfl
  | ok raws => exact store.insertEvents_withoutSnapshots

/-- Appends and projections do the same without the snapshots. -/
theorem step_withoutSnapshots (h : Written store serde s) {input : Input E}
    (hclear : Clear name store s input) (hinput : input.isSnapshot = false) :
    step name store serde s.withoutSnapshots input =
      ((step name store serde s input).1, (step name store serde s input).2.withoutSnapshots) := by
  cases input with
  | append first events streamId expected =>
    simp only [step, Running.withoutSnapshots, append_withoutSnapshots]
    rfl
  | saveSnapshot streamId snapshot => cases hinput
  | project event streamId =>
    simp only [step, Running.withoutSnapshots, project_of_clear h hclear]

theorem saveSnapshot_withoutSnapshots (streamId : StreamId) (snapshot : WrappedEvent E) :
    (step name store serde s (.saveSnapshot streamId snapshot)).2.withoutSnapshots =
      s.withoutSnapshots := by
  simp only [step, EventStore.saveSnapshot, SqlStore.eventStore]
  cases serde.serialize streamId snapshot with
  | error e => rfl
  | ok raw =>
    have hforgotten := store.saveSnapshot_forgotten s.database raw
    simp only [Running.withoutSnapshots, hforgotten]

end Comparison

/-- Nothing is stored, and nothing has been received. -/
def initial {E : Type} (cursors : Cursors) : Running E := { projector := ⟨cursors, []⟩ }

theorem written_initial {E : Type} (store : SqlStore E) (serde : Serde E) (cursors : Cursors) :
    Written store serde (initial cursors) :=
  ⟨Database.sound_empty _, fun _ _ => rfl, fun _ hp => (by cases hp), fun _ hv => (by cases hv)⟩

/-- In a run in which no call of the projector has a snapshot in its range, all that the
read model receives was appended to the stream, and the answers, the cursors and what is
received are those of the run in which no snapshot is saved. -/
theorem received_without_snapshots {E : Type} {name : String} {store : SqlStore E}
    {serde : Serde E} {cursors : Cursors} {inputs : List (Input E)}
    (hproper : Meets (step name store serde) (Proper serde) (initial cursors) inputs)
    (hclear : Meets (step name store serde) (Clear name store) (initial cursors) inputs) :
    let r := run (step name store serde) (initial cursors) inputs
    Received serde r.2 ∧
      run (step name store serde) (initial cursors) (inputs.filter fun input => !input.isSnapshot) =
        (((inputs.zip r.1).filter fun p => !p.1.isSnapshot).map Prod.snd,
          r.2.withoutSnapshots) := by
  refine ⟨?_, ?_⟩
  · have hstart : Received serde (initial cursors) := fun r hr => by cases hr
    exact (run_history (P := fun _ s => Written store serde s ∧ Received serde s)
      (fun _ s input h hok => ⟨h.1.step input, h.2.step h.1 hok.1 hok.2⟩)
      ⟨written_initial store serde cursors, hstart⟩ inputs (meets_and.2 ⟨hproper, hclear⟩)).2
  · have hwritten : Meets (step name store serde) (fun s _ => Written store serde s)
        (initial cursors) inputs :=
      meets_of_invariant (fun s input _ h => ⟨h, h.step input⟩)
        (written_initial store serde cursors) fun _ _ => trivial
    have hhidden : ∀ (s : Running E) (input : Input E), (!input.isSnapshot) = false →
        (step name store serde s input).2.withoutSnapshots = s.withoutSnapshots := by
      intro s input hinput
      cases input with
      | saveSnapshot streamId snapshot => exact saveSnapshot_withoutSnapshots streamId snapshot
      | _ => cases hinput
    exact run_shown Running.withoutSnapshots (fun input => !input.isSnapshot)
      (fun s input hok hinput => step_withoutSnapshots hok.1 hok.2 (by simpa using hinput))
      (fun s input _ hinput => hhidden s input hinput) (meets_and.2 ⟨hwritten, hclear⟩)

section Example
open Tenants

def eventOf (uuid : Uuid) (version : ℤ) : WrappedEvent Unit := .wrap () uuid 0 (some version)

/-- Two events, a snapshot of the stream there, and a third event that is projected first. -/
def snapshotBetween : List (Input Unit) :=
  [.append (eventOf 1 1) [eventOf 2 2] order (.version 0), .saveSnapshot order (eventOf 9 2),
    .append (eventOf 3 3) [] order (.version 2), .project (eventOf 3 3) order]

/-- The events are projected up to the snapshot before the third. -/
def snapshotPassed : List (Input Unit) :=
  [.append (eventOf 1 1) [eventOf 2 2] order (.version 0), .project (eventOf 2 2) order,
    .saveSnapshot order (eventOf 9 2), .append (eventOf 3 3) [] order (.version 2),
    .project (eventOf 3 3) order]

def sqlAlchemy : SqlStore Unit := .sqlAlchemy ⟨sqlite, plainDispatcher, none, defaultTenant⟩

def django : SqlStore Unit := .django ⟨postgres, plainDispatcher, none, defaultTenant⟩

theorem received_without_snapshots_passed :
    let r := run (step "balances" sqlAlchemy plainSerde) (initial []) snapshotPassed
    Received plainSerde r.2 ∧
      run (step "balances" sqlAlchemy plainSerde) (initial [])
          (snapshotPassed.filter fun input => !input.isSnapshot) =
        (((snapshotPassed.zip r.1).filter fun p => !p.1.isSnapshot).map Prod.snd,
          r.2.withoutSnapshots) := by
  have hsecond : (order, eventOf 2 2) ∈ [(order, eventOf 1 1), (order, eventOf 2 2)] := by simp
  have hthird : (order, eventOf 3 3) ∈
      [(order, eventOf 1 1), (order, eventOf 2 2), (order, eventOf 3 3)] := by simp
  have hproper : Meets (step "balances" sqlAlchemy plainSerde) (Proper plainSerde) (initial [])
      snapshotPassed :=
    ⟨trivial, ⟨_, hsecond, rfl, .inl rfl⟩, trivial, trivial, ⟨_, hthird, rfl, .inl rfl⟩, trivial⟩
  exact received_without_snapshots hproper (by decide)

/-- The snapshot is received in the place of the first two events. -/
def ReceivesSnapshot (store : SqlStore Unit) : Prop :=
  let final := (run (step "balances" store plainSerde) (initial []) snapshotBetween).2
  Meets (step "balances" store plainSerde) (Proper plainSerde) (initial []) snapshotBetween ∧
    final.projector.received = [(eventOf 9 2, order), (eventOf 3 3, order)] ∧
    currentVersion "balances" order final.projector.cursors = some 3 ∧
    ¬ Received plainSerde final ∧
    (run (step "balances" store plainSerde) (initial [])
        (snapshotBetween.filter fun input => !input.isSnapshot)).2.projector.received =
      [(eventOf 1 1, order), (eventOf 2 2, order), (eventOf 3 3, order)]

theorem receivesSnapshot {store : SqlStore Unit} (hstore : store ∈ [sqlAlchemy, django]) :
    ReceivesSnapshot store := by
  let final := (run (step "balances" store plainSerde) (initial []) snapshotBetween).2
  have happended : final.appended =
      [(order, eventOf 1 1), (order, eventOf 2 2), (order, eventOf 3 3)] := by
    rcases List.mem_pair.1 hstore with rfl | rfl <;> decide
  have hthird : (order, eventOf 3 3) ∈
      [(order, eventOf 1 1), (order, eventOf 2 2), (order, eventOf 3 3)] := by simp
  have hreceived : final.projector.received = [(eventOf 9 2, order), (eventOf 3 3, order)] := by
    rcases List.mem_pair.1 hstore with rfl | rfl <;> decide
  refine ⟨⟨trivial, trivial, trivial, ?_, trivial⟩, hreceived, ?_, fun hall => ?_, ?_⟩
  · exact ⟨_, happended ▸ hthird, rfl, .inl rfl⟩
  · rcases List.mem_pair.1 hstore with rfl | rfl <;> decide
  · have hsnapshot : (eventOf 9 2, order) ∈ final.projector.received := by
      rw [hreceived]
      exact List.mem_cons_self
    obtain ⟨p, hp, huuid⟩ := (hall _ hsnapshot).uuid
    rw [happended] at hp
    revert p
    decide
  · rcases List.mem_pair.1 hstore with rfl | rfl <;> decide

theorem snapshot_received : ReceivesSnapshot sqlAlchemy ∧ ReceivesSnapshot django :=
  ⟨receivesSnapshot (by simp), receivesSnapshot (by simp)⟩

end Example

end EventSourcery.ProjectorSnapshots
