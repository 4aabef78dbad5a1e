import EventSourcery.Projector

/-!
# Projectors side by side

Workers that project events with one cursor table. A call of `project` changes the table
in one step, or in two when the cursor is missing or behind, and the steps of other workers
come in between. Each step is atomic, and one that violates the unique index is undone.
What a worker loads and hands to its read model in between does not touch the table.
-/
namespace EventSourcery.ProjectorConcurrency
open Runs SqlAlchemyCursorsDao

/-- Where a worker is: between two calls, or about to place a cursor. -/
inductive Phase where
  | idle
  | untracked (streamId : StreamId) (version : ℤ)
  | behind (streamId : StreamId) (version : ℤ)

structure State where
  table : Cursors
  phase : ℕ → Phase := fun _ => .idle

inductive WorkerStep where
  | increment (streamId : StreamId) (version : ℤ)
  | place

/-- What `project` goes on to after `increment`. -/
def phaseAfter (streamId : StreamId) (version : ℤ) : Except CursorsError Unit → Phase
  | .error .streamNotTracked => .untracked streamId version
  | .error (.behindStream _) => .behind streamId version
  | _ => .idle

/-- A worker takes its next step; one that is not due does nothing and has no answer. -/
def step (name : String) (s : State) (i : ℕ × WorkerStep) :
    Option (Except CursorsError Unit) × State :=
  match s.phase i.1, i.2 with
  | .idle, .increment streamId version =>
      let r := increment name streamId version s.table
      (some r.1, ⟨r.2, Function.update s.phase i.1 (phaseAfter streamId version r.1)⟩)
  | .untracked streamId version, .place =>
      let r := putAt name streamId version s.table
      (some r.1, ⟨r.2, Function.update s.phase i.1 .idle⟩)
  | .behind streamId version, .place =>
      let r := moveTo name streamId version s.table
      (some r.1, ⟨r.2, Function.update s.phase i.1 .idle⟩)
  | _, _ => (none, s)

/-- There is one row at most for a cursor. -/
def Unique (table : Cursors) : Prop := ∀ key, (versionsAt table key).length ≤ 1

/-- A step that leaves the rows unique, and does not report a version that directly follows
the cursor as one that was passed. -/
def Sound (name : String) (s : State) (i : ℕ × WorkerStep) : Prop :=
  Unique (step name s i).2.table ∧
    ∀ streamId version, i.2 = .increment streamId version →
      currentVersion name streamId s.table = some (version - 1) →
        ∀ current, (step name s i).1 ≠ some (.error (.aheadOfStream current))

/-- No cursor of a stream without a category is put where there is one, and version 1 does
not come to a cursor at version 0. -/
def Guarded (name : String) (s : State) (i : ℕ × WorkerStep) : Prop :=
  match s.phase i.1, i.2 with
  | .idle, .increment streamId version =>
      version = 1 → currentVersion name streamId s.table ≠ some 0
  | .untracked streamId _, .place =>
      streamId.category = none → currentVersion name streamId s.table = none
  | _, _ => True

section Uninterrupted
open Projector
variable {E : Type} {name : String} {event : WrappedEvent E} {streamId : StreamId} {version : ℤ}

theorem cursors_catchUp
    {load : StreamId → Option ℤ → Option ℤ → Except Error (List (WrappedEvent E))}
    {start : Option ℤ} {placed : Except CursorsError Unit × Cursors} {s : ProjectorState E} :
    (catchUp load event streamId start version placed s).2.cursors = placed.2 := by
  obtain ⟨answer, cursors⟩ := placed
  cases answer with
  | error e => rfl
  | ok done =>
    simp only [catchUp]
    cases load streamId start (some version) <;> rfl

/-- Without steps of others in between, a worker leaves the cursors as `project` does. -/
theorem run_eq_project
    (load : StreamId → Option ℤ → Option ℤ → Except Error (List (WrappedEvent E))) {s : State}
    {worker : ℕ} {projector : ProjectorState E} (hidle : s.phase worker = .idle)
    (htable : s.table = projector.cursors) (hversion : event.version = some version) :
    (run (step name) s [(worker, .increment streamId version), (worker, .place)]).2.table =
      (project name load event streamId projector).2.cursors := by
  simp only [run_cons, run_nil, step, hidle, project, hversion, htable]
  generalize increment name streamId version projector.cursors = r
  obtain ⟨answer, cursors⟩ := r
  cases answer with
  | ok done => simp [phaseAfter]
  | error e =>
    cases e with
    | streamNotTracked => simp [phaseAfter, cursors_catchUp]
    | behindStream current => simp [phaseAfter, cursors_catchUp]
    | aheadOfStream current => simp [phaseAfter]
    | integrityError => simp [phaseAfter]

end Uninterrupted

section Uniqueness
variable {name : String} {s : State} {rows : Cursors} {streamId : StreamId} {version : ℤ}
  {versions : List ℤ}

theorem unique_iff_of_actsAt {key : CursorKey} {r : Except CursorsError Unit × Cursors}
    {act : Except CursorsError Unit × List ℤ} (hrows : Unique rows) (h : ActsAt key rows r act) :
    Unique r.2 ↔ act.2.length ≤ 1 := by
  constructor
  · intro hunique
    rw [← h.own]
    exact hunique key
  · intro hact other
    by_cases hother : other = key
    · rw [hother, h.own]
      exact hact
    · rw [h.other other hother]
      exact hrows other

theorem length_incrementVersion_le (h : versions.length ≤ 1) :
    (incrementVersion version versions).2.length ≤ 1 := by
  unfold incrementVersion
  split
  · split
    · exact h
    · exact le_rfl
  · simp only
    split
    · simpa using h
    · split
      · simpa using h
      · split <;> simpa using h

theorem length_putVersion_le {category : Option String} (h : versions.length ≤ 1) :
    (putVersion category version versions).2.length ≤ 1 ↔ (category = none → versions = []) := by
  unfold putVersion
  cases category with
  | none => simp
  | some category =>
    by_cases hversions : versions = []
    · simp [hversions]
    · simpa [hversions] using h

/-- An only cursor that a version follows directly is moved on, unless it is at 0. -/
theorem increment_ahead_iff (h : Unique rows)
    (hcurrent : currentVersion name streamId rows = some (version - 1)) :
    (∀ current, (increment name streamId version rows).1 ≠ .error (.aheadOfStream current)) ↔
      version ≠ 1 := by
  have hact := increment_actsAt name streamId version rows
  have hone : versionsAt rows (name, streamId.key) = [version - 1] := by
    have hlength := h (name, streamId.key)
    rw [currentVersion_eq] at hcurrent
    generalize versionsAt rows (name, streamId.key) = held at hlength hcurrent
    match held, hlength, hcurrent with
    | [current], _, hcurrent => simpa using hcurrent
  rw [hact.answer, hone]
  by_cases hfirst : version = 1
  · simp [incrementVersion, hfirst]
  · simp [incrementVersion, hfirst]

/-- One step keeps the rows unique and reports nothing wrong exactly when it is guarded. -/
theorem sound_iff_guarded (h : Unique s.table) (i : ℕ × WorkerStep) :
    Sound name s i ↔ Guarded name s i := by
  obtain ⟨worker, action⟩ := i
  cases hphase : s.phase worker with
  | idle =>
    cases action with
    | place => simp [Sound, Guarded, step, hphase, h]
    | increment streamId version =>
      have hunique : Unique (increment name streamId version s.table).2 :=
        (unique_iff_of_actsAt h (increment_actsAt name streamId version s.table)).2
          (length_incrementVersion_le (h _))
      simp only [Sound, Guarded, step, hphase, hunique, true_and, WorkerStep.increment.injEq,
        Option.some.injEq, ne_eq]
      constructor
      · rintro hanswer hfirst hzero
        have hdirect : currentVersion name streamId s.table = some (version - 1) := by
          rw [hzero, hfirst]
          rfl
        exact (increment_ahead_iff h hdirect).1 (hanswer streamId version ⟨rfl, rfl⟩ hdirect) hfirst
      · rintro hguard _ _ ⟨rfl, rfl⟩ hdirect
        apply (increment_ahead_iff h hdirect).2
        rintro rfl
        exact hguard rfl hdirect
  | untracked streamId version =>
    cases action with
    | increment other version' => simp [Sound, Guarded, step, hphase, h]
    | place =>
      simp only [Sound, Guarded, step, hphase, reduceCtorEq, false_implies, implies_true, and_true]
      rw [unique_iff_of_actsAt h (putAt_actsAt name streamId version s.table),
        length_putVersion_le (h _), currentVersion_eq, List.head?_eq_none_iff]
  | behind streamId version =>
    cases action with
    | increment other version' => simp [Sound, Guarded, step, hphase, h]
    | place =>
      simp only [Sound, Guarded, step, hphase, reduceCtorEq, false_implies, implies_true, and_true,
        iff_true]
      rw [unique_iff_of_actsAt h (moveTo_actsAt name streamId version s.table), moveVersions,
        List.length_map]
      exact h _

/-- In every run of any number of workers: the rows stay unique, and no version that directly
follows a cursor is reported as passed, if and only if every step is guarded. -/
theorem unique_rows_iff (h : Unique s.table) (inputs : List (ℕ × WorkerStep)) :
    Meets (step name) (Sound name) s inputs ↔ Meets (step name) (Guarded name) s inputs := by
  have hiff : ∀ (s : State) i, Unique s.table → (Sound name s i ↔ Guarded name s i) :=
    fun _ i hunique => sound_iff_guarded hunique i
  have hkeep : ∀ (s : State) i, Unique s.table → Sound name s i → Unique (step name s i).2.table :=
    fun _ _ _ hsound => hsound.1
  exact meets_congr hiff hkeep h inputs

end Uniqueness

section Example
open Tenants

theorem unique_rows_iff_empty :
    Meets (step "balances") (Sound "balances") { table := [] }
        [(0, .increment order 1), (1, .increment order 2)] ↔
      Meets (step "balances") (Guarded "balances") { table := [] }
        [(0, .increment order 1), (1, .increment order 2)] :=
  unique_rows_iff (fun _ => Nat.zero_le _) _

/-- Two workers find no cursor for a stream without a category, and both put one. The next
event is then passed over. -/
theorem unique_rows_race :
    let inputs := [(0, .increment order 2), (1, .increment order 2), (0, .place), (1, .place)]
    let raced := (run (step "balances") { table := [] } inputs).2
    Unique [] ∧ versionsAt raced.table ("balances", order.key) = [2, 2] ∧
      (step "balances" raced (2, .increment order 3)).1 = some (.error (.aheadOfStream 3)) :=
  ⟨fun _ => Nat.zero_le _, rfl, rfl⟩

end Example

end EventSourcery.ProjectorConcurrency
