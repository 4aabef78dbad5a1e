import EventSourcery.Dto

/-!
# The cursors of projectors

`SqlAlchemyCursorsDao` and its table. A cursor is a row for a projector's name, the
uuid of a stream and its category; the database keeps these three unique, but counts
a missing category as different from any other. Rows are listed in the order in which
they were inserted, and a query that asks for one row gets the first.

All that the dao does to a cursor shows in the versions of its rows, of which there
should be one at most.
-/
namespace EventSourcery

/-- What a unique index of the table is about. -/
abbrev CursorKey := String × StreamKey

structure CursorRow where
  name : String
  streamId : Uuid
  category : Option String
  version : ℤ
  deriving DecidableEq

def CursorRow.key (row : CursorRow) : CursorKey := (row.name, row.streamId, row.category)

abbrev Cursors := List CursorRow

inductive CursorsError where
  | streamNotTracked
  | behindStream (currentVersion : ℤ)
  | aheadOfStream (currentVersion : ℤ)
  | integrityError
  deriving DecidableEq

namespace SqlAlchemyCursorsDao

/-- `insert`, under the unique index. -/
def insertRow (row : CursorRow) (rows : Cursors) : Except CursorsError Unit × Cursors :=
  if row.category.isSome ∧ ∃ other ∈ rows, other.key = row.key then (.error .integrityError, rows)
  else (.ok (), rows ++ [row])

/-- `update` of the version of the selected rows. -/
def updateRows (selected : CursorRow → Bool) (version : ℤ) (rows : Cursors) : Cursors :=
  rows.map fun row => if selected row then { row with version } else row

section Calls
variable (name : String) (streamId : StreamId)

/-- `_current_version` -/
def currentVersion (rows : Cursors) : Option ℤ :=
  (rows.find? fun row => row.key = (name, streamId.key)).map (·.version)

def putAt (version : ℤ) (rows : Cursors) : Except CursorsError Unit × Cursors :=
  insertRow { name, streamId := streamId.uuid, category := streamId.category, version } rows

def increment (version : ℤ) (rows : Cursors) : Except CursorsError Unit × Cursors :=
  if version = 1 then
    match currentVersion name streamId rows with
    | some current => (.error (.aheadOfStream current), rows)
    | none => putAt name streamId version rows
  else
    let selected := fun row : CursorRow =>
      decide (row.key = (name, streamId.key)) && decide (row.version = version - 1)
    let updated := updateRows selected version rows
    if rows.countP selected = 1 then (.ok (), updated)
    else
      match currentVersion name streamId updated with
      | none => (.error .streamNotTracked, updated)
      | some current =>
          if current < version then (.error (.behindStream current), updated)
          else (.error (.aheadOfStream current), updated)

def moveTo (version : ℤ) (rows : Cursors) : Except CursorsError Unit × Cursors :=
  (.ok (), updateRows (fun row => decide (row.key = (name, streamId.key))) version rows)

end Calls

/-- The versions of the rows of a cursor. -/
def versionsAt (rows : Cursors) (key : CursorKey) : List ℤ :=
  (rows.filter fun row => row.key = key).map (·.version)

/-- What the calls do to the versions of their cursor. -/
def putVersion (category : Option String) (version : ℤ) (versions : List ℤ) :
    Except CursorsError Unit × List ℤ :=
  if category.isSome ∧ versions ≠ [] then (.error .integrityError, versions)
  else (.ok (), versions ++ [version])

def incrementVersion (version : ℤ) (versions : List ℤ) : Except CursorsError Unit × List ℤ :=
  if version = 1 then
    match versions.head? with
    | some current => (.error (.aheadOfStream current), versions)
    | none => (.ok (), [version])
  else
    let updated := versions.map fun v => if v = version - 1 then version else v
    if versions.count (version - 1) = 1 then (.ok (), updated)
    else
      match updated.head? with
      | none => (.error .streamNotTracked, updated)
      | some current =>
          if current < version then (.error (.behindStream current), updated)
          else (.error (.aheadOfStream current), updated)

def moveVersions (version : ℤ) (versions : List ℤ) : Except CursorsError Unit × List ℤ :=
  (.ok (), versions.map fun _ => version)

/-- A call answers and leaves the versions of one cursor as given, and the other cursors
as they were. -/
structure ActsAt (key : CursorKey) (rows : Cursors) (r : Except CursorsError Unit × Cursors)
    (act : Except CursorsError Unit × List ℤ) : Prop where
  answer : r.1 = act.1
  own : versionsAt r.2 key = act.2
  other : ∀ k, k ≠ key → versionsAt r.2 k = versionsAt rows k

/-- One call after another, on the same cursor. -/
theorem ActsAt.trans {key : CursorKey} {rows : Cursors} {r r' : Except CursorsError Unit × Cursors}
    {act act' : Except CursorsError Unit × List ℤ} (h : ActsAt key rows r act)
    (h' : ActsAt key r.2 r' act') : ActsAt key rows r' act' :=
  ⟨h'.answer, h'.own, fun k hk => (h'.other k hk).trans (h.other k hk)⟩

section Versions
variable {name : String} {streamId : StreamId} {version : ℤ} {rows : Cursors} {key : CursorKey}
  {row : CursorRow}

theorem currentVersion_eq :
    currentVersion name streamId rows = (versionsAt rows (name, streamId.key)).head? := by
  simp [currentVersion, versionsAt, List.head?_map, List.head?_filter]

/-- A projector that has no cursor yet. -/
theorem versionsAt_of_new {key : StreamKey} (h : ∀ row ∈ rows, row.name ≠ name) :
    versionsAt rows (name, key) = [] := by
  have hrows : rows.filter (fun row => row.key = (name, key)) = [] := by
    rw [List.filter_eq_nil_iff]
    intro row hrow hkey
    exact h row hrow (Prod.mk.inj (of_decide_eq_true hkey)).1
  rw [versionsAt, hrows]
  rfl

theorem versionsAt_append : versionsAt (rows ++ [row]) key =
    versionsAt rows key ++ if row.key = key then [row.version] else [] := by
  unfold versionsAt
  by_cases h : row.key = key <;> simp [h]

theorem versionsAt_cons : versionsAt (row :: rows) key =
    if row.key = key then row.version :: versionsAt rows key else versionsAt rows key := by
  unfold versionsAt
  by_cases h : row.key = key <;> simp [h]

theorem updateRows_cons {selected : CursorRow → Bool} :
    updateRows selected version (row :: rows) =
      (if selected row then { row with version } else row) :: updateRows selected version rows :=
  rfl

variable (version rows key) in
/-- An update of rows of a cursor is an update of its versions. -/
theorem versionsAt_updateRows (selected : ℤ → Bool) : versionsAt
    (updateRows (fun row => decide (row.key = key) && selected row.version) version rows) key =
      (versionsAt rows key).map fun v => if selected v then version else v := by
  induction rows with
  | nil => rfl
  | cons row rows ih =>
    rw [updateRows_cons, versionsAt_cons, versionsAt_cons, ih]
    by_cases hkey : row.key = key
    · by_cases hselected : selected row.version
      · have hkey' : ({ row with version } : CursorRow).key = key := hkey
        simp [hkey, hselected, hkey']
      · simp [hkey, hselected]
    · simp [hkey]

theorem versionsAt_updateRows_of_ne {selected : CursorRow → Bool}
    (h : ∀ row, selected row → row.key ≠ key) :
    versionsAt (updateRows selected version rows) key = versionsAt rows key := by
  induction rows with
  | nil => rfl
  | cons row rows ih =>
    rw [updateRows_cons, versionsAt_cons, versionsAt_cons, ih]
    by_cases hselected : selected row
    · have hkey : ({ row with version } : CursorRow).key ≠ key := h row hselected
      simp [hselected, hkey, h row hselected]
    · simp [hselected]

theorem countP_eq_count : rows.countP (fun row => decide (row.key = key) &&
    decide (row.version = version)) = (versionsAt rows key).count version := by
  induction rows with
  | nil => rfl
  | cons row rows ih =>
    rw [List.countP_cons, ih, versionsAt_cons]
    by_cases hkey : row.key = key <;> simp [hkey, List.count_cons]

theorem versionsAt_ne_nil : versionsAt rows key ≠ [] ↔ ∃ row ∈ rows, row.key = key := by
  simp [versionsAt]

variable (row rows) in
theorem insertRow_actsAt : ActsAt row.key rows (insertRow row rows)
    (putVersion row.category row.version (versionsAt rows row.key)) := by
  unfold insertRow putVersion
  simp only [versionsAt_ne_nil]
  by_cases h : row.category.isSome ∧ ∃ other ∈ rows, other.key = row.key
  · simp only [if_pos h]
    exact ⟨rfl, rfl, fun _ _ => rfl⟩
  · simp only [if_neg h]
    refine ⟨rfl, ?_, fun k hk => ?_⟩
    · rw [versionsAt_append, if_pos rfl]
    · rw [versionsAt_append, if_neg hk.symm, List.append_nil]

variable (name streamId version rows)

theorem putAt_actsAt : ActsAt (name, streamId.key) rows (putAt name streamId version rows)
    (putVersion streamId.category version (versionsAt rows (name, streamId.key))) :=
  insertRow_actsAt rows ⟨name, streamId.uuid, streamId.category, version⟩

theorem moveTo_actsAt : ActsAt (name, streamId.key) rows (moveTo name streamId version rows)
    (moveVersions version (versionsAt rows (name, streamId.key))) := by
  refine ⟨rfl, ?_, fun k hk => versionsAt_updateRows_of_ne fun row hrow => ?_⟩
  · have h := versionsAt_updateRows version rows (name, streamId.key) fun _ => true
    simpa [moveTo, moveVersions] using h
  · rw [of_decide_eq_true hrow]
    exact hk.symm

theorem increment_actsAt : ActsAt (name, streamId.key) rows (increment name streamId version rows)
    (incrementVersion version (versionsAt rows (name, streamId.key))) := by
  unfold increment incrementVersion
  by_cases hfirst : version = 1
  · simp only [if_pos hfirst, currentVersion_eq]
    cases hversions : versionsAt rows (name, streamId.key) with
    | cons current versions => exact ⟨rfl, hversions, fun _ _ => rfl⟩
    | nil =>
      have hput := putAt_actsAt name streamId version rows
      simpa [hversions, putVersion] using hput
  · simp only [if_neg hfirst, countP_eq_count, currentVersion_eq]
    have hown := versionsAt_updateRows version rows (name, streamId.key) fun v =>
      decide (v = version - 1)
    simp only [decide_eq_true_eq] at hown
    have hother : ∀ k, k ≠ (name, streamId.key) → versionsAt (updateRows (fun row =>
        decide (row.key = (name, streamId.key)) && decide (row.version = version - 1)) version
          rows) k = versionsAt rows k := by
      intro k hk
      apply versionsAt_updateRows_of_ne
      intro row hrow
      rw [Bool.and_eq_true, decide_eq_true_eq, decide_eq_true_eq] at hrow
      rw [hrow.1]
      exact hk.symm
    rw [hown]
    by_cases hcount : (versionsAt rows (name, streamId.key)).count (version - 1) = 1
    · simp only [if_pos hcount]
      exact ⟨rfl, hown, hother⟩
    · simp only [if_neg hcount]
      cases (List.map (fun v => if v = version - 1 then version else v)
        (versionsAt rows (name, streamId.key))).head? with
      | none => exact ⟨rfl, hown, hother⟩
      | some current =>
        by_cases hcurrent : current < version
        · simp only [if_pos hcurrent]
          exact ⟨rfl, hown, hother⟩
        · simp only [if_neg hcurrent]
          exact ⟨rfl, hown, hother⟩

end Versions

section Single
variable {version current : ℤ}

theorem incrementVersion_nil : incrementVersion version [] =
    if version = 1 then (.ok (), [version]) else (.error .streamNotTracked, []) := rfl

/-- A version up to the cursor leaves it. -/
theorem incrementVersion_of_le (h : version ≤ current) :
    incrementVersion version [current] = (.error (.aheadOfStream current), [current]) := by
  have hne : current ≠ version - 1 := by omega
  by_cases hfirst : version = 1
  · simp [incrementVersion, hfirst]
  · simp [incrementVersion, hfirst, hne, h]

/-- The version after the cursor moves it on. -/
theorem incrementVersion_succ (hcurrent : 1 ≤ current) :
    incrementVersion (current + 1) [current] = (.ok (), [current + 1]) := by
  have hfirst : current + 1 ≠ 1 := by omega
  simp [incrementVersion, hfirst]

/-- A later version leaves it too. -/
theorem incrementVersion_of_lt (hcurrent : 1 ≤ current) (h : current + 1 < version) :
    incrementVersion version [current] = (.error (.behindStream current), [current]) := by
  have hfirst : version ≠ 1 := by omega
  have hne : current ≠ version - 1 := by omega
  have hlt : current < version := by omega
  simp [incrementVersion, hfirst, hne, hlt]

end Single

end SqlAlchemyCursorsDao

end EventSourcery
