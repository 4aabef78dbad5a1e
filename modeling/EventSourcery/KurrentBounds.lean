import EventSourcery.ConsecutiveNumbers
import EventSourcery.KurrentDeletion

/-!
# Bounded reads of KurrentDB streams

A read that is given no start begins with the newest snapshot, wherever the read is to stop, and
goes on behind it. What is asked for after that is counted from the snapshot on: the count is
negative when the snapshot lies behind the stop, and a stop at version 1 is taken for none.
-/
namespace EventSourcery.Kurrent.KurrentBounds
open EventStore (request)
open KurrentServer Runs Tenants ConsecutiveNumbers Replay
open KurrentDeletion (Sendable Deletes Since)

/-- The stream has its positions from 0 on and can be read, and no snapshot of it is newer than
its last event. -/
structure Holds (name : Name) (log : EventLog) : Prop where
  positions : Consecutive (fun entry => some (entry.streamPosition : ℤ)) 0 (log.stream name.text)
  readable : ∀ entry ∈ log.stream name.text, ∃ raw, rawEvent entry none = .ok raw
  snapshots : ∀ entry ∈ log.stream name.snapshot, ∃ raw, snapshot entry = .ok raw ∧
    ∃ v ≤ ((log.stream name.text).length : ℤ), raw.version = some v

def version (raw : RawEvent) : ℤ := raw.version.getD 0

/-- The event that is read from an entry. -/
def decoded (entry : RecordedEvent) : Option RawEvent := (rawEvent entry none).toOption

/-- The events of the stream. -/
def events (name : Name) (log : EventLog) : List RawEvent :=
  (log.stream name.text).filterMap decoded

/-- The snapshot that was saved last. -/
def newest (name : Name) (log : EventLog) : Option RawEvent :=
  (log.lastEntry name.snapshot).bind fun entry => (snapshot entry).toOption

section Property
variable {σ : Type} (apply : σ → RawEvent → σ) (initial : σ) (name : Name)

/-- Every snapshot is the state at its version. -/
def Faithful (log : EventLog) : Prop :=
  ∀ entry ∈ log.stream name.snapshot, ∀ raw, snapshot entry = .ok raw → ∀ state,
    apply state raw = stateAfter apply initial version (· ≤ version raw) (events name log)

/-- A read that stops at a version succeeds, gives nothing from that version on, and leads to the
state after the events before it. -/
def Respects (stop : ℤ) (log : EventLog) : Prop :=
  ∃ raws, fetchEvents ⟨name.tenantId⟩ name.uuid none (some stop) log = .ok raws ∧
    (∀ raw ∈ raws, version raw < stop) ∧
    raws.foldl apply initial = stateUntil apply initial version (some stop) (events name log)

/-- The newest snapshot is not before version -1. If there are events, the stop is not before
version 2, and the newest snapshot is before the stop. -/
def WithinBound (stop : ℤ) (log : EventLog) : Prop :=
  (∀ raw ∈ newest name log, -1 ≤ version raw) ∧
    (log.stream name.text = [] ∨ 2 ≤ stop ∧ ∀ raw ∈ newest name log, version raw < stop)

end Property

/-! ## The window of a read -/

/-- The position that the read goes to: a stop at version 1 is none. -/
def lastPosition (stop : ℤ) : ℤ := if stop = 1 then maxPosition else stop - 1

theorem stop_eq_lastPosition {stop : ℤ} (hstop : 1 ≤ stop) :
    ((some stop).filter fun v => v ≠ 0 && fromVersion v ≠ 0).elim maxPosition fromVersion =
      lastPosition stop := by
  unfold lastPosition
  by_cases hone : stop = 1
  · rw [if_pos hone, hone]
    rfl
  · have hfrom : fromVersion stop ≠ 0 := fun hzero => hone (sub_eq_zero.1 hzero)
    have hkept : (decide (stop ≠ 0) && decide (fromVersion stop ≠ 0)) = true := by
      simp only [hfrom, ne_eq, not_false_eq_true, decide_true, Bool.and_true, decide_eq_true_eq]
      omega
    rw [if_neg hone, Option.filter_some, if_pos hkept]
    rfl

/-- A version is in the range. Without a stop the range goes to `maxPosition`. -/
def InVersions (start stop : Option ℤ) (version : ℤ) : Prop :=
  start.getD 1 ≤ version ∧ stop.elim (version ≤ maxPosition) (version < ·)

/-- The window has no negative length, and the positions of the versions in the range. -/
def Exact (start stop : Option ℤ) : Prop :=
  let window := scope start stop
  let first : ℤ := window.1.getD 0
  0 ≤ window.2 ∧ ∀ position : ℤ, first ≤ position ∧ position < first + window.2 ↔
    ∃ version, InVersions start stop version ∧ position = fromVersion version

theorem scope_start {start : Option ℤ} (hstart : ∀ a ∈ start, 1 ≤ a) (stop : Option ℤ) :
    ((scope start stop).1.getD 0 : ℤ) = start.getD 1 - 1 := by
  cases start with
  | none => rfl
  | some a =>
    have ha : a ≠ 0 := by
      have := hstart a rfl
      omega
    simp only [scope, Option.map_some, if_neg ha, Option.getD_some]
    rfl

theorem scope_length {start stop : Option ℤ} (hstart : ∀ a ∈ start, 1 ≤ a)
    (hstop : ∀ b ∈ stop, 1 ≤ b) :
    (scope start stop).2 = stop.elim maxPosition lastPosition - (start.getD 1 - 1) := by
  rw [← scope_start hstart stop]
  cases stop with
  | none => rfl
  | some b =>
    rw [Option.elim_some, ← stop_eq_lastPosition (hstop b rfl)]
    rfl

/-- A window that ends before a version has the positions of the versions before it. -/
theorem exact_of_end {start stop : Option ℤ} {last : ℤ} (hstart : ∀ a ∈ start, 1 ≤ a)
    (hlength : (scope start stop).2 = last - (start.getD 1 - 1)) (hle : start.getD 1 - 1 ≤ last)
    (hlast : ∀ v : ℤ, stop.elim (v ≤ maxPosition) (v < ·) ↔ v - 1 < last) : Exact start stop := by
  unfold Exact InVersions
  dsimp only
  rw [scope_start hstart, hlength]
  refine ⟨sub_nonneg.2 hle, fun position => ?_⟩
  constructor
  · rintro ⟨hfirst, hbefore⟩
    refine ⟨position + 1, ⟨by omega, (hlast _).2 (by omega)⟩, ?_⟩
    rw [fromVersion, add_sub_cancel_right]
  · rintro ⟨v, ⟨hfirst, hbefore⟩, rfl⟩
    have hv := (hlast v).1 hbefore
    rw [fromVersion]
    constructor <;> omega

/-- The window is exact unless the stop is at version 1, which is taken for none, or the read
has no stop and starts behind all positions. -/
theorem scope_exact_iff {start stop : Option ℤ} (hstart : ∀ a ∈ start, 1 ≤ a)
    (hstop : ∀ b ∈ stop, 1 ≤ b) (horder : ∀ a ∈ start, ∀ b ∈ stop, a ≤ b) :
    Exact start stop ↔
      stop ≠ some 1 ∧ (stop = none → ∀ a ∈ start, a ≤ maxPosition + 1) := by
  have hlength := scope_length hstart hstop
  cases stop with
  | none =>
    by_cases hle : start.getD 1 - 1 ≤ maxPosition
    · have hexact : Exact start none := exact_of_end hstart hlength hle fun v => by
        rw [Option.elim_none]
        exact Int.sub_one_lt_iff.symm
      refine iff_of_true hexact ⟨nofun, fun _ a ha => ?_⟩
      rw [Option.mem_def.1 ha, Option.getD_some] at hle
      exact sub_le_iff_le_add.1 hle
    · refine iff_of_false (fun hexact => hle ?_) fun hholds => hle ?_
      · have hnonneg : 0 ≤ (scope start none).2 := hexact.1
        rw [hlength] at hnonneg
        exact sub_nonneg.1 hnonneg
      · cases start with
        | none => decide
        | some a => exact sub_le_iff_le_add.2 (hholds.2 rfl a rfl)
  | some b =>
    have hb := hstop b rfl
    have hfirst : start.getD 1 ≤ b := by
      cases start with
      | none => exact hb
      | some a => exact horder a rfl b rfl
    by_cases hone : b = 1
    · -- the window goes on from the first position, and no version is before version 1
      refine iff_of_false (fun hexact => ?_) fun hholds => hholds.1 (congrArg some hone)
      subst hone
      have hlow : 1 ≤ start.getD 1 := by
        cases start with
        | none => exact le_rfl
        | some a => exact hstart a rfl
      have hzero : ((scope start (some 1)).1.getD 0 : ℤ) = 0 := by
        rw [scope_start hstart, le_antisymm hfirst hlow, sub_self]
      have hwhole : (scope start (some 1)).2 = maxPosition := by
        rw [hlength, le_antisymm hfirst hlow, sub_self, sub_zero]
        rfl
      obtain ⟨v, ⟨hv, hbefore⟩, -⟩ := (hexact.2 0).1 ⟨hzero.le, by rw [hzero, hwhole]; decide⟩
      exact absurd (hlow.trans hv) (not_le.2 hbefore)
    · have hlast : lastPosition b = b - 1 := if_neg hone
      rw [Option.elim_some, hlast] at hlength
      have hexact : Exact start (some b) := exact_of_end hstart hlength
        (sub_le_sub_right hfirst 1) fun v => by
          rw [Option.elim_some]
          exact (sub_lt_sub_iff_right 1).symm
      exact iff_of_true hexact ⟨fun hsome => hone (Option.some.inj hsome), nofun⟩

/-- Versions 2 to 4 are at positions 1 to 3. -/
theorem scope_exact_iff_middle : Exact (some 2) (some 5) :=
  (scope_exact_iff (by simp) (by simp) (by simp)).2 ⟨by decide, nofun⟩

/-- No version is before version 1, and the whole stream is asked for. -/
theorem scope_whole_before_first : ¬ Exact none (some 1) := by
  intro hexact
  obtain ⟨v, ⟨hfirst, hbefore⟩, -⟩ := (hexact.2 0).1 (by decide)
  exact absurd hfirst (not_le.2 hbefore)

section Reads
variable {name : Name} {log : EventLog} {entry : RecordedEvent} {raw : RawEvent} {stop : ℤ}

theorem decoded_of_ok (h : rawEvent entry none = .ok raw) : decoded entry = some raw := by
  rw [decoded, h]
  rfl

theorem version_of_rawEvent (h : rawEvent entry none = .ok raw) :
    raw.version = some (entry.streamPosition + 1 : ℤ) := by
  obtain ⟨_, -, h⟩ := bind_eq_ok.1 h
  obtain ⟨⟨_, _⟩, -, h⟩ := bind_eq_ok.1 h
  obtain ⟨_, -, h⟩ := bind_eq_ok.1 h
  obtain ⟨_, -, h⟩ := bind_eq_ok.1 h
  cases h
  rfl

theorem Holds.newest_of_last (h : Holds name log)
    (hlast : log.lastEntry name.snapshot = some entry) :
    ∃ raw, snapshot entry = .ok raw ∧ newest name log = some raw ∧
      entry ∈ log.stream name.snapshot ∧
      ∃ v ≤ ((log.stream name.text).length : ℤ), raw.version = some v := by
  have hmem : entry ∈ log.stream name.snapshot := List.mem_of_getLast? hlast
  obtain ⟨raw, hraw, hversion⟩ := h.snapshots entry hmem
  refine ⟨raw, hraw, ?_, hmem, hversion⟩
  rw [newest, hlast, Option.bind_some, hraw]
  rfl

/-- Entries that can be read are read as the events of the stream. -/
theorem exists_read {entries : List RecordedEvent}
    (h : ∀ entry ∈ entries, ∃ raw, rawEvent entry none = .ok raw) :
    ∃ read, entries.mapM (fun entry =>
        ((rawEvent entry none).map fun raw => (entry, raw)).mapError CodecError.toError) =
          .ok read ∧
      read.map Prod.snd = entries.filterMap decoded := by
  induction entries with
  | nil => exact ⟨[], rfl, rfl⟩
  | cons entry entries ih =>
    obtain ⟨raw, hraw⟩ := h entry List.mem_cons_self
    obtain ⟨read, hread, hmap⟩ := ih fun other hother => h other (List.mem_cons_of_mem _ hother)
    refine ⟨(entry, raw) :: read, ?_, ?_⟩
    · rw [List.mapM_cons, hread, hraw]
      rfl
    · rw [List.filterMap_cons, decoded_of_ok hraw, List.map_cons, hmap]

theorem consecutive_events {entries : List RecordedEvent} {n : ℤ}
    (hpositions : Consecutive (fun entry => some (entry.streamPosition : ℤ)) n entries)
    (hread : ∀ entry ∈ entries, ∃ raw, rawEvent entry none = .ok raw) :
    Consecutive (·.version) (n + 1) (entries.filterMap decoded) := by
  induction entries generalizing n with
  | nil => trivial
  | cons entry entries ih =>
    obtain ⟨raw, hraw⟩ := hread entry List.mem_cons_self
    obtain ⟨hfirst, hrest⟩ := hpositions
    rw [List.filterMap_cons, decoded_of_ok hraw]
    refine ⟨?_, ih hrest fun other hother => hread other (List.mem_cons_of_mem _ hother)⟩
    have hposition : (entry.streamPosition : ℤ) = n := Option.some.inj hfirst
    exact (version_of_rawEvent hraw).trans (by rw [hposition])

/-- The events of a range of positions are those of a range of versions. -/
theorem filterMap_inRange {entries : List RecordedEvent}
    (hread : ∀ entry ∈ entries, ∃ raw, rawEvent entry none = .ok raw) (first stop : ℤ) :
    (entries.filter fun entry => InRange (some first) (some stop)
        (entry.streamPosition : ℤ)).filterMap decoded =
      (entries.filterMap decoded).filter fun raw =>
        InRange (some (first + 1)) (some (stop + 1)) (version raw) := by
  induction entries with
  | nil => rfl
  | cons entry entries ih =>
    obtain ⟨raw, hraw⟩ := hread entry List.mem_cons_self
    have hrest := ih fun other hother => hread other (List.mem_cons_of_mem _ hother)
    have hversion : version raw = entry.streamPosition + 1 := by
      rw [version, version_of_rawEvent hraw]
      rfl
    have hin : InRange (some (first + 1)) (some (stop + 1)) (version raw) ↔
        InRange (some first) (some stop) (entry.streamPosition : ℤ) := by
      rw [hversion]
      simp [InRange]
    rw [List.filterMap_cons, decoded_of_ok hraw, List.filter_cons]
    dsimp only
    rw [List.filter_cons, ← hrest]
    simp only [hin]
    split
    · rw [List.filterMap_cons, decoded_of_ok hraw]
    · rfl

/-- A read of the stream gives the entries of a range of positions. -/
theorem Holds.readStream_eq (h : Holds name log) {range : Option Position × ℤ}
    (hrange : Sendable range) (hne : log.stream name.text ≠ []) :
    log.readStream name.text range.1 range.2 = .ok (some ((log.stream name.text).filter
      fun entry => InRange (some (range.1.getD 0)) (some (range.1.getD 0 + range.2))
        (entry.streamPosition : ℤ))) := by
  obtain ⟨position, limit⟩ := range
  obtain ⟨hposition, hlimit⟩ := hrange
  have hstart : (0 : ℤ) ≤ position.getD 0 := by
    cases position with
    | none => exact le_rfl
    | some p => exact hposition p rfl
  have hsendable : (position.any (· < 0) || decide (limit < 0)) = false := by
    cases position with
    | none => simpa using hlimit
    | some p => simpa using ⟨hposition p rfl, hlimit⟩
  have hfrom : (log.stream name.text).filter
      (fun entry => position.all (· ≤ entry.streamPosition)) =
        (log.stream name.text).filter fun entry =>
          (some (entry.streamPosition : ℤ)).any (position.getD 0 ≤ ·) := by
    refine List.filter_congr fun entry _ => ?_
    cases position <;> simp
  have hwindow := h.positions.take_filter hstart limit.toNat
  dsimp only at hlimit
  rw [Int.toNat_of_nonneg hlimit] at hwindow
  unfold EventLog.readStream
  rw [hsendable, if_neg Bool.false_ne_true, if_neg hne, hfrom]
  dsimp only
  rw [hwindow]
  rfl

theorem Holds.firstSnapshot_eq (h : Holds name log) :
    ∃ first, firstSnapshot name none log = .ok first ∧ first.map Prod.snd = newest name log := by
  rw [firstSnapshot, if_pos rfl, readSnapshot]
  cases hlast : log.lastEntry name.snapshot with
  | none => exact ⟨none, rfl, by rw [newest, hlast]; rfl⟩
  | some entry =>
    obtain ⟨raw, hraw, hnewest, -⟩ := h.newest_of_last hlast
    refine ⟨some (entry, raw), ?_, hnewest.symm⟩
    dsimp only
    rw [hraw]
    rfl

/-- What a read asks for that stops at a version. -/
def asked (name : Name) (stop : ℤ) (log : EventLog) : Option Position × ℤ :=
  scope ((newest name log).bind fun raw => raw.version.map (· + 1)) (some stop)

/-- What a read gives that stops at a version. -/
theorem Holds.fetchEvents_eq (h : Holds name log) (stop : ℤ) :
    let range := asked name stop log
    fetchEvents ⟨name.tenantId⟩ name.uuid none (some stop) log =
      if range.1.any (· < 0) || range.2 < 0 then .error .valueError
      else if log.stream name.text = [] then .ok []
      else .ok ((newest name log).toList ++ (events name log).filter fun raw =>
        InRange (some (range.1.getD 0 + 1)) (some (range.1.getD 0 + range.2 + 1))
          (version raw)) := by
  intro range
  obtain ⟨first, hfirst, hnewest⟩ := h.firstSnapshot_eq
  have hrange : rangeAfter first none (some stop) = range := by
    rw [rangeAfter, Option.none_or]
    change scope _ _ = scope ((newest name log).bind _) _
    rw [← hnewest, Option.bind_map]
    rfl
  have hname := Name.of_eq_ok name.named
  by_cases hnegative : (range.1.any (· < 0) || decide (range.2 < 0)) = true
  · have hread : log.readStream name.text range.1 range.2 = .error .valueError := by
      rw [EventLog.readStream, if_pos hnegative]
    rw [if_pos hnegative]
    simp only [fetchEvents, fetchEntries, hname, hfirst, hrange, hread, bind, Except.bind]
    rfl
  · rw [if_neg hnegative]
    rw [Bool.not_eq_true, Bool.or_eq_false_iff, decide_eq_false_iff_not, not_lt] at hnegative
    have hsendable : Sendable range := by
      refine ⟨fun position hposition => ?_, hnegative.2⟩
      rw [hposition] at hnegative
      simpa using hnegative.1
    by_cases hempty : log.stream name.text = []
    · have hread : log.readStream name.text range.1 range.2 = .ok none := by
        rw [EventLog.readStream, if_neg (by simp [hnegative]), if_pos hempty]
      rw [if_pos hempty]
      exact map_eq_ok.2 ⟨[], bind_eq_ok.2 ⟨name, hname, bind_eq_ok.2 ⟨first, hfirst,
        bind_eq_ok.2 ⟨none, hrange ▸ hread, rfl⟩⟩⟩, rfl⟩
    · let selected := (log.stream name.text).filter fun entry =>
        InRange (some (range.1.getD 0)) (some (range.1.getD 0 + range.2))
          (entry.streamPosition : ℤ)
      have hentries : log.readStream name.text range.1 range.2 = .ok (some selected) :=
        h.readStream_eq hsendable hempty
      obtain ⟨read, hread, hmap⟩ := @exists_read selected fun entry hentry =>
        h.readable entry (List.mem_of_mem_filter hentry)
      rw [filterMap_inRange h.readable] at hmap
      rw [if_neg hempty]
      refine map_eq_ok.2 ⟨first.toList ++ read, bind_eq_ok.2 ⟨name, hname, bind_eq_ok.2
        ⟨first, hfirst, bind_eq_ok.2 ⟨some selected, hrange ▸ hentries,
          bind_eq_ok.2 ⟨read, hread, rfl⟩⟩⟩⟩, ?_⟩
      rw [List.map_append, hmap, ← hnewest]
      cases first <;> rfl

theorem Holds.version_of_newest (h : Holds name log) (hraw : raw ∈ newest name log) :
    raw.version = some (version raw) ∧ version raw ≤ (log.stream name.text).length ∧
      ∃ entry ∈ log.stream name.snapshot, snapshot entry = .ok raw := by
  obtain ⟨entry, hlast, -⟩ := Option.bind_eq_some_iff.1 hraw
  obtain ⟨other, hother, hnewest, hmem, v, hv, hversion⟩ := h.newest_of_last hlast
  obtain rfl : other = raw := Option.some.inj (hnewest.symm.trans hraw)
  have hvalue : version other = v := by
    rw [version, hversion]
    rfl
  exact ⟨hversion.trans (congrArg some hvalue.symm), hvalue ▸ hv, entry, hmem, hother⟩

/-- The position that the read starts at. -/
def first (name : Name) (log : EventLog) : ℤ :=
  (newest name log).elim 0 fun raw => if version raw + 1 = 0 then 0 else version raw

theorem Holds.asked_eq (h : Holds name log) (hstop : 1 ≤ stop) :
    (asked name stop log).1.getD 0 = first name log ∧
      (asked name stop log).1.any (· < 0) = decide (first name log < 0) ∧
      (asked name stop log).2 = lastPosition stop - first name log := by
  unfold asked first scope
  rw [stop_eq_lastPosition hstop]
  cases hnewest : newest name log with
  | none => exact ⟨rfl, rfl, rfl⟩
  | some raw =>
    obtain ⟨hversion, -⟩ := h.version_of_newest hnewest
    rw [Option.bind_some, hversion]
    have hstart : (if version raw + 1 = 0 then 0 else fromVersion (version raw + 1)) =
        if version raw + 1 = 0 then 0 else version raw := by
      rw [fromVersion, add_sub_cancel_right]
    refine ⟨hstart, ?_, congrArg (lastPosition stop - ·) hstart⟩
    simp only [Option.map_some, Option.any_some, hstart, Option.elim_some]
    rfl

theorem Holds.consecutive (h : Holds name log) :
    Consecutive (·.version) 1 (events name log) := consecutive_events h.positions h.readable

theorem Holds.one_le (h : Holds name log) (hraw : raw ∈ events name log) : 1 ≤ version raw := by
  obtain ⟨i, -, hversion⟩ := h.consecutive.exists_of_mem hraw
  rw [version, hversion, Option.getD_some]
  omega

/-- The events are in the order of their versions. -/
theorem Holds.ordered_events (h : Holds name log) :
    ordered version (events name log) = events name log := by
  have hsorted := h.consecutive.pairwise_lt
  refine eq_of_sorted ?_ (pairwise_ordered version _)
    (hsorted.imp fun hlt => hlt.le) (ordered_perm version _) fun raw hraw =>
      (ordered_perm version _).mem_iff.1 hraw
  exact List.pairwise_map.2 (hsorted.imp fun hlt => hlt.ne)

/-- The first event has version 1. -/
theorem Holds.exists_one (h : Holds name log) (hne : log.stream name.text ≠ []) :
    ∃ raw ∈ events name log, version raw = 1 := by
  obtain ⟨entry, entries, hstream⟩ := List.exists_cons_of_ne_nil hne
  obtain ⟨raw, hraw⟩ := h.readable entry (hstream ▸ List.mem_cons_self)
  have hposition : (entry.streamPosition : ℤ) = 0 :=
    Option.some.inj (hstream ▸ h.positions : Consecutive _ 0 (entry :: entries)).1
  refine ⟨raw, ?_, ?_⟩
  · rw [events, hstream, List.filterMap_cons, decoded_of_ok hraw]
    exact List.mem_cons_self
  · rw [version, version_of_rawEvent hraw, hposition]
    rfl

/-- A read is possible if the snapshot is not before version -1 and not behind the stop. -/
theorem Holds.fetchEvents_of_le (h : Holds name log) (hstop : 1 ≤ stop) :
    fetchEvents ⟨name.tenantId⟩ name.uuid none (some stop) log =
      if first name log < 0 ∨ lastPosition stop < first name log then .error .valueError
      else if log.stream name.text = [] then .ok []
      else .ok ((newest name log).toList ++ (events name log).filter fun raw =>
        InRange (some (first name log + 1)) (some (lastPosition stop + 1)) (version raw)) := by
  obtain ⟨hstart, hnegative, hlimit⟩ := h.asked_eq hstop
  have hfetched := h.fetchEvents_eq stop
  dsimp only at hfetched
  rw [hstart, hnegative, hlimit, add_sub_cancel] at hfetched
  simpa only [Bool.or_eq_true, decide_eq_true_eq, sub_neg] using hfetched

end Reads

section Property
variable {σ : Type} {apply : σ → RawEvent → σ} {initial : σ} {name : Name} {log : EventLog}
  {stop : ℤ}

theorem inRange_none {v : ℤ} : InRange none (some stop) v ↔ v < stop := by simp [InRange]

/-- The events that are read before the stop. -/
theorem Holds.selected_eq (h : Holds name log) {p : ℤ → Prop} [DecidablePred p]
    (hp : ∀ v, 1 ≤ v → (p v ↔ first name log < v ∧ v < stop)) :
    ((events name log).filter fun raw =>
        InRange (some (first name log + 1)) (some stop) (version raw)) =
      (ordered version (events name log)).filter fun raw => p (version raw) := by
  rw [h.ordered_events]
  refine List.filter_congr fun raw hraw => decide_eq_decide.2 ?_
  rw [hp _ (h.one_le hraw)]
  simp only [InRange, Option.mem_some_iff, forall_eq', Int.add_one_le_iff]

/-- What is read before the stop leads to the state after the events before it. -/
theorem Holds.replay_eq (h : Holds name log) (hfaithful : Faithful apply initial name log)
    (hlow : ∀ raw ∈ newest name log, -1 ≤ version raw)
    (hbefore : ∀ raw ∈ newest name log, version raw < stop) :
    ((newest name log).toList ++ (events name log).filter fun raw =>
        InRange (some (first name log + 1)) (some stop) (version raw)).foldl apply initial =
      stateUntil apply initial version (some stop) (events name log) := by
  cases hnewest : newest name log with
  | none =>
    have hfirst : first name log = 0 := by rw [first, hnewest, Option.elim_none]
    rw [h.selected_eq (p := InRange none (some stop)) fun v hv => ?_]
    · exact replay_range (fun _ hnone => (Option.not_mem_none _ hnone).elim) _
    · rw [hfirst, inRange_none]
      exact ⟨fun hlt => ⟨hv, hlt⟩, And.right⟩
  | some raw =>
    have hraw : -1 ≤ version raw := hlow raw hnewest
    have hin : InRange none (some stop) (version raw) := inRange_none.2 (hbefore raw hnewest)
    have hfirst : ∀ v, 1 ≤ v → (version raw < v ↔ first name log < v) := by
      intro v hv
      rw [first, hnewest, Option.elim_some]
      split <;> omega
    obtain ⟨-, -, entry, hmem, hsnapshot⟩ := h.version_of_newest hnewest
    rw [h.selected_eq (p := fun v => InRange none (some stop) v ∧ version raw < v)
      fun v hv => ?_]
    · exact replay_snapshot (hfaithful entry hmem raw hsnapshot) hin initial
    · rw [hfirst v hv, inRange_none, and_comm]

/-- A read that respects its bound starts at a position, and what it gives is before the stop. -/
theorem Holds.withinBound_of_respects (h : Holds name log) (hstop : 1 ≤ stop)
    (hrespects : Respects apply initial name stop log) : WithinBound name stop log := by
  obtain ⟨raws, hraws, hbefore, -⟩ := hrespects
  rw [h.fetchEvents_of_le hstop] at hraws
  split at hraws
  · cases hraws
  · rename_i hsent
    rw [not_or, not_lt, not_lt] at hsent
    have hlow : ∀ raw ∈ newest name log, -1 ≤ version raw := by
      intro raw hraw
      have hfirst := hsent.1
      rw [first, hraw, Option.elim_some] at hfirst
      split at hfirst <;> omega
    refine ⟨hlow, ?_⟩
    split at hraws
    · exact .inl ‹_›
    · rename_i hne
      cases hraws
      have hnewest : ∀ raw ∈ newest name log, version raw < stop := fun raw hraw =>
        hbefore raw (List.mem_append_left _ (Option.mem_toList.2 hraw))
      refine .inr ⟨?_, hnewest⟩
      -- A stop at version 1 is not sent, so that the first event is read.
      by_contra hone
      obtain rfl : stop = 1 := by omega
      obtain ⟨raw, hraw, hversion⟩ := h.exists_one hne
      have hfirst : first name log ≤ 0 := by
        cases hlast : newest name log with
        | none => rw [first, hlast, Option.elim_none]
        | some last =>
          have hlt := hnewest last hlast
          rw [first, hlast, Option.elim_some]
          split <;> omega
      have hread : InRange (some (first name log + 1)) (some (lastPosition 1 + 1))
          (version raw) := by
        rw [hversion]
        refine ⟨fun a ha => ?_, fun b hb => Option.some.inj hb ▸ by decide⟩
        have ha := Option.some.inj ha
        omega
      have hlt := hbefore raw (List.mem_append_right _
        (List.mem_filter.2 ⟨hraw, decide_eq_true hread⟩))
      omega

/-- A read of a stream without events gives none. -/
theorem Holds.respects_of_nil (h : Holds name log) (hstop : 1 ≤ stop)
    (hlow : ∀ raw ∈ newest name log, -1 ≤ version raw) (hempty : log.stream name.text = []) :
    Respects apply initial name stop log := by
  have hfirst : first name log = 0 := by
    cases hnewest : newest name log with
    | none => rw [first, hnewest, Option.elim_none]
    | some raw =>
      have hraw := hlow raw hnewest
      obtain ⟨-, hle, -⟩ := h.version_of_newest hnewest
      rw [hempty, List.length_nil, Int.natCast_zero] at hle
      rw [first, hnewest, Option.elim_some]
      split <;> omega
  have hlast : ¬ lastPosition stop < 0 := by
    unfold lastPosition
    split
    · decide
    · omega
  refine ⟨[], ?_, fun raw hraw => absurd hraw List.not_mem_nil, ?_⟩
  · rw [h.fetchEvents_of_le hstop, hfirst, if_neg (by simpa using hlast), if_pos hempty]
  · rw [events, hempty]
    rfl

/-- A bounded read respects its bound if and only if there are no events, or the stop is not
version 1 and the newest snapshot is before the stop. -/
theorem bounded_read_iff (h : Holds name log) (hfaithful : Faithful apply initial name log)
    (hstop : 1 ≤ stop) :
    Respects apply initial name stop log ↔ WithinBound name stop log := by
  refine ⟨h.withinBound_of_respects hstop, ?_⟩
  rintro ⟨hlow, hempty | ⟨htwo, hbefore⟩⟩
  · exact h.respects_of_nil hstop hlow hempty
  · by_cases hempty : log.stream name.text = []
    · exact h.respects_of_nil hstop hlow hempty
    · have hlast : lastPosition stop = stop - 1 := if_neg (by omega)
      have hsent : ¬ (first name log < 0 ∨ stop - 1 < first name log) := by
        cases hnewest : newest name log with
        | none =>
          rw [first, hnewest, Option.elim_none]
          omega
        | some raw =>
          have hraw := hlow raw hnewest
          have hlt := hbefore raw hnewest
          rw [first, hnewest, Option.elim_some]
          split <;> omega
      refine ⟨_, ?_, ?_, h.replay_eq hfaithful hlow hbefore⟩
      · rw [h.fetchEvents_of_le hstop, hlast, if_neg hsent, if_neg hempty, sub_add_cancel]
      · intro raw hraw
        rcases List.mem_append.1 hraw with hraw | hraw
        · exact hbefore raw (Option.mem_toList.1 hraw)
        · exact (of_decide_eq_true (List.mem_filter.1 hraw).2).2 stop rfl

end Property

section Runs
variable {E : Type} {serdes : TenantId → Serde E} {strategy : KurrentDBStorageStrategy}
  {name : Name} {log : EventLog}

/-- The entries that were ever written to a stream have its positions from 0 on. -/
def Placed (log : EventLog) : Prop :=
  ∀ text, Consecutive (fun entry => some (entry.streamPosition : ℤ)) 0 (log.written text)

theorem Placed.record (h : Placed log) (text : String) (entry : NewEvent) :
    Placed (log.record text entry) := by
  intro other
  unfold EventLog.record EventLog.written
  rw [List.filter_append]
  refine (h other).append ?_
  rw [zero_add, List.filter_cons]
  split
  · rename_i hsame
    obtain rfl : text = other := of_decide_eq_true hsame
    exact ⟨rfl, trivial⟩
  · trivial

theorem Placed.append (h : Placed log) (text : String) (entries : List NewEvent) :
    Placed (log.append text entries) := by
  induction entries generalizing log with
  | nil => exact h
  | cons entry entries ih => exact ih (h.record text entry)

theorem Placed.appendEvents (h : Placed log) (text : String) (events : List RawEvent) :
    Placed (KurrentServer.appendEvents text events log).2 := by
  unfold KurrentServer.appendEvents
  split
  · exact h
  · exact h.append text _

theorem Placed.insertEach (h : Placed log) (versioning : Versioning) (events : List RawEvent)
    (streamIds : List StreamId) :
    Placed (KurrentServer.insertEach strategy versioning events streamIds log).2 := by
  induction streamIds generalizing log with
  | nil => exact h
  | cons streamId rest ih =>
    unfold KurrentServer.insertEach
    split
    · exact h
    · exact h
    · rename_i other _ _
      have happended := h.appendEvents other.text
        (events.filter fun raw => raw.streamId.eq streamId)
      split
      · rename_i hresult
        rwa [hresult] at happended
      · rename_i hresult
        rw [hresult] at happended
        exact ih happended

theorem Placed.step (h : Placed log) (i : TenantId × Call E) :
    Placed (callStep (stores serdes) log i).2 := by
  obtain ⟨t, call⟩ := i
  cases hr : request (serdes t) call with
  | error e =>
    rw [show callStep (stores serdes) log (t, call) = _ from callStep_of_error hr]
    exact h
  | ok r =>
    rw [show callStep (stores serdes) log (t, call) = _ from callStep_of_ok hr]
    cases r with
    | fetch streamId start stop => exact h
    | insert streamId versioning events => exact h.insertEach versioning events _
    | snapshot raw =>
      change Placed (saveSnapshot ⟨t⟩ raw log).2
      unfold saveSnapshot
      split
      · exact h
      · split
        · exact h
        · exact h.append _ _
    | delete streamId =>
      change Placed (deleteStream ⟨t⟩ streamId log).2
      rcases deleteStream_cases ⟨t⟩ streamId log with hsame | ⟨other, -, hdelete⟩
      · rwa [hsame]
      · rw [hdelete]
        exact h

/-- In every run that does not delete the stream, and saves no snapshot that is newer than its
last event, the stream is such that its bounded reads are decided. -/
theorem holds_of_run {calls : List (TenantId × Call E)} (hvalid : ∀ i ∈ calls, ValidCall serdes i)
    (hkept : ∀ i ∈ calls, ¬ Deletes name i) :
    let log := (run (callStep (stores serdes)) {} calls).2
    (∀ entry ∈ log.stream name.snapshot, ∀ raw, snapshot entry = .ok raw →
      version raw ≤ (log.stream name.text).length) → Holds name log := by
  intro log hversions
  have hlog : Inv log ∧ Since name {} log ∧ Placed log := by
    have hstep : ∀ log i, ValidCall serdes i ∧ ¬ Deletes name i →
        Inv log ∧ Since name {} log ∧ Placed log →
          Inv (callStep (stores serdes) log i).2 ∧
            Since name {} (callStep (stores serdes) log i).2 ∧
              Placed (callStep (stores serdes) log i).2 :=
      fun _ i hi h => ⟨h.1.step hi.1, h.2.1.step hi.1 hi.2, h.2.2.step i⟩
    exact run_keeps hstep ⟨inv_empty, ⟨List.nil_prefix, rfl⟩, fun _ => trivial⟩
      fun i hi => ⟨hvalid i hi, hkept i hi⟩
  obtain ⟨hinv, hsince, hplaced⟩ := hlog
  have hwritten : log.stream name.text = log.written name.text := by
    rw [EventLog.stream, hsince.kept]
    rfl
  refine ⟨hwritten ▸ hplaced name.text, fun entry hentry => ?_, fun entry hentry => ?_⟩
  · obtain ⟨hmem, hstream⟩ := List.mem_filter.1 (List.mem_of_mem_drop hentry)
    rw [decide_eq_true_eq] at hstream
    rcases hinv.readable entry hmem with ⟨-, -, hraw⟩ | ⟨other, hother, -⟩
    · exact hraw
    · exact absurd (hstream.symm.trans hother) (Name.text_ne_snapshot _ _)
  · obtain ⟨hmem, hstream⟩ := List.mem_filter.1 (List.mem_of_mem_drop hentry)
    rw [decide_eq_true_eq] at hstream
    rcases hinv.readable entry hmem with ⟨other, hother, -⟩ | ⟨-, -, raw, v, hraw, hversion⟩
    · exact absurd (hother.symm.trans hstream) (Name.text_ne_snapshot _ _)
    · have hle := hversions entry hentry raw hraw
      rw [version, hversion] at hle
      exact ⟨raw, hraw, v, hle, hversion⟩

end Runs

section Example

/-- An order with two events, and a snapshot of its second version. -/
def orderSnapshotted : EventLog :=
  (run (callStep (stores fun _ => orderSerde)) {} [orderPlaced 1, orderPlaced 2, orderSaved 2]).2

/-- The state is the last version. -/
def lastVersion (_ : ℤ) (raw : RawEvent) : ℤ := version raw

theorem snapshots_order : ∀ entry ∈ orderSnapshotted.stream orderName.snapshot,
    ∀ raw, snapshot entry = .ok raw → version raw = 2 := by
  have hall : (orderSnapshotted.stream orderName.snapshot).all (fun entry =>
      (snapshot entry).toOption.all fun raw => version raw = 2) = true := by decide +kernel
  intro entry hentry raw hraw
  have hversion := List.all_eq_true.1 hall entry hentry
  rw [hraw] at hversion
  exact of_decide_eq_true hversion

theorem holds_order : Holds orderName orderSnapshotted := by
  refine @holds_of_run _ (fun _ => orderSerde) orderName
    [orderPlaced 1, orderPlaced 2, orderSaved 2] (fun i hi => ?_) (fun i hi => ?_) ?_
  · simp only [List.mem_cons, List.not_mem_nil, or_false] at hi
    rcases hi with hi | hi | hi
    exacts [validCall_order (.inl hi), validCall_order (.inl hi), validCall_order (.inr hi)]
  · simp only [List.mem_cons, List.not_mem_nil, or_false] at hi
    rintro ⟨streamId, hcall, -⟩
    rcases hi with rfl | rfl | rfl <;> cases hcall
  · intro entry hentry raw hraw
    rw [snapshots_order entry hentry raw hraw]
    decide +kernel

theorem faithful_order : Faithful lastVersion 0 orderName orderSnapshotted := by
  intro entry hentry raw hraw state
  rw [lastVersion, snapshots_order entry hentry raw hraw]
  decide +kernel

theorem bounded_read_iff_order : Respects lastVersion 0 orderName 3 orderSnapshotted := by
  refine (bounded_read_iff holds_order faithful_order (by decide)).2 ?_
  have hversion : ∀ raw ∈ newest orderName orderSnapshotted, version raw = 2 := by
    intro raw hraw
    obtain ⟨-, -, entry, hentry, hsnapshot⟩ := holds_order.version_of_newest hraw
    exact snapshots_order entry hentry raw hsnapshot
  exact ⟨fun raw hraw => by rw [hversion raw hraw]; decide,
    .inr ⟨by decide, fun raw hraw => by rw [hversion raw hraw]; decide⟩⟩

/-- A stop before the newest snapshot is an error, and a stop at version 1 is none. -/
theorem bounded_read_passes_stop :
    Holds orderName orderSnapshotted ∧ Faithful lastVersion 0 orderName orderSnapshotted ∧
      fetchEvents ⟨""⟩ orderName.uuid none (some 2) orderSnapshotted = .error .valueError ∧
      ¬ Respects lastVersion 0 orderName 2 orderSnapshotted ∧
      (fetchEvents ⟨""⟩ orderName.uuid none (some 1) orderSnapshotted).map (List.map version) =
        .ok [2] ∧
      ¬ Respects lastVersion 0 orderName 1 orderSnapshotted := by
  have herror : fetchEvents ⟨""⟩ orderName.uuid none (some 2) orderSnapshotted =
      .error .valueError := by decide +kernel
  have hread : (fetchEvents ⟨""⟩ orderName.uuid none (some 1) orderSnapshotted).map
      (List.map version) = .ok [2] := by decide +kernel
  refine ⟨holds_order, faithful_order, herror, ?_, hread, ?_⟩
  · rintro ⟨raws, hraws, -⟩
    cases herror.symm.trans hraws
  · rintro ⟨raws, hraws, hbefore, -⟩
    obtain ⟨read, hfetched, hversions⟩ := map_eq_ok.1 hread
    obtain rfl : read = raws := Except.ok.inj (hfetched.symm.trans hraws)
    obtain ⟨raw, hraw, hversion⟩ : ∃ raw ∈ read, version raw = 2 :=
      List.mem_map.1 (hversions ▸ List.mem_singleton_self 2)
    have hlt := hbefore raw hraw
    omega

end Example

end EventSourcery.Kurrent.KurrentBounds
