import EventSourcery.KurrentBounds
import EventSourcery.ReferenceStore

/-!
# The KurrentDB store as an event store

An event that is appended is read back with the version that follows from its position, and this is
the version that it was given. There are no snapshots, and no stream was ever deleted: after a
deletion the positions of a stream go on, and its versions do not begin with 1.
-/
namespace EventSourcery.Kurrent.KurrentConformance
open ConsecutiveNumbers KurrentServer KurrentBounds ReferenceStore Runs Tenants Replay
open KurrentDeletion (Sendable)

variable {E : Type} {serde : Serde E} {t : TenantId} {log : EventLog} {books : Books}
  {streamId : StreamId} {events : List RawEvent}

/-- The streams of the tenant have the events of the books. -/
structure Stands (t : TenantId) (log : EventLog) (books : Books) : Prop where
  placed : Placed log
  kept : ∀ text, log.deleted text = 0
  bare : ∀ name : Name, log.written name.snapshot = []
  readable : ∀ entry ∈ log.entries, ∃ raw, rawEvent entry none = .ok raw
  streams : ∀ streamId name, Plain streamId → Name.of t streamId = .ok name →
    KurrentBounds.events name log = books.events streamId

theorem stands_empty (t : TenantId) : Stands t {} {} where
  placed := fun _ => trivial
  kept := fun _ => rfl
  bare := fun _ => rfl
  readable := by simp
  streams := fun _ _ _ _ => rfl

/-- A plain stream has a name. -/
theorem exists_name (ht : '-' ∉ t.toList) (hplain : Plain streamId) :
    ∃ name, Name.of t streamId = .ok name := by
  have hnamed : streamName t streamId =
      .ok (streamId.categoryText ++ "-" ++ t ++ "-" ++ Texts.uuidHex streamId.uuid) := by
    unfold streamName
    rw [if_neg (by simpa using ht), if_neg (by simpa using hplain.dashes)]
  exact ⟨_, Name.of_eq_ok hnamed⟩

theorem Stands.stream (h : Stands t log books) (text : String) :
    log.stream text = log.written text := by
  rw [EventLog.stream, h.kept]
  rfl

theorem Stands.holds (h : Stands t log books) (name : Name) : Holds name log where
  positions := by
    rw [h.stream]
    exact h.placed name.text
  readable entry hentry := by
    rw [h.stream] at hentry
    exact h.readable entry (List.mem_of_mem_filter hentry)
  snapshots entry hentry := by
    rw [h.stream, h.bare] at hentry
    cases hentry

theorem Stands.firstSnapshot (h : Stands t log books) (name : Name) (start : Option ℤ) :
    firstSnapshot name start log = .ok none := by
  unfold KurrentServer.firstSnapshot readSnapshot EventLog.lastEntry
  rw [h.stream, h.bare]
  split <;> rfl

/-- The range of a portable read can be asked for, and has the versions that it names. -/
theorem sendable_of_loadable {start stop : Option ℤ} (hload : Loadable books streamId start stop) :
    Sendable (scope start stop) ∧
      ∀ v, 1 ≤ v → v ≤ maxPosition →
        (InRange (some ((scope start stop).1.getD 0 + 1))
          (some ((scope start stop).1.getD 0 + (scope start stop).2 + 1)) v ↔
            InRange start stop v) := by
  have hstop : ∀ b ∈ stop, 1 ≤ b := fun b hb => by linarith [hload.last b hb]
  have hfirst := scope_start (fun a ha => (hload.first a ha).1) stop
  have hlength := scope_length (fun a ha => (hload.first a ha).1) hstop
  have hlow : (1 : ℤ) ≤ start.getD 1 := by
    cases start with
    | none => exact le_rfl
    | some a => exact (hload.first a rfl).1
  have hlast : stop.elim maxPosition lastPosition + 1 = stop.getD (maxPosition + 1) := by
    cases stop with
    | none => rfl
    | some b =>
      have hb := hload.last b rfl
      rw [Option.elim_some, lastPosition, if_neg (by omega), Option.getD_some]
      exact sub_add_cancel b 1
  have horder : start.getD 1 ≤ stop.getD (maxPosition + 1) := by
    cases start with
    | none =>
      cases stop with
      | none => decide
      | some b => exact hstop b rfl
    | some a =>
      have ha := (hload.first a rfl).2
      cases stop with
      | none =>
        change a ≤ maxPosition + 1
        linarith
      | some b => exact hload.between a rfl b rfl
  refine ⟨⟨fun position hposition => ?_, ?_⟩, fun v hv hmax => ?_⟩
  · have hsome : (scope start stop).1.getD 0 = position := by rw [Option.mem_def.1 hposition]; rfl
    rw [← hsome, hfirst]
    linarith
  · rw [hlength]
    linarith
  · rw [hlength, hfirst]
    have hend : start.getD 1 - 1 + (stop.elim maxPosition lastPosition - (start.getD 1 - 1)) + 1 =
        stop.getD (maxPosition + 1) := by linarith
    rw [hend, sub_add_cancel]
    simp only [InRange, Option.mem_def, Option.some.injEq, forall_eq']
    constructor
    · rintro ⟨hge, hlt⟩
      refine ⟨fun a ha => by rw [ha] at hge; exact hge, fun b hb => by rw [hb] at hlt; exact hlt⟩
    · rintro ⟨hge, hlt⟩
      constructor
      · cases hstart : start with
        | none => exact hv
        | some a => exact hge a hstart
      · cases hstop : stop with
        | none =>
          change v < maxPosition + 1
          linarith
        | some b => exact hlt b hstop

theorem readStream_of_nil {text : String} {range : Option Position × ℤ} (h : Sendable range)
    (hempty : log.stream text = []) : log.readStream text range.1 range.2 = .ok none := by
  obtain ⟨position, limit⟩ := range
  have hposition : position.any (· < 0) = false := by
    cases position with
    | none => rfl
    | some p => simpa using h.1 p rfl
  have hlimit : ¬ limit < 0 := not_lt.2 h.2
  simp [EventLog.readStream, hposition, hlimit, hempty]

theorem Stands.fetch (h : Stands t log books) (ht : '-' ∉ t.toList) (hnumbered : books.Numbered)
    {start stop : Option ℤ} (hload : Loadable books streamId start stop) :
    KurrentServer.fetchEvents ⟨t⟩ streamId start stop log =
      .ok (ReferenceStore.fetchEvents streamId start stop books) := by
  obtain ⟨name, hname⟩ := exists_name ht hload.plain
  have hevents := h.streams streamId name hload.plain hname
  have hholds := h.holds name
  obtain ⟨hsendable, hrange⟩ := sendable_of_loadable hload
  have hsnapshot := h.firstSnapshot name start
  unfold KurrentServer.fetchEvents fetchEntries
  simp only [hname, hsnapshot, bind, Except.bind, rangeAfter, Option.bind_none, Option.or_none]
  by_cases hempty : log.stream name.text = []
  · have hnone : books.events streamId = [] := by
      rw [← hevents, KurrentBounds.events, hempty]
      rfl
    rw [readStream_of_nil hsendable hempty, ReferenceStore.fetchEvents, hnone]
    rfl
  · rw [hholds.readStream_eq hsendable hempty]
    obtain ⟨read, hread, hmap⟩ := exists_read (fun entry hentry =>
      hholds.readable entry (List.mem_of_mem_filter hentry) :
        ∀ entry ∈ (log.stream name.text).filter _, _)
    have hselected : read.map Prod.snd = ReferenceStore.fetchEvents streamId start stop books := by
      rw [hmap, filterMap_inRange hholds.readable]
      change (KurrentBounds.events name log).filter _ = _
      rw [hevents]
      refine List.filter_congr fun raw hraw => ?_
      obtain ⟨i, hi, hversion⟩ := (hnumbered (place streamId)).exists_of_mem hraw
      have hlt : i < (books.events streamId).length := (List.getElem?_eq_some_iff.1 hi).1
      have hbound : (i : ℤ) + 1 ≤ books.version streamId := by
        unfold Books.version
        omega
      simp only [version, hversion, Option.getD_some, Option.any_some]
      rw [decide_eq_decide]
      exact hrange _ (by linarith [Int.natCast_nonneg i]) (by linarith [hload.bounded])
    simp only [hread, Option.toList_none, List.nil_append]
    exact congrArg Except.ok hselected

/-! ## Appends -/

theorem written_record_of_ne {text other : String} (hne : other ≠ text) (entry : NewEvent)
    (log : EventLog) : (log.record text entry).written other = log.written other := by
  unfold EventLog.record EventLog.written
  rw [List.filter_append]
  simp [NewEvent.recorded, hne.symm]

theorem written_append_of_ne {text other : String} (hne : other ≠ text) (entries : List NewEvent)
    (log : EventLog) : (log.append text entries).written other = log.written other := by
  induction entries generalizing log with
  | nil => rfl
  | cons entry entries ih =>
    rw [EventLog.append, ih, written_record_of_ne hne]

/-- An event that is numbered by its position is read as it was written. -/
theorem rawEvent_of_appendable {raw : RawEvent} {entry : NewEvent} (hvalid : Valid raw)
    (hfree : Unreserved raw.context) (hentry : newEntry raw [] = .ok entry) {name : Name}
    (hplain : Plain name.uuid) (haddressed : raw.streamId = name.uuid) {position : ℕ}
    (hversion : raw.version = some (position + 1 : ℤ)) (commitPosition : Option ℕ) :
    rawEvent (entry.recorded name.text position commitPosition) none = .ok raw := by
  have hname : Name.fromStreamName (entry.recorded name.text position commitPosition).streamName =
      .ok _ := Name.fromStreamName_of name.withoutSuffix_text
  have hread := rawEvent_recorded hvalid.data hvalid.context hvalid.createdAt proper_nil hentry
    (entry.recorded name.text position commitPosition) rfl hname none
  have hid : name.reread = raw.streamId := by
    rw [haddressed]
    obtain ⟨_, ⟨uuid, streamName, category⟩, _, _⟩ := name
    obtain ⟨hnone, hcategory, -⟩ := hplain
    cases hnone
    cases category with
    | none => rfl
    | some category =>
      have hne : category ≠ "" := fun hempty => hcategory (congrArg some hempty)
      simp [Name.reread, Option.filter, hne]
  have hcontext : (raw.context.filter fun f => !reserved f.1) = raw.context :=
    filter_context_iff.2 fun key hkey => (hfree key hkey).2
  have hsame : reread raw name.reread (position + 1) = raw := by
    rw [reread, hid, hcontext, ← hversion]
  exact hread.trans (congrArg Except.ok hsame)

/-- The events that are appended to a stream are read behind those that it had. -/
theorem append_spec {name : Name} (hplain : Plain name.uuid) {entries : List NewEvent}
    (hentries : List.Forall₂ (fun raw entry => newEntry raw [] = .ok entry) events entries)
    (hevents : ∀ raw ∈ events, raw.streamId = name.uuid ∧ Valid raw ∧ Unreserved raw.context)
    (hreadable : ∀ entry ∈ log.entries, ∃ raw, rawEvent entry none = .ok raw)
    (hnumbered : Consecutive (·.version) ((log.written name.text).length + 1) events) :
    ((log.append name.text entries).written name.text).filterMap decoded =
        (log.written name.text).filterMap decoded ++ events ∧
      ∀ entry ∈ (log.append name.text entries).entries, ∃ raw, rawEvent entry none = .ok raw := by
  induction hentries generalizing log with
  | nil => exact ⟨by rw [EventLog.append, List.append_nil], hreadable⟩
  | @cons raw entry events entries hentry _ ih =>
    obtain ⟨haddressed, hvalid, hfree⟩ := hevents raw List.mem_cons_self
    obtain ⟨hfirst, hrest⟩ := hnumbered
    have hread := rawEvent_of_appendable hvalid hfree hentry hplain haddressed hfirst
      (some (log.entries.length + 1))
    have hwritten : (log.record name.text entry).written name.text = log.written name.text ++
        [entry.recorded name.text (log.written name.text).length
          (some (log.entries.length + 1))] := by
      simp [EventLog.record, EventLog.written, List.filter_append, NewEvent.recorded]
    have hreadable' : ∀ other ∈ (log.record name.text entry).entries,
        ∃ raw, rawEvent other none = .ok raw := by
      intro other hother
      rcases List.mem_append.1 hother with hother | hother
      · exact hreadable other hother
      · exact ⟨raw, by rwa [List.mem_singleton.1 hother]⟩
    obtain ⟨hafter, hstill⟩ := ih
      (fun other hother => hevents other (List.mem_cons_of_mem _ hother)) hreadable'
      (by
        rw [hwritten, List.length_append, List.length_singleton]
        push_cast
        exact hrest)
    refine ⟨?_, hstill⟩
    rw [EventLog.append, hafter, hwritten, List.filterMap_append, List.filterMap_cons,
      decoded_of_ok hread, List.append_assoc]
    rfl

/-- Entries are made of events whose contexts are told from the library's members. -/
theorem exists_entries (hvalid : ∀ raw ∈ events, Valid raw ∧ Unreserved raw.context) :
    ∃ entries, events.mapM (fun raw => newEntry raw []) = .ok entries := by
  induction events with
  | nil => exact ⟨[], rfl⟩
  | cons raw events ih =>
    obtain ⟨entry, hentry⟩ := ((written_same_iff raw [] raw.streamId 0).2
      (hvalid raw List.mem_cons_self).2).1
    obtain ⟨entries, hentries⟩ :=
      ih fun other hother => hvalid other (List.mem_cons_of_mem _ hother)
    exact ⟨entry :: entries, by rw [List.mapM_cons, hentry, hentries]; rfl⟩

/-- The check of an expected version compares the number of events, except for 0. -/
theorem Stands.ensureStream (h : Stands t log books) {name : Name} (hplain : Plain streamId)
    (hname : Name.of t streamId = .ok name) {v : ℤ}
    (hzero : v = 0 → books.events streamId = []) (initial : Option ℤ) :
    ensureStream ⟨t⟩ streamId (.explicit v initial) log =
      if v = books.version streamId then .ok ()
      else .error (.concurrentStreamWriteError [.bool true, .int (fromVersion v)]) := by
  have hholds := h.holds name
  have hlength : (log.stream name.text).length = (books.events streamId).length := by
    obtain ⟨read, hread, hmap⟩ := exists_read hholds.readable
    have hsame : read.map Prod.snd = books.events streamId :=
      hmap.trans (h.streams streamId name hplain hname)
    rw [← hsame, List.length_map]
    exact (mapM_eq_ok_iff.1 hread).length_eq
  have hlast : ((log.lastEntry name.text).map fun entry => (entry.streamPosition : ℤ)) =
      if books.version streamId = 0 then none else some (books.version streamId - 1) := by
    have hpositions := hholds.positions
    unfold EventLog.lastEntry Books.version
    rw [← hlength]
    cases hstream : log.stream name.text with
    | nil => rfl
    | cons entry entries =>
      rw [hstream] at hpositions
      have hfinal := hpositions.getLast?
      rw [List.getLast?_eq_some_getLast (List.cons_ne_nil entry entries)] at hfinal ⊢
      rw [Option.map_some, if_neg (by simp; omega), List.length_cons]
      refine hfinal.trans ?_
      push_cast
      simp
  unfold KurrentServer.ensureStream
  simp only [hname, bind, Except.bind, comparePosition, Versioning.compared, hlast]
  by_cases hv : v = 0
  · have hcurrent : v = books.version streamId := by
      rw [hv, Books.version, hzero hv]
      rfl
    rw [if_pos hv, if_pos hcurrent]
  · rw [if_neg hv]
    have hiff : (if books.version streamId = 0 then none else some (books.version streamId - 1)) =
        some (fromVersion v) ↔ v = books.version streamId := by
      unfold fromVersion
      split
      · rename_i hnone
        rw [hnone]
        simp [hv]
      · rw [Option.some_inj]
        constructor <;> intro heq <;> linarith
    by_cases hcurrent : v = books.version streamId
    · rw [if_pos hcurrent]
      exact if_neg (not_not.2 (hiff.2 hcurrent))
    · rw [if_neg hcurrent]
      exact if_pos (mt hiff.1 hcurrent)

/-- Plain streams of a tenant have the same name only if they are the same. -/
theorem place_of_name {other : StreamId} {name name' : Name}
    (hname : Name.of t streamId = .ok name) (hother : Name.of t other = .ok name') :
    name'.text = name.text ↔ place other = place streamId := by
  obtain ⟨htenant, huuid⟩ := name_of_eq_ok hname
  obtain ⟨htenant', huuid'⟩ := name_of_eq_ok hother
  rw [Name.text_eq_iff, Name.triple, Name.triple, htenant, htenant', huuid, huuid', place, place]
  simp only [Prod.mk.injEq, true_and]
  exact and_comm

theorem Stands.append (h : Stands t log books) {name : Name} (hplain : Plain streamId)
    (hname : Name.of t streamId = .ok name) {entries : List NewEvent}
    (hentries : List.Forall₂ (fun raw entry => newEntry raw [] = .ok entry) events entries)
    (hevents : ∀ raw ∈ events, raw.streamId = streamId ∧ Valid raw ∧ Unreserved raw.context)
    (hnumbered : Consecutive (·.version) (books.version streamId + 1) events) :
    Stands t (log.append name.text entries)
      (books.write streamId (books.events streamId ++ events)) := by
  have huuid := (name_of_eq_ok hname).2
  have hlength : ((log.written name.text).length : ℤ) = books.version streamId := by
    have hholds := h.holds name
    rw [← h.stream, Books.version, ← h.streams streamId name hplain hname]
    obtain ⟨read, hread, hmap⟩ := exists_read hholds.readable
    rw [KurrentBounds.events, ← hmap, List.length_map, ← (mapM_eq_ok_iff.1 hread).length_eq]
  obtain ⟨hread, hreadable⟩ := append_spec (huuid.symm ▸ hplain) hentries
    (fun raw hraw => huuid.symm ▸ hevents raw hraw) h.readable (hlength.symm ▸ hnumbered)
  have hgrows := grows_append name.text entries log
  have hkept : ∀ text, (log.append name.text entries).deleted text = 0 := by
    intro text
    rw [hgrows.deleted, h.kept]
  have hbefore : (log.written name.text).filterMap decoded = books.events streamId := by
    rw [← h.stream]
    exact h.streams streamId name hplain hname
  refine ⟨h.placed.append _ _, hkept, fun other => ?_, hreadable,
    fun other name' hother hname' => ?_⟩
  · rw [written_append_of_ne (Name.text_ne_snapshot name other).symm]
    exact h.bare other
  · rw [KurrentBounds.events, EventLog.stream, hkept, List.drop_zero]
    by_cases hplace : place other = place streamId
    · rw [(place_of_name hname hname').2 hplace, hread, hbefore,
        events_write_of_eq hplace]
    · have hne := mt (place_of_name hname hname').1 hplace
      rw [written_append_of_ne hne, ← h.stream, Books.events, write_of_ne hplace]
      exact h.streams other name' hother hname'

theorem Stands.insert (h : Stands t log books) (ht : '-' ∉ t.toList) (hne : events ≠ [])
    (haddressed : ∀ raw ∈ events, raw.streamId = streamId) {versioning : Versioning}
    (happend : Appendable serde books streamId versioning events) :
    let r := KurrentServer.insertEvents ⟨t⟩ versioning events log
    let r' := ReferenceStore.insertEvents streamId versioning events books
    ReferenceStore.shown r.1 = r'.1 ∧ Stands t r.2 r'.2 := by
  intro r r'
  obtain ⟨v, rfl, hconsecutive, hzero⟩ := happend.numbered
  obtain ⟨name, hname⟩ := exists_name ht happend.plain
  have hinsert : r = _ := insertEvents_of_one hne haddressed _ log
  rw [h.ensureStream happend.plain hname hzero, hname] at hinsert
  simp only [r', ReferenceStore.insertEvents, Versioning.expectedVersion, Option.some_inj]
  by_cases hcurrent : v = books.version streamId
  · obtain ⟨entries, hentries⟩ := exists_entries happend.valid
    simp only [if_pos hcurrent, KurrentServer.appendEvents, hentries] at hinsert
    rw [hinsert, if_pos hcurrent]
    exact ⟨rfl, h.append happend.plain hname (mapM_eq_ok_iff.1 hentries)
      (fun raw hraw => ⟨haddressed raw hraw, happend.valid raw hraw⟩) (hcurrent ▸ hconsecutive)⟩
  · simp only [if_neg hcurrent] at hinsert
    rw [hinsert, if_neg hcurrent]
    exact ⟨rfl, h⟩

/-- The KurrentDB store, with one tenant, conforms to the reference as long as nothing is
deleted. -/
theorem conforms (ht : '-' ∉ t.toList) :
    Conforms serde False (storageStrategy ⟨t⟩) (Stands t) := by
  intro log books r h hnumbered hproper hr
  cases r with
  | fetch streamId start stop => exact ⟨congrArg ReferenceStore.shown (h.fetch ht hnumbered hr), h⟩
  | insert streamId versioning events =>
    obtain ⟨hanswer, hafter⟩ := h.insert ht hproper.1 hproper.2 hr
    exact ⟨(shown_map _ _).trans (congrArg _ hanswer), hafter⟩
  | snapshot raw => exact hr.elim
  | delete streamId => exact hr.1.elim

end EventSourcery.Kurrent.KurrentConformance
