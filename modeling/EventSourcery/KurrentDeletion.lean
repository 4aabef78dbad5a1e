import EventSourcery.KurrentServer

/-!
# Deletion of KurrentDB streams

A deletion takes the events of a stream away and leaves its snapshots, which are in a stream of
their own. What is loaded later begins with the newest snapshot as soon as the stream has events
again, whether that snapshot was saved after the deletion or before it.
-/
namespace EventSourcery.Kurrent.KurrentDeletion
open EventStore (request call_eq)
open Runs Tenants KurrentServer

variable {E : Type}

/-- A call that deletes the stream. -/
def Deletes (name : Name) (i : TenantId × Call E) : Prop :=
  ∃ streamId, i.2 = .deleteStream streamId ∧ i.1 = name.tenantId ∧
    streamId.uuid = name.uuid.uuid ∧ streamId.categoryText = name.uuid.categoryText

section Steps
variable {serdes : TenantId → Serde E} {log log' : EventLog} {t : TenantId} {raw : RawEvent}
  {entry : RecordedEvent}

/-- The log has grown since a stream was deleted, and the stream was not deleted again. -/
structure Since (name : Name) (deleted log : EventLog) : Prop where
  isPrefix : deleted.entries <+: log.entries
  kept : log.deleted name.text = (deleted.written name.text).length

theorem Since.step {i : TenantId × Call E} {name : Name} {deleted : EventLog}
    (hvalid : ValidCall serdes i) (hkept : ¬ Deletes name i) (h : Since name deleted log) :
    Since name deleted (callStep (stores serdes) log i).2 := by
  rcases callStep_cases hvalid with ⟨streamId, other, hcall, hother, hdelete⟩ | hgrows
  · rw [hdelete]
    refine ⟨h.isPrefix, (Function.update_of_ne (fun hsame => hkept ?_) _ _).trans h.kept⟩
    obtain ⟨htenant, huuid⟩ := name_of_eq_ok hother
    have htriple := (Name.text_eq_iff name other).1 hsame
    simp only [Name.triple, Prod.mk.injEq] at htriple
    exact ⟨streamId, hcall, htenant.symm.trans htriple.1.symm, huuid ▸ htriple.2.2.symm,
      huuid ▸ htriple.2.1.symm⟩
  · obtain ⟨new, hnew, -⟩ := hgrows.added
    refine ⟨h.isPrefix.trans (hnew ▸ List.prefix_append _ _), ?_⟩
    rw [hgrows.deleted, h.kept]

end Steps

section Reads
variable {name : Name} {deleted log : EventLog} {start stop : Option ℤ}
  {loaded : List (RecordedEvent × RawEvent)}

/-- The numbers of a range that can be sent. -/
def Sendable (range : Option Position × ℤ) : Prop :=
  (∀ position ∈ range.1, 0 ≤ position) ∧ 0 ≤ range.2

/-- A load begins with a snapshot that was saved before the stream was deleted: the stream has
events again, no snapshot was saved since, and the range behind the snapshot can be asked for. -/
def Stale (name : Name) (deleted log : EventLog) (start stop : Option ℤ) : Prop :=
  start = none ∧ log.stream name.text ≠ [] ∧
    ∃ entry raw v, log.lastEntry name.snapshot = some entry ∧ entry ∈ deleted.entries ∧
      snapshot entry = .ok raw ∧ raw.version = some v ∧ Sendable (scope (some (v + 1)) stop)

theorem readStream_ok {text : String} {range : Option Position × ℤ} (h : Sendable range)
    (hne : log.stream text ≠ []) : ∃ entries, entries ⊆ log.stream text ∧
      log.readStream text range.1 range.2 = .ok (some entries) := by
  obtain ⟨position, limit⟩ := range
  have hposition : position.any (· < 0) = false := by
    cases position with
    | none => rfl
    | some p => simpa using h.1 p rfl
  have hlimit : ¬ limit < 0 := not_lt.2 h.2
  refine ⟨((log.stream text).filter fun entry =>
      position.all (· ≤ entry.streamPosition)).take limit.toNat, ?_, ?_⟩
  · exact fun entry hentry => List.mem_of_mem_filter (List.mem_of_mem_take hentry)
  · simp [EventLog.readStream, hposition, hlimit, hne]

theorem readStream_some {text : String} {position : Option Position} {limit : ℤ}
    {entries : List RecordedEvent}
    (h : log.readStream text position limit = .ok (some entries)) :
    Sendable (position, limit) ∧ log.stream text ≠ [] ∧ entries ⊆ log.stream text := by
  unfold EventLog.readStream at h
  split at h
  · cases h
  · rename_i hsendable
    split at h
    · cases h
    · rename_i hne
      cases h
      simp only [Bool.or_eq_true, decide_eq_true_eq, not_or, not_lt] at hsendable
      refine ⟨⟨fun p hp => ?_, hsendable.2⟩, hne, fun entry hentry =>
        List.mem_of_mem_filter (List.mem_of_mem_take hentry)⟩
      change position = some p at hp
      subst hp
      simpa using hsendable.1

/-- What is loaded: the snapshot, if no start is given, and events of the stream. -/
theorem fetchEntries_ok
    (h : fetchEntries ⟨name.tenantId⟩ name.uuid start stop log = .ok loaded) : loaded = [] ∨
      ∃ snapshot events, firstSnapshot name start log = .ok snapshot ∧
        Sendable (rangeAfter snapshot start stop) ∧
        log.stream name.text ≠ [] ∧ (∀ x ∈ events, x.1 ∈ log.stream name.text) ∧
        loaded = snapshot.toList ++ events := by
  obtain ⟨other, hother, h⟩ := bind_eq_ok.1 h
  rw [Name.of_eq_ok name.named] at hother
  cases hother
  obtain ⟨snapshot, hsnapshot, h⟩ := bind_eq_ok.1 h
  obtain ⟨read, hread, h⟩ := bind_eq_ok.1 h
  cases read with
  | none =>
    cases h
    exact .inl rfl
  | some entries =>
    obtain ⟨events, hevents, h⟩ := bind_eq_ok.1 h
    cases h
    obtain ⟨hsendable, hne, hsubset⟩ := readStream_some hread
    refine .inr ⟨snapshot, events, hsnapshot, hsendable, hne, fun x hx => ?_, rfl⟩
    obtain ⟨entry, hentry, hx⟩ := mem_of_mapM hevents hx
    obtain ⟨raw, -, hpair⟩ := map_eq_ok.1 (mapError_eq_ok.1 hx)
    exact hpair ▸ hsubset hentry

/-- The events that a stream has since it was deleted were written since. -/
theorem mem_since (h : Since name deleted log) (hnumbered : Numbered log.entries)
    {entry : RecordedEvent} (hentry : entry ∈ log.stream name.text) :
    entry ∉ deleted.entries := by
  obtain ⟨new, hnew⟩ := h.isPrefix
  have hstream : log.stream name.text = new.filter (·.streamName = name.text) := by
    unfold EventLog.stream EventLog.written
    rw [h.kept, ← hnew, List.filter_append]
    exact List.drop_left
  rw [hstream] at hentry
  intro hmem
  obtain ⟨i, hi⟩ := List.mem_iff_getElem?.1 hmem
  obtain ⟨j, hj⟩ := List.mem_iff_getElem?.1 (List.mem_of_mem_filter hentry)
  have hlength := (List.getElem?_eq_some_iff.1 hi).1
  have hfirst : log.entries[i]? = some entry := by
    rw [← hnew, List.getElem?_append_left hlength, hi]
  have hsecond : log.entries[deleted.entries.length + j]? = some entry := by
    rw [← hnew, List.getElem?_append_right (Nat.le_add_right _ _), Nat.add_sub_cancel_left, hj]
  have hsame := (hnumbered i entry hfirst).symm.trans (hnumbered _ entry hsecond)
  simp only [Option.some.injEq] at hsame
  omega

/-- What is loaded from a stream with events, all of which can be read. -/
theorem fetchEntries_snapshot (hinv : Inv log) {snapshot : Option (RecordedEvent × RawEvent)}
    (hsnapshot : firstSnapshot name start log = .ok snapshot)
    (hsendable : Sendable (rangeAfter snapshot start stop)) (hne : log.stream name.text ≠ []) :
    ∃ events, fetchEntries ⟨name.tenantId⟩ name.uuid start stop log =
      .ok (snapshot.toList ++ events) := by
  obtain ⟨entries, hsubset, hread⟩ := readStream_ok hsendable hne
  have hreadable : ∀ entry ∈ entries, ∃ x : RecordedEvent × RawEvent,
      ((rawEvent entry none).map fun raw => (entry, raw)).mapError CodecError.toError = .ok x := by
    intro entry hentry
    have hmem := List.mem_filter.1 (List.mem_of_mem_drop (hsubset hentry))
    have hstream : entry.streamName = name.text := by simpa using hmem.2
    rcases hinv.readable entry hmem.1 with ⟨-, -, raw, hraw⟩ | ⟨other, hother, -⟩
    · exact ⟨(entry, raw), by rw [hraw]; rfl⟩
    · exact absurd (hstream.symm.trans hother) (Name.text_ne_snapshot _ _)
  obtain ⟨events, hevents⟩ := exists_mapM hreadable
  refine ⟨events, bind_eq_ok.2 ⟨name, Name.of_eq_ok name.named, bind_eq_ok.2 ⟨snapshot, hsnapshot,
    bind_eq_ok.2 ⟨some entries, hread, bind_eq_ok.2 ⟨events, hevents, rfl⟩⟩⟩⟩⟩

/-- The snapshot that a load begins with is the last one of the stream. -/
theorem firstSnapshot_some {x : RecordedEvent × RawEvent}
    (h : firstSnapshot name start log = .ok (some x)) :
    start = none ∧ log.lastEntry name.snapshot = some x.1 ∧ snapshot x.1 = .ok x.2 := by
  unfold firstSnapshot at h
  split at h
  · rename_i hstart
    unfold readSnapshot at h
    split at h
    · cases h
    · rename_i entry hentry
      obtain ⟨raw, hraw, hx⟩ := map_eq_ok.1 (mapError_eq_ok.1 h)
      cases hx
      exact ⟨hstart, hentry, hraw⟩
  · cases h

/-- A load after a deletion gives only what was written since, if and only if it does not begin
with a stale snapshot. -/
theorem fetchEntries_since_iff (h : Since name deleted log) (hinv : Inv log) :
    (∀ loaded, fetchEntries ⟨name.tenantId⟩ name.uuid start stop log = .ok loaded →
      ∀ x ∈ loaded, x.1 ∉ deleted.entries) ↔ ¬ Stale name deleted log start stop := by
  constructor
  · rintro hsince ⟨rfl, hne, entry, raw, v, hlast, hold, hraw, hversion, hsendable⟩
    have hsnapshot : firstSnapshot name none log = .ok (some (entry, raw)) := by
      simp only [firstSnapshot, readSnapshot, hlast, hraw, Except.map, Except.mapError, if_true]
    have hrange : Sendable (rangeAfter (some (entry, raw)) none stop) := by
      simpa only [rangeAfter, Option.bind_some, hversion, Option.map_some,
        Option.none_or] using hsendable
    obtain ⟨events, hfetched⟩ := fetchEntries_snapshot hinv hsnapshot hrange hne
    exact hsince _ hfetched (entry, raw) (by simp) hold
  · intro hstale loaded hloaded x hx
    rcases fetchEntries_ok hloaded with rfl | ⟨snap, events, hsnap, hsendable, hne, hevents, rfl⟩
    · cases hx
    · rcases List.mem_append.1 hx with hx | hx
      · obtain rfl : snap = some x := by simpa using hx
        obtain ⟨rfl, hlast, hraw⟩ := firstSnapshot_some hsnap
        intro hold
        have hmem := List.mem_filter.1 (List.mem_of_mem_drop (List.mem_of_getLast? hlast))
        have hstream : x.1.streamName = name.snapshot := by simpa using hmem.2
        rcases hinv.readable _ hmem.1 with ⟨other, hother, -⟩ | ⟨-, -, raw, v, hread, hversion⟩
        · exact Name.text_ne_snapshot other name (hother.symm.trans hstream)
        · rw [hraw] at hread
          cases hread
          refine hstale ⟨rfl, hne, x.1, x.2, v, hlast, hold, hraw, hversion, ?_⟩
          simpa only [rangeAfter, Option.bind_some, hversion, Option.map_some,
            Option.none_or] using hsendable
      · exact mem_since h hinv.numbered (hevents x hx)

end Reads

section Runs
variable {serdes : TenantId → Serde E}

/-- A load gives the events that are read from the entries that it fetches. -/
theorem loadStream_eq (t : TenantId) (streamId : StreamId) (start stop : Option ℤ)
    (log : EventLog) : (stores serdes t).loadStream streamId start stop log =
      (fetchEntries ⟨t⟩ streamId start stop log).bind fun loaded =>
        ((serdes t).deserializeMany (loaded.map Prod.snd)).mapError .serde := by
  change ((fetchEntries ⟨t⟩ streamId start stop log).map (List.map Prod.snd)).bind _ = _
  cases fetchEntries ⟨t⟩ streamId start stop log <;> rfl

/-- After a deletion, only what was saved since is fetched from a stream, if and only if the fetch
does not begin with a snapshot from before the deletion. A load deserializes what is fetched. -/
theorem loads_after_deletion_iff {before after : List (TenantId × Call E)}
    (hvalid : ∀ i ∈ before ++ after, ValidCall serdes i) (name : Name)
    (hkept : ∀ i ∈ after, ¬ Deletes name i) (start stop : Option ℤ) :
    let deleted := (run (callStep (stores serdes)) {}
      (before ++ [(name.tenantId, .deleteStream name.uuid)])).2
    let log := (run (callStep (stores serdes)) deleted after).2
    (stores serdes name.tenantId).loadStream name.uuid start stop log =
        ((fetchEntries ⟨name.tenantId⟩ name.uuid start stop log).bind fun loaded =>
          ((serdes name.tenantId).deserializeMany (loaded.map Prod.snd)).mapError .serde) ∧
      ((∀ loaded, fetchEntries ⟨name.tenantId⟩ name.uuid start stop log = .ok loaded →
          ∀ x ∈ loaded, x.1 ∉ deleted.entries) ↔ ¬ Stale name deleted log start stop) := by
  intro deleted log
  have hbefore : Inv (run (callStep (stores serdes)) {} before).2 :=
    run_keeps (fun _ _ hi h => h.step hi) inv_empty
      fun i hi => hvalid i (List.mem_append_left _ hi)
  have hdeleted : deleted = (run (callStep (stores serdes)) {} before).2.delete name.text := by
    have hname := Name.of_eq_ok name.named
    change (run _ _ (before ++ _)).2 = _
    rw [run_append]
    change (deleteStream ⟨name.tenantId⟩ name.uuid _).2 = _
    unfold deleteStream
    rw [hname]
  have hsince : Inv log ∧ Since name deleted log := by
    have hafter : ∀ i ∈ after, ValidCall serdes i ∧ ¬ Deletes name i := fun i hi =>
      ⟨hvalid i (List.mem_append_right _ hi), hkept i hi⟩
    have hstep : ∀ log i, ValidCall serdes i ∧ ¬ Deletes name i →
        Inv log ∧ Since name deleted log →
          Inv (callStep (stores serdes) log i).2 ∧
            Since name deleted (callStep (stores serdes) log i).2 :=
      fun _ _ hi h => ⟨h.1.step hi.1, h.2.step hi.1 hi.2⟩
    refine run_keeps hstep ⟨?_, List.prefix_rfl, ?_⟩ hafter
    · rw [hdeleted]
      exact ⟨hbefore.numbered, hbefore.readable⟩
    · rw [hdeleted]
      exact Function.update_self _ _ _
  exact ⟨loadStream_eq _ _ _ _ _, fetchEntries_since_iff hsince.2 hsince.1⟩

end Runs

section Example

/-- An order with a snapshot is deleted. -/
def orderDeleted : EventLog :=
  (run (callStep (stores fun _ => orderSerde)) {}
    ([orderPlaced 1, orderSaved 1] ++ [("", .deleteStream orderName.uuid)])).2

theorem loads_after_deletion_iff_saved :
    ∃ loaded, fetchEntries ⟨""⟩ orderName.uuid none none
        (run (callStep (stores fun _ => orderSerde)) orderDeleted
          [orderPlaced 2, orderSaved 2]).2 = .ok loaded ∧
      ∀ x ∈ loaded, x.1 ∉ orderDeleted.entries := by
  have hok : (fetchEntries ⟨""⟩ orderName.uuid none none
      (run (callStep (stores fun _ => orderSerde)) orderDeleted
        [orderPlaced 2, orderSaved 2]).2).isOk = true := by decide +kernel
  obtain ⟨loaded, hloaded⟩ : ∃ loaded, fetchEntries ⟨""⟩ orderName.uuid none none
      (run (callStep (stores fun _ => orderSerde)) orderDeleted
        [orderPlaced 2, orderSaved 2]).2 = .ok loaded := by
    revert hok
    generalize fetchEntries ⟨""⟩ orderName.uuid none none _ = read
    cases read with
    | error e => exact fun h => by cases h
    | ok loaded => exact fun _ => ⟨loaded, rfl⟩
  refine ⟨loaded, hloaded, ?_⟩
  refine (@loads_after_deletion_iff _ (fun _ => orderSerde) [orderPlaced 1, orderSaved 1]
    [orderPlaced 2, orderSaved 2] ?_ orderName ?_ none none).2.2 ?_ loaded hloaded
  · intro i hi
    simp only [List.cons_append, List.nil_append, List.mem_cons, List.not_mem_nil, or_false] at hi
    rcases hi with hi | hi | hi | hi
    exacts [validCall_order (.inl hi), validCall_order (.inr hi), validCall_order (.inl hi),
      validCall_order (.inr hi)]
  · intro i hi
    simp only [List.mem_cons, List.not_mem_nil, or_false] at hi
    rintro ⟨streamId, hcall, -⟩
    rcases hi with rfl | rfl <;> cases hcall
  · rintro ⟨-, -, entry, -, -, hlast, hold, -⟩
    have hnew : ((run (callStep (stores fun _ => orderSerde)) orderDeleted
        [orderPlaced 2, orderSaved 2]).2.lastEntry orderName.snapshot).all
          (· ∉ orderDeleted.entries) = true := by decide +kernel
    change EventLog.lastEntry _ (run _ orderDeleted _).2 = _ at hlast
    change entry ∈ orderDeleted.entries at hold
    rw [hlast] at hnew
    exact of_decide_eq_true hnew hold

/-- An order that is placed again after it was deleted is loaded with its old snapshot. -/
theorem loads_snapshot_after_deletion :
    let log := (run (callStep (stores fun _ => orderSerde)) orderDeleted [orderPlaced 2]).2
    (stores (fun _ => orderSerde) "").loadStream orderName.uuid none none log =
        .ok [orderEvent 1, orderEvent 2] ∧
      ¬ ∀ loaded, fetchEntries ⟨""⟩ orderName.uuid none none log = .ok loaded →
        ∀ x ∈ loaded, x.1 ∉ orderDeleted.entries := by
  intro log
  refine ⟨by decide +kernel, fun h => ?_⟩
  have hold : (fetchEntries ⟨""⟩ orderName.uuid none none log).toOption.any
      (fun loaded => loaded.any fun x => x.1 ∈ orderDeleted.entries) = true := by decide +kernel
  cases hloaded : fetchEntries ⟨""⟩ orderName.uuid none none log with
  | error e =>
    rw [hloaded] at hold
    cases hold
  | ok loaded =>
    rw [hloaded] at hold
    obtain ⟨x, hx, hmem⟩ := List.any_eq_true.1 hold
    exact h loaded hloaded x hx (by simpa using hmem)

end Example

end EventSourcery.Kurrent.KurrentDeletion
