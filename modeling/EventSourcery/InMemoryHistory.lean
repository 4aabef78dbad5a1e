import EventSourcery.InMemorySubscriptions

/-!
# The records of a stream in the in-memory backend

The storage keeps what is appended twice: behind all the records, and under its stream. Snapshots
and deletions only touch what is held under the stream. Beside the storage runs a mark for each
stream, of its last snapshot or deletion and of how many records there were at that time: what
is held is the snapshot, followed by the records of the stream behind the mark.
-/
namespace EventSourcery.InMemoryHistory
open EventStore Runs Tenants InMemoryStorageStrategy InMemorySubscriptions InMemoryTenants

variable {E : Type}

/-- Every call of a write meets a condition, those of the listeners included. -/
inductive Throughout (p : TenantId → Call E → Prop) : Write E → Prop
  | call {u : TenantId} {c : Call E} {reactions : List (Write E)} (hcall : p u c)
      (hreactions : ∀ write ∈ reactions, Throughout p write) :
      Throughout p (.call u c reactions)

/-- The last snapshot or deletion of a stream: the snapshot, if it was one, and the number of
records before it. -/
structure Mark where
  snapshot : Option RawEvent := none
  records : ℕ := 0

abbrev Marks := StreamKey → Mark

section Marks
variable (dispatchers : TenantId → Dispatcher E) (filterer : Option (RawEvent → Bool))

mutual

/-- The marks after a write to the backend. -/
def mark (s : InMemory) (marks : Marks) : Write E → Marks
  | .call u call reactions =>
      match request (dispatchers u).serde call with
      | .error _ => marks
      | .ok (.fetch _ _ _) => marks
      | .ok (.snapshot raw) =>
          Function.update marks raw.streamId.key ⟨some raw, s.storage.records.length⟩
      | .ok (.delete streamId) =>
          Function.update marks streamId.key ⟨none, s.storage.records.length⟩
      | .ok (.insert streamId versioning events) =>
          match (InMemoryStorageStrategy.mk (dispatchers u) filterer u).storeRecords streamId
              versioning events s with
          | (.error _, _) => marks
          | (.ok _, s) => markAll s marks reactions

def markAll (s : InMemory) (marks : Marks) : List (Write E) → Marks
  | [] => marks
  | write :: writes =>
      markAll (perform dispatchers filterer s write) (mark s marks write) writes

end

end Marks

/-- The records of a stream. -/
def ofStream (key : StreamKey) (records : List RecordedRaw) : List RecordedRaw :=
  records.filter fun record => record.entry.streamId.key = key

/-- The snapshot of the mark, and the records of the stream that were added after it. -/
def since (mark : Mark) (key : StreamKey) (records : List RecordedRaw) : List RawEvent :=
  mark.snapshot.toList ++ (ofStream key (records.drop mark.records)).map (·.entry)

section Since
variable {mark : Mark} {key k : StreamKey} {records new : List RecordedRaw}

theorem ofStream_self (h : ∀ record ∈ records, record.entry.streamId.key = key) :
    ofStream key records = records :=
  List.filter_eq_self.2 fun record hrecord => decide_eq_true (h record hrecord)

theorem ofStream_other (h : ∀ record ∈ records, record.entry.streamId.key = key) (hk : k ≠ key) :
    ofStream k records = [] := by
  refine List.filter_eq_nil_iff.2 fun record hrecord => ?_
  rw [h record hrecord, decide_eq_true_eq]
  exact hk.symm

theorem since_append (hmark : mark.records ≤ records.length) :
    since mark key (records ++ new) =
      since mark key records ++ (ofStream key new).map (·.entry) := by
  rw [since, List.drop_append_of_le_length hmark, ofStream, List.filter_append, List.map_append,
    ← List.append_assoc]
  rfl

theorem since_last (snapshot : Option RawEvent) (key : StreamKey) (records : List RecordedRaw) :
    since ⟨snapshot, records.length⟩ key records = snapshot.toList := by
  simp [since, ofStream]

end Since

/-- What is held of a stream, without positions and tenants. -/
def entries (s : InMemory) (key : StreamKey) : List RawEvent :=
  (s.storage.page key).elim [] (·.events)

/-- The streams of one tenant hold what there is since their marks. -/
structure Inv (t : TenantId) (s : InMemory) (marks : Marks) : Prop where
  sound : s.storage.Sound
  tagged : ∀ key, ∀ held ∈ s.storage.data key, ∀ record ∈ held, record.tenantId = t
  marked : ∀ key, (marks key).records ≤ s.storage.records.length
  held : ∀ key, entries s key = since (marks key) key s.storage.records

section Writes
variable {t : TenantId} {s s' : InMemory} {marks : Marks} {key : StreamKey}

theorem inv_empty (t : TenantId) : Inv t {} fun _ => {} where
  sound _ h := by cases h
  tagged _ _ h := by cases h
  marked _ := le_rfl
  held _ := rfl

theorem entries_of_writes (h : Writes t key s.storage s'.storage) {k : StreamKey} (hk : k ≠ key) :
    entries s' k = entries s k := by
  rw [entries, h.page k hk]
  rfl

/-- A write that adds records of its stream, and adds them to what is held too. -/
theorem Inv.add (h : Inv t s marks) (hwrites : Writes t key s.storage s'.storage)
    {new : List RecordedRaw} (hrecords : s'.storage.records = s.storage.records ++ new)
    (hnew : ∀ record ∈ new, record.entry.streamId.key = key)
    (hheld : entries s' key = entries s key ++ new.map (·.entry)) : Inv t s' marks where
  sound := hwrites.sound
  tagged := hwrites.tagged_all h.tagged
  marked k := by
    rw [hrecords, List.length_append]
    exact (h.marked k).trans (Nat.le_add_right _ _)
  held k := by
    rw [hrecords, since_append (h.marked k)]
    by_cases hk : k = key
    · subst hk
      rw [hheld, h.held, ofStream_self hnew]
    · rw [entries_of_writes hwrites hk, h.held, ofStream_other hnew hk, List.map_nil,
        List.append_nil]

/-- A write after which the stream holds a snapshot or nothing, with the mark that it leaves. -/
theorem Inv.reset (h : Inv t s marks) (hwrites : Writes t key s.storage s'.storage)
    (hrecords : s'.storage.records = s.storage.records) {snapshot : Option RawEvent}
    (hheld : entries s' key = snapshot.toList) :
    Inv t s' (Function.update marks key ⟨snapshot, s.storage.records.length⟩) where
  sound := hwrites.sound
  tagged := hwrites.tagged_all h.tagged
  marked k := by
    rw [hrecords]
    by_cases hk : k = key
    · rw [hk, Function.update_self]
    · rw [Function.update_of_ne hk]
      exact h.marked k
  held k := by
    rw [hrecords]
    by_cases hk : k = key
    · rw [hk, Function.update_self, since_last, hheld]
    · rw [Function.update_of_ne hk, entries_of_writes hwrites hk, h.held]

/-- An insert adds its events to both, unless the version is refused. -/
theorem Inv.storeRecords (h : Inv t s marks) (dispatcher : Dispatcher E)
    (filterer : Option (RawEvent → Bool)) {streamId : StreamId} (versioning : Versioning)
    {events : List RawEvent} (haddressed : ∀ raw ∈ events, raw.streamId = streamId) :
    Inv t (InMemoryStorageStrategy.storeRecords ⟨dispatcher, filterer, t⟩ streamId versioning
      events s).2 marks := by
  let strategy : InMemoryStorageStrategy E := ⟨dispatcher, filterer, t⟩
  obtain ⟨hwrites, hpage⟩ := strategy.storeRecords_page h.sound versioning haddressed
  obtain ⟨held, version, -, -, hfound, hstored⟩ :=
    strategy.storeRecords_eq h.sound versioning haddressed
  have hopened : ((s.storage.page streamId.key).getD (.opened versioning)).events =
      entries s streamId.key := by
    unfold entries
    cases s.storage.page streamId.key <;> rfl
  rw [← hfound] at hpage hopened
  have hentries := congrArg (Option.elim · [] Page.events) hpage
  change Inv t (strategy.storeRecords streamId versioning events s).2 marks
  rw [hstored] at hwrites hentries ⊢
  cases hadmits : versioning.admits version with
  | error e =>
    simp only [hadmits] at hwrites hentries ⊢
    have hrecords : (ensured streamId versioning s.storage).records =
        s.storage.records ++ [] := by
      rw [List.append_nil]
      exact ensured_records streamId versioning s.storage
    refine h.add hwrites hrecords (by simp) ?_
    rw [List.map_nil, List.append_nil, ← hopened]
    exact hentries
  | ok _ =>
    simp only [hadmits] at hwrites hentries ⊢
    refine h.add hwrites rfl (fun record hrecord => ?_) ?_
    · rw [haddressed _ (strategy.mem_recordsFrom hrecord).1]
    · rw [recordsFrom_entry, ← hopened]
      exact hentries

end Writes

section Runs
variable {dispatchers : TenantId → Dispatcher E} {filterer : Option (RawEvent → Bool)}
  {t : TenantId}

mutual

/-- Whatever a tenant writes, its streams hold what there is since their marks. -/
theorem perform_inv {s : InMemory} {marks : Marks} (h : Inv t s marks) :
    (write : Write E) → Throughout (fun u _ => u = t) write →
      Inv t (perform dispatchers filterer s write) (mark dispatchers filterer s marks write)
  | .call u call reactions, hwrite => by
    obtain ⟨hu, hreactions⟩ := hwrite
    subst u
    rw [perform, mark]
    cases hrequest : request (dispatchers t).serde call with
    | error e => exact h
    | ok r =>
      cases r with
      | fetch streamId start stop => exact h
      | snapshot raw =>
        obtain ⟨hwrites, -, hpage⟩ :=
          saveSnapshot_page ⟨dispatchers t, filterer, t⟩ h.sound raw
        exact h.reset hwrites rfl (congrArg (Option.elim · [] Page.events) hpage)
      | delete streamId =>
        obtain ⟨hwrites, -, hnone⟩ := deleteStream_page h.sound streamId t
        refine h.reset hwrites (deleteStream_records streamId s) ?_
        rw [entries, Storage.page_of_none hnone]
        rfl
      | insert streamId versioning events =>
        have hstored := h.storeRecords (dispatchers t) filterer versioning
          (request_proper hrequest).2
        dsimp only
        revert hstored
        rcases InMemoryStorageStrategy.storeRecords _ streamId versioning events s with
          ⟨_ | _, s'⟩
        · exact id
        · exact fun hstored => performAll_inv hstored reactions hreactions

theorem performAll_inv {s : InMemory} {marks : Marks} (h : Inv t s marks) :
    (writes : List (Write E)) → (∀ write ∈ writes, Throughout (fun u _ => u = t) write) →
      Inv t (performAll dispatchers filterer s writes) (markAll dispatchers filterer s marks writes)
  | [], _ => h
  | write :: writes, hwrites => by
    obtain ⟨hwrite, hwrites⟩ := List.forall_mem_cons.1 hwrites
    rw [performAll, markAll]
    exact performAll_inv (perform_inv h write hwrite) writes hwrites

end

mutual

/-- What is written to other streams leaves what is held of a stream. -/
theorem perform_other {s : InMemory} {key : StreamKey} (h : s.storage.Sound) :
    (write : Write E) → Throughout (fun _ c => c.streamId.key ≠ key) write →
      (perform dispatchers filterer s write).storage.Sound ∧
        (perform dispatchers filterer s write).storage.data key = s.storage.data key
  | .call u call reactions, hwrite => by
    obtain ⟨hother, hreactions⟩ := hwrite
    rw [perform]
    cases hrequest : request (dispatchers u).serde call with
    | error e => exact ⟨h, rfl⟩
    | ok r =>
      have hkey : ∀ streamId ∈ r.writes, key ≠ streamId.key := by
        rintro streamId hstream rfl
        exact hother (congrArg StreamId.key (request_writes hrequest streamId hstream)).symm
      cases r with
      | fetch streamId start stop => exact ⟨h, rfl⟩
      | snapshot raw =>
        have hwrites := (saveSnapshot_page ⟨dispatchers u, filterer, u⟩ h raw).1
        exact ⟨hwrites.sound, hwrites.data key (hkey _ rfl)⟩
      | delete streamId =>
        have hwrites := (deleteStream_page h streamId u).1
        exact ⟨hwrites.sound, hwrites.data key (hkey _ rfl)⟩
      | insert streamId versioning events =>
        have hwrites := (storeRecords_page ⟨dispatchers u, filterer, u⟩ h versioning
          (request_proper hrequest).2).1
        dsimp only at hwrites ⊢
        revert hwrites
        rcases InMemoryStorageStrategy.storeRecords _ streamId versioning events s with
          ⟨_ | _, s'⟩
        · exact fun hwrites => ⟨hwrites.sound, hwrites.data key (hkey _ rfl)⟩
        · intro hwrites
          obtain ⟨hsound, hrest⟩ := performAll_other hwrites.sound reactions hreactions
          exact ⟨hsound, hrest.trans (hwrites.data key (hkey _ rfl))⟩

theorem performAll_other {s : InMemory} {key : StreamKey} (h : s.storage.Sound) :
    (writes : List (Write E)) →
      (∀ write ∈ writes, Throughout (fun _ c => c.streamId.key ≠ key) write) →
      (performAll dispatchers filterer s writes).storage.Sound ∧
        (performAll dispatchers filterer s writes).storage.data key = s.storage.data key
  | [], _ => ⟨h, rfl⟩
  | write :: writes, hwrites => by
    obtain ⟨hwrite, hwrites⟩ := List.forall_mem_cons.1 hwrites
    obtain ⟨hsound, hfirst⟩ := perform_other h write hwrite
    obtain ⟨hsound', hrest⟩ := performAll_other hsound writes hwrites
    rw [performAll]
    exact ⟨hsound', hrest.trans hfirst⟩

end

/-- A read depends on what is held of its stream. -/
theorem loadStream_congr (t : TenantId) {s s' : InMemory} {streamId : StreamId}
    (h : s'.storage.data streamId.key = s.storage.data streamId.key) (start stop : Option ℤ) :
    (stores dispatchers filterer t).loadStream streamId start stop s' =
      (stores dispatchers filterer t).loadStream streamId start stop s := by
  have hfetch : InMemoryStorageStrategy.fetchEvents ⟨dispatchers t, filterer, t⟩ streamId start
      stop s' =
        InMemoryStorageStrategy.fetchEvents ⟨dispatchers t, filterer, t⟩ streamId start stop s := by
    unfold InMemoryStorageStrategy.fetchEvents Storage.contains Storage.read
    rw [h]
  exact congrArg (Except.bind · fun raws =>
    ((dispatchers t).serde.deserializeMany raws).mapError Error.serde) hfetch

/-- Whatever one tenant writes, a whole stream is its last snapshot since it was deleted,
followed by the records of the stream that were added after that. What is written to other
streams makes no difference to it. -/
theorem loadStream_eq_since (dispatchers : TenantId → Dispatcher E)
    (filterer : Option (RawEvent → Bool)) (t : TenantId) (writes : List (Write E))
    (htenant : ∀ write ∈ writes, Throughout (fun u _ => u = t) write) (streamId : StreamId) :
    let s := performAll dispatchers filterer {} writes
    let last := markAll dispatchers filterer {} (fun _ => {}) writes streamId.key
    let load := (stores dispatchers filterer t).loadStream streamId none none
    load s = ((dispatchers t).serde.deserializeMany
        (last.snapshot.toList ++
          (ofStream streamId.key (s.storage.records.drop last.records)).map (·.entry))).mapError
            .serde ∧
      ∀ others : List (Write E),
        (∀ write ∈ others, Throughout (fun _ c => c.streamId.key ≠ streamId.key) write) →
          load (performAll dispatchers filterer s others) = load s := by
  intro s last load
  have hinv : Inv t s (markAll dispatchers filterer {} (fun _ => {}) writes) :=
    performAll_inv (inv_empty t) writes htenant
  have hfetch := fetchEvents_of_tagged ⟨dispatchers t, filterer, t⟩ hinv.sound
    (hinv.tagged streamId.key) none none
  refine ⟨?_, fun others hothers => ?_⟩
  · change _ = Except.ok (slice none none (entries s streamId.key)) at hfetch
    rw [slice_none, hinv.held] at hfetch
    exact congrArg (Except.bind · fun raws =>
      ((dispatchers t).serde.deserializeMany raws).mapError Error.serde) hfetch
  · obtain ⟨-, hsame⟩ := performAll_other hinv.sound others hothers
    exact loadStream_congr t hsame none none

end Runs

section Example

/-- An append that fails, since it expects another version. -/
def late : Write Unit :=
  .call defaultTenant (.appendEvents ⟨(), 5, 0⟩ [] order (.version 7)) []

/-- An append to the invoice. -/
def invoiced (uuid : Uuid) : Write Unit :=
  .call defaultTenant (.appendEvents ⟨(), uuid, 0⟩ [] invoice .noVersioning) []

/-- Two events of an order, on which a listener appends to the invoice, a snapshot, an append that
fails, and a third event. -/
def orderWrites : List (Write Unit) :=
  [.call defaultTenant (.appendEvents ⟨(), 1, 0⟩ [⟨(), 2, 0⟩] order (.version 0)) [invoiced 3],
    .call defaultTenant (.saveSnapshot order ⟨(), some 2, 4, 0, defaultContext⟩) [], late,
    .call defaultTenant (.appendEvents ⟨(), 6, 0⟩ [] order (.version 2)) []]

theorem throughout_quiet {p : TenantId → Call E → Prop} {u : TenantId} {c : Call E} (h : p u c) :
    Throughout p (.call u c []) := ⟨h, by simp⟩

theorem throughout_orderWrites : ∀ write ∈ orderWrites, Throughout (fun u _ => u = defaultTenant)
    write := by
  simp only [orderWrites, List.forall_mem_cons]
  refine ⟨⟨rfl, ?_⟩, throughout_quiet rfl, throughout_quiet rfl, throughout_quiet rfl, by simp⟩
  exact List.forall_mem_singleton.2 (throughout_quiet rfl)

/-- The order is the snapshot and the third event, also after another event of the invoice. -/
theorem loadStream_eq_since_order :
    let stores := stores (fun _ => plainDispatcher) none
    let s := performAll (fun _ => plainDispatcher) none {} orderWrites
    let load := (stores defaultTenant).loadStream order none none
    ((load s).toOption.map fun events => events.map (·.uuid)) = some [4, 6] ∧
      load (performAll (fun _ => plainDispatcher) none s [invoiced 7]) = load s := by
  obtain ⟨hload, hothers⟩ := loadStream_eq_since (fun _ => plainDispatcher) none defaultTenant
    orderWrites throughout_orderWrites order
  refine ⟨?_, hothers [invoiced 7] ?_⟩
  · rw [hload]
    decide +kernel
  · exact List.forall_mem_singleton.2 (throughout_quiet (by decide))

end Example

end EventSourcery.InMemoryHistory
