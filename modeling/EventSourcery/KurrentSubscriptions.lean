import EventSourcery.KurrentServer
import EventSourcery.Paging

/-!
# Subscriptions of the KurrentDB backend

The client's subscription to all streams gives the entries behind a commit position, but for
those of streams whose names begin with `$`. The strategy makes records of them. Nothing there
tells the entries of snapshots from those of events.
-/
namespace EventSourcery.Kurrent
open EventStore (request)
open Runs Tenants KurrentServer

variable {E : Type}

/-- The server's own streams are not shown. -/
def shown (entry : RecordedEvent) : Bool := entry.streamName.toList.head? ≠ some '$'

/-- The streams of a category that begins with `$` are taken for the server's own. -/
def Hidden (streamId : StreamId) : Prop := streamId.categoryText.toList.head? = some '$'

instance (streamId : StreamId) : Decidable (Hidden streamId) :=
  inferInstanceAs (Decidable (_ = _))

/-- The commit position of an entry as a record has it. -/
def RecordedEvent.position (entry : RecordedEvent) : ℤ := (entry.commitPosition.getD 0 : ℕ)

/-- What the client's `subscribe_to_all` gives behind a commit position. -/
def EventLog.subscribeToAll (commitPosition : Position) (log : EventLog) : List RecordedEvent :=
  log.entries.filter fun entry => shown entry && commitPosition < entry.position

/-- The local state of `_iterator`: the commit position of its builder and where the running
subscription is. -/
structure Iteration where
  size : ℕ
  builder : Position
  subscription : Position := builder
  batch : List RecordedRaw := []
  finished : Bool := false

namespace Iteration

/-- The subscription gives an entry, and the batch is yielded when it is full. -/
def receive (entry : RecordedEvent) (s : Iteration) : Option (List RecordedRaw) × Iteration :=
  match rawRecord entry with
  | .error _ => (none, { s with finished := true })
  | .ok raw =>
      let batch := s.batch ++ [raw]
      let s := { s with builder := raw.position, subscription := entry.position }
      if batch.length = s.size then (some batch, { s with batch := [] })
      else (none, { s with batch })

/-- `DeadlineExceededError` -/
def deadline (s : Iteration) : Option (List RecordedRaw) × Iteration :=
  (some s.batch, { s with batch := [], subscription := s.builder })

/-- `next(subscription)`; it waits where there is no entry. -/
def next (log : EventLog) (s : Iteration) : Option (List RecordedRaw) × Iteration :=
  match (log.subscribeToAll s.subscription).head? with
  | none => (none, s)
  | some entry => s.receive entry

end Iteration

/-! ## What is shown -/

section Names
variable {entry : RecordedEvent} {name : Name}

theorem head_text (name : Name) : name.text.toList.head? = some '$' ↔ Hidden name.uuid := by
  rw [(Name.streamName_parts name.named).2.2, Hidden]
  cases name.uuid.categoryText.toList <;> simp

theorem shown_of_text (h : entry.streamName = name.text) :
    shown entry = true ↔ ¬ Hidden name.uuid := by
  simp [shown, h, ← head_text]

theorem shown_of_snapshot (h : entry.streamName = name.snapshot) :
    shown entry = true ↔ ¬ Hidden name.uuid := by
  have hhead : name.snapshot.toList.head? = name.text.toList.head? := by
    have hne : name.text.toList ≠ [] := by
      rw [(Name.streamName_parts name.named).2.2]
      simp
    rw [Name.snapshot, String.toList_append, List.head?_append_of_ne_nil _ hne]
  simp [shown, h, hhead, ← head_text]

end Names

/-! ## What was appended -/

/-- The log, with the entries that the appends have written. -/
structure History where
  log : EventLog := {}
  events : List RecordedEvent := []

/-- A call, which is an append when it asks for an insert. -/
def History.call (serdes : TenantId → Serde E) (h : History) (i : TenantId × Call E) : History :=
  let log := (callStep (stores serdes) h.log i).2
  match request (serdes i.1) i.2 with
  | .ok (.insert _ _ _) =>
      { log, events := h.events ++ log.entries.drop h.log.entries.length }
  | _ => { h with log }

/-- Events of a stream that is shown, or a snapshot of one that is not. -/
def ToldRequest : Request → Prop
  | .insert streamId _ _ => ¬ Hidden streamId
  | .snapshot raw => Hidden raw.streamId
  | _ => True

/-- A call that raises, or that subscribers are told of as of an append. -/
def Told (serdes : TenantId → Serde E) (log : EventLog) (i : TenantId × Call E) : Prop :=
  ∀ answer r, (callStep (stores serdes) log i).1 = .ok answer →
    request (serdes i.1) i.2 = .ok r → ToldRequest r

/-- Subscribers are shown what was appended and nothing else. -/
def History.Matches (h : History) : Prop := h.log.entries.filter shown = h.events

section Steps
variable {serdes : TenantId → Serde E} {h : History} {i : TenantId × Call E} {log : EventLog}
  {strategy : KurrentDBStorageStrategy}

/-- A call whose request succeeds without events is one that subscribers are told of. -/
theorem Told.request {u : TenantId} {call : Call E} {r : Request}
    (htold : Told serdes log (u, call)) (hr : EventStore.request (serdes u) call = .ok r)
    (hok : ((storageStrategy ⟨u⟩).handle log r).1 = .ok []) : ToldRequest r := by
  refine htold [] r ?_ hr
  rw [show callStep (stores serdes) log (u, call) = _ from callStep_of_ok hr]
  change EventStore.finish _ ((storageStrategy ⟨u⟩).handle log r).1 = _
  rw [hok]
  rfl

/-- A call that is told keeps what is shown to what was appended. -/
theorem History.Matches.call (hmatches : h.Matches) (htold : Told serdes h.log i) :
    (h.call serdes i).Matches := by
  obtain ⟨u, call⟩ := i
  unfold History.Matches at hmatches ⊢
  cases hr : request (serdes u) call with
  | error e =>
    simp only [History.call, hr]
    rw [show callStep (stores serdes) h.log (u, call) = _ from callStep_of_error hr]
    exact hmatches
  | ok r =>
    have hproper := EventStore.request_proper hr
    have hstep : callStep (stores serdes) h.log (u, call) = _ := callStep_of_ok hr
    cases r with
    | fetch streamId start stop =>
      simp only [History.call, hr]
      rw [hstep]
      exact hmatches
    | delete streamId =>
      simp only [History.call, hr]
      rw [hstep]
      change (deleteStream ⟨u⟩ streamId h.log).2.entries.filter shown = h.events
      rcases deleteStream_cases ⟨u⟩ streamId h.log with hsame | ⟨name, -, hdelete⟩
      · rw [hsame, hmatches]
      · rw [hdelete]
        exact hmatches
    | insert streamId versioning events =>
      simp only [History.call, hr]
      rw [hstep]
      change (insertEvents ⟨u⟩ versioning events h.log).2.entries.filter shown =
        h.events ++ (insertEvents ⟨u⟩ versioning events h.log).2.entries.drop _
      rcases insertEvents_cases hproper with hsame | ⟨hok, hgrows⟩
      · rw [hsame, List.drop_length, List.append_nil, hmatches]
      · have hhidden : ¬ Hidden streamId := htold.request hr (by
          change (insertEvents ⟨u⟩ versioning events h.log).1.map _ = _
          rw [hok]
          rfl)
        obtain ⟨new, hnew, hnames⟩ := hgrows.added
        have hshown : new.filter shown = new := by
          refine List.filter_eq_self.2 fun entry hentry => ?_
          obtain ⟨name, huuid, hstream⟩ := hnames entry hentry
          exact (shown_of_text hstream).2 (huuid ▸ hhidden)
        rw [hnew, List.filter_append, hmatches, hshown, List.drop_left]
    | snapshot raw =>
      simp only [History.call, hr]
      rw [hstep]
      change (saveSnapshot ⟨u⟩ raw h.log).2.entries.filter shown = h.events
      rcases saveSnapshot_cases raw h.log with hsame | hok
      · rw [hsame, hmatches]
      · have hhidden : Hidden raw.streamId := htold.request hr (by
          change (saveSnapshot ⟨u⟩ raw h.log).1.map _ = _
          rw [hok]
          rfl)
        obtain ⟨new, hnew, hnames⟩ := (saveSnapshot_grows raw h.log).added
        have hnone : new.filter shown = [] := by
          refine List.filter_eq_nil_iff.2 fun entry hentry hshown => ?_
          obtain ⟨name, -, hstream, huuid, -⟩ := hnames entry hentry
          exact (shown_of_snapshot hstream).1 hshown (huuid ▸ hhidden)
        rw [hnew, List.filter_append, hmatches, hnone, List.append_nil]

end Steps

/-! ## What a subscription gives -/

section Positions
variable {entries : List RecordedEvent} {log log' : EventLog}

theorem KurrentServer.Numbered.position (h : Numbered entries) {i : ℕ} {entry : RecordedEvent}
    (hentry : entries[i]? = some entry) : entry.position = (i : ℤ) + 1 := by
  rw [RecordedEvent.position, h i entry hentry]
  simp

theorem KurrentServer.Numbered.pairwise (h : Numbered entries) :
    entries.Pairwise fun x y => x.position < y.position := by
  rw [List.pairwise_iff_getElem]
  intro i j hi hj hij
  rw [h.position (List.getElem?_eq_getElem hi), h.position (List.getElem?_eq_getElem hj)]
  omega

/-- What a subscription gives behind the first entry. -/
theorem subscribeToAll_cons (h : Numbered log.entries) {position : Position}
    {entry : RecordedEvent} (hhead : (log.subscribeToAll position).head? = some entry) :
    log.subscribeToAll position = entry :: log.subscribeToAll entry.position := by
  obtain ⟨rest, hrest⟩ := List.head?_eq_some_iff.1 hhead
  rw [hrest]
  exact congrArg _ (Paging.filter_after_head _ _ h.pairwise hrest).symm

/-- Two positions that the entries to come are behind alike. -/
def Level (log : EventLog) (p q : ℤ) : Prop :=
  ∀ position : ℤ, log.entries.length < position → (p < position ↔ q < position)

theorem position_of_new {new : List RecordedEvent} (hnew : log'.entries = log.entries ++ new)
    (hnumbered : Numbered log'.entries) {entry : RecordedEvent} (hentry : entry ∈ new) :
    log.entries.length < entry.position := by
  obtain ⟨i, hi⟩ := List.mem_iff_getElem?.1 hentry
  have hposition : entry.position = ((log.entries.length + i : ℕ) : ℤ) + 1 := by
    refine hnumbered.position ?_
    rw [hnew, List.getElem?_append_right (Nat.le_add_right _ _), Nat.add_sub_cancel_left, hi]
  omega

/-- What a subscription gives of a log that has grown. -/
theorem subscribeToAll_grows {new : List RecordedEvent} (hnew : log'.entries = log.entries ++ new)
    (hnumbered : Numbered log'.entries) {p q : ℤ} (hlevel : Level log p q) :
    ∃ more, log'.subscribeToAll p = log.subscribeToAll p ++ more ∧
      log'.subscribeToAll q = log.subscribeToAll q ++ more := by
  refine ⟨new.filter fun entry => shown entry && p < entry.position, ?_, ?_⟩
  · rw [EventLog.subscribeToAll, hnew, List.filter_append]
    rfl
  · rw [EventLog.subscribeToAll, hnew, List.filter_append]
    refine congrArg _ (List.filter_congr fun entry hentry => ?_)
    have hsame := hlevel entry.position (position_of_new hnew hnumbered hentry)
    simp [hsame]

end Positions

/-- What was yielded and is in the batch are the records of what was shown behind the start, up
to what the subscription gives next. -/
def Follows (startFrom : Position) (log : EventLog) (yielded : List RecordedRaw)
    (s : Iteration) : Prop :=
  ∃ done, log.subscribeToAll startFrom = done ++ log.subscribeToAll s.subscription ∧
    List.Forall₂ (fun entry record => rawRecord entry = .ok record) done (yielded ++ s.batch)

/-- The builder is where the subscription is, which is at the start or at an entry. -/
structure Running (startFrom : Position) (log : EventLog) (s : Iteration) : Prop where
  builder : s.builder = s.subscription
  finished : s.finished = false
  level : Level log startFrom s.subscription

section Iterations
variable {startFrom : Position} {log log' : EventLog} {yielded : List RecordedRaw} {s : Iteration}

theorem rawRecord_position {entry : RecordedEvent} {record : RecordedRaw}
    (h : rawRecord entry = .ok record) : record.position = entry.position := by
  obtain ⟨_, -, h⟩ := bind_eq_ok.1 h
  obtain ⟨_, -, h⟩ := bind_eq_ok.1 h
  cases h
  rfl

theorem Follows.grows (h : Follows startFrom log yielded s) (hrunning : Running startFrom log s)
    {new : List RecordedEvent} (hnew : log'.entries = log.entries ++ new)
    (hnumbered : Numbered log'.entries) :
    Follows startFrom log' yielded s ∧ Running startFrom log' s := by
  obtain ⟨done, hdone, hrecords⟩ := h
  obtain ⟨more, hstart, hsubscription⟩ := subscribeToAll_grows hnew hnumbered hrunning.level
  refine ⟨⟨done, by rw [hstart, hsubscription, hdone, List.append_assoc], hrecords⟩,
    hrunning.builder, hrunning.finished, fun position hposition => hrunning.level position ?_⟩
  rw [hnew, List.length_append] at hposition
  omega

theorem Follows.deadline (h : Follows startFrom log yielded s)
    (hrunning : Running startFrom log s) :
    Follows startFrom log (yielded ++ s.deadline.1.getD []) s.deadline.2 ∧
      Running startFrom log s.deadline.2 := by
  obtain ⟨done, hdone, hrecords⟩ := h
  obtain ⟨hbuilder, hfinished, hlevel⟩ := hrunning
  refine ⟨⟨done, ?_, by simpa [Iteration.deadline] using hrecords⟩, rfl, hfinished, ?_⟩
  · change _ = done ++ log.subscribeToAll s.builder
    rw [hbuilder, hdone]
  · change Level log startFrom s.builder
    rw [hbuilder]
    exact hlevel

/-- Every entry that is shown is on the level of its own position. -/
theorem level_of_mem {entry : RecordedEvent} (hnumbered : Numbered log.entries)
    (hmem : entry ∈ log.entries) (hbehind : startFrom < entry.position) :
    Level log startFrom entry.position := by
  obtain ⟨i, hi⟩ := List.mem_iff_getElem?.1 hmem
  have hlength := (List.getElem?_eq_some_iff.1 hi).1
  have hposition := hnumbered.position hi
  intro position hbeyond
  constructor
  · intro _
    rw [hposition]
    omega
  · exact hbehind.trans

theorem Follows.next (h : Follows startFrom log yielded s) (hrunning : Running startFrom log s)
    (hinv : Inv log) : Follows startFrom log (yielded ++ (s.next log).1.getD []) (s.next log).2 ∧
      Running startFrom log (s.next log).2 := by
  unfold Iteration.next
  cases hhead : (log.subscribeToAll s.subscription).head? with
  | none => exact ⟨by simpa using h, hrunning⟩
  | some entry =>
    have hmem : entry ∈ log.entries :=
      List.mem_of_mem_filter (List.mem_of_head? hhead)
    obtain ⟨record, hrecord⟩ := (hinv.readable entry hmem).recorded
    obtain ⟨done, hdone, hrecords⟩ := h
    rw [subscribeToAll_cons hinv.numbered hhead] at hdone
    have hmore : List.Forall₂ (fun entry record => rawRecord entry = .ok record)
        (done ++ [entry]) (yielded ++ (s.batch ++ [record])) := by
      rw [← List.append_assoc]
      exact List.rel_append hrecords (.cons hrecord .nil)
    have hstart : entry ∈ log.subscribeToAll startFrom := by
      rw [hdone]
      simp
    simp only [EventLog.subscribeToAll, List.mem_filter, Bool.and_eq_true,
      decide_eq_true_eq] at hstart
    have hlevel := level_of_mem hinv.numbered hmem hstart.2.2
    have hrest : log.subscribeToAll startFrom =
        done ++ [entry] ++ log.subscribeToAll entry.position := by
      rw [hdone, List.append_assoc]
      rfl
    simp only [Iteration.receive, hrecord]
    split
    · exact ⟨⟨done ++ [entry], hrest, by simpa using hmore⟩, rawRecord_position hrecord,
        hrunning.finished, hlevel⟩
    · exact ⟨⟨done ++ [entry], hrest, by simpa using hmore⟩, rawRecord_position hrecord,
        hrunning.finished, hlevel⟩

end Iterations

end EventSourcery.Kurrent
