import EventSourcery.Encryption
import EventSourcery.InMemoryOutbox
import EventSourcery.OutboxCodec

/-!
# The SQL outboxes

`Outbox.run` over the outbox tables of SQLAlchemy and Django. A row counts the tries that
are left; a run takes the rows with tries left in the order of their ids, and deletes a row
or takes a try from it. The in-memory outbox counts failures instead and drops an entry that
has failed too often: its entries are the rows with tries left.
-/
namespace EventSourcery.Sql
open RetryQueue InMemoryOutboxStorageStrategy

/-- The rows of an outbox with their ids. -/
abbrev OutboxTable := List (ℕ × OutboxEntry)

/-- How a package writes a row, and the record that it reads from one. -/
structure OutboxCodec (uuid5 : String → Uuid) where
  encode : RecordedRaw → ℤ → OutboxEntry
  decode : OutboxEntry → Except ReadError RecordedRaw
  holds : ∀ record maxAttempts, Holds record (encode record maxAttempts)
  triesLeft : ∀ record maxAttempts, (encode record maxAttempts).triesLeft = maxAttempts
  decode_eq : ∀ entry, decode entry = readRecord uuid5 entry

def SqlAlchemyOutbox.codec (uuid5 : String → Uuid) : OutboxCodec uuid5 where
  encode := SqlAlchemyOutbox.row
  decode := SqlAlchemyOutbox.publishContext uuid5
  holds := SqlAlchemyOutbox.row_holds
  triesLeft _ _ := rfl
  decode_eq _ := rfl

def DjangoOutbox.codec (uuid5 : String → Uuid) : OutboxCodec uuid5 where
  encode := DjangoOutbox.outboxEntry
  decode := DjangoOutbox.rawOutbox uuid5
  holds := DjangoOutbox.outboxEntry_holds
  triesLeft _ _ := rfl
  decode_eq _ := rfl

/-- What a call of the publisher is known by. -/
def identity {E : Type} (record : Recorded E) : Uuid × Position × TenantId :=
  (record.wrappedEvent.uuid, record.position, record.tenantId)

/-- Which calls of a run succeed, by their indices and what they are known by. -/
abbrev Pattern := ℕ → Uuid × Position × TenantId → Bool

def Pattern.publisher {E : Type} (pattern : Pattern) : Publisher E := fun i record =>
  { raises := !pattern i (identity record) }

namespace OutboxCodec
variable {uuid5 : String → Uuid} (codec : OutboxCodec uuid5) (strategy : OutboxStrategy)

/-- `put_into_outbox`, with the ids of the new rows. -/
def putIntoOutbox (records : List RecordedRaw) (ids : List ℕ) (table : OutboxTable) :
    OutboxTable :=
  table ++ ids.zip ((records.filter fun r => strategy.filterer r.entry).map fun r =>
    codec.encode r strategy.maxPublishAttempts)

/-- `tries_left > 0` -/
def live (row : ℕ × OutboxEntry) : Bool := 0 < row.2.triesLeft

/-- The rows that `outbox_entries` selects. -/
def outboxEntries (limit : ℕ) (table : OutboxTable) : OutboxTable :=
  ((table.filter live).insertionSort fun a b => a.1 ≤ b.1).take limit

/-- `_publish_context` after its body. -/
def settleRow (ok : Bool) (row : ℕ × OutboxEntry) (table : OutboxTable) : OutboxTable :=
  if ok then table.filter fun r => r.1 ≠ row.1
  else table.map fun r =>
    if r.1 = row.1 then (r.1, { row.2 with triesLeft := row.2.triesLeft - 1 }) else r

section Code
variable {E : Type} (serde : Serde E)

/-- The loop of `Outbox.run` over rows that were selected; it answers with what it raised, if
anything, and with the calls of the publisher. A row is read before the context is entered,
and what reading it raises leaves the loop. -/
def runEntries (pattern : Pattern) : ℕ → OutboxTable → OutboxTable →
    (Except ReadError Unit × List (Recorded E)) × OutboxTable
  | _, [], table => ((.ok (), []), table)
  | i, row :: rows, table =>
      match codec.decode row.2 with
      | .error e => ((.error e, []), table)
      | .ok raw =>
          let (handed, response) := publish serde pattern.publisher i raw
          let rest := runEntries pattern (i + 1) rows (settleRow (!response.raises) row table)
          ((rest.1.1, handed.toList ++ rest.1.2), rest.2)

/-- `Outbox.run` -/
def run (pattern : Pattern) (limit : ℕ) (table : OutboxTable) :
    (Except ReadError Unit × List (Recorded E)) × OutboxTable :=
  codec.runEntries serde pattern 0 (outboxEntries limit table) table

/-- What a worker does with an outbox: it puts records, whose rows get ids, or runs. -/
inductive Operation where
  | put (records : List RecordedRaw) (ids : List ℕ)
  | run (pattern : Pattern) (limit : ℕ)

def step (table : OutboxTable) :
    Operation → (Except ReadError Unit × List (Recorded E)) × OutboxTable
  | .put records ids => ((.ok (), []), codec.putIntoOutbox strategy records ids table)
  | .run pattern limit => codec.run serde pattern limit table

end Code

/-- The same operation on the in-memory outbox. -/
def Operation.inMemory {E : Type} : Operation → InMemoryOutboxStorageStrategy.Operation E
  | .put records _ => .put records
  | .run pattern limit => .run pattern.publisher limit

/-- The in-memory outbox with the same filter and the same limit of attempts. -/
def inMemory (strategy : OutboxStrategy) : InMemoryOutboxStorageStrategy :=
  { filterer := strategy.filterer, maxPublishAttempts := strategy.maxPublishAttempts }

/-- The stream id is one that the constructor makes, and the time is a datetime. -/
def Legible (uuid5 : String → Uuid) (record : RecordedRaw) : Prop :=
  record.entry.streamId.Accepted uuid5 ∧ Texts.InRange record.entry.createdAt

/-- New rows get increasing ids, above those in the table. -/
def Numbered (uuid5 : String → Uuid) (strategy : OutboxStrategy) (table : OutboxTable) :
    Operation → Prop
  | .put records ids =>
      (∀ record ∈ records, Legible uuid5 record) ∧
        ids.length = (records.filter fun r => strategy.filterer r.entry).length ∧
        ids.Pairwise (· < ·) ∧ ∀ row ∈ table, ∀ id ∈ ids, row.1 < id
  | .run _ _ => True

section Simulation
variable {codec} {strategy} {E : Type} {serde : Serde E} {pattern : Pattern}
  {table : OutboxTable} {outbox : Queue RecordedRaw}

/-- A row with tries left as an entry of the in-memory outbox. -/
structure Stored (uuid5 : String → Uuid) (maximum : ℤ) (row : ℕ × OutboxEntry)
    (entry : RecordedRaw × ℕ) : Prop where
  holds : Holds entry.1 row.2
  legible : Legible uuid5 entry.1
  triesLeft : row.2.triesLeft = maximum - entry.2

/-- A table as the in-memory outbox. -/
structure Related (uuid5 : String → Uuid) (maximum : ℤ) (table : OutboxTable)
    (outbox : Queue RecordedRaw) : Prop where
  sorted : table.Pairwise fun a b => a.1 < b.1
  entries : List.Forall₂ (Stored uuid5 maximum) (table.filter live) outbox
  fair : Fair outbox

theorem outboxEntries_eq (h : table.Pairwise fun a b => a.1 < b.1) (limit : ℕ) :
    outboxEntries limit table = (table.filter live).take limit := by
  have hsorted : (table.filter live).Pairwise fun a b => a.1 ≤ b.1 :=
    (h.filter live).imp fun hlt => hlt.le
  rw [outboxEntries, hsorted.insertionSort_eq]

/-- Rows whose ids are in order among others whose ids are. -/
theorem sorted_of_sublist {rows : OutboxTable} (h : table.Pairwise fun a b => a.1 < b.1)
    (hsub : (rows.map Prod.fst).Sublist (table.map Prod.fst)) :
    rows.Pairwise fun a b => a.1 < b.1 :=
  List.pairwise_map.1 ((List.pairwise_map.2 h).sublist hsub)

/-- What a settled row leaves of itself. -/
def leftOf (ok : Bool) (row : ℕ × OutboxEntry) : OutboxTable :=
  if ok then [] else [(row.1, { row.2 with triesLeft := row.2.triesLeft - 1 })]

theorem leftOf_ids (ok : Bool) (row : ℕ × OutboxEntry) :
    ((leftOf ok row).map Prod.fst).Sublist [row.1] := by
  cases ok <;> simp [leftOf]

/-- A row is settled by its id, where it is. -/
theorem settleRow_eq {front rest : OutboxTable} {row : ℕ × OutboxEntry}
    (h : (front ++ row :: rest).Pairwise fun a b => a.1 < b.1) (ok : Bool) :
    settleRow ok row (front ++ row :: rest) = front ++ leftOf ok row ++ rest := by
  obtain ⟨-, hrow, hfront⟩ := List.pairwise_append.1 h
  have hothers : ∀ r, r ∈ front ∨ r ∈ rest → r.1 ≠ row.1 := by
    intro r hr
    rcases hr with hr | hr
    · exact (hfront r hr row List.mem_cons_self).ne
    · exact ((List.pairwise_cons.1 hrow).1 r hr).ne'
  have hkeep : ∀ rows : OutboxTable, (∀ r ∈ rows, r.1 ≠ row.1) →
      rows.filter (fun r => r.1 ≠ row.1) = rows ∧
        (rows.map fun r => if r.1 = row.1 then
          (r.1, { row.2 with triesLeft := row.2.triesLeft - 1 }) else r) = rows := by
    intro rows hrows
    refine ⟨List.filter_eq_self.2 fun r hr => by simpa using hrows r hr, ?_⟩
    conv_rhs => rw [← List.map_id rows]
    exact List.map_congr_left fun r hr => if_neg (hrows r hr)
  obtain ⟨hfront₁, hfront₂⟩ := hkeep front fun r hr => hothers r (.inl hr)
  obtain ⟨hrest₁, hrest₂⟩ := hkeep rest fun r hr => hothers r (.inr hr)
  unfold settleRow leftOf
  cases ok with
  | true =>
    simp only [if_true, List.filter_append, List.filter_cons, hfront₁, hrest₁]
    simp
  | false =>
    simp only [Bool.false_eq_true, if_false, List.map_append, List.map_cons, hfront₂, hrest₂]
    simp

/-- A row that has tries left after it was settled is the entry that is left of its own. -/
theorem stored_leftOf {maximum : ℤ} {row : ℕ × OutboxEntry} {entry : RecordedRaw × ℕ}
    (h : Stored uuid5 maximum row entry) (ok : Bool) :
    List.Forall₂ (Stored uuid5 maximum) ((leftOf ok row).filter live)
      (settle maximum ok entry).toList := by
  have htries := h.triesLeft
  unfold leftOf settle
  cases ok with
  | true => simp
  | false =>
    by_cases hlast : maximum ≤ (entry.2 : ℤ) + 1
    · have hdead : ¬ (1 < row.2.triesLeft) := by omega
      simp [live, hlast, hdead]
    · have hlive : 1 < row.2.triesLeft := by omega
      simp only [Bool.false_eq_true, if_false, List.filter_cons, List.filter_nil, live, sub_pos,
        hlive, decide_true, if_true, false_or, hlast, Option.toList_some]
      refine .cons ⟨⟨h.holds.uuid, h.holds.streamId, h.holds.createdAt, h.holds.version,
        h.holds.name, h.holds.data, h.holds.context, h.holds.tenantId, h.holds.streamName,
        h.holds.position⟩, h.legible, ?_⟩ .nil
      push_cast
      omega

/-- Whether an event can be read back depends on the name of its stream alone. -/
def ByName (serde : Serde E) : Prop :=
  ∀ name data (s s' : StreamId), s.name = s'.name →
    serde.construct name data s = serde.construct name data s'

variable (uuid5) in
/-- The publisher is called alike with a record that has come out of a SQL outbox. -/
theorem publish_reread (hserde : ByName serde) (pattern : Pattern) (i : ℕ) (raw : RecordedRaw) :
    let read := publish serde pattern.publisher i (rereadRecord uuid5 raw)
    let same := publish serde pattern.publisher i raw
    read.1.map identity = same.1.map identity ∧ read.2.raises = same.2.raises := by
  have hconstruct : serde.construct raw.entry.name raw.entry.data
      (reread uuid5 raw.entry.streamId) =
        serde.construct raw.entry.name raw.entry.data raw.entry.streamId := hserde _ _ _ _ rfl
  simp only [publish, Serde.deserializeRecord, Serde.deserialize, rereadRecord, hconstruct]
  cases serde.construct raw.entry.name raw.entry.data raw.entry.streamId with
  | error e => exact ⟨rfl, rfl⟩
  | ok event => exact ⟨rfl, rfl⟩

/-- What a run over the rows behind a part of the table comes to: the rows from there on are
settled like the entries that they are stored for. -/
structure Ran (uuid5 : String → Uuid) (maximum : ℤ) (front rest : OutboxTable)
    (outbox : Queue RecordedRaw) (handed : List (Recorded E))
    (r : (Except ReadError Unit × List (Recorded E)) × OutboxTable) : Prop where
  answer : r.1.1 = .ok ()
  calls : r.1.2.map identity = handed.map identity
  table : ∃ left, r.2 = front ++ left ∧ (left.map Prod.fst).Sublist (rest.map Prod.fst) ∧
    List.Forall₂ (Stored uuid5 maximum) (left.filter live) outbox

variable (codec pattern) in
/-- The first of the rows that are tried is settled like the entry that it is stored for. -/
theorem runEntries_cons (hserde : ByName serde) {maximum : ℤ} (i : ℕ) {front rest : OutboxTable}
    (rows : OutboxTable) {row : ℕ × OutboxEntry} {entry : RecordedRaw × ℕ}
    (hsorted : (front ++ row :: rest).Pairwise fun a b => a.1 < b.1)
    (hstored : Stored uuid5 maximum row entry) :
    let r := codec.runEntries serde pattern i (row :: rows) (front ++ row :: rest)
    let tail := codec.runEntries serde pattern (i + 1) rows
      (front ++ leftOf (delivered serde pattern.publisher i entry.1) row ++ rest)
    r.1.1 = tail.1.1 ∧
      r.1.2.map identity =
        (publish serde pattern.publisher i entry.1).1.toList.map identity ++
          tail.1.2.map identity ∧
      r.2 = tail.2 := by
  have hdecode := (codec.decode_eq row.2).trans
    (readRecord_eq hstored.holds hstored.legible.1 hstored.legible.2)
  obtain ⟨hcall, hraises⟩ := publish_reread uuid5 hserde pattern i entry.1
  have hok : (!(publish serde pattern.publisher i (rereadRecord uuid5 entry.1)).2.raises) =
      delivered serde pattern.publisher i entry.1 := by
    rw [hraises]
    rfl
  simp only [runEntries, hdecode, hok, settleRow_eq hsorted, List.map_append]
  refine ⟨trivial, ?_, trivial⟩
  rw [← Option.toList_map, hcall, Option.toList_map]

variable (codec pattern) in
theorem runEntries_ran (hserde : ByName serde) {maximum : ℤ} (limit i : ℕ)
    (front rest : OutboxTable) (hsorted : (front ++ rest).Pairwise fun a b => a.1 < b.1)
    (hentries : List.Forall₂ (Stored uuid5 maximum) (rest.filter live) outbox) :
    Ran uuid5 maximum front rest
      (settleAll maximum (delivered serde pattern.publisher) i (outbox.take limit) ++
        outbox.drop limit)
      (handedOf serde pattern.publisher i ((outbox.take limit).map Prod.fst))
      (codec.runEntries serde pattern i ((rest.filter live).take limit) (front ++ rest)) := by
  induction rest generalizing limit i front outbox with
  | nil =>
    cases hentries
    simp only [List.take_nil, List.drop_nil, List.filter_nil, List.append_nil]
    exact ⟨rfl, rfl, [], (List.append_nil _).symm, .slnil, .nil⟩
  | cons row rest ih =>
    have hassoc : ∀ rows : OutboxTable, front ++ row :: rows = front ++ [row] ++ rows := by simp
    by_cases hlive : live row = true
    · rw [List.filter_cons_of_pos hlive] at hentries ⊢
      obtain _ | ⟨hstored, hentries⟩ := hentries
      rename_i entry outbox
      cases limit with
      | zero =>
        refine ⟨rfl, rfl, row :: rest, rfl, .refl _, ?_⟩
        rw [List.filter_cons_of_pos hlive]
        exact .cons hstored hentries
      | succ limit =>
        obtain ⟨hanswer, hcalls, hrows⟩ := runEntries_cons codec pattern hserde i
          ((rest.filter live).take limit) hsorted hstored
        set ok := delivered serde pattern.publisher i entry.1 with hok
        have hsorted' : (front ++ leftOf ok row ++ rest).Pairwise fun a b => a.1 < b.1 := by
          apply sorted_of_sublist hsorted
          rw [hassoc]
          simp only [List.map_append]
          exact ((List.Sublist.refl _).append (leftOf_ids ok row)).append_right _
        obtain ⟨hanswer', hcalls', left, htable, hsub, hleft⟩ :=
          ih limit (i + 1) (front ++ leftOf ok row) hsorted' hentries
        rw [List.take_succ_cons]
        refine ⟨hanswer.trans hanswer', ?_, leftOf ok row ++ left, ?_, ?_, ?_⟩
        · simp only [hcalls, List.take_succ_cons, List.map_cons, handedOf, List.map_append,
            hcalls']
        · exact hrows.trans (htable.trans (List.append_assoc _ _ _))
        · simpa using (leftOf_ids ok row).append hsub
        · simp only [List.filter_append, List.drop_succ_cons, settleAll, List.append_assoc]
          exact List.rel_append (stored_leftOf hstored ok) hleft
    · rw [List.filter_cons_of_neg hlive] at hentries ⊢
      rw [hassoc] at hsorted ⊢
      obtain ⟨hanswer, hcalls, left, htable, hsub, hleft⟩ := ih limit i (front ++ [row]) hsorted
        hentries
      refine ⟨hanswer, hcalls, row :: left, htable.trans (hassoc left).symm, hsub.cons_cons _, ?_⟩
      rwa [List.filter_cons_of_neg hlive]

/-- New rows have all their tries, like the entries of the records. -/
theorem stored_put {maximum : ℤ} {records : List RecordedRaw} {ids : List ℕ}
    (hlegible : ∀ record ∈ records, Legible uuid5 record) (hlength : ids.length = records.length) :
    List.Forall₂ (Stored uuid5 maximum)
      (ids.zip (records.map fun record => codec.encode record maximum)) (entered records) := by
  induction records generalizing ids with
  | nil => simp [entered]
  | cons record records ih =>
    cases ids with
    | nil => simp at hlength
    | cons id ids =>
      refine .cons ⟨codec.holds record maximum, hlegible record List.mem_cons_self, ?_⟩
        (ih (fun r hr => hlegible r (List.mem_cons_of_mem _ hr)) (by simpa using hlength))
      simp [codec.triesLeft]

/-- What an operation answers with is what the in-memory outbox answers with. -/
def Alike (sql : Except ReadError Unit × List (Recorded E))
    (memory : Except Error Unit × List (Moment E)) : Prop :=
  sql.1 = .ok () ∧ sql.2.map identity = (allHanded memory.2).map identity

variable (codec) in
theorem put_related (hmaximum : 1 ≤ strategy.maxPublishAttempts) {records : List RecordedRaw}
    {ids : List ℕ} (h : Related uuid5 strategy.maxPublishAttempts table outbox)
    (hok : Numbered uuid5 strategy table (.put records ids)) :
    Related uuid5 strategy.maxPublishAttempts (codec.putIntoOutbox strategy records ids table)
      (outbox ++ entered (records.filter fun r => strategy.filterer r.entry)) := by
  obtain ⟨hlegible, hlength, hids, habove⟩ := hok
  set rows := ids.zip ((records.filter fun r => strategy.filterer r.entry).map fun r =>
    codec.encode r strategy.maxPublishAttempts) with hrows
  have hfst : rows.map Prod.fst = ids := List.map_fst_zip (by simp [hlength])
  have hlive : rows.filter live = rows := by
    rw [List.filter_eq_self]
    intro row hrow
    obtain ⟨record, -, hrecord⟩ := List.mem_map.1 (List.of_mem_zip hrow).2
    have htries := codec.triesLeft record strategy.maxPublishAttempts
    rw [hrecord] at htries
    simp only [live, htries, decide_eq_true_eq]
    omega
  refine ⟨List.pairwise_append.2 ⟨h.sorted, ?_, fun row hrow new hnew => ?_⟩, ?_, h.fair.put _⟩
  · rw [← hfst] at hids
    exact List.pairwise_map.1 hids
  · exact habove row hrow new.1 (List.of_mem_zip hnew).1
  · rw [putIntoOutbox, List.filter_append, ← hrows, hlive]
    exact List.rel_append h.entries
      (stored_put (fun r hr => hlegible r (List.mem_of_mem_filter hr)) hlength)

theorem run_related (hserde : ByName serde) (pattern : Pattern) (limit : ℕ)
    (h : Related uuid5 strategy.maxPublishAttempts table outbox) :
    let sql := codec.run serde pattern limit table
    let memory := (inMemory strategy).run serde pattern.publisher limit outbox
    Alike sql.1 (memory.1, memory.2.1) ∧
      Related uuid5 strategy.maxPublishAttempts sql.2 memory.2.2 := by
  have hround := run_round (inMemory strategy) serde pattern.publisher h.fair limit
  have hputs : putRecords ((inMemory strategy).run serde pattern.publisher limit outbox).2.1 = [] :=
    run_putRecords (fun _ _ => rfl) limit outbox
  obtain ⟨hanswer, hcalls, left, htable, hsub, hleft⟩ :=
    runEntries_ran codec pattern hserde limit 0 [] table h.sorted h.entries
  have houtbox := hround.outbox
  rw [hputs, show entered ([] : List RecordedRaw) = [] from rfl, List.append_nil] at houtbox
  simp only [run, outboxEntries_eq h.sorted]
  rw [houtbox]
  refine ⟨⟨hanswer, by rw [hround.handed]; exact hcalls⟩, ?_, ?_, ?_⟩
  · exact sorted_of_sublist h.sorted (htable ▸ hsub)
  · exact htable ▸ hleft
  · apply Fair.settleAll
    rw [List.take_append_drop]
    exact h.fair

/-- An operation on the table is the operation on the in-memory outbox. -/
theorem step_related (hserde : ByName serde) (hmaximum : 1 ≤ strategy.maxPublishAttempts)
    (table : OutboxTable) (outbox : Queue RecordedRaw) (operation : Operation)
    (h : Related uuid5 strategy.maxPublishAttempts table outbox)
    (hok : Numbered uuid5 strategy table operation) :
    let sql := codec.step strategy serde table operation
    let memory := (inMemory strategy).step serde outbox operation.inMemory
    Alike sql.1 memory.1 ∧ Related uuid5 strategy.maxPublishAttempts sql.2 memory.2 := by
  cases operation with
  | put records ids =>
    have hput := put_related codec hmaximum h hok
    have hmoments := putEach_moments (E := E) (inMemory strategy) [records] outbox
    have hmemory : ((inMemory strategy).step serde outbox (.put records)).2 =
        outbox ++ entered (records.filter fun r => strategy.filterer r.entry) := by
      rw [step_put]
      simp [passing, inMemory]
    exact ⟨⟨rfl, by rw [Operation.inMemory]; exact (congrArg _ hmoments.2.1).symm⟩, by
      rw [Operation.inMemory, hmemory]
      exact hput⟩
  | run pattern limit => exact run_related hserde pattern limit h

end Simulation

section Refinement
variable {codec} {strategy} {E : Type}

/-- No operation of a run raises, and in each the publisher is called as it is in the same
operation on the in-memory outbox. -/
def SameCalls (codec : OutboxCodec uuid5) (strategy : OutboxStrategy) (serde : Serde E)
    (operations : List Operation) : Prop :=
  let sql := Runs.run (codec.step strategy serde) [] operations
  let memory := Runs.run ((inMemory strategy).step serde) [] (operations.map Operation.inMemory)
  (∀ answer ∈ sql.1, answer.1 = .ok ()) ∧
    sql.1.map (fun answer => answer.2.map identity) =
      memory.1.map fun answer => (allHanded answer.2).map identity

theorem sameCalls {serde : Serde E} (hserde : ByName serde)
    (hmaximum : 1 ≤ strategy.maxPublishAttempts) {operations : List Operation}
    (h : Runs.Meets (codec.step strategy serde) (Numbered uuid5 strategy) [] operations) :
    SameCalls codec strategy serde operations := by
  have hempty : Related uuid5 strategy.maxPublishAttempts [] [] := ⟨.nil, .nil, .nil⟩
  obtain ⟨halike, -⟩ := Runs.run_simulates (step_related hserde hmaximum) hempty h
  obtain ⟨hanswers, hcalls⟩ := (List.forall₂_and_left _ _).1 halike
  refine ⟨hanswers, ?_⟩
  rw [← List.forall₂_eq_eq_eq]
  exact List.forall₂_map_left_iff.2 (List.forall₂_map_right_iff.2 hcalls)

/-- Both SQL outboxes call the publisher as the in-memory outbox does. -/
theorem sqlOutboxes_sameCalls {K : Type} (encryption : EventSourcery.Encryption K)
    (nameForType : EventType → Except SerdeError String)
    (typeForName : String → Except SerdeError EventType)
    (build : EventType → Dict → Except SerdeError EventInstance) (uuid5 : String → Uuid)
    (strategy : OutboxStrategy) (hmaximum : 1 ≤ strategy.maxPublishAttempts)
    (operations : List Operation) :
    let serde := encryption.serde nameForType typeForName build
    (Runs.Meets ((SqlAlchemyOutbox.codec uuid5).step strategy serde) (Numbered uuid5 strategy) []
        operations → SameCalls (SqlAlchemyOutbox.codec uuid5) strategy serde operations) ∧
      (Runs.Meets ((DjangoOutbox.codec uuid5).step strategy serde) (Numbered uuid5 strategy) []
        operations → SameCalls (DjangoOutbox.codec uuid5) strategy serde operations) := by
  intro serde
  have hserde : ByName serde := fun name data s s' h => serde_construct_name h name data
  exact ⟨sameCalls hserde hmaximum, sameCalls hserde hmaximum⟩

end Refinement

section Example

/-- An encryption that is never used, as the type has no encrypted fields. -/
def unused : EventSourcery.Encryption Unit where
  strategy := ⟨fun _ _ _ => .error .typeError, fun _ _ => .error .typeError⟩
  keyStorage := ⟨fun _ => .ok none⟩

def pingType : EventType where
  hints := []
  modelFields := []
  wellNamed := by decide

def ping : EventInstance where
  type := pingType
  dump := []
  getattr _ := .error .attributeError
  wellFormed := by simp [JsonText.WellFormed, JsonText.WellFormedFields]

/-- Three records are put; the second one fails until it is dropped. -/
def threeOrders : List Operation :=
  [.put [orderRecord 1, orderRecord 2, orderRecord 3] [1, 2, 3],
    .run (fun _ record => record.2.1 ≠ 2) 2, .run (fun _ _ => false) 1, .run (fun _ _ => true) 5]

theorem sqlOutboxes_sameCalls_threeOrders :
    let strategy : OutboxStrategy := ⟨fun _ => true, 2⟩
    let serde := unused.serde (fun _ => .ok "Event") (fun _ => .ok pingType) (fun _ _ => .ok ping)
    SameCalls (SqlAlchemyOutbox.codec orderUuid) strategy serde threeOrders ∧
      SameCalls (DjangoOutbox.codec orderUuid) strategy serde threeOrders ∧
      ((Runs.run ((inMemory strategy).step serde) [] (threeOrders.map Operation.inMemory)).1.map
        fun answer => (allHanded answer.2).map identity) =
          [[], [(1, 1, ""), (1, 2, "")], [(1, 2, "")], [(1, 3, "")]] := by
  have hlegible : ∀ position, Legible orderUuid (orderRecord position) := by
    intro position
    refine ⟨fun name hname => ?_, ?_⟩
    · cases hname
    · simp [Texts.InRange, orderRecord]
  have hnumbered : Numbered orderUuid ⟨fun _ => true, 2⟩ []
      (.put [orderRecord 1, orderRecord 2, orderRecord 3] [1, 2, 3]) := by
    refine ⟨fun record hrecord => ?_, rfl, by decide, by simp⟩
    simp only [List.mem_cons, List.not_mem_nil, or_false] at hrecord
    rcases hrecord with rfl | rfl | rfl <;> exact hlegible _
  have h := sqlOutboxes_sameCalls unused (fun _ => .ok "Event") (fun _ => .ok pingType)
    (fun _ _ => .ok ping) orderUuid ⟨fun _ => true, 2⟩ (by decide) threeOrders
  exact ⟨h.1 ⟨hnumbered, trivial, trivial, trivial, trivial⟩,
    h.2 ⟨hnumbered, trivial, trivial, trivial, trivial⟩, rfl⟩

end Example

end OutboxCodec

end EventSourcery.Sql
