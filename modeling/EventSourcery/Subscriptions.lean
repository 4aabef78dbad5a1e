import EventSourcery.Paging
import EventSourcery.Tables

/-!
# Subscriptions of the SQL backends

SQLAlchemy and Django have the same `GapDetectingIterator`. Transactions reserve
event ids in order, and their events become visible in any order, between the
queries of a subscription too. The clock may show anything: readings are of any
type with a difference and an order.
-/
namespace EventSourcery.Sql.Subscriptions
open Runs Paging

/-- An event row joined with the row of its stream. -/
structure Entry where
  event : EventRow
  stream : StreamRow
  deriving DecidableEq

/-- The position of an entry: the id of its event. -/
def Entry.position (x : Entry) : Position := x.event.id

/-- What a subscription is for: `GetBatchToAll`, `GetBatchToCategory`, `GetBatchToEvents`. -/
inductive GetBatch where
  | toAll
  | toCategory (category : String)
  | toEvents (events : List String)

def GetBatch.selects (filterer : GetBatch) (x : Entry) : Bool :=
  match filterer with
  | toAll => true
  | toCategory category => x.stream.category = category
  | toEvents events => events.contains x.event.body.name

/-- `_batch_to_recorded_raw` -/
def Entry.toRecordedRaw (x : Entry) : RecordedRaw :=
  { entry := toRaw x.stream.toStreamHead x.event.body, position := x.event.id
    tenantId := x.stream.tenantId }

/-- The query for a batch. -/
def getBatch (filterer : GetBatch) (batchSize : ℕ) (position : Position) (visible : List Entry) :
    List Entry := nextPage Entry.position filterer.selects batchSize position visible

/-- `_is_continuous` -/
def isContinuous (batch : List Entry) : Bool :=
  match batch.head?, batch.getLast? with
  | some first, some last =>
      2 ≤ batch.length && last.position - first.position + 1 = batch.length
  | _, _ => false

/-- `Cursor.advance` -/
def advance (position : Position) (batch : List Entry) : Position :=
  pageEnd Entry.position position batch

/-- A batch as it was returned, with the cursor before, what the last query could see,
and the time of the call and of its return. -/
structure Delivery (τ : Type) where
  cursor : Position
  batch : List Entry
  visible : List Entry
  start : τ
  returnedAt : τ

variable {τ : Type}

/-- The cursor after a delivery. -/
def Delivery.newCursor (d : Delivery τ) : Position := advance d.cursor d.batch

/-- What `__next__` returned. -/
def Delivery.records (d : Delivery τ) : List RecordedRaw := d.batch.map Entry.toRecordedRaw

/-- Deliveries that lead the cursor from one position to another. -/
def Chained : Position → List (Delivery τ) → Position → Prop
  | p, [], q => q = p
  | p, d :: ds, q => d.cursor = p ∧ Chained d.newCursor ds q

theorem chained_append {p q : Position} {ds : List (Delivery τ)} (h : Chained p ds q)
    {d : Delivery τ} (hd : d.cursor = q) : Chained p (ds ++ [d]) d.newCursor := by
  induction ds generalizing p with
  | nil =>
    cases h
    exact ⟨hd, rfl⟩
  | cons e ds ih => exact ⟨h.1, ih h.2⟩

structure State (τ : Type) where
  reserved : ℕ := 0
  visible : List Entry := []
  cursor : Position
  start : Option τ := none
  delivered : List (Delivery τ) := []

/-- A transaction reserves the next id, the event of a reserved id becomes visible, a
consumer calls `__next__`, and the call goes once through its loop. -/
inductive Action (τ : Type) where
  | reserve
  | commit (x : Entry)
  | next (now : τ)
  | attempt (now : τ)

variable [Sub τ] [LT τ] [DecidableLT τ] (filterer : GetBatch) (batchSize : ℕ) (timelimit : τ)

/-- The end of a call. -/
def State.deliver (s : State τ) (start now : τ) (batch : List Entry) : State τ :=
  { s with
    cursor := advance s.cursor batch
    start := none
    delivered := s.delivered ++
      [{ cursor := s.cursor, batch, visible := s.visible, start, returnedAt := now }] }

def step (s : State τ) : Action τ → Option (State τ)
  | .reserve => some { s with reserved := s.reserved + 1 }
  | .commit x =>
      if 1 ≤ x.event.id ∧ x.event.id ≤ s.reserved ∧
          ∀ y ∈ s.visible, y.event.id ≠ x.event.id then
        some { s with visible := s.visible ++ [x] }
      else none
  | .next now =>
      match s.start with
      | none => some { s with start := some now }
      | some _ => none
  | .attempt now =>
      match s.start with
      | none => none
      | some start =>
          let batch := getBatch filterer batchSize s.cursor s.visible
          if isContinuous batch && batch.length = batchSize then some (s.deliver start now batch)
          else if timelimit < now - start then some (s.deliver start now batch)
          else some s

def initial (startFrom : Position) : State τ := { cursor := startFrom }

/-- A delivery has the batch of its last query. -/
structure Exact (d : Delivery τ) : Prop where
  batch : d.batch = getBatch filterer batchSize d.cursor d.visible
  ids : (d.visible.map Entry.position).Nodup

/-- Ids are unique and positive, every delivery is exact and saw what is still visible,
and the deliveries have led the cursor to where it is. -/
structure Inv (startFrom : Position) (s : State τ) : Prop where
  ids : (s.visible.map Entry.position).Nodup
  positive : ∀ x ∈ s.visible, 1 ≤ x.position
  exact : ∀ d ∈ s.delivered, Exact filterer batchSize d
  seen : ∀ d ∈ s.delivered, d.visible ⊆ s.visible
  chained : Chained startFrom s.delivered s.cursor

section Steps
variable {filterer batchSize timelimit} {startFrom : Position} {s s' : State τ}

/-- A step leaves the deliveries alone, or it ends a call with the batch that it queried:
a full continuous one, or any when the time limit is over. -/
theorem step_cases {a : Action τ} (h : step filterer batchSize timelimit s a = some s') :
    (s'.visible = s.visible ∧ s'.cursor = s.cursor ∧ s'.delivered = s.delivered) ∨
    (∃ x, a = .commit x ∧ (1 ≤ x.event.id ∧ ∀ y ∈ s.visible, y.event.id ≠ x.event.id) ∧
      s' = { s with visible := s.visible ++ [x] }) ∨
    ∃ start now, a = .attempt now ∧
      (isContinuous (getBatch filterer batchSize s.cursor s.visible) ∨ timelimit < now - start) ∧
      s' = s.deliver start now (getBatch filterer batchSize s.cursor s.visible) := by
  cases a with
  | reserve =>
    simp only [step, Option.some.injEq] at h
    subst h
    exact .inl ⟨rfl, rfl, rfl⟩
  | commit x =>
    simp only [step] at h
    split at h
    · rename_i hfresh
      simp only [Option.some.injEq] at h
      exact .inr (.inl ⟨x, rfl, ⟨hfresh.1, hfresh.2.2⟩, h.symm⟩)
    · cases h
  | next now =>
    simp only [step] at h
    split at h
    · simp only [Option.some.injEq] at h
      subst h
      exact .inl ⟨rfl, rfl, rfl⟩
    · cases h
  | attempt now =>
    simp only [step] at h
    split at h
    · cases h
    · rename_i start _
      split at h
      · rename_i hfull
        simp only [Bool.and_eq_true] at hfull
        simp only [Option.some.injEq] at h
        exact .inr (.inr ⟨start, now, rfl, .inl hfull.1, h.symm⟩)
      · split at h
        · rename_i hlate
          simp only [Option.some.injEq] at h
          exact .inr (.inr ⟨start, now, rfl, .inr hlate, h.symm⟩)
        · simp only [Option.some.injEq] at h
          subst h
          exact .inl ⟨rfl, rfl, rfl⟩

theorem inv_step {a : Action τ} (hs : Inv filterer batchSize startFrom s)
    (h : step filterer batchSize timelimit s a = some s') :
    Inv filterer batchSize startFrom s' := by
  obtain ⟨hvisible, hcursor, hdelivered⟩ | ⟨x, -, hfresh, rfl⟩ | ⟨start, now, -, -, rfl⟩ :=
    step_cases h
  · exact ⟨hvisible ▸ hs.ids, hvisible ▸ hs.positive, hdelivered ▸ hs.exact,
      hdelivered ▸ hvisible ▸ hs.seen, hdelivered ▸ hcursor ▸ hs.chained⟩
  · refine ⟨?_, ?_, hs.exact, fun d hd =>
      List.Subset.trans (hs.seen d hd) (List.subset_append_left _ _),
      hs.chained⟩
    · rw [List.map_append]
      apply hs.ids.append (List.nodup_singleton _)
      simpa [Entry.position] using hfresh.2
    · intro y hy
      rcases List.mem_append.1 hy with hy | hy
      · exact hs.positive y hy
      · rw [List.mem_singleton.1 hy]
        have hpos : (1 : ℤ) ≤ x.event.id := by exact_mod_cast hfresh.1
        exact hpos
  · refine ⟨hs.ids, hs.positive, ?_, ?_, chained_append hs.chained rfl⟩
    · intro d hd
      rcases List.mem_append.1 hd with hd | hd
      · exact hs.exact d hd
      · rw [List.mem_singleton.1 hd]
        exact ⟨rfl, hs.ids⟩
    · intro d hd
      rcases List.mem_append.1 hd with hd | hd
      · exact hs.seen d hd
      · rw [List.mem_singleton.1 hd]
        exact List.Subset.refl _

theorem inv_exec {schedule : List (Action τ)}
    (h : exec (step filterer batchSize timelimit) (initial startFrom) schedule = some s) :
    Inv filterer batchSize startFrom s := by
  apply exec_invariant (Inv filterer batchSize startFrom) (fun _ => True)
    (fun _ _ _ _ hs hstep => inv_step hs hstep) (fun _ _ => trivial) _ h
  exact ⟨List.nodup_nil, by simp [initial], by simp [initial], by simp [initial], rfl⟩

end Steps

section Deliveries
variable {filterer : GetBatch} {batchSize : ℕ} {d : Delivery τ}

omit [Sub τ] [LT τ] [DecidableLT τ]

namespace Exact
variable (h : Exact filterer batchSize d)
include h

theorem mem {x : Entry} (hx : x ∈ d.batch) :
    x ∈ d.visible ∧ filterer.selects x ∧ d.cursor < x.position := by
  rw [h.batch] at hx
  exact mem_nextPage hx

theorem sorted : d.batch.Pairwise fun x y => x.position < y.position := by
  rw [h.batch]
  exact pairwise_nextPage h.ids

theorem length_le : d.batch.length ≤ batchSize := by
  rw [h.batch]
  exact length_nextPage_le

theorem le_newCursor {x : Entry} (hx : x ∈ d.batch) : x.position ≤ d.newCursor :=
  key_le_pageEnd h.sorted hx

theorem cursor_le : d.cursor ≤ d.newCursor := le_pageEnd fun _ hx => (h.mem hx).2.2

theorem complete {x : Entry} (hx : x ∈ d.visible) (hselects : filterer.selects x)
    (hafter : d.cursor < x.position) (hend : x.position ≤ d.newCursor) : x ∈ d.batch := by
  unfold Delivery.newCursor advance at hend
  rw [h.batch] at hend ⊢
  exact mem_of_le_pageEnd h.ids hx hselects hafter hend

theorem le_newCursor_of_short (hshort : d.batch.length < batchSize) {x : Entry}
    (hx : x ∈ d.visible) (hselects : filterer.selects x) : x.position ≤ d.newCursor := by
  by_cases hafter : d.cursor < x.position
  · have hmem : x ∈ d.batch := by
      rw [h.batch] at hshort ⊢
      exact mem_of_length_lt hshort hx hselects hafter
    exact h.le_newCursor hmem
  · exact le_trans (not_lt.1 hafter) h.cursor_le

end Exact

/-- An advanced cursor is at the last entry of the batch. -/
theorem newCursor_mem (h : d.cursor < d.newCursor) : ∃ x ∈ d.batch, x.position = d.newCursor := by
  unfold Delivery.newCursor advance pageEnd at *
  cases hlast : d.batch.getLast? with
  | none => simp [hlast] at h
  | some x => exact ⟨x, List.mem_of_getLast? hlast, rfl⟩

/-- Every position that the cursor passed is in the window of a delivery. -/
theorem window_of_chained {p q : Position} {ds : List (Delivery τ)} (h : Chained p ds q)
    {k : Position} (hp : p < k) (hq : k ≤ q) : ∃ d ∈ ds, d.cursor < k ∧ k ≤ d.newCursor := by
  induction ds generalizing p with
  | nil =>
    have hqp : q = p := h
    exact absurd (hqp ▸ hq) (not_le.2 hp)
  | cons e ds ih =>
    by_cases hk : k ≤ e.newCursor
    · exact ⟨e, List.mem_cons_self, h.1 ▸ hp, hk⟩
    · obtain ⟨d, hd, hwindow⟩ := ih h.2 (not_le.1 hk)
      exact ⟨d, List.mem_cons_of_mem _ hd, hwindow⟩

/-- What chained deliveries have delivered is after the cursor they began at. -/
theorem after_of_chained {p q : Position} {ds : List (Delivery τ)} (h : Chained p ds q)
    (hexact : ∀ d ∈ ds, Exact filterer batchSize d) : ∀ d ∈ ds, ∀ x ∈ d.batch, p < x.position := by
  induction ds generalizing p with
  | nil => simp
  | cons e ds ih =>
    have he := hexact e List.mem_cons_self
    intro d hd x hx
    rcases List.mem_cons.1 hd with rfl | hd
    · exact h.1 ▸ (he.mem hx).2.2
    · have hlater := ih h.2 (fun d hd => hexact d (List.mem_cons_of_mem _ hd)) d hd x hx
      exact lt_of_le_of_lt (h.1 ▸ he.cursor_le) hlater

theorem increasing_of_chained {p q : Position} {ds : List (Delivery τ)} (h : Chained p ds q)
    (hexact : ∀ d ∈ ds, Exact filterer batchSize d) :
    (ds.flatMap Delivery.batch).Pairwise fun x y => x.position < y.position := by
  induction ds generalizing p with
  | nil => exact List.Pairwise.nil
  | cons e ds ih =>
    have he := hexact e List.mem_cons_self
    have hrest := fun d hd => hexact d (List.mem_cons_of_mem _ hd)
    rw [List.flatMap_cons, List.pairwise_append]
    refine ⟨he.sorted, ih h.2 hrest, ?_⟩
    intro x hx y hy
    obtain ⟨d, hd, hy⟩ := List.mem_flatMap.1 hy
    exact lt_of_le_of_lt (he.le_newCursor hx) (after_of_chained h.2 hrest d hd y hy)

end Deliveries

/-- The records that have been delivered. -/
def State.records (s : State τ) : List RecordedRaw := s.delivered.flatMap Delivery.records

/-- A subscription is complete for what is visible. -/
structure Complete (startFrom : Position) (s : State τ) : Prop where
  increasing : (s.records.map RecordedRaw.position).Pairwise (· < ·)
  bounded : ∀ d ∈ s.delivered, d.batch.length ≤ batchSize
  selected : ∀ d ∈ s.delivered, ∀ x ∈ d.batch, x ∈ d.visible ∧ filterer.selects x ∧
    d.cursor < x.position ∧ x.position ≤ d.newCursor
  complete : ∀ d ∈ s.delivered, ∀ x ∈ d.visible, filterer.selects x →
    d.cursor < x.position → x.position ≤ d.newCursor → x ∈ d.batch
  short : ∀ d ∈ s.delivered, d.batch.length < batchSize →
    ∀ x ∈ d.visible, filterer.selects x → x.position ≤ d.newCursor
  skipped : ∀ x ∈ s.visible, filterer.selects x → startFrom < x.position →
    x.position ≤ s.cursor → (∀ d ∈ s.delivered, x ∉ d.batch) →
    ∃ d ∈ s.delivered, x ∉ d.visible ∧ x.position < d.newCursor

section Completeness
variable {filterer batchSize timelimit} {startFrom : Position} {s : State τ}

omit [Sub τ] [LT τ] [DecidableLT τ] in
/-- The positions of the records are those of the entries. -/
theorem map_position_records :
    s.records.map RecordedRaw.position =
      (s.delivered.flatMap Delivery.batch).map Entry.position := by
  unfold State.records
  rw [List.map_flatMap, List.map_flatMap]
  congr 1
  ext1 d
  unfold Delivery.records
  rw [List.map_map]
  rfl

omit [Sub τ] [LT τ] [DecidableLT τ] in
theorem Inv.skipped (hs : Inv filterer batchSize startFrom s) {x : Entry} (hx : x ∈ s.visible)
    (hselects : filterer.selects x) (hstart : startFrom < x.position)
    (hpassed : x.position ≤ s.cursor) (hskipped : ∀ d ∈ s.delivered, x ∉ d.batch) :
    ∃ d ∈ s.delivered, x ∉ d.visible ∧ x.position < d.newCursor := by
  obtain ⟨d, hd, hafter, hend⟩ := window_of_chained hs.chained hstart hpassed
  have hexact := hs.exact d hd
  have hunseen : x ∉ d.visible := fun hseen =>
    hskipped d hd (hexact.complete hseen hselects hafter hend)
  refine ⟨d, hd, hunseen, lt_of_le_of_ne hend ?_⟩
  intro heq
  obtain ⟨last, hlast, hposition⟩ := newCursor_mem (lt_of_lt_of_le hafter hend)
  have hsame : x = last :=
    List.inj_on_of_nodup_map hs.ids hx (hs.seen d hd (hexact.mem hlast).1)
      (heq.trans hposition.symm)
  exact hunseen (hsame ▸ (hexact.mem hlast).1)

theorem subscription_complete {schedule : List (Action τ)}
    (h : exec (step filterer batchSize timelimit) (initial startFrom) schedule = some s) :
    Complete filterer batchSize startFrom s := by
  have hs : Inv filterer batchSize startFrom s := inv_exec h
  constructor
  · rw [map_position_records, List.pairwise_map]
    exact increasing_of_chained hs.chained hs.exact
  · intro d hd
    exact (hs.exact d hd).length_le
  · intro d hd x hx
    obtain ⟨hvisible, hselects, hafter⟩ := (hs.exact d hd).mem hx
    exact ⟨hvisible, hselects, hafter, (hs.exact d hd).le_newCursor hx⟩
  · intro d hd x hx hselects hafter hend
    exact (hs.exact d hd).complete hx hselects hafter hend
  · intro d hd hshort x hx hselects
    exact (hs.exact d hd).le_newCursor_of_short hshort hx hselects
  · intro x hx hselects hstart hpassed hskipped
    exact hs.skipped hx hselects hstart hpassed hskipped

end Completeness

section Example

/-- An event and its stream, by id and category. -/
def entryOf (id : ℕ) (category : String) : Entry :=
  { event := { id, dbStreamId := 1
               body := { uuid := id, createdAt := 0, version := none, name := "Event", data := []
                         eventContext := [] } }
    stream := { uuid := 1, name := none, category, version := none, id := 1
                tenantId := defaultTenant } }

/-- The third event becomes visible first, and a call gives up waiting for the others. -/
def thirdFirst : List (Action ℤ) :=
  [.reserve, .reserve, .reserve, .commit (entryOf 3 "orders"), .next 0, .attempt 0, .attempt 2,
    .commit (entryOf 1 "orders"), .next 3, .attempt 5]

theorem subscription_complete_thirdFirst :
    Complete (.toCategory "orders") 2 0
      ((exec (step (.toCategory "orders") 2 1) (initial 0) thirdFirst).get (by decide)) :=
  subscription_complete (Option.some_get _).symm

end Example

end EventSourcery.Sql.Subscriptions
