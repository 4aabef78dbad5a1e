import Mathlib.Data.List.Perm.Basic
import EventSourcery.SqlOutboxes

/-!
# Workers that share a SQL outbox

Any number of workers run the outbox at the same time, once in each transaction. The rows that a
worker selects are locked until it commits or is rolled back, and the selections of others skip
them (`FOR UPDATE SKIP LOCKED`). What a worker does to its rows shows after its commit.

So no two workers have the same row at a time, and the attempts that were committed are those of
one retry queue. An entry is published more than once only where a worker that had published it
was rolled back.
-/
namespace EventSourcery.Sql.OutboxWorkers
open RetryQueue OutboxCodec

/-- A publication, and whether it went well. -/
structure Publication where
  row : ℕ × OutboxEntry
  record : RecordedRaw
  ok : Bool

namespace Publication

def id (publication : Publication) : ℕ := publication.row.1

def happening (publication : Publication) : Happening ℕ :=
  .attempted publication.id publication.ok

end Publication

/-- The table as it is committed, and what the open transactions have done. -/
structure State (ι : Type) where
  table : OutboxTable := []
  /-- The rows that workers have selected and are yet to publish. -/
  selected : List (ι × (ℕ × OutboxEntry)) := []
  /-- What was published by transactions that are open. -/
  pending : List (ι × Publication) := []
  /-- What was put, with the ids of the rows. -/
  records : List (ℕ × RecordedRaw) := []
  /-- What was committed: rows that were put and publications. -/
  history : List (Happening ℕ) := []
  /-- What was published so far. -/
  published : List Publication := []
  /-- What was published by transactions that were rolled back. -/
  undone : List Publication := []

inductive Action (ι : Type) where
  | put (records : List RecordedRaw) (ids : List ℕ)
  | select (worker : ι) (limit : ℕ)
  | publish (worker : ι) (ok : Bool)
  | commit (worker : ι)
  | rollback (worker : ι)

section Step
variable {ι : Type} [DecidableEq ι] {uuid5 : String → Uuid} (codec : OutboxCodec uuid5)
  (strategy : OutboxStrategy)

namespace State

/-- The ids of the rows that are locked. -/
def locked (s : State ι) : List ℕ := s.selected.map (·.2.1) ++ s.pending.map (·.2.id)

/-- The worker has a transaction in which it has selected rows. -/
def busy (s : State ι) (worker : ι) : Bool :=
  s.selected.any (·.1 = worker) || s.pending.any (·.1 = worker)

/-- What a worker has published in its transaction. -/
def pendingOf (s : State ι) (worker : ι) : List Publication :=
  (s.pending.filter (·.1 = worker)).map Prod.snd

/-- A worker's transaction is over, and its locks are gone. -/
def release (s : State ι) (worker : ι) : State ι :=
  { s with
    selected := s.selected.filter (·.1 ≠ worker)
    pending := s.pending.filter (·.1 ≠ worker) }

end State

/-- The changes of a transaction. -/
def settleRows (publications : List Publication) (table : OutboxTable) : OutboxTable :=
  publications.foldl (fun table publication => settleRow publication.ok publication.row table) table

/-- New rows get ids that were not given before, in any order. -/
def step (s : State ι) : Action ι → Option (State ι)
  | .put records ids =>
      let passing := records.filter fun record => strategy.filterer record.entry
      if ids.length = passing.length ∧ ids.Nodup ∧ ∀ id ∈ ids, id ∉ s.records.map Prod.fst then
        some { s with
          table := codec.putIntoOutbox strategy records ids s.table
          records := s.records ++ ids.zip passing
          history := s.history ++ [.put ids] }
      else none
  | .select worker limit =>
      if s.busy worker then none
      else
        let free := s.table.filter fun row => row.1 ∉ s.locked
        some { s with
          selected := s.selected ++ (outboxEntries limit free).map fun row => (worker, row) }
  | .publish worker ok =>
      match s.selected.find? (·.1 = worker) with
      | none => none
      | some (_, row) =>
          match codec.decode row.2 with
          | .error _ => none
          | .ok record =>
              some { s with
                selected := s.selected.eraseP (·.1 = worker)
                pending := s.pending ++ [(worker, ⟨row, record, ok⟩)]
                published := s.published ++ [⟨row, record, ok⟩] }
  | .commit worker =>
      some { s.release worker with
        table := settleRows (s.pendingOf worker) s.table
        history := s.history ++ (s.pendingOf worker).map (·.happening) }
  | .rollback worker =>
      some { s.release worker with undone := s.undone ++ s.pendingOf worker }

end Step

section Rows
variable {uuid5 : String → Uuid} {maximum : ℤ} {records : List (ℕ × RecordedRaw)}
  {table : OutboxTable} {row : ℕ × OutboxEntry} {q : Queue ℕ} {ok : Bool}

/-- A row with tries left as an item of the queue: its id, and the record that was put with it. -/
structure RowOf (uuid5 : String → Uuid) (maximum : ℤ) (records : List (ℕ × RecordedRaw))
    (row : ℕ × OutboxEntry) (x : ℕ × ℕ) : Prop where
  id : row.1 = x.1
  stored : ∃ record, (row.1, record) ∈ records ∧ Stored uuid5 maximum row (record, x.2)

/-- What is left of a settled row is what is left of its item. -/
theorem RowOf.leftOf {x : ℕ × ℕ} (h : RowOf uuid5 maximum records row x) (ok : Bool) :
    List.Forall₂ (RowOf uuid5 maximum records) ((leftOf ok row).filter live)
      (settle maximum ok x).toList := by
  obtain ⟨record, hrecord, hstored⟩ := h.stored
  have hleft := stored_leftOf hstored ok
  unfold settle at hleft ⊢
  split
  · rename_i hgone
    rw [if_pos hgone] at hleft
    exact List.forall₂_nil_right_iff.2 (List.forall₂_nil_right_iff.1 hleft)
  · rename_i hkept
    rw [if_neg hkept] at hleft
    obtain ⟨left, hone, hleft⟩ : ∃ left, (OutboxCodec.leftOf ok row).filter live = [left] ∧
        Stored uuid5 maximum left (record, x.2 + 1) := by
      cases hrows : (OutboxCodec.leftOf ok row).filter live with
      | nil =>
        rw [hrows] at hleft
        cases hleft
      | cons left rest =>
        rw [hrows] at hleft
        obtain _ | ⟨hleft, hrest⟩ := hleft
        cases hrest
        exact ⟨left, rfl, hleft⟩
    have hid : left.1 = row.1 := by
      have hmem : left ∈ OutboxCodec.leftOf ok row :=
        List.mem_of_mem_filter (hone ▸ List.mem_singleton_self left)
      unfold OutboxCodec.leftOf at hmem
      split at hmem
      · cases hmem
      · rw [List.mem_singleton.1 hmem]
    rw [hone]
    exact .cons ⟨hid.trans h.id, record, hid.symm ▸ hrecord, hleft⟩ .nil

theorem settleRow_cons (ok : Bool) (row first : ℕ × OutboxEntry) (table : OutboxTable) :
    settleRow ok row (first :: table) =
      (if first.1 = row.1 then leftOf ok row else [first]) ++ settleRow ok row table := by
  unfold settleRow leftOf
  cases ok <;> by_cases hid : first.1 = row.1 <;> simp [hid]

theorem step_cons (x : ℕ × ℕ) (q : Queue ℕ) (a : ℕ) (ok : Bool) :
    RetryQueue.step maximum (x :: q) (.attempted a ok) =
      (if x.1 = a then settle maximum ok x else some x).toList ++
        RetryQueue.step maximum q (.attempted a ok) := by
  simp only [RetryQueue.step, List.filterMap_cons]
  split <;> rename_i hx <;> simp [hx]

/-- A row that is settled is attempted as an item of the queue. -/
theorem entries_settle (hrow : ∀ r ∈ table, r.1 = row.1 → r = row) (hlive : live row = true)
    (h : List.Forall₂ (RowOf uuid5 maximum records) (table.filter live) q) (ok : Bool) :
    List.Forall₂ (RowOf uuid5 maximum records) ((settleRow ok row table).filter live)
      (RetryQueue.step maximum q (.attempted row.1 ok)) := by
  induction table generalizing q with
  | nil =>
    cases h
    cases ok <;> exact .nil
  | cons first table ih =>
    have hrest := fun r hr => hrow r (List.mem_cons_of_mem _ hr)
    rw [settleRow_cons, List.filter_append]
    by_cases hfirst : live first = true
    · rw [List.filter_cons_of_pos hfirst] at h
      obtain _ | ⟨hx, h⟩ := h
      rename_i x q
      rw [step_cons, ← hx.id]
      refine List.rel_append ?_ (ih hrest h)
      by_cases hid : first.1 = row.1
      · rw [if_pos hid, if_pos hid, ← hrow first List.mem_cons_self hid]
        exact hx.leftOf ok
      · rw [if_neg hid, if_neg hid, List.filter_cons_of_pos hfirst]
        exact .cons hx .nil
    · rw [List.filter_cons_of_neg hfirst] at h
      have hid : first.1 ≠ row.1 := by
        intro hid
        rw [hrow first List.mem_cons_self hid] at hfirst
        exact hfirst hlive
      rw [if_neg hid, List.filter_cons_of_neg hfirst]
      exact ih hrest h

/-- The rows with tries left are those that wait in the queue. -/
theorem ids_entries (h : List.Forall₂ (RowOf uuid5 maximum records) (table.filter live) q) :
    (table.filter live).map Prod.fst = q.map Prod.fst := by
  rw [← List.forall₂_eq_eq_eq, List.forall₂_map_left_iff, List.forall₂_map_right_iff]
  exact h.imp fun _ _ hrow => hrow.id

theorem ids_settleRow (ok : Bool) (row : ℕ × OutboxEntry) (table : OutboxTable) :
    ((settleRow ok row table).map Prod.fst).Sublist (table.map Prod.fst) := by
  induction table with
  | nil => cases ok <;> exact .slnil
  | cons first table ih =>
    rw [settleRow_cons, List.map_append, List.map_cons]
    split
    · rename_i hid
      rw [hid]
      exact (leftOf_ids ok row).append ih
    · exact ih.cons_cons _

theorem mem_settleRow {r : ℕ × OutboxEntry} (hr : r ∈ table) (hid : r.1 ≠ row.1) (ok : Bool) :
    r ∈ settleRow ok row table := by
  unfold settleRow
  split
  · exact List.mem_filter.2 ⟨hr, by simpa using hid⟩
  · exact List.mem_map.2 ⟨r, hr, if_neg hid⟩

/-- What the commit of a transaction does to the table is what its publications do to the
queue. -/
theorem settleRows_spec {publications : List Publication}
    (hids : (table.map Prod.fst).Nodup) (hdistinct : (publications.map (·.id)).Nodup)
    (hheld : ∀ p ∈ publications, p.row ∈ table ∧ live p.row = true)
    (h : List.Forall₂ (RowOf uuid5 maximum records) (table.filter live) q) :
    ((settleRows publications table).map Prod.fst).Sublist (table.map Prod.fst) ∧
      (∀ row ∈ table, row.1 ∉ publications.map (·.id) → row ∈ settleRows publications table) ∧
      List.Forall₂ (RowOf uuid5 maximum records) ((settleRows publications table).filter live)
        (replay maximum q (publications.map (·.happening))) ∧
      Proper maximum q (publications.map (·.happening)) := by
  induction publications generalizing table q with
  | nil => exact ⟨.refl _, fun row hrow _ => hrow, h, trivial⟩
  | cons p publications ih =>
    obtain ⟨hp, hlive⟩ := hheld p List.mem_cons_self
    obtain ⟨hnew, hdistinct'⟩ := List.nodup_cons.1 hdistinct
    have hrow : ∀ r ∈ table, r.1 = p.row.1 → r = p.row := fun r hr hid =>
      List.inj_on_of_nodup_map hids hr hp hid
    have hsettled := entries_settle hrow hlive h p.ok
    have hsub := ids_settleRow p.ok p.row table
    have hothers : ∀ p' ∈ publications,
        p'.row ∈ settleRow p.ok p.row table ∧ live p'.row = true := by
      intro p' hp'
      obtain ⟨hmem, hlive'⟩ := hheld p' (List.mem_cons_of_mem _ hp')
      refine ⟨mem_settleRow hmem (fun hid => hnew ?_) p.ok, hlive'⟩
      exact List.mem_map.2 ⟨p', hp', hid⟩
    obtain ⟨hsub', hkept, hentries, hproper⟩ := ih (hids.sublist hsub) hdistinct' hothers hsettled
    refine ⟨hsub'.trans hsub, fun r hr hne => ?_, hentries, fun a ok hattempt => ?_, hproper⟩
    · rw [List.map_cons, List.mem_cons, not_or] at hne
      exact hkept r (mem_settleRow hr hne.1 p.ok) hne.2
    · cases hattempt
      rw [← ids_entries h]
      exact List.mem_map_of_mem (List.mem_filter.2 ⟨hp, hlive⟩)

end Rows

/-! ## The invariant -/

section Invariant
variable {ι : Type} {uuid5 : String → Uuid} {codec : OutboxCodec uuid5}
  {strategy : OutboxStrategy} {s s' : State ι} {worker : ι}

/-- The publications of a row that went well. -/
def delivered (id : ℕ) (publications : List Publication) : ℕ :=
  publications.countP fun p => p.id = id && p.ok

structure Inv (uuid5 : String → Uuid) (maximum : ℤ) (s : State ι) : Prop where
  ids : (s.table.map Prod.fst).Nodup
  known : ∀ row ∈ s.table, row.1 ∈ s.records.map Prod.fst
  given : putItems s.history = s.records.map Prod.fst
  distinct : (s.records.map Prod.fst).Nodup
  entries : List.Forall₂ (RowOf uuid5 maximum s.records) (s.table.filter live)
    (replay maximum [] s.history)
  proper : Proper maximum [] s.history
  locks : s.locked.Nodup
  selected : ∀ x ∈ s.selected, x.2 ∈ s.table ∧ live x.2 = true
  pending : ∀ x ∈ s.pending, x.2.row ∈ s.table ∧ live x.2.row = true
  faithful : ∀ p ∈ s.published, ∃ record, (p.id, record) ∈ s.records ∧
    p.record = rereadRecord uuid5 record
  accounts : ∀ id, delivered id s.published =
    (outcomes id s.history).count true + delivered id s.undone +
      delivered id (s.pending.map Prod.snd)

theorem inv_initial (uuid5 : String → Uuid) (maximum : ℤ) :
    Inv uuid5 maximum ({} : State ι) where
  ids := List.nodup_nil
  known := by simp
  given := rfl
  distinct := List.nodup_nil
  entries := .nil
  proper := trivial
  locks := List.nodup_nil
  selected := by simp
  pending := by simp
  faithful := by simp
  accounts := fun _ => rfl

theorem RowOf.mono {maximum : ℤ} {records records' : List (ℕ × RecordedRaw)}
    {row : ℕ × OutboxEntry} {x : ℕ × ℕ} (h : RowOf uuid5 maximum records row x)
    (hsub : records ⊆ records') : RowOf uuid5 maximum records' row x :=
  ⟨h.id, let ⟨record, hrecord, hstored⟩ := h.stored
    ⟨record, hsub hrecord, hstored⟩⟩

variable (codec) in
/-- New rows are new items. -/
theorem rows_put (maximum : ℤ) {ids : List ℕ} {records : List RecordedRaw}
    (hlegible : ∀ record ∈ records, Legible uuid5 record) (hlength : ids.length = records.length) :
    List.Forall₂ (RowOf uuid5 maximum (ids.zip records))
      (ids.zip (records.map fun record => codec.encode record maximum)) (entered ids) := by
  induction ids generalizing records with
  | nil => exact .nil
  | cons id ids ih =>
    cases records with
    | nil => cases hlength
    | cons record records =>
      have hstored : Stored uuid5 maximum (id, codec.encode record maximum) (record, 0) := by
        refine ⟨codec.holds record maximum, hlegible record List.mem_cons_self, ?_⟩
        simp [codec.triesLeft]
      have hrest := ih (fun r hr => hlegible r (List.mem_cons_of_mem _ hr))
        (Nat.succ.inj hlength)
      refine .cons ⟨rfl, record, List.mem_cons_self, hstored⟩ (hrest.imp fun _ _ hrow => ?_)
      exact hrow.mono (List.subset_cons_self _ _)

theorem exists_of_forall₂ {α β : Type} {R : α → β → Prop} {as : List α} {bs : List β}
    (h : List.Forall₂ R as bs) {a : α} (ha : a ∈ as) : ∃ b ∈ bs, R a b := by
  induction h with
  | nil => cases ha
  | cons hab _ ih =>
    rcases List.mem_cons.1 ha with rfl | ha
    · exact ⟨_, List.mem_cons_self, hab⟩
    · obtain ⟨b, hb, hR⟩ := ih ha
      exact ⟨b, List.mem_cons_of_mem _ hb, hR⟩

variable (codec) in
/-- What is read from a row that is still in the outbox is what was put there. -/
theorem Inv.decode {maximum : ℤ} (h : Inv uuid5 maximum s) {row : ℕ × OutboxEntry}
    (hrow : row ∈ s.table) (hlive : live row = true) :
    ∃ record, (row.1, record) ∈ s.records ∧
      codec.decode row.2 = .ok (rereadRecord uuid5 record) := by
  obtain ⟨x, -, -, record, hrecord, hstored⟩ :=
    exists_of_forall₂ h.entries (List.mem_filter.2 ⟨hrow, hlive⟩)
  exact ⟨record, hrecord, (codec.decode_eq row.2).trans
    (readRecord_eq hstored.holds hstored.legible.1 hstored.legible.2)⟩

/-- An item that waits has not been delivered by any transaction that is committed. -/
theorem Inv.not_delivered {maximum : ℤ} (h : Inv uuid5 maximum s) (hmaximum : 1 ≤ maximum)
    {row : ℕ × OutboxEntry} (hrow : row ∈ s.table) (hlive : live row = true) :
    (outcomes row.1 s.history).count true = 0 := by
  have hmem : row.1 ∈ (replay maximum [] s.history).map Prod.fst :=
    ids_entries h.entries ▸ List.mem_map_of_mem (List.mem_filter.2 ⟨hrow, hlive⟩)
  rw [replay_eq hmaximum h.proper (h.given ▸ h.distinct)] at hmem
  obtain ⟨x, hx, hid⟩ := List.mem_map.1 hmem
  obtain ⟨id, -, hx⟩ := List.mem_filterMap.1 hx
  split at hx
  · rename_i hwaiting
    cases hx
    rw [← hid]
    exact List.count_eq_zero.2 (waiting_iff.1 hwaiting).1
  · cases hx

variable [DecidableEq ι]

theorem Inv.put (h : Inv uuid5 strategy.maxPublishAttempts s)
    (hmaximum : 1 ≤ strategy.maxPublishAttempts) {records : List RecordedRaw} {ids : List ℕ}
    (hlegible : ∀ record ∈ records, Legible uuid5 record)
    (hstep : step codec strategy s (.put records ids) = some s') :
    Inv uuid5 strategy.maxPublishAttempts s' := by
  simp only [step] at hstep
  split at hstep
  · rename_i hids
    cases hstep
    obtain ⟨hlength, hnodup, hnew⟩ := hids
    set passing := records.filter fun record => strategy.filterer record.entry with hpassing
    have hfst : (ids.zip (passing.map fun record =>
        codec.encode record strategy.maxPublishAttempts)).map Prod.fst = ids :=
      List.map_fst_zip (by simp [hlength])
    have hfst' : (ids.zip passing).map Prod.fst = ids := List.map_fst_zip (by simp [hlength])
    have hrows := rows_put codec strategy.maxPublishAttempts
      (fun r hr => hlegible r (List.mem_of_mem_filter hr)) hlength
    have hlive : (ids.zip (passing.map fun record =>
        codec.encode record strategy.maxPublishAttempts)).filter live =
          ids.zip (passing.map fun record => codec.encode record strategy.maxPublishAttempts) := by
      rw [List.filter_eq_self]
      intro row hrow
      obtain ⟨record, -, hrecord⟩ := List.mem_map.1 (List.of_mem_zip hrow).2
      have htries := codec.triesLeft record strategy.maxPublishAttempts
      rw [hrecord] at htries
      simp only [live, htries, decide_eq_true_eq]
      omega
    have hputs : putItems (s.history ++ [.put ids]) = putItems s.history ++ ids := by
      rw [putItems_append]
      exact congrArg _ (List.append_nil _)
    have hdistinct : (s.records.map Prod.fst ++ ids).Nodup :=
      h.distinct.append hnodup fun id hold hid => hnew id hid hold
    refine ⟨?_, fun row hrow => ?_, ?_, ?_, ?_, ?_, h.locks, fun x hx => ?_, fun x hx => ?_,
      fun p hp => ?_, fun id => ?_⟩
    · rw [putIntoOutbox, List.map_append, hfst]
      refine h.ids.append hnodup fun id hold hid => ?_
      obtain ⟨row, hrow, hrowId⟩ := List.mem_map.1 hold
      exact hnew id hid (hrowId ▸ h.known row hrow)
    · rw [List.map_append, hfst', List.mem_append]
      rcases List.mem_append.1 hrow with hrow | hrow
      · exact .inl (h.known row hrow)
      · exact .inr (List.of_mem_zip hrow).1
    · rw [hputs, List.map_append, hfst', h.given]
    · rw [List.map_append, hfst']
      exact hdistinct
    · rw [putIntoOutbox, List.filter_append, hlive, replay_append]
      exact List.rel_append
        (h.entries.imp fun _ _ hrow => hrow.mono (List.subset_append_left _ _))
        (hrows.imp fun _ _ hrow => hrow.mono (List.subset_append_right _ _))
    · exact proper_append.2 ⟨h.proper, fun a ok hattempt => (by cases hattempt), trivial⟩
    · exact ⟨List.mem_append_left _ (h.selected x hx).1, (h.selected x hx).2⟩
    · exact ⟨List.mem_append_left _ (h.pending x hx).1, (h.pending x hx).2⟩
    · obtain ⟨record, hrecord, hread⟩ := h.faithful p hp
      exact ⟨record, List.mem_append_left _ hrecord, hread⟩
    · have hnone : outcomes id [Happening.put ids] = [] := rfl
      rw [outcomes_append, hnone, List.append_nil]
      exact h.accounts id
  · cases hstep

theorem Inv.select (h : Inv uuid5 strategy.maxPublishAttempts s) {limit : ℕ}
    (hstep : step codec strategy s (.select worker limit) = some s') :
    Inv uuid5 strategy.maxPublishAttempts s' := by
  simp only [step] at hstep
  split at hstep
  · cases hstep
  · cases hstep
    set free := s.table.filter fun row => row.1 ∉ s.locked
    have hmem : ∀ row ∈ outboxEntries limit free,
        row ∈ s.table ∧ live row = true ∧ row.1 ∉ s.locked := by
      intro row hrow
      have hsorted := (List.mem_insertionSort _).1 (List.mem_of_mem_take hrow)
      obtain ⟨hfree, hlive⟩ := List.mem_filter.1 hsorted
      obtain ⟨htable, hunlocked⟩ := List.mem_filter.1 hfree
      exact ⟨htable, hlive, of_decide_eq_true hunlocked⟩
    have hids : ((outboxEntries limit free).map Prod.fst).Nodup := by
      have hfree : ((free.filter live).map Prod.fst).Nodup :=
        h.ids.sublist ((List.filter_sublist.trans List.filter_sublist).map _)
      have hsorted := ((List.perm_insertionSort (fun a b : ℕ × OutboxEntry => a.1 ≤ b.1)
        (free.filter live)).map Prod.fst).nodup_iff.2 hfree
      exact hsorted.sublist ((List.take_sublist _ _).map _)
    refine ⟨h.ids, h.known, h.given, h.distinct, h.entries, h.proper, ?_, fun x hx => ?_,
      h.pending, h.faithful, h.accounts⟩
    · have hperm : (s.locked ++ (outboxEntries limit free).map Prod.fst).Nodup :=
        h.locks.append hids fun id hlocked hid =>
          let ⟨row, hrow, hrowId⟩ := List.mem_map.1 hid
          (hmem row hrow).2.2 (hrowId ▸ hlocked)
      refine (List.Perm.nodup_iff ?_).1 hperm
      simp only [State.locked, List.map_append, List.map_map, Function.comp_def, List.append_assoc]
      exact List.perm_append_comm.append_left _
    · rcases List.mem_append.1 hx with hx | hx
      · exact h.selected x hx
      · obtain ⟨row, hrow, rfl⟩ := List.mem_map.1 hx
        exact ⟨(hmem row hrow).1, (hmem row hrow).2.1⟩

theorem Inv.publish (h : Inv uuid5 strategy.maxPublishAttempts s) {ok : Bool}
    (hstep : step codec strategy s (.publish worker ok) = some s') :
    Inv uuid5 strategy.maxPublishAttempts s' := by
  simp only [step] at hstep
  split at hstep
  · cases hstep
  · rename_i other row hfind
    obtain ⟨hother, front, rest, hselected, hfront⟩ := List.find?_eq_some_iff_append.1 hfind
    have herase : s.selected.eraseP (fun x => x.1 = worker) = front ++ rest := by
      rw [hselected, List.eraseP_append_right _ (fun x hx => by simpa using hfront x hx),
        List.eraseP_cons_of_pos
          (p := fun x : ι × (ℕ × OutboxEntry) => decide (x.1 = worker)) hother]
    obtain ⟨hrow, hlive⟩ := h.selected (other, row) (List.mem_of_find?_eq_some hfind)
    obtain ⟨record, hrecord, hdecode⟩ := h.decode codec hrow hlive
    rw [hdecode, herase] at hstep
    cases hstep
    refine ⟨h.ids, h.known, h.given, h.distinct, h.entries, h.proper, ?_, fun x hx => ?_,
      fun x hx => ?_, fun p hp => ?_, fun id => ?_⟩
    · refine (List.Perm.nodup_iff ?_).1 h.locks
      simp only [State.locked, hselected, List.map_append, List.map_cons, List.map_nil,
        List.append_assoc, List.cons_append]
      refine List.Perm.append_left _ (List.perm_middle.symm.trans ?_)
      exact List.Perm.append_left _ (List.perm_append_singleton _ _).symm
    · exact h.selected x (hselected ▸ by
        rcases List.mem_append.1 hx with hx | hx
        · exact List.mem_append_left _ hx
        · exact List.mem_append_right _ (List.mem_cons_of_mem _ hx))
    · rcases List.mem_append.1 hx with hx | hx
      · exact h.pending x hx
      · rw [List.mem_singleton.1 hx]
        exact ⟨hrow, hlive⟩
    · rcases List.mem_append.1 hp with hp | hp
      · exact h.faithful p hp
      · rw [List.mem_singleton.1 hp]
        exact ⟨record, hrecord, rfl⟩
    · have haccounts := h.accounts id
      simp only [delivered, List.map_append, List.countP_append] at haccounts ⊢
      simp only [List.map_cons, List.map_nil]
      omega

theorem outcomes_publications (id : ℕ) (publications : List Publication) :
    (outcomes id (publications.map (·.happening))).count true = delivered id publications := by
  induction publications with
  | nil => rfl
  | cons p publications ih =>
    unfold delivered at ih ⊢
    rw [List.countP_cons, ← ih]
    simp only [outcomes, List.map_cons, Publication.happening, List.filterMap_cons]
    by_cases hid : p.id = id
    · cases hok : p.ok <;> simp [hid]
    · simp [hid]

/-- What a worker has published, and what the others have. -/
theorem delivered_split (id : ℕ) (s : State ι) (worker : ι) :
    delivered id (s.pending.map Prod.snd) =
      delivered id (s.pendingOf worker) +
        delivered id ((s.release worker).pending.map Prod.snd) := by
  unfold delivered
  rw [← List.countP_append, State.pendingOf, State.release, ← List.map_append]
  refine (List.Perm.countP_eq _ (List.Perm.map Prod.snd ?_)).symm
  have hperm := List.filter_append_perm (fun x : ι × Publication => x.1 = worker) s.pending
  simpa using hperm

/-- What is left of the locks when a transaction is over. -/
theorem locked_release (s : State ι) (worker : ι) : (s.release worker).locked.Sublist s.locked :=
  (List.filter_sublist.map _).append (List.filter_sublist.map _)

theorem Inv.rollback (h : Inv uuid5 strategy.maxPublishAttempts s)
    (hstep : step codec strategy s (.rollback worker) = some s') :
    Inv uuid5 strategy.maxPublishAttempts s' := by
  cases hstep
  refine ⟨h.ids, h.known, h.given, h.distinct, h.entries, h.proper,
    h.locks.sublist (locked_release s worker), fun x hx => h.selected x (List.mem_of_mem_filter hx),
    fun x hx => h.pending x (List.mem_of_mem_filter hx), h.faithful, fun id => ?_⟩
  have haccounts := h.accounts id
  have happend : delivered id (s.undone ++ s.pendingOf worker) =
      delivered id s.undone + delivered id (s.pendingOf worker) := List.countP_append
  rw [delivered_split id s worker] at haccounts
  refine haccounts.trans ?_
  change _ = (outcomes id s.history).count true + delivered id (s.undone ++ s.pendingOf worker) +
    delivered id ((s.release worker).pending.map Prod.snd)
  rw [happend]
  omega

theorem Inv.commit (h : Inv uuid5 strategy.maxPublishAttempts s)
    (hstep : step codec strategy s (.commit worker) = some s') :
    Inv uuid5 strategy.maxPublishAttempts s' := by
  cases hstep
  obtain ⟨-, hpendingIds, hapart⟩ := List.nodup_append.1 h.locks
  have hids : (s.pendingOf worker).map (·.id) =
      (s.pending.filter (·.1 = worker)).map (·.2.id) := by
    rw [State.pendingOf, List.map_map]
    rfl
  have hheld : ∀ p ∈ s.pendingOf worker, p.row ∈ s.table ∧ live p.row = true := by
    intro p hp
    obtain ⟨x, hx, rfl⟩ := List.mem_map.1 hp
    exact h.pending x (List.mem_of_mem_filter hx)
  obtain ⟨hsub, hkept, hentries, hproper⟩ := settleRows_spec h.ids
    (hids ▸ hpendingIds.sublist (List.filter_sublist.map _)) hheld h.entries
  have hputs : putItems (s.history ++ (s.pendingOf worker).map (·.happening)) =
      putItems s.history := by
    rw [putItems_append]
    refine (congrArg _ (List.flatMap_eq_nil_iff.2 fun happening hmem => ?_)).trans
      (List.append_nil _)
    obtain ⟨p, -, rfl⟩ := List.mem_map.1 hmem
    rfl
  refine ⟨h.ids.sublist hsub, fun row hrow => ?_, hputs.trans h.given, h.distinct, ?_,
    proper_append.2 ⟨h.proper, hproper⟩, h.locks.sublist (locked_release s worker),
    fun x hx => ?_, fun x hx => ?_, h.faithful, fun id => ?_⟩
  · obtain ⟨row', hrow', hid⟩ := List.mem_map.1 (hsub.subset (List.mem_map_of_mem hrow))
    exact hid ▸ h.known row' hrow'
  · have hreplay : replay strategy.maxPublishAttempts []
        (s.history ++ (s.pendingOf worker).map (·.happening)) =
          replay strategy.maxPublishAttempts (replay strategy.maxPublishAttempts [] s.history)
            ((s.pendingOf worker).map (·.happening)) := List.foldl_append
    exact hreplay ▸ hentries
  · have hmem := List.mem_of_mem_filter hx
    refine ⟨hkept x.2 (h.selected x hmem).1 fun hid => ?_, (h.selected x hmem).2⟩
    rw [hids] at hid
    exact hapart x.2.1 (List.mem_map_of_mem hmem) x.2.1
      ((List.filter_sublist.map _).subset hid) rfl
  · obtain ⟨hmem, hother⟩ := List.mem_filter.1 hx
    refine ⟨hkept x.2.row (h.pending x hmem).1 fun hid => ?_, (h.pending x hmem).2⟩
    rw [hids] at hid
    obtain ⟨y, hy, hsame⟩ := List.mem_map.1 hid
    obtain ⟨hy, hworker⟩ := List.mem_filter.1 hy
    rw [List.inj_on_of_nodup_map hpendingIds hy hmem hsame] at hworker
    simp_all
  · have haccounts := h.accounts id
    have hcount : (outcomes id (s.history ++ (s.pendingOf worker).map (·.happening))).count true =
        (outcomes id s.history).count true + delivered id (s.pendingOf worker) := by
      rw [outcomes_append, List.count_append, outcomes_publications]
    rw [delivered_split id s worker] at haccounts
    refine haccounts.trans ?_
    change _ = (outcomes id (s.history ++ (s.pendingOf worker).map (·.happening))).count true +
      delivered id s.undone + delivered id ((s.release worker).pending.map Prod.snd)
    rw [hcount]
    omega

end Invariant

section Schedules
open Runs
variable {ι : Type} [DecidableEq ι] {uuid5 : String → Uuid} {codec : OutboxCodec uuid5}
  {strategy : OutboxStrategy} {s : State ι} {schedule : List (Action ι)}

/-- The records that are put can be read back. -/
def Puttable (uuid5 : String → Uuid) : Action ι → Prop
  | .put records _ => ∀ record ∈ records, Legible uuid5 record
  | _ => True

theorem inv_exec (hmaximum : 1 ≤ strategy.maxPublishAttempts)
    (hput : ∀ action ∈ schedule, Puttable uuid5 action)
    (h : exec (step codec strategy) {} schedule = some s) :
    Inv uuid5 strategy.maxPublishAttempts s := by
  refine exec_invariant _ (Puttable uuid5) (fun s action s' hgood hs hstep => ?_) hput
    (inv_initial uuid5 _) h
  cases action with
  | put records ids => exact hs.put hmaximum hgood hstep
  | select worker limit => exact hs.select hstep
  | publish worker ok => exact hs.publish hstep
  | commit worker => exact hs.commit hstep
  | rollback worker => exact hs.rollback hstep

/-- However the workers come between one another, the publications that were committed are those
of one queue: each entry was tried until it succeeded, and not more often than is allowed. The
rows that are left to publish are those of the entries that wait in the queue. -/
theorem workers_share_queue (hmaximum : 1 ≤ strategy.maxPublishAttempts)
    (hput : ∀ action ∈ schedule, Puttable uuid5 action)
    (h : exec (step codec strategy) {} schedule = some s) :
    putItems s.history = s.records.map Prod.fst ∧
      (∀ id, Retried strategy.maxPublishAttempts (outcomes id s.history)) ∧
      List.Forall₂ (RowOf uuid5 strategy.maxPublishAttempts s.records) (s.table.filter live)
        (remaining strategy.maxPublishAttempts s.history) := by
  have hinv := inv_exec hmaximum hput h
  have hnodup : (putItems s.history).Nodup := hinv.given ▸ hinv.distinct
  exact ⟨hinv.given, retried_outcomes hmaximum hinv.proper hnodup,
    replay_eq hmaximum hinv.proper hnodup ▸ hinv.entries⟩

/-- No two workers hold the same row, and no worker holds a row twice. What is published is what
was put, as it is read back. An entry is delivered once at most, not counting the deliveries of
transactions that were rolled back. -/
theorem workers_deliver_once (hmaximum : 1 ≤ strategy.maxPublishAttempts)
    (hput : ∀ action ∈ schedule, Puttable uuid5 action)
    (h : exec (step codec strategy) {} schedule = some s) :
    s.locked.Nodup ∧
      (∀ p ∈ s.published, ∃ record, (p.id, record) ∈ s.records ∧
        p.record = rereadRecord uuid5 record) ∧
      ∀ id, delivered id s.published ≤ 1 + delivered id s.undone := by
  have hinv := inv_exec hmaximum hput h
  refine ⟨hinv.locks, hinv.faithful, fun id => ?_⟩
  have haccounts := hinv.accounts id
  have hcommitted : (outcomes id s.history).count true ≤ 1 := by
    obtain ⟨n, ⟨houtcomes, -⟩ | ⟨houtcomes, -⟩⟩ :=
      retried_outcomes hmaximum hinv.proper (hinv.given ▸ hinv.distinct) id
    · simp [houtcomes, List.count_replicate]
    · simp [houtcomes, List.count_replicate]
  have hpending : delivered id (s.pending.map Prod.snd) ≤ 1 := by
    have hids := List.Nodup.of_append_right hinv.locks
    refine le_trans ?_ (List.nodup_iff_count_le_one.1 hids id)
    rw [delivered, List.count, List.countP_map, List.countP_map]
    refine List.countP_mono_left fun x _ hx => ?_
    simp only [Function.comp_apply, Bool.and_eq_true, decide_eq_true_eq] at hx
    simpa using hx.1
  by_cases hnone : delivered id (s.pending.map Prod.snd) = 0
  · omega
  · obtain ⟨p, hp, hsame⟩ := List.countP_pos_iff.1 (Nat.pos_of_ne_zero hnone)
    obtain ⟨x, hx, rfl⟩ := List.mem_map.1 hp
    simp only [Bool.and_eq_true, decide_eq_true_eq] at hsame
    obtain ⟨hrow, hlive⟩ := hinv.pending x hx
    have hzero := hinv.not_delivered hmaximum hrow hlive
    rw [show x.2.row.1 = id from hsame.1] at hzero
    omega

end Schedules

section Example
open InMemoryOutboxStorageStrategy (orderRecord)
open Runs

/-- Two workers share three orders; the one with the third order is rolled back once, after it has
published it. -/
def sharedOrders : List (Action Bool) :=
  [.put [orderRecord 1, orderRecord 2, orderRecord 3] [1, 2, 3], .select false 2, .select true 2,
    .publish true true, .publish false true, .rollback true, .publish false false, .commit false,
    .select true 5, .publish true true, .publish true true, .commit true]

theorem sharedOrders_enabled : ∃ s,
    exec (step (SqlAlchemyOutbox.codec orderUuid) ⟨fun _ => true, 2⟩) {} sharedOrders = some s ∧
      (s.table.map Prod.fst, delivered 3 s.published) = ([], 2) := by
  apply Option.map_eq_some_iff.1
  decide +kernel

theorem orderRecord_legible (position : Position) : Legible orderUuid (orderRecord position) := by
  refine ⟨fun name hname => ?_, ?_⟩
  · cases hname
  · simp [Texts.InRange, orderRecord]

theorem sharedOrders_puttable : ∀ action ∈ sharedOrders, Puttable orderUuid action := by
  intro action haction
  simp only [sharedOrders, List.mem_cons, List.not_mem_nil, or_false] at haction
  rcases haction with rfl | rfl | rfl | rfl | rfl | rfl | rfl | rfl | rfl | rfl | rfl | rfl
  · intro record hrecord
    simp only [List.mem_cons, List.not_mem_nil, or_false] at hrecord
    rcases hrecord with rfl | rfl | rfl <;> exact orderRecord_legible _
  all_goals trivial

theorem workers_share_queue_orders : ∃ s : State Bool,
    (s.table.map Prod.fst, delivered 3 s.published) = ([], 2) ∧
      putItems s.history = s.records.map Prod.fst ∧
      (∀ id, Retried 2 (outcomes id s.history)) ∧
      List.Forall₂ (RowOf orderUuid 2 s.records) (s.table.filter live) (remaining 2 s.history) := by
  obtain ⟨s, hs, hafter⟩ := sharedOrders_enabled
  exact ⟨s, hafter, workers_share_queue (by decide) sharedOrders_puttable hs⟩

theorem workers_deliver_once_orders : ∃ s : State Bool,
    (s.table.map Prod.fst, delivered 3 s.published) = ([], 2) ∧ s.locked.Nodup ∧
      (∀ p ∈ s.published, ∃ record, (p.id, record) ∈ s.records ∧
        p.record = rereadRecord orderUuid record) ∧
      ∀ id, delivered id s.published ≤ 1 + delivered id s.undone := by
  obtain ⟨s, hs, hafter⟩ := sharedOrders_enabled
  exact ⟨s, hafter, workers_deliver_once (by decide) sharedOrders_puttable hs⟩

end Example

end EventSourcery.Sql.OutboxWorkers
