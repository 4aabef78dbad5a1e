import EventSourcery.InMemorySubscriptions

/-!
# Short batches of the in-memory backend

`__next__` looks at the clock after every record, found or not. A batch that is not full says
that the time was up, and that nothing is left only if the time was enough: the loop takes one
wanted record in a turn at most, so from any turn on no more of them may come than turns.
-/
namespace EventSourcery.ShortBatches
open InMemorySubscriptions

variable {E : Type}

section Code
variable (dispatchers : TenantId → Dispatcher E) (filterer : Option (RawEvent → Bool))

/-- `__next__` from a turn of its loop on, with the time that it starts at. For each turn there is
what others write while it sleeps, and what the clock shows then. It has no result when there is
nothing more to say of the clock and the loop goes on. -/
def next (kind : Kind) (batchSize : ℕ) (timelimit start : ℚ) :
    List (List (Write E) × ℚ) → List RecordedRaw → InMemory × ℕ →
      Option (Except Error (List RecordedRaw) × InMemory × ℕ)
  | turns, batch, (s, currentPosition) =>
      if batch.length < batchSize then
        match turns with
        | [] => none
        | (sleep, now) :: turns =>
            match popRecord kind s.storage currentPosition with
            | .error e => some (.error e, s, currentPosition)
            | .ok (record, currentPosition) =>
                let s := performAll dispatchers filterer s sleep
                if timelimit < now - start then
                  some (.ok (batch ++ record.toList), s, currentPosition)
                else
                  next kind batchSize timelimit start turns (batch ++ record.toList)
                    (s, currentPosition)
      else some (.ok batch, s, currentPosition)

end Code

/-- The sleeps that there is time for: the clock is looked at after each of them. -/
def timely (timelimit start : ℚ) : List (List (Write E) × ℚ) → List (List (Write E))
  | [] => []
  | (sleep, now) :: turns =>
      sleep :: if timelimit < now - start then [] else timely timelimit start turns

/-- The loop by the clock is the loop over the sleeps that there is time for. -/
theorem nextLoop_of_next {dispatchers : TenantId → Dispatcher E}
    {filterer : Option (RawEvent → Bool)} {kind : Kind} {batchSize : ℕ} {timelimit start : ℚ}
    {turns : List (List (Write E) × ℚ)} {sleep : List (Write E)} {sleeps : List (List (Write E))}
    {batch : List RecordedRaw} {s : InMemory × ℕ}
    {r : Except Error (List RecordedRaw) × InMemory × ℕ}
    (htimely : timely timelimit start turns = sleep :: sleeps)
    (h : next dispatchers filterer kind batchSize timelimit start turns batch s = some r) :
    nextLoop dispatchers filterer kind batchSize sleep sleeps batch s = r := by
  induction turns generalizing sleep sleeps batch s with
  | nil => cases htimely
  | cons turn turns ih =>
    obtain ⟨sleep', now⟩ := turn
    obtain ⟨rfl, rfl⟩ := List.cons.inj htimely
    obtain ⟨s, n⟩ := s
    unfold next at h
    unfold nextLoop
    dsimp only at h ⊢
    split at h
    · rename_i hmore
      rw [if_pos hmore]
      cases hpop : popRecord kind s.storage n with
      | error e =>
        rw [hpop] at h
        exact Option.some.inj h
      | ok popped =>
        obtain ⟨record, last⟩ := popped
        rw [hpop] at h
        dsimp only at h ⊢
        split at h
        · rename_i hover
          rw [if_pos hover]
          exact Option.some.inj h
        · rename_i hnot
          rw [if_neg hnot]
          cases turns with
          | nil =>
            -- the clock says nothing more, so the batch is full
            unfold next at h
            split at h
            · cases h
            · exact Option.some.inj h
          | cons later turns => exact ih rfl h
    · rename_i hfull
      rw [if_neg hfull]
      exact Option.some.inj h

/-- When the batch is not full, no wanted record is left behind the cursor. -/
def CaughtUp (kind : Kind) (batchSize : ℕ)
    (r : Except Error (List RecordedRaw) × InMemory × ℕ) : Prop :=
  ∀ batch, r.1 = .ok batch → batch.length < batchSize →
    ∀ record ∈ r.2.1.storage.records, (r.2.2 : ℤ) < record.position → kind.wants record = false

/-- How many wanted records there are behind a position. -/
def backlog (kind : Kind) (startFrom : ℕ) (s : InMemory) : ℕ :=
  (s.storage.records.filter fun r => (startFrom : ℤ) < r.position ∧ kind.wants r).length

section Condition
variable (dispatchers : TenantId → Dispatcher E) (filterer : Option (RawEvent → Bool))

/-- The wanted records that a batch has to get: those that there are after the sleeps, or as many
as it holds. -/
def due (kind : Kind) (batchSize startFrom : ℕ) (s : InMemory) (sleeps : List (List (Write E))) :
    ℕ :=
  min batchSize (backlog kind startFrom (performAll dispatchers filterer s sleeps.flatten))

/-- With so many records taken, there are turns for the others that the batch has to get, and
no more of these come after the start of a turn than turns follow it. -/
structure KeepsUp (kind : Kind) (batchSize startFrom taken : ℕ) (s : InMemory)
    (sleeps : List (List (Write E))) : Prop where
  turns : due dispatchers filterer kind batchSize startFrom s sleeps ≤ taken + sleeps.length
  arrivals : ∀ past sleep rest, sleeps = past ++ sleep :: rest →
    due dispatchers filterer kind batchSize startFrom s sleeps ≤
      backlog kind startFrom (performAll dispatchers filterer s past.flatten) + rest.length

end Condition

/-- A statement about every place of a list. -/
theorem forall_split_cons {α : Type} {a : α} {l : List α} {P : List α → List α → Prop} :
    (∀ past b rest, a :: l = past ++ b :: rest → P past rest) ↔
      P [] l ∧ ∀ past b rest, l = past ++ b :: rest → P (a :: past) rest := by
  constructor
  · intro h
    refine ⟨h [] a l rfl, fun past b rest hsplit => h (a :: past) b rest ?_⟩
    rw [hsplit]
    rfl
  · rintro ⟨hfirst, hrest⟩ past b rest hsplit
    cases past with
    | nil =>
      cases hsplit
      exact hfirst
    | cons c past =>
      obtain ⟨rfl, htail⟩ := List.cons.inj hsplit
      exact hrest past b rest htail

section Records
variable {startFrom n : ℕ} {records : List RecordedRaw} {wants : RecordedRaw → Bool}

/-- What is wanted behind the start was passed, or is behind the cursor. -/
theorem filter_drop_eq (h : startFrom ≤ n) :
    (records.drop startFrom).filter wants =
      (passed startFrom n records).filter wants ++ (records.drop n).filter wants := by
  have hsplit : records.drop startFrom = passed startFrom n records ++ records.drop n := by
    conv_lhs => rw [← List.take_append_drop n records]
    rw [List.drop_append, passed]
    rcases le_total n records.length with hn | hn
    · rw [List.length_take_of_le hn, Nat.sub_eq_zero_of_le h, List.drop_zero]
    · rw [List.drop_eq_nil_of_le hn, List.drop_nil]
  rw [hsplit, List.filter_append]

theorem popAny_none {s : Storage} (hindexed : Indexed s.records) {next : ℕ}
    (h : popAny s n = .ok (none, next)) : s.records.length ≤ next := by
  rw [popAny_eq hindexed] at h
  obtain ⟨hnone, hnext⟩ := Prod.mk.inj (Except.ok.inj h)
  have hlength := List.getElem?_eq_none_iff.1 hnone
  rw [if_neg (Nat.not_lt.2 hlength)] at hnext
  exact hnext ▸ hlength

theorem popWanted_none {s : Storage} (hindexed : Indexed s.records) {next : ℕ}
    (h : popWanted wants s n = .ok (none, next)) : s.records.length ≤ next := by
  fun_induction popWanted wants s n with
  | case1 n e hpop => cases h
  | case2 n last hpop =>
    cases h
    exact popAny_none hindexed hpop
  | case3 n record last hpop hwants => cases h
  | case4 n record last hpop hwants ih => exact ih h

/-- Without a record the cursor is at the end. -/
theorem popRecord_none (kind : Kind) {s : Storage} (hindexed : Indexed s.records) {next : ℕ}
    (h : popRecord kind s n = .ok (none, next)) : s.records.length ≤ next := by
  cases kind with
  | all => exact popAny_none hindexed h
  | toCategory category => exact popWanted_none hindexed h
  | toEventTypes types => exact popWanted_none hindexed h

end Records

section Turns
variable {dispatchers : TenantId → Dispatcher E} {filterer : Option (RawEvent → Bool)}
  {kind : Kind} {batchSize startFrom n : ℕ} {s : InMemory} {batch : List RecordedRaw}

theorem performAll_append (s : InMemory) (writes writes' : List (Write E)) :
    performAll dispatchers filterer s (writes ++ writes') =
      performAll dispatchers filterer (performAll dispatchers filterer s writes) writes' := by
  induction writes generalizing s with
  | nil => rfl
  | cons write writes ih => exact ih (perform dispatchers filterer s write)

theorem backlog_eq (h : Indexed s.storage.records) (kind : Kind) (startFrom : ℕ) :
    backlog kind startFrom s = ((s.storage.records.drop startFrom).filter kind.wants).length := by
  rw [backlog, h.filter_drop]

/-- What was taken, and what is left. -/
theorem backlog_split (h : Indexed s.storage.records) (hs : Reaches startFrom n s.storage.records)
    (hbatch : (passed startFrom n s.storage.records).filter kind.wants = batch) :
    backlog kind startFrom s =
      batch.length + ((s.storage.records.drop n).filter kind.wants).length := by
  rw [backlog_eq h, filter_drop_eq hs.start, hbatch, List.length_append]

theorem backlog_mono (h : Indexed s.storage.records) (kind : Kind) (startFrom : ℕ)
    (writes : List (Write E)) :
    backlog kind startFrom s ≤
      backlog kind startFrom (performAll dispatchers filterer s writes) := by
  have hextends := performAll_extends dispatchers filterer h writes
  rw [backlog_eq h, backlog_eq hextends.indexed]
  exact ((hextends.isPrefix.drop startFrom).filter kind.wants).length_le

/-- A batch has caught up when it is full, or has all that there is. -/
theorem caughtUp_iff (h : Indexed s.storage.records) (hs : Reaches startFrom n s.storage.records)
    (hbatch : (passed startFrom n s.storage.records).filter kind.wants = batch) :
    CaughtUp kind batchSize (.ok batch, s, n) ↔
      min batchSize (backlog kind startFrom s) ≤ batch.length := by
  have hnone : (∀ record ∈ s.storage.records, (n : ℤ) < record.position →
      kind.wants record = false) ↔ (s.storage.records.drop n).filter kind.wants = [] := by
    rw [← h.filter_drop, List.filter_eq_nil_iff]
    simp
  rw [backlog_split h hs hbatch, min_le_iff]
  constructor
  · intro hcaught
    by_cases hfull : batchSize ≤ batch.length
    · exact .inl hfull
    · have hrest := hnone.1 (hcaught batch rfl (Nat.lt_of_not_le hfull))
      rw [hrest]
      exact .inr le_rfl
  · rintro hleft _ ⟨⟩ hshort
    rw [hnone, ← List.length_eq_zero_iff]
    omega

/-- A turn takes a record if there is one. -/
theorem length_of_pop (h : Indexed s.storage.records) (hs : Reaches startFrom n s.storage.records)
    (hbatch : (passed startFrom n s.storage.records).filter kind.wants = batch)
    {record : Option RecordedRaw} {next : ℕ}
    (hpop : popRecord kind s.storage n = .ok (record, next)) :
    (batch ++ record.toList).length = min (batch.length + 1) (backlog kind startFrom s) := by
  obtain ⟨record', next', heq, hreaches, hpassed⟩ := popRecord_pops kind h hs
  rw [hpop] at heq
  cases heq
  rw [hbatch] at hpassed
  have hsplit := backlog_split h hreaches hpassed
  cases record with
  | none =>
    have hend := popRecord_none kind h hpop
    rw [List.drop_eq_nil_of_le hend, List.filter_nil, List.length_nil] at hsplit
    simp only [Option.toList_none, List.append_nil] at hsplit ⊢
    omega
  | some record =>
    simp only [Option.toList_some, List.length_append, List.length_singleton] at hsplit ⊢
    omega

theorem due_cons (s : InMemory) (sleep : List (Write E)) (sleeps : List (List (Write E))) :
    due dispatchers filterer kind batchSize startFrom s (sleep :: sleeps) =
      due dispatchers filterer kind batchSize startFrom
        (performAll dispatchers filterer s sleep) sleeps := by
  rw [due, List.flatten_cons, performAll_append]
  rfl

/-- A full batch needs no more turns. -/
theorem keepsUp_of_full (h : Indexed s.storage.records) {taken : ℕ} (hfull : batchSize ≤ taken)
    (hthere : taken ≤ backlog kind startFrom s) (sleeps : List (List (Write E))) :
    KeepsUp dispatchers filterer kind batchSize startFrom taken s sleeps := by
  have hgoal : due dispatchers filterer kind batchSize startFrom s sleeps ≤ taken :=
    (min_le_left _ _).trans hfull
  refine ⟨hgoal.trans (Nat.le_add_right _ _), fun past sleep rest _ => ?_⟩
  exact (hgoal.trans (hthere.trans (backlog_mono h kind startFrom past.flatten))).trans
    (Nat.le_add_right _ _)

theorem keepsUp_iff {taken : ℕ} {sleeps : List (List (Write E))} :
    KeepsUp dispatchers filterer kind batchSize startFrom taken s sleeps ↔
      due dispatchers filterer kind batchSize startFrom s sleeps ≤ taken + sleeps.length ∧
        ∀ past sleep rest, sleeps = past ++ sleep :: rest →
          due dispatchers filterer kind batchSize startFrom s sleeps ≤
            backlog kind startFrom (performAll dispatchers filterer s past.flatten) +
              rest.length :=
  ⟨fun h => ⟨h.turns, h.arrivals⟩, fun h => ⟨h.1, h.2⟩⟩

theorem keepsUp_last {taken : ℕ} {sleep : List (Write E)} :
    KeepsUp dispatchers filterer kind batchSize startFrom taken s [sleep] ↔
      min batchSize (backlog kind startFrom (performAll dispatchers filterer s sleep)) ≤
        min (taken + 1) (backlog kind startFrom s) := by
  rw [keepsUp_iff, forall_split_cons, due, List.flatten_singleton, le_min_iff]
  simp [performAll]

/-- A turn takes one more record, if there is one. -/
theorem keepsUp_cons {taken : ℕ} {sleep : List (Write E)} {sleeps : List (List (Write E))} :
    KeepsUp dispatchers filterer kind batchSize startFrom taken s (sleep :: sleeps) ↔
      KeepsUp dispatchers filterer kind batchSize startFrom
        (min (taken + 1) (backlog kind startFrom s)) (performAll dispatchers filterer s sleep)
        sleeps := by
  rw [keepsUp_iff, keepsUp_iff, forall_split_cons, due_cons]
  simp only [List.flatten_cons, performAll_append, List.flatten_nil, performAll, List.length_cons]
  constructor
  · rintro ⟨hturns, hfirst, hrest⟩
    exact ⟨by omega, hrest⟩
  · rintro ⟨hturns, hrest⟩
    exact ⟨by omega, by omega, hrest⟩

/-- A batch that is full is done with: it has caught up, and keeps up with any turns. -/
theorem caughtUp_of_full (h : Indexed s.storage.records)
    (hs : Reaches startFrom n s.storage.records)
    (hbatch : (passed startFrom n s.storage.records).filter kind.wants = batch)
    (hfull : ¬ batch.length < batchSize) (sleeps : List (List (Write E))) :
    CaughtUp kind batchSize (.ok batch, s, n) ↔
      KeepsUp dispatchers filterer kind batchSize startFrom batch.length s sleeps := by
  rw [Nat.not_lt] at hfull
  have hthere := backlog_split h hs hbatch
  exact iff_of_true ((caughtUp_iff h hs hbatch).2 ((min_le_left _ _).trans hfull))
    (keepsUp_of_full h hfull (by omega) sleeps)

/-- From any turn on, the batch catches up if and only if the turns that are left are enough. -/
theorem next_caughtUp {timelimit start : ℚ} {turns : List (List (Write E) × ℚ)}
    {r : Except Error (List RecordedRaw) × InMemory × ℕ} (h : Indexed s.storage.records)
    (hs : Reaches startFrom n s.storage.records)
    (hbatch : (passed startFrom n s.storage.records).filter kind.wants = batch)
    (hnext : next dispatchers filterer kind batchSize timelimit start turns batch (s, n) =
      some r) :
    CaughtUp kind batchSize r ↔ KeepsUp dispatchers filterer kind batchSize startFrom batch.length
      s (timely timelimit start turns) := by
  induction turns generalizing s n batch with
  | nil =>
    unfold next at hnext
    split at hnext
    · cases hnext
    · rename_i hfull
      cases hnext
      exact caughtUp_of_full h hs hbatch hfull _
  | cons turn turns ih =>
    obtain ⟨sleep, now⟩ := turn
    unfold next at hnext
    dsimp only at hnext
    split at hnext
    · obtain ⟨record, last, hpop, hturn⟩ :=
        turn_advances dispatchers filterer kind sleep (s := (s, n)) h hs
      have htaken := length_of_pop h hs hbatch hpop
      have hdelivered := hturn.delivered
      rw [hbatch] at hdelivered
      dsimp only at hpop
      rw [hpop] at hnext
      dsimp only at hnext
      split at hnext
      · rename_i hover
        cases hnext
        rw [caughtUp_iff hturn.records.indexed hturn.reaches hdelivered, htaken, timely,
          if_pos hover, keepsUp_last]
      · rename_i hnot
        rw [ih hturn.records.indexed hturn.reaches hdelivered hnext, timely, if_neg hnot,
          keepsUp_cons, htaken]
    · rename_i hfull
      cases hnext
      exact caughtUp_of_full h hs hbatch hfull _

theorem performAll_quiet {sleeps : List (List (Write E))} (hquiet : ∀ sleep ∈ sleeps, sleep = []) :
    performAll dispatchers filterer s sleeps.flatten = s := by
  rw [List.flatten_eq_nil_iff.2 hquiet, performAll]

/-- When nobody writes, there have to be as many turns as records. -/
theorem keepsUp_quiet {sleeps : List (List (Write E))} (hquiet : ∀ sleep ∈ sleeps, sleep = []) :
    KeepsUp dispatchers filterer kind batchSize startFrom 0 s sleeps ↔
      min batchSize (backlog kind startFrom s) ≤ sleeps.length := by
  have hdue : due dispatchers filterer kind batchSize startFrom s sleeps =
      min batchSize (backlog kind startFrom s) := by
    rw [due, performAll_quiet hquiet]
  rw [keepsUp_iff, hdue, Nat.zero_add]
  refine and_iff_left fun past sleep rest hsplit => ?_
  have hpast : ∀ sleep ∈ past, sleep = [] := fun sleep hsleep =>
    hquiet sleep (hsplit ▸ List.mem_append_left _ hsleep)
  rw [performAll_quiet hpast]
  exact (min_le_right _ _).trans (Nat.le_add_right _ _)

/-- A batch that is not full has left nothing, if and only if the time was enough for the records
that are wanted behind the cursor, or for a full batch; also for those that others add while
`__next__` sleeps, from when they come. -/
theorem short_batch_iff {timelimit start : ℚ} {turns : List (List (Write E) × ℚ)}
    {currentPosition : ℕ} {r : Except Error (List RecordedRaw) × InMemory × ℕ}
    (h : Indexed s.storage.records)
    (hnext : next dispatchers filterer kind batchSize timelimit start turns []
      (s, currentPosition) = some r) :
    (CaughtUp kind batchSize r ↔
        KeepsUp dispatchers filterer kind batchSize currentPosition 0 s
          (timely timelimit start turns)) ∧
      ((∀ sleep ∈ timely timelimit start turns, sleep = []) →
        (CaughtUp kind batchSize r ↔
          min batchSize (backlog kind currentPosition s) ≤
            (timely timelimit start turns).length)) := by
  have hstart : Reaches currentPosition currentPosition s.storage.records := ⟨le_rfl, .inl rfl⟩
  have hiff := next_caughtUp h hstart (by rw [passed_self, List.filter_nil]) hnext
  exact ⟨hiff, fun hquiet => hiff.trans (keepsUp_quiet hquiet)⟩

end Turns

section Example

/-- Two events of an order are stored. -/
def stored : InMemory :=
  performAll (fun _ => Tenants.plainDispatcher) none {}
    [.call defaultTenant (.appendEvents ⟨(), 1, 0⟩ [⟨(), 2, 0⟩] Tenants.order (.version 0)) []]

theorem indexed_stored : Indexed stored.storage.records :=
  (performAll_extends _ _ indexed_nil _).indexed

/-- A batch of ten at most, within one second. -/
abbrev nextOfStored (turns : List (List (Write Unit) × ℚ)) :=
  next (fun _ => Tenants.plainDispatcher) none .all 10 1 0 turns [] (stored, 0)

/-- The time is up after the second turn. -/
theorem short_batch_iff_stored :
    ∃ r, nextOfStored [([], 1 / 2), ([], 3 / 2)] = some r ∧ CaughtUp .all 10 r := by
  have hgoes : ¬ (1 : ℚ) < 1 / 2 - 0 := by norm_num
  have hover : (1 : ℚ) < 3 / 2 - 0 := by norm_num
  have hnext : ∃ r, nextOfStored [([], 1 / 2), ([], 3 / 2)] = some r := by
    refine ⟨(.ok stored.storage.records, stored, 2), ?_⟩
    unfold nextOfStored next
    rw [if_pos (by decide)]
    change (if (1 : ℚ) < 1 / 2 - 0 then _ else _) = _
    rw [if_neg hgoes]
    unfold next
    rw [if_pos (by decide)]
    change (if (1 : ℚ) < 3 / 2 - 0 then _ else _) = _
    rw [if_pos hover]
    rfl
  obtain ⟨r, hnext⟩ := hnext
  refine ⟨r, hnext, (short_batch_iff indexed_stored hnext).2 ?_ |>.2 ?_⟩
  · simp [timely]
  · simp only [timely, hgoes, hover, if_true, if_false]
    decide

/-- The time is up after the first turn: one of two records is delivered. -/
theorem short_batch_misses :
    ∃ r, nextOfStored [([], 3 / 2)] = some r ∧
      (r.1.toOption.map fun batch => batch.map (·.position)) = some [1] ∧
      (r.2.1.storage.records.map (·.position), r.2.2) = ([1, 2], 1) ∧
      ¬ CaughtUp .all 10 r := by
  have hover : (1 : ℚ) < 3 / 2 - 0 := by norm_num
  refine ⟨(.ok (stored.storage.records.take 1), stored, 1), ?_, by decide, by decide, ?_⟩
  · unfold nextOfStored next
    rw [if_pos (by decide)]
    change (if (1 : ℚ) < 3 / 2 - 0 then _ else _) = _
    rw [if_pos hover]
    rfl
  · intro hcaught
    have hsecond : ∃ record ∈ stored.storage.records, (1 : ℤ) < record.position := by decide
    obtain ⟨record, hrecord, hbehind⟩ := hsecond
    exact Bool.noConfusion (hcaught _ rfl (by decide) record hrecord hbehind)

end Example

end EventSourcery.ShortBatches
