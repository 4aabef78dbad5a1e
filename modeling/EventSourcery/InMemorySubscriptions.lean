import EventSourcery.InMemoryTenants

/-!
# Subscriptions of the in-memory backend

A subscription keeps one number, which it compares with positions and uses as an index into
the records. The two agree, since the record at an index has the position after it: an
append numbers its records from the last position on, and nothing takes a record away.
Listeners may write while they are told of an append; all the records of the append are
stored by then. Others may write while a subscription sleeps.
-/
namespace EventSourcery.InMemorySubscriptions
open EventStore Tenants InMemoryStorageStrategy

variable {E : Type}

/-- A call of a tenant, with the calls that the listeners make when it is an append that
gets as far as them. -/
inductive Write (E : Type) where
  | call (tenantId : TenantId) (call : Call E) (reactions : List (Write E))

section Writes
variable (dispatchers : TenantId → Dispatcher E) (filterer : Option (RawEvent → Bool))

mutual

def perform (s : InMemory) : Write E → InMemory
  | .call u call reactions =>
      match request (dispatchers u).serde call with
      | .error _ => s
      | .ok (.insert streamId versioning events) =>
          match (InMemoryStorageStrategy.mk (dispatchers u) filterer u).storeRecords streamId
              versioning events s with
          | (.error _, s) => s
          | (.ok _, s) => performAll s reactions
      | .ok r => ((InMemoryTenants.strategies dispatchers filterer u).handle s r).2

def performAll (s : InMemory) : List (Write E) → InMemory
  | [] => s
  | write :: writes => performAll (perform s write) writes

end

/-- Without reactions, this is what a call does to the backend. -/
theorem perform_quiet (s : InMemory) (u : TenantId) (call : Call E) :
    perform dispatchers filterer s (.call u call []) =
      (callStep (InMemoryTenants.stores dispatchers filterer) s (u, call)).2 := by
  cases hrequest : request (dispatchers u).serde call with
  | error e =>
    rw [InMemoryTenants.stores_of_error hrequest]
    simp only [perform, hrequest]
  | ok r =>
    cases r with
    | insert streamId versioning events =>
      rw [InMemoryTenants.stores_of_insert hrequest]
      simp only [perform, hrequest]
      rcases (InMemoryStorageStrategy.mk (dispatchers u) filterer u).storeRecords streamId
        versioning events s with ⟨_ | _, s'⟩ <;> rfl
    | _ =>
      rw [InMemoryTenants.stores_of_ok hrequest]
      simp only [perform, hrequest]

end Writes

/-! ## Positions -/

/-- The position of a record is one more than its index. -/
def Indexed (records : List RecordedRaw) : Prop :=
  ∀ (i : ℕ) (record : RecordedRaw), records[i]? = some record → record.position = (i : ℤ) + 1

theorem indexed_nil : Indexed [] := by simp [Indexed]

theorem Indexed.currentPosition {s : Storage} (h : Indexed s.records) :
    s.currentPosition.getD 0 = (s.records.length : ℤ) := by
  unfold Storage.currentPosition
  cases hlast : s.records.getLast? with
  | none =>
    rw [List.getLast?_eq_none_iff] at hlast
    simp [hlast]
  | some record =>
    have hne : s.records ≠ [] := by
      intro hnil
      simp [hnil] at hlast
    have hlength := List.length_pos_iff.2 hne
    rw [List.getLast?_eq_getElem?] at hlast
    have hindex : ((s.records.length - 1 : ℕ) : ℤ) + 1 = s.records.length := by omega
    exact (h _ record hlast).trans hindex

/-- The records of an append are numbered on. -/
theorem Indexed.append {records : List RecordedRaw} (h : Indexed records)
    (strategy : InMemoryStorageStrategy E) (events : List RawEvent) :
    Indexed (records ++ strategy.recordsFrom ((records.length : ℤ) + 1) events) := by
  induction events generalizing records with
  | nil => simpa [recordsFrom] using h
  | cons raw events ih =>
    have hfirst : Indexed (records ++ [⟨raw, (records.length : ℤ) + 1, strategy.tenantId⟩]) := by
      intro i record hrecord
      rw [List.getElem?_append] at hrecord
      split at hrecord
      · exact h i record hrecord
      · rename_i hi
        rw [List.getElem?_singleton] at hrecord
        split at hrecord
        · cases hrecord
          change (records.length : ℤ) + 1 = i + 1
          omega
        · cases hrecord
    have hrest := ih hfirst
    simpa [recordsFrom, List.append_assoc] using hrest

/-- The records behind an index are those with later positions. -/
theorem Indexed.filter_drop {records : List RecordedRaw} (h : Indexed records) (startFrom : ℕ)
    (wants : RecordedRaw → Bool) :
    records.filter (fun r => (startFrom : ℤ) < r.position ∧ wants r) =
      (records.drop startFrom).filter wants := by
  have hbefore : (records.take startFrom).filter
      (fun r => (startFrom : ℤ) < r.position ∧ wants r) = [] := by
    rw [List.filter_eq_nil_iff]
    intro record hrecord
    obtain ⟨i, hi⟩ := List.mem_iff_getElem?.1 hrecord
    rw [List.getElem?_take] at hi
    split at hi
    · have hposition := h i record hi
      simp only [hposition, decide_eq_true_eq, not_and]
      omega
    · cases hi
  have hbehind : ∀ record ∈ records.drop startFrom,
      decide ((startFrom : ℤ) < record.position ∧ wants record) = wants record := by
    intro record hrecord
    obtain ⟨i, hi⟩ := List.mem_iff_getElem?.1 hrecord
    rw [List.getElem?_drop] at hi
    have hlater : (startFrom : ℤ) < record.position := by
      rw [h _ record hi]
      push_cast
      omega
    simp [hlater]
  conv_lhs => rw [← List.take_append_drop startFrom records]
  rw [List.filter_append, hbefore, List.nil_append]
  exact List.filter_congr hbehind

/-- Records are added behind those that are there, and get the next positions. -/
structure Extends (records records' : List RecordedRaw) : Prop where
  isPrefix : records <+: records'
  indexed : Indexed records'

theorem Extends.refl {records : List RecordedRaw} (h : Indexed records) :
    Extends records records := ⟨List.prefix_rfl, h⟩

theorem Extends.trans {records records' records'' : List RecordedRaw}
    (h : Extends records records') (h' : Extends records' records'') : Extends records records'' :=
  ⟨h.isPrefix.trans h'.isPrefix, h'.indexed⟩

theorem appendEach_records (records : List RecordedRaw) (s : Storage) :
    (Storage.appendEach records s).2.records = s.records := by
  induction records generalizing s with
  | nil => rfl
  | cons record records ih =>
    unfold Storage.appendEach
    split
    · rfl
    · rw [ih]

theorem ensureStream_records (streamId : StreamId) (versioning : Versioning) (s : Storage) :
    (ensureStream streamId versioning s).2.records = s.records := by
  simp only [ensureStream, ensured]
  split <;> rfl

/-- An insert that gets past the check of the version adds its records, even if it raises then. -/
theorem storeRecords_records (strategy : InMemoryStorageStrategy E) (streamId : StreamId)
    (versioning : Versioning) (events : List RawEvent) (s : InMemory) :
    let r := strategy.storeRecords streamId versioning events s
    r.2.storage.records = s.storage.records ∨
      r.2.storage.records = s.storage.records ++
        strategy.recordsFrom (s.storage.currentPosition.getD 0 + 1) events := by
  have hensured := ensureStream_records streamId versioning s.storage
  unfold storeRecords
  dsimp only
  revert hensured
  rcases ensureStream streamId versioning s.storage with ⟨_ | _, storage⟩
  · exact .inl
  · intro hensured
    have happended := appendEach_records
      (strategy.recordsFrom (s.storage.currentPosition.getD 0 + 1) events)
      { storage with
        records := storage.records ++
          strategy.recordsFrom (s.storage.currentPosition.getD 0 + 1) events }
    change storage.records = s.storage.records at hensured
    rw [hensured] at happended
    dsimp only [Storage.append]
    rw [hensured]
    revert happended
    rcases Storage.appendEach _ _ with ⟨_ | _, storage'⟩ <;> exact .inr

theorem storeRecords_extends {s : InMemory} (h : Indexed s.storage.records)
    (strategy : InMemoryStorageStrategy E) (streamId : StreamId) (versioning : Versioning)
    (events : List RawEvent) :
    Extends s.storage.records
      (strategy.storeRecords streamId versioning events s).2.storage.records := by
  rcases storeRecords_records strategy streamId versioning events s with hsame | hadded
  · rw [hsame]
    exact .refl h
  · rw [hadded, h.currentPosition]
    exact ⟨List.prefix_append _ _, h.append strategy events⟩

section Writes
variable (dispatchers : TenantId → Dispatcher E) (filterer : Option (RawEvent → Bool))

mutual

/-- Whatever is written, the records are extended. -/
theorem perform_extends {s : InMemory} (h : Indexed s.storage.records) :
    (write : Write E) →
      Extends s.storage.records (perform dispatchers filterer s write).storage.records
  | .call u call reactions => by
    rw [perform]
    cases request (dispatchers u).serde call with
    | error e => exact .refl h
    | ok r =>
      cases r with
      | fetch streamId start stop => exact .refl h
      | snapshot raw => exact .refl h
      | delete streamId =>
        have hsame : ((InMemoryTenants.strategies dispatchers filterer u).handle s
            (.delete streamId)).2.storage.records = s.storage.records :=
          InMemoryStorageStrategy.deleteStream_records streamId s
        rw [hsame]
        exact .refl h
      | insert streamId versioning events =>
        have hstored := storeRecords_extends h (.mk (dispatchers u) filterer u) streamId versioning
          events
        dsimp only
        revert hstored
        rcases (InMemoryStorageStrategy.mk (dispatchers u) filterer u).storeRecords streamId
          versioning events s with ⟨_ | _, s'⟩
        · exact id
        · exact fun hstored => hstored.trans (performAll_extends hstored.indexed reactions)

theorem performAll_extends {s : InMemory} (h : Indexed s.storage.records) :
    (writes : List (Write E)) →
      Extends s.storage.records (performAll dispatchers filterer s writes).storage.records
  | [] => .refl h
  | write :: writes => by
    have hfirst := perform_extends h write
    rw [performAll]
    exact hfirst.trans (performAll_extends hfirst.indexed writes)

end

end Writes

/-! ## Subscriptions -/

/-- The three kinds of subscriptions. -/
inductive Kind where
  | all
  | toCategory (category : String)
  | toEventTypes (types : List String)

def Kind.wants : Kind → RecordedRaw → Bool
  | .all, _ => true
  | .toCategory category, record => record.entry.streamId.category = some category
  | .toEventTypes types, record => types.contains record.entry.name

/-- `InMemorySubscription._pop_record`, with the current position after it. -/
def popAny (s : Storage) (currentPosition : ℕ) : Except Error (Option RecordedRaw × ℕ) :=
  if s.currentPosition.getD 0 ≤ currentPosition then .ok (none, currentPosition)
  else
    match s.records[currentPosition]? with
    | none => .error .indexError
    | some record => .ok (some record, currentPosition + 1)

theorem popAny_some {s : Storage} {currentPosition next : ℕ} {record : RecordedRaw}
    (h : popAny s currentPosition = .ok (some record, next)) :
    currentPosition < s.records.length ∧ next = currentPosition + 1 := by
  unfold popAny at h
  split at h
  · cases h
  · split at h
    · cases h
    · rename_i hrecord
      cases h
      exact ⟨(List.getElem?_eq_some_iff.1 hrecord).1, rfl⟩

/-- `_pop_record` of the subscriptions that filter. -/
def popWanted (wants : RecordedRaw → Bool) (s : Storage) (currentPosition : ℕ) :
    Except Error (Option RecordedRaw × ℕ) :=
  match _h : popAny s currentPosition with
  | .error e => .error e
  | .ok (none, next) => .ok (none, next)
  | .ok (some record, next) =>
      if wants record then .ok (some record, next) else popWanted wants s next
termination_by s.records.length - currentPosition
decreasing_by
  have hpopped := popAny_some ‹_›
  omega

def popRecord (kind : Kind) (s : Storage) (currentPosition : ℕ) :
    Except Error (Option RecordedRaw × ℕ) :=
  match kind with
  | .all => popAny s currentPosition
  | kind => popWanted kind.wants s currentPosition

section Code
variable (dispatchers : TenantId → Dispatcher E) (filterer : Option (RawEvent → Bool))

/-- The loop of `__next__`. While it sleeps others write, and the last sleep is the one after
which the time is up. -/
def nextLoop (kind : Kind) (batchSize : ℕ) :
    List (Write E) → List (List (Write E)) → List RecordedRaw → InMemory × ℕ →
      Except Error (List RecordedRaw) × InMemory × ℕ
  | sleep, sleeps, batch, (s, currentPosition) =>
      if batch.length < batchSize then
        match popRecord kind s.storage currentPosition with
        | .error e => (.error e, s, currentPosition)
        | .ok (record, currentPosition) =>
            let s := performAll dispatchers filterer s sleep
            match sleeps with
            | [] => (.ok (batch ++ record.toList), s, currentPosition)
            | sleep :: sleeps =>
                nextLoop kind batchSize sleep sleeps (batch ++ record.toList) (s, currentPosition)
      else (.ok batch, s, currentPosition)

/-- What happens to a backend with one subscription. -/
inductive Activity (E : Type) where
  | write (write : Write E)
  | next (sleep : List (Write E)) (sleeps : List (List (Write E)))

/-- An activity answers with the batch that it delivers, if it is `__next__`. -/
def step (kind : Kind) (batchSize : ℕ) (s : InMemory × ℕ) :
    Activity E → Except Error (List RecordedRaw) × InMemory × ℕ
  | .write write => (.ok [], perform dispatchers filterer s.1 write, s.2)
  | .next sleep sleeps => nextLoop dispatchers filterer kind batchSize sleep sleeps [] s

end Code

section Lemmas
variable {startFrom n : ℕ} {records records' : List RecordedRaw} {wants : RecordedRaw → Bool}

/-- The records between the start and the current position. -/
def passed (startFrom n : ℕ) (records : List RecordedRaw) : List RecordedRaw :=
  (records.take n).drop startFrom

/-- A current position is beyond the records only while it waits at its start. -/
structure Reaches (startFrom n : ℕ) (records : List RecordedRaw) : Prop where
  start : startFrom ≤ n
  records : n = startFrom ∨ n ≤ records.length

theorem passed_self (startFrom : ℕ) (records : List RecordedRaw) :
    passed startFrom startFrom records = [] :=
  List.drop_eq_nil_of_le (List.length_take_le _ _)

theorem Reaches.mono (h : Reaches startFrom n records) (hgrown : records <+: records') :
    Reaches startFrom n records' :=
  ⟨h.start, h.records.imp_right fun hle => hle.trans hgrown.length_le⟩

/-- New records are not among those that were passed. -/
theorem Reaches.passed_eq (h : Reaches startFrom n records) (hgrown : records <+: records') :
    passed startFrom n records' = passed startFrom n records := by
  obtain ⟨new, rfl⟩ := hgrown
  rcases h.records with rfl | hle
  · rw [passed_self, passed_self]
  · rw [passed, List.take_append_of_le_length hle]
    rfl

theorem Reaches.passed_succ {record : RecordedRaw} (h : Reaches startFrom n records)
    (hrecord : records[n]? = some record) :
    passed startFrom (n + 1) records = passed startFrom n records ++ [record] := by
  have hlength := (List.getElem?_eq_some_iff.1 hrecord).1
  have hstart := h.start
  unfold passed
  rw [List.take_add_one, hrecord, Option.toList_some, List.drop_append_of_le_length]
  rw [List.length_take]
  omega

theorem Reaches.succ {record : RecordedRaw} (h : Reaches startFrom n records)
    (hrecord : records[n]? = some record) : Reaches startFrom (n + 1) records := by
  have hlength := (List.getElem?_eq_some_iff.1 hrecord).1
  exact ⟨h.start.trans (Nat.le_succ n), .inr hlength⟩

/-- The position of the last record and the index of the next one come to the same. -/
theorem popAny_eq {s : Storage} (h : Indexed s.records) (n : ℕ) :
    popAny s n = .ok (s.records[n]?, if n < s.records.length then n + 1 else n) := by
  unfold popAny
  rw [h.currentPosition]
  by_cases hn : n < s.records.length
  · have hnot : ¬ ((s.records.length : ℤ) ≤ n) := by omega
    simp only [if_neg hnot, if_pos hn, List.getElem?_eq_getElem hn]
  · have hle : (s.records.length : ℤ) ≤ n := by omega
    simp only [if_pos hle, if_neg hn, List.getElem?_eq_none (Nat.le_of_not_lt hn)]

/-- What a popped record, or none, adds to those that were passed and are wanted. -/
def Pops (wants : RecordedRaw → Bool) (startFrom n : ℕ) (records : List RecordedRaw)
    (r : Except Error (Option RecordedRaw × ℕ)) : Prop :=
  ∃ record next, r = .ok (record, next) ∧ Reaches startFrom next records ∧
    (passed startFrom next records).filter wants =
      (passed startFrom n records).filter wants ++ record.toList

theorem popAny_pops {s : Storage} (h : Indexed s.records) (hn : Reaches startFrom n s.records) :
    Pops (fun _ => true) startFrom n s.records (popAny s n) := by
  rw [popAny_eq h]
  cases hrecord : s.records[n]? with
  | none =>
    have hlength : ¬ n < s.records.length := by
      rw [List.getElem?_eq_none_iff] at hrecord
      omega
    rw [if_neg hlength]
    exact ⟨none, n, rfl, hn, by simp⟩
  | some record =>
    rw [if_pos (List.getElem?_eq_some_iff.1 hrecord).1]
    exact ⟨some record, n + 1, rfl, hn.succ hrecord, by simp [hn.passed_succ hrecord]⟩

theorem Pops.popAny {s : Storage} {record : Option RecordedRaw} {next : ℕ}
    (h : Indexed s.records) (hn : Reaches startFrom n s.records)
    (hpop : popAny s n = .ok (record, next)) : Reaches startFrom next s.records ∧
      passed startFrom next s.records = passed startFrom n s.records ++ record.toList := by
  obtain ⟨record', next', heq, hreaches, hpassed⟩ := popAny_pops h hn
  rw [hpop] at heq
  cases heq
  exact ⟨hreaches, by simpa using hpassed⟩

/-- The loop skips what is not wanted. -/
theorem popWanted_pops {s : Storage} (h : Indexed s.records) (hn : Reaches startFrom n s.records) :
    Pops wants startFrom n s.records (popWanted wants s n) := by
  fun_induction popWanted wants s n with
  | case1 n e hpop =>
    rw [popAny_eq h] at hpop
    cases hpop
  | case2 n next hpop =>
    obtain ⟨hreaches, hpassed⟩ := Pops.popAny h hn hpop
    exact ⟨none, next, rfl, hreaches, by simp [hpassed]⟩
  | case3 n record next hpop hwants =>
    obtain ⟨hreaches, hpassed⟩ := Pops.popAny h hn hpop
    exact ⟨some record, next, rfl, hreaches, by simp [hpassed, hwants]⟩
  | case4 n record next hpop hwants ih =>
    obtain ⟨hreaches, hpassed⟩ := Pops.popAny h hn hpop
    obtain ⟨later, last, hlater, hlast, hrest⟩ := ih hreaches
    refine ⟨later, last, hlater, hlast, ?_⟩
    rw [hrest, hpassed]
    simp [hwants]

theorem popRecord_pops (kind : Kind) {s : Storage} (h : Indexed s.records)
    (hn : Reaches startFrom n s.records) :
    Pops kind.wants startFrom n s.records (popRecord kind s n) := by
  cases kind with
  | all => exact popAny_pops h hn
  | toCategory category => exact popWanted_pops h hn
  | toEventTypes types => exact popWanted_pops h hn

end Lemmas

section Runs
variable (dispatchers : TenantId → Dispatcher E) (filterer : Option (RawEvent → Bool))
  {startFrom : ℕ}

/-- From one state to another the records have grown, and what was wanted and passed has been
delivered. -/
structure Advances (kind : Kind) (startFrom : ℕ) (s s' : InMemory × ℕ)
    (delivered : List RecordedRaw) : Prop where
  records : Extends s.1.storage.records s'.1.storage.records
  reaches : Reaches startFrom s'.2 s'.1.storage.records
  delivered : (passed startFrom s'.2 s'.1.storage.records).filter kind.wants =
    (passed startFrom s.2 s.1.storage.records).filter kind.wants ++ delivered

variable {kind : Kind} {s s' s'' : InMemory × ℕ}

theorem Advances.trans {delivered delivered' : List RecordedRaw}
    (h : Advances kind startFrom s s' delivered) (h' : Advances kind startFrom s' s'' delivered') :
    Advances kind startFrom s s'' (delivered ++ delivered') where
  records := h.records.trans h'.records
  reaches := h'.reaches
  delivered := by rw [h'.delivered, h.delivered, List.append_assoc]

/-- Writes deliver nothing. -/
theorem advances_of_extends {after : InMemory} (hs : Reaches startFrom s.2 s.1.storage.records)
    (h : Extends s.1.storage.records after.storage.records) :
    Advances kind startFrom s (after, s.2) [] where
  records := h
  reaches := hs.mono h.isPrefix
  delivered := by rw [hs.passed_eq h.isPrefix, List.append_nil]

theorem Advances.refl (h : Indexed s.1.storage.records)
    (hs : Reaches startFrom s.2 s.1.storage.records) : Advances kind startFrom s s [] :=
  advances_of_extends hs (.refl h)

/-- One turn of the loop of `__next__`. -/
theorem turn_advances (kind : Kind) (sleep : List (Write E)) (h : Indexed s.1.storage.records)
    (hs : Reaches startFrom s.2 s.1.storage.records) :
    ∃ record next, popRecord kind s.1.storage s.2 = .ok (record, next) ∧
      Advances kind startFrom s (performAll dispatchers filterer s.1 sleep, next)
        record.toList := by
  obtain ⟨record, next, hpop, hreaches, hpassed⟩ := popRecord_pops kind h hs
  have hslept := performAll_extends dispatchers filterer h sleep
  refine ⟨record, next, hpop, hslept, hreaches.mono hslept.isPrefix, ?_⟩
  rw [hreaches.passed_eq hslept.isPrefix, hpassed]

theorem nextLoop_advances (batchSize : ℕ) (sleep : List (Write E)) (sleeps : List (List (Write E)))
    (batch : List RecordedRaw) (h : Indexed s.1.storage.records)
    (hs : Reaches startFrom s.2 s.1.storage.records) :
    let r := nextLoop dispatchers filterer kind batchSize sleep sleeps batch s
    ∃ new, r.1 = .ok (batch ++ new) ∧ Advances kind startFrom s r.2 new := by
  induction sleeps generalizing sleep batch s with
  | nil =>
    obtain ⟨record, next, hpop, hturn⟩ := turn_advances dispatchers filterer kind sleep h hs
    unfold nextLoop
    dsimp only
    rw [hpop]
    split
    · exact ⟨record.toList, rfl, hturn⟩
    · exact ⟨[], by simp, .refl h hs⟩
  | cons later sleeps ih =>
    obtain ⟨record, next, hpop, hturn⟩ := turn_advances dispatchers filterer kind sleep h hs
    unfold nextLoop
    dsimp only
    rw [hpop]
    split
    · obtain ⟨new, hanswer, hrest⟩ := ih later (batch ++ record.toList) hturn.records.indexed
        hturn.reaches
      exact ⟨record.toList ++ new, by rw [hanswer, List.append_assoc], hturn.trans hrest⟩
    · exact ⟨[], by simp, .refl h hs⟩

/-- An activity answers with what it delivers. -/
theorem step_advances (kind : Kind) (batchSize : ℕ) (activity : Activity E)
    (h : Indexed s.1.storage.records) (hs : Reaches startFrom s.2 s.1.storage.records) :
    let r := step dispatchers filterer kind batchSize s activity
    ∃ batch, r.1 = .ok batch ∧ Advances kind startFrom s r.2 batch := by
  cases activity with
  | write write =>
    exact ⟨[], rfl, advances_of_extends hs (perform_extends dispatchers filterer h write)⟩
  | next sleep sleeps =>
    obtain ⟨new, hanswer, hadvances⟩ :=
      nextLoop_advances dispatchers filterer batchSize sleep sleeps [] h hs
    exact ⟨new, hanswer, hadvances⟩

/-- What the batches of a run hold, one after the other. -/
def delivered (answers : List (Except Error (List RecordedRaw))) : List RecordedRaw :=
  answers.flatMap fun
    | .ok batch => batch
    | .error _ => []

theorem run_advances (kind : Kind) (batchSize : ℕ) (activities : List (Activity E))
    (h : Indexed s.1.storage.records) (hs : Reaches startFrom s.2 s.1.storage.records) :
    let r := Runs.run (step dispatchers filterer kind batchSize) s activities
    (∀ answer ∈ r.1, ∃ batch, answer = .ok batch) ∧
      Advances kind startFrom s r.2 (delivered r.1) := by
  induction activities generalizing s with
  | nil => exact ⟨by simp, .refl h hs⟩
  | cons activity activities ih =>
    obtain ⟨batch, hanswer, hadvances⟩ :=
      step_advances dispatchers filterer kind batchSize activity h hs
    obtain ⟨hanswers, hrest⟩ := ih hadvances.records.indexed hadvances.reaches
    refine ⟨List.forall_mem_cons.2 ⟨⟨batch, hanswer⟩, hanswers⟩, ?_⟩
    simp only [Runs.run_cons, delivered, List.flatMap_cons, hanswer]
    exact hadvances.trans hrest

/-- The records that are stored never change and are numbered from 1, and the batches that a
subscription has delivered are the first of those that it wants behind its start. -/
theorem subscription_delivers (kind : Kind) (batchSize startFrom : ℕ)
    (activities : List (Activity E)) :
    let run := Runs.run (step dispatchers filterer kind batchSize) ({}, startFrom)
    let records := fun activities => (run activities).2.1.storage.records
    (∀ past rest, activities = past ++ rest → records past <+: records activities) ∧
      (∀ (i : ℕ) (record : RecordedRaw), (records activities)[i]? = some record →
        record.position = (i : ℤ) + 1) ∧
      (∀ answer ∈ (run activities).1, ∃ batch, answer = .ok batch) ∧
      delivered (run activities).1 <+:
        (records activities).filter fun r => (startFrom : ℤ) < r.position ∧ kind.wants r := by
  intro run records
  have hrun := fun activities => run_advances dispatchers filterer kind batchSize activities
    (s := (({}, startFrom) : InMemory × ℕ)) indexed_nil ⟨le_rfl, .inl rfl⟩
  obtain ⟨hanswers, hadvances⟩ := hrun activities
  have hindexed := hadvances.records.indexed
  refine ⟨fun past rest hsplit => ?_, hindexed, hanswers, ?_⟩
  · subst hsplit
    obtain ⟨-, hpast⟩ := hrun past
    obtain ⟨-, hrest⟩ := run_advances dispatchers filterer kind batchSize rest
      hpast.records.indexed hpast.reaches
    simp only [records, run, Runs.run_append]
    exact hrest.records.isPrefix
  · have hpassed := hadvances.delivered
    rw [passed_self, List.filter_nil, List.nil_append] at hpassed
    rw [hindexed.filter_drop, ← hpassed]
    exact ((List.take_prefix _ _).drop startFrom).filter kind.wants

end Runs

section Example

/-- A listener of the tenant "b" appends to another stream in turn. -/
def answered : Write Unit :=
  .call "a" (.appendEvents ⟨(), 1, 0⟩ [⟨(), 2, 0⟩] order (.version 0))
    [.call "b" (.appendEvents ⟨(), 3, 0⟩ [] invoice .noVersioning) []]

/-- A subscription from position 1 on gets the second event of the append, and then the one
that the listener has appended. -/
example : (delivered (Runs.run (step (fun _ => plainDispatcher) none .all 2) ({}, 1)
    [.write answered, .next [] [[]]]).1).map (fun r => (r.position, r.tenantId)) =
      [(2, "a"), (3, "b")] := by rfl

end Example

end EventSourcery.InMemorySubscriptions
