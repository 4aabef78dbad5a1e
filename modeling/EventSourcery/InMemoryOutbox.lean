import EventSourcery.InMemory
import EventSourcery.RetryQueue
import EventSourcery.Tenants

/-!
# The in-memory outbox

`Outbox.run` over `InMemoryOutboxStorageStrategy`. A run goes through a copy of the head of
the outbox, looks each entry up again, and changes the outbox at the index that it found,
while the publisher may put more records at the end. Entries further on have failed as
often at most, so none before the entry is taken for it.
-/
namespace EventSourcery
open RetryQueue

/-- `RawEvent.__eq__`, where dictionaries are equal in one order of keys only. -/
def RawEvent.eq (a b : RawEvent) : Bool :=
  a.uuid == b.uuid && a.streamId.eq b.streamId && a.createdAt == b.createdAt &&
    a.name == b.name && a.data == b.data && a.context == b.context && a.version == b.version

/-- `RecordedRaw.__eq__` -/
def RecordedRaw.eq (a b : RecordedRaw) : Bool :=
  a.entry.eq b.entry && a.position == b.position && a.tenantId == b.tenantId

@[simp] theorem RecordedRaw.eq_self (record : RecordedRaw) : record.eq record = true := by
  simp [RecordedRaw.eq, RawEvent.eq, StreamId.eq]

/-- What a publisher does with a record: it puts batches of records into the outbox, and
it may raise. -/
structure Response where
  puts : List (List RecordedRaw) := []
  raises : Bool := false

/-- A publisher responds to the record at an index of a run. -/
abbrev Publisher (E : Type) := ℕ → Recorded E → Response

/-- What happens to the outbox, with what the publisher was handed and the outbox after it. -/
structure Moment (E : Type) where
  happening : Happening RecordedRaw
  handed : Option (Recorded E) := none
  outbox : Queue RecordedRaw

/-- The body of the loop in `Outbox.run`: an event that cannot be read back raises before
the publisher is called. -/
def publish {E : Type} (serde : Serde E) (publisher : Publisher E) (i : ℕ) (raw : RecordedRaw) :
    Option (Recorded E) × Response :=
  match serde.deserializeRecord raw with
  | .error _ => (none, { raises := true })
  | .ok record => (some record, publisher i record)

structure InMemoryOutboxStorageStrategy where
  filterer : RawEvent → Bool
  maxPublishAttempts : ℤ

namespace InMemoryOutboxStorageStrategy
variable (strategy : InMemoryOutboxStorageStrategy)

def putIntoOutbox (records : List RecordedRaw) (outbox : Queue RecordedRaw) : Queue RecordedRaw :=
  outbox ++ (records.filter fun r => strategy.filterer r.entry).map fun r => (r, 0)

def reachedMaxNumberOfAttempts (failureCount : ℕ) : Bool :=
  strategy.maxPublishAttempts ≤ failureCount

/-- `_outbox.index(entry)` -/
def index (entry : RecordedRaw × ℕ) (outbox : Queue RecordedRaw) : Option ℕ :=
  outbox.findIdx? fun x => x.1.eq entry.1 && x.2 = entry.2

/-- `_publish_context` after its body. -/
def settleAt (index : ℕ) (entry : RecordedRaw × ℕ) (ok : Bool) (outbox : Queue RecordedRaw) :
    Queue RecordedRaw :=
  if ok then outbox.eraseIdx index
  else if strategy.reachedMaxNumberOfAttempts (entry.2 + 1) then outbox.eraseIdx index
  else outbox.set index (entry.1, entry.2 + 1)

section Code
variable {E : Type} (serde : Serde E)

def putEach : List (List RecordedRaw) → Queue RecordedRaw → List (Moment E) × Queue RecordedRaw
  | [], outbox => ([], outbox)
  | records :: puts, outbox =>
      let outbox := strategy.putIntoOutbox records outbox
      let rest := putEach puts outbox
      ({ happening := .put (records.filter fun r => strategy.filterer r.entry), outbox } :: rest.1,
        rest.2)

/-- One entry of a run, in its context. -/
def publishEntry (publisher : Publisher E) (i : ℕ) (entry : RecordedRaw × ℕ)
    (outbox : Queue RecordedRaw) : Except Error Unit × List (Moment E) × Queue RecordedRaw :=
  match index entry outbox with
  | none => (.error .valueError, [], outbox)
  | some index =>
      let (handed, response) := publish serde publisher i entry.1
      let (moments, outbox) := strategy.putEach response.puts outbox
      let outbox := strategy.settleAt index entry (!response.raises) outbox
      (.ok (), moments ++ [{ happening := .attempted entry.1 (!response.raises), handed, outbox }],
        outbox)

/-- The loop of `Outbox.run` over entries that were copied. -/
def runEntries (publisher : Publisher E) : ℕ → Queue RecordedRaw → Queue RecordedRaw →
    Except Error Unit × List (Moment E) × Queue RecordedRaw
  | _, [], outbox => (.ok (), [], outbox)
  | i, entry :: entries, outbox =>
      match strategy.publishEntry serde publisher i entry outbox with
      | (.error e, moments, outbox) => (.error e, moments, outbox)
      | (.ok (), moments, outbox) =>
          let rest := runEntries publisher (i + 1) entries outbox
          (rest.1, moments ++ rest.2.1, rest.2.2)

/-- `Outbox.run` -/
def run (publisher : Publisher E) (limit : ℕ) (outbox : Queue RecordedRaw) :
    Except Error Unit × List (Moment E) × Queue RecordedRaw :=
  strategy.runEntries serde publisher 0 (outbox.take limit) outbox

inductive Operation (E : Type) where
  | put (records : List RecordedRaw)
  | run (publisher : Publisher E) (limit : ℕ)

/-- An operation answers with what it raised, if anything, and with what has happened. -/
def step (outbox : Queue RecordedRaw) :
    Operation E → (Except Error Unit × List (Moment E)) × Queue RecordedRaw
  | .put records =>
      let put := strategy.putEach [records] outbox
      ((.ok (), put.1), put.2)
  | .run publisher limit =>
      let r := strategy.run serde publisher limit outbox
      ((r.1, r.2.1), r.2.2)

end Code

section Lemmas
variable {strategy} {E : Type} {serde : Serde E} {publisher : Publisher E}
  {front entries rest : Queue RecordedRaw} {entry : RecordedRaw × ℕ}

/-- The backend's own outbox takes records as this one does. -/
theorem putIntoOutbox_eq {backend : InMemoryStorageStrategy E}
    (h : backend.filterer = some strategy.filterer) (records : List RecordedRaw)
    (outbox : Queue RecordedRaw) :
    backend.putIntoOutbox records outbox = strategy.putIntoOutbox records outbox := by
  simp only [InMemoryStorageStrategy.putIntoOutbox, h, putIntoOutbox]

/-- An entry is found where it is, behind entries that have failed more often. -/
theorem index_eq (hfront : ∀ x ∈ front, entry.2 < x.2) :
    index entry (front ++ entry :: rest) = some front.length := by
  unfold index
  rw [List.findIdx?_append]
  have hnone : front.findIdx? (fun x => x.1.eq entry.1 && x.2 = entry.2) = none := by
    rw [List.findIdx?_eq_none_iff]
    intro x hx
    have hlt := hfront x hx
    have hne : x.2 ≠ entry.2 := by omega
    simp [hne]
  rw [hnone]
  simp [List.findIdx?_cons]

theorem settleAt_eq (ok : Bool) :
    strategy.settleAt front.length entry ok (front ++ entry :: rest) =
      front ++ (settle strategy.maxPublishAttempts ok entry).toList ++ rest := by
  have herase : (front ++ entry :: rest).eraseIdx front.length = front ++ rest := by
    simp [List.eraseIdx_append_of_length_le]
  unfold settleAt settle reachedMaxNumberOfAttempts
  cases ok with
  | true => simp [herase]
  | false =>
    by_cases hlast : strategy.maxPublishAttempts ≤ (entry.2 : ℤ) + 1
    · simp [hlast, herase]
    · simp [hlast]

/-- The records of some batches that pass the filter. -/
def passing (strategy : InMemoryOutboxStorageStrategy) (puts : List (List RecordedRaw)) :
    List RecordedRaw :=
  puts.flatMap fun records => records.filter fun r => strategy.filterer r.entry

theorem putEach_outbox (puts : List (List RecordedRaw)) (outbox : Queue RecordedRaw) :
    (strategy.putEach (E := E) puts outbox).2 = outbox ++ entered (strategy.passing puts) := by
  induction puts generalizing outbox with
  | nil => simp [putEach, passing, entered]
  | cons records puts ih => simp [putEach, ih, putIntoOutbox, passing, entered]

end Lemmas

section Traces
variable {E : Type}

def happenings (moments : List (Moment E)) : List (Happening RecordedRaw) :=
  moments.map (·.happening)

/-- The records that were attempted, in order. -/
def attempts (moments : List (Moment E)) : List RecordedRaw :=
  moments.filterMap fun m =>
    match m.happening with
    | .put _ => none
    | .attempted record _ => some record

/-- What the publisher was handed, in order. -/
def allHanded (moments : List (Moment E)) : List (Recorded E) := moments.filterMap (·.handed)

/-- What a moment shows besides the outbox. -/
abbrev Sight (E : Type) := Happening RecordedRaw × Option (Recorded E)

def Moment.sight (m : Moment E) : Sight E := (m.happening, m.handed)

/-- What putting some records shows: those that pass the filter get in. -/
def sightOfPut (strategy : InMemoryOutboxStorageStrategy) (records : List RecordedRaw) : Sight E :=
  (.put (records.filter fun r => strategy.filterer r.entry), none)

/-- What the attempt at a record shows. An event that cannot be read back fails. Otherwise the
publisher is called with it, puts its records, and the attempt is a success if it returns. -/
def sightsOfAttempt (strategy : InMemoryOutboxStorageStrategy) (serde : Serde E)
    (publisher : Publisher E) (i : ℕ) (raw : RecordedRaw) : List (Sight E) :=
  match serde.deserializeRecord raw with
  | .error _ => [(.attempted raw false, none)]
  | .ok record =>
      (publisher i record).puts.map (sightOfPut strategy) ++
        [(.attempted raw (!(publisher i record).raises), some record)]

def sightsOfAttempts (strategy : InMemoryOutboxStorageStrategy) (serde : Serde E)
    (publisher : Publisher E) : ℕ → List RecordedRaw → List (Sight E)
  | _, [] => []
  | i, raw :: raws =>
      sightsOfAttempt strategy serde publisher i raw ++
        sightsOfAttempts strategy serde publisher (i + 1) raws

/-- What an operation shows, by the outbox that it finds. -/
def Operation.sights (strategy : InMemoryOutboxStorageStrategy) (serde : Serde E)
    (outbox : Queue RecordedRaw) : Operation E → List (Sight E)
  | .put records => [sightOfPut strategy records]
  | .run publisher limit =>
      sightsOfAttempts strategy serde publisher 0 ((outbox.take limit).map Prod.fst)

/-- How the calls of the publisher with a record ended, in order. -/
def calls (record : RecordedRaw) (moments : List (Moment E)) : List Bool :=
  moments.filterMap fun m =>
    match m.happening, m.handed with
    | .attempted r ok, some _ => if r = record then some ok else none
    | _, _ => none

/-- Moments that lead from one queue to another. -/
def Traced (maximum : ℤ) : Queue RecordedRaw → List (Moment E) → Queue RecordedRaw → Prop
  | q, [], q' => q' = q
  | q, m :: moments, q' =>
      (∀ record ok, m.happening = .attempted record ok → record ∈ q.map Prod.fst) ∧
        m.outbox = RetryQueue.step maximum q m.happening ∧ Traced maximum m.outbox moments q'

variable {maximum : ℤ} {q q' q'' : Queue RecordedRaw} {moments moments' : List (Moment E)}

theorem traced_append (h : Traced maximum q moments q') (h' : Traced maximum q' moments' q'') :
    Traced maximum q (moments ++ moments') q'' := by
  induction moments generalizing q with
  | nil =>
    cases h
    exact h'
  | cons m moments ih => exact ⟨h.1, h.2.1, ih h.2.2⟩

theorem Traced.replay (h : Traced maximum q moments q') :
    q' = replay maximum q (happenings moments) := by
  induction moments generalizing q with
  | nil => exact h
  | cons m moments ih =>
    rw [ih h.2.2, h.2.1]
    rfl

theorem Traced.proper (h : Traced maximum q moments q') :
    Proper maximum q (happenings moments) := by
  induction moments generalizing q with
  | nil => trivial
  | cons m moments ih =>
    have hrest := ih h.2.2
    rw [h.2.1] at hrest
    exact ⟨h.1, hrest⟩

/-- The outbox at each moment, from what has happened. -/
theorem Traced.moment (h : Traced maximum q moments q') {past rest : List (Moment E)}
    {m : Moment E} (hsplit : moments = past ++ m :: rest) :
    m.outbox = RetryQueue.replay maximum q (happenings (past ++ [m])) := by
  induction past generalizing q moments with
  | nil =>
    subst hsplit
    exact h.2.1
  | cons first past ih =>
    subst hsplit
    have hm := ih h.2.2 rfl
    rw [hm, h.2.1]
    rfl

/-- A call of the publisher is an attempt. -/
theorem calls_sublist (record : RecordedRaw) (moments : List (Moment E)) :
    (calls record moments).Sublist (outcomes record (happenings moments)) := by
  induction moments with
  | nil => exact List.Sublist.slnil
  | cons m moments ih =>
    obtain ⟨happening, handed, outbox⟩ := m
    unfold calls outcomes happenings at ih ⊢
    cases happening with
    | put items => simpa using ih
    | attempted r ok =>
      by_cases hr : r = record
      · cases handed with
        | none => simpa [hr] using ih.cons ok
        | some recorded => simpa [hr] using ih
      · cases handed <;> simpa [hr] using ih

end Traces

section Runs
variable {strategy} {E : Type} {serde : Serde E} {publisher : Publisher E}
  {front entries rest : Queue RecordedRaw} {entry : RecordedRaw × ℕ} {i : ℕ}

theorem putEach_traced (maximum : ℤ) (puts : List (List RecordedRaw)) (outbox : Queue RecordedRaw) :
    Traced maximum outbox (strategy.putEach (E := E) puts outbox).1
      (strategy.putEach (E := E) puts outbox).2 := by
  induction puts generalizing outbox with
  | nil => rfl
  | cons records puts ih =>
    refine ⟨fun _ _ h => ?_, rfl, ih _⟩
    cases h

variable (strategy) in
theorem putEach_moments (puts : List (List RecordedRaw)) (outbox : Queue RecordedRaw) :
    let moments := (strategy.putEach (E := E) puts outbox).1
    attempts moments = [] ∧ allHanded moments = [] ∧
      putItems (happenings moments) = strategy.passing puts ∧
      moments.map Moment.sight = puts.map (sightOfPut strategy) := by
  induction puts generalizing outbox with
  | nil => exact ⟨rfl, rfl, rfl, rfl⟩
  | cons records puts ih =>
    obtain ⟨hattempts, hhanded, hitems, hsights⟩ := ih (strategy.putIntoOutbox records outbox)
    unfold attempts at hattempts
    unfold allHanded at hhanded
    unfold happenings putItems at hitems
    simp [putEach, attempts, allHanded, happenings, putItems, passing, hattempts, hhanded, hitems,
      hsights, Moment.sight, sightOfPut]

/-- Whether an attempt goes well. -/
def delivered (serde : Serde E) (publisher : Publisher E) (i : ℕ) (record : RecordedRaw) : Bool :=
  !(publish serde publisher i record).2.raises

/-- What the publisher is handed when records are attempted one after the other. -/
def handedOf (serde : Serde E) (publisher : Publisher E) : ℕ → List RecordedRaw → List (Recorded E)
  | _, [] => []
  | i, record :: records =>
      (publish serde publisher i record).1.toList ++ handedOf serde publisher (i + 1) records

theorem allHanded_append (moments moments' : List (Moment E)) :
    allHanded (moments ++ moments') = allHanded moments ++ allHanded moments' :=
  List.filterMap_append

theorem attempts_append (moments moments' : List (Moment E)) :
    attempts (moments ++ moments') = attempts moments ++ attempts moments' :=
  List.filterMap_append

theorem happenings_append (moments moments' : List (Moment E)) :
    happenings (moments ++ moments') = happenings moments ++ happenings moments' :=
  List.map_append

/-- The records that were put, in order. -/
def putRecords (moments : List (Moment E)) : List RecordedRaw := putItems (happenings moments)

theorem putRecords_append (moments moments' : List (Moment E)) :
    putRecords (moments ++ moments') = putRecords moments ++ putRecords moments' := by
  rw [putRecords, happenings_append, putItems_append]
  rfl

/-- Of the records in an outbox that was left, each was there or was put. -/
theorem Traced.nodup {q q' : Queue RecordedRaw} {moments : List (Moment E)} {maximum : ℤ}
    (h : Traced maximum q moments q') {later : List RecordedRaw}
    (hnodup : (q.map Prod.fst ++ (putRecords moments ++ later)).Nodup) :
    (q'.map Prod.fst ++ later).Nodup := by
  rw [h.replay]
  rw [← List.append_assoc] at hnodup
  exact ((replay_items maximum q (happenings moments)).append_right later).nodup hnodup

/-- A part of a run attempts some records, and leaves a queue with what was put behind it. -/
structure Round (maximum : ℤ) (q : Queue RecordedRaw) (attempted : List RecordedRaw)
    (handed : List (Recorded E)) (sights : List (Sight E)) (left : Queue RecordedRaw)
    (r : Except Error Unit × List (Moment E) × Queue RecordedRaw) : Prop where
  answer : r.1 = .ok ()
  attempts : attempts r.2.1 = attempted
  handed : allHanded r.2.1 = handed
  sights : r.2.1.map Moment.sight = sights
  outbox : r.2.2 = left ++ entered (putRecords r.2.1)
  traced : (q.map Prod.fst ++ putRecords r.2.1).Nodup → Traced maximum q r.2.1 r.2.2

theorem Round.trans {maximum : ℤ} {q left left' : Queue RecordedRaw}
    {attempted attempted' : List RecordedRaw} {handed handed' : List (Recorded E)}
    {sights sights' : List (Sight E)}
    {r r' : Except Error Unit × List (Moment E) × Queue RecordedRaw}
    (h : Round maximum q attempted handed sights left r)
    (h' : Round maximum r.2.2 attempted' handed' sights'
      (left' ++ entered (putRecords r.2.1)) r') :
    Round maximum q (attempted ++ attempted') (handed ++ handed') (sights ++ sights') left'
      (r'.1, r.2.1 ++ r'.2.1, r'.2.2) where
  answer := h'.answer
  attempts := by rw [attempts_append, h.attempts, h'.attempts]
  handed := by rw [allHanded_append, h.handed, h'.handed]
  sights := by rw [List.map_append, h.sights, h'.sights]
  outbox := by
    rw [h'.outbox, putRecords_append]
    simp [entered]
  traced hnodup := by
    rw [putRecords_append] at hnodup
    have hfirst := h.traced (by
      rw [← List.append_assoc] at hnodup
      exact List.Nodup.of_append_left hnodup)
    exact traced_append hfirst (h'.traced (hfirst.nodup hnodup))

/-- The body of the loop shows what an attempt is to show. -/
theorem sightsOfAttempt_eq (raw : RecordedRaw) :
    sightsOfAttempt strategy serde publisher i raw =
      (publish serde publisher i raw).2.puts.map (sightOfPut strategy) ++
        [(.attempted raw (!(publish serde publisher i raw).2.raises),
          (publish serde publisher i raw).1)] := by
  unfold sightsOfAttempt publish
  cases serde.deserializeRecord raw <;> rfl

variable (strategy serde publisher rest i) in
/-- What becomes of one entry of a run, behind entries that have failed more often. -/
theorem publishEntry_round (hfront : ∀ x ∈ front, entry.2 < x.2) :
    Round strategy.maxPublishAttempts (front ++ entry :: rest) [entry.1]
      (publish serde publisher i entry.1).1.toList
      (sightsOfAttempt strategy serde publisher i entry.1)
      (front ++ (settle strategy.maxPublishAttempts (delivered serde publisher i entry.1)
        entry).toList ++ rest)
      (strategy.publishEntry serde publisher i entry (front ++ entry :: rest)) := by
  set body := publish serde publisher i entry.1
  set put := strategy.putEach (E := E) body.2.puts (front ++ entry :: rest) with hput
  have houtbox : put.2 = front ++ entry :: (rest ++ entered (strategy.passing body.2.puts)) := by
    rw [hput, putEach_outbox]
    simp
  obtain ⟨hattempts, hhanded, hitems, hsights⟩ := putEach_moments (E := E) strategy body.2.puts
    (front ++ entry :: rest)
  have hr : strategy.publishEntry serde publisher i entry (front ++ entry :: rest) =
      (.ok (), put.1 ++
        [⟨.attempted entry.1 (!body.2.raises), body.1,
          strategy.settleAt front.length entry (!body.2.raises) put.2⟩],
        strategy.settleAt front.length entry (!body.2.raises) put.2) := by
    simp only [publishEntry, index_eq hfront]
    rfl
  have hputs : putRecords (put.1 ++
      [⟨.attempted entry.1 (!body.2.raises), body.1,
        strategy.settleAt front.length entry (!body.2.raises) put.2⟩]) =
      strategy.passing body.2.puts := by
    rw [putRecords_append]
    exact (List.append_nil _).trans hitems
  rw [hr]
  refine ⟨rfl, ?_, ?_, ?_, ?_, fun hnodup => ?_⟩
  · rw [attempts_append, hput, hattempts]
    rfl
  · rw [allHanded_append, hput, hhanded]
    cases hbody : body.1 <;> simp [allHanded]
  · rw [sightsOfAttempt_eq, List.map_append, hput, hsights]
    rfl
  · rw [hputs, houtbox, settleAt_eq, ← List.append_assoc]
    rfl
  · rw [hputs] at hnodup
    refine traced_append (putEach_traced _ _ _) ⟨fun record ok h => ?_, ?_, rfl⟩
    · cases h
      rw [← hput, houtbox]
      simp
    · rw [← hput, houtbox, settleAt_eq, step_attempted]
      simpa [entered, Function.comp_def, List.append_assoc] using hnodup

variable (strategy serde publisher) in
/-- A loop over entries that come behind those that have failed more often. -/
theorem runEntries_round (i : ℕ) (front entries rest : Queue RecordedRaw)
    (hfront : ∀ x ∈ front, ∀ entry ∈ entries, entry.2 < x.2) (hfair : Fair entries) :
    Round strategy.maxPublishAttempts (front ++ (entries ++ rest)) (entries.map Prod.fst)
      (handedOf serde publisher i (entries.map Prod.fst))
      (sightsOfAttempts strategy serde publisher i (entries.map Prod.fst))
      (front ++ settleAll strategy.maxPublishAttempts (delivered serde publisher) i entries ++ rest)
      (strategy.runEntries serde publisher i entries (front ++ (entries ++ rest))) := by
  induction entries generalizing i front rest with
  | nil =>
    refine ⟨rfl, rfl, rfl, rfl, ?_, fun _ => rfl⟩
    simp [runEntries, settleAll, entered, putRecords, happenings, putItems]
  | cons entry entries ih =>
    obtain ⟨hlater, hfair⟩ := List.pairwise_cons.1 hfair
    have hround := publishEntry_round strategy serde publisher (entries ++ rest) i fun x hx =>
      hfront x hx entry List.mem_cons_self
    set first := strategy.publishEntry serde publisher i entry (front ++ entry :: (entries ++ rest))
      with hfirst
    set kept := (settle strategy.maxPublishAttempts (delivered serde publisher i entry.1)
      entry).toList with hkept
    have hfront' : ∀ x ∈ front ++ kept, ∀ e ∈ entries, e.2 < x.2 := by
      intro x hx e he
      rcases List.mem_append.1 hx with hx | hx
      · exact hfront x hx e (List.mem_cons_of_mem _ he)
      · have hx := (settle_eq_some (Option.mem_toList.1 hx)).1
        have hle := hlater e he
        rw [hx]
        omega
    have hrest := ih (i + 1) (front ++ kept) (rest ++ entered (putRecords first.2.1)) hfront' hfair
    have houtbox : front ++ kept ++ (entries ++ (rest ++ entered (putRecords first.2.1))) =
        first.2.2 := by
      rw [hround.outbox]
      simp
    have hrun : strategy.runEntries serde publisher i (entry :: entries)
        (front ++ (entry :: entries ++ rest)) =
        (let tail := strategy.runEntries serde publisher (i + 1) entries first.2.2
        (tail.1, first.2.1 ++ tail.2.1, tail.2.2)) := by
      have hanswer := hround.answer
      rw [List.cons_append, runEntries, ← hfirst]
      obtain ⟨answer, moments, outbox⟩ := first
      cases hanswer
      rfl
    rw [houtbox, ← List.append_assoc] at hrest
    rw [hrun, settleAll, ← hkept, ← List.append_assoc front kept]
    exact hround.trans hrest

variable (strategy serde publisher) in
/-- A run attempts the head of a fair outbox, in order. -/
theorem run_round {outbox : Queue RecordedRaw} (hfair : Fair outbox) (limit : ℕ) :
    Round strategy.maxPublishAttempts outbox ((outbox.take limit).map Prod.fst)
      (handedOf serde publisher 0 ((outbox.take limit).map Prod.fst))
      (sightsOfAttempts strategy serde publisher 0 ((outbox.take limit).map Prod.fst))
      (settleAll strategy.maxPublishAttempts (delivered serde publisher) 0 (outbox.take limit) ++
        outbox.drop limit)
      (strategy.run serde publisher limit outbox) := by
  have hround := runEntries_round strategy serde publisher 0 [] (outbox.take limit)
    (outbox.drop limit) (by simp) (hfair.sublist (List.take_sublist _ _))
  simpa [run] using hround

/-- A publisher that puts nothing adds nothing to the outbox. -/
theorem run_putRecords (hputs : ∀ i record, (publisher i record).puts = []) (limit : ℕ)
    (outbox : Queue RecordedRaw) :
    putRecords (strategy.run serde publisher limit outbox).2.1 = [] := by
  have hentry : ∀ i entry outbox,
      putRecords (strategy.publishEntry serde publisher i entry outbox).2.1 = [] := by
    intro i entry outbox
    have hbody : (publish serde publisher i entry.1).2.puts = [] := by
      unfold publish
      cases serde.deserializeRecord entry.1 with
      | error e => rfl
      | ok record => exact hputs i record
    unfold publishEntry
    cases index entry outbox with
    | none => rfl
    | some index =>
      simp only [hbody]
      rfl
  have hentries : ∀ i entries outbox,
      putRecords (strategy.runEntries serde publisher i entries outbox).2.1 = [] := by
    intro i entries outbox
    induction entries generalizing i outbox with
    | nil => rfl
    | cons entry entries ih =>
      have hfirst := hentry i entry outbox
      unfold runEntries
      split
      · rename_i hpublish
        rwa [hpublish] at hfirst
      · rename_i hpublish
        rw [hpublish] at hfirst
        rw [putRecords_append, hfirst, ih]
        rfl
  exact hentries 0 _ outbox

theorem step_put (records : List RecordedRaw) (outbox : Queue RecordedRaw) :
    (strategy.step serde outbox (.put records)).2 =
      outbox ++ entered (strategy.passing [records]) := putEach_outbox (E := E) [records] outbox

variable (strategy serde) in
/-- An operation keeps the outbox fair. -/
theorem step_fair {outbox : Queue RecordedRaw} (hfair : Fair outbox) (operation : Operation E) :
    Fair (strategy.step serde outbox operation).2 := by
  cases operation with
  | put records =>
    rw [step_put]
    exact hfair.put _
  | run publisher limit =>
    have hround := run_round strategy serde publisher hfair limit
    have hleft : Fair (settleAll strategy.maxPublishAttempts (delivered serde publisher) 0
        (outbox.take limit) ++ outbox.drop limit) := by
      apply Fair.settleAll
      rwa [List.take_append_drop]
    rw [step, hround.outbox]
    exact hleft.put _

variable (strategy serde) in
/-- What an operation does can be traced, if it puts no record that is there. -/
theorem step_traced {outbox : Queue RecordedRaw} (hfair : Fair outbox) (operation : Operation E) :
    let r := strategy.step serde outbox operation
    r.1.1 = .ok () ∧ ((outbox.map Prod.fst ++ putRecords r.1.2).Nodup →
      Traced strategy.maxPublishAttempts outbox r.1.2 r.2) := by
  cases operation with
  | put records => exact ⟨rfl, fun _ => putEach_traced _ _ _⟩
  | run publisher limit =>
    have hround := run_round strategy serde publisher hfair limit
    exact ⟨hround.answer, hround.traced⟩

variable (strategy serde) in
theorem step_sights {outbox : Queue RecordedRaw} (hfair : Fair outbox) (operation : Operation E) :
    (strategy.step serde outbox operation).1.2.map Moment.sight =
      operation.sights strategy serde outbox := by
  cases operation with
  | put records => rfl
  | run publisher limit => exact (run_round strategy serde publisher hfair limit).sights

/-- All that has happened in a run. -/
def history (answers : List (Except Error Unit × List (Moment E))) : List (Moment E) :=
  answers.flatMap Prod.snd

variable (strategy serde) in
theorem operations_traced {outbox : Queue RecordedRaw} (hfair : Fair outbox)
    (operations : List (Operation E)) :
    let r := Runs.run (strategy.step serde) outbox operations
    (∀ answer ∈ r.1, answer.1 = .ok ()) ∧ Fair r.2 ∧
      ((outbox.map Prod.fst ++ putRecords (history r.1)).Nodup →
        Traced strategy.maxPublishAttempts outbox (history r.1) r.2) := by
  induction operations generalizing outbox with
  | nil => exact ⟨by simp, hfair, fun _ => rfl⟩
  | cons operation operations ih =>
    obtain ⟨hanswer, htraced⟩ := step_traced strategy serde hfair operation
    obtain ⟨hanswers, hfair', hrest⟩ := ih (step_fair strategy serde hfair operation)
    refine ⟨List.forall_mem_cons.2 ⟨hanswer, hanswers⟩, hfair', fun hnodup => ?_⟩
    simp only [Runs.run_cons, history, List.flatMap_cons, putRecords_append] at hnodup ⊢
    have hfirst := htraced (by
      rw [← List.append_assoc] at hnodup
      exact List.Nodup.of_append_left hnodup)
    exact traced_append hfirst (hrest (hfirst.nodup hnodup))

/-- The publisher is called with a record until it succeeds, or as often as is allowed, and
at every moment the records that this leaves wait in the order in which they were put. -/
structure Delivers (maximum : ℤ) (moments : List (Moment E)) (outbox : Queue RecordedRaw) :
    Prop where
  calls : ∀ record, Retried maximum (calls record moments)
  moment : ∀ past m rest, moments = past ++ m :: rest →
    m.outbox = remaining maximum (happenings (past ++ [m]))
  outbox : outbox = remaining maximum (happenings moments)

theorem Traced.delivers {maximum : ℤ} (hmaximum : 1 ≤ maximum) {moments : List (Moment E)}
    {outbox : Queue RecordedRaw} (h : Traced maximum [] moments outbox)
    (hnodup : (putRecords moments).Nodup) : Delivers maximum moments outbox where
  calls record := (retried_outcomes hmaximum h.proper hnodup record).sublist
    (calls_sublist record moments)
  moment past m rest hsplit := by
    have hmoments : moments = past ++ [m] ++ rest := by rw [hsplit, List.append_assoc]; rfl
    have hproper := h.proper
    rw [hmoments, happenings_append] at hproper
    rw [hmoments, putRecords_append] at hnodup
    rw [h.moment hsplit]
    exact replay_eq hmaximum (proper_append.1 hproper).1 (List.Nodup.of_append_left hnodup)
  outbox := h.replay.trans (replay_eq hmaximum h.proper hnodup)

/-- Operations on an outbox that is empty at first. What each of them shows is what its records,
its publisher and the outbox before it call for. If the records differ in their positions, no run
raises, the records are delivered, and a run after them attempts the first of the records that
wait, up to its limit and in order. -/
theorem inMemoryOutbox_delivers (strategy : InMemoryOutboxStorageStrategy)
    (hmaximum : 1 ≤ strategy.maxPublishAttempts) (serde : Serde E)
    (operations : List (Operation E)) :
    let r := Runs.run (strategy.step serde) [] operations
    (∀ past operation rest, operations = past ++ operation :: rest →
      let outbox := (Runs.run (strategy.step serde) [] past).2
      (strategy.step serde outbox operation).1.2.map Moment.sight =
        operation.sights strategy serde outbox) ∧
    (((putRecords (history r.1)).map (·.position)).Nodup →
      (∀ answer ∈ r.1, answer.1 = .ok ()) ∧
        Delivers strategy.maxPublishAttempts (history r.1) r.2 ∧
        ∀ publisher limit,
          attempts (strategy.run serde publisher limit r.2).2.1 =
            (r.2.take limit).map Prod.fst) := by
  intro r
  refine ⟨fun past operation rest _ => ?_, fun hpositions => ?_⟩
  · have hfair := (operations_traced strategy serde List.Pairwise.nil past).2.1
    exact step_sights strategy serde hfair operation
  have hnodup : (putRecords (history r.1)).Nodup := List.Nodup.of_map _ hpositions
  obtain ⟨hanswers, hfair, htraced⟩ :=
    operations_traced strategy serde List.Pairwise.nil operations
  exact ⟨hanswers, (htraced hnodup).delivers hmaximum hnodup, fun _ limit =>
    (run_round strategy serde _ hfair limit).attempts⟩

end Runs

section Example
open Tenants

def orderRecord (position : Position) : RecordedRaw :=
  { entry := { uuid := 1, streamId := order, createdAt := 0, name := "Event", data := []
               context := [] }, position }

/-- Of three records one is put while the first is published, which fails twice. -/
def failingTwice : List (Operation Unit) :=
  [.put [orderRecord 1, orderRecord 2],
    .run (fun i _ => if i = 0 then { puts := [[orderRecord 3]], raises := true } else {}) 2,
    .run (fun i _ => { raises := i = 0 }) 5]

theorem inMemoryOutbox_delivers_failingTwice :
    let strategy : InMemoryOutboxStorageStrategy := ⟨fun _ => true, 2⟩
    let r := Runs.run (strategy.step plainSerde) [] failingTwice
    r.2 = [] ∧ Delivers 2 (history r.1) r.2 :=
  ⟨rfl, ((inMemoryOutbox_delivers ⟨fun _ => true, 2⟩ (by decide) plainSerde failingTwice).2
    (by decide)).2.1⟩

end Example

end InMemoryOutboxStorageStrategy

end EventSourcery
