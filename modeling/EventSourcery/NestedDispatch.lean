import EventSourcery.InMemorySubscriptions
import EventSourcery.Listeners

/-!
# Appends of listeners

A dispatch calls the listeners one after the other, record by record. What a listener appends
while it is called is stored and dispatched at once, before the outer dispatch goes on. So every
listener is told of every record, but the order is that of the records only if nothing is
appended before the last call of a dispatch.
-/
namespace EventSourcery.NestedDispatch
open EventStore Tenants InMemoryStorageStrategy InMemorySubscriptions Listeners

variable {T L E : Type} [DecidableEq L]

/-- What a listener does while it is called, and what a program does: it raises, or calls a
store, and handles what the call raises or not. The reactions are what the listeners do in the
calls of the dispatch, in the order in which these are made. -/
inductive Act (E : Type) where
  | raise (error : Error)
  | call (tenantId : TenantId) (call : Call E) (handled : Bool)
      (reactions : List (List (Act E)))

/-- The backend, and what is observed of a run: the calls of the listeners, whether a dispatch
has ended early, and whether records were added in a call that was not the last one of its
dispatch. -/
structure State (L E : Type) where
  inMemory : InMemory := {}
  calls : List (L × Recorded E) := []
  aborted : Bool := false
  interleaved : Bool := false

namespace State

def records (s : State L E) : List RecordedRaw := s.inMemory.storage.records

/-- Whether records were added in a call after which other calls were to be made. -/
def noting (before : State L E) (calls : List (Except Error (L × Recorded E))) (s : State L E) :
    State L E :=
  { s with interleaved := s.interleaved ||
      (!calls.isEmpty && before.records.length < s.records.length) }

/-- A dispatch ends with an exception. -/
def abort (e : Error) (s : State L E) : Except Error Unit × State L E :=
  (.error e, { s with aborted := true })

end State

section Code
variable (around : Surroundings T L E) (listeners : Listeners T L) (serdes : TenantId → Serde E)
  (filterer : Option (RawEvent → Bool))

/-- The store of a tenant, with listeners that do nothing. -/
def dispatchers (u : TenantId) : Dispatcher E :=
  listeners.dispatcher around (fun _ _ => .ok ()) (serdes u)

/-- The calls that a dispatch is to make; it raises where a record cannot be deserialized. -/
def scheduled (u : TenantId) (records : List RecordedRaw) :
    List (Except Error (L × Recorded E)) :=
  records.flatMap fun raw =>
    match (serdes u).deserializeRecord raw with
    | .error e => [.error (.serde e)]
    | .ok record =>
        ((around.order record).iterate (listeners.told around record)).map fun listener =>
          .ok (listener, record)

/-- The rest of a dispatch when no listener does anything. -/
def finishDispatch (s : State L E) :
    List (Except Error (L × Recorded E)) → Except Error Unit × State L E
  | [] => (.ok (), s)
  | .error e :: _ => s.abort e
  | .ok call :: calls => finishDispatch { s with calls := s.calls ++ [call] } calls

mutual

def act (s : State L E) : Act E → Except Error Unit × State L E
  | .raise e => (.error e, s)
  | .call u call handled reactions =>
      let r :=
        match request (serdes u) call with
        | .error e => (.error (.serde e), s)
        | .ok (.insert streamId versioning events) =>
            match (InMemoryStorageStrategy.mk (dispatchers around listeners serdes u) filterer
                u).storeRecords streamId versioning events s.inMemory with
            | (.error e, inMemory) => (.error e, { s with inMemory })
            | (.ok records, inMemory) =>
                dispatch { s with inMemory } (scheduled around listeners serdes u records) reactions
        | .ok _ =>
            let answer := callStep (InMemoryTenants.stores (dispatchers around listeners serdes)
              filterer) s.inMemory (u, call)
            (answer.1.map fun _ => (), { s with inMemory := answer.2 })
      if handled then (.ok (), r.2) else r

def actAll (s : State L E) : List (Act E) → Except Error Unit × State L E
  | [] => (.ok (), s)
  | a :: as =>
      match act s a with
      | (.error e, s) => (.error e, s)
      | (.ok (), s) => actAll s as

/-- `Dispatcher.dispatch` -/
def dispatch (s : State L E) (calls : List (Except Error (L × Recorded E))) :
    List (List (Act E)) → Except Error Unit × State L E
  | [] => finishDispatch s calls
  | reaction :: reactions =>
      match calls with
      | [] => (.ok (), s)
      | .error e :: _ => s.abort e
      | .ok call :: calls =>
          match actAll { s with calls := s.calls ++ [call] } reaction with
          | (.error e, s) => s.abort e
          | (.ok (), after) => dispatch (s.noting calls after) calls reactions

end

section Scheduled
variable {around listeners serdes} {u : TenantId} {raw : RecordedRaw} {record : Recorded E}

theorem scheduled_of_error {e : SerdeError} (h : (serdes u).deserializeRecord raw = .error e)
    (raws : List RecordedRaw) : scheduled around listeners serdes u (raw :: raws) =
      .error (.serde e) :: scheduled around listeners serdes u raws := by
  simp [scheduled, h]

theorem scheduled_of_ok (h : (serdes u).deserializeRecord raw = .ok record)
    (raws : List RecordedRaw) : scheduled around listeners serdes u (raw :: raws) =
      (((around.order record).iterate (listeners.told around record)).map fun l =>
        .ok (l, record)) ++ scheduled around listeners serdes u raws := by
  simp [scheduled, h]

end Scheduled

/-- A dispatch in which the listeners do nothing. -/
theorem finishDispatch_scheduled (s : State L E) (u : TenantId) (raws : List RecordedRaw) :
    let r := finishDispatch s (scheduled around listeners serdes u raws)
    let dispatched := listeners.dispatch around (fun _ _ => .ok ()) (serdes u) raws
    r.1 = dispatched.1 ∧ r.2.inMemory = s.inMemory ∧ r.2.calls = s.calls ++ dispatched.2 := by
  have htold : ∀ (record : Recorded E) (told : List L)
      (rest : List (Except Error (L × Recorded E))) (s : State L E),
      finishDispatch s (told.map (fun l => .ok (l, record)) ++ rest) =
        finishDispatch { s with calls := s.calls ++ told.map fun l => (l, record) } rest := by
    intro record told rest
    induction told with
    | nil => simp
    | cons l told ih =>
      intro s
      rw [List.map_cons, List.cons_append, finishDispatch, ih]
      simp
  induction raws generalizing s with
  | nil => simp [scheduled, finishDispatch, Listeners.dispatch]
  | cons raw raws ih =>
    dsimp only
    cases hrecord : (serdes u).deserializeRecord raw with
    | error e =>
      rw [scheduled_of_error hrecord, Listeners.dispatch, hrecord]
      exact ⟨rfl, rfl, (List.append_nil _).symm⟩
    | ok record =>
      rw [scheduled_of_ok hrecord, Listeners.dispatch, hrecord]
      obtain ⟨-, hall, hok⟩ := tell_calls (fun _ _ => .ok ()) record
        ((around.order record).iterate (listeners.told around record))
      have hquiet := hok.2 fun _ _ => rfl
      dsimp only
      rw [htold]
      revert hquiet hall
      rcases tell (fun _ _ => .ok ()) record _ with ⟨answer, calls⟩
      intro hall hquiet
      dsimp only at hall hquiet
      obtain rfl := hquiet
      obtain rfl := hall rfl
      obtain ⟨hanswer, hinMemory, hcalls⟩ := ih { s with calls := s.calls ++ _ }
      exact ⟨hanswer, hinMemory, by rw [hcalls, List.append_assoc]⟩

/-- A call to which no listener reacts is that of a store whose listeners do nothing. -/
theorem act_quiet (s : State L E) (u : TenantId) (call : Call E) :
    let r := act around listeners serdes filterer s (.call u call false [])
    let called := callStep (InMemoryTenants.stores (dispatchers around listeners serdes) filterer)
      s.inMemory (u, call)
    r.1 = (called.1.map fun _ => ()) ∧ r.2.inMemory = called.2 := by
  rw [act]
  simp only [Bool.false_eq_true, if_false]
  cases hrequest : request (serdes u) call with
  | error e =>
    rw [InMemoryTenants.stores_of_error hrequest]
    exact ⟨rfl, rfl⟩
  | ok r =>
    cases r with
    | insert streamId versioning events =>
      rw [InMemoryTenants.stores_of_insert hrequest]
      dsimp only
      rcases InMemoryStorageStrategy.storeRecords _ streamId versioning events s.inMemory with
        ⟨e | records, inMemory⟩
      · exact ⟨rfl, rfl⟩
      · obtain ⟨hanswer, hinMemory, -⟩ := finishDispatch_scheduled around listeners serdes
          { s with inMemory } u records
        simp only [dispatch]
        refine ⟨?_, hinMemory⟩
        rw [hanswer, dispatch_answer]
        change _ = Except.map _ (Except.map _
          ((listeners.dispatcher around (fun _ _ => .ok ()) (serdes u)).dispatch records))
        cases (listeners.dispatcher around (fun _ _ => .ok ()) (serdes u)).dispatch records <;> rfl
    | _ => exact ⟨rfl, rfl⟩

end Code

/-- An append that is refused adds no record. -/
theorem storeRecords_cases (strategy : InMemoryStorageStrategy E) {streamId : StreamId}
    (versioning : Versioning) {events : List RawEvent}
    (haddressed : ∀ raw ∈ events, raw.streamId = streamId) (s : InMemory) :
    let r := strategy.storeRecords streamId versioning events s
    let new := strategy.recordsFrom (s.storage.currentPosition.getD 0 + 1) events
    ((∃ e, r.1 = .error e) ∧ r.2.storage.records = s.storage.records) ∨
      (r.1 = .ok new ∧ r.2.storage.records = s.storage.records ++ new) := by
  have hensured := ensureStream_records streamId versioning s.storage
  have hheld : ∃ held, (ensureStream streamId versioning s.storage).2.data streamId.key =
      some held := by
    change ∃ held, (ensured streamId versioning s.storage).data streamId.key = some held
    unfold ensured
    split
    · exact Option.isSome_iff_exists.1 ‹_›
    · exact ⟨[], by simp [Storage.create]⟩
  have hkey : ∀ record ∈ strategy.recordsFrom (s.storage.currentPosition.getD 0 + 1) events,
      record.entry.streamId.key = streamId.key := by
    intro record hrecord
    rw [haddressed _ (strategy.mem_recordsFrom hrecord).1]
  unfold storeRecords
  dsimp only
  revert hensured hheld
  rcases ensureStream streamId versioning s.storage with ⟨e | _, storage⟩
  · exact fun hensured _ => .inl ⟨⟨e, rfl⟩, hensured⟩
  · rintro hensured ⟨held, hheld⟩
    change storage.records = s.storage.records at hensured
    right
    dsimp only [Storage.append] at hheld ⊢
    rw [Storage.appendEach_of_held hkey (s := { storage with
      records := storage.records ++
        strategy.recordsFrom (s.storage.currentPosition.getD 0 + 1) events }) hheld]
    exact ⟨rfl, by rw [← hensured]⟩

section Records
variable {around : Surroundings T L E} {listeners : Listeners T L} {serdes : TenantId → Serde E}
  {everyone : Finset L}

/-- What listeners are called with for a stored record. -/
def read (serdes : TenantId → Serde E) (raw : RecordedRaw) : Except SerdeError (Recorded E) :=
  (serdes raw.tenantId).deserializeRecord raw

theorem position_of_read {raw : RecordedRaw} {record : Recorded E}
    (h : read serdes raw = .ok record) : record.position = raw.position := by
  obtain ⟨event, -, hbuilt⟩ := bind_eq_ok.1 h
  cases hbuilt
  rfl

/-- A dispatch that can be made calls everyone once for each record, in order. -/
theorem scheduled_eq (hall : ∀ record, listeners.told around record = everyone) {u : TenantId}
    {raws : List RecordedRaw} (htenant : ∀ raw ∈ raws, raw.tenantId = u)
    {pending : List (L × Recorded E)}
    (h : scheduled around listeners serdes u raws = pending.map .ok) :
    ∀ l ∈ everyone, (received l pending).map .ok = raws.map (read serdes) := by
  intro l hl
  induction raws generalizing pending with
  | nil =>
    obtain rfl := List.map_eq_nil_iff.1 h.symm
    rfl
  | cons raw raws ih =>
    have hread : read serdes raw = (serdes u).deserializeRecord raw := by
      rw [read, htenant raw (by simp)]
    cases hrecord : (serdes u).deserializeRecord raw with
    | error e =>
      rw [scheduled_of_error hrecord] at h
      cases pending with
      | nil => cases h
      | cons call pending => cases (List.cons.inj h).1
    | ok record =>
      rw [scheduled_of_ok hrecord, hall] at h
      obtain ⟨first, rest, rfl, hfirst, hrest⟩ := List.map_eq_append_iff.1 h.symm
      rw [received_append, List.map_append, List.map_cons, hread, hrecord,
        ih (fun r hr => htenant r (by simp [hr])) hrest.symm]
      have hmade : first = ((around.order record).iterate everyone).map fun l => (l, record) := by
        have hinj : Function.Injective (Except.ok : L × Recorded E → Except Error _) :=
          fun _ _ => Except.ok.inj
        apply List.map_injective_iff.2 hinj
        rw [hfirst, List.map_map]
        rfl
      rw [hmade, received_once ((around.order record).nodup_iterate _)]
      simp [SetOrder.mem_iterate, hl]

theorem mem_scheduled (hall : ∀ record, listeners.told around record = everyone) {u : TenantId}
    {raws : List RecordedRaw} {call : L × Recorded E}
    (h : .ok call ∈ scheduled around listeners serdes u raws) :
    call.1 ∈ everyone ∧ ∃ raw ∈ raws, call.2.position = raw.position := by
  obtain ⟨raw, hraw, hcall⟩ := List.mem_flatMap.1 h
  cases hrecord : (serdes u).deserializeRecord raw with
  | error e => simp [hrecord] at hcall
  | ok record =>
    rw [hrecord] at hcall
    obtain ⟨l, hl, hmade⟩ := List.mem_map.1 hcall
    cases hmade
    rw [SetOrder.mem_iterate, hall] at hl
    refine ⟨hl, raw, hraw, ?_⟩
    obtain ⟨event, -, hbuilt⟩ := bind_eq_ok.1 hrecord
    cases hbuilt
    rfl

end Records

section Runs
variable (around : Surroundings T L E) (listeners : Listeners T L) (serdes : TenantId → Serde E)
  (filterer : Option (RawEvent → Bool)) (everyone : Finset L)

def Ascending (records : List (Recorded E)) : Prop :=
  records.Pairwise fun r r' => r.position < r'.position

/-- Records are added and calls made on the way from one state to another. Everyone is told of
the records that were pending and of those that are new. -/
structure Progress (pending made : List (L × Recorded E)) (new : List RecordedRaw)
    (s s' : State L E) : Prop where
  unaborted : s.aborted = false
  records : s'.records = s.records ++ new
  calls : s'.calls = s.calls ++ made
  once : ∀ l ∈ everyone, ((received l made).map .ok).Perm
    ((received l pending).map .ok ++ new.map (read serdes))
  ordered : s'.interleaved = false → s.interleaved = false ∧ ∀ l ∈ everyone,
    (received l made).map .ok = (received l pending).map .ok ++ new.map (read serdes)
  disordered : s'.interleaved = true → s.interleaved = true ∨
    ∃ l ∈ everyone, ¬ Ascending (received l made)

/-- A dispatch that does not end early has made the calls that were to be made. -/
def Progresses (calls : List (Except Error (L × Recorded E))) (s s' : State L E) : Prop :=
  Extends s.records s'.records ∧ (s'.aborted = false →
    ∃ pending made new, calls = pending.map .ok ∧
      Progress serdes everyone pending made new s s')

variable {around listeners serdes filterer everyone}

theorem Ascending.of_append {records records' : List (Recorded E)}
    (h : Ascending (records ++ records')) : Ascending records ∧ Ascending records' :=
  ⟨(List.pairwise_append.1 h).1, (List.pairwise_append.1 h).2.1⟩

/-- Someone who receives a part out of order receives the whole out of order. -/
theorem not_ascending_append {l : L} {made made' : List (L × Recorded E)}
    (h : ¬ Ascending (received l made) ∨ ¬ Ascending (received l made')) :
    ¬ Ascending (received l (made ++ made')) := by
  intro hboth
  rw [received_append] at hboth
  rcases h with h | h
  · exact h hboth.of_append.1
  · exact h hboth.of_append.2

theorem progress_same {s s' : State L E} (hrecords : s'.records = s.records)
    (hcalls : s'.calls = s.calls) (haborted : s.aborted = false)
    (hinterleaved : s'.interleaved = s.interleaved) :
    Progress serdes everyone [] [] [] s s' where
  unaborted := haborted
  records := by rw [hrecords, List.append_nil]
  calls := by rw [hcalls, List.append_nil]
  once _ _ := .refl _
  ordered h := ⟨by rw [← hinterleaved, h], fun _ _ => rfl⟩
  disordered h := .inl (by rw [← hinterleaved, h])

theorem Progress.trans {made made' : List (L × Recorded E)} {new new' : List RecordedRaw}
    {s s' s'' : State L E} (h : Progress serdes everyone [] made new s s')
    (h' : Progress serdes everyone [] made' new' s' s'') :
    Progress serdes everyone [] (made ++ made') (new ++ new') s s'' where
  unaborted := h.unaborted
  records := by rw [h'.records, h.records, List.append_assoc]
  calls := by rw [h'.calls, h.calls, List.append_assoc]
  once l hl := by
    rw [received_append, List.map_append, List.map_append]
    exact (h.once l hl).append (h'.once l hl)
  ordered hs'' := by
    obtain ⟨hs', horder'⟩ := h'.ordered hs''
    obtain ⟨hs, horder⟩ := h.ordered hs'
    refine ⟨hs, fun l hl => ?_⟩
    rw [received_append, List.map_append, List.map_append, horder l hl, horder' l hl]
    rfl
  disordered hs'' := by
    rcases h'.disordered hs'' with hs' | ⟨l, hl, hlater⟩
    · refine (h.disordered hs').imp_right ?_
      rintro ⟨l, hl, hearlier⟩
      exact ⟨l, hl, not_ascending_append (.inl hearlier)⟩
    · exact .inr ⟨l, hl, not_ascending_append (.inr hlater)⟩

theorem received_cons (l : L) (call : L × Recorded E) (calls : List (L × Recorded E)) :
    received l (call :: calls) = received l [call] ++ received l calls :=
  received_append l [call] calls

/-- Someone who is told of new records has a pending call left. -/
theorem Progress.not_ascending {call : L × Recorded E} {pending made made' : List (L × Recorded E)}
    {new new' : List RecordedRaw} {s s' s'' t : State L E}
    (h : Progress serdes everyone [] made new s s') (hindexed : Indexed s'.records)
    (h' : Progress serdes everyone (call :: pending) made' new' t s'')
    (hcall : call.1 ∈ everyone ∧ call.2.position ≤ (s.records.length : ℤ)) (hnew : new ≠ []) :
    ¬ Ascending (received call.1 (made ++ made')) := by
  obtain ⟨raw, new, rfl⟩ := List.exists_cons_of_ne_nil hnew
  have hposition : raw.position = (s.records.length : ℤ) + 1 := by
    apply hindexed s.records.length
    rw [h.records]
    simp
  obtain ⟨record, hrecord, hread⟩ :
      ∃ record ∈ received call.1 made, .ok record = read serdes raw := by
    have hmem := (h.once _ hcall.1).mem_iff.2
      (List.mem_append_right _ (List.mem_map_of_mem (List.mem_cons_self (a := raw) (l := new))))
    exact List.mem_map.1 hmem
  have hlater := position_of_read hread.symm
  have hpending : call.2 ∈ received call.1 made' := by
    have hmem := (h'.once _ hcall.1).mem_iff.2
      (List.mem_append_left _ (List.mem_map_of_mem (f := Except.ok) (a := call.2)
        (by simp [received])))
    simpa using hmem
  intro hascending
  rw [received_append] at hascending
  have hlt : record.position < call.2.position :=
    (List.pairwise_append.1 hascending).2.2 record hrecord call.2 hpending
  rw [hlater, hposition] at hlt
  exact absurd (hlt.trans_le hcall.2) (by simp)

/-- A call in which records may be added, and the rest of its dispatch. -/
theorem Progress.called {call : L × Recorded E} {pending made made' : List (L × Recorded E)}
    {new new' : List RecordedRaw} {s s' s'' : State L E}
    (h : Progress serdes everyone [] made new { s with calls := s.calls ++ [call] } s')
    (hindexed : Indexed s'.records)
    (h' : Progress serdes everyone pending made' new' (s.noting (pending.map .ok) s') s'')
    (hpending : ∀ other ∈ pending, other.1 ∈ everyone ∧ other.2.position ≤ (s.records.length : ℤ)) :
    Progress serdes everyone (call :: pending) (call :: (made ++ made')) (new ++ new') s s'' where
  unaborted := h.unaborted
  records := by
    rw [h'.records, ← List.append_assoc]
    exact congrArg (· ++ new') h.records
  calls := by
    have hmade : s'.calls = s.calls ++ [call] ++ made := h.calls
    have hlater : s''.calls = s'.calls ++ made' := h'.calls
    rw [hlater, hmade]
    simp
  once l hl := by
    rw [received_cons, received_cons l call pending, received_append]
    simp only [List.map_append, List.append_assoc]
    refine .append_left _ (((h.once l hl).append (h'.once l hl)).trans ?_)
    exact List.perm_append_comm_assoc _ _ _
  ordered hs'' := by
    obtain ⟨hnoted, hlater⟩ := h'.ordered hs''
    simp only [State.noting, Bool.or_eq_false_iff] at hnoted
    obtain ⟨hs, hmade⟩ := h.ordered hnoted.1
    refine ⟨hs, fun l hl => ?_⟩
    rw [received_cons, received_cons l call pending, received_append]
    simp only [List.map_append, List.append_assoc, hmade l hl, hlater l hl]
    cases pending with
    | nil => rfl
    | cons other pending =>
      have hgrown : s'.records = s.records ++ new := h.records
      have hnone : new = [] := by
        have hlength := hnoted.2
        rw [hgrown] at hlength
        simpa using hlength
      subst hnone
      rfl
  disordered hs'' := by
    have hsuffix : ∀ l, ¬ Ascending (received l (made ++ made')) →
        ¬ Ascending (received l (call :: (made ++ made'))) := fun l hnot =>
      @not_ascending_append _ _ _ _ [call] _ (.inr hnot)
    rcases h'.disordered hs'' with hnoted | ⟨l, hl, hlater⟩
    · simp only [State.noting, Bool.or_eq_true, Bool.and_eq_true] at hnoted
      rcases hnoted with hs' | ⟨hleft, hgrown⟩
      · refine (h.disordered hs').imp_right ?_
        rintro ⟨l, hl, hearlier⟩
        exact ⟨l, hl, hsuffix l (not_ascending_append (.inl hearlier))⟩
      · cases pending with
        | nil => simp at hleft
        | cons other pending =>
          have hother := hpending other (by simp)
          refine .inr ⟨other.1, hother.1, hsuffix _ (h.not_ascending hindexed h' hother ?_)⟩
          rintro rfl
          have hsame : s'.records = s.records ++ [] := h.records
          simp [hsame] at hgrown
    · exact .inr ⟨l, hl, hsuffix l (not_ascending_append (.inr hlater))⟩

/-- The calls that are to be made are of everyone, for records that are stored. -/
def Due (everyone : Finset L) (s : State L E) (calls : List (Except Error (L × Recorded E))) :
    Prop :=
  ∀ call, .ok call ∈ calls → call.1 ∈ everyone ∧ call.2.position ≤ (s.records.length : ℤ)

omit [DecidableEq L] in
theorem Due.tail {s s' : State L E} {call : Except Error (L × Recorded E)}
    {calls : List (Except Error (L × Recorded E))} (h : Due everyone s (call :: calls))
    (hgrown : s.records.length ≤ s'.records.length) : Due everyone s' calls := by
  intro other hother
  obtain ⟨hmem, hposition⟩ := h other (List.mem_cons_of_mem _ hother)
  exact ⟨hmem, hposition.trans (by exact_mod_cast hgrown)⟩

/-- A call in a dispatch, whatever the listener does, with the rest of the dispatch. -/
theorem Progresses.called {s s' s'' : State L E} {call : L × Recorded E}
    {calls : List (Except Error (L × Recorded E))}
    (h : Progresses serdes everyone [] { s with calls := s.calls ++ [call] } s')
    (h' : Progresses serdes everyone calls (s.noting calls s') s'')
    (hdue : Due everyone s (.ok call :: calls)) :
    Progresses serdes everyone (.ok call :: calls) s s'' := by
  refine ⟨h.1.trans h'.1, fun hcomplete => ?_⟩
  obtain ⟨pending, made', new', rfl, hrest⟩ := h'.2 hcomplete
  obtain ⟨none, made, new, hnone, hfirst⟩ := h.2 hrest.unaborted
  obtain rfl := List.map_eq_nil_iff.1 hnone.symm
  exact ⟨call :: pending, _, _, rfl, hfirst.called h.1.indexed hrest fun other hother =>
    hdue other (List.mem_cons_of_mem _ (List.mem_map_of_mem hother))⟩

theorem progresses_nil {s : State L E} (hindexed : Indexed s.records) :
    Progresses serdes everyone [] s s :=
  ⟨.refl hindexed, fun h => ⟨[], [], [], rfl, progress_same rfl rfl h rfl⟩⟩

omit [DecidableEq L] in
theorem noting_of_records {s s' : State L E} (h : s'.records = s.records)
    (calls : List (Except Error (L × Recorded E))) : s.noting calls s' = s' := by
  simp [State.noting, h]

theorem finishDispatch_progresses {s : State L E} (hindexed : Indexed s.records)
    {calls : List (Except Error (L × Recorded E))} (hdue : Due everyone s calls) :
    Progresses serdes everyone calls s (finishDispatch s calls).2 := by
  induction calls generalizing s with
  | nil => exact progresses_nil hindexed
  | cons call calls ih =>
    cases call with
    | error e => exact ⟨.refl hindexed, nofun⟩
    | ok call =>
      let told : State L E := { s with calls := s.calls ++ [call] }
      have htold : Progresses serdes everyone [] told told := progresses_nil hindexed
      have hnoted : s.noting calls told = told := noting_of_records rfl calls
      refine htold.called ?_ hdue
      rw [hnoted]
      exact ih hindexed (hdue.tail le_rfl)

theorem Progresses.trans {s s' s'' : State L E} (h : Progresses serdes everyone [] s s')
    (h' : Progresses serdes everyone [] s' s'') : Progresses serdes everyone [] s s'' := by
  refine ⟨h.1.trans h'.1, fun hcomplete => ?_⟩
  obtain ⟨none', made', new', hnone', hlater⟩ := h'.2 hcomplete
  obtain ⟨none, made, new, hnone, hearlier⟩ := h.2 hlater.unaborted
  obtain rfl := List.map_eq_nil_iff.1 hnone.symm
  obtain rfl := List.map_eq_nil_iff.1 hnone'.symm
  exact ⟨[], _, _, rfl, hearlier.trans hlater⟩

/-- A call that adds no record. -/
theorem progresses_same {s : State L E} (hindexed : Indexed s.records) {inMemory : InMemory}
    (hsame : inMemory.storage.records = s.records) :
    Progresses serdes everyone [] s { s with inMemory } :=
  ⟨by rw [State.records, State.records, hsame]; exact .refl hindexed,
    fun h => ⟨[], [], [], rfl, progress_same hsame rfl h rfl⟩⟩

/-- An append that is not refused, with its dispatch. -/
theorem progresses_append (hall : ∀ record, listeners.told around record = everyone)
    {s s' : State L E} {u : TenantId} {new : List RecordedRaw} {inMemory : InMemory}
    (hrecords : inMemory.storage.records = s.records ++ new)
    (hindexed : Indexed inMemory.storage.records) (htenant : ∀ raw ∈ new, raw.tenantId = u)
    (h : Progresses serdes everyone (scheduled around listeners serdes u new)
      { s with inMemory } s') : Progresses serdes everyone [] s s' := by
  have hextends : Extends s.records inMemory.storage.records :=
    ⟨hrecords ▸ List.prefix_append _ _, hindexed⟩
  refine ⟨hextends.trans h.1, fun hcomplete => ?_⟩
  obtain ⟨pending, made, later, hpending, hdispatch⟩ := h.2 hcomplete
  have hread := scheduled_eq hall htenant hpending
  have hgrown : s'.records = inMemory.storage.records ++ later := hdispatch.records
  refine ⟨[], made, new ++ later, rfl, hdispatch.unaborted, ?_, hdispatch.calls, fun l hl => ?_,
    fun hs' => ?_, hdispatch.disordered⟩
  · rw [hgrown, hrecords, List.append_assoc]
  · rw [List.map_append, ← hread l hl]
    exact hdispatch.once l hl
  · obtain ⟨hs, hordered⟩ := hdispatch.ordered hs'
    refine ⟨hs, fun l hl => ?_⟩
    rw [List.map_append, ← hread l hl]
    exact hordered l hl

theorem due_scheduled (hall : ∀ record, listeners.told around record = everyone) {s : State L E}
    (hindexed : Indexed s.records) {u : TenantId} {old new : List RecordedRaw}
    (hrecords : s.records = old ++ new) :
    Due everyone s (scheduled around listeners serdes u new) := by
  intro call hcall
  obtain ⟨hmem, raw, hraw, hposition⟩ := mem_scheduled hall hcall
  have hstored : raw ∈ s.records := hrecords ▸ List.mem_append_right old hraw
  obtain ⟨i, hi⟩ := List.mem_iff_getElem?.1 hstored
  have hlength := (List.getElem?_eq_some_iff.1 hi).1
  refine ⟨hmem, ?_⟩
  rw [hposition, hindexed i raw hi]
  exact_mod_cast hlength

omit [DecidableEq L] in
/-- What an exception becomes does not matter to the state. -/
theorem handled_snd (handled : Bool) (r : Except Error Unit × State L E) :
    (if handled then (.ok (), r.2) else r).2 = r.2 := by
  cases handled <;> rfl

mutual

theorem act_progresses (hall : ∀ record, listeners.told around record = everyone)
    {s : State L E} (hindexed : Indexed s.records) :
    (a : Act E) → Progresses serdes everyone [] s (act around listeners serdes filterer s a).2
  | .raise e => progresses_nil hindexed
  | .call u call handled reactions => by
    rw [act]
    dsimp only
    rw [handled_snd]
    cases hrequest : request (serdes u) call with
    | error e => exact progresses_nil hindexed
    | ok r =>
      cases r with
      | fetch streamId start stop =>
        refine progresses_same hindexed ?_
        rw [InMemoryTenants.stores_of_ok hrequest]
        rfl
      | snapshot raw =>
        refine progresses_same hindexed ?_
        rw [InMemoryTenants.stores_of_ok hrequest]
        rfl
      | delete streamId =>
        refine progresses_same hindexed ?_
        rw [InMemoryTenants.stores_of_ok hrequest]
        exact InMemoryStorageStrategy.deleteStream_records streamId s.inMemory
      | insert streamId versioning events =>
        have hstored := storeRecords_cases
          (.mk (dispatchers around listeners serdes u) filterer u) versioning
          (request_proper hrequest).2 s.inMemory
        have hextends := storeRecords_extends hindexed
          (.mk (dispatchers around listeners serdes u) filterer u) streamId versioning events
        dsimp only at hstored ⊢
        revert hstored hextends
        rcases InMemoryStorageStrategy.storeRecords _ streamId versioning events s.inMemory with
          ⟨e | records, inMemory⟩
        · rintro (⟨-, hsame⟩ | ⟨hok, -⟩) -
          · exact progresses_same hindexed hsame
          · cases hok
        · rintro (⟨⟨e, herror⟩, -⟩ | ⟨hok, hrecords⟩) hextends
          · cases herror
          · cases hok
            have hstored : Indexed ({ s with inMemory } : State L E).records := hextends.indexed
            refine progresses_append hall hrecords hstored
              (fun raw hraw => (mem_recordsFrom _ hraw).2) ?_
            exact dispatch_progresses hall hstored (due_scheduled hall hstored hrecords) reactions

theorem actAll_progresses (hall : ∀ record, listeners.told around record = everyone)
    {s : State L E} (hindexed : Indexed s.records) :
    (as : List (Act E)) →
      Progresses serdes everyone [] s (actAll around listeners serdes filterer s as).2
  | [] => progresses_nil hindexed
  | a :: as => by
    have hfirst := act_progresses hall hindexed a
    rw [actAll]
    revert hfirst
    rcases act around listeners serdes filterer s a with ⟨_ | _, s'⟩
    · exact id
    · exact fun hfirst => hfirst.trans (actAll_progresses hall hfirst.1.indexed as)

theorem dispatch_progresses (hall : ∀ record, listeners.told around record = everyone)
    {s : State L E} (hindexed : Indexed s.records)
    {calls : List (Except Error (L × Recorded E))} (hdue : Due everyone s calls) :
    (reactions : List (List (Act E))) →
      Progresses serdes everyone calls s
        (dispatch around listeners serdes filterer s calls reactions).2
  | [] => by
    rw [dispatch]
    exact finishDispatch_progresses hindexed hdue
  | reaction :: reactions => by
    cases calls with
    | nil =>
      rw [dispatch]
      exact progresses_nil hindexed
    | cons call calls =>
      cases call with
      | error e =>
        rw [dispatch]
        exact ⟨.refl hindexed, nofun⟩
      | ok call =>
        let told : State L E := { s with calls := s.calls ++ [call] }
        have htold : Indexed told.records := hindexed
        have hreaction := actAll_progresses hall htold reaction
        rw [dispatch]
        change Progresses serdes everyone _ s
          (match actAll around listeners serdes filterer told reaction with
            | (.error e, s) => s.abort e
            | (.ok (), after) => dispatch around listeners serdes filterer (s.noting calls after)
                calls reactions).2
        revert hreaction
        rcases actAll around listeners serdes filterer told reaction with ⟨e | _, after⟩
        · exact fun hreaction => ⟨hreaction.1, nofun⟩
        · intro hreaction
          have hnoted : Indexed (s.noting calls after).records := hreaction.1.indexed
          have hlonger : s.records.length ≤ (s.noting calls after).records.length :=
            hreaction.1.isPrefix.length_le
          refine Progresses.called hreaction ?_ hdue
          exact dispatch_progresses hall hnoted (hdue.tail hlonger) reactions

end

theorem run_progresses (hall : ∀ record, listeners.told around record = everyone)
    {s : State L E} (hindexed : Indexed s.records) (acts : List (Act E)) :
    Progresses serdes everyone [] s
      (Runs.run (act around listeners serdes filterer) s acts).2 := by
  induction acts generalizing s with
  | nil => exact progresses_nil hindexed
  | cons a acts ih =>
    have hfirst : Progresses serdes everyone [] s (act around listeners serdes filterer s a).2 :=
      act_progresses hall hindexed a
    exact hfirst.trans (ih hfirst.1.indexed)

theorem positions_of_read {records : List (Recorded E)} {raws : List RecordedRaw}
    (h : records.map .ok = raws.map (read serdes)) :
    records.map (·.position) = raws.map (·.position) := by
  induction records generalizing raws with
  | nil =>
    obtain rfl := List.map_eq_nil_iff.1 h.symm
    rfl
  | cons record records ih =>
    cases raws with
    | nil => cases h
    | cons raw raws =>
      obtain ⟨hread, hrest⟩ := List.cons.inj h
      rw [List.map_cons, List.map_cons, position_of_read hread.symm, ih hrest]

theorem ascending_of_read {records : List (Recorded E)} {raws : List RecordedRaw}
    (hindexed : Indexed raws) (h : records.map .ok = raws.map (read serdes)) :
    Ascending records := by
  have hpositions : (raws.map (·.position)).Pairwise (· < ·) := by
    rw [List.pairwise_map, List.pairwise_iff_getElem]
    intro i j hi hj hij
    rw [hindexed i _ (List.getElem?_eq_getElem hi), hindexed j _ (List.getElem?_eq_getElem hj)]
    change (i : ℤ) + 1 < j + 1
    omega
  rw [← positions_of_read h, List.pairwise_map] at hpositions
  exact hpositions

/-- The state that a run leads to. -/
def after (around : Surroundings T L E) (listeners : Listeners T L) (serdes : TenantId → Serde E)
    (filterer : Option (RawEvent → Bool)) (acts : List (Act E)) : State L E :=
  (Runs.run (act around listeners serdes filterer) {} acts).2

/-- Whatever listeners for all events do while they are called, each of them is called once for
every stored record, if no dispatch ends early. All of them are called in the order of the
positions if and only if no record is added in a call before the last one of a dispatch. -/
theorem listeners_see_records (around : Surroundings T L E) (serdes : TenantId → Serde E)
    (filterer : Option (RawEvent → Bool)) {listeners : Listeners T L} {everyone : Finset L}
    (hall : ∀ record, listeners.told around record = everyone) (acts : List (Act E))
    (hcomplete : (after around listeners serdes filterer acts).aborted = false) :
    let s := after around listeners serdes filterer acts
    Indexed s.records ∧
      (∀ l ∈ everyone, ((received l s.calls).map .ok).Perm (s.records.map (read serdes))) ∧
      ((∀ l ∈ everyone, Ascending (received l s.calls)) ↔ s.interleaved = false) := by
  intro s
  have hstart : Indexed ({} : State L E).records := indexed_nil
  have hprogresses : Progresses serdes everyone [] {} s := run_progresses hall hstart acts
  obtain ⟨hextends, hprogress⟩ := hprogresses
  obtain ⟨none, made, new, hnone, hrun⟩ := hprogress hcomplete
  obtain rfl := List.map_eq_nil_iff.1 hnone.symm
  have hrecords : s.records = new := hrun.records
  have hcalls : s.calls = made := hrun.calls
  rw [hcalls, hrecords]
  refine ⟨hrecords ▸ hextends.indexed, hrun.once, ?_⟩
  constructor
  · intro hascending
    by_contra hinterleaved
    rw [Bool.not_eq_false] at hinterleaved
    rcases hrun.disordered hinterleaved with hstart | ⟨l, hl, hnot⟩
    · cases hstart
    · exact hnot (hascending l hl)
  · intro hinterleaved l hl
    exact ascending_of_read (hrecords ▸ hextends.indexed) ((hrun.ordered hinterleaved).2 l hl)

end Runs

section Example

/-- Two listeners for all events. -/
def everyEvent : Listeners ShopEvent (Fin 3) :=
  (Runs.run Listeners.step {}
    (((List.finRange 3).take 2).map fun listener => .register listener (.eventType .event))).2

theorem told_everyEvent (record : Recorded Unit) : everyEvent.told shop record = {0, 1} := by
  have htypes : everyEvent.getItem shop.issubclass (.eventType .orderPlaced) = {0, 1} := by decide
  have hcategories : everyEvent.getItem shop.issubclass
      (.category record.streamId.categoryText) = ∅ := rfl
  change everyEvent.getItem shop.issubclass (.eventType .orderPlaced) ∪ _ = _
  rw [htypes, hcategories, Finset.union_empty]

/-- Two events are appended to the order, and the listeners react in their four calls. -/
def placed (reactions : List (List (Act Unit))) : Act Unit :=
  .call "" (.appendEvents ⟨(), 1, 0⟩ [⟨(), 2, 0⟩] order .noVersioning) true reactions

/-- An event is appended to the invoice. -/
def invoiced : Act Unit :=
  .call "" (.appendEvents ⟨(), 3, 0⟩ [] invoice .noVersioning) true []

/-- The state after the events were placed. -/
abbrev afterPlaced (reactions : List (List (Act Unit))) : State (Fin 3) Unit :=
  after shop everyEvent (fun _ => plainSerde) none [placed reactions]

theorem listeners_see_records_last :
    Ascending (received 0 (afterPlaced [[], [], [], [invoiced]]).calls) ∧
      Ascending (received 1 (afterPlaced [[], [], [], [invoiced]]).calls) := by
  have hcomplete : (afterPlaced [[], [], [], [invoiced]]).aborted = false := by decide +kernel
  have hlast : (afterPlaced [[], [], [], [invoiced]]).interleaved = false := by decide +kernel
  have hascending := (listeners_see_records shop (fun _ => plainSerde) none told_everyEvent
    [placed [[], [], [], [invoiced]]] hcomplete).2.2.2 hlast
  exact ⟨hascending 0 (by decide), hascending 1 (by decide)⟩

/-- A listener appends in the first call, or it raises. -/
theorem listeners_see_nested_first :
    ((received 0 (afterPlaced [[invoiced]]).calls).map (·.position) = [1, 3, 2] ∧
      ¬ Ascending (received 0 (afterPlaced [[invoiced]]).calls)) ∧
    (received 0 (afterPlaced [[.raise (.listenerError "")]]).calls).map (·.position) = [1] ∧
      (afterPlaced [[.raise (.listenerError "")]]).records.map (·.position) = [1, 2] := by
  have hpositions : (received 0 (afterPlaced [[invoiced]]).calls).map (·.position) = [1, 3, 2] := by
    decide +kernel
  refine ⟨⟨hpositions, fun hascending => ?_⟩, by decide +kernel, by decide +kernel⟩
  have hpairwise := List.pairwise_map.2 hascending
  rw [hpositions] at hpairwise
  revert hpairwise
  decide

end Example

end EventSourcery.NestedDispatch
