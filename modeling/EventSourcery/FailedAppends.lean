import EventSourcery.InMemoryOutbox
import EventSourcery.InMemorySubscriptions

/-!
# Failed appends of the in-memory backend

An append creates its stream before it checks the version, and stores its records before it
dispatches them, and takes nothing back when it raises. Calls, subscriptions and the outbox
show what a state of the backend is. An append goes unnoticed exactly when it raises before
it gets to the backend, or when the version of a stream that exists is refused.
-/
namespace EventSourcery.FailedAppends
open EventStore Tenants InMemoryStorageStrategy InMemorySubscriptions

variable {E : Type}

/-- What clients do with a backend: a subscription is known by its kind and its current
position, and nobody writes while it waits. -/
inductive Operation (E : Type) where
  | call (tenantId : TenantId) (call : Call E)
  | next (kind : Kind) (batchSize currentPosition checks : ℕ)
  | runOutbox (publisher : Publisher E) (limit : ℕ)

/-- What an operation shows of the backend. -/
inductive Result (E : Type) where
  | answer (answer : Answer E)
  | batch (batch : Except Error (List RecordedRaw × ℕ))
  | published (raised : Except Error Unit) (handed : List (Recorded E))

/-- An in-memory backend: the dispatcher of each tenant, its outbox, if it has one, and the
serialization under the outbox. -/
structure Client (E : Type) where
  dispatchers : TenantId → Dispatcher E
  outbox : Option InMemoryOutboxStorageStrategy
  serde : Serde E

namespace Client
variable (client : Client E)

def filterer : Option (RawEvent → Bool) := client.outbox.map (·.filterer)

def strategy (u : TenantId) : InMemoryStorageStrategy E :=
  ⟨client.dispatchers u, client.filterer, u⟩

def stores : TenantId → EventStore E InMemory :=
  InMemoryTenants.stores client.dispatchers client.filterer

def step (s : InMemory) : Operation E → Result E × InMemory
  | .call u call =>
      let r := callStep client.stores s (u, call)
      (.answer r.1, r.2)
  | .next kind batchSize currentPosition checks =>
      let r := nextLoop client.dispatchers client.filterer kind batchSize []
        (List.replicate checks []) [] (s, currentPosition)
      (.batch (r.1.map fun batch => (batch, r.2.2)), r.2.1)
  | .runOutbox publisher limit =>
      match client.outbox with
      | none => (.published (.ok ()) [], s)
      | some strategy =>
          let r := strategy.run client.serde publisher limit s.outbox
          (.published r.1 (InMemoryOutboxStorageStrategy.allHanded r.2.1),
            { s with outbox := r.2.2 })

/-- Whatever is done from two states, the results are the same. -/
def Alike (s s' : InMemory) : Prop :=
  ∀ later : List (Operation E),
    (Runs.run client.step s later).1 = (Runs.run client.step s' later).1

end Client

/-- An append that raises before it changes anything: its events cannot be serialized, or its
stream is held and the version of the stream is refused. -/
def Harmless (serde : Serde E) (s : InMemory) (call : Call E) : Prop :=
  match request serde call with
  | .error _ => True
  | .ok (.insert streamId versioning _) =>
      s.storage.contains streamId = true ∧
        ∃ version e, s.storage.getVersion streamId = .ok version ∧
          versioning.admits version = .error e
  | .ok _ => False

section States

structure Inv (s : InMemory) : Prop where
  sound : s.storage.Sound
  indexed : Indexed s.storage.records

theorem inv_empty : Inv {} where
  sound _ h := by cases h
  indexed := indexed_nil

variable {client : Client E} {s s' : InMemory}

variable (client) in
/-- Nobody writes while a client waits. -/
theorem nextLoop_state (kind : Kind) (batchSize checks : ℕ) (batch : List RecordedRaw)
    (s : InMemory) (n : ℕ) :
    (nextLoop client.dispatchers client.filterer kind batchSize []
      (List.replicate checks []) batch (s, n)).2.1 = s := by
  induction checks generalizing batch n with
  | zero =>
    unfold nextLoop
    dsimp only [List.replicate_zero]
    split
    · split <;> rfl
    · rfl
  | succ checks ih =>
    unfold nextLoop
    dsimp only [List.replicate_succ]
    split
    · split
      · rfl
      · exact ih _ _
    · rfl

theorem handle_inv (h : Inv s) (u : TenantId) {r : Request} (hr : r.Proper) :
    Inv ((client.stores u).storageStrategy.handle s r).2 := by
  cases r with
  | fetch streamId start stop => exact h
  | insert streamId versioning events =>
    change Inv (insertEvents _ streamId versioning events s).2
    rw [insertEvents_state]
    exact ⟨storeRecords_sound h.sound hr.2,
      (storeRecords_extends h.indexed _ streamId versioning events).indexed⟩
  | snapshot raw =>
    exact ⟨(saveSnapshot_page _ h.sound raw).1.sound, h.indexed⟩
  | delete streamId =>
    refine ⟨(deleteStream_page h.sound streamId u).1.sound, ?_⟩
    change Indexed (InMemoryStorageStrategy.deleteStream streamId s).2.storage.records
    unfold InMemoryStorageStrategy.deleteStream
    split
    · exact h.indexed
    · exact h.indexed

variable (client) in
theorem step_inv (s : InMemory) (operation : Operation E) (h : Inv s) :
    Inv (client.step s operation).2 := by
  cases operation with
  | call u call =>
    change Inv ((client.stores u).call s call).2
    rw [call_eq]
    cases hr : request (client.stores u).serde call with
    | error e => exact h
    | ok r => exact handle_inv h u (request_proper hr)
  | next kind batchSize currentPosition checks =>
    have hstate := nextLoop_state client kind batchSize checks [] s currentPosition
    change Inv (nextLoop _ _ kind batchSize [] (List.replicate checks []) []
      (s, currentPosition)).2.1
    rwa [hstate]
  | runOutbox publisher limit =>
    unfold Client.step
    dsimp only
    split
    · exact h
    · exact ⟨h.sound, h.indexed⟩

theorem Alike.step (h : client.Alike s s') (operation : Operation E) :
    client.Alike (client.step s operation).2 (client.step s' operation).2 := by
  intro later
  have hlater := h (operation :: later)
  simp only [Runs.run_cons, List.cons.injEq] at hlater
  exact hlater.2

/-- A subscription shows what is stored. -/
theorem Alike.records (h : client.Alike s s') (hs : Inv s) (hs' : Inv s') :
    s.storage.records = s'.storage.records := by
  apply List.ext_getElem?
  intro n
  have hnext := h [.next .all 1 n 0]
  simp only [Runs.run_cons, Runs.run_nil, Client.step, nextLoop, List.replicate_zero, popRecord,
    popAny_eq hs.indexed, popAny_eq hs'.indexed] at hnext
  simp only [List.length_nil, Nat.zero_lt_one, if_true, Except.map, List.nil_append,
    List.cons.injEq, Result.batch.injEq, Except.ok.injEq, Prod.mk.injEq, and_true] at hnext
  cases hrecord : s.storage.records[n]? <;> cases hrecord' : s'.storage.records[n]? <;>
    simp_all

theorem callStep_of_insert {u : TenantId} {call : Call E} {streamId : StreamId}
    {versioning : Versioning} {events : List RawEvent}
    (hr : request (client.dispatchers u).serde call = .ok (.insert streamId versioning events)) :
    (client.step s (.call u call)).2 =
      ((client.strategy u).storeRecords streamId versioning events s).2 :=
  congrArg Prod.snd (InMemoryTenants.stores_of_insert hr)

theorem ensured_inv (hs : Inv s) (streamId : StreamId) (versioning : Versioning) :
    Inv { s with storage := ensured streamId versioning s.storage } := by
  have hrecords : (ensured streamId versioning s.storage).records = s.storage.records :=
    ensureStream_records streamId versioning s.storage
  refine ⟨(writes_ensured hs.sound streamId versioning "").sound, ?_⟩
  rw [hrecords]
  exact hs.indexed

/-- A stream that a refused append has created refuses an append without versioning, which
would have created the stream otherwise. -/
theorem created_noticed (hs : Inv s) {u : TenantId} {streamId : StreamId} {versioning : Versioning}
    {events : List RawEvent} (hproper : (Request.insert streamId versioning events).Proper)
    (habsent : s.storage.contains streamId = false) {e : Error}
    (hrefused : versioning.admits (foundVersion streamId versioning s.storage) = .error e)
    {unversioned : Call E} (hunversioned : request (client.dispatchers u).serde unversioned =
      .ok (.insert streamId .noVersioning events)) :
    ¬ client.Alike s { s with storage := ensured streamId versioning s.storage } := by
  intro halike
  have hpage : s.storage.page streamId.key = none := by
    have hnone : s.storage.data streamId.key = none := by simpa [Storage.contains] using habsent
    simp [Storage.page, hnone]
  have hcreated : versioning.created = some 0 := by
    apply Versioning.created_of_admits_error (e := e)
    simpa [foundVersion, hpage, Page.opened] using hrefused
  have hinv' := ensured_inv hs streamId versioning
  set s' : InMemory := { s with storage := ensured streamId versioning s.storage } with hs'
  have hlater := Alike.records (Alike.step halike (.call u unversioned)) (step_inv client s _ hs)
    (step_inv client s' _ hinv')
  rw [callStep_of_insert hunversioned, callStep_of_insert hunversioned] at hlater
  have hadmits : Versioning.noVersioning.admits
      (foundVersion streamId .noVersioning s.storage) = .ok () := by
    simp only [foundVersion, hpage]
    rfl
  have hrefuses : Versioning.noVersioning.admits
      (foundVersion streamId .noVersioning s'.storage) =
        .error .noExpectedVersionGivenOnVersionedStream := by
    simp only [foundVersion, hs', ensured_page hs.sound, hpage, Option.getD_some, Option.getD_none,
      Page.opened, hcreated]
    rfl
  rw [(storeRecords_admitted hs.sound hproper.2 hadmits).2,
    storeRecords_refused hinv'.sound hproper.2 hrefuses] at hlater
  have hsame : (ensured streamId .noVersioning s'.storage).records = s.storage.records :=
    (ensureStream_records streamId .noVersioning s'.storage).trans
      (ensureStream_records streamId versioning s.storage)
  rw [hsame] at hlater
  exact recordsFrom_ne_nil hproper.1 _ (List.append_right_eq_self.1 hlater)

end States

/-- Whatever clients have done before, an append makes no difference to what they can do
later if and only if it is harmless. -/
theorem append_alike_iff (client : Client E) (past : List (Operation E)) (u : TenantId)
    (call : Call E) (happends : call.Appends) :
    let s := (Runs.run client.step {} past).2
    client.Alike s (client.step s (.call u call)).2 ↔
      Harmless (client.dispatchers u).serde s call := by
  intro s
  have hs : Inv s := Runs.run_invariant (step_inv client) inv_empty past
  unfold Harmless
  cases hr : request (client.dispatchers u).serde call with
  | error e =>
    have hsame : (client.step s (.call u call)).2 = s :=
      congrArg Prod.snd (InMemoryTenants.stores_of_error hr)
    rw [hsame]
    exact ⟨fun _ => trivial, fun _ _ => rfl⟩
  | ok r =>
    obtain ⟨streamId, versioning, events, rfl, unversioned, hunversioned⟩ :=
      request_of_appends happends hr
    have hproper := request_proper hr
    rw [callStep_of_insert hr]
    cases hadmits : versioning.admits (foundVersion streamId versioning s.storage) with
    | ok =>
      constructor
      · intro halike
        have hinv := step_inv client s (.call u call) hs
        rw [callStep_of_insert hr] at hinv
        have hrecords := Alike.records halike hs hinv
        rw [(storeRecords_admitted hs.sound hproper.2 hadmits).2] at hrecords
        exact absurd (List.append_right_eq_self.1 hrecords.symm) (recordsFrom_ne_nil hproper.1 _)
      · intro ⟨hheld, version, e, hversion, hrefused⟩
        rw [foundVersion_of_held hheld hversion, hrefused] at hadmits
        cases hadmits
    | error e =>
      rw [storeRecords_refused hs.sound hproper.2 hadmits]
      by_cases hheld : s.storage.contains streamId = true
      · obtain ⟨version, hversion⟩ := Option.isSome_iff_exists.1 (hs.sound _ hheld)
        have hget : s.storage.getVersion streamId = .ok version := by
          simp [Storage.getVersion, hversion]
        rw [ensured, if_pos hheld]
        rw [foundVersion_of_held hheld hget] at hadmits
        exact ⟨fun _ => ⟨hheld, version, e, hget, hadmits⟩, fun _ _ => rfl⟩
      · constructor
        · intro halike
          exact absurd halike
            (created_noticed hs hproper (by simpa using hheld) hadmits hunversioned)
        · exact fun hharmless => absurd hharmless.1 hheld

section Example

/-- A backend whose listeners raise, if there are any. -/
def plainClient (listeners : List (Recorded Unit → Except Error Unit)) : Client Unit where
  dispatchers _ := ⟨plainSerde, fun _ => listeners⟩
  outbox := none
  serde := plainSerde

def appendTo (streamId : StreamId) (expected : ExpectedVersion) : Call Unit :=
  .appendEvents ⟨(), 1, 0⟩ [] streamId expected

theorem append_alike_iff_held :
    let client := plainClient []
    let s := (Runs.run client.step {} [.call "a" (appendTo order (.version 0))]).2
    client.Alike s (client.step s (.call "a" (appendTo order (.version 7)))).2 :=
  (append_alike_iff (plainClient []) [.call "a" (appendTo order (.version 0))] "a"
    (appendTo order (.version 7)) trivial).2 ⟨rfl, some 1, _, rfl, rfl⟩

/-- A refused append to a stream that does not exist decides that the stream has versions. An
append whose listener raises leaves its event behind. -/
theorem failedAppend_noticed :
    (let client := plainClient []
    let failed := client.step {} (.call "a" (appendTo order (.version 5)))
    failed.1 = .answer (.error (.concurrentStreamWriteError [.int 0, .int 5])) ∧
      (client.step {} (.call "a" (appendTo order .noVersioning))).1 = .answer (.ok []) ∧
      (client.step failed.2 (.call "a" (appendTo order .noVersioning))).1 =
        .answer (.error .noExpectedVersionGivenOnVersionedStream)) ∧
    (let client := plainClient [fun _ => .error (.listenerError "sold out")]
    let failed := client.step {} (.call "a" (appendTo order (.version 0)))
    failed.1 = .answer (.error (.listenerError "sold out")) ∧
      (client.step {} (.call "a" (.loadStream order none none))).1 = .answer (.ok []) ∧
      (client.step failed.2 (.call "a" (.loadStream order none none))).1 =
        .answer (.ok [WrappedEvent.wrap () 1 0 (some 1)])) :=
  ⟨⟨rfl, rfl, rfl⟩, rfl, rfl, rfl⟩

end Example

end EventSourcery.FailedAppends
