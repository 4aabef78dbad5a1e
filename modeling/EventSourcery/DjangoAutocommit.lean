import EventSourcery.AppendAttempts

/-!
# Appends on Django outside of a transaction

Nothing in the Django store opens a transaction. Where its caller opens none either, every statement
is committed at once, and those of other appends come in between. What is left of the optimistic
locking is the condition of the version bump: each bump takes over the version of the stream where
the one before has left it. Events that no bump stands for are those of appends that expect version
0 and find the stream there. The appends are those of bare events, which the event store numbers.
-/
namespace EventSourcery.Sql.DjangoAutocommit
open DjangoStorageStrategy Runs

/-! ## Chains of claims -/

section Chains
variable {α : Type} {start stop : α → ℤ}

/-- Each claim starts where the one before has stopped. -/
def Chained (start stop : α → ℤ) : ℤ → List α → ℤ → Prop
  | p, [], q => q = p
  | p, a :: as, q => start a = p ∧ Chained start stop (stop a) as q

theorem Chained.concat {p q : ℤ} {as : List α} {a : α} (h : Chained start stop p as q)
    (ha : start a = q) : Chained start stop p (as ++ [a]) (stop a) := by
  induction as generalizing p with
  | nil =>
    cases h
    exact ⟨ha, rfl⟩
  | cons b as ih => exact ⟨h.1, ih h.2⟩

theorem Chained.bounds (hlt : ∀ a, start a < stop a) {p q : ℤ} {as : List α}
    (h : Chained start stop p as q) : p ≤ q ∧ ∀ a ∈ as, p ≤ start a ∧ stop a ≤ q := by
  induction as generalizing p with
  | nil =>
    cases h
    simp
  | cons b as ih =>
    obtain ⟨rfl, hrest⟩ := h
    obtain ⟨hle, hall⟩ := ih hrest
    have hb := hlt b
    refine ⟨by omega, List.forall_mem_cons.2 ⟨⟨le_rfl, hle⟩, fun a ha => ?_⟩⟩
    have := hall a ha
    omega

/-- No two claims of a chain have a number in common. -/
theorem Chained.disjoint (hlt : ∀ a, start a < stop a) {p q : ℤ} {as : List α}
    (h : Chained start stop p as q) {a b : α} (ha : a ∈ as) (hb : b ∈ as) {v : ℤ}
    (hav : start a < v ∧ v ≤ stop a) (hbv : start b < v ∧ v ≤ stop b) : a = b := by
  induction as generalizing p with
  | nil => cases ha
  | cons c as ih =>
    obtain ⟨rfl, hrest⟩ := h
    have hlater := (hrest.bounds hlt).2
    rcases List.mem_cons.1 ha with rfl | hrestA <;> rcases List.mem_cons.1 hb with rfl | hrestB
    · rfl
    · have := hlater b hrestB
      omega
    · have := hlater a hrestA
      omega
    · exact ih hrest hrestA hrestB

end Chains

/-! ## Sessions -/

/-- What `append` asks its strategy to insert. -/
structure Insertion where
  tenantId : TenantId
  streamId : StreamId
  expected : ExpectedVersion
  events : List RawEvent
  nonempty : events ≠ []
  addressed : ∀ raw ∈ events, raw.streamId = streamId
  versions : events.map (·.version) = (List.range events.length).map expected.versionAt

namespace Insertion
variable (x : Insertion)

def versioning : Versioning :=
  match x.expected with
  | .version v => .explicit v (some (v + x.events.length))
  | .noVersioning => .noVersioning

def bodies : List EventBody := x.events.map .ofRaw

/-- The version that an append starts from, and the one that it leaves. -/
def start : ℤ :=
  match x.expected with
  | .version v => v
  | .noVersioning => 0

def stop : ℤ := x.start + x.events.length

end Insertion

open AppendAttempts in
/-- What an append asks for, when its events can be serialized. -/
theorem exists_insertion {E : Type} {serde : Serde E} {a : Attempt E} {r : Request}
    (h : EventStore.request serde a.call = .ok r) (t : TenantId) :
    ∃ x : Insertion, x.tenantId = t ∧ r = .insert x.streamId x.versioning x.events := by
  obtain ⟨raws, rfl, hversions⟩ := request_attempt h
  obtain ⟨hnonempty, haddressed⟩ := EventStore.request_proper h
  have hlength : raws.length = a.count := by
    simpa [Attempt.versions] using congrArg List.length hversions
  have hversioning : a.versioning = match a.expected with
      | .version v => .explicit v (some (v + raws.length))
      | .noVersioning => .noVersioning := by
    unfold Attempt.versioning
    cases a.expected with
    | version v => simp [hlength]
    | noVersioning => rfl
  exact ⟨⟨t, a.streamId, a.expected, raws, hnonempty, haddressed, hlength ▸ hversions⟩, rfl,
    congrArg (fun versioning => Request.insert a.streamId versioning raws) hversioning⟩

/-- Between which statements of `insert_events` an append is. -/
inductive Stage where
  | start
  /-- No stream with the name has another uuid. -/
  | checked
  /-- `get_or_create` has found nothing. -/
  | absent
  /-- What it has inserted then breaks a constraint. -/
  | clashed
  | ensured (model : StreamRow)
  | bumped (model : StreamRow)
  | located (stream : StreamRow)
  | stored (records : List RecordedRaw)
  | finished (r : Except Error Unit)

/-- After a statement: where the append is, and the row whose versions it has claimed, or that it
has stored its events for. -/
structure Outcome where
  stage : Stage
  db : Database
  claims : Option ℕ := none
  stores : Option ℕ := none

section Code
variable {E : Type} (strategy : DjangoStorageStrategy E) (x : Insertion)

/-- The `get` of `get_or_create`. -/
def Insertion.get (db : Database) : Except Error StreamRow :=
  getOne (db.streams.filter fun row =>
    sameColumns x.streamId row.toStreamHead && row.tenantId = x.tenantId)

def Insertion.proceed (model : StreamRow) : Stage :=
  match x.versioning.validateIfCompatible model.version with
  | .error e => .finished (.error e)
  | .ok () => .ensured model

/-- `scoped_for_tenant` -/
def scopedForTenant (t : TenantId) : DjangoStorageStrategy E := { strategy with tenantId := t }

/-- The next statement of an append. -/
def advance (db : Database) : Stage → Option Outcome
  | .start =>
      match checkName StreamRow.toStreamHead x.streamId
        ((scopedForTenant strategy x.tenantId).byStreamId x.streamId db) with
      | .error e => some { stage := .finished (.error e), db }
      | .ok () => some { stage := .checked, db }
  | .checked =>
      match x.get db with
      | .error .doesNotExist => some { stage := .absent, db }
      | .error e => some { stage := .finished (.error e), db }
      | .ok model => some { stage := x.proceed model, db }
  | .absent =>
      let head := StreamHead.ofStreamId x.streamId x.versioning.initialVersion
      if db.streams.any fun row => row.tenantId = x.tenantId && head.clashes row.toStreamHead then
        some { stage := .clashed, db }
      else
        let id := strategy.engine.nextId (db.streams.map (·.id)) db.streamSeq
        some {
          stage := x.proceed { head with id, tenantId := x.tenantId }
          db := db.insertStream strategy.engine head x.tenantId
          -- nothing is compared with 0, so that the versions are taken with the row
          claims := if x.expected = .version 0 then some id else none }
  | .clashed =>
      match x.get db with
      | .error .doesNotExist => some { stage := .finished (.error .integrityError), db }
      | .error e => some { stage := .finished (.error e), db }
      | .ok model => some { stage := x.proceed model, db }
  | .ensured model =>
      match x.versioning.compared with
      | none => some { stage := .bumped model, db }
      | some expected =>
          let hit := fun row : StreamRow => row.id = model.id && row.version = some expected
          let bumped := db.setVersion hit x.versioning.initialVersion
          if db.streams.countP hit ≠ 1 then
            some { stage := .finished (.error (.concurrentStreamWriteError [])), db := bumped }
          else some { stage := .bumped model, db := bumped, claims := some model.id }
  | .bumped _ =>
      match x.events.head? with
      | none => some { stage := .finished (.error .valueError), db }
      | some event =>
          match getOne ((scopedForTenant strategy x.tenantId).byStreamId event.streamId db) with
          | .error e => some { stage := .finished (.error e), db }
          | .ok stream => some { stage := .located stream, db }
  | .located stream =>
      if uuidsFree x.bodies (db.events.map (·.body)) then
        let added := db.addEvents strategy.engine stream.id x.bodies
        some {
          stage := .stored (recordsOf x.tenantId x.events added.1)
          db := added.2
          stores := some stream.id }
      else some { stage := .finished (.error .integrityError), db }
  | .stored records =>
      some {
        stage := .finished (strategy.dispatcher.dispatch records)
        db := strategy.outbox.elim db (·.putIntoOutbox records db) }
  | .finished _ => none

end Code

/-- The appends, each with the rows it has claimed and stored for, in the order of time. -/
structure State (ι : Type) where
  db : Database := {}
  stages : ι → Stage := fun _ => .start
  claims : List (ι × ℕ) := []
  stores : List (ι × ℕ) := []

section Step
variable {E ι : Type} [DecidableEq ι] (strategy : DjangoStorageStrategy E) (xs : ι → Insertion)

def State.after (s : State ι) (i : ι) (outcome : Outcome) : State ι where
  db := outcome.db
  stages := Function.update s.stages i outcome.stage
  claims := s.claims ++ (outcome.claims.map fun id => (i, id)).toList
  stores := s.stores ++ (outcome.stores.map fun id => (i, id)).toList

def step (s : State ι) (i : ι) : Option (State ι) :=
  (advance strategy (xs i) s.db (s.stages i)).map (s.after i)

end Step

/-! ## Without others in between -/

section Alone
variable {E : Type} (strategy : DjangoStorageStrategy E) (x : Insertion)

/-- Some statements of an append, from a stage on, if it has so many. -/
def complete : ℕ → Stage → Database → Stage × Database
  | 0, stage, db => (stage, db)
  | n + 1, stage, db =>
      match advance strategy x db stage with
      | none => (stage, db)
      | some outcome => complete n outcome.stage outcome.db

variable {strategy x}

@[simp] theorem complete_finished (n : ℕ) (r : Except Error Unit) (db : Database) :
    complete strategy x n (.finished r) db = (.finished r, db) := by cases n <;> rfl

/-- An append that has come to its end, with what it leaves. -/
def ended (r : Except Error Unit × Database) : Stage × Database := (.finished r.1, r.2)

theorem complete_bumped (n : ℕ) (model : StreamRow) (db : Database) :
    complete strategy x (n + 3) (.bumped model) db =
      ended ((scopedForTenant strategy x.tenantId).storeEvents x.events db) := by
  rw [complete, advance, storeEvents]
  cases x.events.head? with
  | none => simp [ended]
  | some event =>
    dsimp only
    cases getOne ((scopedForTenant strategy x.tenantId).byStreamId event.streamId db) with
    | error e => simp [ended]
    | ok stream =>
      dsimp only
      rw [complete, advance]
      change _ = ended (if uuidsFree x.bodies (db.events.map (·.body)) then _ else _)
      cases uuidsFree x.bodies (db.events.map (·.body)) with
      | false => simp [ended]
      | true => simp [complete, advance, ended, scopedForTenant, Insertion.bodies]

/-- What `insert_events` does with the row that it has found or created. -/
theorem complete_proceed (n : ℕ) (model : StreamRow) (db : Database) :
    complete strategy x (n + 4) (x.proceed model) db = ended (
      match (match x.versioning.validateIfCompatible model.version, x.versioning.compared with
        | .error e, _ => (.error e, db)
        | .ok (), none => (.ok (), db)
        | .ok (), some expected =>
            let hit := fun row : StreamRow => row.id = model.id && row.version = some expected
            let bumped := db.setVersion hit x.versioning.initialVersion
            if db.streams.countP hit ≠ 1 then (.error (.concurrentStreamWriteError []), bumped)
            else (.ok (), bumped) : Except Error Unit × Database) with
      | (.error e, db) => (.error e, db)
      | (.ok (), db) => (scopedForTenant strategy x.tenantId).storeEvents x.events db) := by
  unfold Insertion.proceed
  cases x.versioning.validateIfCompatible model.version with
  | error e => simp [ended]
  | ok u =>
    dsimp only
    rw [complete, advance]
    cases x.versioning.compared with
    | none => exact complete_bumped n model db
    | some expected =>
      dsimp only
      by_cases hone : db.streams.countP (fun row : StreamRow =>
          row.id = model.id && row.version = some expected) ≠ 1
      · rw [if_pos hone, if_pos hone]
        simp [ended]
      · rw [if_neg hone, if_neg hone]
        exact complete_bumped n model _

/-- An append that nothing comes in between of is the insertion of the store. -/
theorem complete_eq_insertEvents (db : Database) : complete strategy x 7 .start db =
    ended ((scopedForTenant strategy x.tenantId).insertEvents x.streamId x.versioning x.events
      db) := by
  have hget : x.get db = getOne (db.streams.filter fun row =>
      sameColumns x.streamId row.toStreamHead &&
        row.tenantId = (scopedForTenant strategy x.tenantId).tenantId) := rfl
  simp only [insertEvents, ensureStream, getOrCreate, ← hget]
  rw [complete, advance]
  cases checkName StreamRow.toStreamHead x.streamId
    ((scopedForTenant strategy x.tenantId).byStreamId x.streamId db) with
  | error e => simp [ended]
  | ok u =>
    dsimp only
    rw [complete, advance]
    cases hfound : x.get db with
    | ok model => exact complete_proceed 1 model db
    | error e =>
      cases e with
      | doesNotExist =>
        dsimp only
        rw [complete, advance]
        by_cases hclash : (db.streams.any fun row => row.tenantId = x.tenantId &&
          (StreamHead.ofStreamId x.streamId x.versioning.initialVersion).clashes
            row.toStreamHead) = true
        · have hclash' : (db.streams.any fun row =>
            row.tenantId = (scopedForTenant strategy x.tenantId).tenantId &&
              (StreamHead.ofStreamId x.streamId x.versioning.initialVersion).clashes
                row.toStreamHead) = true := hclash
          rw [if_pos hclash, if_pos hclash']
          dsimp only
          rw [complete, advance, hfound]
          simp [ended]
        · rw [if_neg hclash]
          have hclash' : ¬ (db.streams.any fun row =>
            row.tenantId = (scopedForTenant strategy x.tenantId).tenantId &&
              (StreamHead.ofStreamId x.streamId x.versioning.initialVersion).clashes
                row.toStreamHead) = true := hclash
          rw [if_neg hclash']
          exact complete_proceed 0 _ _
      | _ => simp [ended]

end Alone

/-! ## What is true between statements -/

section Invariant
variable {ι : Type}

/-- The appends that have claimed versions of a row. -/
def State.claimants (s : State ι) (id : ℕ) : List ι := (s.claims.filter (·.2 = id)).map Prod.fst

/-- The appends that have stored events for a row. -/
def State.storers (s : State ι) (id : ℕ) : List ι := (s.stores.filter (·.2 = id)).map Prod.fst

/-- The events of a row are those of the appends that have stored for it. The version of the row is
the end of a chain of claims, and who stores without a claim expects version 0. -/
structure Accounts (xs : ι → Insertion) (s : State ι) (row : StreamRow) : Prop where
  events : s.db.eventsOf row.id = (s.storers row.id).flatMap fun i => (xs i).bodies
  version : match row.version with
    | none => s.claimants row.id = [] ∧
        ∀ i ∈ s.storers row.id, (xs i).expected = .noVersioning
    | some version =>
        (∃ first, Chained (fun i => (xs i).start) (fun i => (xs i).stop) first
          (s.claimants row.id) version) ∧
        ∀ i ∈ s.storers row.id, (xs i).expected ≠ .noVersioning ∧
          (i ∈ s.claimants row.id ∨ (xs i).expected = .version 0)

/-- The stream of an append is there, and is one that has versions if the append has. -/
def Knows (x : Insertion) (db : Database) (id : ℕ) : Prop :=
  ∃ row ∈ db.streams, row.id = id ∧ row.tenantId = x.tenantId ∧ row.key = columns x.streamId ∧
    (row.version.isSome ↔ x.expected ≠ .noVersioning)

/-- What is true of an append at a stage. -/
def Good (xs : ι → Insertion) (s : State ι) (i : ι) : Stage → Prop
  | .start | .checked | .absent | .clashed =>
      (∀ id, (i, id) ∉ s.claims) ∧ ∀ id, (i, id) ∉ s.stores
  | .ensured model => Knows (xs i) s.db model.id ∧ (∀ id, (i, id) ∉ s.stores) ∧
      ((xs i).versioning.compared ≠ none → ∀ id, (i, id) ∉ s.claims)
  | .bumped model => Knows (xs i) s.db model.id ∧ (∀ id, (i, id) ∉ s.stores) ∧
      ((xs i).versioning.compared ≠ none → (i, model.id) ∈ s.claims)
  | .located stream => Knows (xs i) s.db stream.id ∧ (∀ id, (i, id) ∉ s.stores) ∧
      ((xs i).versioning.compared ≠ none → (i, stream.id) ∈ s.claims)
  | .stored _ => ∃ id, (i, id) ∈ s.stores
  | .finished r => r = .ok () → ∃ id, (i, id) ∈ s.stores

structure Inv (engine : Engine) (xs : ι → Insertion) (s : State ι) : Prop where
  sound : s.db.Sound engine
  accounts : ∀ row ∈ s.db.streams, Accounts xs s row
  good : ∀ i, Good xs s i (s.stages i)
  claims : (s.claims.map Prod.fst).Nodup ∧ ∀ p ∈ s.claims, ∃ row ∈ s.db.streams, row.id = p.2
  stores : (s.stores.map Prod.fst).Nodup ∧ ∀ p ∈ s.stores, ∃ row ∈ s.db.streams, row.id = p.2

theorem inv_initial (engine : Engine) (xs : ι → Insertion) : Inv engine xs {} where
  sound := Database.sound_empty engine
  accounts := by simp
  good i := by simp [Good]
  claims := by simp
  stores := by simp

/-- Rows stay, with the columns that they are known by. -/
def Keeps (db db' : Database) : Prop :=
  ∀ row ∈ db.streams, ∃ row' ∈ db'.streams, row'.id = row.id ∧ row'.tenantId = row.tenantId ∧
    row'.key = row.key ∧ row'.version.isSome = row.version.isSome

theorem Keeps.refl (db : Database) : Keeps db db := fun row hrow => ⟨row, hrow, rfl, rfl, rfl, rfl⟩

theorem Knows.mono {x : Insertion} {db db' : Database} {id : ℕ} (h : Knows x db id)
    (hkeeps : Keeps db db') : Knows x db' id := by
  obtain ⟨row, hrow, hid, htenant, hkey, hversion⟩ := h
  obtain ⟨row', hrow', hid', htenant', hkey', hversion'⟩ := hkeeps row hrow
  exact ⟨row', hrow', hid'.trans hid, htenant'.trans htenant, hkey'.trans hkey,
    hversion' ▸ hversion⟩

/-- What is true of an append stays true while others go on. -/
theorem Good.mono {xs : ι → Insertion} {s s' : State ι} {i : ι} {stage : Stage}
    (h : Good xs s i stage) (hkeeps : Keeps s.db s'.db)
    (hclaims : ∀ id, (i, id) ∈ s'.claims ↔ (i, id) ∈ s.claims)
    (hstores : ∀ id, (i, id) ∈ s'.stores ↔ (i, id) ∈ s.stores) : Good xs s' i stage := by
  cases stage <;> simp only [Good, hclaims, hstores] at h ⊢ <;> first
    | exact h
    | exact ⟨h.1.mono hkeeps, h.2⟩

theorem compared_eq (x : Insertion) (expected : ℤ) :
    x.versioning.compared = some expected ↔ x.expected = .version expected ∧ expected ≠ 0 := by
  unfold Insertion.versioning
  cases x.expected with
  | noVersioning => simp [Versioning.compared]
  | version v => by_cases hv : v = 0 <;> simp [Versioning.compared, hv] <;> grind

/-- A row that is found has the columns of the stream id. -/
theorem proceed_good {xs : ι → Insertion} {s : State ι} {i : ι} {model : StreamRow}
    (hmodel : model ∈ s.db.streams) (htenant : model.tenantId = (xs i).tenantId)
    (hkey : model.key = columns (xs i).streamId)
    (hclaims : (xs i).versioning.compared ≠ none → ∀ id, (i, id) ∉ s.claims)
    (hstores : ∀ id, (i, id) ∉ s.stores) : Good xs s i ((xs i).proceed model) := by
  unfold Insertion.proceed
  cases hvalid : (xs i).versioning.validateIfCompatible model.version with
  | error e => simp [Good]
  | ok u =>
    refine ⟨⟨model, hmodel, rfl, htenant, hkey, ?_⟩, hstores, hclaims⟩
    revert hvalid
    unfold Insertion.versioning
    cases (xs i).expected <;> cases model.version <;>
      simp [Versioning.validateIfCompatible]

theorem get_eq_ok {x : Insertion} {db : Database} {model : StreamRow} (h : x.get db = .ok model) :
    model ∈ db.streams ∧ model.tenantId = x.tenantId ∧ model.key = columns x.streamId := by
  have hmem : model ∈ db.streams.filter fun row =>
      sameColumns x.streamId row.toStreamHead && row.tenantId = x.tenantId := by
    rw [getOne_eq_ok h]
    exact List.mem_singleton_self model
  simp only [List.mem_filter, sameColumns, Bool.and_eq_true, decide_eq_true_eq] at hmem
  obtain ⟨hmodel, ⟨⟨huuid, -⟩, hcategory⟩, htenant⟩ := hmem
  exact ⟨hmodel, htenant, Prod.ext huuid hcategory⟩

theorem filter_fresh {ps : List (ι × ℕ)} {db : Database} {id : ℕ}
    (h : ∀ p ∈ ps, ∃ row ∈ db.streams, row.id = p.2) (hfresh : ∀ row ∈ db.streams, row.id ≠ id) :
    (ps.filter (·.2 = id)).map Prod.fst = [] := by
  rw [List.map_eq_nil_iff, List.filter_eq_nil_iff]
  intro p hp
  obtain ⟨row, hrow, hid⟩ := h p hp
  simpa [← hid] using hfresh row hrow

theorem mem_claimants {s : State ι} {i : ι} {id : ℕ} :
    i ∈ s.claimants id ↔ (i, id) ∈ s.claims := by
  simp [State.claimants]

theorem mem_storers {s : State ι} {i : ι} {id : ℕ} : i ∈ s.storers id ↔ (i, id) ∈ s.stores := by
  simp [State.storers]

/-- A list of pairs that has got one more, of somebody who is not in it. -/
theorem nodup_concat {ps : List (ι × ℕ)} {i : ι} {id : Option ℕ} (h : (ps.map Prod.fst).Nodup)
    (hnew : id.isSome → ∀ id, (i, id) ∉ ps) :
    ((ps ++ (id.map fun id => (i, id)).toList).map Prod.fst).Nodup := by
  cases id with
  | none => simpa using h
  | some id =>
    rw [List.map_append]
    refine List.Nodup.append h (List.nodup_singleton i) ?_
    simpa using hnew rfl

variable [DecidableEq ι] {engine : Engine} {xs : ι → Insertion} {s : State ι} {i : ι}
  {outcome : Outcome}

theorem claimants_after (s : State ι) (i : ι) (outcome : Outcome) (id : ℕ) :
    (s.after i outcome).claimants id =
      s.claimants id ++ if outcome.claims = some id then [i] else [] := by
  unfold State.claimants State.after
  cases outcome.claims with
  | none => simp
  | some id' => by_cases hid : id' = id <;> simp [hid]

theorem storers_after (s : State ι) (i : ι) (outcome : Outcome) (id : ℕ) :
    (s.after i outcome).storers id =
      s.storers id ++ if outcome.stores = some id then [i] else [] := by
  unfold State.storers State.after
  cases outcome.stores with
  | none => simp
  | some id' => by_cases hid : id' = id <;> simp [hid]

/-- The rule for a statement: what it must keep of the rows, and what must be true of the append
then. -/
theorem Inv.after (h : Inv engine xs s) (hsound : outcome.db.Sound engine)
    (hkeeps : Keeps s.db outcome.db)
    (haccounts : ∀ row ∈ outcome.db.streams, Accounts xs (s.after i outcome) row)
    (hgood : Good xs (s.after i outcome) i outcome.stage)
    (hclaims : ∀ id ∈ outcome.claims, (∀ id, (i, id) ∉ s.claims) ∧
      ∃ row ∈ outcome.db.streams, row.id = id)
    (hstores : ∀ id ∈ outcome.stores, (∀ id, (i, id) ∉ s.stores) ∧
      ∃ row ∈ outcome.db.streams, row.id = id) : Inv engine xs (s.after i outcome) := by
  have hrows : ∀ (ps : List (ι × ℕ)) (new : Option ℕ), (∀ p ∈ ps, ∃ row ∈ s.db.streams,
      row.id = p.2) → (∀ id ∈ new, ∃ row ∈ outcome.db.streams, row.id = id) →
      ∀ p ∈ ps ++ (new.map fun id => (i, id)).toList, ∃ row ∈ outcome.db.streams,
        row.id = p.2 := by
    intro ps new hold hnew p hp
    rcases List.mem_append.1 hp with hp | hp
    · obtain ⟨row, hrow, hid⟩ := hold p hp
      obtain ⟨row', hrow', hid', -⟩ := hkeeps row hrow
      exact ⟨row', hrow', hid'.trans hid⟩
    · cases new with
      | none => cases hp
      | some id =>
        rw [List.mem_singleton.1 hp]
        exact hnew id rfl
  refine ⟨hsound, haccounts, fun j => ?_, ⟨?_, ?_⟩, ⟨?_, ?_⟩⟩
  · by_cases hj : j = i
    · subst hj
      simpa [State.after] using hgood
    · have hother : ∀ (ps : List (ι × ℕ)) (new : Option ℕ) (id : ℕ),
          (j, id) ∈ ps ++ (new.map fun id => (i, id)).toList ↔ (j, id) ∈ ps := by
        intro ps new id
        cases new <;> simp [hj]
      have hstage : (s.after i outcome).stages j = s.stages j := Function.update_of_ne hj _ _
      rw [hstage]
      exact (h.good j).mono hkeeps (hother _ _) (hother _ _)
  · refine nodup_concat h.claims.1 fun hsome => ?_
    obtain ⟨id, hid⟩ := Option.isSome_iff_exists.1 hsome
    exact (hclaims id hid).1
  · exact hrows _ _ h.claims.2 fun id hid => (hclaims id hid).2
  · refine nodup_concat h.stores.1 fun hsome => ?_
    obtain ⟨id, hid⟩ := Option.isSome_iff_exists.1 hsome
    exact (hstores id hid).1
  · exact hrows _ _ h.stores.2 fun id hid => (hstores id hid).2

/-- A row with its events stays accounted for, where nobody has claimed or stored for it. -/
theorem Accounts.after {row : StreamRow} (h : Accounts xs s row)
    (hevents : outcome.db.eventsOf row.id = s.db.eventsOf row.id)
    (hclaims : outcome.claims ≠ some row.id) (hstores : outcome.stores ≠ some row.id) :
    Accounts xs (s.after i outcome) row := by
  have hclaimants : (s.after i outcome).claimants row.id = s.claimants row.id := by
    rw [claimants_after, if_neg hclaims, List.append_nil]
  have hstorers : (s.after i outcome).storers row.id = s.storers row.id := by
    rw [storers_after, if_neg hstores, List.append_nil]
  constructor
  · rw [hstorers]
    exact hevents.trans h.events
  · rw [hclaimants, hstorers]
    exact h.version

/-- A statement that leaves the rows and the events. -/
theorem Inv.quiet (h : Inv engine xs s) {stage : Stage} {db : Database}
    (hstreams : db.streams = s.db.streams) (hevents : db.events = s.db.events)
    (hsound : db.Sound engine) (hgood : Good xs s i stage) :
    Inv engine xs (s.after i { stage, db }) := by
  have hkeeps : Keeps s.db db := fun row hrow =>
    ⟨row, hstreams ▸ hrow, rfl, rfl, rfl, rfl⟩
  refine h.after hsound hkeeps ?_ ?_ (by simp) (by simp)
  · intro row hrow
    have heq : db.eventsOf row.id = s.db.eventsOf row.id := by
      simp only [Database.eventsOf, hevents]
    exact (h.accounts row (hstreams ▸ hrow)).after heq (by simp) (by simp)
  · exact hgood.mono hkeeps (by simp [State.after]) (by simp [State.after])

/-! ## Statements -/

variable {id : ℕ} {model : StreamRow}

theorem Inv.accounts_new (h : Inv engine xs s) {head : StreamHead}
    (hhead : head = .ofStreamId (xs i).streamId (xs i).versioning.initialVersion)
    (hfresh : ∀ row ∈ s.db.streams, row.id ≠ id) :
    Accounts xs (s.after i {
      stage := (xs i).proceed { head with id, tenantId := (xs i).tenantId }
      db := s.db.insertStream engine head (xs i).tenantId
      claims := if (xs i).expected = .version 0 then some id else none })
      { head with id, tenantId := (xs i).tenantId } := by
  have hclaimants : s.claimants id = [] := filter_fresh h.claims.2 hfresh
  have hstorers : s.storers id = [] := filter_fresh h.stores.2 hfresh
  constructor
  · rw [storers_after, hstorers]
    exact eventsOf_nil_of_fresh h.sound hfresh
  · simp only [claimants_after, storers_after, hclaimants, hstorers, List.nil_append]
    rw [hhead]
    simp only [StreamHead.ofStreamId, Insertion.versioning]
    cases hexpected : (xs i).expected with
    | noVersioning => simp [Versioning.initialVersion]
    | version v =>
      refine ⟨?_, by simp⟩
      by_cases hv : v = 0
      · refine ⟨0, ?_⟩
        simp [hv, Chained, Insertion.start, Insertion.stop, hexpected]
      · exact ⟨v + (xs i).events.length, by simp [hv, Chained]⟩

/-- A row that is created has no events. An append that expects version 0 claims its versions. -/
theorem Inv.create (h : Inv engine xs s) (hclaims : ∀ id, (i, id) ∉ s.claims)
    (hstores : ∀ id, (i, id) ∉ s.stores) {head : StreamHead}
    (hhead : head = .ofStreamId (xs i).streamId (xs i).versioning.initialVersion)
    (hfree : ∀ row ∈ s.db.streams, row.tenantId = (xs i).tenantId →
      head.clashes row.toStreamHead = false)
    (hid : id = engine.nextId (s.db.streams.map (·.id)) s.db.streamSeq) :
    Inv engine xs (s.after i {
      stage := (xs i).proceed { head with id, tenantId := (xs i).tenantId }
      db := s.db.insertStream engine head (xs i).tenantId
      claims := if (xs i).expected = .version 0 then some id else none }) := by
  have hfresh : ∀ row ∈ s.db.streams, row.id ≠ id := fun row hrow => hid ▸ nextId_fresh h.sound hrow
  have hrows : (s.db.insertStream engine head (xs i).tenantId).streams =
      s.db.streams ++ [{ head with id, tenantId := (xs i).tenantId }] := by
    rw [hid]
    rfl
  have hnew : ∃ row ∈ (s.db.insertStream engine head (xs i).tenantId).streams, row.id = id := by
    rw [hrows]
    exact ⟨_, List.mem_append_right _ (List.mem_singleton_self _), rfl⟩
  refine h.after ?_ ?_ ?_ ?_ ?_ (by simp)
  · refine sound_insertStream h.sound head _ fun row hrow htenant hkey => ?_
    have hclash := hfree row hrow htenant
    rw [StreamHead.clashes_of_key hkey] at hclash
    cases hclash
  · intro row hrow
    refine ⟨row, ?_, rfl, rfl, rfl, rfl⟩
    rw [hrows]
    exact List.mem_append_left _ hrow
  · intro row hrow
    rw [hrows] at hrow
    rcases List.mem_append.1 hrow with hrow | hrow
    · refine (h.accounts row hrow).after rfl ?_ (by simp)
      have := hfresh row hrow
      split <;> simp [Ne.symm this]
    · rw [List.mem_singleton.1 hrow]
      exact h.accounts_new hhead hfresh
  · refine proceed_good ?_ rfl ?_ ?_ ?_
    · rw [State.after, hrows]
      exact List.mem_append_right _ (List.mem_singleton_self _)
    · rw [hhead]
      rfl
    · intro hcompared
      have hzero : (xs i).expected ≠ .version 0 := by
        intro hzero
        simp [Insertion.versioning, hzero, Versioning.compared] at hcompared
      simpa [State.after, hzero] using hclaims
    · simpa [State.after] using hstores
  · intro id' hid'
    split at hid'
    · cases hid'
      exact ⟨hclaims, hnew⟩
    · cases hid'

/-- The condition of the version bump: the row with an id, at the expected version. -/
def hits (id : ℕ) (expected : ℤ) (row : StreamRow) : Bool :=
  row.id = id && row.version = some expected

omit [DecidableEq ι] in
/-- The version bump hits one row or none. -/
theorem countP_hits {db : Database} (hsound : db.Sound engine) {row : StreamRow}
    (hrow : row ∈ db.streams) {expected : ℤ} (hhit : hits id expected row = true) :
    db.streams.countP (hits id expected) = 1 := by
  have hone : db.streams.filter (hits id expected) = [row] := by
    refine filter_eq_singleton hsound.ids.of_map hrow fun other hother => ⟨fun h => ?_, ?_⟩
    · simp only [hits, Bool.and_eq_true, decide_eq_true_eq] at h hhit
      exact eq_of_id hsound.uniqueKeys hother hrow (h.1.trans hhit.1.symm)
    · rintro rfl
      exact hhit
  rw [List.countP_eq_length_filter, hone]
  rfl

/-- A version bump that hits nothing changes nothing. -/
theorem Inv.miss (h : Inv engine xs s) {expected : ℤ} {version : Option ℤ} {e : Error}
    (hmiss : s.db.streams.countP (hits id expected) ≠ 1) :
    Inv engine xs (s.after i {
      stage := .finished (.error e), db := s.db.setVersion (hits id expected) version }) := by
  refine h.quiet ?_ rfl (sound_setVersion h.sound _ _) (by simp [Good])
  refine (List.map_congr_left fun row hrow => ?_).trans (List.map_id _)
  rw [if_neg]
  · rfl
  · exact fun hhit => hmiss (countP_hits h.sound hrow hhit)

/-- A version bump that hits the row takes over its version. -/
theorem Inv.hit (h : Inv engine xs s) {expected : ℤ}
    (hcompared : (xs i).versioning.compared = some expected)
    (hknows : Knows (xs i) s.db id) (hclaims : ∀ id, (i, id) ∉ s.claims)
    (hstores : ∀ id, (i, id) ∉ s.stores) (hone : s.db.streams.countP (hits id expected) = 1)
    (hid : model.id = id) :
    Inv engine xs (s.after i {
      stage := .bumped model
      db := s.db.setVersion (hits id expected) (xs i).versioning.initialVersion
      claims := some id }) := by
  obtain ⟨hexpected, -⟩ := (compared_eq _ _).1 hcompared
  obtain ⟨found, hfound, hhit⟩ := List.countP_pos_iff.1 (hone ▸ Nat.one_pos)
  have hinitial : (xs i).versioning.initialVersion = some (xs i).stop := by
    simp [Insertion.versioning, Insertion.stop, Insertion.start, hexpected,
      Versioning.initialVersion]
  have hkeeps : Keeps s.db (s.db.setVersion (hits id expected)
      (xs i).versioning.initialVersion) := by
    intro row hrow
    refine ⟨_, List.mem_map_of_mem hrow, ?_⟩
    split
    · rename_i hrowhit
      simp only [hits, Bool.and_eq_true, decide_eq_true_eq] at hrowhit
      exact ⟨rfl, rfl, rfl, by rw [hinitial, hrowhit.2]; rfl⟩
    · exact ⟨rfl, rfl, rfl, rfl⟩
  refine h.after (sound_setVersion h.sound _ _) hkeeps ?_ ?_ ?_ (by simp)
  · intro row' hrow'
    obtain ⟨row, hrow, rfl⟩ := List.mem_map.1 hrow'
    split
    · rename_i hrowhit
      simp only [hits, Bool.and_eq_true, decide_eq_true_eq] at hrowhit
      obtain ⟨rfl, hversion⟩ := hrowhit
      have haccounts := h.accounts row hrow
      have hthen := haccounts.version
      rw [hversion] at hthen
      obtain ⟨⟨first, hchain⟩, hstorers⟩ := hthen
      have hstart : (xs i).start = expected := by simp [Insertion.start, hexpected]
      constructor
      · change s.db.eventsOf row.id = _
        simpa [storers_after] using haccounts.events
      · simp only [hinitial, claimants_after, storers_after, if_true]
        refine ⟨⟨first, hchain.concat hstart⟩, ?_⟩
        simpa using fun j hj => ⟨(hstorers j hj).1, (hstorers j hj).2.imp_left .inl⟩
    · rename_i hrowmiss
      refine (h.accounts row hrow).after rfl ?_ (by simp)
      intro hclaimed
      cases hclaimed
      simp only [hits, Bool.and_eq_true, decide_eq_true_eq] at hhit
      rw [← eq_of_id h.sound.uniqueKeys hfound hrow hhit.1] at hrowmiss
      exact hrowmiss (by simp [hits, hhit])
  · subst hid
    refine ⟨hknows.mono hkeeps, by simpa [State.after] using hstores, fun _ => ?_⟩
    simp [State.after]
  · intro id' hid'
    cases hid'
    obtain ⟨row, hrow, hrowid, -⟩ := hknows.mono hkeeps
    exact ⟨hclaims, row, hrow, hrowid⟩

omit [DecidableEq ι] in
/-- The stream that `insert_events` looks up is the one that was ensured. -/
theorem located_eq {E : Type} {strategy : DjangoStorageStrategy E} {x : Insertion} {db : Database}
    {stream : StreamRow} (hknows : Knows x db id)
    (h : getOne ((scopedForTenant strategy x.tenantId).byStreamId x.streamId db) = .ok stream) :
    stream.id = id := by
  obtain ⟨row, hrow, hid, htenant, hkey, -⟩ := hknows
  have hmem : row ∈ (scopedForTenant strategy x.tenantId).byStreamId x.streamId db := by
    simp only [byStreamId, List.mem_filter, Bool.and_eq_true, decide_eq_true_eq]
    exact ⟨hrow, addressed_of_columns hkey, htenant⟩
  rw [getOne_eq_ok h, List.mem_singleton] at hmem
  rw [← hmem, hid]

/-- Events that are stored are added to those of their row. -/
theorem Inv.store (h : Inv engine xs s) (hknows : Knows (xs i) s.db id)
    (hstores : ∀ id, (i, id) ∉ s.stores)
    (hclaims : (xs i).versioning.compared ≠ none → (i, id) ∈ s.claims)
    {records : List RecordedRaw} :
    Inv engine xs (s.after i {
      stage := .stored records
      db := (s.db.addEvents engine id (xs i).bodies).2
      stores := some id }) := by
  obtain ⟨row, hrow, rfl, -, -, hversioned⟩ := hknows
  have hkeeps : Keeps s.db (s.db.addEvents engine row.id (xs i).bodies).2 := .refl s.db
  refine h.after (sound_addEvents h.sound hrow _) hkeeps ?_ ?_ (by simp) ?_
  · intro other hother
    have haccounts := h.accounts other hother
    have hevents : (s.db.addEvents engine row.id (xs i).bodies).2.eventsOf other.id = _ :=
      congrArg StreamView.events (viewOf_addEvents engine row.id (xs i).bodies other)
    by_cases hid : other.id = row.id
    · cases eq_of_id h.sound.uniqueKeys hother hrow hid
      rw [if_pos rfl] at hevents
      constructor
      · simp only [storers_after, if_true, List.flatMap_append, List.flatMap_cons,
          List.flatMap_nil, List.append_nil]
        rw [← haccounts.events]
        exact hevents
      · simp only [claimants_after, storers_after, if_true]
        have hthen := haccounts.version
        revert hthen
        cases hversion : row.version with
        | none =>
          have hnone : (xs i).expected = .noVersioning := by
            by_contra hne
            rw [hversion] at hversioned
            simpa using hversioned.2 hne
          rintro ⟨hclaimants, hstorers⟩
          refine ⟨by simpa using hclaimants, ?_⟩
          simpa [or_imp, forall_and, hnone] using hstorers
        | some version =>
          have hsome : (xs i).expected ≠ .noVersioning := by
            rw [hversion] at hversioned
            exact hversioned.1 rfl
          have hown : i ∈ s.claimants row.id ∨ (xs i).expected = .version 0 := by
            rw [mem_claimants]
            cases hcompared : (xs i).versioning.compared with
            | some e => exact .inl (hclaims (by simp [hcompared]))
            | none =>
              right
              cases hexpected : (xs i).expected with
              | noVersioning => exact absurd hexpected hsome
              | version v =>
                by_contra hne
                have hv : v ≠ 0 := by
                  rintro rfl
                  exact hne rfl
                rw [(compared_eq _ v).2 ⟨hexpected, hv⟩] at hcompared
                cases hcompared
          rintro ⟨hchain, hstorers⟩
          refine ⟨by simpa using hchain, ?_⟩
          intro j hj
          rcases List.mem_append.1 hj with hj | hj
          · simpa using hstorers j hj
          · rw [List.mem_singleton.1 hj]
            simpa using ⟨hsome, hown⟩
    · rw [if_neg hid] at hevents
      exact haccounts.after hevents (by simp) (by simpa using Ne.symm hid)
  · exact ⟨row.id, by simp [State.after]⟩
  · intro id' hid'
    cases hid'
    exact ⟨hstores, row, hrow, rfl⟩

theorem Inv.step {E : Type} {strategy : DjangoStorageStrategy E} {s' : State ι}
    (h : Inv strategy.engine xs s) (hstep : step strategy xs s i = some s') :
    Inv strategy.engine xs s' := by
  obtain ⟨outcome, houtcome, rfl⟩ := Option.map_eq_some_iff.1 hstep
  have hgood := h.good i
  revert houtcome
  cases hstage : s.stages i with
  | start =>
    rw [hstage] at hgood
    rw [advance]
    split <;> rintro ⟨⟩
    · exact h.quiet rfl rfl h.sound (by simp [Good])
    · exact h.quiet rfl rfl h.sound hgood
  | checked =>
    rw [hstage] at hgood
    rw [advance]
    split <;> rintro ⟨⟩
    · exact h.quiet rfl rfl h.sound hgood
    · exact h.quiet rfl rfl h.sound (by simp [Good])
    · rename_i hget
      obtain ⟨hmodel, htenant, hkey⟩ := get_eq_ok hget
      exact h.quiet rfl rfl h.sound (proceed_good hmodel htenant hkey (fun _ => hgood.1) hgood.2)
  | absent =>
    rw [hstage] at hgood
    rw [advance]
    dsimp only
    split <;> rintro ⟨⟩
    · exact h.quiet rfl rfl h.sound hgood
    · rename_i hfree
      refine h.create hgood.1 hgood.2 rfl ?_ rfl
      simpa using hfree
  | clashed =>
    rw [hstage] at hgood
    rw [advance]
    split <;> rintro ⟨⟩
    · exact h.quiet rfl rfl h.sound (by simp [Good])
    · exact h.quiet rfl rfl h.sound (by simp [Good])
    · rename_i hget
      obtain ⟨hmodel, htenant, hkey⟩ := get_eq_ok hget
      exact h.quiet rfl rfl h.sound (proceed_good hmodel htenant hkey (fun _ => hgood.1) hgood.2)
  | ensured model =>
    rw [hstage] at hgood
    obtain ⟨hknows, hstores, hclaims⟩ := hgood
    rw [advance]
    cases hcompared : (xs i).versioning.compared with
    | none =>
      rintro ⟨⟩
      exact h.quiet rfl rfl h.sound ⟨hknows, hstores, fun hne => absurd hcompared hne⟩
    | some expected =>
      dsimp only
      split <;> rintro ⟨⟩
      · rename_i hmiss
        exact h.miss hmiss
      · rename_i hone
        exact h.hit hcompared hknows (hclaims (by simp [hcompared])) hstores (not_not.1 hone) rfl
  | bumped model =>
    rw [hstage] at hgood
    obtain ⟨hknows, hstores, hclaims⟩ := hgood
    rw [advance]
    split
    · rintro ⟨⟩
      exact h.quiet rfl rfl h.sound (by simp [Good])
    · rename_i event hevent
      rw [(xs i).addressed event (List.mem_of_mem_head? hevent)]
      split <;> rintro ⟨⟩
      · exact h.quiet rfl rfl h.sound (by simp [Good])
      · rename_i stream hlocated
        have hid := located_eq hknows hlocated
        rw [← hid] at hknows hclaims
        exact h.quiet rfl rfl h.sound ⟨hknows, hstores, hclaims⟩
  | located stream =>
    rw [hstage] at hgood
    obtain ⟨hknows, hstores, hclaims⟩ := hgood
    rw [advance]
    split <;> rintro ⟨⟩
    · exact h.store hknows hstores hclaims
    · exact h.quiet rfl rfl h.sound (by simp [Good])
  | stored records =>
    rw [hstage] at hgood
    rintro ⟨⟩
    have houtbox := (outbox_view h.sound strategy.outbox records).1
    cases hout : strategy.outbox with
    | none => exact h.quiet rfl rfl h.sound fun _ => hgood
    | some outbox =>
      rw [hout] at houtbox
      exact h.quiet rfl rfl houtbox fun _ => hgood
  | finished r => rintro ⟨⟩

theorem inv_exec {E : Type} {strategy : DjangoStorageStrategy E} {schedule : List ι}
    (h : exec (step strategy xs) {} schedule = some s) : Inv strategy.engine xs s :=
  exec_invariant (Inv strategy.engine xs) (fun _ => True) (fun _ _ _ _ hs hstep => hs.step hstep)
    (fun _ _ => trivial) (inv_initial strategy.engine xs) h

end Invariant

section Versions
variable {x : Insertion} {v : ℤ}

theorem start_lt_stop (x : Insertion) : x.start < x.stop := by
  have := List.length_pos_iff.2 x.nonempty
  unfold Insertion.stop
  omega

/-- An append has the versions from its start to its stop, if it has any. -/
theorem mem_versions (h : some v ∈ x.bodies.map (·.version)) :
    x.expected ≠ .noVersioning ∧ x.start < v ∧ v ≤ x.stop := by
  have hbodies : x.bodies.map (·.version) = x.events.map (·.version) := by
    simp [Insertion.bodies, EventBody.ofRaw]
  rw [hbodies, x.versions] at h
  obtain ⟨i, hi, hv⟩ := List.mem_map.1 h
  rw [List.mem_range] at hi
  unfold Insertion.stop Insertion.start
  cases hexpected : x.expected with
  | noVersioning =>
    rw [hexpected] at hv
    cases hv
  | version e =>
    rw [hexpected] at hv
    simp only [ExpectedVersion.versionAt, Option.some.injEq] at hv
    dsimp only
    exact ⟨by simp, by omega, by omega⟩

end Versions

/-- Whatever statements of other appends come in between, the events of a stream are those of the
appends that have stored for it, each of them once, and an append that raises nothing has stored.
The versions that are claimed follow one another. Where two appends have stored the same version of
a stream, one of them expects version 0 and has found the stream there. -/
theorem appends_account {E ι : Type} [DecidableEq ι] (strategy : DjangoStorageStrategy E)
    {xs : ι → Insertion} {schedule : List ι} {s : State ι}
    (h : exec (step strategy xs) {} schedule = some s) :
    (∀ row ∈ s.db.streams, Accounts xs s row ∧ (s.storers row.id).Nodup) ∧
    (∀ i, s.stages i = .finished (.ok ()) → ∃ row ∈ s.db.streams, i ∈ s.storers row.id) ∧
    ∀ row ∈ s.db.streams, ∀ i ∈ s.storers row.id, ∀ j ∈ s.storers row.id, i ≠ j →
      ∀ v : ℤ, some v ∈ (xs i).bodies.map (·.version) → some v ∈ (xs j).bodies.map (·.version) →
        ∃ k, (k = i ∨ k = j) ∧ (xs k).expected = .version 0 ∧ k ∉ s.claimants row.id := by
  have hinv := inv_exec h
  refine ⟨fun row hrow => ⟨hinv.accounts row hrow, ?_⟩, fun i hi => ?_, ?_⟩
  · exact hinv.stores.1.sublist (List.filter_sublist.map Prod.fst)
  · have hgood := hinv.good i
    rw [hi] at hgood
    obtain ⟨id, hid⟩ := hgood rfl
    obtain ⟨row, hrow, rfl⟩ := hinv.stores.2 _ hid
    exact ⟨row, hrow, mem_storers.2 hid⟩
  · intro row hrow i hi j hj hne v hiv hjv
    obtain ⟨hversioned, hiv⟩ := mem_versions hiv
    obtain ⟨-, hjv⟩ := mem_versions hjv
    have hthen := (hinv.accounts row hrow).version
    cases hversion : row.version with
    | none =>
      rw [hversion] at hthen
      exact absurd (hthen.2 i hi) hversioned
    | some version =>
      rw [hversion] at hthen
      obtain ⟨⟨first, hchain⟩, hstorers⟩ := hthen
      by_cases hic : i ∈ s.claimants row.id
      · by_cases hjc : j ∈ s.claimants row.id
        · exact absurd (hchain.disjoint (fun k => start_lt_stop (xs k)) hic hjc hiv hjv) hne
        · exact ⟨j, .inr rfl, (hstorers j hj).2.resolve_left hjc, hjc⟩
      · exact ⟨i, .inl rfl, (hstorers i hi).2.resolve_left hic, hic⟩

section Example

/-- An append of one event to the stream of orders. -/
def appendOne (uuid : Uuid) (expected : ℤ) : Insertion where
  tenantId := "a"
  streamId := Tenants.order
  expected := .version expected
  events := [{ uuid, streamId := Tenants.order, createdAt := 0, name := "Event", data := []
               context := [], version := some (expected + 1) }]
  nonempty := by simp
  addressed := by simp
  versions := by simp [ExpectedVersion.versionAt]

/-- Two appends to a new stream, and two that have seen the event of one of them. -/
def orders : Fin 4 → Insertion
  | 0 => appendOne 1 0
  | 1 => appendOne 2 0
  | 2 => appendOne 3 1
  | 3 => appendOne 4 1

def plainStore : DjangoStorageStrategy Unit where
  engine := sqlite
  dispatcher := Tenants.plainDispatcher
  outbox := none
  tenantId := "a"

/-- The second append finds the row that the first has just created, and the last one compares a
version that the third has bumped in between. -/
def orderStatements : List (Fin 4) :=
  [0, 0, 1, 0, 1, 0, 0, 0, 0, 1, 1, 1, 1, 2, 3, 2, 3, 2, 3, 2, 2, 2]

def orderState : State (Fin 4) := (exec (step plainStore orders) {} orderStatements).getD {}

theorem appends_account_orders :
    exec (step plainStore orders) {} orderStatements = some orderState ∧
    orderState.db.events.map (·.body.version) = [some 1, some 1, some 2] ∧
    orderState.stages 3 = .finished (.error (.concurrentStreamWriteError [])) ∧
    ∃ k, (k = 0 ∨ k = 1) ∧ (orders k).expected = .version 0 ∧ k ∉ orderState.claimants 1 := by
  have hrow : { StreamHead.ofStreamId Tenants.order (some 2) with id := 1, tenantId := "a" } ∈
      orderState.db.streams := List.mem_singleton_self _
  have hs : exec (step plainStore orders) {} orderStatements = some orderState := rfl
  obtain ⟨-, -, hshared⟩ := appends_account plainStore hs
  exact ⟨hs, rfl, rfl, hshared _ hrow 0 (by decide) 1 (by decide) (by decide) 1 (by decide)
    (by decide)⟩

end Example

end EventSourcery.Sql.DjangoAutocommit
