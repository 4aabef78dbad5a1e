import EventSourcery.InMemorySubscriptions

/-!
# Builders of subscriptions

A builder keeps the call that it is going to make of its strategy, and it is changed in place: who
holds it sees the last start and the last filter that anyone has set. The iterators that it has
built keep nothing of it. They decode what their subscription delivers, and an event that cannot be
decoded ends them. No start is negative, and time limits are exact numbers, where the source has
seconds as floats.
-/
namespace EventSourcery.SubscriptionBuilders
open EventStore InMemorySubscriptions Runs

variable {E T : Type}

/-- `sys.maxsize` -/
def maxsize : ℕ := 2 ^ 63 - 1

/-- What is raised. The timebox of the `ValueError` is in microseconds. -/
inductive Failure where
  | error (error : Error)
  | timebox (received : ℤ)
  | overflowError
  | typeError

/-- A `partial` of a method of the strategy. -/
structure Subscribe where
  kind : Kind := .all
  startFrom : Option ℕ := none

/-- `Seconds | timedelta` -/
inductive Timelimit where
  | seconds (seconds : ℤ)
  | timedelta (microseconds : ℤ)

/-- The check of the timebox, in microseconds. -/
def timebox (microseconds : ℤ) : Except Failure ℤ :=
  if microseconds < 100000 then .error (.timebox microseconds) else .ok microseconds

/-- `_to_timedelta`. A `timedelta` has no more than 999999999 days. -/
def toTimedelta : Timelimit → Except Failure ℤ
  | .seconds seconds =>
      if -999999999 ≤ seconds / 86400 ∧ seconds / 86400 ≤ 999999999 then
        timebox (seconds * 1000000)
      else .error .overflowError
  | .timedelta microseconds => timebox microseconds

/-- Which of the two iterators is built. -/
inductive Form where
  | iter
  | batch (size : ℕ)

def Form.size : Form → ℕ
  | iter => 1
  | batch size => size

/-- An iterator with its subscription. -/
structure Reader where
  kind : Kind
  form : Form
  currentPosition : ℕ
  finished : Bool := false

structure SubscriptionBuilder where
  position : ℕ := maxsize
  build : Subscribe := {}

namespace SubscriptionBuilder

def startFrom (position : ℕ) (builder : SubscriptionBuilder) : SubscriptionBuilder :=
  { position, build := { builder.build with startFrom := some position } }

def toCategory (category : String) (builder : SubscriptionBuilder) : SubscriptionBuilder :=
  { builder with build := { kind := .toCategory category, startFrom := some builder.position } }

def toEvents (nameForType : T → Except SerdeError String) (events : List T)
    (builder : SubscriptionBuilder) : Except Failure SubscriptionBuilder := do
  let types ← (events.mapM nameForType).mapError fun e => .error (.serde e)
  return { builder with
    build := { kind := .toEventTypes types, startFrom := some builder.position } }

/-- The call of `_build`. -/
def subscribe (form : Form) (builder : SubscriptionBuilder) : Except Failure Reader :=
  match builder.build.startFrom with
  | none => .error .typeError
  | some start => .ok { kind := builder.build.kind, form, currentPosition := start }

def buildIter (timelimit : Timelimit) (builder : SubscriptionBuilder) : Except Failure Reader := do
  let _ ← toTimedelta timelimit
  builder.subscribe .iter

def buildBatch (size : ℕ) (timelimit : Timelimit) (builder : SubscriptionBuilder) :
    Except Failure Reader := do
  let _ ← toTimedelta timelimit
  builder.subscribe (.batch size)

end SubscriptionBuilder

/-- What an iterator yields. -/
inductive Item (E : Type) where
  | record (record : Option (Recorded E))
  | records (records : List (Recorded E))

/-- What is yielded for a batch: `_single_event_unpack` and the expression of `build_batch`. -/
def unpack (serde : Serde E) : Form → List RecordedRaw → Except SerdeError (Item E)
  | .iter, [] => .ok (.record none)
  | .iter, raw :: _ => (serde.deserializeRecord raw).map fun record => .record (some record)
  | .batch _, batch => (batch.mapM serde.deserializeRecord).map .records

/-- The calls that set a start or a filter. -/
inductive Setting (T : Type) where
  | startFrom (position : ℕ)
  | toCategory (category : String)
  | toEvents (events : List T)

/-- What happens to a backend, to its builders and to their iterators, which are numbered. -/
inductive Activity (E T : Type) where
  | write (write : Write E)
  | subscriber
  | set (b : ℕ) (setting : Setting T)
  | build (b : ℕ) (form : Form) (timelimit : Timelimit)
  | next (i : ℕ) (sleep : List (Write E)) (sleeps : List (List (Write E)))

/-- The answer is `missing` where there is no such builder or iterator. -/
inductive Answer (E : Type) where
  | done
  | built (i : ℕ)
  | item (item : Item E)
  | raised (failure : Failure)
  | stopIteration
  | missing

structure World where
  backend : InMemory := {}
  builders : List SubscriptionBuilder := []
  readers : List Reader := []

section Code
variable (dispatchers : TenantId → Dispatcher E) (filterer : Option (RawEvent → Bool))
  (serde : Serde E) (nameForType : T → Except SerdeError String)

def Setting.apply (builder : SubscriptionBuilder) :
    Setting T → Except Failure SubscriptionBuilder
  | startFrom position => .ok (builder.startFrom position)
  | toCategory category => .ok (builder.toCategory category)
  | toEvents events => builder.toEvents nameForType events

def Form.build (timelimit : Timelimit) (builder : SubscriptionBuilder) :
    Form → Except Failure Reader
  | iter => builder.buildIter timelimit
  | batch size => builder.buildBatch size timelimit

/-- `next` of an iterator that goes on. -/
def Reader.next (sleep : List (Write E)) (sleeps : List (List (Write E))) (s : InMemory)
    (reader : Reader) : Answer E × InMemory × Reader :=
  let r := nextLoop dispatchers filterer reader.kind reader.form.size sleep sleeps []
    (s, reader.currentPosition)
  let reader := { reader with currentPosition := r.2.2 }
  match r.1 with
  | .error e => (.raised (.error e), r.2.1, { reader with finished := true })
  | .ok batch =>
      match unpack serde reader.form batch with
      | .error e => (.raised (.error (.serde e)), r.2.1, { reader with finished := true })
      | .ok item => (.item item, r.2.1, reader)

def step (w : World) : Activity E T → Answer E × World
  | .write write => (.done, { w with backend := perform dispatchers filterer w.backend write })
  | .subscriber => (.done, { w with builders := w.builders ++ [{}] })
  | .set b setting =>
      match w.builders[b]? with
      | none => (.missing, w)
      | some builder =>
          match setting.apply nameForType builder with
          | .error e => (.raised e, w)
          | .ok builder => (.done, { w with builders := w.builders.set b builder })
  | .build b form timelimit =>
      match w.builders[b]? with
      | none => (.missing, w)
      | some builder =>
          match form.build timelimit builder with
          | .error e => (.raised e, w)
          | .ok reader => (.built w.readers.length, { w with readers := w.readers ++ [reader] })
  | .next i sleep sleeps =>
      match w.readers[i]? with
      | none => (.missing, w)
      | some reader =>
          if reader.finished then (.stopIteration, w)
          else
            let r := reader.next dispatchers filterer serde sleep sleeps w.backend
            (r.1, { w with backend := r.2.1, readers := w.readers.set i r.2.2 })

end Code

/-! ## What was set -/

abbrev History (E T : Type) := List (Activity E T × Answer E)

section Spec
variable (nameForType : T → Except SerdeError String)

/-- How many builders there are. -/
def created (past : History E T) : ℕ :=
  past.countP fun x => match x.1 with
    | .subscriber => true
    | _ => false

/-- The settings of a builder that went through. -/
def settingsOf (b : ℕ) (past : History E T) : List (Setting T) :=
  past.filterMap fun
    | (.set b' setting, .done) => if b' = b then some setting else none
    | _ => none

def Setting.start : Setting T → Option ℕ
  | startFrom position => some position
  | _ => none

def Setting.filter : Setting T → Option Kind
  | startFrom _ => none
  | toCategory category => some (.toCategory category)
  | toEvents events => (events.mapM nameForType).toOption.map .toEventTypes

def lastStart (settings : List (Setting T)) : Option ℕ :=
  (settings.filterMap Setting.start).getLast?

def lastFilter (settings : List (Setting T)) : Option Kind :=
  (settings.filterMap (Setting.filter nameForType)).getLast?

/-- What the last start and the last filter come to. A filter does without a start. -/
def chosen (settings : List (Setting T)) : Subscribe where
  kind := (lastFilter nameForType settings).getD .all
  startFrom := (lastStart settings).or ((lastFilter nameForType settings).map fun _ => maxsize)

end Spec

/-- What was answered to `next` of an iterator. -/
def nextsOf (i : ℕ) (past : History E T) : List (Answer E) :=
  past.filterMap fun
    | (.next i' _ _, answer) => if i' = i then some answer else none
    | _ => none

/-- The records that were yielded. -/
def yielded (answers : List (Answer E)) : List (Recorded E) :=
  answers.flatMap fun
    | .item (.record record) => record.toList
    | .item (.records records) => records
    | _ => []

/-- What an iterator answers when its subscription delivers these batches, and whether it has
finished. -/
inductive Tells (serde : Serde E) (form : Form) :
    List (List RecordedRaw) → List (Answer E) → Bool → Prop
  | start : Tells serde form [] [] false
  | item {batches answers batch item} : Tells serde form batches answers false →
      unpack serde form batch = .ok item →
      Tells serde form (batches ++ [batch]) (answers ++ [.item item]) false
  | raised {batches answers batch e} : Tells serde form batches answers false →
      unpack serde form batch = .error e →
      Tells serde form (batches ++ [batch]) (answers ++ [.raised (.error (.serde e))]) true
  | stop {batches answers} : Tells serde form batches answers true →
      Tells serde form batches (answers ++ [.stopIteration]) true

/-! ## Builders -/

section Builders
variable {nameForType : T → Except SerdeError String} {builder builder' : SubscriptionBuilder}
  {settings : List (Setting T)}

/-- The builder is what was set last. -/
structure Built (nameForType : T → Except SerdeError String) (settings : List (Setting T))
    (builder : SubscriptionBuilder) : Prop where
  position : builder.position = (lastStart settings).getD maxsize
  build : builder.build = chosen nameForType settings

theorem built_nil : Built nameForType [] ({} : SubscriptionBuilder) := ⟨rfl, rfl⟩

theorem lastStart_concat (settings : List (Setting T)) (setting : Setting T) :
    lastStart (settings ++ [setting]) = setting.start.or (lastStart settings) := by
  unfold lastStart
  rw [List.filterMap_append]
  cases h : setting.start <;> simp [h]

theorem lastFilter_concat (settings : List (Setting T)) (setting : Setting T) :
    lastFilter nameForType (settings ++ [setting]) =
      (setting.filter nameForType).or (lastFilter nameForType settings) := by
  unfold lastFilter
  rw [List.filterMap_append]
  cases h : setting.filter nameForType <;> simp [h]

/-- A filter is set for the start that there is, or for a start that no event comes after. -/
theorem some_position (h : Built nameForType settings builder) :
    some builder.position = (lastStart settings).or (some maxsize) := by
  rw [h.position]
  cases lastStart settings <;> rfl

theorem Built.set (h : Built nameForType settings builder) {setting : Setting T}
    (hset : setting.apply nameForType builder = .ok builder') :
    Built nameForType (settings ++ [setting]) builder' := by
  have hposition := some_position h
  cases setting with
  | startFrom position =>
    cases hset
    constructor
    · simp [SubscriptionBuilder.startFrom, lastStart_concat, Setting.start]
    · simp [SubscriptionBuilder.startFrom, chosen, lastStart_concat, lastFilter_concat,
        Setting.start, Setting.filter, h.build]
  | toCategory category =>
    cases hset
    constructor
    · simp [SubscriptionBuilder.toCategory, lastStart_concat, Setting.start, h.position]
    · simp [SubscriptionBuilder.toCategory, chosen, lastStart_concat, lastFilter_concat,
        Setting.start, Setting.filter, hposition]
  | toEvents events =>
    cases htypes : events.mapM nameForType with
    | error e =>
      simp [Setting.apply, SubscriptionBuilder.toEvents, htypes, Except.mapError, bind,
        Except.bind] at hset
    | ok types =>
      have hbuilder : { builder with
          build := { kind := .toEventTypes types, startFrom := some builder.position } } =
          builder' := by
        simpa [Setting.apply, SubscriptionBuilder.toEvents, htypes, Except.mapError, bind,
          Except.bind, pure, Except.pure] using hset
      subst hbuilder
      constructor
      · simp [lastStart_concat, Setting.start, h.position]
      · simp [chosen, lastStart_concat, lastFilter_concat, Setting.start, Setting.filter, htypes,
          Except.toOption, hposition]

/-- An iterator is for what was chosen. It is refused for its time limit, or for want of a
start. -/
theorem Built.build_eq (h : Built nameForType settings builder) (form : Form)
    (timelimit : Timelimit) : form.build timelimit builder =
      (toTimedelta timelimit).bind fun _ =>
        match (chosen nameForType settings).startFrom with
        | none => .error .typeError
        | some start => .ok
            { kind := (chosen nameForType settings).kind, form, currentPosition := start } := by
  rw [← h.build]
  cases form <;> rfl

end Builders

/-! ## Iterators -/

section Batches
variable {serde : Serde E} {form : Form} {batches : List (List RecordedRaw)}
  {answers : List (Answer E)} {finished : Bool}

/-- The items of batches that are no longer than asked for yield all their records. -/
theorem unpack_yielded {batch : List RecordedRaw} {item : Item E}
    (hsize : batch.length ≤ form.size) (h : unpack serde form batch = .ok item) :
    batch.mapM serde.deserializeRecord = .ok (yielded [.item item]) := by
  cases form with
  | batch size =>
    obtain ⟨records, hrecords, rfl⟩ := map_eq_ok.1 h
    rw [hrecords]
    simp [yielded]
  | iter =>
    match batch, hsize with
    | [], _ =>
      cases h
      rfl
    | [raw], _ =>
      obtain ⟨record, hrecord, rfl⟩ := map_eq_ok.1 h
      simp [hrecord, yielded, bind, Except.bind, pure, Except.pure]

theorem mapM_append_ok {f : RecordedRaw → Except SerdeError (Recorded E)}
    {raws raws' : List RecordedRaw} {records records' : List (Recorded E)}
    (h : raws.mapM f = .ok records) (h' : raws'.mapM f = .ok records') :
    (raws ++ raws').mapM f = .ok (records ++ records') := by
  rw [List.mapM_append, h, h']
  rfl

theorem yielded_append (answers answers' : List (Answer E)) :
    yielded (answers ++ answers') = yielded answers ++ yielded answers' :=
  List.flatMap_append

/-- What an iterator yields is what its subscription delivers, up to the batch it fails at. -/
theorem Tells.decodes (h : Tells serde form batches answers finished)
    (hsizes : ∀ batch ∈ batches, batch.length ≤ form.size) :
    ∃ raws, raws <+: batches.flatten ∧ (finished = false → raws = batches.flatten) ∧
      raws.mapM serde.deserializeRecord = .ok (yielded answers) := by
  induction h with
  | start => exact ⟨[], List.prefix_rfl, fun _ => rfl, rfl⟩
  | @item batches answers batch item _ hitem ih =>
    obtain ⟨raws, -, hall, hraws⟩ := ih fun b hb => hsizes b (List.mem_append_left _ hb)
    obtain rfl := hall rfl
    have hbatch := unpack_yielded (hsizes batch (by simp)) hitem
    refine ⟨_, List.prefix_rfl, fun _ => rfl, ?_⟩
    rw [List.flatten_append, List.flatten_singleton, yielded_append]
    exact mapM_append_ok hraws hbatch
  | @raised batches answers batch e _ _ ih =>
    obtain ⟨raws, hprefix, -, hraws⟩ := ih fun b hb => hsizes b (List.mem_append_left _ hb)
    refine ⟨raws, ?_, by simp, ?_⟩
    · rw [List.flatten_append]
      exact hprefix.trans (List.prefix_append _ _)
    · rw [yielded_append, hraws]
      simp [yielded]
  | @stop batches answers _ ih =>
    obtain ⟨raws, hprefix, -, hraws⟩ := ih hsizes
    refine ⟨raws, hprefix, by simp, ?_⟩
    rw [yielded_append, hraws]
    simp [yielded]

end Batches

section Readers
variable {dispatchers : TenantId → Dispatcher E} {filterer : Option (RawEvent → Bool)}
  {serde : Serde E} {kind : Kind} {form : Form} {start : ℕ} {answers : List (Answer E)}
  {s s' : InMemory} {reader : Reader}

/-- A turn of the loop adds one record at most, and only to a batch that is not full. -/
theorem nextLoop_length {batchSize : ℕ} {sleep : List (Write E)} {sleeps : List (List (Write E))}
    {batch result : List RecordedRaw} {w : InMemory × ℕ} (hbatch : batch.length ≤ batchSize)
    (h : (nextLoop dispatchers filterer kind batchSize sleep sleeps batch w).1 = .ok result) :
    result.length ≤ batchSize := by
  induction sleeps generalizing sleep batch w with
  | nil =>
    unfold nextLoop at h
    split at h
    · split at h
      · cases h
      · rename_i record _ _
        cases h
        cases record <;> simp <;> omega
    · cases h
      exact hbatch
  | cons later sleeps ih =>
    unfold nextLoop at h
    split at h
    · split at h
      · cases h
      · rename_i record _ _
        refine ih ?_ h
        cases record <;> simp <;> omega
    · cases h
      exact hbatch

/-- The iterator has answered what its subscription has delivered, which is what is wanted between
the start and the current position. -/
structure Follows (serde : Serde E) (kind : Kind) (form : Form) (start : ℕ) (s : InMemory)
    (answers : List (Answer E)) (reader : Reader) : Prop where
  kind_eq : reader.kind = kind
  form_eq : reader.form = form
  reaches : Reaches start reader.currentPosition s.storage.records
  tells : ∃ batches, Tells serde form batches answers reader.finished ∧
    (∀ batch ∈ batches, batch.length ≤ form.size) ∧
    batches.flatten = (passed start reader.currentPosition s.storage.records).filter kind.wants

theorem follows_start (serde : Serde E) (kind : Kind) (form : Form) (start : ℕ) (s : InMemory) :
    Follows serde kind form start s [] { kind, form, currentPosition := start } where
  kind_eq := rfl
  form_eq := rfl
  reaches := ⟨le_rfl, .inl rfl⟩
  tells := ⟨[], .start, by simp, by simp [passed_self]⟩

/-- What others do to the backend. -/
theorem Follows.extends (h : Follows serde kind form start s answers reader)
    (hextends : Extends s.storage.records s'.storage.records) :
    Follows serde kind form start s' answers reader where
  kind_eq := h.kind_eq
  form_eq := h.form_eq
  reaches := h.reaches.mono hextends.isPrefix
  tells := by
    rw [h.reaches.passed_eq hextends.isPrefix]
    exact h.tells

theorem Follows.stop (h : Follows serde kind form start s answers reader)
    (hfinished : reader.finished = true) :
    Follows serde kind form start s (answers ++ [.stopIteration]) reader where
  kind_eq := h.kind_eq
  form_eq := h.form_eq
  reaches := h.reaches
  tells := by
    obtain ⟨batches, htells, hrest⟩ := h.tells
    rw [hfinished] at htells ⊢
    exact ⟨batches, htells.stop, hrest⟩

variable (dispatchers filterer serde)

/-- The loop delivers a batch that is no longer than asked for. -/
theorem batch_advances (h : Indexed s.storage.records)
    (hreaches : Reaches start reader.currentPosition s.storage.records) (sleep : List (Write E))
    (sleeps : List (List (Write E))) :
    let r := nextLoop dispatchers filterer reader.kind reader.form.size sleep sleeps []
      (s, reader.currentPosition)
    ∃ batch, r.1 = .ok batch ∧ batch.length ≤ reader.form.size ∧
      Advances reader.kind start (s, reader.currentPosition) r.2 batch := by
  obtain ⟨batch, hanswer, hadvances⟩ := nextLoop_advances dispatchers filterer reader.form.size
    sleep sleeps [] (s := (s, reader.currentPosition)) h hreaches
  exact ⟨batch, hanswer, nextLoop_length (Nat.zero_le _) hanswer, hadvances⟩

/-- Whatever becomes of a batch, the records are extended. -/
theorem next_extends (h : Indexed s.storage.records) (sleep : List (Write E))
    (sleeps : List (List (Write E))) (reader : Reader) :
    Extends s.storage.records
      (reader.next dispatchers filterer serde sleep sleeps s).2.1.storage.records := by
  obtain ⟨batch, hanswer, -, hadvances⟩ :=
    batch_advances dispatchers filterer h ⟨le_rfl, .inl rfl⟩ sleep sleeps
  unfold Reader.next
  dsimp only
  rw [hanswer]
  dsimp only
  split <;> exact hadvances.records

theorem Follows.next (h : Follows serde kind form start s answers reader)
    (hindexed : Indexed s.storage.records) (hgoing : reader.finished = false)
    (sleep : List (Write E)) (sleeps : List (List (Write E))) :
    let r := reader.next dispatchers filterer serde sleep sleeps s
    Follows serde kind form start r.2.1 (answers ++ [r.1]) r.2.2 := by
  obtain ⟨rfl, rfl, hreaches, batches, htells, hsizes, hflatten⟩ := h
  obtain ⟨batch, hanswer, hsize, hadvances⟩ :=
    batch_advances dispatchers filterer hindexed hreaches sleep sleeps
  rw [hgoing] at htells
  have hsizes' : ∀ b ∈ batches ++ [batch], b.length ≤ reader.form.size := by
    intro b hb
    rcases List.mem_append.1 hb with hb | hb
    · exact hsizes b hb
    · rw [List.mem_singleton.1 hb]
      exact hsize
  have hjoin : (batches ++ [batch]).flatten = batches.flatten ++ batch := by simp
  have hflatten' := hjoin.trans
    ((congrArg (· ++ batch) hflatten).trans hadvances.delivered.symm)
  unfold Reader.next
  dsimp only
  rw [hanswer]
  dsimp only
  cases hitem : unpack serde reader.form batch with
  | error e =>
    exact ⟨rfl, rfl, hadvances.reaches, _, htells.raised hitem, hsizes', hflatten'⟩
  | ok item =>
    refine ⟨rfl, rfl, hadvances.reaches, _, ?_, hsizes', hflatten'⟩
    rw [hgoing]
    exact htells.item hitem

end Readers

/-! ## Runs -/

section Steps
variable {dispatchers : TenantId → Dispatcher E} {filterer : Option (RawEvent → Bool)}
  {serde : Serde E} {nameForType : T → Except SerdeError String} {past : History E T} {w : World}

theorem settingsOf_append (b : ℕ) (past past' : History E T) :
    settingsOf b (past ++ past') = settingsOf b past ++ settingsOf b past' :=
  List.filterMap_append

theorem nextsOf_append (i : ℕ) (past past' : History E T) :
    nextsOf i (past ++ past') = nextsOf i past ++ nextsOf i past' :=
  List.filterMap_append

/-- Only a setting that goes through is one of its builder. -/
theorem settingsOf_set (b b' : ℕ) (setting : Setting T) :
    settingsOf b [((.set b' setting, .done) : Activity E T × Answer E)] =
      if b' = b then [setting] else [] := by
  by_cases hb : b' = b <;> simp [settingsOf, hb]

theorem nextsOf_next (i i' : ℕ) (sleep : List (Write E)) (sleeps : List (List (Write E)))
    (answer : Answer E) :
    nextsOf i [((.next i' sleep sleeps, answer) : Activity E T × Answer E)] =
      if i' = i then [answer] else [] := by
  by_cases hi : i' = i <;> simp [nextsOf, hi]

variable (dispatchers filterer serde nameForType)

/-- All that an activity can do. -/
inductive Does (w : World) : Activity E T → Answer E → World → Prop
  | write (write) : Does w (.write write) .done
      { w with backend := perform dispatchers filterer w.backend write }
  | subscriber : Does w .subscriber .done { w with builders := w.builders ++ [{}] }
  | set {b setting builder builder'} : w.builders[b]? = some builder →
      setting.apply nameForType builder = .ok builder' →
      Does w (.set b setting) .done { w with builders := w.builders.set b builder' }
  | refuseSetting {b setting answer} : answer ≠ .done → Does w (.set b setting) answer w
  | build {b form timelimit builder reader} : w.builders[b]? = some builder →
      form.build timelimit builder = .ok reader →
      Does w (.build b form timelimit) (.built w.readers.length)
        { w with readers := w.readers ++ [reader] }
  | refuseBuild {b form timelimit answer} : (∀ builder reader, w.builders[b]? = some builder →
      form.build timelimit builder ≠ .ok reader) → (∀ i, answer ≠ .built i) →
      Does w (.build b form timelimit) answer w
  | next {i reader} (sleep sleeps) : w.readers[i]? = some reader → reader.finished = false →
      Does w (.next i sleep sleeps)
        (reader.next dispatchers filterer serde sleep sleeps w.backend).1
        { w with
          backend := (reader.next dispatchers filterer serde sleep sleeps w.backend).2.1
          readers :=
            w.readers.set i (reader.next dispatchers filterer serde sleep sleeps w.backend).2.2 }
  | stop {i reader} (sleep sleeps) : w.readers[i]? = some reader → reader.finished = true →
      Does w (.next i sleep sleeps) .stopIteration w
  | missing {i} (sleep sleeps) : w.readers[i]? = none → Does w (.next i sleep sleeps) .missing w

theorem step_does (w : World) (a : Activity E T) :
    Does dispatchers filterer serde nameForType w a
      (step dispatchers filterer serde nameForType w a).1
      (step dispatchers filterer serde nameForType w a).2 := by
  cases a with
  | write write => exact .write write
  | subscriber => exact .subscriber
  | set b setting =>
    simp only [step]
    split
    · exact .refuseSetting (by simp)
    · rename_i hbuilder
      split
      · exact .refuseSetting (by simp)
      · rename_i hset
        exact .set hbuilder hset
  | build b form timelimit =>
    simp only [step]
    split
    · rename_i hnone
      exact .refuseBuild (by simp [hnone]) (by simp)
    · rename_i hbuilder
      split
      · rename_i hbuild
        refine .refuseBuild ?_ (by simp)
        rintro _ reader h
        rw [hbuilder] at h
        cases h
        rw [hbuild]
        simp
      · rename_i hbuild
        exact .build hbuilder hbuild
  | next i sleep sleeps =>
    simp only [step]
    split
    · rename_i hnone
      exact .missing sleep sleeps hnone
    · rename_i hreader
      split
      · rename_i hfinished
        exact .stop sleep sleeps hreader hfinished
      · rename_i hgoing
        exact .next sleep sleeps hreader (Bool.eq_false_iff.2 hgoing)

variable {dispatchers filterer serde nameForType} {a : Activity E T} {answer : Answer E}
  {w' : World}

/-- Whatever happens, the records are extended. -/
theorem Does.extends (h : Does dispatchers filterer serde nameForType w a answer w')
    (hindexed : Indexed w.backend.storage.records) :
    Extends w.backend.storage.records w'.backend.storage.records := by
  cases h with
  | write write => exact perform_extends dispatchers filterer hindexed write
  | next sleep sleeps hreader hgoing =>
    exact next_extends dispatchers filterer serde hindexed sleep sleeps _
  | _ => exact .refl hindexed

theorem Does.created (h : Does dispatchers filterer serde nameForType w a answer w')
    (hcreated : w.builders.length = created past) :
    w'.builders.length = SubscriptionBuilders.created (past ++ [(a, answer)]) := by
  rw [SubscriptionBuilders.created, List.countP_append, ← SubscriptionBuilders.created, ← hcreated]
  cases h with
  | subscriber => simp
  | set => simp
  | _ => rfl

/-- Each builder is what was set last, those that there are not yet included. -/
theorem Does.built (h : Does dispatchers filterer serde nameForType w a answer w')
    (hbuilt : ∀ b, Built nameForType (settingsOf b past) (w.builders[b]?.getD {})) (b : ℕ) :
    Built nameForType (settingsOf b (past ++ [(a, answer)])) (w'.builders[b]?.getD {}) := by
  rw [settingsOf_append]
  have hkept : Built nameForType (settingsOf b past ++ []) (w.builders[b]?.getD {}) := by
    rw [List.append_nil]
    exact hbuilt b
  cases h with
  | subscriber =>
    have hnew : (w.builders ++ [({} : SubscriptionBuilder)])[b]?.getD {} =
        w.builders[b]?.getD {} := by
      rw [List.getElem?_append]
      split
      · rfl
      · rename_i hb
        rw [List.getElem?_singleton, List.getElem?_eq_none (Nat.le_of_not_lt hb)]
        split <;> rfl
    rw [hnew]
    exact hkept
  | @set b' setting builder builder' hbuilder hset =>
    rw [settingsOf_set, List.getElem?_set]
    by_cases hb : b' = b
    · subst hb
      have hthen := hbuilt b'
      rw [hbuilder] at hthen
      rw [if_pos rfl, if_pos rfl, if_pos (List.getElem?_eq_some_iff.1 hbuilder).1]
      exact hthen.set hset
    · rw [if_neg hb, if_neg hb]
      exact hkept
  | @refuseSetting b' setting answer hanswer =>
    have hnothing : settingsOf b [((.set b' setting, answer) : Activity E T × Answer E)] = [] := by
      cases answer <;> first | rfl | exact absurd rfl hanswer
    rw [hnothing]
    exact hkept
  | _ => exact hkept

theorem Does.built_iff {b : ℕ} {form : Form} {timelimit : Timelimit}
    (h : Does dispatchers filterer serde nameForType w a answer w')
    (ha : a = .build b form timelimit) :
    (∃ i, answer = .built i) ↔ ∃ builder reader, w.builders[b]? = some builder ∧
      form.build timelimit builder = .ok reader := by
  cases h with
  | build hbuilder hbuild =>
    cases ha
    exact iff_of_true ⟨_, rfl⟩ ⟨_, _, hbuilder, hbuild⟩
  | refuseBuild hrefuse hanswer =>
    cases ha
    refine iff_of_false ?_ ?_
    · rintro ⟨i, hi⟩
      exact hanswer i hi
    · rintro ⟨builder, reader, hbuilder, hbuild⟩
      exact hrefuse builder reader hbuilder hbuild
  | _ => cases ha

/-- An iterator goes on with what it is asked, and is not disturbed by anything else. -/
theorem Does.follows {kind : Kind} {form : Form} {start i : ℕ} {answers : List (Answer E)}
    {reader : Reader} (h : Does dispatchers filterer serde nameForType w a answer w')
    (hindexed : Indexed w.backend.storage.records) (hreader : w.readers[i]? = some reader)
    (hfollows : Follows serde kind form start w.backend answers reader) :
    ∃ reader', w'.readers[i]? = some reader' ∧
      Follows serde kind form start w'.backend (answers ++ nextsOf i [(a, answer)]) reader' := by
  have hlength := (List.getElem?_eq_some_iff.1 hreader).1
  have hkept : Follows serde kind form start w'.backend (answers ++ []) reader := by
    rw [List.append_nil]
    exact hfollows.extends (h.extends hindexed)
  cases h with
  | build hbuilder hbuild =>
    exact ⟨reader, (List.getElem?_append_left hlength).trans hreader, hkept⟩
  | @next i' reader' sleep sleeps hreader' hgoing =>
    rw [nextsOf_next]
    by_cases hi : i' = i
    · subst hi
      rw [hreader] at hreader'
      cases hreader'
      rw [if_pos rfl]
      refine ⟨_, ?_, hfollows.next dispatchers filterer serde hindexed hgoing sleep sleeps⟩
      simp [hlength]
    · rw [if_neg hi]
      refine ⟨reader, ?_, hkept⟩
      simp [hi, hreader]
  | @stop i' reader' sleep sleeps hreader' hfinished =>
    rw [nextsOf_next]
    by_cases hi : i' = i
    · subst hi
      rw [hreader] at hreader'
      cases hreader'
      rw [if_pos rfl]
      exact ⟨reader, hreader, hfollows.stop hfinished⟩
    · rw [if_neg hi]
      exact ⟨reader, hreader, hkept⟩
  | @missing i' sleep sleeps hnone =>
    have hi : i' ≠ i := by
      rintro rfl
      rw [hreader] at hnone
      cases hnone
    rw [nextsOf_next, if_neg hi]
    exact ⟨reader, hreader, hkept⟩
  | _ => exact ⟨reader, hreader, hkept⟩

/-- A build goes through in time, for a builder that there is and that has a start. -/
def Grants (nameForType : T → Except SerdeError String) (before : History E T) (b : ℕ)
    (timelimit : Timelimit) : Prop :=
  b < created before ∧ (∃ microseconds, toTimedelta timelimit = .ok microseconds) ∧
    (chosen nameForType (settingsOf b before)).startFrom.isSome

/-- Of every build so far: whether it has gone through, and what the iterator has answered since. -/
structure Traces (serde : Serde E) (nameForType : T → Except SerdeError String)
    (past : History E T) (w : World) : Prop where
  indexed : Indexed w.backend.storage.records
  created : w.builders.length = created past
  built : ∀ b, Built nameForType (settingsOf b past) (w.builders[b]?.getD {})
  granted : ∀ before b form timelimit answer rest,
    past = before ++ (.build b form timelimit, answer) :: rest →
    ((∃ i, answer = .built i) ↔ Grants nameForType before b timelimit)
  follows : ∀ before b form timelimit i rest,
    past = before ++ (.build b form timelimit, .built i) :: rest →
    ∃ start reader, (chosen nameForType (settingsOf b before)).startFrom = some start ∧
      w.readers[i]? = some reader ∧
      Follows serde (chosen nameForType (settingsOf b before)).kind form start w.backend
        (nextsOf i rest) reader

theorem traces_empty : Traces serde nameForType ([] : History E T) {} where
  indexed := indexed_nil
  created := rfl
  built b := built_nil
  granted := by simp
  follows := by simp

variable {b : ℕ} {form : Form} {timelimit : Timelimit}

theorem Traces.grants_iff (h : Traces serde nameForType past w) :
    Grants nameForType past b timelimit ↔ ∃ builder reader, w.builders[b]? = some builder ∧
      form.build timelimit builder = .ok reader := by
  unfold Grants
  rw [← h.created]
  constructor
  · rintro ⟨hb, ⟨t, ht⟩, hstart⟩
    obtain ⟨start, hstart⟩ := Option.isSome_iff_exists.1 hstart
    have hbuilt := h.built b
    rw [List.getElem?_eq_getElem hb, Option.getD_some] at hbuilt
    refine ⟨w.builders[b], ⟨(chosen nameForType (settingsOf b past)).kind, form, start, false⟩,
      List.getElem?_eq_getElem hb, ?_⟩
    rw [hbuilt.build_eq, ht, hstart]
    rfl
  · rintro ⟨builder, reader, hbuilder, hbuild⟩
    have hbuilt := h.built b
    rw [hbuilder, Option.getD_some] at hbuilt
    rw [hbuilt.build_eq] at hbuild
    obtain ⟨t, ht, hreader⟩ := bind_eq_ok.1 hbuild
    refine ⟨(List.getElem?_eq_some_iff.1 hbuilder).1, ⟨t, ht⟩, ?_⟩
    split at hreader
    · cases hreader
    · rename_i hstart
      rw [hstart]
      rfl

/-- A new iterator stands at the start that its builder has. -/
theorem Traces.follows_new {i : ℕ} (h : Traces serde nameForType past w)
    (hdoes : Does dispatchers filterer serde nameForType w (.build b form timelimit) (.built i)
      w') :
    ∃ start reader, (chosen nameForType (settingsOf b past)).startFrom = some start ∧
      w'.readers[i]? = some reader ∧
      Follows serde (chosen nameForType (settingsOf b past)).kind form start w'.backend [] reader
      := by
  generalize hanswer : Answer.built i = answer at hdoes
  cases hdoes with
  | @build _ _ _ builder reader hbuilder hbuild =>
    cases hanswer
    have hbuilt := h.built b
    rw [hbuilder, Option.getD_some] at hbuilt
    rw [hbuilt.build_eq] at hbuild
    obtain ⟨t, -, hreader⟩ := bind_eq_ok.1 hbuild
    split at hreader
    · cases hreader
    · rename_i start hstart
      cases hreader
      exact ⟨start, _, hstart, List.getElem?_concat_length,
        follows_start serde _ form start w.backend⟩
  | refuseBuild _ hother => exact absurd hanswer.symm (hother i)

theorem Traces.step (h : Traces serde nameForType past w) (a : Activity E T) :
    Traces serde nameForType
      (past ++ [(a, (SubscriptionBuilders.step dispatchers filterer serde nameForType w a).1)])
      (SubscriptionBuilders.step dispatchers filterer serde nameForType w a).2 := by
  have hdoes := step_does dispatchers filterer serde nameForType w a
  refine ⟨(hdoes.extends h.indexed).indexed, hdoes.created h.created, hdoes.built h.built, ?_, ?_⟩
  · intro before b form timelimit answer rest hpast
    rcases List.eq_nil_or_concat rest with rfl | ⟨rest, x, rfl⟩
    · obtain ⟨rfl, hlast⟩ := List.append_inj' hpast rfl
      cases hlast
      exact (hdoes.built_iff rfl).trans h.grants_iff.symm
    · rw [List.concat_eq_append, ← List.cons_append, ← List.append_assoc] at hpast
      exact h.granted before b form timelimit answer rest (List.append_inj' hpast rfl).1
  · intro before b form timelimit i rest hpast
    rcases List.eq_nil_or_concat rest with rfl | ⟨rest, x, rfl⟩
    · obtain ⟨rfl, hlast⟩ := List.append_inj' hpast rfl
      rw [List.cons.injEq, Prod.mk.injEq] at hlast
      obtain ⟨⟨rfl, hanswer⟩, -⟩ := hlast
      rw [hanswer] at hdoes
      exact h.follows_new hdoes
    · rw [List.concat_eq_append, ← List.cons_append, ← List.append_assoc] at hpast
      obtain ⟨rfl, hlast⟩ := List.append_inj' hpast rfl
      cases hlast
      obtain ⟨start, reader, hstart, hreader, hfollows⟩ :=
        h.follows before b form timelimit i rest rfl
      obtain ⟨reader', hreader', hfollows'⟩ := hdoes.follows h.indexed hreader hfollows
      rw [List.concat_eq_append, nextsOf_append]
      exact ⟨start, reader', hstart, hreader', hfollows'⟩

end Steps

section Runs
variable (dispatchers : TenantId → Dispatcher E) (filterer : Option (RawEvent → Bool))
  (serde : Serde E) (nameForType : T → Except SerdeError String)

theorem traces_run (activities : List (Activity E T)) :
    let r := run (step dispatchers filterer serde nameForType) {} activities
    Traces serde nameForType (activities.zip r.1) r.2 :=
  run_history (fun _ _ a h _ => h.step a) traces_empty activities
    (meets_of_forall (fun _ _ => trivial) _ _)

/-- In any run a build goes through if and only if it is granted. Its iterator is for the last
start and the last filter that its builder had been given then: whatever is done with the builder
later, with other iterators or by those who write, its subscription delivers the first of the
records wanted behind the start, and what it yields are these records, decoded. -/
theorem iterators_deliver (activities : List (Activity E T)) :
    let r := run (step dispatchers filterer serde nameForType) {} activities
    ∀ before b form timelimit answer rest,
      activities.zip r.1 = before ++ (.build b form timelimit, answer) :: rest →
      ((∃ i, answer = .built i) ↔ Grants nameForType before b timelimit) ∧
      ∀ i, answer = .built i → ∃ start batches finished raws,
        (chosen nameForType (settingsOf b before)).startFrom = some start ∧
        Tells serde form batches (nextsOf i rest) finished ∧
        (∀ batch ∈ batches, batch.length ≤ form.size) ∧
        batches.flatten <+: (r.2.backend.storage.records.filter fun record =>
          (start : ℤ) < record.position ∧
            (chosen nameForType (settingsOf b before)).kind.wants record) ∧
        raws <+: batches.flatten ∧ (finished = false → raws = batches.flatten) ∧
        raws.mapM serde.deserializeRecord = .ok (yielded (nextsOf i rest)) := by
  intro r before b form timelimit answer rest hpast
  have htraces := traces_run dispatchers filterer serde nameForType activities
  refine ⟨htraces.granted before b form timelimit answer rest hpast, ?_⟩
  rintro i rfl
  obtain ⟨start, reader, hstart, -, hfollows⟩ :=
    htraces.follows before b form timelimit i rest hpast
  obtain ⟨batches, htells, hsizes, hflatten⟩ := hfollows.tells
  obtain ⟨raws, hprefix, hall, hraws⟩ := htells.decodes hsizes
  refine ⟨start, batches, _, raws, hstart, htells, hsizes, ?_, hprefix, hall, hraws⟩
  rw [htraces.indexed.filter_drop, hflatten]
  exact ((List.take_prefix _ _).drop start).filter _

end Runs

section Example

/-- A builder gets a filter after it has built an iterator. A second iterator would have to be
faster than the timebox allows. -/
def reused : List (Activity Unit String) :=
  [.subscriber, .set 0 (.startFrom 1), .build 0 .iter (.seconds 1), .set 0 (.toCategory "invoices"),
    .build 0 (.batch 2) (.timedelta 99999), .write InMemorySubscriptions.answered, .next 0 [] [],
    .next 0 [] [], .next 0 [] []]

def reusedRun : List (Answer Unit) × World :=
  run (step (fun _ => Tenants.plainDispatcher) none Tenants.plainSerde .ok) {} reused

/-- The iterator goes on without the filter. -/
theorem iterators_deliver_reused : ∃ rest batches finished,
    (reused.zip reusedRun.1).drop 2 = (.build 0 .iter (.seconds 1), .built 0) :: rest ∧
    Tells Tenants.plainSerde .iter batches (nextsOf 0 rest) finished ∧
    batches.flatten <+: (reusedRun.2.backend.storage.records.filter fun record =>
      (1 : ℤ) < record.position ∧ Kind.all.wants record) ∧
    (yielded (nextsOf 0 rest)).map Recorded.position = [2, 3] := by
  obtain ⟨-, hdeliver⟩ := iterators_deliver (fun _ => Tenants.plainDispatcher) none
    Tenants.plainSerde .ok reused ((reused.zip reusedRun.1).take 2) 0 .iter (.seconds 1)
    (.built 0) ((reused.zip reusedRun.1).drop 3) rfl
  obtain ⟨start, batches, finished, -, hstart, htells, -, hprefix, -⟩ := hdeliver 0 rfl
  cases hstart
  exact ⟨_, batches, finished, rfl, htells, hprefix, rfl⟩

end Example

end EventSourcery.SubscriptionBuilders
