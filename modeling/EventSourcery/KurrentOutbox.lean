import EventSourcery.KurrentSubscriptions

/-!
# The outbox of the KurrentDB backend, and all that subscribers see

The outbox reads a persistent subscription to all streams, which begins at the end of the log.
The server offers an entry of it until it is acknowledged or parked. What a subscription and the
outbox give are the events that were appended as long as no snapshot is saved of a stream that is
shown.
-/
namespace EventSourcery.Kurrent
open EventStore (request)
open Runs Tenants KurrentServer

variable {E : Type}

/-- The server's side of the persistent subscription: where it begins, what is acknowledged or
parked, and the retry counts. -/
structure PersistentSubscription where
  startFrom : ℤ
  settled : List ℤ := []
  retryCount : ℤ → ℕ := fun _ => 0

namespace PersistentSubscription

/-- The entries that the server can offer. -/
def pending (log : EventLog) (s : PersistentSubscription) : List RecordedEvent :=
  (log.subscribeToAll s.startFrom).filter fun entry => entry.position ∉ s.settled

def ack (entry : RecordedEvent) (s : PersistentSubscription) : PersistentSubscription :=
  { s with settled := entry.position :: s.settled }

/-- `nack` with the action `park` -/
def park (entry : RecordedEvent) (s : PersistentSubscription) : PersistentSubscription :=
  { s with settled := entry.position :: s.settled }

/-- `nack` with the action `retry` -/
def retry (entry : RecordedEvent) (s : PersistentSubscription) : PersistentSubscription :=
  { s with
    retryCount := Function.update s.retryCount entry.position (s.retryCount entry.position + 1) }

end PersistentSubscription

structure KurrentDBOutboxStorageStrategy where
  filterer : RawEvent → Bool
  maxPublishAttempts : ℕ

namespace KurrentDBOutboxStorageStrategy
variable (strategy : KurrentDBOutboxStorageStrategy)

def reachedMaxNumberOfAttempts (failureCount : ℕ) : Bool :=
  strategy.maxPublishAttempts ≤ failureCount

/-- `_publish_context`, with whether the publisher returns. -/
def publishContext (entry : RecordedEvent) (published : Bool) (s : PersistentSubscription) :
    PersistentSubscription :=
  if published then s.ack entry
  else
    let failureCount := s.retryCount entry.position + 1
    if strategy.reachedMaxNumberOfAttempts failureCount then s.park entry else s.retry entry

/-- The loop of `outbox_entries` over what the server offers: the records that it yields, each
published or not before the next. A position that is not pending is not offered. -/
def publishEach (log : EventLog) :
    List (ℤ × Bool) → PersistentSubscription → List RecordedRaw × PersistentSubscription
  | [], s => ([], s)
  | (position, published) :: offers, s =>
      match (s.pending log).find? (·.position = position) with
      | none => publishEach log offers s
      | some entry =>
          match rawRecord entry with
          | .error _ => ([], s)
          | .ok record =>
              if strategy.filterer record.entry then
                let rest := publishEach log offers (strategy.publishContext entry published s)
                (record :: rest.1, rest.2)
              else publishEach log offers s

/-- `outbox_entries`, run to its end; the limit 0 is no limit of its own. -/
def outboxEntries (liveBufferCount limit : ℕ) (offers : List (ℤ × Bool)) (log : EventLog)
    (s : PersistentSubscription) : List RecordedRaw × PersistentSubscription :=
  if liveBufferCount = 0 then ([], s)
  else publishEach strategy log (offers.take (if limit = 0 then 100 else limit)) s

/-- `create_subscription`, from the end of the log unless there is one. -/
def createSubscription (log : EventLog) (s : Option PersistentSubscription) :
    PersistentSubscription := s.getD { startFrom := log.entries.length }

end KurrentDBOutboxStorageStrategy

/-! ## What the outbox gives -/

/-- An entry whose record passes the filter. -/
def Passes (strategy : KurrentDBOutboxStorageStrategy) (entry : RecordedEvent)
    (record : RecordedRaw) : Prop :=
  rawRecord entry = .ok record ∧ strategy.filterer record.entry = true

/-- What was yielded or is pending are the records of what was shown since the subscription was
created and passes the filter. -/
def Offers (strategy : KurrentDBOutboxStorageStrategy) (log : EventLog)
    (yielded : List RecordedRaw) (s : PersistentSubscription) : Prop :=
  ∀ record, (record ∈ yielded ∨ ∃ entry ∈ s.pending log, Passes strategy entry record) ↔
    ∃ entry ∈ log.subscribeToAll s.startFrom, Passes strategy entry record

section Offering
variable {strategy : KurrentDBOutboxStorageStrategy} {log log' : EventLog}
  {yielded : List RecordedRaw} {s : PersistentSubscription} {entry : RecordedEvent}
  {record : RecordedRaw} {position : ℤ}

theorem mem_pending : entry ∈ s.pending log ↔
    entry ∈ log.subscribeToAll s.startFrom ∧ entry.position ∉ s.settled := by
  simp [PersistentSubscription.pending]

/-- A publication settles no other entry. -/
theorem publishContext_eq (published : Bool) (s : PersistentSubscription) :
    (strategy.publishContext entry published s).startFrom = s.startFrom ∧
      ((strategy.publishContext entry published s).settled = s.settled ∨
        (strategy.publishContext entry published s).settled = entry.position :: s.settled) := by
  unfold KurrentDBOutboxStorageStrategy.publishContext
  split
  · exact ⟨rfl, .inr rfl⟩
  · dsimp only
    split
    · exact ⟨rfl, .inr rfl⟩
    · exact ⟨rfl, .inl rfl⟩

theorem Passes.unique {other : RecordedRaw} (h : Passes strategy entry record)
    (hother : Passes strategy entry other) : other = record := by
  have hsame := hother.1.symm.trans h.1
  simpa using hsame

/-- The outbox keeps track of what it yields and of what is settled. -/
structure Tracks (strategy : KurrentDBOutboxStorageStrategy) (log : EventLog)
    (yielded : List RecordedRaw) (s : PersistentSubscription) : Prop where
  offers : Offers strategy log yielded s
  settled : ∀ position ∈ s.settled, position ≤ log.entries.length

theorem position_le (hnumbered : Numbered log.entries) (hentry : entry ∈ log.entries) :
    entry.position ≤ log.entries.length := by
  obtain ⟨i, hi⟩ := List.mem_iff_getElem?.1 hentry
  have hlength := (List.getElem?_eq_some_iff.1 hi).1
  have hposition := hnumbered.position hi
  omega

theorem eq_of_position (hnumbered : Numbered log.entries) (hentry : entry ∈ log.entries)
    {other : RecordedEvent} (hother : other ∈ log.entries)
    (hsame : other.position = entry.position) : other = entry := by
  obtain ⟨i, hi⟩ := List.mem_iff_getElem?.1 hentry
  obtain ⟨j, hj⟩ := List.mem_iff_getElem?.1 hother
  have hposition := hnumbered.position hi
  have hposition' := hnumbered.position hj
  obtain rfl : j = i := by omega
  exact Option.some.inj (hj.symm.trans hi)

theorem Tracks.publish (hnumbered : Numbered log.entries) (h : Tracks strategy log yielded s)
    (hentry : entry ∈ s.pending log) (hpasses : Passes strategy entry record) (published : Bool) :
    Tracks strategy log (yielded ++ [record]) (strategy.publishContext entry published s) := by
  obtain ⟨hstart, hsettled⟩ := @publishContext_eq strategy entry published s
  have hmem := (mem_pending.1 hentry).1
  have hlog : ∀ e ∈ log.subscribeToAll s.startFrom, e ∈ log.entries := fun e he =>
    List.mem_of_mem_filter he
  refine ⟨fun other => ?_, fun position hposition => ?_⟩
  · constructor
    · rintro (hyielded | ⟨e, he, hother⟩)
      · rw [hstart]
        rcases List.mem_append.1 hyielded with hyielded | hyielded
        · exact (h.offers other).1 (.inl hyielded)
        · rw [List.mem_singleton.1 hyielded]
          exact ⟨entry, hmem, hpasses⟩
      · exact ⟨e, (mem_pending.1 he).1, hother⟩
    · rw [hstart]
      intro hshown
      rcases (h.offers other).2 hshown with hyielded | ⟨e, he, hother⟩
      · exact .inl (List.mem_append_left _ hyielded)
      · obtain ⟨he, hfree⟩ := mem_pending.1 he
        by_cases hsame : e.position = entry.position
        · obtain rfl := eq_of_position hnumbered (hlog _ hmem) (hlog _ he) hsame
          obtain rfl := hpasses.unique hother
          exact .inl (List.mem_append_right _ (List.mem_singleton_self _))
        · refine .inr ⟨e, mem_pending.2 ⟨hstart ▸ he, ?_⟩, hother⟩
          rcases hsettled with hsettled | hsettled
          · rwa [hsettled]
          · rw [hsettled, List.mem_cons, not_or]
            exact ⟨hsame, hfree⟩
  · rcases hsettled with hsettled | hsettled
    · exact h.settled position (hsettled ▸ hposition)
    · rw [hsettled] at hposition
      rcases List.mem_cons.1 hposition with rfl | hposition
      · exact position_le hnumbered (hlog _ hmem)
      · exact h.settled position hposition

theorem Tracks.publishEach (hnumbered : Numbered log.entries) (offers : List (ℤ × Bool))
    (h : Tracks strategy log yielded s) :
    Tracks strategy log (yielded ++ (strategy.publishEach log offers s).1)
      (strategy.publishEach log offers s).2 := by
  induction offers generalizing yielded s with
  | nil => simpa [KurrentDBOutboxStorageStrategy.publishEach] using h
  | cons offer offers ih =>
    obtain ⟨position, published⟩ := offer
    unfold KurrentDBOutboxStorageStrategy.publishEach
    split
    · exact ih h
    · rename_i entry hentry
      split
      · simpa using h
      · rename_i record hrecord
        split
        · rename_i hfilter
          have hnext := ih (h.publish hnumbered (List.mem_of_find?_eq_some hentry)
            ⟨hrecord, hfilter⟩ published)
          simpa using hnext
        · exact ih h

theorem Tracks.outboxEntries (hnumbered : Numbered log.entries) (liveBufferCount limit : ℕ)
    (offers : List (ℤ × Bool)) (h : Tracks strategy log yielded s) :
    Tracks strategy log
      (yielded ++ (strategy.outboxEntries liveBufferCount limit offers log s).1)
      (strategy.outboxEntries liveBufferCount limit offers log s).2 := by
  unfold KurrentDBOutboxStorageStrategy.outboxEntries
  split
  · simpa using h
  · exact h.publishEach hnumbered _

/-- What is written later is pending. -/
theorem Tracks.grows (h : Tracks strategy log yielded s) {new : List RecordedEvent}
    (hnew : log'.entries = log.entries ++ new) (hnumbered : Numbered log'.entries) :
    Tracks strategy log' yielded s := by
  have hlength : log.entries.length ≤ log'.entries.length := by simp [hnew]
  refine ⟨fun record => ?_, fun position hposition => ?_⟩
  · have hmem : ∀ e, e ∈ log'.subscribeToAll s.startFrom ↔ e ∈ log.subscribeToAll s.startFrom ∨
        e ∈ new.filter fun e => shown e && s.startFrom < e.position := by
      intro e
      rw [EventLog.subscribeToAll, hnew, List.filter_append, List.mem_append]
      rfl
    have hfree : ∀ e ∈ new, e.position ∉ s.settled := by
      intro e he hsettled
      have hlater := position_of_new hnew hnumbered he
      have hle := h.settled _ hsettled
      omega
    constructor
    · rintro (hyielded | ⟨e, he, hpasses⟩)
      · obtain ⟨e, he, hpasses⟩ := (h.offers record).1 (.inl hyielded)
        exact ⟨e, (hmem e).2 (.inl he), hpasses⟩
      · exact ⟨e, (mem_pending.1 he).1, hpasses⟩
    · rintro ⟨e, he, hpasses⟩
      rcases (hmem e).1 he with hold | hlater
      · rcases (h.offers record).2 ⟨e, hold, hpasses⟩ with hyielded | ⟨e', he', hpasses'⟩
        · exact .inl hyielded
        · obtain ⟨hshown, hopen⟩ := mem_pending.1 he'
          exact .inr ⟨e', mem_pending.2 ⟨(hmem e').2 (.inl hshown), hopen⟩, hpasses'⟩
      · exact .inr ⟨e, mem_pending.2 ⟨he, hfree e (List.mem_of_mem_filter hlater)⟩, hpasses⟩
  · exact (h.settled position hposition).trans (by exact_mod_cast hlength)

end Offering

/-! ## The whole system -/

namespace KurrentOutbox

/-- The store, a subscription to all and the outbox. -/
structure System where
  history : History := {}
  iteration : Iteration
  outbox : Option PersistentSubscription := none

inductive Action (E : Type) where
  | call (i : TenantId × Call E)
  | next
  | deadline
  | createSubscription
  | run (liveBufferCount limit : ℕ) (offers : List (ℤ × Bool))

/-- What a step yields: a batch of the subscription, or entries of the outbox. -/
structure Yield where
  batch : List RecordedRaw := []
  entries : List RecordedRaw := []

/-- A subscription that has raised gives nothing, and neither does an outbox before its
subscription is created. -/
def act (serdes : TenantId → Serde E) (strategy : KurrentDBOutboxStorageStrategy) (s : System) :
    Action E → Yield × System
  | .call i => ({}, { s with history := s.history.call serdes i })
  | .next =>
      if s.iteration.finished then ({}, s)
      else
        let r := s.iteration.next s.history.log
        ({ batch := r.1.getD [] }, { s with iteration := r.2 })
  | .deadline =>
      if s.iteration.finished then ({}, s)
      else
        let r := s.iteration.deadline
        ({ batch := r.1.getD [] }, { s with iteration := r.2 })
  | .createSubscription =>
      ({}, { s with
        outbox := some (KurrentDBOutboxStorageStrategy.createSubscription s.history.log s.outbox) })
  | .run liveBufferCount limit offers =>
      match s.outbox with
      | none => ({}, s)
      | some outbox =>
          let r := strategy.outboxEntries liveBufferCount limit offers s.history.log outbox
          ({ entries := r.1 }, { s with outbox := some r.2 })

/-- A system with a subscription that begins at a position. -/
def System.of (startFrom : Position) (size : ℕ) : System :=
  { iteration := { size, builder := startFrom } }

/-- What a subscription has produced are the records of the events behind its start, up to those
that it is given next. -/
def SeesEvents (startFrom : Position) (yields : List Yield) (s : System) : Prop :=
  ∃ done, s.history.events.filter (startFrom < ·.position) =
      done ++ s.history.log.subscribeToAll s.iteration.subscription ∧
    List.Forall₂ (fun entry record => rawRecord entry = .ok record) done
      (yields.flatMap Yield.batch ++ s.iteration.batch) ∧
    s.iteration.finished = false

/-- What the outbox has yielded or is still offered are the records of the events since it was
created, of those that pass the filter. -/
def OffersEvents (strategy : KurrentDBOutboxStorageStrategy) (yields : List Yield) (s : System) :
    Prop :=
  (s.outbox = none → yields.flatMap Yield.entries = []) ∧
    ∀ outbox record, s.outbox = some outbox →
      ((record ∈ yields.flatMap Yield.entries ∨
          ∃ entry ∈ outbox.pending s.history.log, Passes strategy entry record) ↔
        ∃ entry ∈ s.history.events, outbox.startFrom < entry.position ∧
          Passes strategy entry record)

/-- What holds in every state that calls of whatever kind lead to, with what the subscription has
yielded and what the outbox has. -/
structure Consistent (strategy : KurrentDBOutboxStorageStrategy) (startFrom : Position)
    (yielded published : List RecordedRaw) (s : System) : Prop where
  inv : Inv s.history.log
  follows : Follows startFrom s.history.log yielded s.iteration
  running : Running startFrom s.history.log s.iteration
  uncreated : s.outbox = none → published = []
  tracks : ∀ outbox, s.outbox = some outbox → Tracks strategy s.history.log published outbox

section Steps
variable {serdes : TenantId → Serde E} {strategy : KurrentDBOutboxStorageStrategy}
  {startFrom : Position} {yielded published : List RecordedRaw} {s : System}

theorem consistent_of (size : ℕ) :
    Consistent strategy startFrom [] [] (System.of startFrom size) :=
  ⟨inv_empty, ⟨[], rfl, .nil⟩, ⟨rfl, rfl, fun _ _ => Iff.rfl⟩, fun _ => rfl, nofun⟩

theorem call_log (h : History) (i : TenantId × Call E) :
    (h.call serdes i).log = (callStep (stores serdes) h.log i).2 := by
  unfold History.call
  split <;> rfl

theorem Consistent.call {i : TenantId × Call E} (hvalid : ValidCall serdes i)
    (h : Consistent strategy startFrom yielded published s) :
    Consistent strategy startFrom yielded published
      { s with history := s.history.call serdes i } := by
  have hinv : Inv (s.history.call serdes i).log := by
    rw [call_log]
    exact h.inv.step hvalid
  obtain ⟨new, hnew⟩ : ∃ new, (s.history.call serdes i).log.entries =
      s.history.log.entries ++ new := by
    rw [call_log]
    rcases callStep_cases hvalid with ⟨_, name, -, -, hdelete⟩ | hgrows
    · exact ⟨[], by rw [hdelete]; simp [EventLog.delete]⟩
    · obtain ⟨new, hnew, -⟩ := hgrows.added
      exact ⟨new, hnew⟩
  obtain ⟨hfollows, hrunning⟩ := h.follows.grows h.running hnew hinv.numbered
  exact ⟨hinv, hfollows, hrunning, h.uncreated, fun outbox houtbox =>
    (h.tracks outbox houtbox).grows hnew hinv.numbered⟩

theorem tracks_created (log : EventLog) :
    Tracks strategy log [] { startFrom := log.entries.length } := by
  refine ⟨fun record => ?_, by simp⟩
  have hpending : ∀ entry, entry ∈ PersistentSubscription.pending log
      { startFrom := log.entries.length } ↔
        entry ∈ log.subscribeToAll log.entries.length := fun entry => by
    simp [mem_pending]
  simp [hpending]

theorem Consistent.act {a : Action E} (hvalid : ∀ i, a = .call i → ValidCall serdes i)
    (h : Consistent strategy startFrom yielded published s) :
    Consistent strategy startFrom (yielded ++ (act serdes strategy s a).1.batch)
      (published ++ (act serdes strategy s a).1.entries) (act serdes strategy s a).2 := by
  obtain ⟨hinv, hfollows, hrunning, huncreated, htracks⟩ := h
  cases a with
  | call i =>
    simpa [KurrentOutbox.act] using
      Consistent.call (hvalid i rfl) ⟨hinv, hfollows, hrunning, huncreated, htracks⟩
  | next =>
    obtain ⟨hfollows, hrunning'⟩ := hfollows.next hrunning hinv
    simp only [KurrentOutbox.act, hrunning.finished, Bool.false_eq_true, if_false,
      List.append_nil]
    exact ⟨hinv, hfollows, hrunning', huncreated, htracks⟩
  | deadline =>
    obtain ⟨hfollows, hrunning'⟩ := hfollows.deadline hrunning
    simp only [KurrentOutbox.act, hrunning.finished, Bool.false_eq_true, if_false,
      List.append_nil]
    exact ⟨hinv, hfollows, hrunning', huncreated, htracks⟩
  | createSubscription =>
    simp only [KurrentOutbox.act, List.append_nil]
    refine ⟨hinv, hfollows, hrunning, nofun, fun outbox houtbox => ?_⟩
    cases hold : s.outbox with
    | none =>
      rw [hold] at houtbox
      cases houtbox
      rw [huncreated hold]
      exact tracks_created _
    | some old =>
      rw [hold] at houtbox
      cases houtbox
      exact htracks old hold
  | run liveBufferCount limit offers =>
    cases houtbox : s.outbox with
    | none =>
      simp only [KurrentOutbox.act, houtbox, List.append_nil]
      exact ⟨hinv, hfollows, hrunning, huncreated, htracks⟩
    | some outbox =>
      simp only [KurrentOutbox.act, houtbox, List.append_nil]
      refine ⟨hinv, hfollows, hrunning, nofun, fun other hother => ?_⟩
      cases hother
      exact (htracks outbox houtbox).outboxEntries hinv.numbered liveBufferCount limit offers

/-- A consistent state in which subscribers are shown what was appended and nothing else. -/
theorem Consistent.sees (h : Consistent strategy startFrom yielded published s)
    (hmatches : s.history.Matches) {yields : List Yield}
    (hyielded : yields.flatMap Yield.batch = yielded)
    (hpublished : yields.flatMap Yield.entries = published) :
    SeesEvents startFrom yields s ∧ OffersEvents strategy yields s := by
  have hshown : ∀ position : ℤ, s.history.log.subscribeToAll position =
      s.history.events.filter (position < ·.position) := by
    intro position
    rw [← hmatches, List.filter_filter]
    exact List.filter_congr fun entry _ => Bool.and_comm _ _
  constructor
  · obtain ⟨done, hdone, hrecords⟩ := h.follows
    exact ⟨done, by rw [← hdone, hshown], by rwa [hyielded], h.running.finished⟩
  · refine ⟨fun houtbox => hpublished.trans (h.uncreated houtbox), fun outbox record houtbox => ?_⟩
    rw [hpublished, (h.tracks outbox houtbox).offers record, hshown]
    simp [and_assoc]

end Steps

/-- The calls of a run are told as they are made. -/
def ToldCall (serdes : TenantId → Serde E) (s : System) (a : Action E) : Prop :=
  ∀ i, a = .call i → Told serdes s.history.log i

theorem matches_act {serdes : TenantId → Serde E} {strategy : KurrentDBOutboxStorageStrategy}
    {s : System} {a : Action E} (hmatches : s.history.Matches) (htold : ToldCall serdes s a) :
    (act serdes strategy s a).2.history.Matches := by
  cases a with
  | call i => exact hmatches.call (htold i rfl)
  | next =>
    rw [act]
    split
    · exact hmatches
    · exact hmatches
  | deadline =>
    rw [act]
    split
    · exact hmatches
    · exact hmatches
  | createSubscription => exact hmatches
  | run liveBufferCount limit offers =>
    rw [act]
    split
    · exact hmatches
    · exact hmatches

/-- While no snapshot of a shown stream is saved and no event of a hidden one is appended, the
subscription and the outbox give the appended events and nothing else. -/
theorem subscribers_see_events {serdes : TenantId → Serde E}
    (strategy : KurrentDBOutboxStorageStrategy) (startFrom : Position) (size : ℕ)
    {actions : List (Action E)} (hvalid : ∀ i, .call i ∈ actions → ValidCall serdes i)
    (htold : Meets (act serdes strategy) (ToldCall serdes) (System.of startFrom size) actions) :
    let r := run (act serdes strategy) (System.of startFrom size) actions
    SeesEvents startFrom r.1 r.2 ∧ OffersEvents strategy r.1 r.2 := by
  intro r
  have hcalls : Meets (act serdes strategy)
      (fun _ a => ∀ i, a = .call i → ValidCall serdes i) (System.of startFrom size) actions :=
    meets_of_mem fun a ha _ i hi => hvalid i (by rwa [← hi])
  have hmeets : Meets (act serdes strategy)
      (fun s a => (∀ i, a = .call i → ValidCall serdes i) ∧ ToldCall serdes s a)
      (System.of startFrom size) actions :=
    meets_and.2 ⟨hcalls, htold⟩
  have hmatches : (System.of startFrom size).history.Matches := rfl
  have hend := run_history
    (P := fun past s => s.history.Matches ∧
      Consistent strategy startFrom ((past.map Prod.snd).flatMap Yield.batch)
        ((past.map Prod.snd).flatMap Yield.entries) s)
    (fun past s a h hok => ?_) ⟨hmatches, consistent_of size⟩ actions hmeets
  · have hyields : (actions.zip r.1).map Prod.snd = r.1 :=
      List.map_snd_zip (by simp [r])
    rw [hyields] at hend
    exact hend.2.sees hend.1 rfl rfl
  · obtain ⟨hmatches, hconsistent⟩ := h
    exact ⟨matches_act hmatches hok.2, by simpa using hconsistent.act hok.1⟩

section Example

/-- An outbox that publishes everything. -/
def everything : KurrentDBOutboxStorageStrategy :=
  { filterer := fun _ => true, maxPublishAttempts := 3 }

/-- An order, or an order with a snapshot, that a subscription and the outbox are told of. -/
def orderActions (second : TenantId × Call Unit) : List (Action Unit) :=
  [.createSubscription, .call (orderPlaced 1), .call second, .next, .next, .deadline,
    .run 2 0 [(1, true), (2, true)]]

abbrev orderRun (second : TenantId × Call Unit) : List Yield × System :=
  run (act (fun _ => orderSerde) everything) (System.of 0 10) (orderActions second)

theorem call_mem_orderActions {second i : TenantId × Call Unit}
    (h : Action.call i ∈ orderActions second) : i = orderPlaced 1 ∨ i = second := by
  simpa [orderActions] using h

theorem told_orderPlaced (log : EventLog) (version : ℤ) :
    Told (fun _ => orderSerde) log (orderPlaced version) := by
  intro answer r _ hr
  cases hr
  exact (by decide : ¬ Hidden orderName.uuid)

theorem subscribers_see_events_placed :
    SeesEvents 0 (orderRun (orderPlaced 2)).1 (orderRun (orderPlaced 2)).2 ∧
      OffersEvents everything (orderRun (orderPlaced 2)).1 (orderRun (orderPlaced 2)).2 := by
  refine subscribers_see_events everything 0 10 (fun i hi => ?_) ?_
  · rcases call_mem_orderActions hi with rfl | rfl
    · exact validCall_order (.inl rfl)
    · exact validCall_order (.inl rfl)
  · refine meets_of_mem fun a ha s i hi => ?_
    rcases call_mem_orderActions (hi ▸ ha) with rfl | rfl
    · exact told_orderPlaced _ _
    · exact told_orderPlaced _ _

/-- A snapshot is given by the subscription and by the outbox, though one event was appended. -/
theorem subscribers_see_snapshot :
    ¬ SeesEvents 0 (orderRun (orderSaved 1)).1 (orderRun (orderSaved 1)).2 ∧
      ¬ OffersEvents everything (orderRun (orderSaved 1)).1 (orderRun (orderSaved 1)).2 := by
  constructor
  · rintro ⟨done, hdone, hrecords, -⟩
    have hevents : (orderRun (orderSaved 1)).2.history.events.length = 1 := by decide +kernel
    have hyielded : ((orderRun (orderSaved 1)).1.flatMap Yield.batch).length = 2 := by
      decide +kernel
    have hlength := hrecords.length_eq
    have hfilter := List.length_filter_le (fun e : RecordedEvent => decide (0 < e.position))
      (orderRun (orderSaved 1)).2.history.events
    rw [hdone] at hfilter
    simp only [List.length_append] at hlength hfilter
    omega
  · intro hoffers
    have hsnapshot : ((orderRun (orderSaved 1)).1.flatMap Yield.entries).any (fun record =>
        (orderRun (orderSaved 1)).2.history.events.all fun entry =>
          (rawRecord entry).toOption ≠ some record) = true := by decide +kernel
    obtain ⟨record, hrecord, hnone⟩ := List.any_eq_true.1 hsnapshot
    obtain ⟨outbox, houtbox⟩ : ∃ outbox, (orderRun (orderSaved 1)).2.outbox = some outbox :=
      Option.isSome_iff_exists.1 (by decide +kernel)
    obtain ⟨entry, hentry, -, hpasses⟩ := (hoffers.2 outbox record houtbox).1 (.inl hrecord)
    have hother := List.all_eq_true.1 hnone entry hentry
    rw [hpasses.1] at hother
    simp [Except.toOption] at hother

end Example

end KurrentOutbox

end EventSourcery.Kurrent
