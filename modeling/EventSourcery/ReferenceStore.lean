import EventSourcery.ConsecutiveNumbers
import EventSourcery.KurrentServer

/-!
# What an event store is for

A stream is the list of its events, with the versions 1, 2, 3 and so on. An append goes through if
and only if it expects the number of events that are there, and a read gives the events whose
versions are in its range. The books keep nothing else, apart from the uuids that were given out.

No backend does this for everything that can be asked of it, and what is left out is left out by a
condition on the requests, in terms of the books alone. A backend that conforms gives the answers
of the reference as long as the condition is met, and so do any two of them.
-/
namespace EventSourcery.ReferenceStore
open ConsecutiveNumbers Kurrent KurrentServer Runs
open EventStore (finish request call_eq)
open Replay (InRange)

structure Books where
  streams : Uuid × String → List RawEvent := fun _ => []
  uuids : List Uuid := []

/-- What tells streams apart on every backend. -/
def place (streamId : StreamId) : Uuid × String := (streamId.uuid, streamId.categoryText)

namespace Books

def events (streamId : StreamId) (books : Books) : List RawEvent := books.streams (place streamId)

def version (streamId : StreamId) (books : Books) : ℤ := (books.events streamId).length

def write (streamId : StreamId) (events : List RawEvent) (books : Books) : Books where
  streams := Function.update books.streams (place streamId) events
  uuids := books.uuids ++ events.map (·.uuid)

/-- The events of every stream are numbered from 1. -/
def Numbered (books : Books) : Prop := ∀ at', Consecutive (·.version) 1 (books.streams at')

end Books

def fetchEvents (streamId : StreamId) (start stop : Option ℤ) (books : Books) : List RawEvent :=
  (books.events streamId).filter fun raw => raw.version.any fun v => InRange start stop v

def insertEvents (streamId : StreamId) (versioning : Versioning) (events : List RawEvent)
    (books : Books) : Except Error Unit × Books :=
  if versioning.expectedVersion = some (books.version streamId) then
    (.ok (), books.write streamId (books.events streamId ++ events))
  else (.error (.concurrentStreamWriteError []), books)

/-- A snapshot is not an event. -/
def strategy : StorageStrategy Books where
  fetchEvents streamId start stop books := .ok (fetchEvents streamId start stop books)
  insertEvents := insertEvents
  saveSnapshot _ books := (.ok (), books)
  deleteStream streamId books := (.ok (), books.write streamId [])

/-! ## What can be asked of every backend -/

/-- A stream id that every backend tells from others by the same columns: it has no name, and
its category is not empty and can be part of a stream's name. -/
structure Plain (streamId : StreamId) : Prop where
  name : streamId.name = none
  category : streamId.category ≠ some ""
  dashes : '-' ∉ streamId.categoryText.toList

/-- The events are numbered on from an expected version, which is 0 for a new stream only. They
are new, and can be stored as JSON and read back. -/
structure Appendable {E : Type} (serde : Serde E) (books : Books) (streamId : StreamId)
    (versioning : Versioning) (events : List RawEvent) : Prop where
  plain : Plain streamId
  numbered : ∃ v, versioning = .explicit v (some (v + events.length)) ∧
    Consecutive (·.version) (v + 1) events ∧ (v = 0 → books.events streamId = [])
  distinct : (events.map (·.uuid)).Nodup
  fresh : ∀ raw ∈ events, raw.uuid ∉ books.uuids
  valid : ∀ raw ∈ events, Valid raw ∧ Unreserved raw.context
  readable : ∃ stored, serde.deserializeMany events = .ok stored

/-- A range of versions that is in order and does not end before the first event, in a stream that
is no longer than positions go. -/
structure Loadable (books : Books) (streamId : StreamId) (start stop : Option ℤ) : Prop where
  plain : Plain streamId
  first : ∀ a ∈ start, 1 ≤ a ∧ a ≤ maxPosition
  last : ∀ b ∈ stop, 2 ≤ b
  between : ∀ a ∈ start, ∀ b ∈ stop, a ≤ b
  bounded : books.version streamId ≤ maxPosition

/-- `deletes` allows for deletions. -/
def Portable {E : Type} (serde : Serde E) (deletes : Prop) (books : Books) : Request → Prop
  | .fetch streamId start stop => Loadable books streamId start stop
  | .insert streamId versioning events => Appendable serde books streamId versioning events
  | .snapshot _ => False
  | .delete streamId => deletes ∧ Plain streamId

/-- The condition on a call: what it asks for can be asked of every backend. -/
def PortableCall {E : Type} (serde : Serde E) (deletes : Prop) (books : Books) (call : Call E) :
    Prop :=
  ∀ r, request serde call = .ok r → Portable serde deletes books r

section Books
variable {E : Type} {serde : Serde E} {deletes : Prop} {books : Books} {streamId other : StreamId}
  {events : List RawEvent}

/-- Plain stream ids are equal where their columns are. -/
theorem Plain.key_eq (h : Plain streamId) (h' : Plain other)
    (hplace : place other = place streamId) : other.key = streamId.key := by
  have hcategories : ∀ id : StreamId, Plain id →
      id.category = if id.categoryText = "" then none else some id.categoryText := by
    intro id hid
    unfold StreamId.categoryText
    cases hcategory : id.category with
    | none => rfl
    | some category =>
      have hne : category ≠ "" := fun hempty => hid.category (hcategory.trans (congrArg _ hempty))
      simp [hne]
  obtain ⟨huuid, htext⟩ := Prod.mk.inj hplace
  rw [StreamId.key, StreamId.key, huuid, hcategories other h', hcategories streamId h, htext]

theorem place_of_key (h : other.key = streamId.key) : place other = place streamId := by
  obtain ⟨huuid, hcategory⟩ := Prod.mk.inj h
  rw [place, place, StreamId.categoryText, StreamId.categoryText, huuid, hcategory]

/-- The events of an append have been read back when they are dispatched. -/
theorem Appendable.accept {books : Books} {versioning : Versioning} {dispatcher : Dispatcher E}
    (h : Appendable dispatcher.serde books streamId versioning events) (quiet : dispatcher.Quiet)
    (t : TenantId) : dispatcher.accept t events = .ok () := by
  obtain ⟨stored, hstored⟩ := h.readable
  rw [Dispatcher.accept_of_quiet quiet, Serde.accept, hstored]
  rfl

@[simp] theorem write_self (streamId : StreamId) (events : List RawEvent) (books : Books) :
    (books.write streamId events).streams (place streamId) = events := Function.update_self ..

theorem write_of_ne {at' : Uuid × String} (h : at' ≠ place streamId) (events : List RawEvent)
    (books : Books) : (books.write streamId events).streams at' = books.streams at' :=
  Function.update_of_ne h ..

theorem events_write_of_eq (h : place other = place streamId) (events : List RawEvent)
    (books : Books) : (books.write streamId events).events other = events := by
  rw [Books.events, h, write_self]

theorem Books.Numbered.write (h : books.Numbered) (hevents : Consecutive (·.version) 1 events) :
    (books.write streamId events).Numbered := by
  intro at'
  by_cases hat : at' = place streamId
  · rwa [hat, write_self]
  · rw [write_of_ne hat]
    exact h at'

/-- Events that are numbered on. -/
theorem Books.Numbered.extend (h : books.Numbered)
    (hevents : Consecutive (·.version) (books.version streamId + 1) events) :
    Consecutive (·.version) 1 (books.events streamId ++ events) := by
  refine (h (place streamId)).append ?_
  rw [add_comm]
  exact hevents

theorem Books.Numbered.handle (h : books.Numbered) {r : Request}
    (hr : Portable serde deletes books r) : (strategy.handle books r).2.Numbered := by
  cases r with
  | fetch streamId start stop => exact h
  | insert streamId versioning events =>
    obtain ⟨v, rfl, hconsecutive, -⟩ := hr.numbered
    change (insertEvents streamId _ events books).2.Numbered
    unfold insertEvents
    split
    · rename_i hversion
      cases hversion
      exact h.write (h.extend hconsecutive)
    · exact h
  | snapshot raw => exact h
  | delete streamId => exact h.write trivial

/-- The numbers of events that are numbered from 1 are their places. -/
theorem Books.Numbered.fetchEvents_eq (h : books.Numbered) (streamId : StreamId)
    (start stop : Option ℤ) :
    fetchEvents streamId start stop books = selectFrom start stop 1 (books.events streamId) :=
  (h (place streamId)).filter_eq start stop

end Books

/-! ## Conforming -/

/-- What two backends can agree on: exceptions about versions have arguments of their own. -/
def shown {α : Type} (r : Except Error α) : Except Error α :=
  r.mapError fun e =>
    match e with
    | .concurrentStreamWriteError _ => .concurrentStreamWriteError []
    | e => e

theorem shown_map {α β : Type} (f : α → β) (r : Except Error α) :
    shown (r.map f) = (shown r).map f := by
  cases r <;> rfl

theorem shown_eq_ok {α : Type} {r : Except Error α} {a : α} : shown r = .ok a ↔ r = .ok a :=
  mapError_eq_ok

theorem shown_eq_concurrent {α : Type} {r : Except Error α}
    (h : shown r = .error (.concurrentStreamWriteError [])) :
    ∃ args, r = .error (.concurrentStreamWriteError args) := by
  cases r with
  | ok a => cases h
  | error e =>
    cases e with
    | concurrentStreamWriteError args => exact ⟨args, rfl⟩
    | _ => cases h

theorem shown_finish {E : Type} (serde : Serde E) (r : Except Error (List RawEvent)) :
    shown (finish serde r) = finish serde (shown r) := by
  cases r with
  | error e => rfl
  | ok raws =>
    change shown ((serde.deserializeMany raws).mapError .serde) = _
    cases h : serde.deserializeMany raws with
    | error e => simp [shown, finish, Except.mapError, Except.bind, h]
    | ok events => simp [shown, finish, Except.mapError, Except.bind, h]

/-- A backend in a state that stands for the books answers as the reference does, and stands for
the books after it. -/
def Conforms {E σ : Type} (serde : Serde E) (deletes : Prop) (backend : StorageStrategy σ)
    (Stands : σ → Books → Prop) : Prop :=
  ∀ s books r, Stands s books → books.Numbered → r.Proper → Portable serde deletes books r →
    shown (backend.handle s r).1 = (strategy.handle books r).1 ∧
      Stands (backend.handle s r).2 (strategy.handle books r).2

section Conforming
variable {E σ : Type} {serde : Serde E} {deletes : Prop} {backend : StorageStrategy σ}
  {Stands : σ → Books → Prop} {books : Books}

theorem Books.Numbered.call (h : books.Numbered) {call : Call E}
    (hportable : PortableCall serde deletes books call) :
    (EventStore.call ⟨strategy, serde⟩ books call).2.Numbered := by
  rw [call_eq]
  dsimp only
  cases hr : request serde call with
  | error e => exact h
  | ok r => exact h.handle (hportable r hr)

theorem Conforms.call (h : Conforms serde deletes backend Stands) {s : σ} {call : Call E}
    (hstands : Stands s books) (hnumbered : books.Numbered)
    (hportable : PortableCall serde deletes books call) :
    shown (EventStore.call ⟨backend, serde⟩ s call).1 =
        (EventStore.call ⟨strategy, serde⟩ books call).1 ∧
      Stands (EventStore.call ⟨backend, serde⟩ s call).2
        (EventStore.call ⟨strategy, serde⟩ books call).2 := by
  rw [call_eq, call_eq]
  dsimp only
  cases hr : request serde call with
  | error e => exact ⟨rfl, hstands⟩
  | ok r =>
    obtain ⟨hanswer, hafter⟩ :=
      h s books r hstands hnumbered (EventStore.request_proper hr) (hportable r hr)
    refine ⟨?_, hafter⟩
    dsimp only
    rw [shown_finish, hanswer]

/-- A backend that conforms gives the reference's answers in every run of portable calls. -/
theorem Conforms.run (h : Conforms serde deletes backend Stands) {s : σ}
    (hstands : Stands s books) (hnumbered : books.Numbered) {calls : List (Call E)}
    (hportable : Meets (EventStore.call ⟨strategy, serde⟩) (PortableCall serde deletes) books
      calls) :
    (Runs.run (EventStore.call ⟨backend, serde⟩) s calls).1.map shown =
        (Runs.run (EventStore.call ⟨strategy, serde⟩) books calls).1 ∧
      Stands (Runs.run (EventStore.call ⟨backend, serde⟩) s calls).2
        (Runs.run (EventStore.call ⟨strategy, serde⟩) books calls).2 := by
  have hstart : Stands s books ∧ books.Numbered := ⟨hstands, hnumbered⟩
  have hstep : ∀ books s (call : Call E), Stands s books ∧ books.Numbered →
      PortableCall serde deletes books call →
      shown (EventStore.call ⟨backend, serde⟩ s (id call)).1 =
          (EventStore.call ⟨strategy, serde⟩ books call).1 ∧
        Stands (EventStore.call ⟨backend, serde⟩ s (id call)).2
            (EventStore.call ⟨strategy, serde⟩ books call).2 ∧
          (EventStore.call ⟨strategy, serde⟩ books call).2.Numbered := by
    intro books s call hstart hok
    obtain ⟨hanswer, hafter⟩ := h.call hstart.1 hstart.2 hok
    exact ⟨hanswer, hafter, hstart.2.call hok⟩
  obtain ⟨hanswers, hafter, -⟩ := run_simulates (f := id) (Q := fun a b => shown b = a)
    (R := fun books s => Stands s books ∧ books.Numbered) hstep hstart hportable
  rw [List.map_id] at hanswers hafter
  refine ⟨?_, hafter⟩
  rw [← List.forall₂_eq_eq_eq, List.forall₂_map_left_iff]
  exact hanswers.flip

end Conforming

end EventSourcery.ReferenceStore
