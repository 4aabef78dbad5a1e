import EventSourcery.EventStore
import Mathlib.Logic.Function.Basic

/-!
# The ledger of one tenant

What the in-memory backend is for a tenant that shares it with nobody: a page of
events with a version for each stream, and nothing else. Requests act on the page
of one stream. The version of a page that has events is the version of the last
one, and an empty page has version 0.
-/
namespace EventSourcery

section Slices
variable {α β : Type}

/-- Where Python puts a slice bound in a sequence of the given length. -/
def sliceBound (length : ℕ) (i : ℤ) : ℕ :=
  if i < 0 then (i + length).toNat else min i.toNat length

/-- `xs[start:stop]`. -/
def slice (start stop : Option ℤ) (xs : List α) : List α :=
  (xs.take (stop.elim xs.length (sliceBound xs.length))).drop
    (start.elim 0 (sliceBound xs.length))

theorem slice_map (f : α → β) (start stop : Option ℤ) (xs : List α) :
    slice start stop (xs.map f) = (slice start stop xs).map f := by
  simp [slice, List.map_take, List.map_drop]

@[simp] theorem slice_none (xs : List α) : slice none none xs = xs := by simp [slice]

@[simp] theorem slice_nil (start stop : Option ℤ) : slice start stop ([] : List α) = [] := by
  simp [slice]

theorem mem_of_mem_slice {start stop : Option ℤ} {xs : List α} {x : α}
    (h : x ∈ slice start stop xs) : x ∈ xs :=
  List.mem_of_mem_take (List.mem_of_mem_drop h)

/-- `i and i - 1` -/
def offset (i : Option ℤ) : Option ℤ := i.map fun i => if i = 0 then 0 else i - 1

end Slices

/-- The version a stream is created with. -/
def Versioning.created : Versioning → Option ℤ
  | .noVersioning => none
  | .explicit _ _ => some 0

/-- Whether an append may go to a stream of the given version. -/
def Versioning.admits (versioning : Versioning) (version : Option ℤ) : Except Error Unit := do
  versioning.validateIfCompatible version
  match versioning.compared with
  | none => return ()
  | some expected =>
      if version = some expected then return ()
      else throw (.concurrentStreamWriteError [versionJson version, .int expected])

theorem Versioning.admits_explicit (v c : ℤ) (initial : Option ℤ) :
    (Versioning.explicit v initial).admits (some c) =
      if v = 0 ∨ v = c then .ok ()
      else .error (.concurrentStreamWriteError [.int c, .int v]) := by
  by_cases h0 : v = 0
  · simp [admits, validateIfCompatible, compared, h0, bind, Except.bind, pure, Except.pure]
  · by_cases hc : v = c
    · subst hc
      simp [admits, validateIfCompatible, compared, h0, bind, Except.bind, pure, Except.pure]
    · simp [admits, validateIfCompatible, compared, h0, hc, Ne.symm hc, bind, Except.bind,
        versionJson, throw, throwThe, MonadExceptOf.throw]

/-- A stream that was just created refuses no unversioned append. -/
theorem Versioning.created_of_admits_error {versioning : Versioning} {e : Error}
    (h : versioning.admits versioning.created = .error e) : versioning.created = some 0 := by
  cases versioning with
  | noVersioning => cases h
  | explicit expected initial => rfl

structure Page where
  events : List RawEvent
  version : Option ℤ
  deriving DecidableEq

namespace Page

def opened (versioning : Versioning) : Page := ⟨[], versioning.created⟩

def extend (page : Page) (events : List RawEvent) : Page :=
  ⟨page.events ++ events, events.getLast?.elim page.version (·.version)⟩

/-- The version of the last event, and 0 when there is none. -/
def lastVersion (events : List RawEvent) : Option ℤ := events.getLast?.elim (some 0) (·.version)

def Sound (page : Page) : Prop := page.version = lastVersion page.events

theorem extend_sound (page : Page) {events : List RawEvent} (h : events ≠ []) :
    (page.extend events).Sound := by
  simp [extend, Sound, lastVersion, List.getLast?_append, List.getLast?_eq_some_getLast h]

/-- The page after an insert, and the answer: `accept` is the verdict of the dispatch. -/
def insert (accept : List RawEvent → Except Error Unit) (versioning : Versioning)
    (events : List RawEvent) (held : Option Page) : Except Error Unit × Page :=
  let page := held.getD (opened versioning)
  match versioning.admits page.version with
  | .error e => (.error e, page)
  | .ok () => (accept events, page.extend events)

theorem insert_sound {accept : List RawEvent → Except Error Unit} {versioning : Versioning}
    {events : List RawEvent} {held : Option Page} (hne : events ≠ [])
    (h : ∀ page ∈ held, page.Sound) : (insert accept versioning events held).2.Sound := by
  simp only [insert]
  split
  · rename_i e he
    cases held with
    | some page => exact h page rfl
    | none => exact Versioning.created_of_admits_error he
  · exact extend_sound _ hne

end Page

abbrev Ledger := StreamKey → Option Page

namespace Ledger

def fetch (streamId : StreamId) (start stop : Option ℤ) (l : Ledger) : List RawEvent :=
  slice (offset start) (offset stop) ((l streamId.key).elim [] (·.events))

def insert (accept : List RawEvent → Except Error Unit) (streamId : StreamId)
    (versioning : Versioning) (events : List RawEvent) (l : Ledger) : Except Error Unit × Ledger :=
  let r := Page.insert accept versioning events (l streamId.key)
  (r.1, Function.update l streamId.key (some r.2))

def snapshot (raw : RawEvent) (l : Ledger) : Ledger :=
  Function.update l raw.streamId.key (some ⟨[raw], raw.version⟩)

def delete (streamId : StreamId) (l : Ledger) : Ledger := Function.update l streamId.key none

def strategy (accept : List RawEvent → Except Error Unit) : StorageStrategy Ledger where
  fetchEvents streamId start stop l := .ok (l.fetch streamId start stop)
  insertEvents streamId versioning events l := l.insert accept streamId versioning events
  saveSnapshot raw l := (.ok (), l.snapshot raw)
  deleteStream streamId l := (.ok (), l.delete streamId)

def Sound (l : Ledger) : Prop := ∀ key, ∀ page ∈ l key, page.Sound

theorem sound_update {l : Ledger} (h : l.Sound) (key : StreamKey) {page : Option Page}
    (hpage : ∀ p ∈ page, p.Sound) : Sound (Function.update l key page) := by
  intro key' p hp
  by_cases hkey : key' = key
  · subst hkey
    exact hpage p (by simpa using hp)
  · exact h key' p (by simpa [hkey] using hp)

theorem handle_sound {accept : List RawEvent → Except Error Unit} {l : Ledger} {r : Request}
    (h : l.Sound) (hr : r.Proper) : Sound ((strategy accept).handle l r).2 := by
  cases r with
  | fetch streamId start stop => exact h
  | insert streamId versioning events =>
    refine sound_update h _ fun page hp => ?_
    cases hp
    exact Page.insert_sound hr.1 (h _)
  | snapshot raw =>
    refine sound_update h _ fun page hp => ?_
    cases hp
    rfl
  | delete streamId => exact sound_update h _ fun _ hp => by cases hp

section Versions
variable {E : Type} {serde : Serde E} {accept : List RawEvent → Except Error Unit}

/-- The version of the last of the loaded events, and 0 when there is none. -/
def currentVersion (loaded : List (WrappedEvent E)) : Option ℤ :=
  loaded.getLast?.elim (some 0) (·.version)

theorem currentVersion_of_deserializeMany {raws : List RawEvent} {loaded : List (WrappedEvent E)}
    (h : serde.deserializeMany raws = .ok loaded) :
    currentVersion loaded = Page.lastVersion raws := by
  have hversions := congrArg List.getLast? (serde.deserializeMany_version h)
  simp only [List.getLast?_map] at hversions
  unfold currentVersion Page.lastVersion
  cases hl : loaded.getLast? <;> cases hr : raws.getLast? <;> simp_all

/-- The version that an append with an expected version is checked against is the
current version of the loaded stream. -/
theorem version_of_loadStream {l : Ledger} (h : l.Sound) {streamId : StreamId}
    {loaded : List (WrappedEvent E)}
    (hload : EventStore.loadStream ⟨strategy accept, serde⟩ streamId none none l = .ok loaded)
    (v : ℤ) (initial : Option ℤ) :
    ((l streamId.key).getD (Page.opened (.explicit v initial))).version =
      currentVersion loaded := by
  have hread : serde.deserializeMany ((l streamId.key).elim [] (·.events)) = .ok loaded := by
    cases hd : serde.deserializeMany ((l streamId.key).elim [] (·.events)) <;>
      simp_all [EventStore.loadStream, strategy, fetch, offset, Except.bind, Except.mapError]
  rw [currentVersion_of_deserializeMany hread]
  cases hpage : l streamId.key with
  | none => rfl
  | some page => exact h _ page hpage

/-- An append with an expected version answers by comparing it with the current
version, except for 0, which is compared with nothing. -/
theorem appendEvents_version {l : Ledger} (h : l.Sound) {streamId : StreamId}
    {loaded : List (WrappedEvent E)}
    (hload : EventStore.loadStream ⟨strategy accept, serde⟩ streamId none none l = .ok loaded)
    {c : ℤ} (hc : currentVersion loaded = some c) (first : BareEvent E)
    (events : List (BareEvent E)) (v : ℤ) :
    (EventStore.appendEvents ⟨strategy accept, serde⟩ first events streamId (.version v) l).1 =
      match serde.serializeMany (wrapEvents (.version v) 0 (first :: events)) streamId with
      | .error e => .error (.serde e)
      | .ok raws =>
          if v = 0 ∨ v = c then accept raws
          else .error (.concurrentStreamWriteError [.int c, .int v]) := by
  simp only [EventStore.appendEvents, EventStore.append, wrapEvents]
  cases serde.serializeMany (first.wrap (ExpectedVersion.versionAt (.version v) 0) ::
    wrapEvents (.version v) 1 events) streamId with
  | error e => rfl
  | ok raws =>
    simp only [strategy, insert, Page.insert, EventStore.versioning]
    rw [version_of_loadStream h hload, hc, Versioning.admits_explicit]
    by_cases hv : v = 0 ∨ v = c
    · simp only [hv, if_true]
    · simp only [hv, if_false]

theorem call_sound {l : Ledger} {c : Call E} (h : l.Sound) :
    Sound (EventStore.call ⟨strategy accept, serde⟩ l c).2 := by
  rw [EventStore.call_eq]
  split
  · exact h
  · rename_i r hr
    exact handle_sound h (EventStore.request_proper hr)

end Versions

end Ledger

end EventSourcery
