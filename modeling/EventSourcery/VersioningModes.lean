import EventSourcery.InMemoryTenants

/-!
# Versioning modes of the in-memory backend

The first append to a stream decides whether the stream has versions. The storage does not
keep this decision: it keeps the version of the last event, and takes a stream without one
for a stream without versions. So the decision stands as long as an append whose events are
stored gives its last event a version exactly when it expects one.
-/
namespace EventSourcery

namespace Versioning

/-- The append names an expected version. -/
def isExplicit : Versioning → Bool
  | .noVersioning => false
  | .explicit _ _ => true

@[simp] theorem created_isSome (versioning : Versioning) :
    versioning.created.isSome = versioning.isExplicit := by
  cases versioning <;> rfl

/-- What is raised in a stream of the other mode. -/
def mismatch (versioning : Versioning) : Error :=
  if versioning.isExplicit then .expectedVersionUsedOnVersionlessStream
  else .noExpectedVersionGivenOnVersionedStream

variable {versioning : Versioning} {version : Option ℤ}

theorem admits_of_ne (h : version.isSome ≠ versioning.isExplicit) :
    versioning.admits version = .error versioning.mismatch := by
  cases versioning <;> cases version
  · exact absurd rfl h
  · rfl
  · rfl
  · exact absurd rfl h

/-- In a stream of its own mode an append is refused for its version alone. -/
theorem admits_of_eq (h : version.isSome = versioning.isExplicit) :
    versioning.admits version = .ok () ∨ versioning.isExplicit = true ∧
      ∃ args, versioning.admits version = .error (.concurrentStreamWriteError args) := by
  cases versioning with
  | noVersioning =>
    cases version with
    | none => exact .inl rfl
    | some version => cases h
  | explicit expected initial =>
    cases version with
    | none => cases h
    | some version =>
      rw [admits_explicit]
      split
      · exact .inl rfl
      · exact .inr ⟨rfl, _, rfl⟩

theorem isSome_of_admits (h : versioning.admits version = .ok ()) :
    version.isSome = versioning.isExplicit := by
  by_contra hother
  rw [admits_of_ne hother] at h
  cases h

end Versioning

namespace VersioningModes
open EventStore Runs Tenants InMemoryStorageStrategy InMemoryTenants

variable {E : Type}

section Calls
variable (serdes : TenantId → Serde E)

/-- The versioning of a call that appends to the stream. -/
def appendTo (key : StreamKey) (i : TenantId × Call E) : Option Versioning :=
  match request (serdes i.1) i.2 with
  | .ok (.insert streamId versioning _) => if streamId.key = key then some versioning else none
  | _ => none

/-- The versioning of the first append to the stream that gets to the backend. -/
def firstAppend (key : StreamKey) (calls : List (TenantId × Call E)) : Option Versioning :=
  calls.findSome? (appendTo serdes key)

end Calls

/-- The append is refused, or its last event has a version if and only if it expects one. -/
def Marked (s : InMemory) (i : TenantId × Request) : Prop :=
  match i.2 with
  | .insert streamId versioning events =>
      versioning.admits (foundVersion streamId versioning s.storage) ≠ .ok () ∨
        (events.getLast?.bind (·.version)).isSome = versioning.isExplicit
  | _ => True

/-- The answer is what dispatching the events gives, at some position. -/
def Dispatched (strategy : InMemoryStorageStrategy E) (events : List RawEvent)
    (answer : Answer E) : Prop :=
  ∃ position, answer =
    (strategy.dispatcher.dispatch (strategy.recordsFrom position events)).map fun _ => []

/-- A stream is in the mode of the first append, and is not held before it. -/
def InMode (first : Option Versioning) (page : Option Page) : Prop :=
  match first with
  | none => page = none
  | some versioning => ∃ held, page = some held ∧ held.version.isSome = versioning.isExplicit

section Runs
variable {dispatchers : TenantId → Dispatcher E} {filterer : Option (RawEvent → Bool)}

structure Inv (serdes : TenantId → Serde E) (past : List (TenantId × Call E)) (s : InMemory) :
    Prop where
  sound : s.storage.Sound
  modes : ∀ key, InMode (firstAppend serdes key past) (s.storage.page key)

theorem firstAppend_append (serdes : TenantId → Serde E) (key : StreamKey)
    (past : List (TenantId × Call E)) (i : TenantId × Call E) :
    firstAppend serdes key (past ++ [i]) =
      (firstAppend serdes key past).or (appendTo serdes key i) := by
  simp [firstAppend, List.findSome?_append]

/-- The mode that an insert finds is that of the first append, which may be its own. -/
theorem InMode.found {first : Option Versioning} {page : Option Page} (h : InMode first page)
    (versioning : Versioning) : ∃ mode, first.or (some versioning) = some mode ∧
      (page.getD (.opened versioning)).version.isSome = mode.isExplicit := by
  cases first with
  | none =>
    rw [show page = none from h]
    exact ⟨versioning, rfl, versioning.created_isSome⟩
  | some mode =>
    obtain ⟨held, rfl, hheld⟩ := h
    exact ⟨mode, rfl, hheld⟩

theorem inv_step {past : List (TenantId × Call E)} {s : InMemory} {i : TenantId × Call E}
    (h : Inv (fun u => (dispatchers u).serde) past s) (happends : i.2.Appends)
    (hmarked : Requesting (fun u => (dispatchers u).serde) Marked s i) :
    Inv (fun u => (dispatchers u).serde) (past ++ [i])
      (callStep (stores dispatchers filterer) s i).2 := by
  obtain ⟨u, call⟩ := i
  cases hr : request (dispatchers u).serde call with
  | error e =>
    have hstate : (callStep (stores dispatchers filterer) s (u, call)).2 = s :=
      congrArg Prod.snd (stores_of_error hr)
    rw [hstate]
    refine ⟨h.sound, fun key => ?_⟩
    rw [firstAppend_append, show appendTo _ key (u, call) = none by simp [appendTo, hr],
      Option.or_none]
    exact h.modes key
  | ok r =>
    obtain ⟨streamId, versioning, events, rfl, -⟩ := request_of_appends happends hr
    obtain ⟨hne, haddressed⟩ := request_proper hr
    have hstate : (callStep (stores dispatchers filterer) s (u, call)).2 =
        ((InMemoryStorageStrategy.mk (dispatchers u) filterer u).storeRecords streamId versioning
          events s).2 := congrArg Prod.snd (stores_of_insert hr)
    obtain ⟨hwrites, hpage⟩ :=
      (InMemoryStorageStrategy.mk (dispatchers u) filterer u).storeRecords_page
        h.sound versioning haddressed
    rw [hstate]
    refine ⟨hwrites.sound, fun key => ?_⟩
    by_cases hkey : streamId.key = key
    · subst hkey
      obtain ⟨mode, hmode, hfound⟩ := (h.modes streamId.key).found versioning
      rw [firstAppend_append, show appendTo _ streamId.key (u, call) = some versioning by
        simp [appendTo, hr], hmode, hpage]
      refine ⟨_, rfl, ?_⟩
      cases hadmits : versioning.admits
          ((s.storage.page streamId.key).getD (.opened versioning)).version with
      | error e => exact hfound
      | ok =>
        have hlast := (hmarked.ok hr).resolve_left (by rw [foundVersion, hadmits]; simp)
        rw [← hfound, Versioning.isSome_of_admits hadmits, ← hlast, Page.extend,
          List.getLast?_eq_some_getLast hne]
        rfl
    · rw [firstAppend_append, show appendTo _ key (u, call) = none by simp [appendTo, hr, hkey],
        Option.or_none, hwrites.page key (Ne.symm hkey)]
      exact h.modes key

theorem inv_run {is : List (TenantId × Call E)} (happends : ∀ i ∈ is, i.2.Appends)
    (hmarked : Meets (callStep (stores dispatchers filterer))
      (Requesting (fun u => (dispatchers u).serde) Marked) {} is) :
    Inv (fun u => (dispatchers u).serde) is
      (run (callStep (stores dispatchers filterer)) {} is).2 := by
  induction is using List.reverseRecOn with
  | nil => exact ⟨fun _ h => absurd h (by simp), fun _ => rfl⟩
  | append_singleton past i ih =>
    obtain ⟨hpast, hlast, -⟩ := meets_append.1 hmarked
    have hinv := ih (fun j hj => happends j (List.mem_append_left _ hj)) hpast
    rw [run_append]
    exact inv_step hinv (happends i (by simp)) hlast

/-- What an append gets in a stream that an append was the first to name. -/
structure KeepsMode (strategy : InMemoryStorageStrategy E) (first versioning : Versioning)
    (events : List RawEvent) (answer : Answer E) : Prop where
  other : versioning.isExplicit ≠ first.isExplicit → answer = .error versioning.mismatch
  same : versioning.isExplicit = first.isExplicit →
    Dispatched strategy events answer ∨ first.isExplicit = true ∧
      ∃ args, answer = .error (.concurrentStreamWriteError args)

/-- After appends of which each that is stored is marked, the mode of a stream is that of its
first append: an append in the other mode raises the exception for it, and one in the same
mode raises at most that the version is another, or what the dispatch of its events raises. -/
theorem modes_fixed {is : List (TenantId × Call E)} (happends : ∀ i ∈ is, i.2.Appends)
    (hmarked : Meets (callStep (stores dispatchers filterer))
      (Requesting (fun u => (dispatchers u).serde) Marked) {} is)
    (u : TenantId) {call : Call E} {streamId : StreamId} {versioning : Versioning}
    {events : List RawEvent}
    (hcall : request (dispatchers u).serde call = .ok (.insert streamId versioning events))
    {first : Versioning}
    (hfirst : firstAppend (fun u => (dispatchers u).serde) streamId.key is = some first) :
    KeepsMode (.mk (dispatchers u) filterer u) first versioning events
      (callStep (stores dispatchers filterer)
        (run (callStep (stores dispatchers filterer)) {} is).2 (u, call)).1 := by
  obtain ⟨hsound, hmodes⟩ := inv_run happends hmarked
  set s := (run (callStep (stores dispatchers filterer)) {} is).2
  have hmode := hmodes streamId.key
  rw [hfirst] at hmode
  obtain ⟨held, hheld, hversion⟩ := hmode
  have hfound : foundVersion streamId versioning s.storage = held.version := by
    simp [foundVersion, hheld]
  have haddressed := (request_proper hcall).2
  rw [stores_of_insert hcall]
  constructor
  · intro hother
    have hrefused := Versioning.admits_of_ne (hversion.trans_ne hother.symm)
    rw [storeRecords_refused hsound haddressed (hfound ▸ hrefused)]
    rfl
  · intro hsame
    rcases Versioning.admits_of_eq (hversion.trans hsame.symm) with hadmits | ⟨hown, args, hlate⟩
    · refine .inl ⟨s.storage.currentPosition.getD 0 + 1, ?_⟩
      dsimp only
      rw [(storeRecords_admitted hsound haddressed (hfound ▸ hadmits)).1]
      rfl
    · rw [storeRecords_refused hsound haddressed (hfound ▸ hlate)]
      exact .inr ⟨hsame ▸ hown, args, rfl⟩

end Runs

section Example

def bare (expected : ExpectedVersion) : Call Unit := .appendEvents ⟨(), 1, 0⟩ [] order expected

def wrapped (version : Option ℤ) (expected : ExpectedVersion) : Call Unit :=
  .append (.wrap () 2 0 version) [] order expected

theorem modes_fixed_bare :
    (callStep (stores (fun _ => plainDispatcher) none)
      (run (callStep (stores (fun _ => plainDispatcher) none)) {}
        [("a", bare .noVersioning)]).2 ("b", bare (.version 1))).1 =
      .error .expectedVersionUsedOnVersionlessStream := by
  have hmarked : Meets (callStep (stores (fun _ => plainDispatcher) none))
      (Requesting (fun _ => plainSerde) Marked) {} [("a", bare .noVersioning)] :=
    ⟨Or.inr rfl, trivial⟩
  have hcall : request plainSerde (bare (.version 1)) = .ok (.insert order (.explicit 1 (some 2))
      [⟨1, order, 0, "Event", [], defaultContext, some 2⟩]) := rfl
  have hfirst : firstAppend (fun _ => plainSerde) order.key [("a", bare .noVersioning)] =
      some .noVersioning := rfl
  exact (modes_fixed (by simp [bare, Call.Appends]) hmarked "b" hcall hfirst).other (by decide)

/-- The first append decides that the stream has versions, or that it has none, and gives its
event none, or one. Then an append of the other mode succeeds, and one of its own mode fails. -/
theorem modes_overturned :
    (run (callStep (stores (fun _ => plainDispatcher) none)) {}
        [("a", wrapped none (.version 0)), ("a", bare (.version 1)),
          ("a", bare .noVersioning)]).1 =
      [.ok [], .error .expectedVersionUsedOnVersionlessStream, .ok []] ∧
    (run (callStep (stores (fun _ => plainDispatcher) none)) {}
        [("a", wrapped (some 3) .noVersioning), ("a", bare .noVersioning),
          ("a", bare (.version 3))]).1 =
      [.ok [], .error .noExpectedVersionGivenOnVersionedStream, .ok []] :=
  ⟨rfl, rfl⟩

end Example

end VersioningModes

end EventSourcery
