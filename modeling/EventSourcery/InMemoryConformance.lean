import EventSourcery.InMemoryRanges
import EventSourcery.ReferenceStore

/-!
# The in-memory backend as an event store

A stream that is held has the events of the books and the version that they come to. A stream
that is not may still be held, without events, since an append that was refused has created it.
-/
namespace EventSourcery.InMemoryConformance
open InMemoryStorageStrategy InMemoryRanges ConsecutiveNumbers ReferenceStore Runs Tenants
open InMemoryVersions (store)

variable {E : Type} {dispatcher : Dispatcher E} {filterer : Option (RawEvent → Bool)}
  {t : TenantId} {s : InMemory} {books : Books} {streamId : StreamId}

/-- The page of the stream, or that of a stream that would be created for versions. -/
def pageOf (streamId : StreamId) (s : InMemory) : Page :=
  (s.storage.page streamId.key).getD ⟨[], some 0⟩

/-- The storage holds the streams of the books, of one tenant. -/
structure Stands (t : TenantId) (s : InMemory) (books : Books) : Prop where
  sound : s.storage.Sound
  tagged : ∀ key, ∀ held ∈ s.storage.data key, ∀ record ∈ held, record.tenantId = t
  pages : ∀ streamId, Plain streamId →
    pageOf streamId s = ⟨books.events streamId, some (books.version streamId)⟩

theorem stands_empty (t : TenantId) : Stands t {} {} where
  sound := fun _ h => by cases h
  tagged := fun _ _ h => by cases h
  pages := fun _ _ => rfl

/-- A write to one stream, after which its page is that of the events. -/
theorem Stands.write (h : Stands t s books) (hplain : Plain streamId) {s' : InMemory}
    (hwrites : Writes t streamId.key s.storage s'.storage) {events : List RawEvent}
    (hpage : pageOf streamId s' = ⟨events, some events.length⟩) :
    Stands t s' (books.write streamId events) where
  sound := hwrites.sound
  tagged := hwrites.tagged_all h.tagged
  pages other hother := by
    by_cases hplace : place other = place streamId
    · have hpage' : pageOf other s' = pageOf streamId s' := by
        rw [pageOf, pageOf, hplain.key_eq hother hplace]
      rw [hpage', hpage, Books.version, events_write_of_eq hplace]
    · have hkey : other.key ≠ streamId.key := fun hkey => hplace (place_of_key hkey)
      have hpage' : pageOf other s' = pageOf other s := by
        rw [pageOf, pageOf, hwrites.page _ hkey]
      rw [hpage', h.pages other hother, Books.version, Books.version, Books.events, Books.events,
        write_of_ne hplace]

theorem Stands.fetch (h : Stands t s books) (hnumbered : books.Numbered) {start stop : Option ℤ}
    (hload : Loadable books streamId start stop) :
    InMemoryStorageStrategy.fetchEvents ⟨dispatcher, filterer, t⟩ streamId start stop s =
      .ok (ReferenceStore.fetchEvents streamId start stop books) := by
  have hevents : (s.storage.page streamId.key).elim [] (·.events) = books.events streamId := by
    have hpage := congrArg Page.events (h.pages streamId hload.plain)
    unfold pageOf at hpage
    cases hheld : s.storage.page streamId.key with
    | none => rwa [hheld] at hpage
    | some page => rwa [hheld] at hpage
  rw [fetchEvents_of_tagged ⟨dispatcher, filterer, t⟩ h.sound (h.tagged _), hevents,
    hnumbered.fetchEvents_eq, slice_offset (fun a ha => (hload.first a ha).1)
      fun b hb => by linarith [hload.last b hb]]

theorem Stands.insert (quiet : dispatcher.Quiet) (h : Stands t s books)
    {versioning : Versioning} {events : List RawEvent} (hne : events ≠ [])
    (haddressed : ∀ raw ∈ events, raw.streamId = streamId)
    (happend : Appendable dispatcher.serde books streamId versioning events) :
    let r := InMemoryStorageStrategy.insertEvents ⟨dispatcher, filterer, t⟩ streamId versioning
      events s
    let r' := ReferenceStore.insertEvents streamId versioning events books
    shown r.1 = r'.1 ∧ Stands t r.2 r'.2 := by
  intro r r'
  obtain ⟨v, rfl, hconsecutive, hzero⟩ := happend.numbered
  obtain ⟨hwrites, hanswer, hpage⟩ := insertEvents_page ⟨dispatcher, filterer, t⟩
    quiet.positionBlind h.sound (.explicit v (some (v + events.length))) haddressed
  have hfound : (s.storage.page streamId.key).getD
      (.opened (.explicit v (some (v + events.length)))) =
        ⟨books.events streamId, some (books.version streamId)⟩ := h.pages streamId happend.plain
  have hadmits : (v = 0 ∨ v = books.version streamId) ↔ v = books.version streamId := by
    refine ⟨fun hv => hv.elim (fun hv => ?_) id, .inr⟩
    rw [hv, Books.version, hzero hv]
    rfl
  simp only [Page.insert, hfound, Versioning.admits_explicit, hadmits] at hanswer hpage
  have hexpected : (some v = some (books.version streamId)) ↔ v = books.version streamId :=
    Option.some_inj
  simp only [r', ReferenceStore.insertEvents, Versioning.expectedVersion, hexpected]
  split
  · rename_i hcurrent
    rw [if_pos hcurrent] at hanswer hpage
    refine ⟨by rw [show r.1 = _ from hanswer, happend.accept quiet]; rfl,
      h.write happend.plain hwrites ?_⟩
    have hlast : events.getLast?.bind (·.version) = some (v + events.length) := by
      obtain ⟨first, rest, rfl⟩ := List.exists_cons_of_ne_nil hne
      rw [hconsecutive.getLast?, List.length_cons]
      congr 1
      push_cast
      ring
    have hversion : events.getLast?.elim (some (books.version streamId)) (·.version) =
        some (v + events.length) := by
      cases hgot : events.getLast? with
      | none => rw [hgot] at hlast; cases hlast
      | some last => rw [hgot] at hlast; exact hlast
    rw [pageOf, show r.2.storage.page streamId.key = _ from hpage, Option.getD_some, Page.extend,
      hversion, hcurrent, Books.version, List.length_append]
    push_cast
    rfl
  · rename_i hstale
    rw [if_neg hstale] at hanswer hpage
    refine ⟨by rw [show r.1 = _ from hanswer]; rfl, hwrites.sound, hwrites.tagged_all h.tagged,
      fun other hother => ?_⟩
    rw [← h.pages other hother]
    by_cases hkey : other.key = streamId.key
    · rw [pageOf, pageOf, hkey, show r.2.storage.page streamId.key = _ from hpage,
        Option.getD_some]
      exact (h.pages streamId happend.plain).symm
    · rw [pageOf, pageOf, hwrites.page _ hkey]

theorem Stands.delete (h : Stands t s books) (hplain : Plain streamId) :
    (InMemoryStorageStrategy.deleteStream streamId s).1 = .ok () ∧
      Stands t (InMemoryStorageStrategy.deleteStream streamId s).2 (books.write streamId []) := by
  obtain ⟨hwrites, hanswer, hdata⟩ := deleteStream_page h.sound streamId t
  refine ⟨hanswer, h.write hplain hwrites ?_⟩
  rw [pageOf, Storage.page_of_none hdata]
  rfl

/-- The in-memory backend, with one tenant, conforms to the reference, deletions included. -/
theorem conforms (quiet : dispatcher.Quiet) : Conforms dispatcher.serde True
    (storageStrategy ⟨dispatcher, filterer, t⟩) (Stands t) := by
  intro s books r h hnumbered hproper hr
  cases r with
  | fetch streamId start stop => exact ⟨congrArg shown (h.fetch hnumbered hr), h⟩
  | insert streamId versioning events =>
    obtain ⟨hanswer, hafter⟩ := h.insert quiet hproper.1 hproper.2 hr
    exact ⟨(shown_map _ _).trans (congrArg _ hanswer), hafter⟩
  | snapshot raw => exact hr.elim
  | delete streamId =>
    obtain ⟨hanswer, hafter⟩ := h.delete hr.2
    refine ⟨?_, hafter⟩
    change shown ((InMemoryStorageStrategy.deleteStream streamId s).1.map fun _ => []) = .ok []
    rw [hanswer]
    rfl

end EventSourcery.InMemoryConformance
