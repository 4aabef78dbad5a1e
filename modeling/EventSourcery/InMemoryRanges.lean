import EventSourcery.InMemoryVersions
import EventSourcery.ConsecutiveNumbers

/-!
# Ranged reads of the in-memory backend

A ranged read takes the entries of a stream by their places: it is given versions, and takes
the entry of version `v` to stand at place `v`. The entries of a stream have consecutive versions,
so this is right as long as the first one has version 1. A snapshot replaces what was held of
the stream, and becomes the first entry with the version that the stream has then.
-/
namespace EventSourcery.InMemoryRanges
open EventStore Runs Tenants InMemoryStorageStrategy InMemoryVersions ConsecutiveNumbers
open Replay (InRange)

/-- What a list of results was made of, place by place. -/
theorem mapM_selectFrom {α β ε : Type} {f : α → Except ε β} {as : List α} {bs : List β}
    (h : as.mapM f = .ok bs) (start stop : Option ℤ) (n : ℤ) :
    (selectFrom start stop n as).mapM f = .ok (selectFrom start stop n bs) := by
  rw [mapM_eq_ok_iff] at h ⊢
  induction h generalizing n with
  | nil => exact .nil
  | cons hb _ ih =>
    rw [selectFrom, selectFrom]
    split
    · exact .cons hb (ih (n + 1))
    · exact ih (n + 1)

/-- A slice takes what a range selects of the places. -/
theorem slice_offset {α : Type} {start stop : Option ℤ} (hstart : ∀ a ∈ start, 1 ≤ a)
    (hstop : ∀ b ∈ stop, 1 ≤ b) (xs : List α) :
    slice (offset start) (offset stop) xs = selectFrom start stop 1 xs := by
  have hbound : ∀ i : ℤ, 1 ≤ i →
      sliceBound xs.length (if i = 0 then 0 else i - 1) = min (i - 1).toNat xs.length := by
    intro i hi
    rw [if_neg (by omega), sliceBound, if_neg (by omega)]
  have htake : ((offset stop).elim xs.length (sliceBound xs.length)) =
      min (stop.elim xs.length fun b => (b - 1).toNat) xs.length := by
    cases stop with
    | none => simp [offset]
    | some b => exact hbound b (hstop b rfl)
  have hdrop : ((offset start).elim 0 (sliceBound xs.length)) =
      min (start.elim 0 fun a => (a - 1).toNat) xs.length := by
    cases start with
    | none => simp [offset]
    | some a => exact hbound a (hstart a rfl)
  rw [slice, selectFrom_eq, htake, hdrop, ← List.take_eq_take_min]
  rcases le_total (start.elim 0 fun a => (a - 1).toNat) xs.length with hle | hge
  · rw [min_eq_left hle]
  · rw [min_eq_right hge, List.drop_eq_nil_of_le (List.length_take_le' _ _),
      List.drop_eq_nil_of_le ((List.length_take_le' _ _).trans hge)]

section States
variable {E : Type} {t : TenantId} {s s' : InMemory} {key : StreamKey}

/-- The version that an append to the stream is compared with; it is 0 for a new stream. -/
def currentVersion (streamId : StreamId) (s : InMemory) : Option ℤ :=
  (s.storage.page streamId.key).elim (some 0) (·.version)

/-- An append of bare events that expects the current version, a snapshot of it, or a deletion. -/
def Current (s : InMemory) : Call E → Prop
  | .appendEvents _ _ streamId (.version v) => currentVersion streamId s = some v
  | .saveSnapshot streamId snapshot => currentVersion streamId s = snapshot.version
  | .deleteStream _ => True
  | _ => False

/-- The entries have consecutive versions up to the one of the stream. -/
def Counted (page : Page) : Prop :=
  ∃ first, Consecutive (·.version) first page.events ∧
    page.version = some (first + page.events.length - 1)

/-- Every stream is the tenant's, and is counted. -/
structure Inv (t : TenantId) (s : InMemory) : Prop where
  sound : s.storage.Sound
  tagged : ∀ key, ∀ held ∈ s.storage.data key, ∀ record ∈ held, record.tenantId = t
  counted : ∀ key, ∀ page ∈ s.storage.page key, Counted page

/-- What a write of the tenant has to keep. -/
theorem Inv.of_writes (h : Inv t s) (hwrites : Writes t key s.storage s'.storage)
    (hcounted : ∀ page ∈ s'.storage.page key, Counted page) : Inv t s' where
  sound := hwrites.sound
  tagged := hwrites.tagged_all h.tagged
  counted k page hpage := by
    by_cases hk : k = key
    · subst hk
      exact hcounted page hpage
    · rw [hwrites.page k hk] at hpage
      exact h.counted k page hpage

theorem Inv.exists_currentVersion (h : Inv t s) (streamId : StreamId) :
    ∃ v, currentVersion streamId s = some v := by
  unfold currentVersion
  cases hheld : s.storage.page streamId.key with
  | none => exact ⟨0, rfl⟩
  | some page =>
    obtain ⟨first, -, hversion⟩ := h.counted _ page hheld
    exact ⟨_, hversion⟩

theorem wrapEvents_consecutive (v : ℤ) (i : ℕ) (events : List (BareEvent E)) :
    Consecutive (·.version) (v + 1 + i) (wrapEvents (.version v) i events) := by
  induction events generalizing i with
  | nil => trivial
  | cons bare events ih =>
    refine ⟨rfl, ?_⟩
    rw [show v + 1 + i + 1 = v + 1 + (i + 1 : ℕ) by push_cast; ring]
    exact ih (i + 1)

/-- Events that go on from the version of the stream. -/
theorem Counted.extend {page : Page} {v : ℤ} {raws : List RawEvent} (h : Counted page)
    (hversion : page.version = some v) (hraws : Consecutive (·.version) (v + 1) raws) :
    Counted (page.extend raws) := by
  obtain ⟨first, hevents, hlast⟩ := h
  have hv : v = first + page.events.length - 1 := Option.some.inj (hversion.symm.trans hlast)
  have hnext : v + 1 = first + page.events.length := by omega
  refine ⟨first, hevents.append (hnext ▸ hraws), ?_⟩
  cases raws with
  | nil => simpa [Page.extend] using hlast
  | cons raw raws =>
    have hfinal := hraws.getLast?
    rw [List.getLast?_eq_some_getLast (List.cons_ne_nil raw raws)] at hfinal
    simp only [Page.extend, List.getLast?_eq_some_getLast (List.cons_ne_nil raw raws),
      Option.elim_some]
    refine Eq.trans hfinal (congrArg some ?_)
    simp only [List.length_append, List.length_cons]
    omega

end States

section Runs
variable {E : Type} {dispatcher : Dispatcher E} {filterer : Option (RawEvent → Bool)}
  {t : TenantId} {s : InMemory}

theorem insert_inv (h : Inv t s) {streamId : StreamId} {v : ℤ} {last : Option ℤ}
    (hcurrent : currentVersion streamId s = some v) {raws : List RawEvent}
    (haddressed : ∀ raw ∈ raws, raw.streamId = streamId)
    (hraws : Consecutive (·.version) (v + 1) raws) :
    Inv t (insertEvents ⟨dispatcher, filterer, t⟩ streamId (.explicit v last) raws s).2 := by
  obtain ⟨hwrites, hstored⟩ :=
    storeRecords_page ⟨dispatcher, filterer, t⟩ h.sound (.explicit v last) haddressed
  rw [← insertEvents_state] at hwrites hstored
  refine h.of_writes hwrites fun page hpage => ?_
  rw [hstored, Option.mem_def, Option.some.injEq] at hpage
  have hfound : Counted ((s.storage.page streamId.key).getD (.opened (.explicit v last))) ∧
      ((s.storage.page streamId.key).getD (.opened (.explicit v last))).version = some v := by
    unfold currentVersion at hcurrent
    cases hheld : s.storage.page streamId.key with
    | none =>
      rw [hheld] at hcurrent
      exact ⟨⟨1, trivial, rfl⟩, hcurrent⟩
    | some page =>
      rw [hheld] at hcurrent
      exact ⟨h.counted _ page hheld, hcurrent⟩
  rw [hfound.2, Versioning.admits_explicit, if_pos (.inr rfl)] at hpage
  exact hpage ▸ hfound.1.extend hfound.2 hraws

theorem step_inv (h : Inv t s) (c : Call E) (hc : Current s c) :
    Inv t ((store dispatcher filterer t).call s c).2 := by
  rw [call_eq]
  cases hr : request (store dispatcher filterer t).serde c with
  | error e => exact h
  | ok r =>
    cases c with
    | append first events streamId expected => cases hc
    | loadStream streamId start stop => cases hc
    | appendEvents first events streamId expected =>
      cases expected with
      | noVersioning => cases hc
      | version v =>
        obtain ⟨raws, hraws, rfl⟩ := map_eq_ok.1 hr
        have hnumbers := wrapEvents_consecutive v 0 (first :: events)
        rw [Int.natCast_zero, Int.add_zero] at hnumbers
        exact insert_inv h hc (Serde.serializeMany_streamId _ hraws)
          (hnumbers.of_map (Serde.serializeMany_version _ hraws))
    | saveSnapshot streamId snapshot =>
      obtain ⟨raw, hraw, rfl⟩ := map_eq_ok.1 hr
      obtain ⟨-, hversion, -⟩ := Serde.serialize_eq_ok _ hraw
      obtain ⟨hwrites, -, hpage⟩ := saveSnapshot_page ⟨dispatcher, filterer, t⟩ h.sound raw
      refine h.of_writes hwrites fun page hheld => ?_
      obtain ⟨v, hv⟩ := h.exists_currentVersion streamId
      have hsnapshot : raw.version = some v := hversion.trans (hc.symm.trans hv)
      cases hpage.symm.trans hheld
      exact ⟨v, ⟨hsnapshot, trivial⟩, by simp [hsnapshot]⟩
    | deleteStream streamId =>
      cases hr
      obtain ⟨hwrites, -, hnone⟩ := deleteStream_page h.sound streamId t
      refine h.of_writes hwrites fun page hheld => ?_
      cases (Storage.page_of_none hnone).symm.trans hheld

variable (dispatcher filterer t) in
/-- A state that such calls of one tenant lead to. -/
def Reached (s : InMemory) : Prop :=
  ∃ calls : List (Call E), Meets (store dispatcher filterer t).call Current {} calls ∧
    s = (run (store dispatcher filterer t).call {} calls).2

theorem Reached.inv (h : Reached dispatcher filterer t s) : Inv t s := by
  obtain ⟨calls, hcalls, rfl⟩ := h
  have hempty : Inv t {} := by
    refine ⟨fun _ h => ?_, fun _ _ h => ?_, fun _ _ h => ?_⟩ <;> cases h
  exact run_history (P := fun _ s => Inv t s) (fun _ _ c h hc => step_inv h c hc) hempty calls
    hcalls

variable (dispatcher filterer) in
/-- A read gives the entries at the places of the range. -/
theorem Inv.fetchEvents (h : Inv t s) (streamId : StreamId) (start stop : Option ℤ)
    (hstart : ∀ a ∈ start, 1 ≤ a) (hstop : ∀ b ∈ stop, 1 ≤ b) :
    InMemoryStorageStrategy.fetchEvents ⟨dispatcher, filterer, t⟩ streamId start stop s =
      .ok (selectFrom start stop 1 ((s.storage.page streamId.key).elim [] (·.events))) := by
  rw [fetchEvents_of_tagged ⟨dispatcher, filterer, t⟩ h.sound (h.tagged streamId.key),
    slice_offset hstart hstop]

/-- The entries whose versions are in the range, of those that the whole stream has. -/
def SelectsByVersion (store : EventStore E InMemory) (streamId : StreamId) (start stop : Option ℤ)
    (s : InMemory) : Prop :=
  ∀ loaded, store.loadStream streamId none none s = .ok loaded →
    store.loadStream streamId start stop s =
      .ok (loaded.filter fun event => event.version.any fun v => InRange start stop v)

/-- The range has the same places of what is held, counted from 1, as it has of the versions. -/
def PlacesAgree (streamId : StreamId) (start stop : Option ℤ) (s : InMemory) : Prop :=
  ∀ held ∈ s.storage.data streamId.key, ∀ first ∈ held.head?.bind (·.entry.version),
    Agree start stop 1 first held.length

theorem placesAgree_iff {streamId : StreamId} {held : List RecordedRaw}
    (hheld : s.storage.data streamId.key = some held) {first : ℤ}
    (hfirst : Consecutive (·.entry.version) first held) (start stop : Option ℤ) :
    PlacesAgree streamId start stop s ↔ Agree start stop 1 first held.length := by
  constructor
  · intro hagree
    cases held with
    | nil => exact agree_iff.2 fun i hi => absurd hi (Nat.not_lt_zero i)
    | cons record held => exact hagree _ hheld first hfirst.1
  · intro hagree held' hheld' first' hfirst'
    cases hheld.symm.trans hheld'
    cases held with
    | nil => cases hfirst'
    | cons record held =>
      cases hfirst.1.symm.trans hfirst'
      exact hagree

/-- What is loaded from a range, of what is loaded from the whole stream. -/
theorem Inv.loadStream (h : Inv t s) {streamId : StreamId} {loaded : List (WrappedEvent E)}
    (hload : (store dispatcher filterer t).loadStream streamId none none s = .ok loaded)
    {start stop : Option ℤ} (hstart : ∀ a ∈ start, 1 ≤ a) (hstop : ∀ b ∈ stop, 1 ≤ b) :
    (store dispatcher filterer t).loadStream streamId start stop s =
        .ok (selectFrom start stop 1 loaded) ∧
      loaded.map (·.version) =
        ((s.storage.page streamId.key).elim [] (·.events)).map (·.version) := by
  have hwhole := h.fetchEvents dispatcher filterer streamId none none (by simp) (by simp)
  rw [selectFrom_none] at hwhole
  have hrange := h.fetchEvents dispatcher filterer streamId start stop hstart hstop
  obtain ⟨raws, hraws, hread⟩ := bind_eq_ok.1 hload
  cases hwhole.symm.trans hraws
  rw [mapError_eq_ok] at hread
  refine ⟨bind_eq_ok.2 ⟨_, hrange, ?_⟩, Serde.deserializeMany_version _ hread⟩
  rw [mapError_eq_ok]
  exact mapM_selectFrom hread start stop 1

/-- In every state that is reached, a ranged read selects by version if and only if the first
entry of the stream has version 1, or the range has all the places and versions, or none. -/
theorem selectsByVersion_iff (h : Reached dispatcher filterer t s) {streamId : StreamId}
    {loaded : List (WrappedEvent E)}
    (hload : (store dispatcher filterer t).loadStream streamId none none s = .ok loaded)
    {start stop : Option ℤ} (hstart : ∀ a ∈ start, 1 ≤ a) (hstop : ∀ b ∈ stop, 1 ≤ b) :
    SelectsByVersion (store dispatcher filterer t) streamId start stop s ↔
      PlacesAgree streamId start stop s := by
  obtain ⟨hrange, hversions⟩ := h.inv.loadStream hload hstart hstop
  have hselects : SelectsByVersion (store dispatcher filterer t) streamId start stop s ↔
      selectFrom start stop 1 loaded =
        loaded.filter fun event => event.version.any fun v => InRange start stop v := by
    constructor
    · exact fun hselects => Except.ok.inj (hrange.symm.trans (hselects loaded hload))
    · intro hequal other hother
      cases hload.symm.trans hother
      rw [hrange, hequal]
  rw [hselects]
  cases hdata : s.storage.data streamId.key with
  | none =>
    have hnil : loaded = [] := by
      simpa [Storage.page_of_none hdata] using hversions
    simp [hnil, selectFrom, PlacesAgree, hdata]
  | some held =>
    obtain ⟨version, -, hpage⟩ := h.inv.sound.page_of_held hdata
    obtain ⟨first, hentries, -⟩ := h.inv.counted _ _ hpage
    rw [hpage, Option.elim_some, List.map_map] at hversions
    have hheld : Consecutive (·.entry.version) first held :=
      hentries.of_map (by rw [List.map_map]; rfl)
    have hloaded : Consecutive (·.version) first loaded := hheld.of_map hversions
    have hlength : loaded.length = held.length := by
      simpa using congrArg List.length hversions
    rw [hloaded.filter_eq, selectFrom_eq_iff _ _ hloaded.nodup, placesAgree_iff hdata hheld,
      agree_iff, hlength]

end Runs

section Example

/-- Three events of an order, a snapshot of version 3, and event 4. -/
def aroundSnapshot : List (Call Unit) :=
  [.appendEvents ⟨(), 1, 0⟩ [⟨(), 2, 0⟩, ⟨(), 3, 0⟩] order (.version 0),
    .saveSnapshot order ⟨(), some 3, 4, 0, defaultContext⟩,
    .appendEvents ⟨(), 5, 0⟩ [] order (.version 3)]

def snapshotted : InMemory :=
  (run (store plainDispatcher none defaultTenant).call {} aroundSnapshot).2

theorem snapshotted_reached : Reached plainDispatcher none defaultTenant snapshotted :=
  ⟨aroundSnapshot, ⟨rfl, rfl, rfl, trivial⟩, rfl⟩

theorem snapshotted_loadStream :
    (store plainDispatcher none defaultTenant).loadStream order none none snapshotted =
      .ok [⟨(), some 3, 4, 0, defaultContext⟩, ⟨(), some 4, 5, 0, defaultContext⟩] := rfl

/-- From 1 to 5 the range has both places and both versions. -/
theorem selectsByVersion_iff_snapshotted :
    SelectsByVersion (store plainDispatcher none defaultTenant) order (some 1) (some 5)
      snapshotted := by
  refine (selectsByVersion_iff snapshotted_reached snapshotted_loadStream (by simp) (by simp)).2 ?_
  rintro held hheld first hfirst
  cases hheld
  cases hfirst
  exact .inr (.inl (by decide))

/-- From version 4 on nothing is read, since there is no fourth place. -/
theorem selectsByVersion_snapshotted_four :
    Reached plainDispatcher none defaultTenant snapshotted ∧
      (store plainDispatcher none defaultTenant).loadStream order (some 4) none snapshotted =
        .ok [] ∧
      ¬ SelectsByVersion (store plainDispatcher none defaultTenant) order (some 4) none
        snapshotted := by
  have hread : (store plainDispatcher none defaultTenant).loadStream order (some 4) none
      snapshotted = .ok [] := rfl
  refine ⟨snapshotted_reached, hread, fun hselects => ?_⟩
  have hequal := hread.symm.trans (hselects _ snapshotted_loadStream)
  exact absurd (Except.ok.inj hequal) (by decide)

end Example

end EventSourcery.InMemoryRanges
