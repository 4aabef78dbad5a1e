import EventSourcery.InMemorySessions
import Mathlib.Data.List.Perm.Subperm

/-!
# Sessions on aggregate objects that are used again

`__persisting_changes__` yields the events that an aggregate has emitted and, against its
docstring, never clears them. Sessions follow one another here, each on an object that an
earlier session may have had. An object whose events were stored keeps them pending, and
whoever saves it again stores them again.
-/
namespace EventSourcery.AggregateReuse
open Runs Repository Sessions InMemoryStorageStrategy InMemoryVersions

/-- A session of `Repository.aggregate` on an object. Its body emits events, and may raise
after that. -/
structure ObjectSession (E : Type) where
  object : ℕ
  streamId : StreamId
  context : Option Dict := none
  emitted : List E
  raises : Bool := false
  draw : ℤ → Uuid × Timestamp

/-- The backend and the aggregate objects. Beside them runs a record of the events that were
emitted, and of the objects that were saved with events. -/
structure Process (A E : Type) where
  backend : InMemory
  objects : ℕ → Aggregate A E
  emitted : List E := []
  written : List ℕ := []

section Machine
variable {A E : Type} (apply : A → E → A) (store : EventStore E InMemory)

/-- The wrapper that a session is entered with. -/
def entered (s : Process A E) (session : ObjectSession E) : WrappedAggregate A E :=
  { aggregate := s.objects session.object, streamId := session.streamId
    context := session.context.getD defaultContext }

/-- The wrapper at the end of the body, when the stream was loaded. -/
def worked (s : Process A E) (session : ObjectSession E) (stream : List (WrappedEvent E)) :
    WrappedAggregate A E :=
  session.emitted.foldl (fun wrapped event => emit apply event wrapped)
    (replay apply stream (entered s session))

/-- `Repository.aggregate` with the body of the session. -/
def step (s : Process A E) (session : ObjectSession E) :
    Except SessionError Unit × Process A E :=
  match load apply store (entered s session) s.backend with
  | .error e => (.error (.repository (.store e)), s)
  | .ok (stream, _) =>
      let wrapped := worked apply s session stream
      let objects := Function.update s.objects session.object wrapped.aggregate
      let emitted := s.emitted ++ session.emitted
      if session.raises then (.error .raised, { s with objects, emitted })
      else
        let r := save store session.draw wrapped s.backend
        (r.1.mapError .repository,
          { backend := r.2, objects, emitted
            written :=
              if s.backend.storage.records.length < r.2.storage.records.length then
                session.object :: s.written
              else s.written })

/-- A session that gets to saving has no object that was saved with events before. -/
def Unwritten (s : Process A E) (session : ObjectSession E) : Prop :=
  (store.loadStream session.streamId none none s.backend).isOk → session.raises = false →
    session.object ∉ s.written

instance (s : Process A E) (session : ObjectSession E) : Decidable (Unwritten store s session) := by
  unfold Unwritten
  infer_instance

end Machine

section Storing
variable {E : Type}

def entries (s : InMemory) (key : StreamKey) : List RawEvent :=
  ((s.storage.data key).getD []).map (·.entry)

/-- A stored event has the name and the data of the emitted one. -/
def Persists (serde : Serde E) (event : E) (raw : RawEvent) : Prop :=
  serde.nameForType event = .ok raw.name ∧ serde.encrypt event raw.streamId = .ok raw.data

/-- Each stream has what it had at the start and the persisted events. -/
def Stored (serde : Serde E) (start s : InMemory) (persisted : StreamKey → List E) : Prop :=
  ∀ key, ∃ added, entries s key = entries start key ++ added ∧
    List.Forall₂ (Persists serde) (persisted key) added

/-- Whatever streams are looked at, the events that were stored in them were emitted, and no
emitted event was stored twice. -/
def OncePersisted {A : Type} (serde : Serde E) (start : InMemory) (s : Process A E) : Prop :=
  ∃ persisted, Stored serde start s.backend persisted ∧
    ∀ keys : List StreamKey, keys.Nodup → (keys.flatMap persisted).Subperm s.emitted

variable {serde : Serde E} {start s : InMemory} {persisted : StreamKey → List E}

theorem stored_refl (s : InMemory) : Stored serde s s fun _ => [] :=
  fun key => ⟨[], by simp, .nil⟩

theorem entries_of_page {key : StreamKey} {page : Page} (h : s.storage.page key = some page) :
    entries s key = page.events := by
  obtain ⟨held, hheld, version, hversion, rfl⟩ :
      ∃ held, s.storage.data key = some held ∧ ∃ version, s.storage.versions key = some version ∧
        ⟨held.map (·.entry), version⟩ = page := by
    simpa [Storage.page, Option.bind_eq_some_iff] using h
  simp [entries, hheld]

theorem entries_found (hs : s.storage.Sound) (key : StreamKey) (versioning : Versioning) :
    entries s key = ((s.storage.page key).getD (.opened versioning)).events := by
  cases hheld : s.storage.page key with
  | some page => exact entries_of_page hheld
  | none =>
    have hnone : s.storage.data key = none := by
      cases hdata : s.storage.data key with
      | none => rfl
      | some held =>
        obtain ⟨version, -, hpage⟩ := hs.page_of_held hdata
        cases hheld.symm.trans hpage
    simp [entries, hnone, Page.opened]

/-- An insert that is admitted adds the events to the stream, and one that is refused adds
nothing. -/
theorem storeRecords_entries {strategy : InMemoryStorageStrategy E} (hs : s.storage.Sound)
    {streamId : StreamId} (versioning : Versioning) {events : List RawEvent}
    (haddressed : ∀ raw ∈ events, raw.streamId = streamId) :
    let r := strategy.storeRecords streamId versioning events s
    (entries r.2 = entries s ∧ r.2.storage.records = s.storage.records) ∨
      (entries r.2 =
          Function.update (entries s) streamId.key (entries s streamId.key ++ events) ∧
        r.2.storage.records.length = s.storage.records.length + events.length) := by
  intro r
  obtain ⟨hwrites, hpage⟩ := strategy.storeRecords_page hs versioning haddressed
  have hother : ∀ key, key ≠ streamId.key → entries r.2 key = entries s key := by
    intro key hkey
    rw [entries, hwrites.data key hkey, entries]
  have hfound := entries_found hs streamId.key versioning
  have hafter := entries_of_page hpage
  cases hadmits : versioning.admits (foundVersion streamId versioning s.storage) with
  | error e =>
    left
    have hrefused : strategy.storeRecords streamId versioning events s = _ :=
      storeRecords_refused hs haddressed hadmits
    refine ⟨?_, ?_⟩
    · funext key
      by_cases hkey : key = streamId.key
      · subst hkey
        rw [hafter, hfound]
        unfold foundVersion at hadmits
        rw [hadmits]
      · exact hother key hkey
    · simp only [r, hrefused]
      exact ensured_records streamId versioning s.storage
  | ok =>
    right
    have hadmitted : r.1 = .ok _ ∧ r.2.storage.records = _ :=
      storeRecords_admitted hs haddressed hadmits
    refine ⟨?_, ?_⟩
    · funext key
      by_cases hkey : key = streamId.key
      · subst hkey
        unfold foundVersion at hadmits
        rw [hafter, hadmits, Function.update_self, hfound]
        rfl
      · rw [hother key hkey, Function.update_of_ne hkey]
    · have hlength := congrArg List.length
        (strategy.recordsFrom_entry (s.storage.currentPosition.getD 0 + 1) events)
      rw [List.length_map] at hlength
      rw [hadmitted.2, List.length_append, hlength]

theorem Stored.update (h : Stored serde start s persisted) {s' : InMemory} {key : StreamKey}
    {events : List E} {raws : List RawEvent} (hraws : List.Forall₂ (Persists serde) events raws)
    (hentries : entries s' = Function.update (entries s) key (entries s key ++ raws)) :
    Stored serde start s' (Function.update persisted key (persisted key ++ events)) := by
  intro k
  obtain ⟨added, hadded, hpersists⟩ := h k
  by_cases hk : k = key
  · subst hk
    refine ⟨added ++ raws, ?_, ?_⟩
    · rw [hentries, Function.update_self, hadded, List.append_assoc]
    · rw [Function.update_self]
      exact List.rel_append hpersists hraws
  · refine ⟨added, ?_, ?_⟩
    · rw [hentries, Function.update_of_ne hk, hadded]
    · rwa [Function.update_of_ne hk]

theorem serializeMany_persists {streamId : StreamId} {events : List (WrappedEvent E)}
    {raws : List RawEvent} (h : serde.serializeMany events streamId = .ok raws) :
    List.Forall₂ (Persists serde) (events.map (·.event)) raws := by
  refine List.forall₂_map_left_iff.2 ((mapM_eq_ok_iff.1 h).imp fun event raw hraw => ?_)
  obtain ⟨name, hname, hraw⟩ := bind_eq_ok.1 hraw
  obtain ⟨data, hdata, hraw⟩ := bind_eq_ok.1 hraw
  cases hraw
  exact ⟨hname, hdata⟩

end Storing

section Counting
variable {ι α : Type} [DecidableEq ι]

/-- What is added at one place is added once to the whole. -/
theorem flatMap_update_subperm (f : ι → List α) (i : ι) (xs : List α) {is : List ι}
    (h : is.Nodup) :
    (is.flatMap (Function.update f i (f i ++ xs))).Subperm (is.flatMap f ++ xs) := by
  induction is with
  | nil => exact List.nil_subperm
  | cons j is ih =>
    rw [List.flatMap_cons, List.flatMap_cons]
    obtain ⟨hj, his⟩ := List.nodup_cons.1 h
    by_cases hij : j = i
    · subst hij
      have hrest : is.flatMap (Function.update f j (f j ++ xs)) = is.flatMap f := by
        apply List.flatMap_congr
        intro k hk
        exact Function.update_of_ne (ne_of_mem_of_not_mem hk hj) ..
      rw [Function.update_self, hrest, List.append_assoc, List.append_assoc]
      exact ((List.perm_append_comm).append_left (f j)).subperm
    · rw [Function.update_of_ne hij, List.append_assoc]
      exact (List.subperm_append_left (f j)).2 (ih his)

end Counting

section Invariant
variable {A E : Type} {apply : A → E → A} {dispatcher : Dispatcher E}
  {filterer : Option (RawEvent → Bool)} {t : TenantId}

/-- What saving does to the backend: nothing is stored, or all that is pending. -/
theorem save_entries (dispatcher : Dispatcher E) (filterer : Option (RawEvent → Bool))
    (t : TenantId) {s : InMemory} (hs : s.storage.Sound) (draw : ℤ → Uuid × Timestamp)
    (wrapped : WrappedAggregate A E) :
    let after := (save (store dispatcher filterer t) draw wrapped s).2
    after.storage.Sound ∧
      ((entries after = entries s ∧ after.storage.records = s.storage.records) ∨
        ∃ raws, List.Forall₂ (Persists dispatcher.serde) wrapped.aggregate.changes raws ∧
          entries after = Function.update (entries s) wrapped.streamId.key
            (entries s wrapped.streamId.key ++ raws) ∧
          s.storage.records.length < after.storage.records.length) := by
  intro after
  cases hversion : wrapped.storedVersion with
  | none =>
    have hafter : after = s := by simp only [after, save, hversion]
    rw [hafter]
    exact ⟨hs, .inl ⟨rfl, rfl⟩⟩
  | some version =>
    cases hpending : wrapPending draw wrapped.context (version + 1) wrapped.aggregate.changes with
    | nil =>
      have hafter : after = s := by simp only [after, save, hversion, hpending]
      rw [hafter]
      exact ⟨hs, .inl ⟨rfl, rfl⟩⟩
    | cons first events =>
      have hafter : after = ((store dispatcher filterer t).append first events wrapped.streamId
          (.version version) s).2 := by simp only [after, save, hversion, hpending]
      cases hraws : dispatcher.serde.serializeMany (first :: events) wrapped.streamId with
      | error e =>
        have hsame : after = s := by
          rw [hafter, EventStore.append,
            show (store dispatcher filterer t).serde = dispatcher.serde from rfl, hraws]
        rw [hsame]
        exact ⟨hs, .inl ⟨rfl, rfl⟩⟩
      | ok raws =>
        have haddressed := dispatcher.serde.serializeMany_streamId hraws
        have hchanges := serializeMany_persists hraws
        rw [← hpending, wrapPending_event] at hchanges
        rw [InMemorySessions.append_eq hraws, insertEvents_state] at hafter
        rw [hafter]
        refine ⟨storeRecords_sound hs haddressed, ?_⟩
        rcases storeRecords_entries hs _ haddressed with hsame | ⟨hentries, hlength⟩
        · exact .inl hsame
        · have hpos : 0 < raws.length := by
            have hevents := congrArg List.length
              (@wrapPending_event E draw wrapped.context (version + 1) wrapped.aggregate.changes)
            rw [hpending, List.length_map, List.length_cons, hchanges.length_eq] at hevents
            omega
          exact .inr ⟨raws, hchanges, hentries, by omega⟩

/-- What the bodies of sessions have emitted covers what was persisted and what objects that
were not saved with events still have pending. -/
structure Inv (serde : Serde E) (start : InMemory) (persisted : StreamKey → List E)
    (s : Process A E) : Prop where
  sound : s.backend.storage.Sound
  stored : Stored serde start s.backend persisted
  covered : ∀ keys : List StreamKey, keys.Nodup → ∀ ids : List ℕ, ids.Nodup →
    (∀ i ∈ ids, i ∉ s.written) →
    (keys.flatMap persisted ++ ids.flatMap fun i => (s.objects i).changes).Subperm s.emitted

theorem Inv.once {serde : Serde E} {start : InMemory} {persisted : StreamKey → List E}
    {s : Process A E} (h : Inv serde start persisted s) : OncePersisted serde start s := by
  refine ⟨persisted, h.stored, fun keys hkeys => ?_⟩
  simpa using h.covered keys hkeys [] List.nodup_nil (by simp)

variable {serde : Serde E} {start : InMemory} {persisted : StreamKey → List E} {s : Process A E}
  {session : ObjectSession E}

theorem worked_changes (stream : List (WrappedEvent E)) :
    (worked apply s session stream).aggregate.changes =
      (s.objects session.object).changes ++ session.emitted := by
  rw [worked, foldl_emit, replay_aggregate]
  rfl

/-- The events of the body are pending in one more place. -/
theorem covered_emitted (h : Inv serde start persisted s) {a : Aggregate A E}
    (ha : a.changes = (s.objects session.object).changes ++ session.emitted)
    {keys : List StreamKey} (hkeys : keys.Nodup) {ids : List ℕ} (hids : ids.Nodup)
    (hwritten : ∀ i ∈ ids, i ∉ s.written) :
    (keys.flatMap persisted ++
      ids.flatMap fun i => (Function.update s.objects session.object a i).changes).Subperm
      (s.emitted ++ session.emitted) := by
  have hchanges : (fun i => (Function.update s.objects session.object a i).changes) =
      Function.update (fun i => (s.objects i).changes) session.object
        ((s.objects session.object).changes ++ session.emitted) := by
    funext i
    by_cases hi : i = session.object
    · subst hi
      rw [Function.update_self, Function.update_self, ha]
    · rw [Function.update_of_ne hi, Function.update_of_ne hi]
  rw [hchanges]
  refine ((List.subperm_append_left _).2 (flatMap_update_subperm _ _ _ hids)).trans ?_
  rw [← List.append_assoc]
  exact (List.subperm_append_right _).2 (h.covered keys hkeys ids hids hwritten)

/-- An object that was not saved with events before is saved with all that it has pending. -/
theorem covered_saved (h : Inv serde start persisted s) (hunwritten : session.object ∉ s.written)
    {a : Aggregate A E} {key : StreamKey} {keys : List StreamKey} (hkeys : keys.Nodup)
    {ids : List ℕ} (hids : ids.Nodup) (hwritten : ∀ i ∈ ids, i ∉ session.object :: s.written) :
    (keys.flatMap (Function.update persisted key (persisted key ++
        ((s.objects session.object).changes ++ session.emitted))) ++
      ids.flatMap fun i => (Function.update s.objects session.object a i).changes).Subperm
      (s.emitted ++ session.emitted) := by
  have hobject : session.object ∉ ids := fun hmem => hwritten _ hmem (by simp)
  have hchanges : (ids.flatMap fun i => (Function.update s.objects session.object a i).changes) =
      ids.flatMap fun i => (s.objects i).changes := by
    apply List.flatMap_congr
    intro i hi
    rw [Function.update_of_ne (ne_of_mem_of_not_mem hi hobject)]
  have hcovered := h.covered keys hkeys (session.object :: ids) (List.nodup_cons.2 ⟨hobject, hids⟩)
    (by
      intro i hi
      rcases List.mem_cons.1 hi with rfl | hi
      · exact hunwritten
      · exact fun hmem => hwritten i hi (List.mem_cons_of_mem _ hmem))
  rw [hchanges]
  refine ((List.subperm_append_right _).2 (flatMap_update_subperm _ _ _ hkeys)).trans ?_
  refine List.Subperm.trans (List.Perm.subperm ?_)
    ((List.subperm_append_right session.emitted).2 hcovered)
  -- the events of the body move behind the changes of the other objects
  simp only [List.flatMap_cons, List.append_assoc]
  exact ((List.perm_append_comm.append_left _).append_left _)

theorem step_inv (h : Inv dispatcher.serde start persisted s)
    (hunwritten : Unwritten (store dispatcher filterer t) s session) : ∃ persisted,
      Inv dispatcher.serde start persisted
        (step apply (store dispatcher filterer t) s session).2 := by
  cases hload : load apply (store dispatcher filterer t) (entered s session) s.backend with
  | error e =>
    refine ⟨persisted, ?_⟩
    simp only [step, hload]
    exact h
  | ok loaded =>
    obtain ⟨stream, wrapped⟩ := loaded
    obtain ⟨stream', hstream, -⟩ := map_eq_ok.1 hload
    have hloads : ((store dispatcher filterer t).loadStream session.streamId none none
        s.backend).isOk = true := by
      have hsame : (store dispatcher filterer t).loadStream session.streamId none none s.backend =
          .ok stream' := hstream
      rw [hsame]
      rfl
    have hchanges : (worked apply s session stream).aggregate.changes = _ := worked_changes stream
    cases hraises : session.raises with
    | true =>
      refine ⟨persisted, ?_⟩
      simp only [step, hload, hraises, if_true]
      exact ⟨h.sound, h.stored, fun keys hkeys ids hids hwritten =>
        covered_emitted h hchanges hkeys hids hwritten⟩
    | false =>
      obtain ⟨hsound, hsaved⟩ := save_entries dispatcher filterer t h.sound session.draw
        (worked apply s session stream)
      simp only [step, hload, hraises, Bool.false_eq_true, if_false]
      rcases hsaved with ⟨hentries, hrecords⟩ | ⟨raws, hraws, hentries, hlength⟩
      · refine ⟨persisted, hsound, ?_, ?_⟩
        · intro key
          rw [hentries]
          exact h.stored key
        · dsimp only
          rw [hrecords, if_neg (lt_irrefl _)]
          exact fun keys hkeys ids hids hwritten =>
            covered_emitted h hchanges hkeys hids hwritten
      · rw [hchanges] at hraws
        refine ⟨_, hsound, h.stored.update hraws hentries, ?_⟩
        dsimp only
        rw [if_pos hlength]
        exact fun keys hkeys ids hids hwritten =>
          covered_saved h (hunwritten hloads hraises) hkeys hids hwritten

/-- Objects that have emitted nothing yet. -/
def started (start : InMemory) (states : ℕ → A) : Process A E where
  backend := start
  objects i := { state := states i }

theorem inv_started (hsound : start.storage.Sound) (states : ℕ → A) :
    Inv serde start (fun _ => []) (started start states) where
  sound := hsound
  stored := stored_refl start
  covered keys _ ids _ _ := by simp [started]

/-- What a session that ends well leaves pending. -/
theorem changes_of_ended {store : EventStore E InMemory}
    (h : (step apply store s session).1 = .ok ()) :
    ((step apply store s session).2.objects session.object).changes =
      (s.objects session.object).changes ++ session.emitted := by
  cases hload : load apply store (entered s session) s.backend with
  | error e =>
    simp only [step, hload] at h
    cases h
  | ok loaded =>
    obtain ⟨stream, wrapped⟩ := loaded
    cases hraises : session.raises with
    | true =>
      simp only [step, hload, hraises, if_true] at h
      cases h
    | false =>
      simp only [step, hload, hraises, Bool.false_eq_true, if_false, Function.update_self]
      exact worked_changes stream

end Invariant

section Main
variable {A E : Type} (apply : A → E → A) (dispatcher : Dispatcher E)
  (filterer : Option (RawEvent → Bool)) (t : TenantId)

/-- As long as no object that was saved with events is saved again, no event is stored twice.
Whatever the sessions, nothing is pending after one that ends well if and only if its object
had nothing pending and its body emits nothing. -/
theorem sessions_persistOnce {start : InMemory} (hsound : start.storage.Sound) (states : ℕ → A)
    (sessions : List (ObjectSession E)) :
    let step := step apply (store dispatcher filterer t)
    let s := (run step (started start states) sessions).2
    (Meets step (Unwritten (store dispatcher filterer t)) (started start states) sessions →
      OncePersisted dispatcher.serde start s) ∧
    ∀ session, (step s session).1 = .ok () →
      (((step s session).2.objects session.object).changes = [] ↔
        (s.objects session.object).changes = [] ∧ session.emitted = []) := by
  intro step s
  refine ⟨fun hmeets => ?_, fun session hended => ?_⟩
  · have hinv : ∃ persisted, Inv dispatcher.serde start persisted s :=
      run_history (P := fun _ s => ∃ persisted, Inv dispatcher.serde start persisted s)
        (fun _ _ _ ⟨_, h⟩ hunwritten => step_inv h hunwritten) ⟨_, inv_started hsound states⟩
        sessions hmeets
    obtain ⟨persisted, hinv⟩ := hinv
    exact hinv.once
  · rw [changes_of_ended hended, List.append_eq_nil_iff]

end Main

section Example
open InMemorySessions Tenants

def visit (object : ℕ) (emitted : List Unit) (uuid : Uuid) : ObjectSession Unit :=
  { object, streamId := order, emitted, draw := fun _ => (uuid, 0) }

theorem sessions_persistOnce_order :
    let step := step count (store plainDispatcher none defaultTenant)
    let s := (run step (started {} fun _ => 0) [visit 0 [()] 1, visit 1 [()] 2]).2
    OncePersisted plainSerde {} s ∧
      (((step s (visit 2 [] 3)).2.objects 2).changes = [] ↔
        (s.objects 2).changes = [] ∧ ([] : List Unit) = []) := by
  have hsound : Storage.Sound {} := fun _ h => by cases h
  have h := @sessions_persistOnce _ _ count plainDispatcher none defaultTenant {} hsound
    (fun _ => 0) [visit 0 [()] 1, visit 1 [()] 2]
  exact ⟨h.1 (by decide), h.2 (visit 2 [] 3) rfl⟩

/-- An object whose event was stored is used again: the event is still pending, and is stored
once more. -/
theorem used_again :
    let step := step count (store plainDispatcher none defaultTenant)
    let s := run step (started {} fun _ => 0) [visit 0 [()] 1, visit 0 [] 2]
    s.1 = [.ok (), .ok ()] ∧ (s.2.objects 0).changes = [()] ∧ s.2.emitted = [()] ∧
      (entries s.2.backend order.key).map (·.uuid) = [1, 2] ∧
      ¬ OncePersisted plainSerde {} s.2 := by
  refine ⟨rfl, rfl, rfl, rfl, fun ⟨persisted, hstored, honce⟩ => ?_⟩
  obtain ⟨added, hadded, hpersists⟩ := hstored order.key
  have hlength : 2 = added.length := congrArg List.length hadded
  have hle := (honce [order.key] (by simp)).length_le
  rw [List.flatMap_singleton, hpersists.length_eq, ← hlength] at hle
  exact absurd hle (by decide)

end Example

end EventSourcery.AggregateReuse
