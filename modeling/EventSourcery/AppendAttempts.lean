import EventSourcery.Insertions

/-!
# Attempts to append

Clients attempt to append to the streams of one tenant, with expected versions
that may be stale. A store keeps the versions of a tenant's streams when every
attempt that succeeds extends one stream as `Extends` says, and those that
expect version 0 find no stream: then every stream is numbered without a gap or
a repetition, and no expected version of a stream succeeds twice.
-/
namespace EventSourcery.Sql.AppendAttempts
open EventStore Runs

structure Attempt (E : Type) where
  first : BareEvent E
  events : List (BareEvent E)
  streamId : StreamId
  expected : ExpectedVersion
  deriving DecidableEq

abbrev History (E : Type) := List (Attempt E × Answer E)

variable {E : Type}

namespace Attempt

def call (a : Attempt E) : Call E := .appendEvents a.first a.events a.streamId a.expected

def key (a : Attempt E) : Uuid × String := (a.streamId.uuid, a.streamId.categoryText)

def count (a : Attempt E) : ℕ := a.events.length + 1

/-- The versions of the events. -/
def versions (a : Attempt E) : List (Option ℤ) := (List.range a.count).map a.expected.versionAt

def versioning (a : Attempt E) : Versioning :=
  match a.expected with
  | .version v => .explicit v (some (v + a.count))
  | .noVersioning => .noVersioning

end Attempt

theorem wrapEvents_version (expected : ExpectedVersion) (i : ℕ) (events : List (BareEvent E)) :
    (wrapEvents expected i events).map (·.version) =
      (List.range' i events.length).map expected.versionAt := by
  induction events generalizing i with
  | nil => rfl
  | cons bare events ih =>
    simp [wrapEvents, ih, List.range'_succ, BareEvent.wrap, WrappedEvent.wrap]

/-- The request of an attempt, when its events can be serialized. -/
theorem request_attempt {serde : Serde E} {a : Attempt E} {r : Request}
    (h : request serde a.call = .ok r) :
    ∃ raws : List RawEvent,
      r = .insert a.streamId a.versioning raws ∧ raws.map (·.version) = a.versions := by
  set wrapped := a.first.wrap (a.expected.versionAt 0) :: wrapEvents a.expected 1 a.events
  have hwrapped : wrapped.map (·.version) = a.versions := by
    rw [List.map_cons, wrapEvents_version, Attempt.versions, Attempt.count, List.range_eq_range',
      List.range'_succ]
    rfl
  have hlast : (wrapped.getLast (by simp [wrapped])).version =
      a.expected.versionAt a.events.length := by
    have hmap : (wrapped.map (·.version)).getLast (by simp [wrapped]) =
        (wrapped.getLast (by simp [wrapped])).version := List.getLast_map _
    rw [← hmap]
    simp [hwrapped, Attempt.versions, Attempt.count]
  have hversioning : EventStore.versioning (a.first.wrap (a.expected.versionAt 0))
      (wrapEvents a.expected 1 a.events) a.expected = a.versioning := by
    unfold Attempt.versioning
    cases hexpected : a.expected with
    | noVersioning => rfl
    | version v =>
      simp only [EventStore.versioning, ← hexpected]
      rw [hlast, hexpected]
      simp only [ExpectedVersion.versionAt, Attempt.count]
      congr 2
      push_cast
      omega
  simp only [request, Attempt.call, hversioning] at h
  cases hraws : serde.serializeMany wrapped a.streamId with
  | error e => simp [wrapped, hraws, Except.map] at h
  | ok raws =>
    simp only [wrapped, hraws, Except.map, Except.ok.injEq] at h
    exact ⟨raws, h.symm, (serde.serializeMany_version hraws).trans hwrapped⟩

/-- An attempt raises before it makes a request, or asks for the insertion of its events. -/
theorem call_attempt {σ : Type} (store : EventStore E σ) (s : σ) (a : Attempt E) :
    (∃ e, store.call s a.call = (.error e, s)) ∨
      ∃ raws : List RawEvent, raws.map (·.version) = a.versions ∧ raws ≠ [] ∧
        (∀ raw ∈ raws, raw.streamId = a.streamId) ∧ store.call s a.call =
          answered (store.storageStrategy.insertEvents a.streamId a.versioning raws s) := by
  rw [call_eq]
  cases hrequest : request store.serde a.call with
  | error e => exact .inl ⟨.serde e, rfl⟩
  | ok r =>
    obtain ⟨raws, rfl, hraws⟩ := request_attempt hrequest
    obtain ⟨hne, hstream⟩ := request_proper hrequest
    refine .inr ⟨raws, hraws, hne, hstream, ?_⟩
    simp only [StorageStrategy.handle, finish_unit, answered]

/-- The attempts on a stream that succeeded, in order. -/
def successes (key : Uuid × String) (past : History E) : List (Attempt E) :=
  (past.filter fun x => x.1.key = key && x.2.isOk).map Prod.fst

/-- The expected version that a stream was created with. -/
def creation (key : Uuid × String) (past : History E) : Option ExpectedVersion :=
  (successes key past).head?.map (·.expected)

/-- The number of events that were appended to a stream. -/
def appended (key : Uuid × String) (past : History E) : ℕ :=
  ((successes key past).map (·.count)).sum

/-- The versions from 1 on. -/
def upTo (n : ℕ) : List (Option ℤ) := (List.range n).map fun i : ℕ => some ((i : ℤ) + 1)

/-- A stream created with an integer has the version `n` and events of the versions
from 1 to `n`, once each; one created without versioning has no versions at all. -/
def Numbering (first : ExpectedVersion) (n : ℕ) (v : StreamView) : Prop :=
  match first with
  | .version _ => v.version = some ↑n ∧ v.events.map (·.version) = upTo n
  | .noVersioning => v.version = none ∧ v.events.map (·.version) = List.replicate n none

/-- The numbering of a stream after the attempts on it. -/
def Numbered (past : History E) (v : StreamView) : Prop :=
  ∃ first ∈ creation v.key past, Numbering first (appended v.key past) v

/-- No integer succeeds twice as the expected version of one stream. -/
def Once (past : History E) : Prop :=
  ∀ key (e : ℤ), (successes key past).countP (fun a => a.expected = .version e) ≤ 1

/-- The invariant of the streams: an expected version that succeeded is behind the stream. -/
structure Kept (past : History E) (streams : List StreamView) : Prop where
  keys : (streams.map (·.key)).Nodup
  held : ∀ key, successes key past ≠ [] → ∃ v ∈ streams, v.key = key
  numbered : ∀ v ∈ streams, Numbered past v
  passed : ∀ key, ∀ a ∈ successes key past, ∀ e, a.expected = .version e → e < appended key past
  once : Once past

/-- The streams after the search for the stream of the attempt. -/
def Opened (a : Attempt E) (streams base : List StreamView) : Prop :=
  base = streams ∨ (∀ v ∈ streams, v.key ≠ a.key) ∧ ∃ v : StreamView, v.key = a.key ∧
    v.version = a.versioning.initialVersion ∧ v.events = [] ∧ base = streams ++ [v]

def Attempt.advance (a : Attempt E) (bodies : List EventBody) (v : StreamView) : StreamView :=
  { v with
    version := if a.versioning.compared = none then v.version else a.versioning.initialVersion
    events := v.events ++ bodies }

/-- The attempt finds its stream or creates it, the expected version is compared, unless
it is 0, and the events are added. -/
def Extends (a : Attempt E) (streams streams' : List StreamView) : Prop :=
  ∃ base bodies, Opened a streams base ∧
    (∃ v ∈ base, v.key = a.key ∧ a.versioning.validateIfCompatible v.version = .ok () ∧
      ∀ e ∈ a.versioning.compared, v.version = some e) ∧
    bodies.map (·.version) = a.versions ∧ streams' = modify a.key (a.advance bodies) base

theorem kept_empty : Kept ([] : History E) [] where
  keys := List.nodup_nil
  held _ h := absurd rfl h
  numbered _ h := by cases h
  passed _ _ h := by cases h
  once _ _ := Nat.zero_le _

section Successes
variable {a : Attempt E} {past : History E} {key : Uuid × String}

theorem successes_ok (past : History E) (key : Uuid × String) (a : Attempt E)
    (loaded : List (WrappedEvent E)) :
    successes key (past ++ [(a, .ok loaded)]) =
      successes key past ++ if a.key = key then [a] else [] := by
  by_cases h : a.key = key <;> simp [successes, Except.isOk, Except.toBool, h]

theorem successes_error (past : History E) (key : Uuid × String) (a : Attempt E) (e : Error) :
    successes key (past ++ [(a, .error e)]) = successes key past := by
  simp [successes, Except.isOk, Except.toBool]

theorem numbered_congr {past' : History E} {v : StreamView}
    (h : successes v.key past' = successes v.key past) : Numbered past' v ↔ Numbered past v := by
  simp only [Numbered, appended, creation, h]

/-- An attempt that raises and leaves the streams as they are. -/
theorem Kept.failure {streams : List StreamView} (h : Kept past streams) (a : Attempt E)
    (e : Error) : Kept (past ++ [(a, .error e)]) streams where
  keys := h.keys
  held key := by
    rw [successes_error]
    exact h.held key
  numbered v hv := (numbered_congr (successes_error past _ a e)).2 (h.numbered v hv)
  passed key := by
    simp only [appended, successes_error]
    exact h.passed key
  once key v := by
    rw [successes_error]
    exact h.once key v

@[simp] theorem key_advance (a : Attempt E) (bodies : List EventBody) (v : StreamView) :
    (a.advance bodies v).key = v.key := rfl

theorem appended_ok (past : History E) (a : Attempt E) (loaded : List (WrappedEvent E)) :
    appended a.key (past ++ [(a, .ok loaded)]) = appended a.key past + a.count := by
  simp [appended, successes_ok]

theorem creation_ok (past : History E) (a : Attempt E) (loaded : List (WrappedEvent E)) :
    creation a.key (past ++ [(a, .ok loaded)]) = (creation a.key past).or (some a.expected) := by
  unfold creation
  rw [successes_ok, if_pos rfl]
  cases successes a.key past <;> rfl

theorem upTo_add (n m : ℕ) :
    upTo (n + m) = upTo n ++ (List.range m).map (ExpectedVersion.version n).versionAt := by
  unfold upTo
  rw [List.range_add, List.map_append, List.map_map]
  congr 1
  apply List.map_congr_left
  intro i _
  simp only [ExpectedVersion.versionAt, Function.comp_apply, Option.some.injEq]
  push_cast
  omega

theorem appended_pos {first : ExpectedVersion} (h : creation key past = some first) :
    0 < appended key past := by
  unfold appended
  unfold creation at h
  cases hsuccesses : successes key past with
  | nil => simp [hsuccesses] at h
  | cons b rest =>
    simp only [List.map_cons, List.sum_cons, Attempt.count]
    omega

/-- The stream of an attempt is numbered, or the attempt has created it. -/
theorem Kept.numbered_or_new {streams base : List StreamView} (h : Kept past streams)
    (hopened : Opened a streams base) {v : StreamView} (hv : v ∈ base) (hkey : v.key = a.key) :
    v ∈ streams ∧ Numbered past v ∨ successes a.key past = [] ∧
      v.version = a.versioning.initialVersion ∧ v.events = [] := by
  rcases hopened with rfl | ⟨hnone, w, -, hversion, hevents, rfl⟩
  · exact .inl ⟨hv, h.numbered v hv⟩
  · have hw : v = w := by
      rcases List.mem_append.1 hv with hv | hv
      · exact absurd hkey (hnone v hv)
      · simpa using hv
    subst hw
    refine .inr ⟨?_, hversion, hevents⟩
    by_contra hsome
    obtain ⟨u, hu, hukey⟩ := h.held a.key hsome
    exact hnone u hu hukey

theorem numbering_new {v : StreamView} {bodies : List EventBody}
    (hversion : v.version = a.versioning.initialVersion) (hevents : v.events = [])
    (hzero : ∀ e, a.expected = .version e → e = 0)
    (hbodies : bodies.map (·.version) = a.versions) :
    Numbering a.expected a.count (a.advance bodies v) := by
  have hadvance : (a.advance bodies v).events = bodies := by simp [Attempt.advance, hevents]
  unfold Numbering
  rw [hadvance, hbodies, Attempt.versions]
  cases hmode : a.expected with
  | noVersioning =>
    constructor
    · simp [Attempt.advance, Attempt.versioning, hmode, hversion, Versioning.compared,
        Versioning.initialVersion]
    · apply List.ext_getElem <;> simp [ExpectedVersion.versionAt]
  | version e =>
    have he := hzero e hmode
    subst he
    constructor
    · simp [Attempt.advance, Attempt.versioning, hmode, hversion, Versioning.initialVersion]
    · have hsum := upTo_add 0 a.count
      simpa [upTo] using hsum.symm

theorem numbering_advance {first : ExpectedVersion} {n : ℕ} {v : StreamView}
    {bodies : List EventBody} (h : Numbering first n v)
    (hvalid : a.versioning.validateIfCompatible v.version = .ok ())
    (hexpected : ∀ e, a.expected = .version e → e = n ∧ e ≠ 0)
    (hbodies : bodies.map (·.version) = a.versions) :
    Numbering first (n + a.count) (a.advance bodies v) := by
  have hevents : (a.advance bodies v).events.map (·.version) =
      v.events.map (·.version) ++ a.versions := by
    simp [Attempt.advance, hbodies]
  cases first with
  | noVersioning =>
    obtain ⟨hversion, hnone⟩ := h
    cases hmode : a.expected with
    | version e =>
      simp [Attempt.versioning, hmode, hversion, Versioning.validateIfCompatible] at hvalid
    | noVersioning =>
      constructor
      · simp [Attempt.advance, Attempt.versioning, hmode, hversion, Versioning.compared]
      · rw [hevents, hnone, List.replicate_add]
        congr 1
        apply List.ext_getElem <;> simp [Attempt.versions, hmode, ExpectedVersion.versionAt]
  | version w =>
    obtain ⟨hversion, hversions⟩ := h
    cases hmode : a.expected with
    | noVersioning =>
      simp [Attempt.versioning, hmode, hversion, Versioning.validateIfCompatible] at hvalid
    | version e =>
      obtain ⟨he, hne⟩ := hexpected e hmode
      have hn : n ≠ 0 := by omega
      constructor
      · simp [Attempt.advance, Attempt.versioning, hmode, Versioning.compared, hn, he,
          Versioning.initialVersion]
      · rw [hevents, hversions, upTo_add, Attempt.versions, hmode, he]

/-- What an attempt that succeeds does to its stream. -/
theorem Kept.advance {streams base : List StreamView} (h : Kept past streams)
    (hopened : Opened a streams base) {v : StreamView} (hv : v ∈ base) (hkey : v.key = a.key)
    (hvalid : a.versioning.validateIfCompatible v.version = .ok ())
    (hcompared : ∀ e ∈ a.versioning.compared, v.version = some e)
    (hzero : a.expected = .version 0 → ∀ u ∈ streams, u.key ≠ a.key) {bodies : List EventBody}
    (hbodies : bodies.map (·.version) = a.versions) (loaded : List (WrappedEvent E)) :
    Numbered (past ++ [(a, .ok loaded)]) (a.advance bodies v) ∧
      ∀ e, a.expected = .version e → e = appended a.key past := by
  have hsome : ∀ e, a.expected = .version e → e ≠ 0 → v.version = some e := by
    intro e he hne
    apply hcompared
    simp [Attempt.versioning, he, Versioning.compared, hne]
  unfold Numbered
  rw [key_advance, hkey, appended_ok, creation_ok]
  rcases h.numbered_or_new hopened hv hkey with ⟨hmem, first, hfirst, hnumbering⟩ |
    ⟨hsuccesses, hversion, hevents⟩
  · rw [hkey] at hfirst hnumbering
    have hexpected : ∀ e, a.expected = .version e → e = appended a.key past ∧ e ≠ 0 := by
      intro e he
      have hne : e ≠ 0 := by
        rintro rfl
        exact hzero he v hmem hkey
      refine ⟨?_, hne⟩
      have hv := hsome e he hne
      cases first with
      | version w => simpa [hv] using hnumbering.1
      | noVersioning => simpa [hv] using hnumbering.1
    refine ⟨⟨first, ?_, numbering_advance hnumbering hvalid hexpected hbodies⟩,
      fun e he => (hexpected e he).1⟩
    rw [Option.mem_def.1 hfirst]
    rfl
  · have hnone : appended a.key past = 0 ∧ creation a.key past = none := by
      simp [appended, creation, hsuccesses]
    have hexpected : ∀ e, a.expected = .version e → e = 0 := by
      intro e he
      by_contra hne
      have hcount := hsome e he hne
      rw [hversion] at hcount
      simp [Attempt.versioning, he, Versioning.initialVersion, Attempt.count] at hcount
      omega
    rw [hnone.1, hnone.2, Nat.zero_add]
    exact ⟨⟨a.expected, rfl, numbering_new hversion hevents hexpected hbodies⟩,
      by simpa using hexpected⟩

theorem Opened.keys {streams base : List StreamView} (hopened : Opened a streams base)
    (h : (streams.map (·.key)).Nodup) : (base.map (·.key)).Nodup := by
  rcases hopened with rfl | ⟨hnone, v, hkey, -, -, rfl⟩
  · exact h
  · rw [List.map_append]
    apply h.append (List.nodup_singleton _)
    simpa [hkey] using hnone

theorem Opened.mem {streams base : List StreamView} (hopened : Opened a streams base)
    {v : StreamView} (hv : v ∈ base) (hkey : v.key ≠ a.key) : v ∈ streams := by
  rcases hopened with rfl | ⟨-, w, hw, -, -, rfl⟩
  · exact hv
  · rcases List.mem_append.1 hv with hv | hv
    · exact hv
    · rw [List.mem_singleton.1 hv] at hkey
      exact absurd hw hkey

theorem Opened.subset {streams base : List StreamView} (hopened : Opened a streams base) :
    streams ⊆ base := by
  rcases hopened with rfl | ⟨-, w, -, -, -, rfl⟩
  · exact List.Subset.refl _
  · exact List.subset_append_left _ _

theorem map_key_modify {key : Uuid × String} {f : StreamView → StreamView}
    (hf : ∀ v, (f v).key = v.key) (streams : List StreamView) :
    (modify key f streams).map (·.key) = streams.map (·.key) := by
  unfold modify
  rw [List.map_map]
  apply List.map_congr_left
  intro v _
  simp only [Function.comp_apply]
  split
  · exact hf v
  · rfl

/-- An insertion of the attempt's versions that succeeds extends its stream. -/
theorem extends_of_inserted {streams streams' : Streams} {bodies : List EventBody}
    (h : Inserted a.streamId a.versioning bodies streams streams')
    (hbodies : bodies.map (·.version) = a.versions) : Extends a streams streams' := by
  obtain ⟨base, hsearched, ⟨v, hv, hadmitted⟩, hstreams⟩ := h
  refine ⟨base, bodies, ?_, ⟨v, hv, hadmitted.key, hadmitted.compatible, hadmitted.compared⟩,
    hbodies, hstreams⟩
  rcases hsearched with rfl | ⟨hfree, rfl⟩
  · exact .inl rfl
  · exact .inr ⟨fun w hw => ne_columns_of_not_clashes (hfree w hw), _, rfl, rfl, rfl, rfl⟩

/-- A success says nothing about the other streams. -/
theorem successes_other {key : Uuid × String} (hne : key ≠ a.key) (loaded : List (WrappedEvent E)) :
    successes key (past ++ [(a, .ok loaded)]) = successes key past := by
  rw [successes_ok, if_neg (Ne.symm hne), List.append_nil]

/-- After a success at the number of events, every expected version is behind. -/
theorem Kept.passed_success {streams : List StreamView} (h : Kept past streams)
    (hexpected : ∀ e, a.expected = .version e → e = appended a.key past)
    (loaded : List (WrappedEvent E)) (key : Uuid × String) :
    ∀ b ∈ successes key (past ++ [(a, .ok loaded)]), ∀ e, b.expected = .version e →
      e < appended key (past ++ [(a, .ok loaded)]) := by
  intro b hb e he
  by_cases hne : key = a.key
  · subst hne
    rw [successes_ok, if_pos rfl] at hb
    rw [appended_ok]
    have hcount : 0 < a.count := Nat.succ_pos _
    rcases List.mem_append.1 hb with hb | hb
    · have hbehind := h.passed a.key b hb e he
      omega
    · rw [List.mem_singleton.1 hb] at he
      have hnow := hexpected e he
      omega
  · rw [successes_other hne] at hb
    have hbehind := h.passed key b hb e he
    simpa only [appended, successes_other hne] using hbehind

/-- A success at the number of events is the first one with its expected version. -/
theorem Kept.once_success {streams : List StreamView} (h : Kept past streams)
    (hexpected : ∀ e, a.expected = .version e → e = appended a.key past)
    (loaded : List (WrappedEvent E)) : Once (past ++ [(a, .ok loaded)]) := by
  intro key e
  by_cases hne : key = a.key
  · subst hne
    rw [successes_ok, if_pos rfl, List.countP_append]
    by_cases he : a.expected = .version e
    · have hnone : (successes a.key past).countP (fun b => b.expected = .version e) = 0 := by
        rw [List.countP_eq_zero]
        intro b hb hbe
        have hbehind := h.passed a.key b hb e (by simpa using hbe)
        have hnow := hexpected e he
        omega
      rw [hnone]
      simp [he]
    · simpa [he] using h.once a.key e
  · rw [successes_other hne]
    exact h.once key e

/-- An attempt that extends one stream; expecting version 0, it has found none. -/
theorem Kept.success {streams streams' : List StreamView} (h : Kept past streams)
    (hextends : Extends a streams streams')
    (hzero : a.expected = .version 0 → ∀ u ∈ streams, u.key ≠ a.key)
    (loaded : List (WrappedEvent E)) : Kept (past ++ [(a, .ok loaded)]) streams' := by
  obtain ⟨base, bodies, hopened, ⟨v, hv, hkey, hvalid, hcompared⟩, hbodies, rfl⟩ := hextends
  obtain ⟨hnumbered, hexpected⟩ :=
    h.advance hopened hv hkey hvalid hcompared hzero hbodies loaded
  have hmap : (modify a.key (a.advance bodies) base).map (·.key) = base.map (·.key) :=
    map_key_modify (key_advance a bodies) base
  refine ⟨?_, ?_, ?_, h.passed_success hexpected loaded, h.once_success hexpected loaded⟩
  · rw [hmap]
    exact hopened.keys h.keys
  · intro key hsuccesses
    have hheld : key ∈ base.map (·.key) := by
      by_cases hne : key = a.key
      · exact List.mem_map.2 ⟨v, hv, hkey.trans hne.symm⟩
      · rw [successes_other hne] at hsuccesses
        obtain ⟨w, hw, hwkey⟩ := h.held key hsuccesses
        exact List.mem_map.2 ⟨w, hopened.subset hw, hwkey⟩
    rw [← hmap] at hheld
    exact List.mem_map.1 hheld
  · intro w' hw'
    obtain ⟨w, hw, rfl⟩ := List.mem_map.1 hw'
    by_cases hwkey : w.key = a.key
    · have hwv : w = v :=
        List.inj_on_of_nodup_map (hopened.keys h.keys) hw hv (hwkey.trans hkey.symm)
      rw [if_pos hwkey, hwv]
      exact hnumbered
    · rw [if_neg hwkey]
      exact (numbered_congr (successes_other hwkey loaded)).2
        (h.numbered w (hopened.mem hw hwkey))

end Successes

/-- Only one tenant has streams. -/
def Only (t : TenantId) (db : Database) : Prop := ∀ u, u ≠ t → db.view u = []

theorem Only.tenantId {t : TenantId} {db : Database} (h : Only t db) {row : StreamRow}
    (hrow : row ∈ db.streams) : row.tenantId = t := by
  by_contra ht
  have hmem : db.viewOf row ∈ db.view row.tenantId := mem_view.2 ⟨row, hrow, rfl, rfl⟩
  rw [h _ ht] at hmem
  cases hmem

/-- Where only one tenant has streams, no event belongs to another. -/
theorem Only.eventsApart {engine : Engine} {t : TenantId} {db : Database} (h : Only t db)
    (hs : db.Sound engine) (events : List RawEvent) : EventsApart db t events := by
  intro event hevent hnone
  obtain ⟨row, hrow, hid⟩ := hs.events event hevent
  exact absurd (h.tenantId hrow) (hnone row hrow hid)

/-- What an attempt leaves: the streams as they were when it raises, and one of them
extended when it succeeds. -/
structure Outcome (engine : Engine) (t : TenantId) (a : Attempt E) (db : Database)
    (r : Answer E × Database) : Prop where
  sound : r.2.Sound engine
  only : Only t r.2
  error : ∀ e, r.1 = .error e → r.2.view t = db.view t
  ok : ∀ loaded, r.1 = .ok loaded → Extends a (db.view t) (r.2.view t)

/-- The streams and their events are numbered, every event belongs to a stream, and no
expected version of a stream has succeeded twice. -/
structure Versioned (history : History E) (db : Database) : Prop where
  numbered : ∀ row ∈ db.streams, Numbered history (db.viewOf row)
  belongs : ∀ event ∈ db.events, ∃ row ∈ db.streams, row.id = event.dbStreamId
  once : Once history

/-- A store keeps the versions if every attempt has an outcome, and none that expects
version 0 succeeds on a stream that is there. -/
theorem run_versioned {engine : Engine} {t : TenantId} {store : EventStore E Database}
    (ok : Database → Attempt E → Prop)
    (hstep : ∀ db a, db.Sound engine → Only t db → Outcome engine t a db (store.call db a.call))
    (hzero : ∀ (past : History E) db a loaded, db.Sound engine → Only t db →
      Kept past (db.view t) → ok db a → a.expected = .version 0 →
        (store.call db a.call).1 = .ok loaded → ∀ v ∈ db.view t, v.key ≠ a.key)
    (attempts : List (Attempt E))
    (hok : Meets (fun db a => store.call db a.call) ok {} attempts) :
    Versioned (attempts.zip (run (fun db a => store.call db a.call) {} attempts).1)
      (run (fun db a => store.call db a.call) {} attempts).2 := by
  obtain ⟨hsound, honly, hkept⟩ := run_history
    (P := fun past db => db.Sound engine ∧ Only t db ∧ Kept past (db.view t))
    (fun past db a ⟨hsound, honly, hkept⟩ ha => by
      have houtcome := hstep db a hsound honly
      refine ⟨houtcome.sound, houtcome.only, ?_⟩
      cases hanswer : (store.call db a.call).1 with
      | error e =>
        rw [houtcome.error e hanswer]
        exact hkept.failure a e
      | ok loaded =>
        exact hkept.success (houtcome.ok loaded hanswer)
          (fun he => hzero past db a loaded hsound honly hkept ha he hanswer) loaded)
    (s := {}) ⟨Database.sound_empty engine, fun _ _ => rfl, kept_empty⟩ attempts hok
  exact ⟨fun row hrow => hkept.numbered _ (mem_view.2 ⟨row, hrow, honly.tenantId hrow, rfl⟩),
    hsound.events, hkept.once⟩

end EventSourcery.Sql.AppendAttempts
