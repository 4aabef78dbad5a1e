import EventSourcery.LastVersions

/-!
# Appends behind the last version

Where the rows of the streams have the versions of their last events, whoever has loaded the
last version of a stream can append behind it, under a stream id that addresses the stream.
-/
namespace EventSourcery.Sql.RowVersions
open EventStore Runs AppendAttempts LastVersions

/-- Names are unique within a category, and no stream has a snapshot. -/
structure Plain (streams : Streams) : Prop where
  names : ∀ v ∈ streams, ∀ w ∈ streams, v.name = w.name → v.name ≠ none →
    v.category = w.category → v = w
  snapshots : ∀ v ∈ streams, v.snapshots = []

section Continuing
variable {streams streams' : Streams} {streamId : StreamId} {v : StreamView}
  {versioning : Versioning} {bodies : List EventBody}

theorem Plain.created (h : Plain streams) {version : Option ℤ}
    (hfree : ∀ v ∈ streams,
      (StreamHead.ofStreamId streamId version).clashes v.toStreamHead = false) :
    Plain (streams ++ [createdStream streamId version]) := by
  have hother : ∀ w ∈ streams, w.name = streamId.name → w.name ≠ none →
      w.category ≠ streamId.categoryText := by
    intro w hw hname hnone hcategory
    have hclash := hfree w hw
    rw [hname] at hnone
    obtain ⟨name, hsome⟩ := Option.ne_none_iff_exists'.1 hnone
    simp [StreamHead.clashes, StreamHead.ofStreamId, hcategory, hname, hsome] at hclash
  constructor
  · intro v hv w hw hname hnone hcategory
    rcases List.mem_append.1 hv with hv | hv
    · rcases List.mem_append.1 hw with hw | hw
      · exact h.names v hv w hw hname hnone hcategory
      · rw [List.mem_singleton.1 hw] at hname hcategory
        exact absurd hcategory (hother v hv hname hnone)
    · rcases List.mem_append.1 hw with hw | hw
      · rw [List.mem_singleton.1 hv] at hname hcategory hnone
        exact absurd hcategory.symm (hother w hw hname.symm (hname ▸ hnone))
      · rw [List.mem_singleton.1 hv, List.mem_singleton.1 hw]
  · intro v hv
    rcases List.mem_append.1 hv with hv | hv
    · exact h.snapshots v hv
    · rw [List.mem_singleton.1 hv]
      rfl

theorem Plain.inserted (h : Plain streams)
    (hinserted : Inserted streamId versioning bodies streams streams') : Plain streams' := by
  obtain ⟨base, hsearched, -, rfl⟩ := hinserted
  have hbase : Plain base := by
    rcases hsearched with rfl | ⟨hfree, rfl⟩
    · exact h
    · exact h.created hfree
  have hsame : ∀ v : StreamView,
      (if v.key = columns streamId then advanceBy versioning bodies v else v).name = v.name ∧
        (if v.key = columns streamId then advanceBy versioning bodies v else v).category =
          v.category ∧
        (if v.key = columns streamId then advanceBy versioning bodies v else v).snapshots =
          v.snapshots := by
    intro v
    split <;> exact ⟨rfl, rfl, rfl⟩
  constructor
  · intro v' hv' w' hw' hname hnone hcategory
    obtain ⟨v, hv, rfl⟩ := List.mem_map.1 hv'
    obtain ⟨w, hw, rfl⟩ := List.mem_map.1 hw'
    rw [(hsame v).1, (hsame w).1] at hname
    rw [(hsame v).1] at hnone
    rw [(hsame v).2.1, (hsame w).2.1] at hcategory
    rw [hbase.names v hv w hw hname hnone hcategory]
  · intro v' hv'
    obtain ⟨v, hv, rfl⟩ := List.mem_map.1 hv'
    rw [(hsame v).2.2]
    exact hbase.snapshots v hv

/-- A stream with the key of the hits is the only one that can be hit. -/
theorem countP_eq_one (hkeys : (streams.map (·.key)).Nodup) (hv : v ∈ streams)
    {hit : StreamView → Bool} (hhit : hit v) (honly : ∀ w, hit w → w.key = v.key) :
    streams.countP hit = 1 := by
  have hone : streams.filter hit = [v] := by
    apply filter_eq_singleton (List.Nodup.of_map _ hkeys) hv
    intro w hw
    constructor
    · exact fun h => List.inj_on_of_nodup_map hkeys hw hv (honly w h)
    · exact fun h => h ▸ hhit
  rw [List.countP_eq_length_filter, hone, List.length_singleton]

/-- The stream that a stream id compares to is chosen, if the id has no other name. -/
theorem chooseStream_own (hkeys : (streams.map (·.key)).Nodup) (hplain : Plain streams)
    (hv : v ∈ streams) (hkey : v.key = columns streamId) (hcategory : streamId.category ≠ some "")
    (hname : streamId.name = none ∨ v.name = streamId.name) :
    SqlAlchemyStorageStrategy.chooseStream StreamView.toStreamHead streamId
      (streams.filter fun v => v.addressed streamId) = .ok v := by
  have hmatching : v ∈ streams.filter fun v => v.addressed streamId :=
    List.mem_filter.2 ⟨hv, addressed_of_columns hkey⟩
  have heq := streamId_eq_of_columns hkey hcategory
  have hcheck : SqlAlchemyStorageStrategy.checkName StreamView.toStreamHead streamId
      (streams.filter fun v => v.addressed streamId) = .ok () := by
    unfold SqlAlchemyStorageStrategy.checkName
    split
    · rfl
    · rename_i hsome
      have hsame : v.name = streamId.name := hname.resolve_left hsome
      have hvcategory : v.category = streamId.categoryText := congrArg Prod.snd hkey
      have hfound : v ∈ (streams.filter fun v => v.addressed streamId).filter fun x =>
          x.name = streamId.name && x.category = streamId.categoryText :=
        List.mem_filter.2 ⟨hmatching, by simp [hsame, hvcategory]⟩
      split
      · rename_i hnone
        rw [List.getLast?_eq_none_iff] at hnone
        rw [hnone] at hfound
        cases hfound
      · rename_i x hx
        have hmem := List.mem_filter.1 (List.mem_of_getLast? hx)
        simp only [Bool.and_eq_true, decide_eq_true_eq] at hmem
        have hxv : x = v := hplain.names x (List.mem_of_mem_filter hmem.1) v hv
          (hmem.2.1.trans hsame.symm) (hmem.2.1 ▸ hsome) (hmem.2.2.trans hvcategory.symm)
        rw [hxv, if_pos heq]
  have hfind : (streams.filter fun v => v.addressed streamId).find?
      (fun x => x.toStreamHead.streamId.eq streamId) = some v := by
    cases hfind : (streams.filter fun v => v.addressed streamId).find?
        (fun x => x.toStreamHead.streamId.eq streamId) with
    | none => exact absurd heq (List.find?_eq_none.1 hfind v hmatching)
    | some x =>
      have hmem := List.mem_of_mem_filter (List.mem_of_find?_eq_some hfind)
      have hxkey := columns_of_eq (by simpa using List.find?_some hfind)
      rw [List.inj_on_of_nodup_map hkeys hmem hv (hxkey.trans hkey.symm)]
  unfold SqlAlchemyStorageStrategy.chooseStream
  rw [hcheck]
  simp only [Except.bind, hfind, Option.elim]

end Continuing

section Success
variable {E : Type} {streams : Streams} {streamId : StreamId} {v : StreamView}
  {events : List RawEvent} {e : ℤ} {initial : Option ℤ}

/-- A version bump leaves the events, and what is found by the other columns. -/
theorem bumped_spec (hit : StreamView → Bool) (version : Option ℤ) (streams : Streams) :
    let bumped := streams.map fun w => if hit w then { w with version } else w
    bumped.flatMap (·.events) = streams.flatMap (·.events) ∧
      (bumped.filter fun w => w.addressed streamId) =
        (streams.filter fun w => w.addressed streamId).map fun w =>
          if hit w then { w with version } else w := by
  constructor
  · rw [List.flatMap_map]
    apply List.flatMap_congr
    intro w _
    split <;> rfl
  · rw [List.filter_map]
    congr 1
    apply List.filter_congr
    intro w _
    simp only [Function.comp_apply]
    split <;> rfl

/-- On SQLAlchemy, an append at the version of its stream. -/
theorem sqlAlchemy_insert_ok (hkeys : (streams.map (·.key)).Nodup) (hplain : Plain streams)
    (hv : v ∈ streams) (hcompares : v.compares streamId) (hcategory : streamId.category ≠ some "")
    (hname : streamId.name = none ∨ v.name = streamId.name) (hversion : v.version = some e)
    (hpos : e ≠ 0) (huuids : uuidsFree (events.map .ofRaw) (streams.flatMap (·.events)))
    (hversions : SqlAlchemyStorageStrategy.versionsFree (events.map .ofRaw) v.events) :
    ∃ streams', SqlAlchemyViews.insert (.ok ()) streamId (.explicit e initial) events streams =
      .ok streams' := by
  have hkey := columns_of_compares hcompares
  have hopened : SqlAlchemyViews.opened streamId initial streams = streams := by
    have hany : (streams.any fun v => v.addressed streamId) = true :=
      List.any_eq_true.2 ⟨v, hv, addressed_of_columns hkey⟩
    simp [SqlAlchemyViews.opened, hany]
  have hone : streams.countP (fun v => v.compares streamId && v.version = some e) = 1 := by
    apply countP_eq_one hkeys hv
    · simp [hcompares, hversion]
    · intro w hw
      simp only [Bool.and_eq_true] at hw
      rw [columns_of_compares hw.1, hkey]
  have hbump : SqlAlchemyViews.bump streamId (.explicit e initial) streams =
      .ok (streams.map fun v => if v.compares streamId && v.version = some e then
        { v with version := initial } else v) := by
    simp only [SqlAlchemyViews.bump, Versioning.compared, if_neg hpos, hone]
    rfl
  have hsame := (@bumped_spec streamId (fun v => v.compares streamId && v.version = some e) initial
    streams).1
  unfold SqlAlchemyViews.insert
  simp only [Versioning.initialVersion, hopened,
    chooseStream_own hkeys hplain hv hkey hcategory hname, hversion, hbump, bind, Except.bind,
    Versioning.validateIfCompatible, SqlAlchemyViews.store, hsame, huuids, hversions]
  exact ⟨_, rfl⟩

/-- On Django, an append at the version of its stream, under the name that it has. -/
theorem django_insert_ok (hkeys : (streams.map (·.key)).Nodup)
    (hfound : (streams.filter fun v => v.addressed streamId) = [v])
    (huuid : v.uuid = streamId.uuid) (hname : v.name = streamId.name)
    (hversion : v.version = some e) (hpos : e ≠ 0) (hne : events ≠ [])
    (hstream : ∀ raw ∈ events, raw.streamId = streamId)
    (huuids : uuidsFree (events.map .ofRaw) (streams.flatMap (·.events))) :
    ∃ streams', DjangoViews.insert (.ok ()) streamId (.explicit e initial) events streams =
      (.ok (), streams') := by
  obtain ⟨hv, haddressed⟩ := List.mem_filter.1 (hfound ▸ List.mem_singleton_self v)
  have hcategory : v.category = streamId.categoryText := by
    simp only [StreamHead.addressed, Bool.or_eq_true, Bool.and_eq_true, decide_eq_true_eq,
      Option.any_eq_true] at haddressed
    rcases haddressed with h | ⟨name, -, h⟩
    · exact h.2
    · exact h.2
  have hcheck := hfound ▸ DjangoStorageStrategy.checkName_one StreamView.toStreamHead huuid
  have hcolumns : (streams.filter fun v =>
      DjangoStorageStrategy.sameColumns streamId v.toStreamHead) = [v] := by
    have hsub : (streams.filter fun v =>
        DjangoStorageStrategy.sameColumns streamId v.toStreamHead) =
          (streams.filter fun v => v.addressed streamId).filter fun v =>
            DjangoStorageStrategy.sameColumns streamId v.toStreamHead := by
      rw [List.filter_filter]
      apply List.filter_congr
      intro w _
      cases hw : DjangoStorageStrategy.sameColumns streamId w.toStreamHead with
      | false => rfl
      | true => rw [DjangoStorageStrategy.addressed_of_sameColumns hw, Bool.and_self]
    rw [hsub, hfound]
    simp [DjangoStorageStrategy.sameColumns, huuid, hname, hcategory]
  have hone : streams.countP (fun w => w.key = v.key && w.version = some e) = 1 := by
    apply countP_eq_one hkeys hv
    · simp [hversion]
    · intro w hw
      simp only [Bool.and_eq_true, decide_eq_true_eq] at hw
      exact hw.1
  set bumped := streams.map fun w =>
    if w.key = v.key && w.version = some e then { w with version := initial } else w with hbumped
  have hensure : DjangoViews.ensure streamId (.explicit e initial) streams = (.ok (), bumped) := by
    simp only [DjangoViews.ensure, hcheck, DjangoViews.getOrCreate, hcolumns,
      DjangoStorageStrategy.getOne, hversion, Versioning.validateIfCompatible,
      Versioning.compared, if_neg hpos, hone, Versioning.initialVersion]
    rfl
  have hspec := @bumped_spec streamId (fun w => w.key = v.key && w.version = some e) initial streams
  have hsame : bumped.flatMap (·.events) = streams.flatMap (·.events) := hspec.1
  have hfilter := hspec.2
  rw [hfound, List.map_singleton, ← hbumped] at hfilter
  obtain ⟨event, rest, rfl⟩ := List.exists_cons_of_ne_nil hne
  unfold DjangoViews.insert
  simp only [hensure, DjangoViews.store, List.head?_cons, hstream event (by simp), hfilter,
    DjangoStorageStrategy.getOne, hsame, huuids, if_true]
  exact ⟨_, rfl⟩

/-- Versions behind the last one are free. -/
theorem versionsFree_behind {engine : Engine} {held bodies : List EventBody} {a : Attempt E}
    (hlast : IsLast engine held (some e)) (hexpected : a.expected = .version e)
    (hbodies : bodies.map (·.version) = a.versions) :
    SqlAlchemyStorageStrategy.versionsFree bodies held := by
  have hversions : bodies.filterMap (·.version) =
      (List.range a.count).map fun i : ℕ => e + 1 + i := by
    have hid : bodies.filterMap (·.version) = (bodies.map (·.version)).filterMap id := by
      rw [List.filterMap_map]
      rfl
    rw [hid, hbodies, Attempt.versions, hexpected, List.filterMap_map]
    exact congrFun (List.filterMap_eq_map (f := fun i : ℕ => e + 1 + i)) _
  unfold SqlAlchemyStorageStrategy.versionsFree
  rw [hversions]
  simp only [Bool.and_eq_true, decide_eq_true_eq, List.all_eq_true]
  constructor
  · exact List.nodup_range.map fun i j hij => by omega
  · intro version hversion body hbody
    obtain ⟨i, -, rfl⟩ := List.mem_map.1 hversion
    intro hsame
    have hle := (isLast_iff.1 hlast).2 body hbody
    rw [hsame] at hle
    simp only [versionLe, decide_eq_true_eq] at hle
    omega

end Success

section Store
variable {E : Type} (store : SqlStore E)

/-- A read for a stream id finds the stream. -/
def Finds (streamId : StreamId) (streams : Streams) (v : StreamView) : Prop :=
  match store with
  | .sqlAlchemy _ => v ∈ streams ∧ v.compares streamId
  | .django _ => (streams.filter fun v => v.addressed streamId) = [v]

/-- An append with the stream id goes to the stream that a read for it finds: on SQLAlchemy
the category is not empty text, and no other name is given; on Django the uuid and the name
are those of the stream. -/
def Addresses (streamId : StreamId) (head : StreamHead) : Prop :=
  match store with
  | .sqlAlchemy _ => streamId.category ≠ some "" ∧
      (streamId.name = none ∨ head.name = streamId.name)
  | .django _ => head.uuid = streamId.uuid ∧ head.name = streamId.name

variable {store} {db : Database} {streamId : StreamId} {v : StreamView}

theorem Finds.mem {streams : Streams} (h : Finds store streamId streams v) : v ∈ streams := by
  cases store with
  | sqlAlchemy strategy => exact h.1
  | django strategy => exact (List.mem_filter.1 (h ▸ List.mem_singleton_self v)).1

theorem Finds.selects {streams : Streams} (h : Finds store streamId streams v) :
    store.selects streamId v.toStreamHead := by
  cases store with
  | sqlAlchemy strategy => exact h.2
  | django strategy =>
    have hmem : v ∈ streams.filter fun v => v.addressed streamId := h ▸ List.mem_singleton_self v
    exact (List.mem_filter.1 hmem).2

/-- What is loaded of a stream without snapshots are its events, in order. -/
theorem fetchRows_inOrder (engine : Engine) (bodies : List EventBody) :
    fetchRows engine id none none bodies [] = inOrder engine bodies := by
  have hall : ∀ body : EventBody, inWindow none none body.version = true := fun _ => rfl
  simp [fetchRows, inOrder, hall]

/-- A stream with events was found, and what was loaded last is its last event. -/
theorem finds_of_load {serde : Serde E} (hs : db.Sound store.engine)
    (hplain : Plain (db.view store.tenantId)) {events : List (WrappedEvent E)}
    (hload : (store.eventStore serde).loadStream streamId none none db = .ok events)
    {version : Option ℤ} (hlast : events.getLast?.map (·.version) = some version) :
    ∃ v, Finds store streamId (db.view store.tenantId) v ∧
      IsLast store.engine v.events version := by
  obtain ⟨raws, hfetch, hread⟩ := bind_eq_ok.1 hload
  have hversions := serde.deserializeMany_version (mapError_eq_ok.1 hread)
  have hraws : raws.getLast?.map (·.version) = some version := by
    rw [← List.getLast?_map, ← hversions, List.getLast?_map, hlast]
  rcases store.fetchEvents_found hs hfetch with rfl | ⟨v, hfound, rfl⟩
  · cases hraws
  obtain ⟨hv, hselects⟩ := List.mem_filter.1 (hfound ▸ List.mem_singleton_self v)
  refine ⟨v, ?_, ?_⟩
  · cases store with
    | sqlAlchemy strategy => exact ⟨hv, hselects⟩
    | django strategy => exact hfound
  · rw [hplain.snapshots v hv, fetchRows_inOrder, List.getLast?_map, Option.map_map] at hraws
    exact hraws

/-- An append at the version of the stream that its stream id finds and addresses goes through,
if the events are new, no listener raises, and the events can be read back. -/
theorem insertEvents_ok (quiet : store.dispatcher.Quiet) (hs : db.Sound store.engine)
    (honly : Only store.tenantId db) (hplain : Plain (db.view store.tenantId))
    (hfinds : Finds store streamId (db.view store.tenantId) v)
    (haddresses : Addresses store streamId v.toStreamHead) {e : ℤ} (hversion : v.version = some e)
    (hpos : e ≠ 0) {initial : Option ℤ} {events : List RawEvent} (hne : events ≠ [])
    (hstream : ∀ raw ∈ events, raw.streamId = streamId)
    (huuids : uuidsFree (events.map .ofRaw) (db.events.map (·.body)))
    (hversions : SqlAlchemyStorageStrategy.versionsFree (events.map .ofRaw) v.events)
    (haccept : store.dispatcher.serde.accept events = .ok ()) :
    (store.storageStrategy.insertEvents streamId (.explicit e initial) events db).1 = .ok () := by
  have hapart := honly.eventsApart hs events
  have hkeys := view_keys hs.uniqueKeys store.tenantId
  have hverdictOk := (Dispatcher.accept_of_quiet quiet store.tenantId events).trans haccept
  rw [hapart.uuidsFree] at huuids
  cases store with
  | sqlAlchemy strategy =>
    obtain ⟨streams', hinsert⟩ := @sqlAlchemy_insert_ok (db.view strategy.tenantId) streamId v
      events e initial hkeys hplain hfinds.1 hfinds.2 haddresses.1 haddresses.2 hversion hpos
      huuids hversions
    have hmisses : SqlAlchemyViews.MissesOthers strategy.engine db
        (strategy.tenantId, .insert streamId (.explicit e initial) events) :=
      fun _ _ row hrow ht => absurd (honly.tenantId hrow) ht
    obtain ⟨verdict, hverdict, heffect⟩ :=
      SqlAlchemyViews.insertEvents_effect strategy hs hmisses hapart
    rw [(hverdict quiet.positionBlind).trans hverdictOk, hinsert] at heffect
    exact (heffect.undo hs).1
  | django strategy =>
    obtain ⟨streams', hinsert⟩ := @django_insert_ok (db.view strategy.tenantId) streamId v events
      e initial hkeys hfinds haddresses.1 haddresses.2 hversion hpos hne hstream huuids
    obtain ⟨verdict, hverdict, heffect⟩ := DjangoViews.insertEvents_effect strategy hs streamId
      (.explicit e initial) hapart
    rw [(hverdict quiet.positionBlind).trans hverdictOk, hinsert] at heffect
    exact (heffect.undo hs).answer

end Store

section Main
variable {E : Type} (store : SqlStore E)

def step (db : Database) (call : Call E) : Answer E × Database :=
  (store.eventStore store.dispatcher.serde).call db call

/-- The tables of one tenant who appends. -/
structure Inv (db : Database) : Prop where
  sound : db.Sound store.engine
  only : Only store.tenantId db
  plain : Plain (db.view store.tenantId)

variable {store} {db : Database}

theorem inv_empty : Inv store {} where
  sound := Database.sound_empty _
  only _ _ := rfl
  plain :=
    { names := fun v hv => by cases hv
      snapshots := fun v hv => by cases hv }

theorem Inv.heads (h : Inv store db) : (db.view store.tenantId).map (·.toStreamHead) =
    db.streams.map (·.toStreamHead) := by
  unfold Database.view
  rw [List.filter_eq_self.2 fun row hrow => decide_eq_true (h.only.tenantId hrow), List.map_map]
  rfl

theorem Inv.rowsAgree (h : Inv store db) :
    RowsAgree store.engine db ↔ Agree store.engine (db.view store.tenantId) := by
  constructor
  · intro hrows v hv
    obtain ⟨row, hrow, -, rfl⟩ := mem_view.1 hv
    exact hrows row hrow
  · intro hagree row hrow
    exact hagree (db.viewOf row) (mem_view.2 ⟨row, hrow, h.only.tenantId hrow, rfl⟩)

/-- An append that succeeds keeps the tables, and keeps the rows in agreement if and only if
it is in step. -/
theorem step_inv {call : Call E} (hincreasing : Increasing call) (h : Inv store db)
    (hok : (step store db call).1.isOk) : Inv store (step store db call).2 ∧
      (RowsAgree store.engine db →
        (RowsAgree store.engine (step store db call).2 ↔ InStep store.engine db call)) := by
  revert hok
  unfold step
  rw [call_eq]
  cases hr : request store.dispatcher.serde call with
  | error e =>
    intro hok
    have hr' : request (store.eventStore store.dispatcher.serde).serde call = .error e := hr
    rw [hr'] at hok
    cases hok
  | ok r =>
    have hr' : request (store.eventStore store.dispatcher.serde).serde call = .ok r := hr
    obtain ⟨streamId, expected, last, raws, rfl, hstream, hlast, hstep⟩ :=
      @request_increasing E store.engine _ call r hincreasing hr
    rw [hr']
    intro hok
    obtain ⟨hsound, honly, hcases⟩ :=
      store.insertEvents_inserted (versioningFor last expected) h.sound h.only hstream
    rcases hcases with ⟨⟨e, herror⟩, -⟩ | ⟨-, hinserted⟩
    · have hanswer : (finish store.dispatcher.serde ((store.storageStrategy.insertEvents streamId
          (versioningFor last expected) raws db).1.map fun _ => [])).isOk = true := hok
      rw [herror] at hanswer
      cases hanswer
    · have hafter : Inv store (store.storageStrategy.insertEvents streamId
          (versioningFor last expected) raws db).2 := ⟨hsound, honly, h.plain.inserted hinserted⟩
      refine ⟨hafter, fun hagree => ?_⟩
      have hkeys := view_keys h.sound.uniqueKeys store.tenantId
      have hiff := agree_inserted hkeys (h.rowsAgree.1 hagree) hlast hinserted
      rw [h.heads, ← hafter.rowsAgree, ← hstep db] at hiff
      exact hiff

theorem run_inv {calls : List (Call E)} (hincreasing : ∀ call ∈ calls, Increasing call)
    (h : Inv store db) (hsucceed : ∀ answer ∈ (run (step store) db calls).1, answer.isOk) :
    Inv store (run (step store) db calls).2 := by
  induction calls generalizing db with
  | nil => exact h
  | cons call calls ih =>
    have hfirst := (step_inv (hincreasing call (by simp)) h (hsucceed _ (by simp))).1
    exact ih (fun call hcall => hincreasing call (by simp [hcall])) hfirst
      fun answer hanswer => hsucceed answer (by simp [hanswer])

/-- Rows agree all along a run of appends that succeed if and only if all are in step. -/
theorem run_agrees {calls : List (Call E)} (hincreasing : ∀ call ∈ calls, Increasing call)
    (h : Inv store db) (hagree : RowsAgree store.engine db)
    (hsucceed : ∀ answer ∈ (run (step store) db calls).1, answer.isOk) :
    (∀ n, RowsAgree store.engine (run (step store) db (calls.take n)).2) ↔
      Meets (step store) (InStep store.engine) db calls := by
  induction calls generalizing db with
  | nil => exact ⟨fun _ => trivial, fun _ n => by simpa using hagree⟩
  | cons call calls ih =>
    obtain ⟨hafter, hstep⟩ := step_inv (hincreasing call (by simp)) h
      (hsucceed _ (by simp : (step store db call).1 ∈ (run (step store) db (call :: calls)).1))
    have hrest := fun hagree => @ih (step store db call).2
      (fun call hcall => hincreasing call (by simp [hcall])) hafter hagree
      (fun answer hanswer => hsucceed answer (by simp [hanswer]))
    constructor
    · intro hall
      have hfirst : RowsAgree store.engine (step store db call).2 := hall 1
      exact ⟨(hstep hagree).1 hfirst, (hrest hfirst).1 fun n => hall (n + 1)⟩
    · intro ⟨hin, hmeets⟩ n
      have hfirst := (hstep hagree).2 hin
      cases n with
      | zero => exact hagree
      | succ n => exact (hrest hfirst).2 hmeets n

/-- No listener raises, and the events of an attempt can be serialized and read back, and have
new uuids. -/
def Ready (store : SqlStore E) (db : Database) (a : Attempt E) : Prop :=
  store.dispatcher.Quiet ∧ ∃ raws,
    request store.dispatcher.serde a.call = .ok (.insert a.streamId a.versioning raws) ∧
    uuidsFree (raws.map .ofRaw) (db.events.map (·.body)) ∧
    store.dispatcher.serde.accept raws = .ok ()

/-- Where rows agree, whoever has loaded the last version can append behind it. -/
theorem append_behind (h : Inv store db) (hagree : RowsAgree store.engine db) {a : Attempt E}
    {events : List (WrappedEvent E)} {v : ℤ}
    (hload : (store.eventStore store.dispatcher.serde).loadStream a.streamId none none db =
      .ok events) (hlast : events.getLast?.map (·.version) = some (some v)) (hpos : 1 ≤ v)
    (hexpected : a.expected = .version v)
    (haddresses : ∀ row ∈ db.streams, store.selects a.streamId row.toStreamHead →
      Addresses store a.streamId row.toStreamHead) (hready : Ready store db a) :
    (step store db a.call).1 = .ok [] := by
  obtain ⟨w, hfinds, hwlast⟩ := finds_of_load h.sound h.plain hload hlast
  obtain ⟨row, hrow, -, hw⟩ := mem_view.1 hfinds.mem
  have hversion : w.version = some v := hwlast.unique.1 (h.rowsAgree.1 hagree w hfinds.mem)
  have haddressed : Addresses store a.streamId w.toStreamHead := by
    rw [← hw]
    apply haddresses row hrow
    have hselects := hfinds.selects
    rwa [← hw] at hselects
  obtain ⟨quiet, raws, hr, huuids, haccept⟩ := hready
  obtain ⟨hne, hstream⟩ := request_proper hr
  obtain ⟨raws', heq, hraws⟩ := request_attempt hr
  cases heq
  have hbodies : (raws.map EventBody.ofRaw).map (·.version) = a.versions := by
    rw [← hraws, List.map_map]
    rfl
  have hversioning : a.versioning = .explicit v (some (v + a.count)) := by
    simp only [Attempt.versioning, hexpected]
  have hinsert :
      (store.storageStrategy.insertEvents a.streamId a.versioning raws db).1 = .ok () := by
    rw [hversioning]
    exact insertEvents_ok quiet h.sound h.only h.plain hfinds haddressed hversion (by omega) hne
      hstream huuids (versionsFree_behind hwlast hexpected hbodies) haccept
  have hr' : request (store.eventStore store.dispatcher.serde).serde a.call =
      .ok (.insert a.streamId a.versioning raws) := hr
  have hfinish : finish store.dispatcher.serde ((store.storageStrategy.insertEvents a.streamId
      a.versioning raws db).1.map fun _ => []) = .ok [] := by
    rw [hinsert]
    rfl
  unfold step
  rw [call_eq, hr']
  exact hfinish

/-- In every run of appends that succeed, the rows have the versions of the last events in
all states if and only if every append is in step. Then whoever has loaded the last version
of a stream, and addresses the stream, can append behind it. -/
theorem rowVersions_agree_iff (store : SqlStore E) {calls : List (Call E)}
    (hincreasing : ∀ call ∈ calls, Increasing call)
    (hsucceed : ∀ answer ∈ (run (step store) {} calls).1, answer.isOk) :
    ((∀ n, RowsAgree store.engine (run (step store) {} (calls.take n)).2) ↔
      Meets (step store) (InStep store.engine) {} calls) ∧
    (Meets (step store) (InStep store.engine) {} calls →
      let db := (run (step store) {} calls).2
      ∀ (a : Attempt E) (events : List (WrappedEvent E)) (v : ℤ),
        (store.eventStore store.dispatcher.serde).loadStream a.streamId none none db = .ok events →
        events.getLast?.map (·.version) = some (some v) → 1 ≤ v → a.expected = .version v →
        (∀ row ∈ db.streams, store.selects a.streamId row.toStreamHead →
          Addresses store a.streamId row.toStreamHead) → Ready store db a →
        (step store db a.call).1 = .ok []) := by
  have hinv := run_inv hincreasing inv_empty hsucceed
  have hiff := run_agrees hincreasing inv_empty (fun _ h => by cases h) hsucceed
  refine ⟨hiff, ?_⟩
  intro hmeets db a events v hload hlast hpos hexpected haddresses hready
  have hagree := hiff.2 hmeets calls.length
  rw [List.take_length] at hagree
  exact append_behind hinv hagree hload hlast hpos hexpected haddresses hready

end Main

section Example
open Tenants

def viaSqlAlchemy : SqlStore Unit := .sqlAlchemy ⟨sqlite, plainDispatcher, none, defaultTenant⟩

def viaDjango : SqlStore Unit := .django ⟨sqlite, plainDispatcher, none, defaultTenant⟩

/-- A wrapped event of the version is appended. -/
def appendWrapped (uuid : Uuid) (version expected : ℤ) : Call Unit :=
  .append (WrappedEvent.wrap () uuid 0 (some version)) [] order (.version expected)

theorem increasing_appendWrapped (uuid : Uuid) (version expected : ℤ) :
    Increasing (appendWrapped uuid version expected) :=
  ⟨[version], rfl, List.pairwise_singleton _ _⟩

theorem rowVersions_agree_iff_order :
    let calls := [appendWrapped 1 1 0, appendWrapped 2 4 1]
    let a : Attempt Unit := ⟨⟨(), 3, 0⟩, [], order, .version 4⟩
    (∀ n, RowsAgree sqlite (run (step viaSqlAlchemy) {} (calls.take n)).2) ∧
      (step viaSqlAlchemy (run (step viaSqlAlchemy) {} calls).2 a.call).1 = .ok [] := by
  intro calls a
  have hincreasing : ∀ call ∈ calls, Increasing call := by
    intro call hcall
    simp only [calls, List.mem_cons, List.not_mem_nil, or_false] at hcall
    rcases hcall with rfl | rfl
    · exact increasing_appendWrapped 1 1 0
    · exact increasing_appendWrapped 2 4 1
  have hmeets : Meets (step viaSqlAlchemy) (InStep sqlite) {} calls := by decide
  have h := rowVersions_agree_iff viaSqlAlchemy hincreasing (by decide)
  have hready : Ready viaSqlAlchemy (run (step viaSqlAlchemy) {} calls).2 a :=
    ⟨plainDispatcher_quiet, _, rfl, rfl, rfl⟩
  refine ⟨h.1.2 hmeets, h.2 hmeets a _ 4 rfl rfl (by decide) rfl ?_ hready⟩
  intro row hrow _
  rw [List.mem_singleton.1 hrow]
  exact ⟨by decide, .inl rfl⟩

/-- Events of the versions 1 and 2 are appended one after the other, and both expect 0: the
row keeps version 1, and whoever has loaded version 2 is refused. -/
theorem rowVersions_behind :
    let calls := [appendWrapped 1 1 0, appendWrapped 2 2 0]
    let a : Attempt Unit := ⟨⟨(), 3, 0⟩, [], order, .version 2⟩
    let outcome := fun store : SqlStore Unit =>
      let r := run (step store) {} calls
      (r.1, r.2.streams.map (·.version),
        (step store r.2 (.loadStream order none none)).1.map fun events => events.map (·.version),
        (step store r.2 a.call).1)
    outcome viaSqlAlchemy = ([.ok [], .ok []], [some 1], .ok [some 1, some 2],
        .error (.concurrentStreamWriteError [])) ∧
      outcome viaDjango = ([.ok [], .ok []], [some 1], .ok [some 1, some 2],
        .error (.concurrentStreamWriteError [])) :=
  ⟨rfl, rfl⟩

end Example

end EventSourcery.Sql.RowVersions
