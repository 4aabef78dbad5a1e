import EventSourcery.ReferenceStore
import EventSourcery.SqlStores

/-!
# The SQL stores as event stores

The streams that a tenant sees in the tables are those of the books that have events, each with
the number of its events as its version. A plain stream id finds the same stream by each of the
conditions that the stores select rows with: its columns alone decide.
-/
namespace EventSourcery.Sql.SqlConformance
open AppendAttempts ConsecutiveNumbers ReferenceStore Runs Tenants
open Replay (InRange)

/-- The streams have the events of the books, and no snapshots. -/
structure Filed (streams : Streams) (books : Books) : Prop where
  keys : (streams.map (·.key)).Nodup
  unnamed : ∀ v ∈ streams, v.name = none
  bare : ∀ v ∈ streams, v.snapshots = []
  started : ∀ v ∈ streams, v.events ≠ []
  version : ∀ v ∈ streams, v.version = some (v.events.length : ℤ)
  events : ∀ v ∈ streams, v.events.map (toRaw v.toStreamHead) = books.streams v.key
  held : ∀ key, books.streams key ≠ [] → ∃ v ∈ streams, v.key = key
  uuids : ∀ v ∈ streams, ∀ body ∈ v.events, body.uuid ∈ books.uuids

theorem filed_empty : Filed [] {} where
  keys := List.nodup_nil
  unnamed := by simp
  bare := by simp
  started := by simp
  version := by simp
  events := by simp
  held := fun _ h => absurd rfl h
  uuids := by simp

section Selection
variable {streamId : StreamId} {head : StreamHead} {streams : Streams} {books : Books}

theorem compares_iff (hplain : Plain streamId) :
    head.compares streamId = true ↔ head.key = columns streamId := by
  simp [StreamHead.compares, StreamId.truthyName, hplain.name, StreamHead.key, columns]

theorem addressed_iff (hplain : Plain streamId) :
    head.addressed streamId = true ↔ head.key = columns streamId := by
  simp [StreamHead.addressed, StreamId.truthyName, hplain.name, StreamHead.key, columns]

theorem sameColumns_iff (hplain : Plain streamId) (hname : head.name = none) :
    DjangoStorageStrategy.sameColumns streamId head = true ↔ head.key = columns streamId := by
  simp [DjangoStorageStrategy.sameColumns, hplain.name, hname, StreamHead.key, columns]

theorem clashes_iff (hplain : Plain streamId) (version : Option ℤ) :
    (StreamHead.ofStreamId streamId version).clashes head = true ↔ head.key = columns streamId := by
  simp [StreamHead.clashes, StreamHead.ofStreamId, hplain.name, StreamHead.key, columns, and_comm]

/-- The row of a plain stream gives its stream id back. -/
theorem streamId_of_columns (hplain : Plain streamId) (hname : head.name = none)
    (hkey : head.key = columns streamId) : head.streamId = streamId := by
  have heq := StreamId.eq_iff.1 (streamId_eq_of_columns hkey hplain.category)
  obtain ⟨huuid, hcategory⟩ := Prod.mk.inj heq
  obtain ⟨uuid, name, category⟩ := streamId
  cases hplain.name
  simp only [StreamHead.streamId, hname] at huuid hcategory ⊢
  rw [huuid, hcategory]

theorem toRaw_ofRaw {raw : RawEvent} (h : raw.streamId = head.streamId) :
    toRaw head (.ofRaw raw) = raw := by
  rw [toRaw, ← h]
  rfl

/-- What decides on the columns alone selects one stream. -/
theorem filter_of_columns (hkeys : (streams.map (·.key)).Nodup) {w : StreamView}
    (hw : w ∈ streams) {p : StreamView → Bool} (hp : ∀ v ∈ streams, p v = true ↔ v.key = w.key) :
    streams.filter p = [w] := by
  refine filter_eq_singleton (List.Nodup.of_map _ hkeys) hw fun v hv => ?_
  rw [hp v hv]
  exact ⟨fun hkey => List.inj_on_of_nodup_map hkeys hv hw hkey, fun hvw => by rw [hvw]⟩

theorem filter_of_absent {key : Uuid × String} (habsent : ∀ v ∈ streams, v.key ≠ key)
    {p : StreamView → Bool} (hp : ∀ v ∈ streams, p v = true ↔ v.key = key) :
    streams.filter p = [] :=
  List.filter_eq_nil_iff.2 fun v hv hpv => habsent v hv ((hp v hv).1 hpv)

/-- The stream of a stream id that has no events is not there. -/
theorem Filed.absent (h : Filed streams books) (hnone : books.events streamId = []) :
    ∀ v ∈ streams, v.key ≠ columns streamId := by
  intro v hv hkey
  have hevents := h.events v hv
  rw [hkey, show books.streams (columns streamId) = [] from hnone, List.map_eq_nil_iff] at hevents
  exact h.started v hv hevents

theorem Filed.length (h : Filed streams books) {v : StreamView} (hv : v ∈ streams)
    (hkey : v.key = columns streamId) : (v.events.length : ℤ) = books.version streamId := by
  rw [Books.version, Books.events, show place streamId = v.key from hkey.symm, ← h.events v hv,
    List.length_map]

/-- The streams are there for the reading of one of them: nothing, or its events. -/
theorem Filed.cases (h : Filed streams books) (streamId : StreamId) :
    books.events streamId = [] ∧ (∀ v ∈ streams, v.key ≠ columns streamId) ∨
      ∃ v ∈ streams, v.key = columns streamId ∧ v.version = some (books.version streamId) ∧
        v.events.map (toRaw v.toStreamHead) = books.events streamId := by
  by_cases hnone : books.events streamId = []
  · exact .inl ⟨hnone, h.absent hnone⟩
  · obtain ⟨v, hv, hkey⟩ := h.held _ hnone
    refine .inr ⟨v, hv, hkey, by rw [h.version v hv, h.length hv hkey], ?_⟩
    rw [h.events v hv, hkey]
    rfl

end Selection

section Reads
variable {streamId : StreamId} {streams : Streams} {books : Books} {start stop : Option ℤ}

/-- The rows of a stream that is numbered are read in the order in which they were added. -/
theorem Filed.rows (h : Filed streams books) (hnumbered : books.Numbered) (engine : Engine)
    {v : StreamView} (hv : v ∈ streams) (hkey : v.key = columns streamId) :
    (fetchRows engine id start stop v.events v.snapshots).map (toRaw v.toStreamHead) =
      fetchEvents streamId start stop books := by
  have hevents : v.events.map (toRaw v.toStreamHead) = books.events streamId := by
    rw [h.events v hv, hkey]
    rfl
  have hconsecutive : Consecutive (·.version) 1 v.events := by
    refine (hnumbered (place streamId)).of_map ?_
    rw [show books.streams (place streamId) = books.events streamId from rfl, ← hevents,
      List.map_map]
    rfl
  have hgiven : ∀ body ∈ v.events, ∃ n, body.version = some n := fun body hbody =>
    let ⟨_, _, hversion⟩ := hconsecutive.exists_of_mem hbody
    ⟨_, hversion⟩
  have hsorted : (v.events.filter fun body => inWindow start stop body.version).Pairwise
      fun a b => versionLe engine a.version b.version = true := by
    refine List.Pairwise.sublist List.filter_sublist ?_
    refine hconsecutive.pairwise_lt.imp_of_mem fun {a b} ha hb hlt => ?_
    obtain ⟨m, hm⟩ := hgiven a ha
    obtain ⟨n, hn⟩ := hgiven b hb
    rw [hm, hn] at hlt ⊢
    exact decide_eq_true (le_of_lt hlt)
  have hrows : fetchRows engine id start stop v.events v.snapshots =
      v.events.filter fun body => inWindow start stop body.version := by
    rw [h.bare v hv]
    exact hsorted.insertionSort_eq
  rw [hrows, fetchEvents, ← hevents, List.filter_map]
  refine congrArg _ (List.filter_congr fun body hbody => ?_)
  obtain ⟨n, hn⟩ := hgiven body hbody
  change inWindow start stop body.version =
    (toRaw v.toStreamHead body).version.any fun v => InRange start stop v
  rw [show (toRaw v.toStreamHead body).version = body.version from rfl, hn, inWindow_some]
  rfl

theorem fetchEvents_of_nothing (hnone : books.events streamId = []) :
    fetchEvents streamId start stop books = [] := by
  rw [fetchEvents, hnone, List.filter_nil]

theorem Filed.sqlAlchemy_fetch (h : Filed streams books) (hnumbered : books.Numbered)
    (engine : Engine) (hplain : Plain streamId) :
    SqlAlchemyViews.fetch engine streamId start stop streams =
      fetchEvents streamId start stop books := by
  unfold SqlAlchemyViews.fetch
  rcases h.cases streamId with ⟨hnone, habsent⟩ | ⟨v, hv, hkey, -, -⟩
  · rw [filter_of_absent habsent fun v _ => compares_iff hplain, fetchEvents_of_nothing hnone]
  · rw [filter_of_columns h.keys hv fun w _ => hkey ▸ compares_iff hplain]
    exact h.rows hnumbered engine hv hkey

theorem Filed.django_fetch (h : Filed streams books) (hnumbered : books.Numbered)
    (engine : Engine) (hplain : Plain streamId) :
    DjangoViews.fetch engine streamId start stop streams =
      .ok (fetchEvents streamId start stop books) := by
  unfold DjangoViews.fetch
  rcases h.cases streamId with ⟨hnone, habsent⟩ | ⟨v, hv, hkey, -, -⟩
  · rw [filter_of_absent habsent fun v _ => addressed_iff hplain, fetchEvents_of_nothing hnone]
    rfl
  · rw [filter_of_columns h.keys hv fun w _ => hkey ▸ addressed_iff hplain]
    exact congrArg _ (h.rows hnumbered engine hv hkey)

end Reads

section Writes
variable {E : Type} {serde : Serde E} {streamId : StreamId} {streams streams' base : Streams}
  {books : Books} {events : List RawEvent} {v : ℤ}

/-- The stream that an append of `count` events finds, or has created, before it is advanced. -/
structure Target (books : Books) (streamId : StreamId) (v : ℤ) (count : ℕ) (w : StreamView) :
    Prop where
  key : w.key = columns streamId
  unnamed : w.name = none
  bare : w.snapshots = []
  events : w.events.map (toRaw w.toStreamHead) = books.events streamId
  length : (w.events.length : ℤ) = v
  uuids : ∀ body ∈ w.events, body.uuid ∈ books.uuids
  created : v = 0 → w.version = some (count : ℤ)

/-- What an insertion admits is the target of the append. -/
theorem Filed.target (h : Filed streams books) (hne : events ≠ [])
    (happend : Appendable serde books streamId (.explicit v (some (v + events.length))) events)
    (hsearched : Searched streamId (some (v + events.length)) streams base) {w : StreamView}
    (hw : w ∈ base)
    (hadmitted : Admitted streamId (.explicit v (some (v + events.length))) w) :
    Target books streamId v events.length w := by
  obtain ⟨_, heq, -, hzero⟩ := happend.numbered
  cases heq
  have hcompared : v ≠ 0 → w.version = some v := fun hv =>
    hadmitted.compared v (by simp [Versioning.compared, hv])
  have hpos : 0 < events.length := List.length_pos_of_ne_nil hne
  by_cases hmem : w ∈ streams
  · have hnotzero : v ≠ 0 := fun hv => h.absent (hzero hv) w hmem hadmitted.key
    have hversion := hcompared hnotzero
    rw [h.version w hmem, Option.some.injEq] at hversion
    refine ⟨hadmitted.key, h.unnamed w hmem, h.bare w hmem, ?_, hversion, h.uuids w hmem,
      fun hv => absurd hv hnotzero⟩
    rw [h.events w hmem, hadmitted.key]
    rfl
  · rcases hsearched with rfl | ⟨hclear, rfl⟩
    · exact absurd hw hmem
    · have hcreated := List.mem_singleton.1 ((List.mem_append.1 hw).resolve_left hmem)
      subst hcreated
      have hnone : books.events streamId = [] := by
        by_contra hsome
        obtain ⟨u, hu, hkey⟩ := h.held _ hsome
        exact ne_columns_of_not_clashes (hclear u hu) hkey
      have hv : v = 0 := by
        by_contra hnotzero
        have hversion := hcompared hnotzero
        simp only [createdStream, StreamHead.ofStreamId, Option.some.injEq] at hversion
        omega
      refine ⟨hadmitted.key, happend.plain.name, rfl, hnone.symm, hv.symm, by simp [createdStream],
        fun _ => ?_⟩
      simp [createdStream, StreamHead.ofStreamId, hv]

/-- The books with new events of one stream, as its new row has them. -/
theorem Filed.modify (h : Filed streams books) (hkeys : (base.map (·.key)).Nodup)
    (hsubset : streams ⊆ base)
    (hothers : ∀ u ∈ base, u.key ≠ columns streamId → u ∈ streams) {w : StreamView} (hw : w ∈ base)
    (hkey : w.key = columns streamId) {f : StreamView → StreamView}
    (hf : ∀ u, (f u).key = u.key) (hname : (f w).name = none) (hbare : (f w).snapshots = [])
    (hne : events ≠ []) (hversion : (f w).version = some (events.length : ℤ))
    (hevents : (f w).events.map (toRaw (f w).toStreamHead) = events)
    (huuids : ∀ body ∈ (f w).events, body.uuid ∈ books.uuids ++ events.map (·.uuid)) :
    Filed (Sql.modify (columns streamId) f base) (books.write streamId events) := by
  have hcases : ∀ u' ∈ Sql.modify (columns streamId) f base,
      (u'.key ≠ columns streamId ∧ u' ∈ streams) ∨ u' = f w := by
    intro u' hu'
    obtain ⟨u, hu, rfl⟩ := List.mem_map.1 hu'
    by_cases hat : u.key = columns streamId
    · rw [if_pos hat, List.inj_on_of_nodup_map hkeys hu hw (hat.trans hkey.symm)]
      exact .inr rfl
    · rw [if_neg hat]
      exact .inl ⟨hat, hothers u hu hat⟩
  have hlength : (f w).events.length = events.length := by rw [← hevents, List.length_map]
  refine ⟨by rwa [map_key_modify hf], ?_, ?_, ?_, ?_, ?_, ?_, ?_⟩
  · intro u' hu'
    rcases hcases u' hu' with ⟨-, hmem⟩ | rfl
    · exact h.unnamed u' hmem
    · exact hname
  · intro u' hu'
    rcases hcases u' hu' with ⟨-, hmem⟩ | rfl
    · exact h.bare u' hmem
    · exact hbare
  · intro u' hu'
    rcases hcases u' hu' with ⟨-, hmem⟩ | rfl
    · exact h.started u' hmem
    · exact List.ne_nil_of_length_pos (hlength ▸ List.length_pos_of_ne_nil hne)
  · intro u' hu'
    rcases hcases u' hu' with ⟨-, hmem⟩ | rfl
    · exact h.version u' hmem
    · rw [hversion, hlength]
  · intro u' hu'
    rcases hcases u' hu' with ⟨hat, hmem⟩ | rfl
    · rw [write_of_ne hat, h.events u' hmem]
    · rw [hf, hkey, hevents]
      exact (write_self streamId events books).symm
  · intro key hsome
    by_cases hat : key = columns streamId
    · exact ⟨f w, List.mem_map.2 ⟨w, hw, if_pos hkey⟩, by rw [hf, hkey, hat]⟩
    · rw [write_of_ne hat] at hsome
      obtain ⟨u, hu, rfl⟩ := h.held key hsome
      exact ⟨u, List.mem_map.2 ⟨u, hsubset hu, if_neg hat⟩, rfl⟩
  · intro u' hu' body hbody
    rcases hcases u' hu' with ⟨-, hmem⟩ | rfl
    · exact List.mem_append_left _ (h.uuids u' hmem body hbody)
    · exact huuids body hbody

/-- An append that succeeds writes the events to the books. -/
theorem Filed.inserted (h : Filed streams books) (hne : events ≠ [])
    (haddressed : ∀ raw ∈ events, raw.streamId = streamId)
    (happend : Appendable serde books streamId (.explicit v (some (v + events.length))) events)
    (hinserted : Inserted streamId (.explicit v (some (v + events.length)))
      (events.map .ofRaw) streams streams') :
    Filed streams' (books.write streamId (books.events streamId ++ events)) := by
  obtain ⟨base, hsearched, ⟨w, hw, hadmitted⟩, rfl⟩ := hinserted
  have htarget := h.target hne happend hsearched hw hadmitted
  have hraws : (events.map EventBody.ofRaw).map (toRaw w.toStreamHead) = events := by
    rw [List.map_map]
    refine (List.map_congr_left fun raw hraw => ?_).trans (List.map_id _)
    apply toRaw_ofRaw
    rw [haddressed raw hraw, streamId_of_columns happend.plain htarget.unnamed htarget.key]
  have hlength : (books.events streamId).length = w.events.length := by
    rw [← htarget.events, List.length_map]
  refine h.modify (hsearched.keys h.keys) hsearched.subset (fun u hu => hsearched.mem hu) hw
    htarget.key (key_advanceBy _ _) htarget.unnamed htarget.bare (by simp [hne]) ?_ ?_ ?_
  · rw [List.length_append, Nat.cast_add, hlength, htarget.length]
    by_cases hv : v = 0
    · simp [advanceBy, Versioning.compared, hv, htarget.created hv]
    · simp [advanceBy, Versioning.compared, hv, Versioning.initialVersion]
  · change (w.events ++ events.map EventBody.ofRaw).map (toRaw w.toStreamHead) = _
    rw [List.map_append, htarget.events, hraws]
  · intro body hbody
    rcases List.mem_append.1 hbody with hbody | hbody
    · exact List.mem_append_left _ (htarget.uuids body hbody)
    · obtain ⟨raw, hraw, rfl⟩ := List.mem_map.1 hbody
      exact List.mem_append_right _ (List.mem_map_of_mem (List.mem_append_right _ hraw))

/-- New uuids are free in rows that have uuids of the books. -/
theorem Appendable.uuidsFree {versioning : Versioning}
    (happend : Appendable serde books streamId versioning events) {held : List EventBody}
    (hheld : ∀ body ∈ held, body.uuid ∈ books.uuids) :
    uuidsFree (events.map .ofRaw) held = true := by
  have hnodup : ((events.map EventBody.ofRaw).map (·.uuid)).Nodup := by
    rw [List.map_map]
    exact happend.distinct
  unfold Sql.uuidsFree
  simp only [Bool.and_eq_true, decide_eq_true_eq, List.all_eq_true]
  refine ⟨hnodup, fun body hbody other hother hsame => ?_⟩
  obtain ⟨raw, hraw, rfl⟩ := List.mem_map.1 hbody
  have hused := hheld other hother
  rw [hsame] at hused
  exact happend.fresh raw hraw hused

/-- The versions of events that are numbered on are free. -/
theorem versionsFree_of_consecutive (hevents : Consecutive (·.version) (v + 1) events)
    {held : List EventBody} (hheld : ∀ body ∈ held, ∀ k ∈ body.version, k ≤ v) :
    SqlAlchemyStorageStrategy.versionsFree (events.map .ofRaw) held = true := by
  have hconsecutive : Consecutive (·.version) (v + 1) (events.map EventBody.ofRaw) :=
    hevents.of_map (by rw [List.map_map]; rfl)
  have hnodup : ((events.map EventBody.ofRaw).filterMap (·.version)).Nodup := by
    refine List.Pairwise.filterMap _ (fun a b hlt k hk l hl => ?_) hconsecutive.pairwise_lt
    rw [hk, hl] at hlt
    exact ne_of_lt hlt
  unfold SqlAlchemyStorageStrategy.versionsFree
  simp only [Bool.and_eq_true, decide_eq_true_eq, List.all_eq_true]
  refine ⟨hnodup, fun k hk body hbody hsame => ?_⟩
  obtain ⟨new, hnew, hversion⟩ := List.mem_filterMap.1 hk
  obtain ⟨i, -, hplace⟩ := hconsecutive.exists_of_mem hnew
  rw [hversion, Option.some.injEq] at hplace
  have hbelow := hheld body hbody k hsame
  omega

/-- The streams after the search for the one of an append, which may have been created. -/
structure Opened (books : Books) (streamId : StreamId) (v : ℤ) (base : Streams) (w : StreamView) :
    Prop where
  keys : (base.map (·.key)).Nodup
  unnamed : ∀ u ∈ base, u.name = none
  uuids : ∀ u ∈ base, ∀ body ∈ u.events, body.uuid ∈ books.uuids
  mem : w ∈ base
  key : w.key = columns streamId
  version : ∃ c, w.version = some c ∧ (v ≠ 0 → (c = v ↔ v = books.version streamId))
  below : ∀ body ∈ w.events, ∀ k ∈ body.version, k ≤ books.version streamId

theorem Filed.opened (h : Filed streams books) (hnumbered : books.Numbered) (hne : events ≠ [])
    (hplain : Plain streamId) (v : ℤ) :
    ∃ w, Opened books streamId v
        (SqlAlchemyViews.opened streamId (some (v + events.length)) streams) w ∧
      DjangoViews.getOrCreate streamId (some (v + events.length)) streams =
        (.ok w, SqlAlchemyViews.opened streamId (some (v + events.length)) streams) := by
  have hpos : 0 < events.length := List.length_pos_of_ne_nil hne
  unfold DjangoViews.getOrCreate SqlAlchemyViews.opened
  dsimp only
  rcases h.cases streamId with ⟨hnone, habsent⟩ | ⟨w, hw, hkey, hversion, hevents⟩
  · have hclear : streams.any (fun u =>
        (StreamHead.ofStreamId streamId (some (v + events.length))).clashes u.toStreamHead) =
          false := List.any_eq_false.2 fun u hu hclash =>
      habsent u hu ((clashes_iff hplain _).1 hclash)
    have hunseen : streams.any (fun u => u.addressed streamId) = false :=
      List.any_eq_false.2 fun u hu hseen => habsent u hu ((addressed_iff hplain).1 hseen)
    rw [filter_of_absent habsent fun u hu => sameColumns_iff hplain (h.unnamed u hu), hclear,
      hunseen]
    refine ⟨createdStream streamId (some (v + events.length)), ⟨?_, ?_, ?_, ?_, rfl, ?_, ?_⟩, rfl⟩
    · have hsearched : Searched streamId (some (v + events.length)) streams
          (streams ++ [createdStream streamId (some (v + events.length))]) :=
        .inr ⟨fun u hu => by simpa using List.any_eq_false.1 hclear u hu, rfl⟩
      exact hsearched.keys h.keys
    · intro u hu
      rcases List.mem_append.1 hu with hu | hu
      · exact h.unnamed u hu
      · rw [List.mem_singleton.1 hu]
        exact hplain.name
    · intro u hu
      rcases List.mem_append.1 hu with hu | hu
      · exact h.uuids u hu
      · rw [List.mem_singleton.1 hu]
        simp
    · exact List.mem_append_right _ (List.mem_singleton_self _)
    · refine ⟨v + events.length, rfl, fun hv => ?_⟩
      rw [Books.version, hnone, List.length_nil]
      omega
    · simp [createdStream]
  · have hseen : streams.any (fun u => u.addressed streamId) = true :=
      List.any_eq_true.2 ⟨w, hw, (addressed_iff hplain).2 hkey⟩
    rw [hseen, filter_of_columns h.keys hw fun u hu =>
      hkey ▸ sameColumns_iff hplain (h.unnamed u hu)]
    refine ⟨w, ⟨h.keys, h.unnamed, h.uuids, hw, hkey, ⟨_, hversion, fun _ => eq_comm⟩, ?_⟩, rfl⟩
    intro body hbody k hk
    have hraw : toRaw w.toStreamHead body ∈ books.events streamId :=
      hevents ▸ List.mem_map_of_mem hbody
    obtain ⟨i, hi, hplace⟩ := (hnumbered (place streamId)).exists_of_mem hraw
    have hbound : i < (books.events streamId).length := (List.getElem?_eq_some_iff.1 hi).1
    change body.version = some ((1 : ℤ) + i) at hplace
    rw [Option.mem_def.1 hk, Option.some.injEq] at hplace
    unfold Books.version
    omega

/-- The version bump of an append hits the stream if and only if it expects its version. -/
theorem Opened.countP {w : StreamView} (h : Opened books streamId v base w) (hv : v ≠ 0)
    {p : StreamView → Bool}
    (hp : ∀ u ∈ base, p u = true ↔ u.key = w.key ∧ u.version = some v) :
    base.countP p = if v = books.version streamId then 1 else 0 := by
  obtain ⟨c, hc, hiff⟩ := h.version
  rw [List.countP_eq_length_filter]
  split
  · rename_i hcurrent
    rw [filter_of_columns h.keys h.mem fun u hu => (hp u hu).trans ⟨And.left, fun hkey => ?_⟩]
    · rfl
    · refine ⟨hkey, ?_⟩
      rw [List.inj_on_of_nodup_map h.keys hu h.mem hkey, hc, (hiff hv).2 hcurrent]
  · rename_i hstale
    rw [List.filter_eq_nil_iff.2 fun u hu hpu => ?_]
    · rfl
    · obtain ⟨hkey, hversion⟩ := (hp u hu).1 hpu
      rw [List.inj_on_of_nodup_map h.keys hu h.mem hkey, hc, Option.some.injEq] at hversion
      exact hstale ((hiff hv).1 hversion)

/-- A version bump leaves the events. -/
theorem flatMap_bumped (hit : StreamView → Bool) (version : Option ℤ) (base : Streams) :
    (base.map fun u => if hit u then { u with version } else u).flatMap (·.events) =
      base.flatMap (·.events) := by
  rw [List.flatMap_map]
  refine List.flatMap_congr fun u _ => ?_
  split <;> rfl

theorem Opened.uuidsFree {versioning : Versioning} {w : StreamView}
    (h : Opened books streamId v base w)
    (happend : Appendable serde books streamId versioning events) {bumped : Streams}
    (hbumped : bumped.flatMap (·.events) = base.flatMap (·.events)) :
    Sql.uuidsFree (events.map .ofRaw) (bumped.flatMap (·.events)) = true := by
  refine Appendable.uuidsFree happend fun body hbody => ?_
  rw [hbumped] at hbody
  obtain ⟨u, hu, hmem⟩ := List.mem_flatMap.1 hbody
  exact h.uuids u hu body hmem

theorem Opened.sqlAlchemy_bump {w : StreamView} (h : Opened books streamId v base w)
    (hplain : Plain streamId) (hzero : v = 0 → v = books.version streamId) (initial : Option ℤ) :
    if v = books.version streamId then
      ∃ bumped, SqlAlchemyViews.bump streamId (.explicit v initial) base = .ok bumped ∧
        bumped.flatMap (·.events) = base.flatMap (·.events)
    else SqlAlchemyViews.bump streamId (.explicit v initial) base =
      .error (.concurrentStreamWriteError []) := by
  unfold SqlAlchemyViews.bump Versioning.compared
  by_cases hv : v = 0
  · rw [if_pos (hzero hv)]
    simp only [hv, if_true]
    exact ⟨base, rfl, rfl⟩
  · have hcount := h.countP hv (p := fun u => u.compares streamId && u.version = some v)
      fun u _ => by rw [Bool.and_eq_true, compares_iff hplain, decide_eq_true_iff, h.key]
    simp only [hv, if_false, hcount]
    split
    · exact ⟨_, rfl, flatMap_bumped _ _ base⟩
    · rfl

/-- An append to the SQLAlchemy store succeeds if and only if it expects the version of the
books, and is refused for its version otherwise. -/
theorem Filed.sqlAlchemy_insert (h : Filed streams books) (hnumbered : books.Numbered)
    (hne : events ≠ [])
    (happend : Appendable serde books streamId (.explicit v (some (v + events.length))) events) :
    if v = books.version streamId then
      ∃ streams', SqlAlchemyViews.insert (.ok ()) streamId
        (.explicit v (some (v + events.length))) events streams = .ok streams'
    else SqlAlchemyViews.insert (.ok ()) streamId (.explicit v (some (v + events.length))) events
        streams = .error (.concurrentStreamWriteError []) := by
  obtain ⟨_, heq, hconsecutive, hzero⟩ := happend.numbered
  cases heq
  have hplain := happend.plain
  obtain ⟨w, hopened, -⟩ := h.opened hnumbered hne hplain v
  have hfound := filter_of_columns hopened.keys hopened.mem fun u _ =>
    hopened.key ▸ @addressed_iff streamId u.toStreamHead hplain
  have heq : w.streamId.eq streamId = true := StreamId.eq_iff.2 (congrArg StreamId.key
    (streamId_of_columns hplain (hopened.unnamed w hopened.mem) hopened.key))
  have hchosen : SqlAlchemyStorageStrategy.chooseStream StreamView.toStreamHead streamId [w] =
      .ok w := by
    simp [SqlAlchemyStorageStrategy.chooseStream, SqlAlchemyStorageStrategy.checkName,
      hplain.name, Except.bind, heq]
  obtain ⟨c, hc, -⟩ := hopened.version
  have hvalid : (Versioning.explicit v (some (v + events.length))).validateIfCompatible
      w.version = .ok () := by
    rw [hc]
    rfl
  have hbump := hopened.sqlAlchemy_bump hplain (fun hv => by rw [hv, Books.version, hzero hv]; rfl)
    (some (v + events.length))
  unfold SqlAlchemyViews.insert
  simp only [Versioning.initialVersion, hfound, hchosen, hvalid, bind, Except.bind]
  split
  · rename_i hcurrent
    rw [if_pos hcurrent] at hbump
    obtain ⟨bumped, hbumped, hevents⟩ := hbump
    have huuids := hopened.uuidsFree happend hevents
    have hheld : ∀ body ∈ w.events, ∀ k ∈ body.version, k ≤ v := fun body hbody k hk =>
      hcurrent ▸ hopened.below body hbody k hk
    have hversions := versionsFree_of_consecutive hconsecutive hheld
    simp [hbumped, SqlAlchemyViews.store, huuids, hversions, Except.map]
  · rename_i hstale
    rw [if_neg hstale] at hbump
    rw [hbump]

/-- The events are stored in the stream that was found, whatever versions are set. -/
theorem Opened.django_store {versioning : Versioning} {w : StreamView}
    (h : Opened books streamId v base w) (hne : events ≠ [])
    (haddressed : ∀ raw ∈ events, raw.streamId = streamId)
    (happend : Appendable serde books streamId versioning events) (hit : StreamView → Bool)
    (version : Option ℤ) :
    (DjangoViews.store (.ok ()) events
      (base.map fun u => if hit u then { u with version } else u)).1 = .ok () := by
  obtain ⟨first, rest, rfl⟩ := List.exists_cons_of_ne_nil hne
  have hkey : ∀ u : StreamView, (if hit u then { u with version } else u).key = u.key := by
    intro u
    split <;> rfl
  have hfound : (base.map fun u => if hit u then { u with version } else u).filter
      (fun u => u.addressed first.streamId) = [if hit w then { w with version } else w] := by
    rw [haddressed first List.mem_cons_self, List.filter_map,
      filter_of_columns h.keys h.mem fun u _ => ?_]
    · rfl
    · rw [Function.comp_apply, addressed_iff happend.plain, h.key]
      exact Eq.congr_left (hkey u)
  have huuids := h.uuidsFree happend (flatMap_bumped hit version base)
  unfold DjangoViews.store
  simp only [List.head?_cons, hfound, DjangoStorageStrategy.getOne, huuids, if_true]

/-- An append to the Django store, before anything is rolled back. -/
theorem Filed.django_insert (h : Filed streams books) (hnumbered : books.Numbered)
    (hne : events ≠ []) (haddressed : ∀ raw ∈ events, raw.streamId = streamId)
    (happend : Appendable serde books streamId (.explicit v (some (v + events.length))) events) :
    (DjangoViews.insert (.ok ()) streamId (.explicit v (some (v + events.length))) events
      streams).1 =
    if v = books.version streamId then .ok () else .error (.concurrentStreamWriteError []) := by
  obtain ⟨_, heq, -, hzero⟩ := happend.numbered
  cases heq
  have hplain := happend.plain
  obtain ⟨w, hopened, hcreated⟩ := h.opened hnumbered hne hplain v
  have hstored := hopened.django_store hne haddressed happend
  have hname : DjangoStorageStrategy.checkName StreamView.toStreamHead streamId
      (streams.filter fun u => u.addressed streamId) = .ok () := by
    simp [DjangoStorageStrategy.checkName, StreamId.truthyName, hplain.name]
  obtain ⟨c, hc, -⟩ := hopened.version
  have hvalid : (Versioning.explicit v (some (v + events.length))).validateIfCompatible
      w.version = .ok () := by
    rw [hc]
    rfl
  unfold DjangoViews.insert DjangoViews.ensure
  simp only [hname, Versioning.initialVersion, hcreated, hvalid, Versioning.compared]
  by_cases hv : v = 0
  · have hcurrent : v = books.version streamId := by
      rw [hv, Books.version, hzero hv]
      rfl
    have hkept := hstored (fun _ => false) none
    simp only [Bool.false_eq_true, if_false, List.map_id'] at hkept
    simp only [if_pos hv, if_pos hcurrent]
    exact hkept
  · have hcount := hopened.countP hv (p := fun u => u.key = w.key && u.version = some v)
      fun u _ => by simp
    simp only [if_neg hv, hcount]
    by_cases hcurrent : v = books.version streamId
    · simp only [if_pos hcurrent, ne_eq, not_true, if_false]
      exact hstored _ _
    · simp [if_neg hcurrent]

theorem Filed.delete (h : Filed streams books) {p : StreamView → Bool}
    (hp : ∀ u ∈ streams, p u = true ↔ u.key = columns streamId) :
    Filed (streams.filter fun u => !p u) (books.write streamId []) := by
  have hmem : ∀ u ∈ streams.filter (fun u => !p u), u ∈ streams ∧ u.key ≠ columns streamId := by
    intro u hu
    obtain ⟨hu, hmiss⟩ := List.mem_filter.1 hu
    refine ⟨hu, fun hkey => ?_⟩
    rw [(hp u hu).2 hkey] at hmiss
    cases hmiss
  refine ⟨h.keys.sublist (List.filter_sublist.map _), fun u hu => h.unnamed u (hmem u hu).1,
    fun u hu => h.bare u (hmem u hu).1, fun u hu => h.started u (hmem u hu).1,
    fun u hu => h.version u (hmem u hu).1, fun u hu => ?_, fun key hsome => ?_,
    fun u hu body hbody => List.mem_append_left _ (h.uuids u (hmem u hu).1 body hbody)⟩
  · rw [write_of_ne (hmem u hu).2]
    exact h.events u (hmem u hu).1
  · by_cases hkey : key = columns streamId
    · rw [hkey] at hsome
      exact absurd (write_self streamId [] books) hsome
    · rw [write_of_ne hkey] at hsome
      obtain ⟨u, hu, rfl⟩ := h.held key hsome
      refine ⟨u, List.mem_filter.2 ⟨hu, ?_⟩, rfl⟩
      rw [Bool.not_eq_true', ← Bool.not_eq_true, hp u hu]
      exact hkey

end Writes

section Views
variable {E : Type} {dispatcher : Dispatcher E} {t : TenantId}

/-- The SQLAlchemy store as one tenant sees it. -/
theorem sqlAlchemy_filed (engine : Engine) (quiet : dispatcher.Quiet) :
    Conforms dispatcher.serde True (SqlAlchemyViews.strategy engine (dispatcher.accept t))
      Filed := by
  intro streams books r h hnumbered hproper hr
  cases r with
  | fetch streamId start stop =>
    refine ⟨congrArg (fun events => shown (.ok events)) ?_, h⟩
    exact h.sqlAlchemy_fetch hnumbered engine hr.plain
  | insert streamId versioning events =>
    obtain ⟨v, rfl, -⟩ := hr.numbered
    have hinsert := h.sqlAlchemy_insert hnumbered hproper.1 hr
    change shown ((SqlAlchemyViews.commit streams (SqlAlchemyViews.insert _ streamId _ events
        streams)).1.map fun _ => []) = ((insertEvents streamId _ events books).1.map fun _ => []) ∧
      Filed (SqlAlchemyViews.commit streams (SqlAlchemyViews.insert _ streamId _ events streams)).2
        (insertEvents streamId _ events books).2
    rw [hr.accept quiet]
    simp only [insertEvents, Versioning.expectedVersion, Option.some_inj]
    split
    · rename_i hcurrent
      rw [if_pos hcurrent] at hinsert
      obtain ⟨streams', hstreams⟩ := hinsert
      rw [hstreams]
      exact ⟨rfl, h.inserted hproper.1 hproper.2 hr
        (SqlAlchemyViews.insert_inserted h.keys hstreams)⟩
    · rename_i hstale
      rw [if_neg hstale] at hinsert
      rw [hinsert]
      exact ⟨rfl, h⟩
  | snapshot raw => exact hr.elim
  | delete streamId =>
    have hbare : streams.any (fun v => v.compares streamId && !v.snapshots.isEmpty) = false := by
      refine List.any_eq_false.2 fun v hv => ?_
      simp [h.bare v hv]
    change shown ((SqlAlchemyViews.commit streams
        (SqlAlchemyViews.delete engine streamId streams)).1.map fun _ => []) = _ ∧
      Filed (SqlAlchemyViews.commit streams (SqlAlchemyViews.delete engine streamId streams)).2 _
    rw [SqlAlchemyViews.delete, hbare, Bool.and_false, if_neg Bool.false_ne_true]
    exact ⟨rfl, h.delete fun v _ => compares_iff hr.2⟩

/-- The Django store as one tenant sees it, with a transaction for each request. -/
theorem django_filed (engine : Engine) (quiet : dispatcher.Quiet) :
    Conforms dispatcher.serde True (DjangoViews.ownStrategy engine (fun _ => dispatcher) true t)
      Filed := by
  intro streams books r h hnumbered hproper hr
  cases r with
  | fetch streamId start stop =>
    exact ⟨congrArg shown (h.django_fetch hnumbered engine hr.plain), h⟩
  | insert streamId versioning events =>
    obtain ⟨v, rfl, -⟩ := hr.numbered
    have hinsert := h.django_insert hnumbered hproper.1 hproper.2 hr
    change shown ((StorageStrategy.undo _ streams (DjangoViews.insert _ streamId _ events
        streams)).1.map fun _ => []) = ((insertEvents streamId _ events books).1.map fun _ => []) ∧
      Filed (StorageStrategy.undo (fun before _ => before) streams
        (DjangoViews.insert _ streamId _ events streams)).2 (insertEvents streamId _ events books).2
    rw [hr.accept quiet]
    revert hinsert
    cases hafter : DjangoViews.insert (.ok ()) streamId (.explicit v (some (v + events.length)))
      events streams with
    | mk answer streams' =>
      simp only [insertEvents, Versioning.expectedVersion, Option.some_inj]
      intro hinsert
      split
      · rename_i hcurrent
        rw [if_pos hcurrent] at hinsert
        subst hinsert
        exact ⟨rfl, h.inserted hproper.1 hproper.2 hr
          (DjangoViews.insert_inserted h.keys hproper.2 hafter)⟩
      · rename_i hstale
        rw [if_neg hstale] at hinsert
        subst hinsert
        exact ⟨rfl, h⟩
  | snapshot raw => exact hr.elim
  | delete streamId =>
    exact ⟨rfl, h.delete fun v _ => addressed_iff hr.2⟩

end Views

section Stores
variable {E : Type}

/-- The tables hold the streams of the books, and only one tenant's. -/
structure Stands (engine : Engine) (t : TenantId) (db : Database) (books : Books) : Prop where
  sound : db.Sound engine
  only : Only t db
  filed : Filed (db.view t) books

theorem stands_empty (engine : Engine) (t : TenantId) : Stands engine t {} {} where
  sound := Database.sound_empty engine
  only := fun _ _ => rfl
  filed := filed_empty

/-- Each SQL store, with one tenant and a transaction for each request, conforms to the
reference, deletions included. -/
theorem conforms (store : SqlStore E) (quiet : store.dispatcher.Quiet) :
    Conforms store.dispatcher.serde True store.storageStrategy
      (Stands store.engine store.tenantId) := by
  intro db books r h hnumbered hproper hr
  cases store with
  | sqlAlchemy strategy =>
    obtain ⟨engine, dispatcher, outbox, t⟩ := strategy
    have hmisses : SqlAlchemyViews.MissesOthers engine db (t, r) := by
      cases r with
      | fetch streamId start stop => trivial
      | insert streamId versioning events =>
        exact fun _ _ row hrow hother => absurd (h.only.tenantId hrow) hother
      | snapshot raw => exact hr.elim
      | delete streamId =>
        refine ⟨fun row hrow hother => absurd (h.only.tenantId hrow) hother,
          .inr (.inr fun snapshot hsnapshot => ?_)⟩
        refine List.any_eq_false.2 fun row hrow hp => ?_
        simp only [Bool.and_eq_true, decide_eq_true_eq] at hp
        have hbare := h.filed.bare _ (mem_view.2 ⟨row, hrow, h.only.tenantId hrow, rfl⟩)
        have hheld : snapshot.body ∈ (db.viewOf row).snapshots :=
          List.mem_map_of_mem (List.mem_filter.2 ⟨hsnapshot, by simp [hp.1]⟩)
        rw [hbare] at hheld
        cases hheld
    have hapart : SqlAlchemyViews.UuidsApart db (t, r) := by
      cases r with
      | fetch streamId start stop => trivial
      | insert streamId versioning events => exact h.only.eventsApart h.sound events
      | snapshot raw => exact hr.elim
      | delete streamId => trivial
    obtain ⟨hanswer, hsound, hview, hothers⟩ := SqlAlchemyViews.requestStep_effect engine
      (fun _ => dispatcher) outbox (fun _ => Dispatcher.Quiet.positionBlind quiet) h.sound hmisses
      hapart
    obtain ⟨hshown, hfiled⟩ := sqlAlchemy_filed engine quiet _ books r h.filed hnumbered hproper hr
    exact ⟨(congrArg shown hanswer).trans hshown, hsound,
      fun u hu => (hothers u hu).trans (h.only u hu), hview ▸ hfiled⟩
  | django strategy =>
    obtain ⟨engine, dispatcher, outbox, t⟩ := strategy
    have hapart : DjangoViews.Apart db (t, r) := by
      cases r with
      | fetch streamId start stop => trivial
      | insert streamId versioning events => exact h.only.eventsApart h.sound events
      | snapshot raw => exact hr.elim
      | delete streamId => trivial
    obtain ⟨hanswer, hsound, hview, hothers⟩ := DjangoViews.requestStep_effect engine
      (fun _ => dispatcher) outbox true (fun _ => Dispatcher.Quiet.positionBlind quiet) h.sound
      hapart
    obtain ⟨hshown, hfiled⟩ := django_filed engine quiet _ books r h.filed hnumbered hproper hr
    exact ⟨(congrArg shown hanswer).trans hshown, hsound,
      fun u hu => (hothers u hu).trans (h.only u hu), hview ▸ hfiled⟩

end Stores

end EventSourcery.Sql.SqlConformance
