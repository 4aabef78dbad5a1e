import EventSourcery.LastVersions
import EventSourcery.Replay
import EventSourcery.SqlStores

/-!
# Ranged reads of the SQL stores

A ranged read begins with the newest snapshot in the range, if there is one, and leaves out
the events that the snapshot covers. Which snapshot is the newest depends on when they were
made, and not on their versions. As long as each of them is faithful to the events, the rows of
the read still lead from the state at the start of the range to the state at its stop.
-/
namespace EventSourcery.Sql.RangedReads
open LastVersions Replay

def version (body : EventBody) : ℤ := body.version.getD 0

/-- The events have distinct integer versions. -/
structure Versioned (events : List EventBody) : Prop where
  given : ∀ body ∈ events, body.version ≠ none
  distinct : (events.map version).Nodup

theorem Versioned.eq_some {events : List EventBody} (h : Versioned events) {body : EventBody}
    (hbody : body ∈ events) : body.version = some (version body) := by
  obtain ⟨n, hn⟩ := Option.ne_none_iff_exists'.1 (h.given body hbody)
  simp [version, hn]

/-- The rows that are selected come in the order of the versions. -/
theorem inOrder_filter {events : List EventBody} (h : Versioned events) (engine : Engine)
    {p q : EventBody → Bool} (hpq : ∀ body ∈ events, p body = q body) :
    inOrder engine (events.filter p) = (ordered version events).filter q := by
  have hmem : ∀ {body}, body ∈ inOrder engine (events.filter p) → body ∈ events := fun hbody =>
    List.mem_of_mem_filter (mem_inOrder.1 hbody)
  refine eq_of_sorted h.distinct ?_ ((pairwise_ordered version events).filter q) ?_
    fun body hbody => hmem hbody
  · refine (pairwise_inOrder engine _).imp_of_mem fun {x y} hx hy hle => ?_
    rw [h.eq_some (hmem hx), h.eq_some (hmem hy)] at hle
    simpa [versionLe] using hle
  · rw [List.filter_congr hpq]
    exact (List.perm_insertionSort _ _).trans ((ordered_perm version events).filter q).symm

section Stream
variable {σ : Type} (apply : σ → RawEvent → σ) (initial : σ)

/-- The application of a row of the stream. -/
def applyRow (stream : StreamView) (state : σ) (body : EventBody) : σ :=
  apply state (toRaw stream.toStreamHead body)

/-- Every snapshot leads to the state after the events up to its version. -/
def Faithful (stream : StreamView) : Prop :=
  ∀ body ∈ stream.snapshots, ∃ s, body.version = some s ∧ ∀ state,
    applyRow apply stream state body =
      stateAfter (applyRow apply stream) initial version (· ≤ s) stream.events

variable {apply initial} {stream : StreamView} {start stop : Option ℤ}

/-- The newest snapshot in the range may be any of those in the range. -/
theorem foldl_fetchRows (h : Versioned stream.events) (hfaithful : Faithful apply initial stream)
    (hbounds : ∀ a ∈ start, ∀ b ∈ stop, a ≤ b) (engine : Engine) :
    (fetchRows engine id start stop stream.events stream.snapshots).foldl (applyRow apply stream)
        (stateFrom (applyRow apply stream) initial version start stream.events) =
      stateUntil (applyRow apply stream) initial version stop stream.events := by
  have hwindow : ∀ body ∈ stream.events, inWindow start stop body.version =
      decide (InRange start stop (version body)) := fun body hbody => by
    rw [h.eq_some hbody, inWindow_some]
  unfold fetchRows
  dsimp only
  split
  · have hrows := inOrder_filter h engine hwindow
    exact (congrArg (List.foldl _ _) hrows).trans (replay_range hbounds _)
  · rename_i snapshot hnewest
    obtain ⟨hmem, hrange⟩ :=
      List.mem_filter.1 ((List.mem_insertionSort _).1 (List.mem_of_head? hnewest))
    obtain ⟨s, hs, hstate⟩ := hfaithful snapshot hmem
    have hin : InRange start stop s := by
      simpa [hs, inWindow_some] using hrange
    have hrows := inOrder_filter h engine
      (p := fun body => body.version.any (fun n => snapshot.version.any (· < n)) &&
        inWindow start stop body.version)
      (q := fun body => InRange start stop (version body) ∧ s < version body) fun body hbody => by
        rw [hwindow body hbody, h.eq_some hbody, hs]
        simp [and_comm]
    rw [List.filter_filter]
    exact (congrArg (fun rows => List.foldl _ _ (snapshot :: rows)) hrows).trans
      (replay_snapshot hstate hin _)

end Stream

section Reads
variable {E : Type} {store : SqlStore E} {db : Database} {streamId : StreamId} {stream : StreamView}

/-- A ranged read that finds one stream leads from the state after the events before its start
to the state after the events before its stop. -/
theorem rangedReads_transparent {σ : Type} {apply : σ → RawEvent → σ} {initial : σ}
    (hkeys : db.UniqueKeys) (hfound : (db.view store.tenantId).filter
      (fun v => store.selects streamId v.toStreamHead) = [stream])
    (hversions : Versioned stream.events) (hfaithful : Faithful apply initial stream)
    {start stop : Option ℤ} (hbounds : ∀ a ∈ start, ∀ b ∈ stop, a ≤ b) :
    ∃ raws, store.storageStrategy.fetchEvents streamId start stop db = .ok raws ∧
      raws.foldl apply (stateFrom (applyRow apply stream) initial version start stream.events) =
        stateUntil (applyRow apply stream) initial version stop stream.events := by
  refine ⟨_, store.fetchEvents_of_one hkeys hfound start stop, ?_⟩
  rw [List.foldl_map]
  exact foldl_fetchRows hversions hfaithful hbounds store.engine

end Reads

section Example
open Tenants

def eventBody (uuid : Uuid) (version : ℤ) : EventBody :=
  { uuid, createdAt := 0, version := some version, name := "Event", data := [], eventContext := [] }

def snapshotBody (uuid : Uuid) (version : ℤ) (createdAt : Timestamp) : EventBody :=
  { uuid, createdAt, version := some version, name := "Snapshot", data := [], eventContext := [] }

def orderRow : StreamRow :=
  { StreamHead.ofStreamId order (some 7) with id := 1, tenantId := defaultTenant }

/-- Events of the versions 2, 3, 5 and 7, and snapshots of 7, 5 and 3, the last one the newest. -/
def snapshotted : Database :=
  { streams := [orderRow]
    events := [⟨1, 1, eventBody 1 2⟩, ⟨2, 1, eventBody 2 3⟩, ⟨3, 1, eventBody 3 5⟩,
      ⟨4, 1, eventBody 4 7⟩]
    snapshots := [⟨1, snapshotBody 11 7 10⟩, ⟨1, snapshotBody 12 5 20⟩, ⟨1, snapshotBody 13 3 30⟩] }

/-- The versions that were applied, which a snapshot has from the beginning. -/
def applyVersion (versions : List ℤ) (raw : RawEvent) : List ℤ :=
  let version := raw.version.getD 0
  if raw.name = "Snapshot" then [2, 3, 5, 7].filter (· ≤ version) else versions ++ [version]

theorem faithful_snapshotted : Faithful applyVersion [] (snapshotted.viewOf orderRow) := by
  intro body hbody
  have hmem : body ∈ [snapshotBody 11 7 10, snapshotBody 12 5 20, snapshotBody 13 3 30] := hbody
  simp only [List.mem_cons, List.not_mem_nil, or_false] at hmem
  rcases hmem with rfl | rfl | rfl
  · exact ⟨7, rfl, fun _ => rfl⟩
  · exact ⟨5, rfl, fun _ => rfl⟩
  · exact ⟨3, rfl, fun _ => rfl⟩

/-- The read from 3 to 7 begins with the snapshot of version 3, and then has event 5. -/
theorem rangedReads_transparent_newest :
    let store : SqlStore Unit := .django ⟨sqlite, plainDispatcher, none, defaultTenant⟩
    ∃ raws, store.storageStrategy.fetchEvents order (some 3) (some 7) snapshotted = .ok raws ∧
      raws.foldl applyVersion [2] = [2, 3, 5] := by
  intro store
  have hkeys : snapshotted.UniqueKeys := ⟨by decide, by decide⟩
  have hversions : Versioned (snapshotted.viewOf orderRow).events := ⟨by decide, by decide⟩
  have hbounds : ∀ a ∈ some (3 : ℤ), ∀ b ∈ some (7 : ℤ), a ≤ b := by simp
  have hfound : (snapshotted.view store.tenantId).filter
      (fun v => store.selects order v.toStreamHead) = [snapshotted.viewOf orderRow] := by decide
  exact rangedReads_transparent hkeys hfound hversions faithful_snapshotted hbounds

end Example

end EventSourcery.Sql.RangedReads
