import EventSourcery.SqlStores

/-!
# The last versions of streams

The row of a stream has a version of its own, which is written when the row is created and
by the version bump only. An append that succeeds leaves it at the version of the event that
is read last if and only if it is in step: its last version is not behind the one that it
expects, nor ahead of the row when it expects 0, and events of a stream without versions
have none.
-/
namespace EventSourcery.Sql.LastVersions
open EventStore Runs AppendAttempts

section Order
variable {engine : Engine} {bodies more : List EventBody} {version last : Option ℤ}

@[simp] theorem versionLe_refl (version : Option ℤ) : versionLe engine version version = true := by
  cases version <;> simp [versionLe]

theorem versionLe_total (a b : Option ℤ) :
    versionLe engine a b = true ∨ versionLe engine b a = true := by
  cases a <;> cases b
  · exact .inl rfl
  · cases h : engine.nullsFirst <;> simp [versionLe, h]
  · cases h : engine.nullsFirst <;> simp [versionLe, h]
  · simpa [versionLe] using le_total _ _

theorem versionLe_trans {a b c : Option ℤ} (hab : versionLe engine a b = true)
    (hbc : versionLe engine b c = true) : versionLe engine a c = true := by
  cases a <;> cases b <;> cases c <;> simp_all [versionLe]
  omega

theorem versionLe_antisymm {a b : Option ℤ} (hab : versionLe engine a b = true)
    (hba : versionLe engine b a = true) : a = b := by
  cases a <;> cases b <;> simp_all [versionLe]
  omega

theorem versionLe_none : versionLe engine version none = true ↔
    version = none ∨ engine.nullsFirst = false := by
  cases version <;> simp [versionLe]

/-- The events of a stream in the order in which they are read. -/
def inOrder (engine : Engine) (bodies : List EventBody) : List EventBody :=
  bodies.insertionSort fun x y => versionLe engine x.version y.version

/-- The version of the event that is read last. -/
def IsLast (engine : Engine) (bodies : List EventBody) (version : Option ℤ) : Prop :=
  (inOrder engine bodies).getLast?.map (·.version) = some version

/-- `ORDER BY version` gives rows in order. -/
theorem pairwise_insertionSort {α : Type} (engine : Engine) (body : α → EventBody)
    (rows : List α) :
    (rows.insertionSort fun x y => versionLe engine (body x).version (body y).version).Pairwise
      fun x y => versionLe engine (body x).version (body y).version := by
  have htrans : IsTrans α fun x y => versionLe engine (body x).version (body y).version :=
    ⟨fun _ _ _ h h' => versionLe_trans h h'⟩
  have htotal : Std.Total fun x y : α => versionLe engine (body x).version (body y).version :=
    ⟨fun _ _ => versionLe_total _ _⟩
  exact List.pairwise_insertionSort _ _

theorem pairwise_inOrder (engine : Engine) (bodies : List EventBody) :
    (inOrder engine bodies).Pairwise fun x y => versionLe engine x.version y.version :=
  pairwise_insertionSort engine id bodies

theorem mem_inOrder {body : EventBody} : body ∈ inOrder engine bodies ↔ body ∈ bodies :=
  List.mem_insertionSort _

/-- The event that is read last has a version that no other one is behind. -/
theorem isLast_iff : IsLast engine bodies version ↔
    (∃ body ∈ bodies, body.version = version) ∧
      ∀ body ∈ bodies, versionLe engine body.version version := by
  have hsorted := pairwise_inOrder engine bodies
  unfold IsLast
  rcases List.eq_nil_or_concat (inOrder engine bodies) with hnil | ⟨front, final, hsplit⟩
  · rw [hnil]
    constructor
    · intro h
      cases h
    · intro ⟨⟨body, hbody, _⟩, _⟩
      rw [← @mem_inOrder engine, hnil] at hbody
      cases hbody
  · rw [List.concat_eq_append] at hsplit
    rw [hsplit] at hsorted ⊢
    have hfinal : final ∈ bodies := by
      rw [← mem_inOrder, hsplit]
      simp
    have hbehind : ∀ body ∈ bodies, versionLe engine body.version final.version := by
      intro body hbody
      rw [← mem_inOrder, hsplit] at hbody
      rcases List.mem_append.1 hbody with hbody | hbody
      · exact (List.pairwise_append.1 hsorted).2.2 body hbody final (by simp)
      · rw [List.mem_singleton.1 hbody]
        exact versionLe_refl _
    rw [List.getLast?_concat, Option.map_some, Option.some.injEq]
    constructor
    · intro h
      exact ⟨⟨final, hfinal, h⟩, fun body hbody => h ▸ hbehind body hbody⟩
    · intro ⟨⟨body, hbody, hversion⟩, hall⟩
      exact versionLe_antisymm (hall final hfinal) (hversion ▸ hbehind body hbody)

theorem IsLast.unique (h : IsLast engine bodies version) :
    IsLast engine bodies last ↔ last = version := by
  constructor
  · intro h'
    exact Option.some.inj (h'.symm.trans h)
  · intro hlast
    exact hlast ▸ h

/-- The last version stays when no new event is behind it. -/
theorem isLast_append_left (h : IsLast engine bodies version) (hmore : IsLast engine more last) :
    IsLast engine (bodies ++ more) version ↔ versionLe engine last version := by
  rw [isLast_iff] at *
  obtain ⟨⟨body, hbody, hversion⟩, hall⟩ := h
  obtain ⟨⟨new, hnew, hnewVersion⟩, hmoreAll⟩ := hmore
  constructor
  · intro h'
    exact hnewVersion ▸ h'.2 new (List.mem_append_right _ hnew)
  · intro hle
    refine ⟨⟨body, List.mem_append_left _ hbody, hversion⟩, fun other hother => ?_⟩
    rcases List.mem_append.1 hother with hother | hother
    · exact hall other hother
    · exact versionLe_trans (hmoreAll other hother) hle

/-- The last version of new events is the last of all when it is not behind the old one. -/
theorem isLast_append_right (h : IsLast engine bodies version) (hmore : IsLast engine more last) :
    IsLast engine (bodies ++ more) last ↔ versionLe engine version last := by
  have hiff := isLast_append_left hmore h
  rw [isLast_iff] at hiff ⊢
  rw [← hiff]
  simp only [List.mem_append, or_comm]

end Order

section Condition
variable {E : Type} (engine : Engine)

/-- The wrapped events of an append have strictly increasing versions; those of bare events
are numbered by the store. -/
def Increasing : Call E → Prop
  | .append first events _ _ => ∃ versions : List ℤ,
      (first :: events).map (·.version) = versions.map some ∧ versions.Pairwise (· < ·)
  | .appendEvents _ _ _ _ => True
  | _ => False

/-- New events whose last version is given leave the version of their row behind no event. -/
def KeepsVersion (streamId : StreamId) (expected : ExpectedVersion) (last : Option ℤ)
    (heads : List StreamHead) : Prop :=
  match expected with
  | .noVersioning =>
      last = none ∨ engine.nullsFirst = false ∧ ∃ head ∈ heads, head.key = columns streamId
  | .version expected =>
      if expected = 0 then
        ∀ head ∈ heads, head.key = columns streamId → versionLe engine last head.version
      else versionLe engine (some expected) last

/-- The append keeps the version of the row with the last version of the stream. -/
def InStep (db : Database) : Call E → Prop
  | .append first events streamId expected =>
      KeepsVersion engine streamId expected
        ((first :: events).getLast (List.cons_ne_nil first events)).version
        (db.streams.map (·.toStreamHead))
  | .appendEvents _ events streamId expected =>
      KeepsVersion engine streamId expected (expected.versionAt events.length)
        (db.streams.map (·.toStreamHead))
  | _ => True

/-- Every row has the version of the event of its stream that is read last. -/
def RowsAgree (db : Database) : Prop :=
  ∀ row ∈ db.streams, IsLast engine (db.eventsOf row.id) row.version

instance (streamId : StreamId) (expected : ExpectedVersion) (last : Option ℤ)
    (heads : List StreamHead) : Decidable (KeepsVersion engine streamId expected last heads) := by
  unfold KeepsVersion
  split <;> infer_instance

instance (db : Database) (call : Call E) : Decidable (InStep engine db call) := by
  unfold InStep
  split <;> infer_instance

instance (db : Database) : Decidable (RowsAgree engine db) := by
  unfold RowsAgree IsLast
  infer_instance

end Condition

/-- The versioning that an append makes of the expected version and its last event. -/
def versioningFor (last : Option ℤ) : ExpectedVersion → Versioning
  | .version v => .explicit v last
  | .noVersioning => .noVersioning

section Requests
variable {E : Type} {engine : Engine} {serde : Serde E}

/-- Strictly increasing versions end with the largest. -/
theorem isLast_of_pairwise {bodies : List EventBody} (versions : List ℤ) {last : ℤ}
    (hbodies : bodies.map (·.version) = versions.map some) (hversions : versions.Pairwise (· < ·))
    (hlast : versions.getLast? = some last) : IsLast engine bodies (some last) := by
  obtain ⟨front, rfl⟩ := List.getLast?_eq_some_iff.1 hlast
  rw [isLast_iff]
  constructor
  · have hmem : some last ∈ bodies.map (·.version) := by
      rw [hbodies]
      simp
    exact List.mem_map.1 hmem
  · intro body hbody
    have hmem : body.version ∈ (front ++ [last]).map some := by
      rw [← hbodies]
      exact List.mem_map_of_mem hbody
    obtain ⟨version, hversion, heq⟩ := List.mem_map.1 hmem
    rw [← heq]
    rcases List.mem_append.1 hversion with hfront | hfinal
    · have hlt := (List.pairwise_append.1 hversions).2.2 version hfront last (by simp)
      simp [versionLe, hlt.le]
    · rw [List.mem_singleton.1 hfinal]
      exact versionLe_refl _

theorem isLast_of_none {bodies : List EventBody} (hne : bodies ≠ [])
    (hbodies : ∀ body ∈ bodies, body.version = none) : IsLast engine bodies none := by
  obtain ⟨body, rest, rfl⟩ := List.exists_cons_of_ne_nil hne
  rw [isLast_iff]
  refine ⟨⟨body, by simp, hbodies body (by simp)⟩, fun other hother => ?_⟩
  rw [hbodies other hother]
  exact versionLe_refl _

/-- The versions of an attempt end with the one of its last event. -/
theorem isLast_attempt {a : Attempt E} {bodies : List EventBody}
    (hbodies : bodies.map (·.version) = a.versions) :
    IsLast engine bodies (a.expected.versionAt a.events.length) := by
  cases hexpected : a.expected with
  | noVersioning =>
    apply isLast_of_none
    · rintro rfl
      simp [Attempt.versions, Attempt.count] at hbodies
    · intro body hbody
      have hmem : body.version ∈ a.versions := hbodies ▸ List.mem_map_of_mem hbody
      simp only [Attempt.versions, hexpected, ExpectedVersion.versionAt, List.mem_map] at hmem
      obtain ⟨i, -, hnone⟩ := hmem
      exact hnone.symm
  | version v =>
    apply isLast_of_pairwise ((List.range a.count).map fun i : ℕ => v + 1 + i)
    · rw [hbodies, Attempt.versions, hexpected, List.map_map]
      rfl
    · rw [List.pairwise_map]
      exact List.pairwise_lt_range.imp fun h => by omega
    · rw [Attempt.count, List.range_succ]
      simp

theorem versioning_attempt (a : Attempt E) :
    a.versioning = versioningFor (a.expected.versionAt a.events.length) a.expected := by
  unfold Attempt.versioning versioningFor
  cases a.expected with
  | noVersioning => rfl
  | version v =>
    simp only [ExpectedVersion.versionAt, Attempt.count]
    congr 2
    push_cast
    omega

/-- What an append asks for, when its events can be serialized. -/
theorem request_increasing {call : Call E} {r : Request} (h : Increasing call)
    (hr : request serde call = .ok r) : ∃ streamId expected last raws,
      r = .insert streamId (versioningFor last expected) raws ∧
      (∀ raw ∈ raws, raw.streamId = streamId) ∧ IsLast engine (raws.map .ofRaw) last ∧
      ∀ db, InStep engine db call ↔
        KeepsVersion engine streamId expected last (db.streams.map (·.toStreamHead)) := by
  have hproper := request_proper hr
  cases call with
  | append first events streamId expected =>
    obtain ⟨versions, hversions, hincreasing⟩ := h
    obtain ⟨raws, hraws, rfl⟩ := map_eq_ok.1 hr
    refine ⟨streamId, expected, _, raws, ?_, hproper.2, ?_, fun db => Iff.rfl⟩
    · cases expected <;> rfl
    · have hbodies : (raws.map EventBody.ofRaw).map (·.version) = versions.map some := by
        rw [← hversions, ← serde.serializeMany_version hraws, List.map_map]
        rfl
      have hlast : versions.getLast?.map some =
          some ((first :: events).getLast (by simp)).version := by
        rw [← List.getLast?_map, ← hversions, List.getLast?_map,
          List.getLast?_eq_some_getLast (List.cons_ne_nil first events)]
        rfl
      obtain ⟨last, hfinal, hsome⟩ := Option.map_eq_some_iff.1 hlast
      rw [← hsome]
      exact isLast_of_pairwise versions hbodies hincreasing hfinal
  | appendEvents first events streamId expected =>
    let a : Attempt E := ⟨first, events, streamId, expected⟩
    obtain ⟨raws, rfl, hraws⟩ := @request_attempt E serde a r hr
    refine ⟨streamId, expected, _, raws, ?_, hproper.2, ?_, fun db => Iff.rfl⟩
    · rw [versioning_attempt a]
    · apply @isLast_attempt E engine a
      rw [← hraws, List.map_map]
      rfl
  | _ => cases h

end Requests

section Steps
variable {engine : Engine} {streams streams' : Streams} {streamId : StreamId}
  {expected : ExpectedVersion} {last : Option ℤ} {bodies : List EventBody}

/-- Every stream of a view has the version of its last event. -/
def Agree (engine : Engine) (streams : Streams) : Prop :=
  ∀ v ∈ streams, IsLast engine v.events v.version

theorem agree_modify {key : Uuid × String} {f : StreamView → StreamView}
    (hkeys : (streams.map (·.key)).Nodup)
    (hothers : ∀ v ∈ streams, v.key ≠ key → IsLast engine v.events v.version) {v : StreamView}
    (hv : v ∈ streams) (hkey : v.key = key) :
    Agree engine (modify key f streams) ↔ IsLast engine (f v).events (f v).version := by
  constructor
  · intro h
    exact h (f v) (List.mem_map.2 ⟨v, hv, if_pos hkey⟩)
  · intro h w' hw'
    obtain ⟨w, hw, rfl⟩ := List.mem_map.1 hw'
    by_cases hwkey : w.key = key
    · rw [if_pos hwkey, List.inj_on_of_nodup_map hkeys hw hv (hwkey.trans hkey.symm)]
      exact h
    · rw [if_neg hwkey]
      exact hothers w hw hwkey

/-- An append to a stream that is there. -/
theorem agree_held (hkeys : (streams.map (·.key)).Nodup) (hlast : IsLast engine bodies last)
    {v : StreamView} (hv : v ∈ streams) (hagrees : IsLast engine v.events v.version)
    (hadmitted : Admitted streamId (versioningFor last expected) v) :
    IsLast engine (advanceBy (versioningFor last expected) bodies v).events
        (advanceBy (versioningFor last expected) bodies v).version ↔
      KeepsVersion engine streamId expected last (streams.map (·.toStreamHead)) := by
  obtain ⟨hkey, hcompatible, hcompared⟩ := hadmitted
  cases expected with
  | noVersioning =>
    have hnone : v.version = none := by
      cases hversion : v.version with
      | none => rfl
      | some version =>
        rw [hversion] at hcompatible
        cases hcompatible
    rw [hnone] at hagrees
    have hiff := isLast_append_left hagrees hlast
    simp only [advanceBy, versioningFor, Versioning.compared, if_true, hnone, hiff, versionLe_none,
      KeepsVersion]
    have hheld : ∃ head ∈ streams.map (·.toStreamHead), head.key = columns streamId :=
      ⟨_, List.mem_map_of_mem hv, hkey⟩
    rw [and_iff_left hheld]
  | version e =>
    by_cases hzero : e = 0
    · have hiff := isLast_append_left hagrees hlast
      simp only [advanceBy, versioningFor, Versioning.compared, hzero, if_true, hiff, KeepsVersion]
      constructor
      · intro hle head hhead hheadKey
        obtain ⟨w, hw, rfl⟩ := List.mem_map.1 hhead
        rwa [List.inj_on_of_nodup_map hkeys hw hv (hheadKey.trans hkey.symm)]
      · intro h
        exact h _ (List.mem_map_of_mem hv) hkey
    · have hversion : v.version = some e := by
        apply hcompared
        simp [versioningFor, Versioning.compared, hzero]
      rw [hversion] at hagrees
      have hiff := isLast_append_right hagrees hlast
      simp only [advanceBy, versioningFor, Versioning.compared, hzero, if_false, KeepsVersion,
        Versioning.initialVersion, reduceCtorEq, hiff]

/-- An append that creates its stream. -/
theorem agree_created (hlast : IsLast engine bodies last)
    (hfree : ∀ v ∈ streams, v.key ≠ columns streamId) {v : StreamView}
    (hv : v = createdStream streamId (versioningFor last expected).initialVersion)
    (hadmitted : Admitted streamId (versioningFor last expected) v) :
    IsLast engine (advanceBy (versioningFor last expected) bodies v).events
        (advanceBy (versioningFor last expected) bodies v).version ↔
      KeepsVersion engine streamId expected last (streams.map (·.toStreamHead)) := by
  have hevents : (advanceBy (versioningFor last expected) bodies v).events = bodies := by
    rw [hv]
    rfl
  have hversion : (advanceBy (versioningFor last expected) bodies v).version =
      (versioningFor last expected).initialVersion := by
    rw [hv]
    exact ite_self _
  have hnone : ¬ ∃ head ∈ streams.map (·.toStreamHead), head.key = columns streamId := by
    intro ⟨head, hhead, hkey⟩
    obtain ⟨w, hw, rfl⟩ := List.mem_map.1 hhead
    exact hfree w hw hkey
  rw [hevents, hversion, hlast.unique]
  cases expected with
  | noVersioning =>
    simp only [versioningFor, Versioning.initialVersion, KeepsVersion, hnone, and_false, or_false]
    exact eq_comm
  | version e =>
    simp only [versioningFor, Versioning.initialVersion, KeepsVersion, true_iff]
    by_cases hzero : e = 0
    · rw [if_pos hzero]
      exact fun head hhead hkey => absurd ⟨head, hhead, hkey⟩ hnone
    · rw [if_neg hzero]
      have hcompared := hadmitted.compared e (by
        simp [versioningFor, Versioning.compared, hzero])
      rw [hv] at hcompared
      have hlastEq : last = some e := hcompared
      rw [hlastEq]
      exact versionLe_refl _

/-- Where rows agree, an insertion keeps them so if and only if it is in step. -/
theorem agree_inserted (hkeys : (streams.map (·.key)).Nodup) (hagree : Agree engine streams)
    (hlast : IsLast engine bodies last)
    (h : Inserted streamId (versioningFor last expected) bodies streams streams') :
    Agree engine streams' ↔
      KeepsVersion engine streamId expected last (streams.map (·.toStreamHead)) := by
  obtain ⟨base, hsearched, ⟨v, hv, hadmitted⟩, rfl⟩ := h
  rw [agree_modify (hsearched.keys hkeys)
    (fun w hw hkey => hagree w (hsearched.mem hw hkey)) hv hadmitted.key]
  rcases hsearched with rfl | ⟨hfree, rfl⟩
  · exact agree_held hkeys hlast hv (hagree v hv) hadmitted
  · have hother : ∀ w ∈ streams, w.key ≠ columns streamId :=
      fun w hw => ne_columns_of_not_clashes (hfree w hw)
    rcases List.mem_append.1 hv with hold | hnew
    · exact absurd hadmitted.key (hother v hold)
    · exact agree_created hlast hother (List.mem_singleton.1 hnew) hadmitted

end Steps

end EventSourcery.Sql.LastVersions
