import EventSourcery.DjangoViews
import EventSourcery.SqlAlchemyViews

/-!
# Insertions into a tenant's streams

An insertion that succeeds does the same to a tenant's streams on both stores: it finds its
stream or creates it, compares the expected version, unless it is 0, and adds the events.
-/
namespace EventSourcery.Sql

/-- The columns of a stream id that the tables tell streams apart by. -/
def columns (streamId : StreamId) : Uuid × String := (streamId.uuid, streamId.categoryText)

theorem columns_streamId (head : StreamHead) : columns head.streamId = head.key := by
  refine Prod.ext rfl ?_
  by_cases hcategory : head.category = "" <;>
    simp [columns, StreamHead.streamId, StreamId.categoryText, hcategory, StreamHead.key]

/-- A stream as it is created. -/
def createdStream (streamId : StreamId) (initialVersion : Option ℤ) : StreamView :=
  { StreamHead.ofStreamId streamId initialVersion with events := [], snapshots := [] }

/-- The streams after the search for one, which is created when none is in its way. -/
def Searched (streamId : StreamId) (initialVersion : Option ℤ) (streams base : Streams) : Prop :=
  base = streams ∨
    (∀ v ∈ streams,
      (StreamHead.ofStreamId streamId initialVersion).clashes v.toStreamHead = false) ∧
    base = streams ++ [createdStream streamId initialVersion]

/-- A stream with the version that an insertion bumps it to, and its events. -/
def advanceBy (versioning : Versioning) (bodies : List EventBody) (v : StreamView) : StreamView :=
  { v with
    version := if versioning.compared = none then v.version else versioning.initialVersion
    events := v.events ++ bodies }

/-- An insertion does not mind the version of the stream. -/
structure Admitted (streamId : StreamId) (versioning : Versioning) (v : StreamView) : Prop where
  key : v.key = columns streamId
  compatible : versioning.validateIfCompatible v.version = .ok ()
  compared : ∀ e ∈ versioning.compared, v.version = some e

/-- The streams after an insertion that succeeds. -/
def Inserted (streamId : StreamId) (versioning : Versioning) (bodies : List EventBody)
    (streams streams' : Streams) : Prop :=
  ∃ base, Searched streamId versioning.initialVersion streams base ∧
    (∃ v ∈ base, Admitted streamId versioning v) ∧
    streams' = modify (columns streamId) (advanceBy versioning bodies) base

/-- A selection that one element meets. -/
theorem filter_eq_singleton {α : Type} [DecidableEq α] {p : α → Bool} {xs : List α} {x : α}
    (hnodup : xs.Nodup) (hx : x ∈ xs) (hp : ∀ y ∈ xs, p y = true ↔ y = x) : xs.filter p = [x] := by
  have hcongr : xs.filter p = xs.filter fun y => y = x := by
    apply List.filter_congr
    intro y hy
    rw [Bool.eq_iff_iff, hp y hy, decide_eq_true_iff]
  rw [hcongr, List.filter_eq, List.count_eq_one_of_mem hnodup hx]
  rfl

section Search
variable {streamId : StreamId} {version : Option ℤ} {streams base : Streams}

theorem columns_of_eq {head : StreamHead} (h : head.streamId.eq streamId) :
    head.key = columns streamId := by
  have hkey := StreamId.eq_iff.1 h
  simp only [StreamId.key, StreamHead.streamId, Prod.mk.injEq] at hkey
  refine Prod.ext hkey.1 ?_
  rw [columns, StreamId.categoryText, ← hkey.2]
  by_cases hcategory : head.category = "" <;> simp [hcategory, StreamHead.key]

theorem streamId_eq_of_columns {head : StreamHead} (hkey : head.key = columns streamId)
    (hcategory : streamId.category ≠ some "") : head.streamId.eq streamId := by
  simp only [StreamHead.key, columns, StreamId.categoryText, Prod.mk.injEq] at hkey
  rw [StreamId.eq_iff, StreamId.key, StreamId.key, StreamHead.streamId]
  refine Prod.ext hkey.1 ?_
  rw [hkey.2]
  cases hsome : streamId.category with
  | none => rfl
  | some category =>
    have hne : category ≠ "" := fun h => hcategory (h ▸ hsome)
    simp [hne]

theorem columns_of_compares {head : StreamHead} (h : head.compares streamId) :
    head.key = columns streamId := by
  simp only [StreamHead.compares, Bool.and_eq_true, decide_eq_true_eq] at h
  exact Prod.ext h.1.1 h.2

theorem addressed_of_columns {head : StreamHead} (h : head.key = columns streamId) :
    head.addressed streamId = true := by
  simp only [StreamHead.key, columns, Prod.mk.injEq] at h
  simp [StreamHead.addressed, h.1, h.2]

/-- A stream that is in nobody's way has a key of its own. -/
theorem ne_columns_of_not_clashes {version : Option ℤ} {head : StreamHead}
    (h : (StreamHead.ofStreamId streamId version).clashes head = false) :
    head.key ≠ columns streamId := by
  intro hkey
  have hclash : (StreamHead.ofStreamId streamId version).clashes head = true :=
    StreamHead.clashes_of_key hkey
  rw [h] at hclash
  cases hclash

/-- A stream with the columns of a stream id is the one that its lookup finds. -/
theorem columns_of_getOne {v w : StreamView} (hw : w ∈ streams) (hkey : w.key = columns streamId)
    (h : DjangoStorageStrategy.getOne (streams.filter fun v => v.addressed streamId) = .ok v) :
    v.key = columns streamId := by
  have hfound : w ∈ streams.filter fun v => v.addressed streamId :=
    List.mem_filter.2 ⟨hw, addressed_of_columns hkey⟩
  rw [DjangoStorageStrategy.getOne_eq_ok h, List.mem_singleton] at hfound
  rw [← hfound, hkey]

theorem Searched.mem (h : Searched streamId version streams base) {v : StreamView}
    (hv : v ∈ base) (hkey : v.key ≠ columns streamId) : v ∈ streams := by
  rcases h with rfl | ⟨-, rfl⟩
  · exact hv
  · rcases List.mem_append.1 hv with hv | hv
    · exact hv
    · rw [List.mem_singleton.1 hv] at hkey
      exact absurd rfl hkey

theorem Searched.subset (h : Searched streamId version streams base) : streams ⊆ base := by
  rcases h with rfl | ⟨-, rfl⟩
  · exact List.Subset.refl _
  · exact List.subset_append_left _ _

/-- A stream that is created has a key of its own. -/
theorem Searched.keys (h : Searched streamId version streams base)
    (hkeys : (streams.map (·.key)).Nodup) : (base.map (·.key)).Nodup := by
  rcases h with rfl | ⟨hfree, rfl⟩
  · exact hkeys
  · rw [List.map_append]
    apply hkeys.append (List.nodup_singleton _)
    simp only [List.disjoint_singleton, List.mem_map, not_exists, not_and]
    exact fun v hv => ne_columns_of_not_clashes (hfree v hv)

end Search

section Advance
variable {versioning : Versioning} {bodies : List EventBody} {key : Uuid × String} {base : Streams}

@[simp] theorem key_advanceBy (versioning : Versioning) (bodies : List EventBody)
    (v : StreamView) : (advanceBy versioning bodies v).key = v.key := rfl

@[simp] theorem modify_advanceBy (versioning : Versioning) (bodies : List EventBody)
    (key : Uuid × String) (base : Streams) :
    modify key (·.addEvents bodies) (modify key (advanceBy versioning []) base) =
      modify key (advanceBy versioning bodies) base := by
  unfold modify
  rw [List.map_map]
  apply List.map_congr_left
  intro v _
  by_cases hkey : v.key = key
  · have hadvanced : (advanceBy versioning [] v).key = key := hkey
    simp only [Function.comp_apply, if_pos hkey]
    rw [if_pos hadvanced]
    simp [advanceBy, StreamView.addEvents]
  · simp [hkey]

/-- Without an expected version to compare, nothing is bumped. -/
theorem modify_advanceBy_of_not_compared (hcompared : versioning.compared = none)
    (key : Uuid × String) (base : Streams) : modify key (advanceBy versioning []) base = base := by
  unfold modify
  apply List.map_id''
  intro w
  simp [advanceBy, hcompared]

/-- A version bump that hits one row has found the version of the stream. -/
theorem modify_advanceBy_of_bump (hkeys : (base.map (·.key)).Nodup) {v : StreamView}
    (hv : v ∈ base) (hkey : v.key = key) {expected : ℤ}
    (hcompared : versioning.compared = some expected) {hit : StreamView → Bool}
    (hhit : ∀ w, hit w → w.key = key ∧ w.version = some expected) (hone : base.countP hit = 1) :
    v.version = some expected ∧
      (base.map fun w => if hit w then { w with version := versioning.initialVersion } else w) =
        modify key (advanceBy versioning []) base := by
  obtain ⟨w, hw, hwhit⟩ := List.countP_pos_iff.1 (hone ▸ Nat.one_pos)
  obtain ⟨hwkey, hwversion⟩ := hhit w hwhit
  have hwv : w = v := List.inj_on_of_nodup_map hkeys hw hv (hwkey.trans hkey.symm)
  subst hwv
  refine ⟨hwversion, ?_⟩
  unfold modify
  apply List.map_congr_left
  intro u hu
  by_cases hukey : u.key = key
  · have huw : u = w := List.inj_on_of_nodup_map hkeys hu hw (hukey.trans hkey.symm)
    simp [huw, hkey, hwhit, advanceBy, hcompared]
  · have hmiss : ¬ hit u := fun h => hukey (hhit u h).1
    simp [hukey, hmiss]

end Advance

section Stores
variable {streamId : StreamId} {versioning : Versioning} {events : List RawEvent}
  {streams streams' base : Streams} {verdict : Except Error Unit}

theorem SqlAlchemyViews.searched_opened (streamId : StreamId) (version : Option ℤ)
    (streams : Streams) :
    Searched streamId version streams (SqlAlchemyViews.opened streamId version streams) := by
  unfold SqlAlchemyViews.opened
  dsimp only
  split
  · exact .inl rfl
  · rename_i hnone
    simp only [Bool.or_eq_true, not_or, Bool.not_eq_true, List.any_eq_false] at hnone
    exact .inr ⟨fun v hv => by simpa using hnone.2 v hv, rfl⟩

theorem SqlAlchemyViews.bump_eq_ok {bumped : Streams} (hkeys : (streams.map (·.key)).Nodup)
    {v : StreamView} (hv : v ∈ streams) (hkey : v.key = columns streamId)
    (h : SqlAlchemyViews.bump streamId versioning streams = .ok bumped) :
    (∀ e ∈ versioning.compared, v.version = some e) ∧
      bumped = modify (columns streamId) (advanceBy versioning []) streams := by
  unfold SqlAlchemyViews.bump at h
  cases hcompared : versioning.compared with
  | none =>
    simp only [hcompared, Except.ok.injEq] at h
    exact ⟨by simp, by rw [modify_advanceBy_of_not_compared hcompared, h]⟩
  | some expected =>
    simp only [hcompared] at h
    split at h
    · cases h
    · rename_i hone
      simp only [Except.ok.injEq] at h
      have hhit : ∀ w : StreamView, (w.compares streamId && w.version = some expected) →
          w.key = columns streamId ∧ w.version = some expected := by
        intro w hw
        simp only [Bool.and_eq_true, decide_eq_true_eq] at hw
        exact ⟨columns_of_compares hw.1, hw.2⟩
      obtain ⟨hversion, hmodify⟩ :=
        modify_advanceBy_of_bump hkeys hv hkey hcompared hhit (not_not.1 hone)
      exact ⟨by simpa using hversion, by rw [← h, ← hmodify]⟩

/-- An insertion that succeeds has found versions that were free. -/
theorem SqlAlchemyViews.insert_eq_ok (hkeys : (streams.map (·.key)).Nodup)
    (h : SqlAlchemyViews.insert verdict streamId versioning events streams = .ok streams') :
    ∃ v ∈ SqlAlchemyViews.opened streamId versioning.initialVersion streams,
      Admitted streamId versioning v ∧
      SqlAlchemyStorageStrategy.versionsFree (events.map .ofRaw) v.events ∧
      streams' = modify (columns streamId) (advanceBy versioning (events.map .ofRaw))
        (SqlAlchemyViews.opened streamId versioning.initialVersion streams) := by
  have hbase := (SqlAlchemyViews.searched_opened streamId versioning.initialVersion streams).keys
    hkeys
  revert h hbase
  unfold SqlAlchemyViews.insert
  dsimp only
  generalize SqlAlchemyViews.opened streamId versioning.initialVersion streams = base
  intro h hbase
  obtain ⟨v, hchosen, h⟩ := bind_eq_ok.1 h
  obtain ⟨hmem, heq⟩ := SqlAlchemyStorageStrategy.chooseStream_eq_ok hchosen
  have hv := List.mem_of_mem_filter hmem
  have hkey := columns_of_eq heq
  obtain ⟨u, hvalid, h⟩ := bind_eq_ok.1 h
  obtain ⟨bumped, hbumped, h⟩ := bind_eq_ok.1 h
  obtain ⟨hcompared, rfl⟩ := SqlAlchemyViews.bump_eq_ok hbase hv hkey hbumped
  unfold SqlAlchemyViews.store at h
  dsimp only at h
  split at h
  · rename_i hfree
    obtain ⟨done, -, rfl⟩ := map_eq_ok.1 h
    simp only [Bool.and_eq_true] at hfree
    refine ⟨v, hv, ⟨hkey, hvalid, hcompared⟩, hfree.2, ?_⟩
    rw [hkey, modify_advanceBy]
  · cases h

theorem SqlAlchemyViews.insert_inserted (hkeys : (streams.map (·.key)).Nodup)
    (h : SqlAlchemyViews.insert verdict streamId versioning events streams = .ok streams') :
    Inserted streamId versioning (events.map .ofRaw) streams streams' := by
  obtain ⟨v, hv, hadmitted, -, hstreams⟩ := SqlAlchemyViews.insert_eq_ok hkeys h
  exact ⟨_, SqlAlchemyViews.searched_opened _ _ _, ⟨v, hv, hadmitted⟩, hstreams⟩

/-- The stream that `get_or_create` gives has the columns of the stream id. -/
theorem DjangoViews.getOrCreate_eq_ok {version : Option ℤ} {v : StreamView}
    (h : DjangoViews.getOrCreate streamId version streams = (.ok v, base)) :
    Searched streamId version streams base ∧ v ∈ base ∧ v.key = columns streamId := by
  unfold DjangoViews.getOrCreate at h
  dsimp only at h
  split at h
  · split at h
    · cases h
    · rename_i hfree
      simp only [Prod.mk.injEq, Except.ok.injEq] at h
      obtain ⟨rfl, rfl⟩ := h
      simp only [Bool.not_eq_true, List.any_eq_false] at hfree
      exact ⟨.inr ⟨fun v hv => by simpa using hfree v hv, rfl⟩, by simp, rfl⟩
  · obtain ⟨hfound, rfl⟩ := Prod.mk.inj h
    have hmem := List.mem_filter.1
      (DjangoStorageStrategy.getOne_eq_ok hfound ▸ List.mem_singleton_self v)
    simp only [DjangoStorageStrategy.sameColumns, Bool.and_eq_true, decide_eq_true_eq] at hmem
    exact ⟨.inl rfl, hmem.1, Prod.ext hmem.2.1.1 hmem.2.2⟩

theorem DjangoViews.ensure_eq_ok {bumped : Streams} (hkeys : (streams.map (·.key)).Nodup)
    (h : DjangoViews.ensure streamId versioning streams = (.ok (), bumped)) :
    ∃ base, Searched streamId versioning.initialVersion streams base ∧
      (∃ v ∈ base, Admitted streamId versioning v) ∧
      bumped = modify (columns streamId) (advanceBy versioning []) base := by
  unfold DjangoViews.ensure at h
  split at h
  · cases h
  split at h
  · cases h
  rename_i model base hcreated
  obtain ⟨hsearched, hmodel, hkey⟩ := DjangoViews.getOrCreate_eq_ok hcreated
  refine ⟨base, hsearched, ?_⟩
  split at h
  · cases h
  · rename_i hvalid hcompared
    simp only [Prod.mk.injEq, true_and] at h
    refine ⟨⟨model, hmodel, hkey, hvalid, by simp [hcompared]⟩, ?_⟩
    rw [modify_advanceBy_of_not_compared hcompared, h]
  · rename_i expected hvalid hcompared
    dsimp only at h
    split at h
    · cases h
    · rename_i hone
      simp only [Prod.mk.injEq, true_and] at h
      have hhit : ∀ w : StreamView, (w.key = model.key && w.version = some expected) →
          w.key = columns streamId ∧ w.version = some expected := by
        intro w hw
        simp only [Bool.and_eq_true, decide_eq_true_eq] at hw
        exact ⟨hw.1.trans hkey, hw.2⟩
      obtain ⟨hversion, hmodify⟩ := modify_advanceBy_of_bump (hsearched.keys hkeys) hmodel hkey
        hcompared hhit (not_not.1 hone)
      exact ⟨⟨model, hmodel, hkey, hvalid, by simpa [hcompared] using hversion⟩,
        by rw [← h, ← hmodify]⟩

theorem DjangoViews.insert_inserted (hkeys : (streams.map (·.key)).Nodup)
    (hstream : ∀ raw ∈ events, raw.streamId = streamId)
    (h : DjangoViews.insert verdict streamId versioning events streams = (.ok (), streams')) :
    Inserted streamId versioning (events.map .ofRaw) streams streams' := by
  unfold DjangoViews.insert at h
  split at h
  · cases h
  rename_i ensured hensured
  obtain ⟨base, hsearched, ⟨v, hv, hadmitted⟩, rfl⟩ := DjangoViews.ensure_eq_ok hkeys hensured
  refine ⟨base, hsearched, ⟨v, hv, hadmitted⟩, ?_⟩
  unfold DjangoViews.store at h
  split at h
  · cases h
  rename_i event hevent
  rw [hstream event (List.mem_of_head? hevent)] at h
  split at h
  · cases h
  rename_i w hfound
  dsimp only at h
  split at h
  · have hbumped : advanceBy versioning [] v ∈
        modify (columns streamId) (advanceBy versioning []) base :=
      List.mem_map.2 ⟨v, hv, if_pos hadmitted.key⟩
    rw [columns_of_getOne hbumped hadmitted.key hfound, modify_advanceBy] at h
    exact (congrArg Prod.snd h).symm
  · cases h

end Stores

end EventSourcery.Sql
