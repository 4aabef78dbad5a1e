import EventSourcery.AppendAttempts
import EventSourcery.DjangoViews

/-!
# Versions on the Django store

The conditional version bump guards the versions of a stream against every
expected version but 0, which is not compared, and no constraint of the tables
keeps two events of one version apart. So versions are kept as long as every
attempt that expects version 0 is made on a stream that is not there yet.
-/
namespace EventSourcery.Sql.DjangoVersions
open EventStore Runs Tenants DjangoStorageStrategy DjangoViews AppendAttempts

variable {E : Type}

section Insert
variable {a : Attempt E} {streams streams' : Streams} {raws : List RawEvent}
  {verdict : Except Error Unit}

/-- An insertion that succeeds extends the stream. -/
theorem insert_extends (hkeys : (streams.map (·.key)).Nodup)
    (hstream : ∀ raw ∈ raws, raw.streamId = a.streamId)
    (hraws : raws.map (·.version) = a.versions)
    (h : DjangoViews.insert verdict a.streamId a.versioning raws streams = (.ok (), streams')) :
    Extends a streams streams' := by
  have hbodies : (raws.map EventBody.ofRaw).map (·.version) = a.versions := by
    rw [← hraws, List.map_map]
    rfl
  exact extends_of_inserted (insert_inserted hkeys hstream h) hbodies

end Insert

/-- An attempt that expects version 0 is made on a stream that is not there. -/
def FreshWhenZero (db : Database) (a : Attempt E) : Prop :=
  a.expected = .version 0 → ∀ row ∈ db.streams, row.key ≠ a.key

instance (db : Database) (a : Attempt E) : Decidable (FreshWhenZero db a) := by
  unfold FreshWhenZero
  infer_instance

section Store
variable (engine : Engine) (dispatchers : TenantId → Dispatcher E) (outbox : Option OutboxStrategy)
  (t : TenantId)

theorem call_outcome {db : Database} (h : db.Sound engine) (honly : Only t db) (a : Attempt E) :
    Outcome engine t a db ((stores engine dispatchers outbox true t).call db a.call) := by
  rcases call_attempt (stores engine dispatchers outbox true t) db a with
    ⟨e, he⟩ | ⟨raws, hraws, -, hstream, hinserted⟩
  · rw [he]
    exact ⟨h, honly, fun _ _ => rfl, fun _ hok => by cases hok⟩
  · let mine : DjangoStorageStrategy E := ⟨engine, dispatchers t, outbox, t⟩
    obtain ⟨verdict, -, heffect⟩ :=
      insertEvents_effect mine h a.streamId a.versioning (honly.eventsApart h raws)
    have hr : (stores engine dispatchers outbox true t).call db a.call =
        answered (StorageStrategy.undo Database.rollback db
          (mine.insertEvents a.streamId a.versioning raws db)) := hinserted
    rw [hr]
    obtain ⟨hanswer, hsound, hview, hothers⟩ := heffect.undo h
    have honly' : ∀ u, u ≠ t → Database.view u (StorageStrategy.undo Database.rollback db
        (mine.insertEvents a.streamId a.versioning raws db)).2 = [] :=
      fun u hu => (hothers u hu).trans (honly u hu)
    cases hown : DjangoViews.insert verdict a.streamId a.versioning raws (db.view t) with
    | mk answer streams =>
      replace hanswer := hanswer.trans (congrArg (fun own => (StorageStrategy.undo
        (fun before _ => before) (db.view t) own).1) hown)
      replace hview := hview.trans (congrArg (fun own => (StorageStrategy.undo
        (fun before _ => before) (db.view t) own).2) hown)
      cases answer with
      | error e =>
        refine ⟨hsound, honly', fun _ _ => hview, fun loaded hloaded => ?_⟩
        simp only [answered, hanswer] at hloaded
        cases hloaded
      | ok u =>
        refine ⟨hsound, honly', fun e he => ?_, fun _ _ => ?_⟩
        · simp only [answered, hanswer] at he
          cases he
        · have hextends := insert_extends (view_keys h.uniqueKeys t) hstream hraws hown
          exact hview.symm ▸ hextends

/-- In a run whose attempts all find no stream when they expect version 0, every stream is
numbered, and of two attempts with the same expected version on the same stream one
succeeds at most. -/
theorem django_versions (attempts : List (Attempt E)) :
    let step := fun db (a : Attempt E) => (stores engine dispatchers outbox true t).call db a.call
    Meets step FreshWhenZero {} attempts →
      Versioned (attempts.zip (run step {} attempts).1) (run step {} attempts).2 := by
  intro step hok
  apply run_versioned FreshWhenZero
  · intro db a h honly
    exact call_outcome engine dispatchers outbox t h honly a
  · intro past db a loaded h honly hkept hfresh hzero hloaded v hv
    obtain ⟨row, hrow, -, rfl⟩ := mem_view.1 hv
    exact hfresh hzero row hrow
  · exact hok

end Store

section Example

/-- Two clients append, and one of them is late. -/
def inTurn : List (Attempt Unit) :=
  [⟨⟨(), 1, 0⟩, [], order, .version 0⟩, ⟨⟨(), 2, 0⟩, [], order, .version 1⟩,
    ⟨⟨(), 3, 0⟩, [], order, .version 1⟩]

/-- Two clients append to a stream that neither has seen. -/
def atOnce : List (Attempt Unit) :=
  [⟨⟨(), 1, 0⟩, [], order, .version 0⟩, ⟨⟨(), 2, 0⟩, [], order, .version 0⟩]

theorem django_versions_inTurn :
    let step := fun db (a : Attempt Unit) =>
      (stores postgres (fun _ => plainDispatcher) none true defaultTenant).call db a.call
    Versioned (inTurn.zip (run step {} inTurn).1) (run step {} inTurn).2 :=
  django_versions postgres _ none defaultTenant inTurn (by decide)

/-- Both attempts that expect version 0 succeed, and both events have version 1. -/
theorem django_versions_atOnce :
    let step := fun db (a : Attempt Unit) =>
      (stores postgres (fun _ => plainDispatcher) none true defaultTenant).call db a.call
    (run step {} atOnce).1 = [.ok [], .ok []] ∧
      (run step {} atOnce).2.events.map (·.body.version) = [some 1, some 1] ∧
      ¬ Versioned (atOnce.zip (run step {} atOnce).1) (run step {} atOnce).2 := by
  refine ⟨rfl, rfl, fun h => ?_⟩
  have honce := h.once (1, "") 0
  exact absurd honce (by decide)

end Example

end EventSourcery.Sql.DjangoVersions
