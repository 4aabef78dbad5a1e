import EventSourcery.AppendAttempts
import EventSourcery.SqlAlchemyViews

/-!
# Versions on the SQLAlchemy store

Three mechanisms guard the versions of a stream: the conditional version bump for
an expected version other than 0, the unique index on stream and version for 0,
and the compatibility check for streams without versions. Together they keep
every stream numbered, whatever stale expected versions the clients bring.
-/
namespace EventSourcery.Sql.SqlAlchemyVersions
open EventStore Runs SqlAlchemyStorageStrategy SqlAlchemyViews AppendAttempts

variable {E : Type}

section Insert
variable {a : Attempt E} {streams streams' : Streams} {raws : List RawEvent}
  {verdict : Except Error Unit}

/-- An insertion that succeeds extends the stream, past versions that were free. -/
theorem insert_extends (hkeys : (streams.map (·.key)).Nodup)
    (hraws : raws.map (·.version) = a.versions)
    (h : SqlAlchemyViews.insert verdict a.streamId a.versioning raws streams = .ok streams') :
    Extends a streams streams' ∧
      ∃ v ∈ opened a.streamId a.versioning.initialVersion streams, v.key = a.key ∧
        a.versioning.validateIfCompatible v.version = .ok () ∧
        versionsFree (raws.map .ofRaw) v.events := by
  have hbodies : (raws.map EventBody.ofRaw).map (·.version) = a.versions := by
    rw [← hraws, List.map_map]
    rfl
  obtain ⟨v, hv, hadmitted, hfree, -⟩ := insert_eq_ok hkeys h
  exact ⟨extends_of_inserted (insert_inserted hkeys h) hbodies, v, hv, hadmitted.key,
    hadmitted.compatible, hfree⟩

theorem not_versionsFree {v : StreamView} {n : ℕ} (hn : 0 < n)
    (hversions : v.events.map (·.version) = upTo n) (hzero : a.expected = .version 0)
    (hraws : raws.map (·.version) = a.versions) :
    versionsFree (raws.map .ofRaw) v.events = false := by
  have hone : some (1 : ℤ) ∈ v.events.map (·.version) := by
    rw [hversions]
    exact List.mem_map.2 ⟨0, List.mem_range.2 hn, rfl⟩
  have hnew : some (1 : ℤ) ∈ raws.map (·.version) := by
    rw [hraws, Attempt.versions, hzero]
    exact List.mem_map.2 ⟨0, List.mem_range.2 (Nat.succ_pos _), rfl⟩
  obtain ⟨held, hheld, hheldOne⟩ := List.mem_map.1 hone
  obtain ⟨raw, hraw, hrawOne⟩ := List.mem_map.1 hnew
  by_contra hfree
  simp only [Bool.not_eq_false, versionsFree, Bool.and_eq_true, List.all_eq_true] at hfree
  have hmem : (1 : ℤ) ∈ (raws.map EventBody.ofRaw).filterMap (·.version) :=
    List.mem_filterMap.2 ⟨.ofRaw raw, List.mem_map_of_mem hraw, hrawOne⟩
  simpa [hheldOne] using hfree.2 1 hmem held hheld

/-- An insertion that expects version 0 succeeds only on a stream that is not there. -/
theorem insert_fresh {past : History E} (h : Kept past streams)
    (hzero : a.expected = .version 0) (hraws : raws.map (·.version) = a.versions)
    (hinsert : SqlAlchemyViews.insert verdict a.streamId a.versioning raws streams =
      .ok streams') : ∀ v ∈ streams, v.key ≠ a.key := by
  intro u hu hukey
  obtain ⟨-, v, hv, hkey, hvalid, hfree⟩ := insert_extends h.keys hraws hinsert
  have hsearched := searched_opened a.streamId a.versioning.initialVersion streams
  have huv : u = v := List.inj_on_of_nodup_map (hsearched.keys h.keys) (hsearched.subset hu) hv
    (hukey.trans hkey.symm)
  subst huv
  obtain ⟨first, hfirst, hnumbering⟩ := h.numbered u hu
  cases first with
  | version w =>
    rw [not_versionsFree (appended_pos hfirst) hnumbering.2 hzero hraws] at hfree
    cases hfree
  | noVersioning =>
    simp [Attempt.versioning, hzero, hnumbering.1, Versioning.validateIfCompatible] at hvalid

end Insert

section Store
variable (engine : Engine) (dispatchers : TenantId → Dispatcher E) (outbox : Option OutboxStrategy)
  (t : TenantId)

/-- An attempt on the tables of one tenant: it raises and changes no stream, or it is an
insertion that succeeds. -/
theorem call_cases {db : Database} (h : db.Sound engine) (honly : Only t db) (a : Attempt E) :
    let r := (stores engine dispatchers outbox t).call db a.call
    r.2.Sound engine ∧ Only t r.2 ∧
      ((∃ e, r.1 = .error e ∧ r.2.view t = db.view t) ∨
        r.1 = .ok [] ∧ ∃ verdict raws, raws.map (·.version) = a.versions ∧
          SqlAlchemyViews.insert verdict a.streamId a.versioning raws (db.view t) =
            .ok (r.2.view t)) := by
  intro r
  rcases call_attempt (stores engine dispatchers outbox t) db a with
    ⟨e, he⟩ | ⟨raws, hraws, -, -, hinserted⟩
  · simp only [r, he]
    exact ⟨h, honly, .inl ⟨e, rfl, trivial⟩⟩
  · let mine : SqlAlchemyStorageStrategy E := ⟨engine, dispatchers t, outbox, t⟩
    have hmisses : MissesOthers engine db (t, .insert a.streamId a.versioning raws) :=
      fun _ _ row hrow ht => absurd (honly.tenantId hrow) ht
    obtain ⟨verdict, -, heffect⟩ :=
      insertEvents_effect mine h hmisses (honly.eventsApart h raws)
    obtain ⟨hanswer, hsound, hview, hothers⟩ := heffect.undo h
    have hr : r = answered (StorageStrategy.undo Database.rollback db
        (mine.insertEvents a.streamId a.versioning raws db)) := hinserted
    rw [hr]
    refine ⟨hsound, fun u hu => (hothers u hu).trans (honly u hu), ?_⟩
    simp only [answered]
    rw [hanswer, hview]
    cases hown : SqlAlchemyViews.insert verdict a.streamId a.versioning raws (db.view t) with
    | error e => exact .inl ⟨e, rfl, rfl⟩
    | ok streams => exact .inr ⟨rfl, verdict, raws, hraws, hown⟩

/-- In every state that attempts of any clients lead to, every stream is numbered, and of
two attempts with the same expected version on the same stream one succeeds at most. -/
theorem sqlAlchemy_versions (attempts : List (Attempt E)) :
    let step := fun db (a : Attempt E) => (stores engine dispatchers outbox t).call db a.call
    Versioned (attempts.zip (run step {} attempts).1) (run step {} attempts).2 := by
  intro step
  apply run_versioned fun _ _ => True
  · intro db a h honly
    obtain ⟨hsound, honly', hcases⟩ := call_cases engine dispatchers outbox t h honly a
    rcases hcases with ⟨e, herror, hview⟩ | ⟨hok, verdict, raws, hraws, hinsert⟩
    · exact ⟨hsound, honly', fun _ _ => hview, fun loaded hloaded => by simp_all⟩
    · have hextends := (insert_extends (view_keys h.uniqueKeys t) hraws hinsert).1
      exact ⟨hsound, honly', fun e he => by simp_all, fun _ _ => hextends⟩
  · intro past db a loaded h honly hkept _ hzero hloaded
    obtain ⟨-, -, hcases⟩ := call_cases engine dispatchers outbox t h honly a
    rcases hcases with ⟨e, herror, -⟩ | ⟨-, verdict, raws, hraws, hinsert⟩
    · simp_all
    · exact insert_fresh hkept hzero hraws hinsert
  · exact meets_of_forall (fun _ _ => trivial) _ _

end Store

end EventSourcery.Sql.SqlAlchemyVersions
