import Mathlib.Data.Fintype.Basic
import EventSourcery.Insertions

/-!
# Appends in concurrent transactions on SQLAlchemy

Any number of sessions of one tenant insert events at the same time, once each, in a transaction
of its own at the isolation level READ COMMITTED. A statement sees what is committed and what its
own session has written. It waits while another transaction has written a row that breaks a
constraint with the row that it inserts, or has changed the row that it updates. The version bump
would do so for the streams of other tenants too, of which there are none here. To store events is
one statement: it takes the load of the stream's events, the INSERT of all rows, that of the
outbox and the listeners, which write nothing.

What a session knows of the streams stays true when another one commits, and what it commits in
the end is what its insertion makes of the streams at that moment.
-/
namespace EventSourcery.Sql.SqlAlchemyTransactions
open SqlAlchemyStorageStrategy (chooseStream versionsFree)

/-- What a session inserts. -/
structure Insertion where
  streamId : StreamId
  versioning : Versioning
  events : List RawEvent

namespace Insertion

def head (x : Insertion) : StreamHead := .ofStreamId x.streamId x.versioning.initialVersion

def created (x : Insertion) : StreamView := createdStream x.streamId x.versioning.initialVersion

def bodies (x : Insertion) : List EventBody := x.events.map .ofRaw

def key (x : Insertion) : Uuid × String := columns x.streamId

def request (x : Insertion) : Request := .insert x.streamId x.versioning x.events

/-- The events of two insertions break a unique index. -/
def collides (x y : Insertion) : Bool :=
  x.bodies.any fun body => y.bodies.any fun other =>
    body.uuid = other.uuid ||
      (x.key = y.key && body.version.isSome && body.version = other.version)

end Insertion

/-- Where a session is in `insert_events`. -/
inductive Stage where
  | start
  /-- No stream matched. -/
  | unmatched
  /-- The stream was inserted, or was there. -/
  | opened
  /-- The stream was found and is compatible. -/
  | ensured (stream : StreamView)
  /-- Its version was the expected one, where there is one to compare. -/
  | bumped (stream : StreamView)
  /-- The events are flushed and the listeners were called. -/
  | stored
  | committed
  /-- By the caller, or for what was raised. -/
  | rolledBack (e : Option Error)

structure Session where
  stage : Stage := .start
  /-- The row of the stream is this session's. -/
  created : Bool := false

namespace Session
variable (x : Insertion) (session : Session)

/-- The streams with the one that the session has created. -/
def base (committed : Streams) : Streams :=
  if session.created then committed ++ [x.created] else committed

/-- What the session sees: what is committed, and what it has written itself. -/
def visible (committed : Streams) : Streams :=
  match session.stage with
  | .bumped _ => modify x.key (advanceBy x.versioning []) (session.base x committed)
  | .stored => modify x.key (advanceBy x.versioning x.bodies) (session.base x committed)
  | _ => session.base x committed

/-- The session has changed the row of its stream, which it keeps locked. -/
def locks : Bool :=
  match session.stage with
  | .bumped _ | .stored => x.versioning.compared.isSome
  | _ => false

def flushed : Bool :=
  match session.stage with
  | .stored => true
  | _ => false

def running : Bool :=
  match session.stage with
  | .committed | .rolledBack _ => false
  | _ => true

/-- What is raised leaves the session, which is rolled back. -/
def proceed (r : Except Error Stage) : Session :=
  match r with
  | .ok stage => { session with stage }
  | .error e => { stage := .rolledBack (some e) }

/-- `select(stream_model).where(condition)` and the choice among the streams that it gives. -/
def choose (streams : Streams) : Session :=
  session.proceed do
    let stream ← chooseStream StreamView.toStreamHead x.streamId
      (streams.filter fun v => v.addressed x.streamId)
    x.versioning.validateIfCompatible stream.version
    return .ensured stream

end Session

/-- The events of the streams with a key. -/
def heldBy (key : Uuid × String) (streams : Streams) : List EventBody :=
  (streams.filter fun v => v.key = key).flatMap (·.events)

structure State (ι : Type) where
  committed : Streams := []
  sessions : ι → Session := fun _ => {}
  /-- The sessions that have committed, in order. -/
  history : List ι := []

inductive Statement where
  | select
  | insert
  | bump
  | store
  | commit
  | rollback
  deriving DecidableEq

section Step
variable {ι : Type} [Fintype ι] [DecidableEq ι] (accept : List RawEvent → Except Error Unit)
  (xs : ι → Insertion)

def State.set (s : State ι) (i : ι) (session : Session) : State ι :=
  { s with sessions := Function.update s.sessions i session }

def State.visible (s : State ι) (i : ι) : Streams := (s.sessions i).visible (xs i) s.committed

/-- A statement of a session, if it does not have to wait. -/
def step (s : State ι) : ι × Statement → Option (State ι)
  | (i, .select) =>
      match (s.sessions i).stage with
      | .start =>
          if (s.visible xs i).any fun v => v.addressed (xs i).streamId then
            some (s.set i ((s.sessions i).choose (xs i) (s.visible xs i)))
          else some (s.set i { s.sessions i with stage := .unmatched })
      | .opened => some (s.set i ((s.sessions i).choose (xs i) (s.visible xs i)))
      | _ => none
  | (i, .insert) =>
      match (s.sessions i).stage with
      | .unmatched =>
          -- a row that another transaction has inserted may still go away
          if ∃ j, j ≠ i ∧ (s.sessions j).created ∧ (xs i).head.clashes (xs j).head then none
          else if s.committed.any fun v => (xs i).head.clashes v.toStreamHead then
            some (s.set i { stage := .opened })
          else some (s.set i { stage := .opened, created := true })
      | _ => none
  | (i, .bump) =>
      match (s.sessions i).stage, (xs i).versioning.compared with
      | .ensured stream, none => some (s.set i { s.sessions i with stage := .bumped stream })
      | .ensured stream, some expected =>
          let hit := fun v : StreamView => v.compares (xs i).streamId && v.version = some expected
          if (s.visible xs i).countP hit ≠ 1 then
            some (s.set i ((s.sessions i).proceed (.error (.concurrentStreamWriteError []))))
          else if ∃ j, j ≠ i ∧ (s.sessions j).locks (xs j) ∧ (xs j).key = (xs i).key then none
          else some (s.set i { s.sessions i with stage := .bumped stream })
      | _, _ => none
  | (i, .store) =>
      match (s.sessions i).stage with
      | .bumped stream =>
          if ∃ j, j ≠ i ∧ (s.sessions j).flushed ∧ (xs i).collides (xs j) then none
          else if uuidsFree (xs i).bodies ((s.visible xs i).flatMap (·.events)) &&
              versionsFree (xs i).bodies (heldBy stream.key (s.visible xs i)) then
            some (s.set i ((s.sessions i).proceed
              ((accept (xs i).events).map fun _ => .stored)))
          else some (s.set i ((s.sessions i).proceed (.error .integrityError)))
      | _ => none
  | (i, .commit) =>
      match (s.sessions i).stage with
      | .stored =>
          some { committed := s.visible xs i
                 sessions := Function.update s.sessions i { stage := .committed }
                 history := s.history ++ [i] }
      | _ => none
  | (i, .rollback) =>
      if (s.sessions i).running then some (s.set i { stage := .rolledBack none }) else none

end Step

/-! ## What a session relies on -/

/-- No two streams break a constraint with one another. -/
def Separate (streams : Streams) : Prop :=
  streams.Pairwise fun v w => v.clashes w.toStreamHead = false

theorem clashes_comm (head other : StreamHead) : head.clashes other = other.clashes head := by
  have hiff : head.clashes other = true ↔ other.clashes head = true := by
    simp only [StreamHead.clashes, Bool.and_eq_true, Bool.or_eq_true, decide_eq_true_eq,
      Option.any_eq_true]
    grind
  exact Bool.eq_iff_iff.2 hiff

/-- A stream that matches is in the way of the one that would be inserted. -/
theorem clashes_of_addressed {streamId : StreamId} {head : StreamHead}
    (h : head.addressed streamId = true) (version : Option ℤ) :
    (StreamHead.ofStreamId streamId version).clashes head = true := by
  simp only [StreamHead.addressed, Bool.or_eq_true, Bool.and_eq_true, decide_eq_true_eq,
    Option.any_eq_true] at h
  rcases h with ⟨huuid, hcategory⟩ | ⟨name, hname, hsame, hcategory⟩
  · simp [StreamHead.clashes, StreamHead.ofStreamId, huuid, hcategory]
  · simp only [StreamId.truthyName, Option.filter_eq_some_iff] at hname
    simp [StreamHead.clashes, StreamHead.ofStreamId, hcategory, hname.1, hsame]

/-- The stream of an insertion. -/
structure Found (x : Insertion) (base : Streams) (w : StreamView) : Prop where
  mem : w ∈ base
  hit : w.streamId.eq x.streamId = true
  name : x.streamId.name = none ∨ w.name = x.streamId.name
  compatible : x.versioning.validateIfCompatible w.version = .ok ()

/-- Its version is the expected one, where there is one to compare. -/
def Current (x : Insertion) (w : StreamView) : Prop :=
  ∀ expected ∈ x.versioning.compared, w.version = some expected

section Found
variable {x : Insertion} {base : Streams} {v w : StreamView}

theorem Found.key (h : Found x base w) : w.key = x.key := columns_of_eq h.hit

theorem Separate.eq_of_clashes (h : Separate base) (hv : v ∈ base) (hw : w ∈ base)
    (hclash : v.clashes w.toStreamHead = true) : v = w := by
  by_contra hne
  have hsymm : Std.Symm fun v w : StreamView => v.clashes w.toStreamHead = false :=
    ⟨fun v w hfree => (clashes_comm _ _).trans hfree⟩
  rw [List.Pairwise.forall h hv hw hne] at hclash
  cases hclash

theorem Separate.eq_of_key (h : Separate base) (hv : v ∈ base) (hw : w ∈ base)
    (hkey : w.key = v.key) : v = w :=
  h.eq_of_clashes hv hw (StreamHead.clashes_of_key hkey)

theorem Separate.keys (h : Separate base) : (base.map (·.key)).Nodup := by
  refine List.pairwise_map.2 (List.Pairwise.imp (fun {v w} hfree hkey => ?_) h)
  rw [StreamHead.clashes_of_key hkey.symm] at hfree
  cases hfree

/-- Only the stream of an insertion matches. -/
theorem Found.filter_eq (h : Found x base w) (hseparate : Separate base) :
    base.filter (fun v => v.addressed x.streamId) = [w] := by
  refine filter_eq_singleton (List.Nodup.of_map _ hseparate.keys) h.mem fun v hv => ?_
  constructor
  · intro hmatch
    simp only [StreamHead.addressed, Bool.or_eq_true, Bool.and_eq_true, decide_eq_true_eq,
      Option.any_eq_true] at hmatch
    rcases hmatch with ⟨huuid, hcategory⟩ | ⟨name, hname, hsame, hcategory⟩
    · exact hseparate.eq_of_key hv h.mem (h.key.trans (Prod.ext huuid hcategory).symm)
    · have hgiven : x.streamId.name = some name := by
        simp only [StreamId.truthyName, Option.filter_eq_some_iff] at hname
        exact hname.1
      have hheld : w.name = some name := by
        rcases h.name with hnone | hheld
        · rw [hgiven] at hnone
          cases hnone
        · exact hheld.trans hgiven
      have hcategory' : w.category = v.category :=
        (congrArg Prod.snd h.key).trans hcategory.symm
      exact hseparate.eq_of_clashes hv h.mem
        (by simp [StreamHead.clashes, hcategory', hsame, hheld])
  · rintro rfl
    exact addressed_of_columns h.key

theorem Found.chooseStream (h : Found x base w) (hseparate : Separate base) :
    chooseStream StreamView.toStreamHead x.streamId
      (base.filter fun v => v.addressed x.streamId) = .ok w := by
  rw [h.filter_eq hseparate]
  have hcategory : w.category = x.streamId.categoryText := congrArg Prod.snd h.key
  have hcheck : SqlAlchemyStorageStrategy.checkName StreamView.toStreamHead x.streamId [w] =
      .ok () := by
    rcases h.name with hnone | hname
    · simp [SqlAlchemyStorageStrategy.checkName, hnone]
    · simp [SqlAlchemyStorageStrategy.checkName, hname, hcategory, h.hit]
  simp [SqlAlchemyStorageStrategy.chooseStream, hcheck, Except.bind, h.hit]

/-- Where a name is given, a stream with the name has the stream id. -/
theorem checkName_eq_ok {streamId : StreamId} {matching : Streams} (hname : streamId.name ≠ none)
    (h : SqlAlchemyStorageStrategy.checkName StreamView.toStreamHead streamId matching = .ok ()) :
    ∃ v ∈ matching, v.name = streamId.name ∧ v.streamId.eq streamId = true := by
  unfold SqlAlchemyStorageStrategy.checkName at h
  rw [if_neg hname] at h
  split at h
  · cases h
  · rename_i v hlast
    split at h
    · rename_i heq
      obtain ⟨hv, hsame⟩ := List.mem_filter.1 (List.mem_of_getLast? hlast)
      rw [Bool.and_eq_true, decide_eq_true_eq] at hsame
      exact ⟨v, hv, hsame.1, heq⟩
    · cases h

theorem choose_outcome (x : Insertion) (session : Session) (streams : Streams) :
    (∃ e, session.choose x streams = { stage := .rolledBack (some e) }) ∨
      ∃ w, session.choose x streams = { session with stage := .ensured w } ∧
        chooseStream StreamView.toStreamHead x.streamId
          (streams.filter fun v => v.addressed x.streamId) = .ok w ∧
        x.versioning.validateIfCompatible w.version = .ok () := by
  unfold Session.choose
  cases hchosen : chooseStream StreamView.toStreamHead x.streamId
      (streams.filter fun v => v.addressed x.streamId) with
  | error e => exact .inl ⟨e, rfl⟩
  | ok w =>
    cases hvalid : x.versioning.validateIfCompatible w.version with
    | error e => exact .inl ⟨e, by simp [bind, Except.bind, hvalid, Session.proceed]⟩
    | ok u =>
      refine .inr ⟨w, ?_, rfl, hvalid⟩
      simp [bind, Except.bind, hvalid, Session.proceed, pure, Except.pure]

/-- The stream that a session goes on with is the stream of its insertion. -/
theorem choose_cases (hseparate : Separate base) (session : Session) :
    (∃ e, session.choose x base = { stage := .rolledBack (some e) }) ∨
      ∃ w, session.choose x base = { session with stage := .ensured w } ∧ Found x base w := by
  rcases choose_outcome x session base with hraised | ⟨w, hw, hchosen, hvalid⟩
  · exact .inl hraised
  · obtain ⟨hmatching, hhit⟩ := SqlAlchemyStorageStrategy.chooseStream_eq_ok hchosen
    have hmem := List.mem_of_mem_filter hmatching
    refine .inr ⟨w, hw, hmem, hhit, ?_, hvalid⟩
    by_cases hnone : x.streamId.name = none
    · exact .inl hnone
    · obtain ⟨_, hcheck, -⟩ := bind_eq_ok.1 hchosen
      obtain ⟨v, hv, hname, heq⟩ := checkName_eq_ok hnone hcheck
      rw [hseparate.eq_of_key hmem (List.mem_of_mem_filter hv)
        ((columns_of_eq heq).trans (columns_of_eq hhit).symm)]
      exact .inr hname

end Found

/-! ## What is true of a session -/

/-- What a session knows of the streams, after the statements it has executed. -/
def Good (accept : List RawEvent → Except Error Unit) (x : Insertion) (session : Session)
    (committed : Streams) : Prop :=
  (session.created = true → ∀ v ∈ committed, x.head.clashes v.toStreamHead = false) ∧
    match session.stage with
    | .opened => True
    | .ensured stream => stream.key = x.key ∧ ∃ w, Found x (session.base x committed) w
    | .bumped stream =>
        stream.key = x.key ∧ ∃ w, Found x (session.base x committed) w ∧ Current x w
    | .stored => ∃ w, Found x (session.base x committed) w ∧ Current x w ∧
        uuidsFree x.bodies (committed.flatMap (·.events)) = true ∧
        versionsFree x.bodies w.events = true ∧ accept x.events = .ok ()
    | _ => session.created = false

/-- What two sessions do not do at the same time. -/
structure Apart (x y : Insertion) (session other : Session) : Prop where
  created : session.created = true → other.created = true → x.head.clashes y.head = false
  locks : session.locks x = true → other.locks y = true → x.key ≠ y.key
  flushed : session.flushed = true → other.flushed = true → x.collides y = false

/-- An insertion with an expected version leaves the stream with a version. -/
def Versions (x : Insertion) : Prop :=
  ∀ expected initial, x.versioning = .explicit expected initial → initial.isSome

section Sessions
variable {accept : List RawEvent → Except Error Unit} {x y : Insertion} {session other : Session}
  {committed : Streams}

theorem collides_iff : x.collides y = true ↔ ∃ body ∈ x.bodies, ∃ other ∈ y.bodies,
    body.uuid = other.uuid ∨
      (x.key = y.key ∧ body.version.isSome = true) ∧ body.version = other.version := by
  simp only [Insertion.collides, List.any_eq_true, Bool.or_eq_true, Bool.and_eq_true,
    decide_eq_true_eq]

theorem collides_comm (x y : Insertion) : x.collides y = y.collides x := by
  have himp : ∀ x y : Insertion, x.collides y = true → y.collides x = true := by
    intro x y h
    obtain ⟨body, hbody, other, hother, hsame⟩ := collides_iff.1 h
    refine collides_iff.2 ⟨other, hother, body, hbody, hsame.imp Eq.symm ?_⟩
    rintro ⟨⟨hkey, hgiven⟩, hversion⟩
    exact ⟨⟨hkey.symm, hversion ▸ hgiven⟩, hversion.symm⟩
  exact Bool.eq_iff_iff.2 ⟨himp x y, himp y x⟩

theorem Apart.symm (h : Apart x y session other) : Apart y x other session where
  created h₁ h₂ := (clashes_comm _ _).trans (h.created h₂ h₁)
  locks h₁ h₂ := (h.locks h₂ h₁).symm
  flushed h₁ h₂ := (collides_comm _ _).trans (h.flushed h₂ h₁)

/-- The streams with the one that a session has created are separate. -/
theorem Good.separate (h : Good accept x session committed) (hseparate : Separate committed) :
    Separate (session.base x committed) := by
  unfold Session.base
  split
  · rename_i hcreated
    refine List.pairwise_append.2 ⟨hseparate, List.pairwise_singleton _ _, fun v hv w hw => ?_⟩
    rw [List.mem_singleton.1 hw]
    exact (clashes_comm _ _).trans (h.1 hcreated v hv)
  · exact hseparate

theorem separate_modify {base : Streams} (h : Separate base) (key : Uuid × String)
    (versioning : Versioning) (bodies : List EventBody) :
    Separate (modify key (advanceBy versioning bodies) base) := by
  refine List.pairwise_map.2 (List.Pairwise.imp (fun {v w} hfree => ?_) h)
  split <;> split <;> exact hfree

/-- The streams that a session commits. -/
theorem mem_visible (hstored : session.stage = .stored) {v : StreamView} :
    v ∈ session.visible x committed ↔ ∃ w ∈ session.base x committed,
      (if w.key = x.key then advanceBy x.versioning x.bodies w else w) = v := by
  simp only [Session.visible, hstored, modify, List.mem_map]

/-- A session that creates a stream creates one without events. -/
theorem events_base (session : Session) (x : Insertion) (committed : Streams) :
    (session.base x committed).flatMap (·.events) = committed.flatMap (·.events) := by
  unfold Session.base
  split
  · simp [Insertion.created, createdStream]
  · rfl

/-- A version bump leaves the events. -/
theorem events_bumped (key : Uuid × String) (versioning : Versioning) (base : Streams) :
    (modify key (advanceBy versioning []) base).flatMap (·.events) =
      base.flatMap (·.events) := by
  rw [modify, List.flatMap_map]
  refine List.flatMap_congr fun v _ => ?_
  split
  · exact List.append_nil _
  · rfl

theorem mem_base {v : StreamView} : v ∈ session.base x committed ↔
    v ∈ committed ∨ session.created = true ∧ v = x.created := by
  unfold Session.base
  split
  · rename_i hcreated
    simp [hcreated]
  · rename_i hcreated
    simp [hcreated]

/-- A version that an insertion bumps is one that other insertions do not mind less. -/
theorem compatible_bumped {w : StreamView} (hversions : Versions y)
    (hother : y.versioning.validateIfCompatible w.version = .ok ())
    (h : x.versioning.validateIfCompatible w.version = .ok ()) (bodies : List EventBody) :
    x.versioning.validateIfCompatible (advanceBy y.versioning bodies w).version = .ok () := by
  unfold advanceBy
  dsimp only
  split
  · exact h
  · rename_i hcompared
    cases hversioning : y.versioning with
    | noVersioning => exact absurd (hversioning ▸ rfl) hcompared
    | explicit expected initial =>
      obtain ⟨n, hn⟩ := Option.isSome_iff_exists.1 (hversions expected initial hversioning)
      rw [hversioning] at hother
      cases hheld : w.version with
      | none =>
        rw [hheld] at hother
        cases hother
      | some m =>
        rw [hheld] at h
        cases hx : x.versioning with
        | noVersioning =>
          rw [hx] at h
          cases h
        | explicit expected' initial' =>
          rw [Versioning.initialVersion, hn]
          rfl

theorem Found.transfer {w : StreamView} (h : Found x (session.base x committed) w)
    (hother : Good accept y other committed) (hstored : other.stage = .stored)
    (hseparate : Separate committed) (hversions : Versions y) :
    ∃ w', Found x (session.base x (other.visible y committed)) w' ∧
      (w' = w ∨ w.key = y.key ∧ w' = advanceBy y.versioning y.bodies w) := by
  rcases mem_base.1 h.mem with hmem | ⟨hcreated, rfl⟩
  · have hbase : w ∈ other.base y committed := mem_base.2 (.inl hmem)
    by_cases hkey : w.key = y.key
    · have hafter : advanceBy y.versioning y.bodies w ∈ other.visible y committed :=
        (mem_visible hstored).2 ⟨w, hbase, if_pos hkey⟩
      refine ⟨_, ⟨mem_base.2 (.inl hafter), h.hit, h.name, ?_⟩, .inr ⟨hkey, rfl⟩⟩
      have hgood := hother.2
      rw [hstored] at hgood
      obtain ⟨u, hu, -⟩ := hgood
      have huw : u = w :=
        (hother.separate hseparate).eq_of_key hu.mem hbase (hkey.trans hu.key.symm)
      exact compatible_bumped hversions (huw ▸ hu.compatible) h.compatible y.bodies
    · exact ⟨w, ⟨mem_base.2 (.inl ((mem_visible hstored).2 ⟨w, hbase, if_neg hkey⟩)), h.hit, h.name,
        h.compatible⟩, .inl rfl⟩
  · exact ⟨_, ⟨mem_base.2 (.inr ⟨hcreated, rfl⟩), h.hit, h.name, h.compatible⟩, .inl rfl⟩

theorem Current.transfer {w w' : StreamView} (h : Current x w) (hkey : w.key = x.key)
    (hafter : w' = w ∨ w.key = y.key ∧ w' = advanceBy y.versioning y.bodies w)
    (hlocks : session.locks x = x.versioning.compared.isSome) (hstored : other.stage = .stored)
    (hapart : Apart x y session other) : Current x w' := by
  rcases hafter with rfl | ⟨hsame, rfl⟩
  · exact h
  · intro expected hexpected
    have hmine : session.locks x = true := by
      rw [hlocks, Option.mem_def.1 hexpected]
      rfl
    have hnone : y.versioning.compared = none := by
      by_contra hsome
      have htheirs : other.locks y = true := by
        simp [Session.locks, hstored, Option.isSome_iff_ne_none, hsome]
      exact hapart.locks hmine htheirs (hkey.symm.trans hsame)
    rw [advanceBy, if_pos hnone]
    exact h expected hexpected

theorem not_collides (h : x.collides y = false) {body other : EventBody} (hbody : body ∈ x.bodies)
    (hother : other ∈ y.bodies) : other.uuid ≠ body.uuid ∧
      (x.key = y.key → ∀ version, body.version = some version → other.version ≠ some version) := by
  rw [← Bool.not_eq_true, collides_iff] at h
  refine ⟨fun heq => h ⟨body, hbody, other, hother, .inl heq.symm⟩, ?_⟩
  intro hkey version hmine htheirs
  exact h ⟨body, hbody, other, hother, .inr ⟨⟨hkey, by rw [hmine]; rfl⟩, hmine.trans htheirs.symm⟩⟩

theorem uuidsFree_transfer (h : uuidsFree x.bodies (committed.flatMap (·.events)) = true)
    (hcollides : x.collides y = false) (hstored : other.stage = .stored) :
    uuidsFree x.bodies ((other.visible y committed).flatMap (·.events)) = true := by
  simp only [uuidsFree, Bool.and_eq_true, List.all_eq_true, decide_eq_true_eq, ne_eq] at h ⊢
  refine ⟨h.1, fun body hbody held hheld => ?_⟩
  obtain ⟨v, hv, hheld⟩ := List.mem_flatMap.1 hheld
  obtain ⟨w, hw, rfl⟩ := (mem_visible hstored).1 hv
  have hcases : held ∈ w.events ∨ held ∈ y.bodies := by
    split at hheld
    · exact List.mem_append.1 hheld
    · exact .inl hheld
  rcases hcases with hheld | hheld
  · refine h.2 body hbody held ?_
    rw [← events_base other y]
    exact List.mem_flatMap.2 ⟨w, hw, hheld⟩
  · exact (not_collides hcollides hbody hheld).1

theorem versionsFree_transfer {w w' : StreamView} (h : versionsFree x.bodies w.events = true)
    (hkey : w.key = x.key)
    (hafter : w' = w ∨ w.key = y.key ∧ w' = advanceBy y.versioning y.bodies w)
    (hcollides : x.collides y = false) : versionsFree x.bodies w'.events = true := by
  rcases hafter with rfl | ⟨hsame, rfl⟩
  · exact h
  · simp only [versionsFree, Bool.and_eq_true, List.all_eq_true, decide_eq_true_eq, ne_eq] at h ⊢
    refine ⟨h.1, fun version hversion held hheld => ?_⟩
    rcases List.mem_append.1 hheld with hheld | hheld
    · exact h.2 version hversion held hheld
    · obtain ⟨body, hbody, hgiven⟩ := List.mem_filterMap.1 hversion
      exact (not_collides hcollides hbody hheld).2 (hkey.symm.trans hsame) version hgiven

/-- What a session knows stays true when another one commits. -/
theorem Good.transfer (h : Good accept x session committed)
    (hother : Good accept y other committed) (hstored : other.stage = .stored)
    (hapart : Apart x y session other) (hseparate : Separate committed) (hversions : Versions y) :
    Good accept x session (other.visible y committed) := by
  refine ⟨fun hcreated v hv => ?_, ?_⟩
  · obtain ⟨w, hw, rfl⟩ := (mem_visible hstored).1 hv
    have hfree : x.head.clashes w.toStreamHead = false := by
      rcases mem_base.1 hw with hw | ⟨htheirs, rfl⟩
      · exact h.1 hcreated w hw
      · exact hapart.created hcreated htheirs
    split <;> exact hfree
  · have hgood := h.2
    cases hstage : session.stage with
    | ensured stream =>
      rw [hstage] at hgood
      obtain ⟨hkey, w, hw⟩ := hgood
      obtain ⟨w', hw', -⟩ := hw.transfer hother hstored hseparate hversions
      exact ⟨hkey, w', hw'⟩
    | bumped stream =>
      rw [hstage] at hgood
      obtain ⟨hkey, w, hw, hcurrent⟩ := hgood
      obtain ⟨w', hw', hafter⟩ := hw.transfer hother hstored hseparate hversions
      refine ⟨hkey, w', hw', hcurrent.transfer hw.key hafter ?_ hstored hapart⟩
      rw [Session.locks, hstage]
    | stored =>
      rw [hstage] at hgood
      obtain ⟨w, hw, hcurrent, huuids, hfree, haccept⟩ := hgood
      obtain ⟨w', hw', hafter⟩ := hw.transfer hother hstored hseparate hversions
      have hcollides : x.collides y = false := by
        refine hapart.flushed ?_ ?_
        · rw [Session.flushed, hstage]
        · rw [Session.flushed, hstored]
      refine ⟨w', hw', hcurrent.transfer hw.key hafter ?_ hstored hapart,
        uuidsFree_transfer huuids hcollides hstored,
        versionsFree_transfer hfree hw.key hafter hcollides, haccept⟩
      rw [Session.locks, hstage]
    | _ =>
      rw [hstage] at hgood
      exact hgood

/-- The stream of an insertion is compared with its own stream id. -/
theorem Found.compares {base : Streams} {w : StreamView} (h : Found x base w) :
    w.compares x.streamId = true := by
  obtain ⟨huuid, hcategory⟩ := Prod.mk.inj h.key
  simp only [StreamHead.compares, Bool.and_eq_true, decide_eq_true_eq, Option.all_eq_true]
  refine ⟨⟨huuid, fun name hname => ?_⟩, hcategory⟩
  simp only [StreamId.truthyName, Option.filter_eq_some_iff] at hname
  rcases h.name with hnone | hheld
  · rw [hname.1] at hnone
    cases hnone
  · exact hheld.trans hname.1

/-- The version bump of a session finds its stream at the expected version. -/
theorem Found.bump {base : Streams} {w : StreamView} (h : Found x base w) (hcurrent : Current x w)
    (hseparate : Separate base) : SqlAlchemyViews.bump x.streamId x.versioning base =
      .ok (modify x.key (advanceBy x.versioning []) base) := by
  unfold SqlAlchemyViews.bump
  cases hcompared : x.versioning.compared with
  | none => rw [modify_advanceBy_of_not_compared hcompared]
  | some expected =>
    have hhit : ∀ v ∈ base, (v.compares x.streamId && v.version = some expected) = true ↔
        v = w := by
      intro v hv
      rw [Bool.and_eq_true, decide_eq_true_eq]
      constructor
      · rintro ⟨hcompares, -⟩
        exact hseparate.eq_of_key hv h.mem (h.key.trans (columns_of_compares hcompares).symm)
      · rintro rfl
        exact ⟨h.compares, hcurrent expected hcompared⟩
    have hone : base.countP (fun v => v.compares x.streamId && v.version = some expected) = 1 := by
      rw [List.countP_eq_length_filter,
        filter_eq_singleton (List.Nodup.of_map _ hseparate.keys) h.mem hhit]
      rfl
    obtain ⟨-, hmodify⟩ := modify_advanceBy_of_bump hseparate.keys h.mem h.key hcompared
      (fun v hv => by
        rw [Bool.and_eq_true, decide_eq_true_eq] at hv
        exact ⟨columns_of_compares hv.1, hv.2⟩) hone
    dsimp only
    rw [if_neg (not_not.2 hone), hmodify]

/-- The streams that a session has before its own changes are those of its search. -/
theorem Good.opened (h : Good accept x session committed) {w : StreamView}
    (hw : Found x (session.base x committed) w) :
    SqlAlchemyViews.opened x.streamId x.versioning.initialVersion committed =
      session.base x committed := by
  unfold SqlAlchemyViews.opened Session.base
  dsimp only
  cases hcreated : session.created with
  | true =>
    have hclear : ∀ v ∈ committed, v.addressed x.streamId = false ∧
        x.head.clashes v.toStreamHead = false := by
      intro v hv
      have hfree := h.1 hcreated v hv
      refine ⟨Bool.eq_false_iff.2 fun hmatch => ?_, hfree⟩
      exact Bool.false_ne_true (hfree.symm.trans (clashes_of_addressed hmatch _))
    have hnone : (committed.any (fun v => v.addressed x.streamId) ||
        committed.any fun v => x.head.clashes v.toStreamHead) = false := by
      rw [Bool.or_eq_false_iff]
      exact ⟨List.any_eq_false.2 fun v hv => by simp [(hclear v hv).1],
        List.any_eq_false.2 fun v hv => by simp [(hclear v hv).2]⟩
    exact if_neg (by rw [Bool.not_eq_true]; exact hnone)
  | false =>
    have hmem : w ∈ committed := by
      rcases mem_base.1 hw.mem with hmem | ⟨hmine, -⟩
      · exact hmem
      · rw [hcreated] at hmine
        cases hmine
    have hmatch : committed.any (fun v => v.addressed x.streamId) = true :=
      List.any_eq_true.2 ⟨w, hmem, addressed_of_columns hw.key⟩
    rw [if_pos (by rw [hmatch]; rfl)]
    rfl

/-- What a session commits is what its insertion makes of the streams at that moment. -/
theorem Good.insert (h : Good accept x session committed) (hstored : session.stage = .stored)
    (hseparate : Separate committed) :
    SqlAlchemyViews.insert (accept x.events) x.streamId x.versioning x.events committed =
      .ok (session.visible x committed) := by
  have hgood := h.2
  rw [hstored] at hgood
  obtain ⟨w, hw, hcurrent, huuids, hfree, haccept⟩ := hgood
  have hbase := h.separate hseparate
  unfold SqlAlchemyViews.insert
  rw [h.opened hw]
  dsimp only
  rw [hw.chooseStream hbase]
  simp only [bind, Except.bind]
  rw [hw.compatible]
  dsimp only
  rw [hw.bump hcurrent hbase]
  dsimp only [SqlAlchemyViews.store]
  rw [events_bumped, events_base,
    if_pos (by rw [Bool.and_eq_true]; exact ⟨huuids, hfree⟩), haccept, hw.key]
  simp only [Except.map, modify_advanceBy, Session.visible, hstored]
  rfl

end Sessions

end EventSourcery.Sql.SqlAlchemyTransactions
