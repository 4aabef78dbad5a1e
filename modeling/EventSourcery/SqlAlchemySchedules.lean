import Mathlib.Algebra.Order.BigOperators.Group.Finset
import EventSourcery.SqlAlchemyTransactions
import EventSourcery.SqlAlchemyVersions

/-!
# Schedules of concurrent appends on SQLAlchemy

Whatever comes between the statements of a session, what is committed is what the same insertions
would have made one after the other, in the order of the commits. Sessions do not wait for one
another in a circle: they all come to an end.
-/
namespace EventSourcery.Sql.SqlAlchemyTransactions

section Invariant
variable {ι : Type} {accept : List RawEvent → Except Error Unit} {xs : ι → Insertion}
  {s s' : State ι} {i : ι}

structure Inv (accept : List RawEvent → Except Error Unit) (xs : ι → Insertion) (s : State ι) :
    Prop where
  separate : Separate s.committed
  good : ∀ i, Good accept (xs i) (s.sessions i) s.committed
  apart : ∀ i j, i ≠ j → Apart (xs i) (xs j) (s.sessions i) (s.sessions j)

theorem apart_of_unlocked {x y : Insertion} {session other : Session}
    (hcreated : session.created = true → other.created = true → x.head.clashes y.head = false)
    (hlocks : session.locks x = false) (hflushed : session.flushed = false) :
    Apart x y session other where
  created := hcreated
  locks h := absurd (hlocks.symm.trans h) Bool.false_ne_true
  flushed h := absurd (hflushed.symm.trans h) Bool.false_ne_true

/-- A session that has written nothing is apart from all others. -/
theorem apart_of_clear {x y : Insertion} {session other : Session}
    (hcreated : session.created = false) (hlocks : session.locks x = false)
    (hflushed : session.flushed = false) : Apart x y session other :=
  apart_of_unlocked (fun h => absurd (hcreated.symm.trans h) Bool.false_ne_true) hlocks hflushed

theorem inv_initial : Inv accept xs {} where
  separate := List.Pairwise.nil
  good := fun _ => ⟨fun h => absurd h Bool.false_ne_true, rfl⟩
  apart := fun _ _ _ => apart_of_clear rfl rfl rfl

theorem good_rolledBack (x : Insertion) (e : Option Error) (committed : Streams) :
    Good accept x { stage := .rolledBack e } committed :=
  ⟨fun h => absurd h Bool.false_ne_true, rfl⟩

variable [DecidableEq ι]

/-- A statement that changes nothing but its own session. -/
theorem Inv.set (h : Inv accept xs s) {session : Session}
    (hgood : Good accept (xs i) session s.committed)
    (hapart : ∀ j, j ≠ i → Apart (xs i) (xs j) session (s.sessions j)) :
    Inv accept xs (s.set i session) := by
  refine ⟨h.separate, fun j => ?_, fun j k hjk => ?_⟩
  · by_cases hj : j = i
    · subst hj
      simpa [State.set] using hgood
    · simpa [State.set, hj] using h.good j
  · by_cases hj : j = i
    · subst hj
      simpa [State.set, Ne.symm hjk] using hapart k (Ne.symm hjk)
    · by_cases hk : k = i
      · subst hk
        simpa [State.set, hj] using (hapart j hj).symm
      · simpa [State.set, hj, hk] using h.apart j k hjk

theorem Inv.rolledBack (h : Inv accept xs s) (e : Option Error) :
    Inv accept xs (s.set i { stage := .rolledBack e }) :=
  h.set (good_rolledBack _ _ _) fun _ _ => apart_of_clear rfl rfl rfl

/-- The choice of a stream. -/
theorem Inv.choose (h : Inv accept xs s)
    (hvisible : s.visible xs i = (s.sessions i).base (xs i) s.committed) :
    Inv accept xs (s.set i ((s.sessions i).choose (xs i) (s.visible xs i))) := by
  have hbase := (h.good i).separate h.separate
  rw [hvisible]
  rcases choose_cases hbase (s.sessions i) with ⟨e, he⟩ | ⟨w, hw, hfound⟩
  · rw [he]
    exact h.rolledBack _
  · rw [hw]
    exact h.set ⟨(h.good i).1, hfound.key, w, hfound⟩ fun j hj =>
      apart_of_unlocked (h.apart i j hj.symm).created rfl rfl

variable [Fintype ι]

theorem Inv.select (h : Inv accept xs s) (hstep : step accept xs s (i, .select) = some s') :
    Inv accept xs s' := by
  cases hstage : (s.sessions i).stage with
  | start =>
    have hvisible : s.visible xs i = (s.sessions i).base (xs i) s.committed := by
      simp only [State.visible, Session.visible, hstage]
    simp only [step, hstage] at hstep
    split at hstep
    · cases hstep
      exact h.choose hvisible
    · cases hstep
      have hcreated : (s.sessions i).created = false := by
        have hgood := (h.good i).2
        rwa [hstage] at hgood
      exact h.set ⟨fun hmine => by simp [hcreated] at hmine, hcreated⟩ fun j _ =>
        apart_of_clear hcreated rfl rfl
  | opened =>
    simp only [step, hstage, Option.some.injEq] at hstep
    subst hstep
    apply h.choose
    simp only [State.visible, Session.visible, hstage]
  | _ => simp [step, hstage] at hstep

theorem Inv.insertStream (h : Inv accept xs s)
    (hstep : step accept xs s (i, .insert) = some s') : Inv accept xs s' := by
  cases hstage : (s.sessions i).stage with
  | unmatched =>
    simp only [step, hstage] at hstep
    split at hstep
    · cases hstep
    · rename_i hfree
      split at hstep
      · cases hstep
        exact h.set ⟨fun hmine => absurd hmine Bool.false_ne_true, trivial⟩ fun j _ =>
          apart_of_clear rfl rfl rfl
      · rename_i hclear
        cases hstep
        rw [Bool.not_eq_true, List.any_eq_false] at hclear
        refine h.set ⟨fun _ v hv => Bool.eq_false_iff.2 (hclear v hv), trivial⟩ fun j hj => ?_
        refine apart_of_unlocked (fun _ htheirs => ?_) rfl rfl
        exact Bool.eq_false_iff.2 fun hclash => hfree ⟨j, hj, htheirs, hclash⟩
  | _ => simp [step, hstage] at hstep

theorem Inv.bump (h : Inv accept xs s) (hstep : step accept xs s (i, .bump) = some s') :
    Inv accept xs s' := by
  cases hstage : (s.sessions i).stage with
  | ensured stream =>
    obtain ⟨hcreated, hgood⟩ := h.good i
    rw [hstage] at hgood
    obtain ⟨hkey, w, hw⟩ := hgood
    cases hcompared : (xs i).versioning.compared with
    | none =>
      simp only [step, hstage, hcompared, Option.some.injEq] at hstep
      subst hstep
      refine h.set ⟨hcreated, hkey, w, hw, fun e he => ?_⟩ fun j hj => ?_
      · rw [hcompared] at he
        cases he
      · refine apart_of_unlocked (h.apart i j hj.symm).created ?_ rfl
        simp [Session.locks, hcompared]
    | some expected =>
      simp only [step, hstage, hcompared] at hstep
      split at hstep
      · cases hstep
        exact h.rolledBack _
      · rename_i hone
        split at hstep
        · cases hstep
        · rename_i hfree
          cases hstep
          have hvisible : s.visible xs i = (s.sessions i).base (xs i) s.committed := by
            simp only [State.visible, Session.visible, hstage]
          rw [hvisible, not_not] at hone
          obtain ⟨hversion, -⟩ := modify_advanceBy_of_bump
            ((h.good i).separate h.separate).keys hw.mem hw.key hcompared (fun v hv => by
              rw [Bool.and_eq_true, decide_eq_true_eq] at hv
              exact ⟨columns_of_compares hv.1, hv.2⟩) hone
          refine h.set ⟨hcreated, hkey, w, hw, fun e he => ?_⟩ fun j hj => ?_
          · rw [hcompared, Option.mem_some_iff] at he
            rw [hversion, he]
          · refine ⟨(h.apart i j hj.symm).created, fun _ htheirs hsame => ?_,
              fun hflushed => absurd hflushed Bool.false_ne_true⟩
            exact hfree ⟨j, hj, htheirs, hsame.symm⟩
  | _ => simp [step, hstage] at hstep

theorem heldBy_eq {streams : Streams} (hseparate : Separate streams) {v : StreamView}
    (hv : v ∈ streams) : heldBy v.key streams = v.events := by
  have hone : streams.filter (fun u => u.key = v.key) = [v] := by
    refine filter_eq_singleton (List.Nodup.of_map _ hseparate.keys) hv fun u hu => ?_
    rw [decide_eq_true_eq]
    exact ⟨fun hkey => hseparate.eq_of_key hu hv hkey.symm, fun huv => by rw [huv]⟩
  rw [heldBy, hone, List.flatMap_singleton]

theorem Inv.store (h : Inv accept xs s) (hstep : step accept xs s (i, .store) = some s') :
    Inv accept xs s' := by
  cases hstage : (s.sessions i).stage with
  | bumped stream =>
    obtain ⟨hcreated, hgood⟩ := h.good i
    rw [hstage] at hgood
    obtain ⟨hkey, w, hw, hcurrent⟩ := hgood
    have hbase := (h.good i).separate h.separate
    have hvisible : s.visible xs i = modify (xs i).key (advanceBy (xs i).versioning [])
        ((s.sessions i).base (xs i) s.committed) := by
      simp only [State.visible, Session.visible, hstage]
    have hheld : heldBy stream.key (s.visible xs i) = w.events := by
      have hmem : advanceBy (xs i).versioning [] w ∈ s.visible xs i := by
        rw [hvisible]
        exact List.mem_map.2 ⟨w, hw.mem, if_pos hw.key⟩
      have hheld := heldBy_eq (hvisible ▸ separate_modify hbase _ _ _) hmem
      rw [key_advanceBy, hw.key, ← hkey] at hheld
      rw [hheld]
      exact List.append_nil _
    simp only [step, hstage] at hstep
    split at hstep
    · cases hstep
    · rename_i hfree
      split at hstep
      · rename_i hunique
        rw [hheld, hvisible, events_bumped, events_base, Bool.and_eq_true] at hunique
        cases haccept : accept (xs i).events with
        | error e =>
          rw [haccept] at hstep
          cases hstep
          exact h.rolledBack _
        | ok u =>
          rw [haccept] at hstep
          cases hstep
          refine h.set ⟨hcreated, w, hw, hcurrent, hunique.1, hunique.2, haccept⟩ fun j hj => ?_
          refine ⟨(h.apart i j hj.symm).created, fun hmine => ?_, fun _ htheirs => ?_⟩
          · refine (h.apart i j hj.symm).locks ?_
            rw [Session.locks, hstage]
            exact hmine
          · exact Bool.eq_false_iff.2 fun hcollides => hfree ⟨j, hj, htheirs, hcollides⟩
      · cases hstep
        exact h.rolledBack _
  | _ => simp [step, hstage] at hstep

/-- What a commit leaves. -/
theorem commit_spec (hstep : step accept xs s (i, .commit) = some s') :
    (s.sessions i).stage = .stored ∧ s' = { committed := s.visible xs i
                                            sessions := Function.update s.sessions i
                                              { stage := .committed }
                                            history := s.history ++ [i] } := by
  cases hstage : (s.sessions i).stage with
  | stored =>
    simp only [step, hstage, Option.some.injEq] at hstep
    exact ⟨rfl, hstep.symm⟩
  | _ => simp [step, hstage] at hstep

theorem Inv.commit (h : Inv accept xs s) (hversions : ∀ i, Versions (xs i))
    (hstep : step accept xs s (i, .commit) = some s') : Inv accept xs s' := by
  obtain ⟨hstored, rfl⟩ := commit_spec hstep
  have hseparate : Separate (s.visible xs i) := by
    simp only [State.visible, Session.visible, hstored]
    exact separate_modify ((h.good i).separate h.separate) _ _ _
  refine ⟨hseparate, fun j => ?_, fun j k hjk => ?_⟩
  · by_cases hj : j = i
    · subst hj
      simp only [Function.update_self]
      exact ⟨fun hcreated => absurd hcreated Bool.false_ne_true, rfl⟩
    · simp only [Function.update_of_ne hj]
      exact (h.good j).transfer (h.good i) hstored (h.apart j i hj) h.separate (hversions i)
  · by_cases hj : j = i
    · subst hj
      simp only [Function.update_self]
      exact apart_of_clear rfl rfl rfl
    · by_cases hk : k = i
      · subst hk
        simp only [Function.update_self]
        exact (apart_of_clear rfl rfl rfl).symm
      · simp only [Function.update_of_ne hj, Function.update_of_ne hk]
        exact h.apart j k hjk

theorem Inv.step (h : Inv accept xs s) (hversions : ∀ i, Versions (xs i)) {statement : Statement}
    (hstep : step accept xs s (i, statement) = some s') : Inv accept xs s' := by
  cases statement with
  | select => exact h.select hstep
  | insert => exact h.insertStream hstep
  | bump => exact h.bump hstep
  | store => exact h.store hstep
  | commit => exact h.commit hversions hstep
  | rollback =>
    simp only [SqlAlchemyTransactions.step] at hstep
    split at hstep
    · cases hstep
      exact h.rolledBack _
    · cases hstep

end Invariant

/-! ## Runs -/

section Runs
open AppendAttempts Runs
variable {ι : Type} [Fintype ι] [DecidableEq ι] {accept : List RawEvent → Except Error Unit}
  {xs : ι → Insertion} {s s' : State ι} {i : ι} {schedule : List (ι × Statement)}

theorem choose_stage (x : Insertion) (session : Session) (streams : Streams) :
    (session.choose x streams).stage ≠ .committed := by
  rcases choose_outcome x session streams with ⟨e, he⟩ | ⟨w, hw, -⟩
  · rw [he]
    exact Stage.noConfusion
  · rw [hw]
    exact Stage.noConfusion

/-- A statement other than a commit changes its own session only. -/
theorem step_private {statement : Statement}
    (hstep : step accept xs s (i, statement) = some s') (hne : statement ≠ .commit) :
    (s.sessions i).stage ≠ .committed ∧
      ∃ session : Session, session.stage ≠ .committed ∧ s' = s.set i session := by
  have hcommitted : (s.sessions i).stage ≠ .committed := by
    intro hstage
    cases statement <;> simp [step, hstage, Session.running] at hstep
  refine ⟨hcommitted, ?_⟩
  cases statement with
  | select =>
    simp only [step] at hstep
    repeat' split at hstep
    all_goals cases hstep
    · exact ⟨_, choose_stage _ _ _, rfl⟩
    · exact ⟨_, Stage.noConfusion, rfl⟩
    · exact ⟨_, choose_stage _ _ _, rfl⟩
  | insert =>
    simp only [step] at hstep
    repeat' split at hstep
    all_goals cases hstep
    all_goals exact ⟨_, Stage.noConfusion, rfl⟩
  | bump =>
    simp only [step] at hstep
    repeat' split at hstep
    all_goals cases hstep
    all_goals exact ⟨_, Stage.noConfusion, rfl⟩
  | store =>
    simp only [step] at hstep
    repeat' split at hstep
    all_goals cases hstep
    · refine ⟨_, ?_, rfl⟩
      cases accept (xs i).events <;> exact Stage.noConfusion
    · exact ⟨_, Stage.noConfusion, rfl⟩
  | commit => exact absurd rfl hne
  | rollback =>
    simp only [step] at hstep
    split at hstep
    · cases hstep
      exact ⟨_, Stage.noConfusion, rfl⟩
    · cases hstep

/-- The sessions that have committed, each of them once. -/
theorem history_spec (h : exec (step accept xs) {} schedule = some s) :
    s.history.Nodup ∧ ∀ i, i ∈ s.history ↔ (s.sessions i).stage = .committed := by
  refine exec_invariant (fun s => s.history.Nodup ∧
      ∀ i, i ∈ s.history ↔ (s.sessions i).stage = .committed) (fun _ => True)
    (fun s a s' _ hs hstep => ?_) (fun _ _ => trivial) ⟨List.nodup_nil, fun _ => ?_⟩ h
  · obtain ⟨i, statement⟩ := a
    obtain ⟨hnodup, hiff⟩ := hs
    by_cases hcommit : statement = .commit
    · subst hcommit
      obtain ⟨hstored, rfl⟩ := commit_spec hstep
      have hnew : i ∉ s.history := by
        rw [hiff, hstored]
        exact Stage.noConfusion
      refine ⟨List.concat_eq_append ▸ hnodup.concat hnew, fun j => ?_⟩
      by_cases hj : j = i
      · subst hj
        simp
      · simp [hj, hiff]
    · obtain ⟨hrunning, session, hsession, rfl⟩ := step_private hstep hcommit
      refine ⟨hnodup, fun j => ?_⟩
      by_cases hj : j = i
      · subst hj
        simp [State.set, hiff, hrunning, hsession]
      · simp [State.set, hj, hiff]
  · exact ⟨fun hmem => (by cases hmem), fun hstage => Stage.noConfusion hstage⟩

/-- What every commit keeps, a schedule keeps. -/
theorem commits_keep {P : List ι → Streams → Prop} (hversions : ∀ i, Versions (xs i))
    (h0 : P [] []) (hcommit : ∀ (past : List ι) streams streams' i, P past streams →
      Separate streams → SqlAlchemyViews.insert (accept (xs i).events) (xs i).streamId
        (xs i).versioning (xs i).events streams = .ok streams' → P (past ++ [i]) streams')
    (h : exec (step accept xs) {} schedule = some s) : P s.history s.committed := by
  refine (exec_invariant (fun s => Inv accept xs s ∧ P s.history s.committed) (fun _ => True)
    (fun s a s' _ hs hstep => ?_) (fun _ _ => trivial) ⟨inv_initial, h0⟩ h).2
  obtain ⟨i, statement⟩ := a
  refine ⟨hs.1.step hversions hstep, ?_⟩
  by_cases hstatement : statement = .commit
  · subst hstatement
    obtain ⟨hstored, rfl⟩ := commit_spec hstep
    exact hcommit _ _ _ i hs.2 hs.1.separate ((hs.1.good i).insert hstored hs.1.separate)
  · obtain ⟨-, session, -, rfl⟩ := step_private hstep hstatement
    exact hs.2

theorem eq_of_length_le_one {α : Type} {as : List α} (h : as.length ≤ 1) {a b : α} (ha : a ∈ as)
    (hb : b ∈ as) : a = b := by
  match as with
  | [c] => rw [List.mem_singleton.1 ha, List.mem_singleton.1 hb]
  | _ :: _ :: _ => simp at h

/-- Where the insertions are those of appends of bare events, every stream is numbered without a
gap or a repetition, and of two sessions that append with the same expected version to the same
stream one commits at most. -/
theorem concurrent_appends_numbered {E : Type} {serde : Serde E} {attempts : ι → Attempt E}
    (hrequests : ∀ i, EventStore.request serde (attempts i).call = .ok (xs i).request)
    (h : exec (step accept xs) {} schedule = some s) :
    let past : History E := s.history.map fun i => (attempts i, .ok [])
    (∀ v ∈ s.committed, Numbered past v) ∧ Once past ∧
      ∀ i ∈ s.history, ∀ j ∈ s.history, (attempts i).key = (attempts j).key →
        ∀ v, (attempts i).expected = .version v → (attempts j).expected = .version v → i = j := by
  intro past
  have hrequest : ∀ i, (xs i).streamId = (attempts i).streamId ∧
      (xs i).versioning = (attempts i).versioning ∧
      (xs i).events.map (·.version) = (attempts i).versions := by
    intro i
    obtain ⟨raws, hraws, hversions⟩ := request_attempt (hrequests i)
    obtain ⟨hstream, hversioning, hevents⟩ := Request.insert.inj hraws
    exact ⟨hstream, hversioning, hevents ▸ hversions⟩
  have hversions : ∀ i, Versions (xs i) := by
    intro i expected initial hgiven
    rw [(hrequest i).2.1, Attempt.versioning] at hgiven
    split at hgiven <;> cases hgiven
    rfl
  have hkept : Kept past s.committed := by
    refine commits_keep (P := fun past streams =>
      Kept (past.map fun i => (attempts i, (.ok [] : EventStore.Answer E))) streams)
      hversions kept_empty (fun past streams streams' i hpast hseparate hinsert => ?_) h
    obtain ⟨hstream, hversioning, hevents⟩ := hrequest i
    rw [hstream, hversioning] at hinsert
    have hextends := (SqlAlchemyVersions.insert_extends hseparate.keys hevents hinsert).1
    rw [List.map_append]
    exact hpast.success hextends
      (fun hzero => SqlAlchemyVersions.insert_fresh hpast hzero hevents hinsert) []
  refine ⟨hkept.numbered, hkept.once, fun i hi j hj hkey v hiv hjv => ?_⟩
  have honce := hkept.once (attempts i).key v
  simp only [past, successes, List.filter_map, List.map_map, List.countP_map, List.countP_filter]
    at honce
  rw [List.countP_eq_length_filter] at honce
  refine eq_of_length_le_one honce (List.mem_filter.2 ⟨hi, ?_⟩) (List.mem_filter.2 ⟨hj, ?_⟩)
  · simp [hiv, Except.isOk, Except.toBool]
  · simp [hjv, hkey, Except.isOk, Except.toBool]

/-! ## Waiting -/

/-- A session at which some statement other than a rollback is possible. -/
def Proceeds (accept : List RawEvent → Except Error Unit) (xs : ι → Insertion) (s : State ι) :
    Prop :=
  ∃ j statement, statement ≠ .rollback ∧ (step accept xs s (j, statement)).isSome = true

theorem proceeds_of_stored (hstage : (s.sessions i).stage = .stored) : Proceeds accept xs s :=
  ⟨i, .commit, Statement.noConfusion, by simp [step, hstage]⟩

/-- Events wait only for those that are flushed already, whose session commits. -/
theorem proceeds_of_bumped {stream : StreamView} (hstage : (s.sessions i).stage = .bumped stream) :
    Proceeds accept xs s := by
  by_cases hwaits : ∃ j, j ≠ i ∧ (s.sessions j).flushed ∧ (xs i).collides (xs j)
  · obtain ⟨j, -, hflushed, -⟩ := hwaits
    cases hother : (s.sessions j).stage with
    | stored => exact proceeds_of_stored hother
    | _ => simp [Session.flushed, hother] at hflushed
  · refine ⟨i, .store, Statement.noConfusion, ?_⟩
    simp only [step, hstage, if_neg hwaits]
    split <;> rfl

/-- A version bump waits only for a session that has bumped a version. -/
theorem proceeds_of_ensured {stream : StreamView}
    (hstage : (s.sessions i).stage = .ensured stream) : Proceeds accept xs s := by
  by_cases hwaits : ∃ j, j ≠ i ∧ (s.sessions j).locks (xs j) ∧ (xs j).key = (xs i).key
  · obtain ⟨j, -, hlocks, -⟩ := hwaits
    cases hother : (s.sessions j).stage with
    | bumped stream => exact proceeds_of_bumped hother
    | stored => exact proceeds_of_stored hother
    | _ => simp [Session.locks, hother] at hlocks
  · refine ⟨i, .bump, Statement.noConfusion, ?_⟩
    cases hcompared : (xs i).versioning.compared with
    | none => simp [step, hstage, hcompared]
    | some expected =>
      simp only [step, hstage, hcompared, if_neg hwaits]
      split <;> rfl

theorem proceeds_of_select (h : (step accept xs s (i, .select)).isSome = true) :
    Proceeds accept xs s := ⟨i, .select, Statement.noConfusion, h⟩

/-- How many statements a session has left at most. -/
def Session.left (session : Session) : ℕ :=
  match session.stage with
  | .start => 6
  | .unmatched => 5
  | .opened => 4
  | .ensured _ => 3
  | .bumped _ => 2
  | .stored => 1
  | .committed | .rolledBack _ => 0

/-- A session that has created its stream is past that statement, and still runs. -/
def Session.Past (session : Session) : Prop :=
  session.created = true → 0 < session.left ∧ session.left ≤ 4

/-- Sessions never all wait for one another. -/
theorem proceeds_of_running (hpast : ∀ j, (s.sessions j).Past)
    (hrunning : (s.sessions i).running = true) : Proceeds accept xs s := by
  cases hstage : (s.sessions i).stage with
  | start =>
    refine proceeds_of_select (i := i) ?_
    simp only [step, hstage]
    split <;> rfl
  | opened => exact proceeds_of_select (i := i) (by simp [step, hstage])
  | ensured stream => exact proceeds_of_ensured hstage
  | bumped stream => exact proceeds_of_bumped hstage
  | stored => exact proceeds_of_stored hstage
  | unmatched =>
    by_cases hwaits : ∃ j, j ≠ i ∧ (s.sessions j).created ∧ (xs i).head.clashes (xs j).head
    · -- the session that has created the stream is past the statement that this one waits at
      obtain ⟨j, -, hcreated, -⟩ := hwaits
      have hleft := hpast j hcreated
      cases hother : (s.sessions j).stage with
      | opened => exact proceeds_of_select (i := j) (by simp [step, hother])
      | ensured stream => exact proceeds_of_ensured hother
      | bumped stream => exact proceeds_of_bumped hother
      | stored => exact proceeds_of_stored hother
      | _ => simp [Session.left, hother] at hleft
    · refine ⟨i, .insert, Statement.noConfusion, ?_⟩
      simp only [step, hstage, if_neg hwaits]
      split <;> rfl
  | _ => simp [Session.running, hstage] at hrunning

theorem left_choose (x : Insertion) (session : Session) (streams : Streams) :
    (session.choose x streams).left ≤ 3 ∧ (session.choose x streams).Past := by
  rcases choose_outcome x session streams with ⟨e, he⟩ | ⟨w, hw, -⟩
  · rw [he]
    exact ⟨Nat.zero_le _, fun h => by cases h⟩
  · rw [hw]
    exact ⟨le_rfl, fun _ => ⟨Nat.succ_pos 2, Nat.le_succ 3⟩⟩

/-- Every statement brings its session on. -/
theorem left_step {statement : Statement} (hpast : (s.sessions i).Past)
    (hstep : step accept xs s (i, statement) = some s') :
    ∃ session, s'.sessions = Function.update s.sessions i session ∧
      session.left < (s.sessions i).left ∧ session.Past := by
  cases statement with
  | select =>
    simp only [step] at hstep
    split at hstep
    · rename_i hstage
      split at hstep
      all_goals cases hstep
      · refine ⟨_, rfl, (left_choose _ _ _).1.trans_lt ?_, (left_choose _ _ _).2⟩
        simp [Session.left, hstage]
      · refine ⟨_, rfl, by simp [Session.left, hstage], fun hcreated => ?_⟩
        have hleft := hpast hcreated
        simp [Session.left, hstage] at hleft
    · rename_i hstage
      cases hstep
      refine ⟨_, rfl, (left_choose _ _ _).1.trans_lt ?_, (left_choose _ _ _).2⟩
      simp [Session.left, hstage]
    · cases hstep
  | insert =>
    simp only [step] at hstep
    split at hstep
    · rename_i hstage
      repeat' split at hstep
      all_goals cases hstep
      all_goals exact ⟨_, rfl, by simp [Session.left, hstage], by simp [Session.Past, Session.left]⟩
    · cases hstep
  | bump =>
    simp only [step] at hstep
    split at hstep
    · rename_i hstage _
      cases hstep
      exact ⟨_, rfl, by simp [Session.left, hstage], by simp [Session.Past, Session.left]⟩
    · rename_i hstage _
      repeat' split at hstep
      all_goals cases hstep
      all_goals
        exact ⟨_, rfl, by simp [Session.left, Session.proceed, hstage],
          by simp [Session.Past, Session.left, Session.proceed]⟩
    · cases hstep
  | store =>
    simp only [step] at hstep
    split at hstep
    · rename_i hstage
      repeat' split at hstep
      all_goals cases hstep
      · refine ⟨_, rfl, ?_⟩
        cases accept (xs i).events <;>
          simp [Session.left, Session.Past, Session.proceed, Except.map, hstage]
      · exact ⟨_, rfl, by simp [Session.left, Session.proceed, hstage],
          by simp [Session.Past, Session.proceed]⟩
    · cases hstep
  | commit =>
    obtain ⟨hstored, rfl⟩ := commit_spec hstep
    exact ⟨_, rfl, by simp [Session.left, hstored], by simp [Session.Past]⟩
  | rollback =>
    simp only [step] at hstep
    split at hstep
    · rename_i hrunning
      cases hstep
      refine ⟨_, rfl, ?_, by simp [Session.Past]⟩
      revert hrunning
      unfold Session.running Session.left
      cases (s.sessions i).stage <;> simp
    · cases hstep

/-- Sessions come to an end: they execute six statements each at most, and where nothing is
possible any more but to roll back, none is left that could be rolled back. -/
theorem sessions_finish (h : exec (step accept xs) {} schedule = some s) :
    schedule.length ≤ 6 * Fintype.card ι ∧
      ((∀ i statement, statement ≠ .rollback → step accept xs s (i, statement) = none) →
        ∀ i, (s.sessions i).running = false) := by
  have hkept : schedule.length + ∑ i, (s.sessions i).left ≤ 6 * Fintype.card ι ∧
      ∀ i, (s.sessions i).Past := by
    refine exec_history (P := fun past s => past.length + ∑ i, (s.sessions i).left ≤
      6 * Fintype.card ι ∧ ∀ i, (s.sessions i).Past) (fun past s a s' hs hstep => ?_) ?_ h
    · obtain ⟨hpast, hsessions⟩ := hs
      obtain ⟨session, hupdate, hleft, hnew⟩ :=
        left_step (hsessions a.1) (show step accept xs s (a.1, a.2) = some s' from hstep)
      have hfewer : ∑ j, (s'.sessions j).left < ∑ j, (s.sessions j).left := by
        refine Finset.sum_lt_sum (fun j _ => ?_) ⟨a.1, Finset.mem_univ _, ?_⟩
        · by_cases hj : j = a.1
          · rw [hupdate, hj, Function.update_self]
            exact hleft.le
          · rw [hupdate, Function.update_of_ne hj]
        · rw [hupdate, Function.update_self]
          exact hleft
      rw [List.length_append, List.length_singleton]
      refine ⟨by omega, fun j => ?_⟩
      by_cases hj : j = a.1
      · rw [hupdate, hj, Function.update_self]
        exact hnew
      · rw [hupdate, Function.update_of_ne hj]
        exact hsessions j
    · exact ⟨by simp [Session.left, mul_comm], fun _ h => by cases h⟩
  refine ⟨(Nat.le_add_right _ _).trans hkept.1, fun hstuck i => ?_⟩
  by_contra hrunning
  obtain ⟨j, statement, hne, hsome⟩ :=
    proceeds_of_running hkept.2 (i := i) (Bool.not_eq_false _ ▸ hrunning)
  rw [hstuck j statement hne] at hsome
  cases hsome

end Runs

section Example
open AppendAttempts Runs Tenants

/-- A session opens an order with two events, and another one expects them. -/
def orderAttempts : Bool → Attempt Unit
  | false => ⟨⟨(), 1, 0⟩, [⟨(), 2, 0⟩], order, .version 0⟩
  | true => ⟨⟨(), 3, 0⟩, [], order, .version 2⟩

def orderInsertions (i : Bool) : Insertion :=
  let a := orderAttempts i
  { streamId := a.streamId
    versioning := a.versioning
    events := (wrapEvents a.expected 0 (a.first :: a.events)).map fun event =>
      { uuid := event.uuid, streamId := order, createdAt := 0, name := "Event", data := []
        context := defaultContext, version := event.version } }

/-- Both find no stream; then the first one commits before the second one goes on. -/
def orderSchedule : List (Bool × Statement) :=
  [(false, .select), (true, .select), (false, .insert), (false, .select), (false, .bump),
    (false, .store), (false, .commit), (true, .insert), (true, .select), (true, .bump),
    (true, .store), (true, .commit)]

def orderStrategy : SqlAlchemyStorageStrategy Unit := ⟨postgres, plainDispatcher, none, "shop"⟩

theorem orderSchedule_commits : ∃ s,
    exec (step (orderStrategy.dispatcher.accept orderStrategy.tenantId) orderInsertions) {}
      orderSchedule = some s ∧ s.history = [false, true] := by
  apply Option.map_eq_some_iff.1
  decide +kernel

theorem orderRequests (i : Bool) :
    EventStore.request plainSerde (orderAttempts i).call = .ok (orderInsertions i).request := by
  cases i <;> rfl

theorem orderVersions (i : Bool) : Versions (orderInsertions i) := by
  intro expected initial h
  cases i <;> cases h <;> rfl

theorem concurrent_appends_numbered_order : ∃ s : State Bool, s.history = [false, true] ∧
    let past : History Unit := s.history.map fun i => (orderAttempts i, .ok [])
    (∀ v ∈ s.committed, Numbered past v) ∧ Once past ∧
      ∀ i ∈ s.history, ∀ j ∈ s.history, (orderAttempts i).key = (orderAttempts j).key →
        ∀ v, (orderAttempts i).expected = .version v → (orderAttempts j).expected = .version v →
          i = j := by
  obtain ⟨s, hs, hhistory⟩ := orderSchedule_commits
  exact ⟨s, hhistory, concurrent_appends_numbered orderRequests hs⟩

theorem sessions_finish_order : ∃ s : State Bool, s.history = [false, true] ∧
    orderSchedule.length ≤ 6 * Fintype.card Bool ∧
      ((∀ i statement, statement ≠ .rollback →
          step (orderStrategy.dispatcher.accept orderStrategy.tenantId) orderInsertions s
            (i, statement) = none) →
        ∀ i, (s.sessions i).running = false) := by
  obtain ⟨s, hs, hhistory⟩ := orderSchedule_commits
  exact ⟨s, hhistory, sessions_finish hs⟩

end Example

end EventSourcery.Sql.SqlAlchemyTransactions
