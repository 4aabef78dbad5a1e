import EventSourcery.Repository

/-!
# Sessions on one aggregate

Any number of sessions of `Repository.aggregate`, interleaved: a session loads the stream
when it is entered, emits events, and saves them when its body ends, unless the body
raises. On a store with optimistic locking that holds the stream already, the sessions
that end well can be run one after the other, to the same effect.
-/
namespace EventSourcery.Sessions
open Runs Repository
open Projector (CountsFrom)

inductive SessionError where
  | repository (error : RepositoryError)
  | raised
  deriving DecidableEq

/-- A session; one that is opened is kept with the events that it loaded. -/
inductive Session (A E : Type) where
  | notOpened
  | opened (loaded : List (WrappedEvent E)) (wrapped : WrappedAggregate A E)
  | ended (answer : Except SessionError Unit)

structure Running (A E σ : Type) where
  store : σ
  sessions : ℕ → Session A E

inductive Action (A E : Type) where
  | enter (session : ℕ) (state : A) (context : Option Dict)
  | emit (session : ℕ) (event : E)
  | exit (session : ℕ) (draw : ℤ → Uuid × Timestamp)
  | raise (session : ℕ)

def Action.session {A E : Type} : Action A E → ℕ
  | .enter i _ _ | .emit i _ | .exit i _ | .raise i => i

section Machine
variable {A E σ : Type} (apply : A → E → A) (store : EventStore E σ) (streamId : StreamId)

def Running.set (i : ℕ) (session : Session A E) (s : Running A E σ) : Running A E σ :=
  { s with sessions := Function.update s.sessions i session }

/-- The wrapper of a fresh aggregate. -/
def fresh (state : A) (context : Option Dict) : WrappedAggregate A E :=
  { aggregate := { state }, streamId, context := context.getD defaultContext }

/-- The wrapper of a session that has loaded events and emitted some. -/
def working (state : A) (context : Option Dict) (loaded : List (WrappedEvent E))
    (emitted : List E) : WrappedAggregate A E :=
  emitted.foldl (fun wrapped event => emit apply event wrapped)
    (replay apply loaded (fresh streamId state context))

def step (s : Running A E σ) : Action A E → Option (Running A E σ)
  | .enter i state context =>
      match s.sessions i with
      | .notOpened =>
          match load apply store (fresh streamId state context) s.store with
          | .error e => some (s.set i (.ended (.error (.repository (.store e)))))
          | .ok (loaded, wrapped) => some (s.set i (.opened loaded wrapped))
      | _ => none
  | .emit i event =>
      match s.sessions i with
      | .opened loaded wrapped => some (s.set i (.opened loaded (emit apply event wrapped)))
      | _ => none
  | .exit i draw =>
      match s.sessions i with
      | .opened _ wrapped =>
          let r := save store draw wrapped s.store
          some (Running.set i (.ended (r.1.mapError .repository)) { s with store := r.2 })
      | _ => none
  | .raise i =>
      match s.sessions i with
      | .opened _ _ => some (s.set i (.ended (.error .raised)))
      | _ => none

/-- Sessions that are still to be entered. -/
def unopened (s : σ) : Running A E σ := ⟨s, fun _ => .notOpened⟩

/-- The actions of a session that is not interrupted. -/
def sessionActions (i : ℕ) (state : A) (context : Option Dict) (emitted : List E)
    (draw : ℤ → Uuid × Timestamp) : List (Action A E) :=
  .enter i state context :: emitted.map (.emit i) ++ [.exit i draw]

/-- The actions of one session among all. -/
def ownActions (i : ℕ) (schedule : List (Action A E)) : List (Action A E) :=
  schedule.filter fun a => a.session = i

/-- Whatever state holds the given events of the stream: they are loaded, and numbered, and
an append goes through if and only if it expects as many events as there are. -/
structure Locks (Holds : σ → List (WrappedEvent E) → Prop) : Prop where
  counted : ∀ s events, Holds s events → CountsFrom 1 events
  load : ∀ s events, Holds s events → store.loadStream streamId none none s = .ok events
  append : ∀ s events first new, Holds s events →
    CountsFrom (events.length + 1) (first :: new) →
      let r := store.append first new streamId (.version events.length) s
      r.1 = .ok () ∧ Holds r.2 (events ++ first :: new)
  stale : ∀ s events first new (version : ℤ), Holds s events → events ≠ [] → version ≠ 0 →
    version ≠ events.length → ∃ args,
      store.append first new streamId (.version version) s =
        (.error (.concurrentStreamWriteError args), s)

end Machine

section Saves
variable {A E σ : Type} {apply : A → E → A} {store : EventStore E σ} {streamId : StreamId}
  {Holds : σ → List (WrappedEvent E) → Prop} {events loaded : List (WrappedEvent E)} {s : σ}
  {wrapped : WrappedAggregate A E} {draw : ℤ → Uuid × Timestamp}

/-- A session that has loaded events, numbered, from the stream. -/
structure Loaded (streamId : StreamId) (loaded : List (WrappedEvent E))
    (wrapped : WrappedAggregate A E) : Prop where
  storedVersion : wrapped.storedVersion = some (loaded.length : ℤ)
  stream : wrapped.streamId = streamId

theorem working_aggregate (state : A) (context : Option Dict) (loaded : List (WrappedEvent E))
    (emitted : List E) : (working apply streamId state context loaded emitted).aggregate =
      { state := (loaded.map (·.event) ++ emitted).foldl apply state, changes := emitted } := by
  rw [working, foldl_emit, replay_aggregate, List.foldl_append]
  rfl

theorem working_loaded (hcounted : CountsFrom 1 loaded) (state : A) (context : Option Dict)
    (emitted : List E) :
    Loaded streamId loaded (working apply streamId state context loaded emitted) := by
  have hversion := @replay_storedVersion A E apply (fresh streamId state context) loaded 0 rfl
    hcounted
  rw [zero_add] at hversion
  rw [working, foldl_emit]
  exact ⟨hversion, replay_streamId loaded _⟩

theorem save_nothing (h : Loaded streamId loaded wrapped)
    (hchanges : wrapped.aggregate.changes = []) :
    save store draw wrapped s = (.ok (), s) := by
  simp only [save, h.storedVersion, hchanges, wrapPending]

/-- The events that a session appends. -/
def saved (draw : ℤ → Uuid × Timestamp) (loaded : List (WrappedEvent E))
    (wrapped : WrappedAggregate A E) : List (WrappedEvent E) :=
  wrapPending draw wrapped.context (loaded.length + 1) wrapped.aggregate.changes

/-- A session that has loaded the whole stream appends its events. -/
theorem save_latest (draw : ℤ → Uuid × Timestamp) (hlocks : Locks store streamId Holds)
    (hholds : Holds s events) (h : Loaded streamId events wrapped)
    (hchanges : wrapped.aggregate.changes ≠ []) :
    (save store draw wrapped s).1 = .ok () ∧
      Holds (save store draw wrapped s).2 (events ++ saved draw events wrapped) := by
  obtain ⟨event, pending, hpending⟩ := List.exists_cons_of_ne_nil hchanges
  have hcounts : CountsFrom (events.length + 1) (saved draw events wrapped) :=
    wrapPending_counts _ _
  simp only [saved, hpending, wrapPending] at hcounts
  obtain ⟨hanswer, hafter⟩ := hlocks.append s events _ _ hholds hcounts
  simp only [save, h.storedVersion, h.stream, saved, hpending, wrapPending]
  exact ⟨mapError_eq_ok.2 hanswer, hafter⟩

/-- A session that has not is refused. -/
theorem save_stale (draw : ℤ → Uuid × Timestamp) (hlocks : Locks store streamId Holds)
    (hholds : Holds s events) (h : Loaded streamId loaded wrapped)
    (hchanges : wrapped.aggregate.changes ≠ []) (hloaded : loaded ≠ [])
    (hinitial : loaded <+: events) (hne : loaded ≠ events) :
    ∃ args, save store draw wrapped s =
      (.error (.store (.concurrentStreamWriteError args)), s) := by
  obtain ⟨event, pending, hpending⟩ := List.exists_cons_of_ne_nil hchanges
  have hpos : (loaded.length : ℤ) ≠ 0 := by
    rw [Nat.cast_ne_zero]
    exact mt List.length_eq_zero_iff.1 hloaded
  have hlength : (loaded.length : ℤ) ≠ events.length := by
    intro hlength
    exact hne (hinitial.eq_of_length (Nat.cast_inj.1 hlength))
  have hevents : events ≠ [] := by
    rintro rfl
    exact hloaded (List.prefix_nil.1 hinitial)
  simp only [save, h.storedVersion, h.stream, hpending, wrapPending]
  obtain ⟨args, hstale⟩ := hlocks.stale s events
    { WrappedEvent.wrap event (draw (loaded.length + 1)).1 (draw (loaded.length + 1)).2
        (some (loaded.length + 1)) with context := wrapped.context }
    (wrapPending draw wrapped.context (loaded.length + 1 + 1) pending) loaded.length hholds hevents
    hpos hlength
  exact ⟨args, by rw [hstale]; rfl⟩

end Saves

section Actions
variable {A E σ : Type} {apply : A → E → A} {store : EventStore E σ} {streamId : StreamId}
  {s : Running A E σ} {i j : ℕ} {session : Session A E} {loaded : List (WrappedEvent E)}
  {wrapped : WrappedAggregate A E} {past : List (Action A E)} {a : Action A E}

@[simp] theorem set_store : (s.set i session).store = s.store := rfl

@[simp] theorem set_sessions_self : (s.set i session).sessions i = session :=
  Function.update_self ..

theorem set_sessions_of_ne (h : j ≠ i) : (s.set i session).sessions j = s.sessions j :=
  Function.update_of_ne h ..

@[simp] theorem set_set {session' : Session A E} :
    (s.set i session).set i session' = s.set i session' := by
  simp [Running.set]

theorem set_self (h : s.sessions i = session) : s.set i session = s := by
  simp [Running.set, ← h]

theorem ownActions_append (i : ℕ) (past : List (Action A E)) (a : Action A E) :
    ownActions i (past ++ [a]) = ownActions i past ++ if a.session = i then [a] else [] := by
  by_cases h : a.session = i <;> simp [ownActions, h]

theorem exec_emits (h : s.sessions i = .opened loaded wrapped) (emitted : List E)
    (rest : List (Action A E)) :
    exec (step apply store streamId) s (emitted.map (.emit i) ++ rest) =
      exec (step apply store streamId)
        (s.set i (.opened loaded
          (emitted.foldl (fun wrapped event => emit apply event wrapped) wrapped))) rest := by
  induction emitted generalizing s wrapped with
  | nil => rw [List.foldl_nil, set_self h, List.map_nil, List.nil_append]
  | cons event emitted ih =>
    rw [List.map_cons, List.cons_append, exec]
    simp only [step, h, Option.bind_some]
    rw [ih set_sessions_self, set_set, List.foldl_cons]

/-- A session that is not interrupted. -/
theorem exec_session {state : A} {context : Option Dict} {draw : ℤ → Uuid × Timestamp}
    (h : s.sessions i = .notOpened)
    (hload : load apply store (fresh streamId state context) s.store = .ok (loaded, wrapped))
    (emitted : List E) :
    let r := save store draw
      (emitted.foldl (fun wrapped event => emit apply event wrapped) wrapped) s.store
    exec (step apply store streamId) s (sessionActions i state context emitted draw) =
      some (Running.set i (.ended (r.1.mapError .repository)) { s with store := r.2 }) := by
  rw [sessionActions, List.cons_append, exec]
  simp only [step, h, hload, Option.bind_some]
  rw [exec_emits set_sessions_self]
  simp [exec, step, Running.set]

end Actions

section Invariant
variable {A E σ : Type} (apply : A → E → A) (store : EventStore E σ) (streamId : StreamId)

/-- The sessions that ended well, in an order in which they can be run without interruption,
each with the actions that it has in the schedule, to leave the same in the store. -/
structure Serial (start : σ) (past : List (Action A E)) (s : Running A E σ) (ids : List ℕ)
    (final : Running A E σ) : Prop where
  runs : exec (step apply store streamId) (unopened start) (ids.flatMap (ownActions · past)) =
    some final
  store : final.store = s.store
  nodup : ids.Nodup
  ended : ∀ i, i ∈ ids ↔ s.sessions i = .ended (.ok ())
  well : ∀ i ∈ ids, final.sessions i = .ended (.ok ())
  others : ∀ i ∉ ids, final.sessions i = .notOpened

/-- What a session has done since it was entered: it has loaded events and emitted some. -/
def Pending (i : ℕ) (loaded : List (WrappedEvent E)) (wrapped : WrappedAggregate A E)
    (own : List (Action A E)) : Prop :=
  ∃ (state : A) (context : Option Dict) (emitted : List E),
    own = .enter i state context :: emitted.map (.emit i) ∧
      wrapped = working apply streamId state context loaded emitted

/-- The invariant: open sessions have loaded a first part of the stream. -/
structure Kept (Holds : σ → List (WrappedEvent E) → Prop) (start : σ) (past : List (Action A E))
    (s : Running A E σ) (events : List (WrappedEvent E)) : Prop where
  holds : Holds s.store events
  started : events ≠ []
  unopened : ∀ i, s.sessions i = .notOpened → ownActions i past = []
  opened : ∀ i loaded wrapped, s.sessions i = .opened loaded wrapped → loaded ≠ [] ∧
    loaded <+: events ∧ Pending apply streamId i loaded wrapped (ownActions i past)
  serial : ∃ ids final, Serial apply store streamId start past s ids final

/-- What an action does when the stream holds the given events. -/
def Outcome (events : List (WrappedEvent E)) (s : Running A E σ) (a : Action A E)
    (s' : Running A E σ) : Prop :=
  match a with
  | .enter i state _ => s'.store = s.store ∧ ∃ wrapped, s'.sessions i = .opened events wrapped ∧
      wrapped.aggregate = { state := (events.map (·.event)).foldl apply state }
  | .exit i draw => ∃ loaded wrapped, s.sessions i = .opened loaded wrapped ∧
      if wrapped.aggregate.changes = [] then
        s'.sessions i = .ended (.ok ()) ∧ s'.store = s.store
      else (loaded = events ∧ s'.sessions i = .ended (.ok ()) ∧
          store.loadStream streamId none none s'.store =
            .ok (loaded ++ saved draw loaded wrapped)) ∨
        (loaded ≠ events ∧ s'.store = s.store ∧ ∃ args, s'.sessions i =
          .ended (.error (.repository (.store (.concurrentStreamWriteError args)))))
  | .emit _ _ => s'.store = s.store
  | .raise i => s'.store = s.store ∧ s'.sessions i = .ended (.error .raised)

end Invariant

section Steps
variable {A E σ : Type} {apply : A → E → A} {store : EventStore E σ} {streamId : StreamId}
  {start : σ} {past : List (Action A E)} {s s' : Running A E σ} {ids : List ℕ}
  {final final' : Running A E σ} {a : Action A E} {i : ℕ} {session : Session A E}
  {Holds : σ → List (WrappedEvent E) → Prop} {events loaded : List (WrappedEvent E)}
  {wrapped : WrappedAggregate A E}

theorem ownActions_of_ended (h : Serial apply store streamId start past s ids final)
    (hopen : s.sessions a.session ≠ .ended (.ok ())) :
    ids.flatMap (ownActions · (past ++ [a])) = ids.flatMap (ownActions · past) := by
  apply List.flatMap_congr
  intro j hj
  have hne : a.session ≠ j := by
    rintro rfl
    exact hopen ((h.ended _).1 hj)
  rw [ownActions_append, if_neg hne, List.append_nil]

/-- An action that neither ends its session well nor changes the store. -/
theorem Serial.keep (h : Serial apply store streamId start past s ids final)
    (hopen : s.sessions a.session ≠ .ended (.ok ())) (hsession : session ≠ .ended (.ok ())) :
    Serial apply store streamId start (past ++ [a]) (s.set a.session session) ids final where
  runs := by
    rw [ownActions_of_ended h hopen]
    exact h.runs
  store := h.store
  nodup := h.nodup
  ended j := by
    rw [h.ended]
    by_cases hj : j = a.session
    · subst hj
      rw [set_sessions_self]
      exact iff_of_false hopen hsession
    · rw [set_sessions_of_ne hj]
  well := h.well
  others := h.others

/-- A session that ends well, and does the same without interruption. -/
theorem Serial.commit (h : Serial apply store streamId start past s ids final)
    (hopen : s.sessions a.session ≠ .ended (.ok ())) {after : σ}
    (hrun : exec (step apply store streamId) final (ownActions a.session (past ++ [a])) =
      some (Running.set a.session (.ended (.ok ())) { final with store := after })) :
    Serial apply store streamId start (past ++ [a])
      (Running.set a.session (.ended (.ok ())) { s with store := after }) (ids ++ [a.session])
      (Running.set a.session (.ended (.ok ())) { final with store := after }) where
  runs := by
    rw [List.flatMap_append, exec_append, ownActions_of_ended h hopen, h.runs]
    simpa using hrun
  store := rfl
  nodup := by
    have hnew : a.session ∉ ids := fun hmem => hopen ((h.ended _).1 hmem)
    rw [List.nodup_append]
    refine ⟨h.nodup, List.nodup_singleton _, fun j hj k hk hsame => ?_⟩
    rw [List.mem_singleton.1 hk] at hsame
    exact hnew (hsame ▸ hj)
  ended j := by
    rw [List.mem_append, List.mem_singleton, h.ended]
    by_cases hj : j = a.session
    · subst hj
      simp
    · rw [set_sessions_of_ne hj]
      simp [hj]
  well j hj := by
    by_cases hja : j = a.session
    · rw [hja, set_sessions_self]
    · rw [set_sessions_of_ne hja]
      rcases List.mem_append.1 hj with hj | hj
      · exact h.well j hj
      · exact absurd (List.mem_singleton.1 hj) hja
  others j hj := by
    rw [List.mem_append, List.mem_singleton, not_or] at hj
    rw [set_sessions_of_ne hj.2]
    exact h.others j hj.1

/-- An action of one session leaves the other sessions as they should be, when the store
still holds the events, or more. -/
theorem Kept.set (h : Kept apply store streamId Holds start past s events) {after : σ}
    {events' : List (WrappedEvent E)} (hafter : Holds after events') (hmore : events <+: events')
    (hunopened : session ≠ .notOpened)
    (hopened : ∀ loaded wrapped, session = .opened loaded wrapped → loaded ≠ [] ∧
      loaded <+: events' ∧ Pending apply streamId a.session loaded wrapped
        (ownActions a.session (past ++ [a])))
    (hserial : ∃ ids final, Serial apply store streamId start (past ++ [a])
      (Running.set a.session session { s with store := after }) ids final) :
    Kept apply store streamId Holds start (past ++ [a])
      (Running.set a.session session { s with store := after }) events' where
  holds := hafter
  started := by
    rintro rfl
    exact h.started (List.prefix_nil.1 hmore)
  unopened j hj := by
    by_cases hja : j = a.session
    · rw [hja, set_sessions_self] at hj
      exact absurd hj hunopened
    · rw [set_sessions_of_ne hja] at hj
      rw [ownActions_append, if_neg (Ne.symm hja), List.append_nil]
      exact h.unopened j hj
  opened j loaded wrapped hj := by
    by_cases hja : j = a.session
    · subst hja
      rw [set_sessions_self] at hj
      exact hopened loaded wrapped hj
    · rw [set_sessions_of_ne hja] at hj
      rw [ownActions_append, if_neg (Ne.symm hja), List.append_nil]
      obtain ⟨hloaded, hinitial, hpending⟩ := h.opened j loaded wrapped hj
      exact ⟨hloaded, hinitial.trans hmore, hpending⟩
  serial := hserial

/-- An action that changes one session and not the store keeps the invariant, if the
session is kept as it should be. -/
theorem Kept.keep (h : Kept apply store streamId Holds start past s events)
    (hopen : s.sessions a.session ≠ .ended (.ok ())) (hsession : session ≠ .ended (.ok ()))
    (hunopened : session ≠ .notOpened)
    (hopened : ∀ loaded wrapped, session = .opened loaded wrapped → loaded ≠ [] ∧
      loaded <+: events ∧ Pending apply streamId a.session loaded wrapped
        (ownActions a.session (past ++ [a]))) :
    Kept apply store streamId Holds start (past ++ [a]) (s.set a.session session) events := by
  obtain ⟨ids, final, hserial⟩ := h.serial
  exact h.set h.holds List.prefix_rfl hunopened hopened ⟨ids, final, hserial.keep hopen hsession⟩

/-- So does a session that ends well, leaving more events in the store. -/
theorem Kept.commit (h : Kept apply store streamId Holds start past s events)
    (hopen : s.sessions a.session ≠ .ended (.ok ())) {after : σ} {new : List (WrappedEvent E)}
    (hafter : Holds after (events ++ new))
    (hrun : ∀ ids final, Serial apply store streamId start past s ids final →
      exec (step apply store streamId) final (ownActions a.session (past ++ [a])) =
        some (Running.set a.session (.ended (.ok ())) { final with store := after })) :
    Kept apply store streamId Holds start (past ++ [a])
      (Running.set a.session (.ended (.ok ())) { s with store := after }) (events ++ new) := by
  obtain ⟨ids, final, hserial⟩ := h.serial
  refine h.set hafter (List.prefix_append _ _) (by rintro ⟨⟩) (by rintro _ _ ⟨⟩) ?_
  exact ⟨_, _, hserial.commit hopen (hrun ids final hserial)⟩

theorem Pending.hasLoaded (h : Pending apply streamId i loaded wrapped (ownActions i past))
    (hcounted : CountsFrom 1 loaded) : Loaded streamId loaded wrapped := by
  obtain ⟨state, context, emitted, -, rfl⟩ := h
  exact working_loaded hcounted state context emitted

theorem load_eq (hlocks : Locks store streamId Holds) {after : σ} (hholds : Holds after events)
    (state : A) (context : Option Dict) :
    load apply store (fresh streamId state context) after =
      .ok (events, replay apply events (fresh streamId state context)) := by
  have hload := hlocks.load after events hholds
  rw [load, show (fresh streamId state context : WrappedAggregate A E).streamId = streamId from rfl,
    hload]
  rfl

/-- The session that saves now does the same when it is run after the others. -/
theorem exec_pending (hlocks : Locks store streamId Holds)
    (h : Kept apply store streamId Holds start past s events)
    (hsession : s.sessions i = .opened loaded wrapped) {draw : ℤ → Uuid × Timestamp}
    (hlatest : wrapped.aggregate.changes = [] ∨ loaded = events)
    (hserial : Serial apply store streamId start past s ids final) {after : σ}
    (hsave : save store draw wrapped s.store = (.ok (), after)) :
    exec (step apply store streamId) final (ownActions i (past ++ [.exit i draw])) =
      some (Running.set i (.ended (.ok ())) { final with store := after }) := by
  obtain ⟨-, hinitial, hpending⟩ := h.opened i loaded wrapped hsession
  have hloaded := hpending.hasLoaded ((hlocks.counted _ _ h.holds).of_initial hinitial)
  obtain ⟨state, context, emitted, hown, hwrapped⟩ := hpending
  have hactions : ownActions i (past ++ [.exit i draw]) =
      sessionActions i state context emitted draw := by
    rw [ownActions_append, hown]
    simp [sessionActions, Action.session]
  have hunopened : final.sessions i = .notOpened := by
    apply hserial.others
    rw [hserial.ended, hsession]
    rintro ⟨⟩
  have hload : load apply store (fresh streamId state context) final.store = _ :=
    load_eq hlocks (hserial.store ▸ h.holds) state context
  have hsame : save store draw (working apply streamId state context events emitted) final.store =
      (.ok (), after) := by
    rw [hserial.store]
    rcases hlatest with hnothing | rfl
    · -- it loads what the others have appended, and has nothing to append either
      rw [save_nothing hloaded hnothing] at hsave
      rw [hwrapped, working_aggregate] at hnothing
      have hloaded' := @working_loaded A E apply streamId events (hlocks.counted _ _ h.holds)
        state context emitted
      rw [← hsave]
      apply save_nothing hloaded'
      rw [working_aggregate]
      exact hnothing
    · rw [← hwrapped]
      exact hsave
  rw [hactions, exec_session hunopened hload]
  rw [working] at hsame
  rw [hsame]
  rfl

/-- The action has its outcome, and keeps the invariant. -/
def Keeps (apply : A → E → A) (store : EventStore E σ) (streamId : StreamId)
    (Holds : σ → List (WrappedEvent E) → Prop) (start : σ) (past : List (Action A E))
    (events : List (WrappedEvent E)) (s : Running A E σ) (a : Action A E) (s' : Running A E σ) :
    Prop :=
  Outcome apply store streamId events s a s' ∧
    ∃ events', Kept apply store streamId Holds start (past ++ [a]) s' events'

theorem Kept.enter (hlocks : Locks store streamId Holds)
    (h : Kept apply store streamId Holds start past s events) {state : A} {context : Option Dict}
    (hstep : step apply store streamId s (.enter i state context) = some s') :
    Keeps apply store streamId Holds start past events s (.enter i state context) s' := by
  have hload : load apply store (fresh streamId state context) s.store = _ :=
    load_eq hlocks h.holds state context
  simp only [step, hload] at hstep
  split at hstep
  · next hsession =>
    cases hstep
    refine ⟨⟨rfl, _, set_sessions_self, replay_aggregate _ _⟩, events, ?_⟩
    apply h.keep (a := .enter i state context)
    · rw [Action.session, hsession]
      rintro ⟨⟩
    · rintro ⟨⟩
    · rintro ⟨⟩
    · rintro loaded wrapped ⟨⟩
      refine ⟨h.started, List.prefix_rfl, state, context, [], ?_, rfl⟩
      rw [Action.session, ownActions_append, h.unopened i hsession]
      simp [Action.session]
  · cases hstep

theorem Kept.emit (h : Kept apply store streamId Holds start past s events) {event : E}
    (hstep : step apply store streamId s (.emit i event) = some s') :
    Keeps apply store streamId Holds start past events s (.emit i event) s' := by
  simp only [step] at hstep
  split at hstep
  · next loaded wrapped hsession =>
    cases hstep
    obtain ⟨hloaded, hinitial, state, context, emitted, hown, hwrapped⟩ :=
      h.opened i loaded wrapped hsession
    refine ⟨rfl, events, ?_⟩
    apply h.keep (a := .emit i event)
    · rw [Action.session, hsession]
      rintro ⟨⟩
    · rintro ⟨⟩
    · rintro ⟨⟩
    · rintro loaded wrapped ⟨⟩
      refine ⟨hloaded, hinitial, state, context, emitted ++ [event], ?_, ?_⟩
      · rw [Action.session, ownActions_append, hown]
        simp [Action.session]
      · rw [hwrapped, working, working, List.foldl_append]
        rfl
  · cases hstep

theorem Kept.raise (h : Kept apply store streamId Holds start past s events)
    (hstep : step apply store streamId s (.raise i) = some s') :
    Keeps apply store streamId Holds start past events s (.raise i) s' := by
  simp only [step] at hstep
  split at hstep
  · next loaded wrapped hsession =>
    cases hstep
    refine ⟨⟨rfl, set_sessions_self⟩, events, ?_⟩
    apply h.keep (a := .raise i)
    · rw [Action.session, hsession]
      rintro ⟨⟩
    · rintro ⟨⟩
    · rintro ⟨⟩
    · rintro loaded wrapped ⟨⟩
  · cases hstep

theorem Kept.exit (hlocks : Locks store streamId Holds)
    (h : Kept apply store streamId Holds start past s events) {draw : ℤ → Uuid × Timestamp}
    (hstep : step apply store streamId s (.exit i draw) = some s') :
    Keeps apply store streamId Holds start past events s (.exit i draw) s' := by
  simp only [step] at hstep
  split at hstep
  · next loaded wrapped hsession =>
    cases hstep
    obtain ⟨hloaded, hinitial, hpending⟩ := h.opened i loaded wrapped hsession
    have hopen : s.sessions (Action.exit i draw : Action A E).session ≠ .ended (.ok ()) := by
      rw [Action.session, hsession]
      rintro ⟨⟩
    have hhas := hpending.hasLoaded ((hlocks.counted _ _ h.holds).of_initial hinitial)
    by_cases hchanges : wrapped.aggregate.changes = []
    · -- nothing to append
      have hsave : save store draw wrapped s.store = (.ok (), s.store) :=
        save_nothing hhas hchanges
      rw [hsave]
      have hafter : Holds s.store (events ++ []) := (List.append_nil events).symm ▸ h.holds
      refine ⟨⟨loaded, wrapped, hsession, ?_⟩, _, h.commit hopen hafter fun ids final hserial =>
        exec_pending hlocks h hsession (.inl hchanges) hserial hsave⟩
      rw [if_pos hchanges]
      exact ⟨set_sessions_self, rfl⟩
    · by_cases hlatest : loaded = events
      · subst hlatest
        obtain ⟨hanswer, hafter⟩ := save_latest draw hlocks h.holds hhas hchanges
        have hsave : save store draw wrapped s.store =
            (.ok (), (save store draw wrapped s.store).2) := Prod.ext hanswer rfl
        rw [hanswer]
        refine ⟨⟨loaded, wrapped, hsession, ?_⟩, _, h.commit hopen hafter fun ids final hserial =>
          exec_pending hlocks h hsession (.inr rfl) hserial hsave⟩
        rw [if_neg hchanges]
        exact .inl ⟨rfl, set_sessions_self, hlocks.load _ _ hafter⟩
      · obtain ⟨args, hstale⟩ := save_stale draw hlocks h.holds hhas hchanges hloaded hinitial
          hlatest
        rw [hstale]
        refine ⟨⟨loaded, wrapped, hsession, ?_⟩, events, ?_⟩
        · rw [if_neg hchanges]
          exact .inr ⟨hlatest, rfl, args, set_sessions_self⟩
        · apply h.keep hopen
          · rintro ⟨⟩
          · rintro ⟨⟩
          · rintro loaded wrapped ⟨⟩
  · cases hstep

theorem Kept.step (hlocks : Locks store streamId Holds)
    (h : Kept apply store streamId Holds start past s events)
    (hstep : step apply store streamId s a = some s') :
    Keeps apply store streamId Holds start past events s a s' := by
  cases a with
  | enter i state context => exact h.enter hlocks hstep
  | emit i event => exact h.emit hstep
  | exit i draw => exact h.exit hlocks hstep
  | raise i => exact h.raise hstep

end Steps

section Main
variable {A E σ : Type} {apply : A → E → A} {store : EventStore E σ} {streamId : StreamId}
  {Holds : σ → List (WrappedEvent E) → Prop} {start : σ} {schedule : List (Action A E)}
  {s : Running A E σ} {events : List (WrappedEvent E)}

/-- What holds after a schedule of sessions: the events are numbered from 1 on, open sessions
have what they loaded and emitted, every next action has its outcome, and the sessions that
ended well can be run one after the other. -/
structure Serializable (apply : A → E → A) (store : EventStore E σ) (streamId : StreamId)
    (start : σ) (schedule : List (Action A E)) (s : Running A E σ)
    (events : List (WrappedEvent E)) : Prop where
  load : store.loadStream streamId none none s.store = .ok events
  counted : CountsFrom 1 events
  opened : ∀ i loaded wrapped, s.sessions i = .opened loaded wrapped → loaded <+: events ∧
    ∃ (state : A) (context : Option Dict) (emitted : List E),
      ownActions i schedule = .enter i state context :: emitted.map (.emit i) ∧
      wrapped.aggregate =
        { state := (loaded.map (·.event) ++ emitted).foldl apply state, changes := emitted }
  outcome : ∀ a s', step apply store streamId s a = some s' →
    Outcome apply store streamId events s a s'
  serial : ∃ ids final, Serial apply store streamId start schedule s ids final

theorem Kept.serializable (hlocks : Locks store streamId Holds)
    (h : Kept apply store streamId Holds start schedule s events) :
    Serializable apply store streamId start schedule s events where
  load := hlocks.load _ _ h.holds
  counted := hlocks.counted _ _ h.holds
  opened i loaded wrapped hsession := by
    obtain ⟨-, hinitial, state, context, emitted, hown, rfl⟩ := h.opened i loaded wrapped hsession
    exact ⟨hinitial, state, context, emitted, hown, working_aggregate state context loaded emitted⟩
  outcome _ _ hstep := (h.step hlocks hstep).1
  serial := h.serial

theorem kept_unopened (hholds : Holds start events) (hstarted : events ≠ []) :
    Kept apply store streamId Holds start [] (unopened start) events where
  holds := hholds
  started := hstarted
  unopened _ _ := rfl
  opened _ _ _ h := by cases h
  serial := by
    refine ⟨[], unopened start, rfl, rfl, List.nodup_nil, fun i => ?_, by simp, fun _ _ => rfl⟩
    exact iff_of_false List.not_mem_nil (by rintro ⟨⟩)

/-- On a store with optimistic locking, sessions are serializable on a stream that holds
events already. -/
theorem serializable_of_locks (hlocks : Locks store streamId Holds) (hholds : Holds start events)
    (hstarted : events ≠ [])
    (hexec : exec (step apply store streamId) (unopened start) schedule = some s) :
    ∃ events, Holds s.store events ∧ Serializable apply store streamId start schedule s events := by
  have hkept : ∃ events, Kept apply store streamId Holds start schedule s events :=
    exec_history (P := fun past s => ∃ events, Kept apply store streamId Holds start past s events)
      (fun _ _ _ _ ⟨_, h⟩ hstep => (h.step hlocks hstep).2) ⟨events, kept_unopened hholds hstarted⟩
      hexec
  obtain ⟨events, h⟩ := hkept
  exact ⟨events, h.holds, h.serializable hlocks⟩

/-- A first session that emits events and is not interrupted leaves them in the stream. -/
theorem holds_of_first (hlocks : Locks store streamId Holds) (hempty : Holds start [])
    {state : A} {context : Option Dict} {event : E} {emitted : List E}
    {draw : ℤ → Uuid × Timestamp} {written : Running A E σ}
    (hfirst : exec (step apply store streamId) (unopened start)
      (sessionActions 0 state context (event :: emitted) draw) = some written) :
    ∃ events, Holds written.store events ∧ events.map (·.event) = event :: emitted := by
  have hload : load apply store (fresh streamId state context) start = _ :=
    load_eq hlocks hempty state context
  have hstart : exec (step apply store streamId) (unopened start)
      (sessionActions 0 state context (event :: emitted) draw) = _ :=
    exec_session rfl hload (event :: emitted)
  have hhas := @working_loaded A E apply streamId [] trivial state context (event :: emitted)
  have haggregate := @working_aggregate A E apply streamId state context [] (event :: emitted)
  have hchanges : (working apply streamId state context [] (event :: emitted)).aggregate.changes ≠
      [] := by simp [haggregate]
  obtain ⟨-, hafter⟩ := save_latest draw hlocks hempty hhas hchanges
  cases hfirst.symm.trans hstart
  refine ⟨_, hafter, ?_⟩
  rw [List.nil_append, saved, wrapPending_event, haggregate]

end Main

end EventSourcery.Sessions
