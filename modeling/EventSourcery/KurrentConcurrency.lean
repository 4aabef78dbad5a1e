import EventSourcery.KurrentStore

/-!
# Concurrent writers of one KurrentDB stream

`insert_events` reads the last position of the stream, compares it and appends
without naming a position, in three steps that other clients can come between.
-/
namespace EventSourcery.Kurrent.KurrentConcurrency
open Runs

variable {ι : Type}

/-- Where a call to `insert_events` is. -/
inductive Client where
  | start
  | read (position : Option Position)
  | checked
  | done
  | failed (e : Error)
  deriving DecidableEq

structure State (ι : Type) where
  server : Server
  clients : ι → Client

inductive Action (ι : Type) where
  | read (i : ι)
  | compare (i : ι)
  | append (i : ι)
  deriving DecidableEq

/-- The writers of one stream: all expect the same version, and each brings its events. -/
structure Writers (ι : Type) where
  name : String
  expectedVersion : ℤ
  events : ι → List RawEvent

def Writers.versioning (w : Writers ι) (i : ι) : Versioning :=
  .explicit w.expectedVersion ((w.events i).getLast?.bind (·.version))

theorem compared_versioning {w : Writers ι} (hv : 1 ≤ w.expectedVersion) (i : ι) :
    (w.versioning i).compared = some w.expectedVersion := by
  have hne : w.expectedVersion ≠ 0 := by omega
  simp [Writers.versioning, Versioning.compared, hne]

variable [DecidableEq ι] (w : Writers ι)

def State.setClient (s : State ι) (i : ι) (c : Client) : State ι :=
  { s with clients := Function.update s.clients i c }

def step (s : State ι) : Action ι → Option (State ι)
  | .read i =>
      match s.clients i with
      | .start => some (s.setClient i (.read (getStreamPosition w.name s.server)))
      | _ => none
  | .compare i =>
      match s.clients i with
      | .read position =>
          match comparePosition (w.versioning i) position with
          | .ok () => some (s.setClient i .checked)
          | .error e => some (s.setClient i (.failed e))
      | _ => none
  | .append i =>
      match s.clients i with
      | .checked =>
          some { s.setClient i .done with server := appendEvents w.name (w.events i) s.server }
      | _ => none

/-- All calls are about to begin. -/
def initial (server : Server) : State ι := { server, clients := fun _ => .start }

/-- A call has ended by raising `ConcurrentStreamWriteError`. -/
def Client.Raised (c : Client) : Prop :=
  ∃ e, c = .failed e ∧ e.isConcurrentStreamWriteError = true

/-- Of two calls that have ended, one has raised: at most one has succeeded. -/
def AtMostOneSucceeds (s : State ι) : Prop :=
  ∀ i j, i ≠ j → (s.clients i = .done ∨ ∃ e, s.clients i = .failed e) →
    (s.clients j = .done ∨ ∃ e, s.clients j = .failed e) →
      (s.clients i).Raised ∨ (s.clients j).Raised

/-- Every append finds the version that its writer expects. -/
def AppendsAsExpected (server : Server) (schedule : List (Action ι)) : Prop :=
  ∀ before i after s, schedule = before ++ .append i :: after →
    exec (step w) (initial server) before = some s →
      getStreamPosition w.name s.server = some (fromVersion w.expectedVersion)

/-- Nobody appends between the read and the append of a call. -/
def Undisturbed (schedule : List (Action ι)) : Prop :=
  ∀ before i between after,
    schedule = before ++ .read i :: (between ++ .append i :: after) → ∀ j, .append j ∉ between

section Steps
variable {w} {s s' : State ι} {i : ι} {schedule : List (Action ι)}

/-- What an action does: its call moves on, and only an append writes to the stream. -/
theorem step_cases {a : Action ι} (h : step w s a = some s') :
    (∃ i, a = .read i ∧ s.clients i = .start ∧
      s' = s.setClient i (.read (getStreamPosition w.name s.server))) ∨
    (∃ i position c, a = .compare i ∧ s.clients i = .read position ∧ s' = s.setClient i c ∧
      (c = .checked ∧ comparePosition (w.versioning i) position = .ok () ∨
        ∃ e, c = .failed e ∧ comparePosition (w.versioning i) position = .error e)) ∨
    ∃ i, a = .append i ∧ s.clients i = .checked ∧
      s' = { s.setClient i .done with server := appendEvents w.name (w.events i) s.server } := by
  cases a with
  | read i =>
    simp only [step] at h
    split at h
    · rename_i hstart
      simp only [Option.some.injEq] at h
      exact .inl ⟨i, rfl, hstart, h.symm⟩
    · cases h
  | compare i =>
    simp only [step] at h
    split at h
    · rename_i position hread
      split at h
      · rename_i hok
        simp only [Option.some.injEq] at h
        exact .inr (.inl ⟨i, position, _, rfl, hread, h.symm, .inl ⟨rfl, hok⟩⟩)
      · rename_i e he
        simp only [Option.some.injEq] at h
        exact .inr (.inl ⟨i, position, _, rfl, hread, h.symm, .inr ⟨e, rfl, he⟩⟩)
    · cases h
  | append i =>
    simp only [step] at h
    split at h
    · rename_i hchecked
      simp only [Option.some.injEq] at h
      exact .inr (.inr ⟨i, rfl, hchecked, h.symm⟩)
    · cases h

@[simp] theorem setClient_self (s : State ι) (i : ι) (c : Client) :
    (s.setClient i c).clients i = c := by
  simp [State.setClient]

theorem setClient_other (s : State ι) {i j : ι} (h : j ≠ i) (c : Client) :
    (s.setClient i c).clients j = s.clients j := by
  simp [State.setClient, h]

/-- What an action does to one call: nothing, unless it is the call's own next step. -/
theorem client_cases {a : Action ι} (h : step w s a = some s') (i : ι) :
    s'.clients i = s.clients i ∨
    (a = .read i ∧ s.clients i = .start ∧
      s'.clients i = .read (getStreamPosition w.name s.server)) ∨
    (∃ position, a = .compare i ∧ s.clients i = .read position ∧
      (s'.clients i = .checked ∧ comparePosition (w.versioning i) position = .ok () ∨
        ∃ e, s'.clients i = .failed e ∧ comparePosition (w.versioning i) position = .error e)) ∨
    (a = .append i ∧ s.clients i = .checked ∧ s'.clients i = .done) := by
  obtain ⟨j, rfl, hj, rfl⟩ | ⟨j, position, c, rfl, hj, rfl, hc⟩ | ⟨j, rfl, hj, rfl⟩ :=
    step_cases h
  · by_cases hij : i = j
    · subst hij
      exact .inr (.inl ⟨rfl, hj, setClient_self s i _⟩)
    · exact .inl (setClient_other s hij _)
  · by_cases hij : i = j
    · subst hij
      rw [setClient_self]
      exact .inr (.inr (.inl ⟨position, rfl, hj, hc⟩))
    · exact .inl (setClient_other s hij c)
  · by_cases hij : i = j
    · subst hij
      exact .inr (.inr (.inr ⟨rfl, hj, setClient_self s i _⟩))
    · exact .inl (setClient_other s hij _)

/-- Without its read a call does not start. -/
theorem start_of_no_read (hstart : s.clients i = .start) (hnone : .read i ∉ schedule)
    (h : exec (step w) s schedule = some s') : s'.clients i = .start := by
  apply exec_invariant (fun s => s.clients i = .start) (fun a => a ≠ .read i) _ _ hstart h
  · intro s a s' ha hs hstep
    obtain hsame | ⟨rfl, -⟩ | ⟨position, -, hread, -⟩ | ⟨-, hchecked, -⟩ := client_cases hstep i
    · exact hsame.trans hs
    · exact absurd rfl ha
    · cases hs.symm.trans hread
    · cases hs.symm.trans hchecked
  · exact fun a ha hread => hnone (hread ▸ ha)

/-- Without its append a call does not succeed. -/
theorem not_done_of_no_append (hstart : s.clients i ≠ .done) (hnone : .append i ∉ schedule)
    (h : exec (step w) s schedule = some s') : s'.clients i ≠ .done := by
  apply exec_invariant (fun s => s.clients i ≠ .done) (fun a => a ≠ .append i) _ _ hstart h
  · intro s a s' ha hs hstep
    obtain hsame | ⟨-, -, hread⟩ | ⟨position, -, -, hc⟩ | ⟨rfl, -⟩ := client_cases hstep i
    · rwa [hsame]
    · simp [hread]
    · obtain ⟨hchecked, -⟩ | ⟨e, hfailed, -⟩ := hc
      · simp [hchecked]
      · simp [hfailed]
    · exact absurd rfl ha
  · exact fun a ha happend => hnone (happend ▸ ha)

/-- Where a call can be after it has read a position. -/
def Follows (versioning : Versioning) (position : Option Position) (c : Client) : Prop :=
  c = .read position ∨ c = .checked ∧ comparePosition versioning position = .ok () ∨ c = .done ∨
    ∃ e, c = .failed e

theorem follows_exec {position : Option Position}
    (hread : Follows (w.versioning i) position (s.clients i))
    (h : exec (step w) s schedule = some s') :
    Follows (w.versioning i) position (s'.clients i) := by
  apply exec_invariant (fun s => Follows (w.versioning i) position (s.clients i)) (fun _ => True) _
    (fun _ _ => trivial) hread h
  intro s a s' _ hs hstep
  obtain hsame | ⟨-, hstart, -⟩ | ⟨position', -, hheld, hc⟩ | ⟨-, -, hdone⟩ := client_cases hstep i
  · rwa [hsame]
  · simp [Follows, hstart] at hs
  · have hposition : position' = position := by simpa [hheld, Follows] using hs
    subst hposition
    obtain ⟨hchecked, hok⟩ | ⟨e, hfailed, -⟩ := hc
    · exact .inr (.inl ⟨hchecked, hok⟩)
    · exact .inr (.inr (.inr ⟨e, hfailed⟩))
  · exact .inr (.inr (.inl hdone))

theorem server_of_no_append (hnone : ∀ j, .append j ∉ schedule)
    (h : exec (step w) s schedule = some s') : s'.server = s.server := by
  apply exec_invariant (fun s' => s'.server = s.server) (fun a => ∀ j, a ≠ .append j) _ _ rfl h
  · intro s₁ a s₂ ha hs hstep
    obtain ⟨j, rfl, -, rfl⟩ | ⟨j, position, c, rfl, -, rfl, -⟩ | ⟨j, rfl, -, rfl⟩ :=
      step_cases hstep
    · exact hs
    · exact hs
    · exact absurd rfl (ha j)
  · exact fun a ha j happend => hnone j (happend ▸ ha)

/-- The stream only grows. -/
theorem nextPosition_le (h : exec (step w) s schedule = some s') :
    nextPosition w.name s.server ≤ nextPosition w.name s'.server := by
  apply exec_invariant (fun s' => nextPosition w.name s.server ≤ nextPosition w.name s'.server)
    (fun _ => True) _ (fun _ _ => trivial) le_rfl h
  intro s₁ a s₂ _ hs hstep
  obtain ⟨j, rfl, -, rfl⟩ | ⟨j, position, c, rfl, -, rfl, -⟩ | ⟨j, rfl, -, rfl⟩ :=
    step_cases hstep
  · exact hs
  · exact hs
  · have hgrown := nextPosition_appendEvents w.name (w.events j) s₁.server
    dsimp only
    omega

/-- An append is made by a call that has compared, and it moves the end of the stream. -/
theorem append_step (hne : w.events i ≠ []) (h : step w s (.append i) = some s') :
    s.clients i = .checked ∧ nextPosition w.name s.server < nextPosition w.name s'.server := by
  obtain ⟨j, hj, -⟩ | ⟨j, position, c, hj, -⟩ | ⟨j, hj, hchecked, rfl⟩ := step_cases h
  · cases hj
  · cases hj
  · cases hj
    refine ⟨hchecked, ?_⟩
    have hgrown := nextPosition_appendEvents w.name (w.events i) s.server
    have hpos := List.length_pos_iff.2 hne
    dsimp only
    omega

/-- A call that raises raises `ConcurrentStreamWriteError`. -/
theorem raised_of_failed (hraised : ∀ e, s.clients i = .failed e → (s.clients i).Raised)
    (h : exec (step w) s schedule = some s') :
    ∀ e, s'.clients i = .failed e → (s'.clients i).Raised := by
  apply exec_invariant (fun s => ∀ e, s.clients i = .failed e → (s.clients i).Raised)
    (fun _ => True) _ (fun _ _ => trivial) hraised h
  intro s a s' _ hs hstep
  obtain hsame | ⟨-, -, hread⟩ | ⟨position, -, -, hc⟩ | ⟨-, -, hdone⟩ := client_cases hstep i
  · rwa [hsame]
  · simp [hread]
  · intro e he
    obtain ⟨hchecked, -⟩ | ⟨e', hfailed, he'⟩ := hc
    · cases hchecked.symm.trans he
    · exact ⟨e', hfailed, comparePosition_error he'⟩
  · simp [hdone]

end Steps

section Lock
variable {w} {server : Server} {schedule : List (Action ι)} {final : State ι}

/-- The position that a call read is the expected one, if it gets to append. -/
theorem read_position (hv : 1 ≤ w.expectedVersion) (hne : ∀ i, w.events i ≠ [])
    {s₁ s₂ s : State ι} {i : ι} {between : List (Action ι)}
    (hread : step w s₁ (.read i) = some s₂) (hbetween : exec (step w) s₂ between = some s)
    (happend : step w s (.append i) = some final) :
    getStreamPosition w.name s₁.server = some (fromVersion w.expectedVersion) ∧
      s₂.server = s₁.server := by
  obtain ⟨j, hj, -, rfl⟩ | ⟨j, _, _, hj, -⟩ | ⟨j, hj, -⟩ := step_cases hread
  · cases hj
    refine ⟨?_, rfl⟩
    have hfollows : Follows (w.versioning i) (getStreamPosition w.name s₁.server) (s.clients i) :=
      follows_exec (.inl (setClient_self s₁ i _)) hbetween
    have hchecked := (append_step (hne i) happend).1
    have hok : comparePosition (w.versioning i) (getStreamPosition w.name s₁.server) = .ok () := by
      simpa [Follows, hchecked] using hfollows
    exact comparePosition_ok (compared_versioning hv i) hok
  · cases hj
  · cases hj

/-- Undisturbed calls append to the version that they expect. -/
theorem appendsAsExpected_of_undisturbed (hv : 1 ≤ w.expectedVersion)
    (hne : ∀ i, w.events i ≠ []) (hrun : exec (step w) (initial server) schedule = some final)
    (h : Undisturbed schedule) : AppendsAsExpected w server schedule := by
  intro before i after s hschedule hbefore
  obtain ⟨s', hs', hrest⟩ := exec_append_eq_some (hschedule ▸ hrun)
  have hsame : s' = s := by
    rw [hbefore] at hs'
    exact (Option.some.inj hs').symm
  subst hsame
  obtain ⟨s₃, happend, -⟩ := exec_cons_eq_some hrest
  have hread : .read i ∈ before := by
    by_contra hnone
    have hstart := start_of_no_read (i := i) rfl hnone hbefore
    have hchecked := (append_step (hne i) happend).1
    simp [hstart] at hchecked
  obtain ⟨before', between, rfl⟩ := List.append_of_mem hread
  obtain ⟨s₁, hs₁, htail⟩ := exec_append_eq_some hbefore
  obtain ⟨s₂, hs₂, hbetween⟩ := exec_cons_eq_some htail
  obtain ⟨hposition, hserver⟩ := read_position hv hne hs₂ hbetween happend
  have hquiet : ∀ j, .append j ∉ between := by
    apply h before' i between after
    rw [hschedule, List.append_assoc]
    rfl
  rw [server_of_no_append hquiet hbetween, hserver, hposition]

/-- Calls that append to the version they expect are undisturbed. -/
theorem undisturbed_of_appendsAsExpected (hv : 1 ≤ w.expectedVersion)
    (hne : ∀ i, w.events i ≠ []) (hrun : exec (step w) (initial server) schedule = some final)
    (h : AppendsAsExpected w server schedule) : Undisturbed schedule := by
  intro before i between after hschedule j hj
  obtain ⟨s₁, hs₁, hrest⟩ := exec_append_eq_some (hschedule ▸ hrun)
  obtain ⟨s₂, hs₂, hrest⟩ := exec_cons_eq_some hrest
  obtain ⟨s, hbetween, hrest⟩ := exec_append_eq_some hrest
  obtain ⟨s', happend, -⟩ := exec_cons_eq_some hrest
  obtain ⟨hposition, hserver⟩ := read_position hv hne hs₂ hbetween happend
  have hbefore : exec (step w) (initial server) (before ++ .read i :: between) = some s := by
    rw [exec_append, hs₁]
    exact (congrArg (·.bind fun s' => exec (step w) s' between) hs₂).trans hbetween
  have hexpected := h (before ++ .read i :: between) i after s (by simp [hschedule]) hbefore
  obtain ⟨b₁, b₂, rfl⟩ := List.append_of_mem hj
  obtain ⟨s₃, hb₁, hrest⟩ := exec_append_eq_some hbetween
  obtain ⟨s₄, hs₄, hb₂⟩ := exec_cons_eq_some hrest
  have hfirst := nextPosition_of_position hposition
  have hlast := nextPosition_of_position hexpected
  have hgrown := (append_step (hne j) hs₄).2
  have h₁ := nextPosition_le hb₁
  have h₂ := nextPosition_le hb₂
  rw [hserver] at h₁
  omega

/-- Two appends cannot both find the expected version. -/
theorem not_two_appends (hne : ∀ i, w.events i ≠ [])
    (hrun : exec (step w) (initial server) schedule = some final)
    (h : AppendsAsExpected w server schedule) {before between after : List (Action ι)} {i j : ι}
    (hschedule : schedule = before ++ .append i :: (between ++ .append j :: after)) : False := by
  obtain ⟨s₁, hs₁, hrest⟩ := exec_append_eq_some (hschedule ▸ hrun)
  obtain ⟨s₂, hs₂, hrest⟩ := exec_cons_eq_some hrest
  obtain ⟨s₃, hs₃, -⟩ := exec_append_eq_some hrest
  have hbefore : exec (step w) (initial server) (before ++ .append i :: between) = some s₃ := by
    rw [exec_append, hs₁]
    exact (congrArg (·.bind fun s' => exec (step w) s' between) hs₂).trans hs₃
  have hfirst := nextPosition_of_position (h before i _ s₁ hschedule hs₁)
  have hsecond := nextPosition_of_position
    (h (before ++ .append i :: between) j after s₃ (by simp [hschedule]) hbefore)
  have hgrown := (append_step (hne i) hs₂).2
  have hlater := nextPosition_le hs₃
  omega

theorem atMostOneSucceeds_of_appendsAsExpected (hne : ∀ i, w.events i ≠ [])
    (hrun : exec (step w) (initial server) schedule = some final)
    (h : AppendsAsExpected w server schedule) : AtMostOneSucceeds final := by
  intro i j hij hi hj
  have hraised : ∀ k e, final.clients k = .failed e → (final.clients k).Raised := fun k =>
    raised_of_failed (fun e he => by simp [initial] at he) hrun
  have happend : ∀ k, final.clients k = .done → .append k ∈ schedule := by
    intro k hk
    by_contra hnone
    exact not_done_of_no_append (by simp [initial]) hnone hrun hk
  rcases hi with hi | ⟨e, hi⟩
  · rcases hj with hj | ⟨e, hj⟩
    · exfalso
      obtain ⟨before, after, hschedule⟩ := List.append_of_mem (happend i hi)
      have hmem : .append j ∈ before ++ .append i :: after := hschedule ▸ happend j hj
      rcases List.mem_append.1 hmem with hbefore | hafter
      · obtain ⟨b₁, b₂, rfl⟩ := List.append_of_mem hbefore
        have hschedule' : schedule = b₁ ++ .append j :: (b₂ ++ .append i :: after) := by
          rw [hschedule, List.append_assoc]
          rfl
        exact not_two_appends hne hrun h hschedule'
      · rcases List.mem_cons.1 hafter with heq | hafter
        · cases heq
          exact hij rfl
        · obtain ⟨a₁, a₂, rfl⟩ := List.append_of_mem hafter
          exact not_two_appends hne hrun h hschedule
    · exact .inr (hraised j e hj)
  · exact .inl (hraised i e hi)

/-- The optimistic lock holds in a run if and only if nobody appends between the read and
the append of a call. -/
theorem optimisticLock_iff (hv : 1 ≤ w.expectedVersion) (hne : ∀ i, w.events i ≠ [])
    (hrun : exec (step w) (initial server) schedule = some final) :
    (AtMostOneSucceeds final ∧ AppendsAsExpected w server schedule) ↔ Undisturbed schedule := by
  constructor
  · exact fun h => undisturbed_of_appendsAsExpected hv hne hrun h.2
  · intro h
    have hexpected := appendsAsExpected_of_undisturbed hv hne hrun h
    exact ⟨atMostOneSucceeds_of_appendsAsExpected hne hrun hexpected, hexpected⟩

end Lock

section Alone
open KurrentDBStorageStrategy
variable {w} {streamId : StreamId} {i : ι}

/-- A call that nobody comes between is `insert_events`. -/
theorem insertEvents_alone (strategy : KurrentDBStorageStrategy) (server : Server)
    (hname : streamName strategy.tenantId streamId = .ok w.name) (hne : w.events i ≠ [])
    (hstream : ∀ raw ∈ w.events i, raw.streamId = streamId) :
    (∃ s, exec (step w) (initial server) [.read i, .compare i, .append i] = some s ∧
      strategy.insertEvents (w.versioning i) (w.events i) server = (.ok (), s.server)) ∨
    ∃ s e, exec (step w) (initial server) [.read i, .compare i] = some s ∧
      s.clients i = .failed e ∧
      strategy.insertEvents (w.versioning i) (w.events i) server = (.error e, s.server) := by
  have heq : streamId.eq streamId = true := StreamId.eq_iff.2 rfl
  have hfilter : ((w.events i).filter fun raw => raw.streamId.eq streamId) = w.events i := by
    apply List.filter_eq_self.2
    intro raw hraw
    rw [hstream raw hraw, heq]
  simp only [insertEvents, streamIds_of_one hne hstream, insertEach, ensureStream, hname,
    Except.bind, hfilter]
  cases hcompare : comparePosition (w.versioning i) (getStreamPosition w.name server) with
  | ok u =>
    left
    simp [exec, step, initial, State.setClient, hcompare]
  | error e =>
    right
    simp [exec, step, initial, State.setClient, hcompare]

end Alone

section Example

/-- A stream of one event. -/
def oneEvent : Server := fun _ =>
  { events := [{ uuid := 1, streamId := { uuid := 1 }, createdAt := 0, name := "Event"
                 data := [], context := [], version := some 1 }] }

/-- Two writers that expect version 1. -/
def twoWriters : Writers Bool where
  name := "--00000000000000000000000000000001"
  expectedVersion := 1
  events i := [{ uuid := if i then 2 else 3, streamId := { uuid := 1 }, createdAt := 0
                 name := "Event", data := [], context := [], version := some 2 }]

def oneAfterTheOther : List (Action Bool) :=
  [.read true, .compare true, .append true, .read false, .compare false]

def bothAtOnce : List (Action Bool) :=
  [.read true, .read false, .compare true, .compare false, .append true, .append false]

theorem optimisticLock_iff_oneAfterTheOther :
    (AtMostOneSucceeds
        ((exec (step twoWriters) (initial oneEvent) oneAfterTheOther).get (by decide)) ∧
      AppendsAsExpected twoWriters oneEvent oneAfterTheOther) ↔ Undisturbed oneAfterTheOther :=
  optimisticLock_iff (by decide) (by decide) (Option.some_get _).symm

/-- Both writers read the expected position before either appends, and both succeed. -/
theorem optimisticLock_bothAtOnce :
    ∃ s, exec (step twoWriters) (initial oneEvent) bothAtOnce = some s ∧
      s.clients true = .done ∧ s.clients false = .done ∧ ¬ AtMostOneSucceeds s ∧
      ¬ AppendsAsExpected twoWriters oneEvent bothAtOnce := by
  refine ⟨_, rfl, rfl, rfl, fun h => ?_, fun h => ?_⟩
  · rcases h true false (by decide) (.inl rfl) (.inl rfl) with ⟨e, he, -⟩ | ⟨e, he, -⟩
    · cases he
    · cases he
  · have hsecond := h [.read true, .read false, .compare true, .compare false, .append true] false
      [] _ rfl rfl
    exact absurd hsecond (by decide)

end Example

end EventSourcery.Kurrent.KurrentConcurrency
