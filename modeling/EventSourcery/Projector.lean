import EventSourcery.ConsecutiveNumbers
import EventSourcery.Cursors
import EventSourcery.Tables
import EventSourcery.Tenants

/-!
# Projector

`Projector.project` hands an event to the read model and, when the cursor shows that
events were missed, the missed ones before it. The read model here never raises and
keeps what it received. The store is read only by `load_stream`, and is assumed to
answer it with the events of the stream in the range asked for.
-/
namespace EventSourcery
open Runs SqlAlchemyCursorsDao ConsecutiveNumbers
open Sql (inWindow inWindow_some)

inductive ProjectorError where
  | cantProjectUnversionedEvent
  | cursors (error : CursorsError)
  | store (error : Error)
  deriving DecidableEq

/-- The cursors, and what the read model has received. -/
structure ProjectorState (E : Type) where
  cursors : Cursors
  received : List (WrappedEvent E × StreamId)

namespace Projector
section Project
variable {E : Type} (name : String)
  (load : StreamId → Option ℤ → Option ℤ → Except Error (List (WrappedEvent E)))

/-- Once the cursor is placed at an event, the missed events and the event. -/
def catchUp (event : WrappedEvent E) (streamId : StreamId) (start : Option ℤ) (version : ℤ)
    (placed : Except CursorsError Unit × Cursors) (s : ProjectorState E) :
    Except ProjectorError Unit × ProjectorState E :=
  match placed with
  | (.error e, cursors) => (.error (.cursors e), { s with cursors })
  | (.ok (), cursors) =>
      match load streamId start (some version) with
      | .error e => (.error (.store e), { s with cursors })
      | .ok missed =>
          (.ok (), { cursors, received := s.received ++ (missed ++ [event]).map (·, streamId) })

def project (event : WrappedEvent E) (streamId : StreamId) (s : ProjectorState E) :
    Except ProjectorError Unit × ProjectorState E :=
  match event.version with
  | none => (.error .cantProjectUnversionedEvent, s)
  | some version =>
      match increment name streamId version s.cursors with
      | (.ok (), cursors) => (.ok (), { cursors, received := s.received ++ [(event, streamId)] })
      | (.error .streamNotTracked, cursors) =>
          catchUp load event streamId none version (putAt name streamId version cursors) s
      | (.error (.behindStream current), cursors) =>
          catchUp load event streamId (some (current + 1)) version
            (moveTo name streamId version cursors) s
      | (.error (.aheadOfStream _), cursors) => (.ok (), { s with cursors })
      | (.error .integrityError, cursors) => (.error (.cursors .integrityError), { s with cursors })

end Project

/-- The rows of a stream that is projected up to a version, one row at most. -/
def cursorAt (version : ℤ) : List ℤ := if version = 0 then [] else [version]

/-- A call that answers, hands these events to the read model and leaves the cursor of the
stream at a version. -/
structure Delivers {E : Type} (name : String) (streamId : StreamId) (events : List (WrappedEvent E))
    (version : ℤ) (s : ProjectorState E) (r : Except ProjectorError Unit × ProjectorState E) :
    Prop where
  answer : r.1 = .ok ()
  received : r.2.received = s.received ++ events.map (·, streamId)
  own : versionsAt r.2.cursors (name, streamId.key) = cursorAt version
  other : ∀ key, key ≠ (name, streamId.key) →
    versionsAt r.2.cursors key = versionsAt s.cursors key

section Outcomes
variable {E : Type} {name : String}
  {load : StreamId → Option ℤ → Option ℤ → Except Error (List (WrappedEvent E))}
  {event : WrappedEvent E} {streamId : StreamId} {s : ProjectorState E} {version current : ℤ}

theorem cursorAt_of_pos (h : 1 ≤ version) : cursorAt version = [version] :=
  if_neg (by omega)

/-- What `project` makes of an `increment` that passes over the event. -/
theorem project_of_ahead (hversion : event.version = some version)
    (hact : ∃ held, incrementVersion version (versionsAt s.cursors (name, streamId.key)) =
      (.error (.aheadOfStream held), cursorAt current)) :
    Delivers name streamId [] current s (project name load event streamId s) := by
  obtain ⟨held, hact⟩ := hact
  have h := increment_actsAt name streamId version s.cursors
  rw [hact] at h
  simp only [project, hversion]
  generalize increment name streamId version s.cursors = r at h ⊢
  obtain ⟨answer, cursors⟩ := r
  obtain rfl : answer = _ := h.answer
  exact ⟨rfl, by simp, h.own, h.other⟩

/-- An event up to the cursor is passed over. -/
theorem project_passed (hversion : event.version = some version) (hfirst : 1 ≤ version)
    (hcursor : versionsAt s.cursors (name, streamId.key) = cursorAt current)
    (hle : version ≤ current) :
    Delivers name streamId [] current s (project name load event streamId s) := by
  apply project_of_ahead hversion
  rw [hcursor, cursorAt_of_pos (hfirst.trans hle)]
  exact ⟨current, incrementVersion_of_le hle⟩

/-- The event after the cursor is handed over. -/
theorem project_next (hcurrent : 0 ≤ current) (hversion : event.version = some (current + 1))
    (hcursor : versionsAt s.cursors (name, streamId.key) = cursorAt current) :
    Delivers name streamId [event] (current + 1) s (project name load event streamId s) := by
  have h := increment_actsAt name streamId (current + 1) s.cursors
  have hact : incrementVersion (current + 1) (cursorAt current) =
      (.ok (), cursorAt (current + 1)) := by
    have hafter : cursorAt (current + 1) = [current + 1] := cursorAt_of_pos (by omega)
    rw [hafter]
    rcases hcurrent.eq_or_lt with rfl | hpos
    · rfl
    · rw [cursorAt_of_pos (by omega), incrementVersion_succ (by omega)]
  rw [hcursor, hact] at h
  simp only [project, hversion]
  generalize increment name streamId (current + 1) s.cursors = r at h ⊢
  obtain ⟨answer, cursors⟩ := r
  obtain rfl : answer = _ := h.answer
  exact ⟨rfl, rfl, h.own, h.other⟩

/-- The range of the missed events starts after the cursor. -/
def missedFrom (current : ℤ) : Option ℤ := if current = 0 then none else some (current + 1)

theorem catchUp_delivers {start : Option ℤ} {missed : List (WrappedEvent E)}
    {placed : Except CursorsError Unit × Cursors}
    (hplaced : ActsAt (name, streamId.key) s.cursors placed (.ok (), cursorAt version))
    (hload : load streamId start (some version) = .ok missed) :
    Delivers name streamId (missed ++ [event]) version s
      (catchUp load event streamId start version placed s) := by
  obtain ⟨answer, cursors⟩ := placed
  obtain rfl : answer = _ := hplaced.answer
  simp only [catchUp, hload]
  exact ⟨rfl, rfl, hplaced.own, hplaced.other⟩

/-- Before a later event the missed ones are loaded and handed over. -/
theorem project_missed {missed : List (WrappedEvent E)} (hcurrent : 0 ≤ current)
    (hversion : event.version = some version) (hlt : current + 1 < version)
    (hcursor : versionsAt s.cursors (name, streamId.key) = cursorAt current)
    (hload : load streamId (missedFrom current) (some version) = .ok missed) :
    Delivers name streamId (missed ++ [event]) version s (project name load event streamId s) := by
  have h := increment_actsAt name streamId version s.cursors
  simp only [project, hversion]
  rcases hcurrent.eq_or_lt with rfl | hpos
  · have hfirst : version ≠ 1 := by omega
    rw [hcursor, cursorAt, if_pos rfl, incrementVersion_nil, if_neg hfirst] at h
    generalize increment name streamId version s.cursors = r at h ⊢
    obtain ⟨answer, cursors⟩ := r
    obtain rfl : answer = _ := h.answer
    have hput := h.trans (putAt_actsAt name streamId version cursors)
    rw [h.own] at hput
    refine catchUp_delivers ?_ hload
    rw [cursorAt_of_pos (by omega)]
    simpa [putVersion] using hput
  · rw [hcursor, cursorAt_of_pos (by omega), incrementVersion_of_lt (by omega) hlt] at h
    generalize increment name streamId version s.cursors = r at h ⊢
    obtain ⟨answer, cursors⟩ := r
    obtain rfl : answer = _ := h.answer
    have hmove := h.trans (moveTo_actsAt name streamId version cursors)
    rw [h.own] at hmove
    rw [missedFrom, if_neg (by omega)] at hload
    refine catchUp_delivers ?_ hload
    rw [cursorAt_of_pos (by omega)]
    exact hmove

end Outcomes

section Numbered
variable {E : Type} {first start stop : ℤ} {events : List (WrappedEvent E)} {event : WrappedEvent E}

/-- The versions of the events count on from a number. -/
def CountsFrom {E : Type} : ℤ → List (WrappedEvent E) → Prop
  | _, [] => True
  | first, event :: events => event.version = some first ∧ CountsFrom (first + 1) events

theorem countsFrom_iff : CountsFrom first events ↔ Consecutive (·.version) first events := by
  induction events generalizing first with
  | nil => exact Iff.rfl
  | cons e events ih => exact and_congr Iff.rfl ih

/-- The events in a window are those between its bounds. -/
theorem CountsFrom.filter_inWindow (h : CountsFrom first events) (start stop : Option ℤ) :
    events.filter (fun e => inWindow start stop e.version) =
      (events.take (stop.elim events.length fun b => (b - first).toNat)).drop
        (start.elim 0 fun a => (a - first).toNat) := by
  have hconsecutive := countsFrom_iff.1 h
  rw [← selectFrom_eq, ← hconsecutive.filter_eq]
  apply List.filter_congr
  intro e he
  obtain ⟨i, -, hversion⟩ := hconsecutive.exists_of_mem he
  rw [hversion, inWindow_some, Option.any_some]

theorem CountsFrom.take (h : CountsFrom first events) (n : ℕ) :
    CountsFrom first (events.take n) := by
  induction events generalizing first n with
  | nil => simpa using h
  | cons e events ih =>
    cases n with
    | zero => trivial
    | succ n => exact ⟨h.1, ih h.2 n⟩

theorem CountsFrom.of_initial {earlier : List (WrappedEvent E)} (h : CountsFrom first events)
    (hinitial : earlier <+: events) : CountsFrom first earlier := by
  rw [List.prefix_iff_eq_take.1 hinitial]
  exact h.take _

theorem CountsFrom.append {later : List (WrappedEvent E)} (h : CountsFrom first events)
    (h' : CountsFrom (first + events.length) later) : CountsFrom first (events ++ later) :=
  countsFrom_iff.2 ((countsFrom_iff.1 h).append (countsFrom_iff.1 h'))

theorem CountsFrom.getLast?_version (h : CountsFrom first (event :: events)) :
    (event :: events).getLast?.bind (·.version) = some (first + events.length) :=
  (countsFrom_iff.1 h).getLast?

/-- Every event is the one that its version says. -/
theorem CountsFrom.exists_of_mem (h : CountsFrom first events) (hmem : event ∈ events) :
    ∃ i : ℕ, events[i]? = some event ∧ event.version = some (first + i) :=
  (countsFrom_iff.1 h).exists_of_mem hmem

/-- The missed events are those between the cursor and the event. -/
theorem CountsFrom.filter_missed (h : CountsFrom 1 events) (m i : ℕ) :
    events.filter (fun e => inWindow (missedFrom m) (some (i + 1)) e.version) =
      (events.take i).drop m := by
  have hplace : ∀ k : ℕ, ((k : ℤ) + 1 - 1).toNat = k := fun k => by omega
  rw [h.filter_inWindow, Option.elim_some, hplace]
  unfold missedFrom
  split
  · next hm =>
    obtain rfl : m = 0 := by omega
    rfl
  · rw [Option.elim_some, hplace]

theorem take_missed {m i : ℕ} (hm : m ≤ i) (hi : events[i]? = some event) :
    events.take m ++ ((events.take i).drop m ++ [event]) = events.take (i + 1) := by
  have hinitial : events.take m = (events.take i).take m := by
    rw [List.take_take, min_eq_left hm]
  rw [hinitial, ← List.append_assoc, List.take_append_drop, List.take_add_one, hi]
  rfl

end Numbered

section Runs
variable {E σ : Type}

/-- The store and a projector over it. -/
structure Running (E σ : Type) where
  store : σ
  projector : ProjectorState E

/-- Appends take the store to another state; `project` is the call of the projector. -/
inductive Input (E σ : Type) where
  | append (store : σ)
  | project (event : WrappedEvent E) (streamId : StreamId)

def step (name : String) (store : EventStore E σ) (s : Running E σ) :
    Input E σ → Except ProjectorError Unit × Running E σ
  | .append state => (.ok (), { s with store := state })
  | .project event streamId =>
      let load := fun streamId start stop => store.loadStream streamId start stop s.store
      let r := project name load event streamId s.projector
      (r.1, { s with projector := r.2 })

section Streams
variable (events : σ → StreamKey → List (WrappedEvent E))

def Counted (state : σ) : Prop := ∀ key, CountsFrom 1 (events state key)

/-- `load_stream` gives exactly the events of the range. -/
def LoadsRanges (store : EventStore E σ) : Prop :=
  ∀ state, Counted events state → ∀ streamId start stop,
    store.loadStream streamId start stop state =
      .ok ((events state streamId.key).filter fun e => inWindow start stop e.version)

/-- Appends extend the streams, and what is projected is already in its stream. -/
def Proper (s : Running E σ) : Input E σ → Prop
  | .append state => Counted events state ∧ ∀ key, events s.store key <+: events state key
  | .project event streamId => event ∈ events s.store streamId.key

end Streams

/-- The highest version projected so far, after one more input. -/
def raised (key : StreamKey) (m : ℕ) : Input E σ → ℕ
  | .append _ => m
  | .project event streamId =>
      if streamId.key = key then max m (event.version.getD 0).toNat else m

/-- The highest version projected for a stream, 0 if none. -/
def highest (key : StreamKey) (inputs : List (Input E σ)) : ℕ := inputs.foldl (raised key) 0

/-- What the read model has received of a stream. -/
def receivedOf (key : StreamKey) (received : List (WrappedEvent E × StreamId)) :
    List (WrappedEvent E) :=
  (received.filter fun r => r.2.key = key).map Prod.fst

variable {name : String} {events : σ → StreamKey → List (WrappedEvent E)} {event : WrappedEvent E}
  {streamId : StreamId} {store : EventStore E σ}

/-- After a call the events of the stream up to the projected one have been received. -/
theorem project_delivers {stream : List (WrappedEvent E)} {m i : ℕ} {s : ProjectorState E}
    (load : StreamId → Option ℤ → Option ℤ → Except Error (List (WrappedEvent E)))
    (hstream : CountsFrom 1 stream)
    (hload : ∀ start stop, load streamId start stop =
      .ok (stream.filter fun e => inWindow start stop e.version))
    (hcursor : versionsAt s.cursors (name, streamId.key) = cursorAt m)
    (hi : stream[i]? = some event) (hversion : event.version = some ((i : ℤ) + 1)) :
    ∃ out, Delivers name streamId out (max m (i + 1) : ℕ) s (project name load event streamId s) ∧
      stream.take m ++ out = stream.take (max m (i + 1)) := by
  have hcast : ((i + 1 : ℕ) : ℤ) = i + 1 := by omega
  rcases lt_trichotomy m i with hlt | rfl | hlt
  · rw [max_eq_right (by omega), hcast]
    have hmissed : load streamId (missedFrom m) (some (i + 1)) = .ok ((stream.take i).drop m) := by
      rw [hload, hstream.filter_missed]
    exact ⟨_, project_missed (by omega) hversion (by omega) hcursor hmissed, take_missed hlt.le hi⟩
  · rw [max_eq_right (by omega), hcast]
    refine ⟨[event], project_next (by omega) hversion hcursor, ?_⟩
    rw [List.take_add_one, hi]
    rfl
  · rw [max_eq_left (by omega)]
    exact ⟨[], project_passed hversion (by omega) hcursor (by omega), List.append_nil _⟩

theorem receivedOf_append {key : StreamKey} {received : List (WrappedEvent E × StreamId)}
    {out : List (WrappedEvent E)} : receivedOf key (received ++ out.map (·, streamId)) =
      receivedOf key received ++ if streamId.key = key then out else [] := by
  unfold receivedOf
  rw [List.filter_append, List.map_append]
  congr 1
  split <;> simp_all [List.filter_map, Function.comp_def]

/-- After the inputs so far: all calls have answered, and for every stream the read model has
received its events up to the highest version projected, where the cursor is. -/
structure Projected (name : String) (events : σ → StreamKey → List (WrappedEvent E))
    (past : List (Input E σ × Except ProjectorError Unit)) (s : Running E σ) : Prop where
  counted : Counted events s.store
  answers : ∀ a ∈ past, a.2 = .ok ()
  bounded : ∀ key, highest key (past.map Prod.fst) ≤ (events s.store key).length
  cursor : ∀ key, versionsAt s.projector.cursors (name, key) =
    cursorAt (highest key (past.map Prod.fst))
  received : ∀ key, receivedOf key s.projector.received =
    (events s.store key).take (highest key (past.map Prod.fst))

theorem highest_append {key : StreamKey} {input : Input E σ}
    {past : List (Input E σ × Except ProjectorError Unit)} {answer : Except ProjectorError Unit} :
    highest key ((past ++ [(input, answer)]).map Prod.fst) =
      raised key (highest key (past.map Prod.fst)) input := by
  simp [highest]

section Inputs
variable {s : Running E σ} {past : List (Input E σ × Except ProjectorError Unit)}

theorem Projected.append (h : Projected name events past s) {state : σ}
    (hproper : Proper events s (.append state)) :
    Projected name events (past ++ [(.append state, .ok ())]) { s with store := state } := by
  obtain ⟨hcounted, hextends⟩ := hproper
  refine ⟨hcounted, ?_, fun key => ?_, fun key => ?_, fun key => ?_⟩
  · simpa [or_imp, forall_and] using h.answers
  · rw [highest_append]
    exact (h.bounded key).trans (hextends key).length_le
  · rw [highest_append]
    exact h.cursor key
  · rw [highest_append]
    refine (h.received key).trans ?_
    obtain ⟨new, hnew⟩ := hextends key
    rw [raised, ← hnew, List.take_append_of_le_length (h.bounded key)]

theorem Projected.project (hload : LoadsRanges events store) (h : Projected name events past s)
    (hproper : event ∈ events s.store streamId.key) :
    let r := Projector.step name store s (.project event streamId)
    Projected name events (past ++ [(.project event streamId, r.1)]) r.2 := by
  obtain ⟨i, hi, hversion⟩ := (h.counted streamId.key).exists_of_mem hproper
  rw [add_comm] at hversion
  obtain ⟨out, hdelivers, hout⟩ := project_delivers
    (fun streamId start stop => store.loadStream streamId start stop s.store)
    (h.counted streamId.key) (hload s.store h.counted streamId) (h.cursor streamId.key) hi hversion
  have hown : ∀ m, raised streamId.key m (.project event streamId : Input E σ) = max m (i + 1) := by
    intro m
    rw [raised, if_pos rfl, hversion]
    simp only [Option.getD_some]
    congr 1
  have hother : ∀ key m, streamId.key ≠ key →
      raised key m (.project event streamId : Input E σ) = m := fun key m hne => if_neg hne
  refine ⟨h.counted, ?_, fun key => ?_, fun key => ?_, fun key => ?_⟩
  · intro a ha
    rcases List.mem_append.1 ha with ha | ha
    · exact h.answers a ha
    · rw [List.mem_singleton.1 ha]
      exact hdelivers.answer
  · rw [highest_append]
    by_cases hkey : streamId.key = key
    · subst hkey
      rw [hown]
      exact max_le (h.bounded _) (List.getElem?_eq_some_iff.1 hi).1
    · rw [hother key _ hkey]
      exact h.bounded key
  · rw [highest_append]
    by_cases hkey : streamId.key = key
    · subst hkey
      rw [hown]
      exact hdelivers.own
    · rw [hother key _ hkey, ← h.cursor key]
      exact hdelivers.other _ fun heq => hkey (Prod.mk.inj heq).2.symm
  · rw [highest_append]
    refine (congrArg (receivedOf key) hdelivers.received).trans ?_
    by_cases hkey : streamId.key = key
    · subst hkey
      rw [hown, receivedOf_append, if_pos rfl, h.received]
      exact hout
    · rw [hother key _ hkey, receivedOf_append, if_neg hkey, List.append_nil]
      exact h.received key

theorem Projected.step (hload : LoadsRanges events store) {input : Input E σ}
    (h : Projected name events past s) (hproper : Proper events s input) :
    Projected name events (past ++ [(input, (Projector.step name store s input).1)])
      (Projector.step name store s input).2 := by
  cases input with
  | append state => exact h.append hproper
  | project event streamId => exact h.project hload hproper

end Inputs

theorem projected_of_run (hload : LoadsRanges events store) {initial : Running E σ}
    (hstore : Counted events initial.store)
    (hnew : ∀ row ∈ initial.projector.cursors, row.name ≠ name)
    (hempty : initial.projector.received = []) {inputs : List (Input E σ)}
    (hproper : Meets (Projector.step name store) (Proper events) initial inputs) :
    Projected name events (inputs.zip (run (Projector.step name store) initial inputs).1)
      (run (Projector.step name store) initial inputs).2 := by
  apply run_history (fun past s input h hproper => h.step hload hproper) _ inputs hproper
  refine ⟨hstore, by simp, fun key => Nat.zero_le _, fun key => ?_, fun key => ?_⟩
  · rw [versionsAt_of_new hnew]
    rfl
  · rw [hempty]
    rfl

theorem cursor_of_run (hload : LoadsRanges events store) {initial : Running E σ}
    (hstore : Counted events initial.store)
    (hnew : ∀ row ∈ initial.projector.cursors, row.name ≠ name)
    (hempty : initial.projector.received = []) {inputs : List (Input E σ)}
    (hproper : Meets (Projector.step name store) (Proper events) initial inputs) :
    currentVersion name streamId
        (run (Projector.step name store) initial inputs).2.projector.cursors =
      if highest streamId.key inputs = 0 then none else some (highest streamId.key inputs : ℤ) := by
  have h := (projected_of_run hload hstore hnew hempty hproper).cursor streamId.key
  rw [List.map_fst_zip (by simp)] at h
  rw [currentVersion_eq, h, cursorAt]
  simp only [Nat.cast_eq_zero]
  split <;> rfl

theorem le_foldl_raised (key : StreamKey) (m : ℕ) (inputs : List (Input E σ)) :
    m ≤ inputs.foldl (raised key) m := by
  induction inputs generalizing m with
  | nil => exact le_rfl
  | cons input inputs ih =>
    refine le_trans ?_ (ih _)
    cases input with
    | append state => exact le_rfl
    | project event streamId =>
      rw [raised]
      split
      · exact le_max_left _ _
      · exact le_rfl

/-- Whatever is projected, in any order and again: the read model has received the events of
each stream up to the highest version projected, in order and once, and the cursor is there.
It never moves back. -/
theorem project_exactly_once (hload : LoadsRanges events store) {initial : Running E σ}
    (hstore : Counted events initial.store)
    (hnew : ∀ row ∈ initial.projector.cursors, row.name ≠ name)
    (hempty : initial.projector.received = []) {inputs : List (Input E σ)}
    (hproper : Meets (Projector.step name store) (Proper events) initial inputs) :
    (∀ answer ∈ (run (Projector.step name store) initial inputs).1, answer = .ok ()) ∧
      ∀ streamId : StreamId,
        let final := (run (Projector.step name store) initial inputs).2
        let m := highest streamId.key inputs
        m ≤ (events final.store streamId.key).length ∧
        receivedOf streamId.key final.projector.received =
          (events final.store streamId.key).take m ∧
        currentVersion name streamId final.projector.cursors =
          (if m = 0 then none else some (m : ℤ)) ∧
        ∀ earlier, earlier <+: inputs → (currentVersion name streamId
            (run (Projector.step name store) initial earlier).2.projector.cursors).getD 0 ≤ m := by
  have h := projected_of_run hload hstore hnew hempty hproper
  have hbounded := h.bounded
  have hreceived := h.received
  rw [List.map_fst_zip (by simp)] at hbounded hreceived
  refine ⟨fun answer hanswer => ?_, fun streamId => ⟨hbounded _, hreceived _,
    cursor_of_run hload hstore hnew hempty hproper, ?_⟩⟩
  · have hanswers : (inputs.zip (run (Projector.step name store) initial inputs).1).map Prod.snd =
        (run (Projector.step name store) initial inputs).1 :=
      List.map_snd_zip (run_length _ _ _).le
    rw [← hanswers] at hanswer
    obtain ⟨past, hpast, rfl⟩ := List.mem_map.1 hanswer
    exact h.answers past hpast
  · rintro earlier ⟨later, rfl⟩
    rw [cursor_of_run hload hstore hnew hempty (meets_append.1 hproper).1]
    have hle : highest streamId.key earlier ≤ highest streamId.key (earlier ++ later) := by
      rw [highest, highest, List.foldl_append]
      exact le_foldl_raised _ _ _
    split
    · exact Nat.cast_nonneg _
    · exact Nat.cast_le.2 hle

end Runs

section Example
open Tenants

def rawOf (streamId : StreamId) (event : WrappedEvent Unit) : RawEvent :=
  { uuid := event.uuid, streamId, createdAt := event.createdAt, name := "Event", data := []
    context := event.context, version := event.version }

/-- A store that has its streams as lists. -/
def listedStore : EventStore Unit (StreamKey → List (WrappedEvent Unit)) where
  storageStrategy :=
    { fetchEvents := fun streamId start stop streams =>
        .ok (((streams streamId.key).filter fun e => inWindow start stop e.version).map
          (rawOf streamId))
      insertEvents := fun _ _ _ streams => (.ok (), streams)
      saveSnapshot := fun _ streams => (.ok (), streams)
      deleteStream := fun _ streams => (.ok (), streams) }
  serde := plainSerde

theorem deserializeMany_rawOf (streamId : StreamId) (events : List (WrappedEvent Unit)) :
    plainSerde.deserializeMany (events.map (rawOf streamId)) = .ok events := by
  unfold Serde.deserializeMany
  induction events with
  | nil => rfl
  | cons event events ih =>
    rw [List.map_cons, List.mapM_cons, ih]
    rfl

theorem listedStore_loads : LoadsRanges (fun streams => streams) listedStore := by
  intro streams _ streamId start stop
  simp only [EventStore.loadStream, listedStore, Except.bind, deserializeMany_rawOf]
  rfl

def eventOf (version : ℤ) : WrappedEvent Unit := .wrap () 0 0 (some version)

/-- A stream of three events. -/
def threeEvents (key : StreamKey) : List (WrappedEvent Unit) :=
  if key = order.key then [eventOf 1, eventOf 2, eventOf 3] else []

theorem threeEvents_counted (key : StreamKey) : CountsFrom 1 (threeEvents key) := by
  unfold threeEvents
  split
  · exact ⟨rfl, rfl, rfl, trivial⟩
  · trivial

def emptyRunning : Running Unit (StreamKey → List (WrappedEvent Unit)) where
  store _ := []
  projector := ⟨[], []⟩

theorem project_exactly_once_order :
    let inputs := [.append threeEvents, .project (eventOf 3) order, .project (eventOf 1) order]
    let final := (run (step "balances" listedStore) emptyRunning inputs).2
    receivedOf order.key final.projector.received = (final.store order.key).take 3 ∧
      currentVersion "balances" order final.projector.cursors = some 3 := by
  have hstart : Counted (fun streams => streams) emptyRunning.store := fun _ => trivial
  have hnew : ∀ row ∈ emptyRunning.projector.cursors, row.name ≠ "balances" := by
    simp [emptyRunning]
  have hproper : Meets (step "balances" listedStore) (Proper fun streams => streams) emptyRunning
      [.append threeEvents, .project (eventOf 3) order, .project (eventOf 1) order] := by
    have hlast : eventOf 3 ∈ threeEvents order.key := by simp [threeEvents]
    have hfirst : eventOf 1 ∈ threeEvents order.key := by simp [threeEvents]
    exact ⟨⟨threeEvents_counted, fun _ => List.nil_prefix⟩, hlast, hfirst, trivial⟩
  have h := (project_exactly_once listedStore_loads hstart hnew rfl hproper).2 order
  exact ⟨h.2.1, h.2.2.1⟩

end Example

end Projector

end EventSourcery
