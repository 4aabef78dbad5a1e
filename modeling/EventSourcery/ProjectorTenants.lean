import EventSourcery.Projector

/-!
# Projectors of several tenants

Each tenant has its own store and read model, and all projectors share one name and one
cursor table, whose rows do not know of tenants. Where two tenants have a stream with the
same id, the first event of one of them finds the cursor of the other.
-/
namespace EventSourcery.ProjectorTenants
open Runs SqlAlchemyCursorsDao Projector
open Sql (inWindow)

structure State (E : Type) where
  cursors : Cursors
  received : TenantId → List (WrappedEvent E × StreamId)

section Tenants
variable {E : Type} (name : String)
  (load : TenantId → StreamId → Option ℤ → Option ℤ → Except Error (List (WrappedEvent E)))
  (streamId : StreamId)

/-- A tenant's projector projects an event of the tenant's stream. -/
def step (s : State E) (i : TenantId × WrappedEvent E) : Except ProjectorError Unit × State E :=
  let r := project name (load i.1) i.2 streamId ⟨s.cursors, s.received i.1⟩
  (r.1, ⟨r.2.cursors, Function.update s.received i.1 r.2.received⟩)

variable {name load streamId} {s : State E} {t u : TenantId} {event : WrappedEvent E}
  {out : List (WrappedEvent E)} {version : ℤ}

theorem received_step (h : Delivers name streamId out version ⟨s.cursors, s.received t⟩
    (project name (load t) event streamId ⟨s.cursors, s.received t⟩)) :
    (step name load streamId s (t, event)).2.received u =
      s.received u ++ if u = t then out.map (·, streamId) else [] := by
  by_cases hu : u = t
  · subst hu
    simp [step, h.received]
  · simp [step, hu]

/-- Alone, a tenant's projector gets the events one after the other. -/
theorem received_alone {calls : List (TenantId × WrappedEvent E)} (hcalls : ∀ c ∈ calls, c.1 = t)
    {m : ℤ} (hm : 0 ≤ m) (hcount : CountsFrom (m + 1) (calls.map Prod.snd))
    (hcursor : versionsAt s.cursors (name, streamId.key) = cursorAt m) :
    (run (step name load streamId) s calls).2.received u =
      s.received u ++ if u = t then calls.map fun c => (c.2, streamId) else [] := by
  induction calls generalizing s m with
  | nil => simp
  | cons c calls ih =>
    obtain ⟨t', event⟩ := c
    obtain rfl : t' = t := hcalls _ List.mem_cons_self
    have hnext : Delivers name streamId [event] (m + 1) ⟨s.cursors, s.received t'⟩
      (project name (load t') event streamId ⟨s.cursors, s.received t'⟩) :=
        project_next hm hcount.1 hcursor
    have hmoved : versionsAt (step name load streamId s (t', event)).2.cursors
      (name, streamId.key) = cursorAt (m + 1) := hnext.own
    rw [run_cons, ih (fun c hc => hcalls c (List.mem_cons_of_mem _ hc)) (by omega) hcount.2 hmoved,
      received_step hnext]
    by_cases hu : u = t' <;> simp [hu]

/-- The cursor is beyond the start of the stream, and only one tenant's read model may have
received a first event. -/
def PastFirst (name : String) (streamId : StreamId) (t : TenantId) (s : State E) : Prop :=
  (∃ c, 1 ≤ c ∧ versionsAt s.cursors (name, streamId.key) = cursorAt c) ∧
    ∀ u ≠ t, ∀ r ∈ s.received u, r.1.version ≠ some 1

/-- What a tenant loads is in the range that it asks for. -/
def LoadsInRange (load : StreamId → Option ℤ → Option ℤ → Except Error (List (WrappedEvent E)))
    (streamId : StreamId) : Prop :=
  ∀ start stop, ∃ loaded, load streamId start stop = .ok loaded ∧
    ∀ e ∈ loaded, inWindow start stop e.version

/-- Beyond the start of the stream no first event is handed over. -/
theorem project_pastFirst {load : StreamId → Option ℤ → Option ℤ →
      Except Error (List (WrappedEvent E))} (hload : LoadsInRange load streamId)
    {s : ProjectorState E} {c : ℤ} (hc : 1 ≤ c)
    (hcursor : versionsAt s.cursors (name, streamId.key) = cursorAt c)
    (hversion : event.version = some version) (hfirst : 1 ≤ version) :
    ∃ out c', Delivers name streamId out c' s (project name load event streamId s) ∧ 1 ≤ c' ∧
      ∀ e ∈ out, e.version ≠ some 1 := by
  rcases lt_trichotomy version (c + 1) with hlt | rfl | hlt
  · exact ⟨[], c, project_passed hversion hfirst hcursor (by omega), hc, by simp⟩
  · refine ⟨[event], c + 1, project_next (by omega) hversion hcursor, by omega, ?_⟩
    intro e he
    rw [List.mem_singleton.1 he, hversion, ne_eq, Option.some.injEq]
    omega
  · obtain ⟨missed, hmissed, hrange⟩ := hload (missedFrom c) (some version)
    refine ⟨missed ++ [event], version,
      project_missed (by omega) hversion hlt hcursor hmissed, hfirst, ?_⟩
    intro e he
    rcases List.mem_append.1 he with he | he
    · have hwindow := hrange e he
      rw [missedFrom, if_neg (by omega)] at hwindow
      intro hone
      rw [hone] at hwindow
      simp [inWindow] at hwindow
      omega
    · rw [List.mem_singleton.1 he, hversion, ne_eq, Option.some.injEq]
      omega

theorem step_pastFirst (hload : ∀ t, LoadsInRange (load t) streamId) (i : TenantId × WrappedEvent E)
    (hversion : ∃ v, i.2.version = some v ∧ 1 ≤ v) (h : PastFirst name streamId t s) :
    PastFirst name streamId t (step name load streamId s i).2 := by
  obtain ⟨u, event⟩ := i
  obtain ⟨version, hversion, hfirst⟩ := hversion
  obtain ⟨⟨c, hc, hcursor⟩, hothers⟩ := h
  obtain ⟨out, c', hdelivers, hc', hout⟩ := project_pastFirst (s := ⟨s.cursors, s.received u⟩)
    (hload u) hc hcursor hversion hfirst
  refine ⟨⟨c', hc', hdelivers.own⟩, fun v hv r hr => ?_⟩
  rw [received_step hdelivers] at hr
  rcases List.mem_append.1 hr with hr | hr
  · exact hothers v hv r hr
  · split at hr
    · obtain ⟨e, he, rfl⟩ := List.mem_map.1 hr
      exact hout e he
    · cases hr

/-- Once a tenant's first event was projected, no other read model receives a first event. -/
theorem run_pastFirst (hload : ∀ t, LoadsInRange (load t) streamId) {cursors : Cursors}
    {rest : List (TenantId × WrappedEvent E)}
    (hstart : versionsAt cursors (name, streamId.key) = cursorAt 0)
    (hevent : event.version = some 1) (hversions : ∀ i ∈ rest, ∃ v, i.2.version = some v ∧ 1 ≤ v) :
    PastFirst name streamId t
      (run (step name load streamId) ⟨cursors, fun _ => []⟩ ((t, event) :: rest)).2 := by
  have hnext : Delivers name streamId [event] (0 + 1) ⟨cursors, []⟩
      (project name (load t) event streamId ⟨cursors, []⟩) :=
    project_next le_rfl hevent hstart
  have hfirst : PastFirst name streamId t
      (step name load streamId ⟨cursors, fun _ => []⟩ (t, event)).2 := by
    refine ⟨⟨0 + 1, le_rfl, hnext.own⟩, fun u hu r hr => ?_⟩
    rw [received_step hnext, if_neg hu] at hr
    cases hr
  exact run_keeps (fun s i hi h => step_pastFirst hload i hi h) hfirst hversions

/-- Every tenant receives its own events, each once and in order, if and only if no two
tenants have events of the stream. -/
theorem received_own_iff {calls : List (TenantId × WrappedEvent E)} {cursors : Cursors}
    (hnew : ∀ row ∈ cursors, row.name ≠ name)
    (hstreams : ∀ t, CountsFrom 1 (inputsOf t calls))
    (hload : ∀ t start stop, load t streamId start stop =
      .ok ((inputsOf t calls).filter fun e => inWindow start stop e.version)) :
    (∀ t, ((run (step name load streamId) ⟨cursors, fun _ => []⟩ calls).2.received t).map Prod.fst =
      inputsOf t calls) ↔
        ∀ t u, inputsOf t calls ≠ [] → inputsOf u calls ≠ [] → t = u := by
  have hstart : versionsAt cursors (name, streamId.key) = cursorAt 0 := versionsAt_of_new hnew
  have hrange : ∀ t, LoadsInRange (load t) streamId := fun t start stop =>
    ⟨_, hload t start stop, fun e he => (List.mem_filter.1 he).2⟩
  cases calls with
  | nil => simp [inputsOf]
  | cons first rest =>
    obtain ⟨t, event⟩ := first
    have hown : inputsOf t ((t, event) :: rest) ≠ [] :=
      List.ne_nil_of_mem (mem_inputsOf.2 List.mem_cons_self)
    constructor
    · intro hreceived
      have hcount : CountsFrom 1 (event :: inputsOf t rest) := by
        simpa [inputsOf] using hstreams t
      have hversions : ∀ i ∈ rest, ∃ v, i.2.version = some v ∧ 1 ≤ v := by
        intro i hi
        obtain ⟨n, -, hn⟩ := (hstreams i.1).exists_of_mem
          (mem_inputsOf.2 (List.mem_cons_of_mem _ hi))
        exact ⟨1 + n, hn, by omega⟩
      have hpast := run_pastFirst (t := t) hrange hstart hcount.1 hversions
      have hall : ∀ u, inputsOf u ((t, event) :: rest) ≠ [] → u = t := by
        intro u hu
        by_contra hne
        obtain ⟨e, events, hevents⟩ := List.exists_cons_of_ne_nil hu
        have hone := hstreams u
        rw [hevents] at hone
        have hmem : e ∈ inputsOf u ((t, event) :: rest) := hevents ▸ List.mem_cons_self
        rw [← hreceived u] at hmem
        obtain ⟨r, hr, rfl⟩ := List.mem_map.1 hmem
        exact hpast.2 u hne r hr hone.1
      intro u v hu hv
      rw [hall u hu, hall v hv]
    · intro hsingle u
      have hcalls : ∀ c ∈ (t, event) :: rest, c.1 = t := fun c hc =>
        hsingle c.1 t (List.ne_nil_of_mem (mem_inputsOf.2 hc)) hown
      have hcount := hstreams t
      rw [inputsOf_of_forall hcalls] at hcount
      rw [received_alone hcalls le_rfl hcount hstart]
      by_cases hu : u = t
      · rw [if_pos hu, hu, inputsOf_of_forall hcalls]
        simp
      · rw [if_neg hu]
        by_contra hne
        exact hu (hsingle u t (Ne.symm hne) hown)

end Tenants

section Example
open EventSourcery.Tenants (order)

/-- Stores that hold the events which are projected. -/
def loadOf (calls : List (TenantId × WrappedEvent Unit)) (t : TenantId) (_ : StreamId)
    (start stop : Option ℤ) : Except Error (List (WrappedEvent Unit)) :=
  .ok ((inputsOf t calls).filter fun e => inWindow start stop e.version)

theorem received_own_iff_one :
    let calls := [("a", eventOf 1), ("a", eventOf 2)]
    (∀ t, ((run (step "balances" (loadOf calls) order) ⟨[], fun _ => []⟩ calls).2.received t).map
        Prod.fst = inputsOf t calls) ↔
      ∀ t u, inputsOf t calls ≠ [] → inputsOf u calls ≠ [] → t = u := by
  refine received_own_iff (by simp) (fun t => ?_) fun _ _ _ => rfl
  by_cases ht : "a" = t
  · simp [inputsOf, ht, CountsFrom, eventOf, WrappedEvent.wrap]
  · simp [inputsOf, ht, CountsFrom]

/-- The only event of tenant "b" is passed over, because tenant "a" has one too. -/
theorem received_own_shared :
    let calls := [("a", eventOf 1), ("b", eventOf 1)]
    let final := (run (step "balances" (loadOf calls) order) ⟨[], fun _ => []⟩ calls).2
    (∀ t, CountsFrom 1 (inputsOf t calls)) ∧ inputsOf "b" calls = [eventOf 1] ∧
      final.received "b" = [] := by
  refine ⟨fun t => ?_, rfl, rfl⟩
  by_cases ha : "a" = t
  · subst ha
    exact ⟨rfl, trivial⟩
  · by_cases hb : "b" = t
    · subst hb
      exact ⟨rfl, trivial⟩
    · simp [inputsOf, ha, hb, CountsFrom]

end Example

end EventSourcery.ProjectorTenants
