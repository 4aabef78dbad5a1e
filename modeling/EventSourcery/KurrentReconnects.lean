import EventSourcery.KurrentSubscriptions

/-!
# Reconnections of the KurrentDB subscriptions

A subscription ends when its deadline has passed. The iterator then yields what it has and
subscribes again, behind the last event that it was given. Events arrive all the time, and the
deadline may pass at any point between them.
-/
namespace EventSourcery.Kurrent.KurrentReconnects
open Runs

/-- The events of the server, and an iterator over a subscription to them. -/
structure State where
  entries : List RecordedEvent := []
  iteration : Iteration

inductive Action where
  | arrive (entry : RecordedEvent)
  | next
  | deadline
  deriving DecidableEq

/-- What a subscription that begins at a position gives until its deadline. -/
def behind (commitPosition : Position) (entries : List RecordedEvent) : List RecordedEvent :=
  entries.filter fun entry => commitPosition < entry.position

/-- A step of `_iterator`; it ends when an entry cannot be read. -/
def step (s : State) : Action → Option (List RecordedRaw) × State
  | .arrive entry => (none, { s with entries := s.entries ++ [entry] })
  | .next =>
      if s.iteration.finished then (none, s)
      else match (behind s.iteration.subscription s.entries).head? with
        | none => (none, s)
        | some entry =>
            let r := s.iteration.receive entry
            (r.1, { s with iteration := r.2 })
  | .deadline =>
      if s.iteration.finished then (none, s)
      else
        let r := s.iteration.deadline
        (r.1, { s with iteration := r.2 })

/-- `subscribe_to_all` -/
def subscribeToAll (startFrom : Position) (batchSize : ℕ) (entries : List RecordedEvent) : State :=
  { entries, iteration := { size := batchSize, builder := startFrom } }

/-- The commit positions are strictly increasing. -/
def Increasing (entries : List RecordedEvent) : Prop :=
  entries.Pairwise fun x y => x.position < y.position

instance : DecidablePred Increasing := fun entries =>
  inferInstanceAs (Decidable (entries.Pairwise fun x y => x.position < y.position))

/-- What was yielded and is in the batch are the records of the events behind the start, up to
those that are given next, whether the subscription goes on or is made again. -/
structure Follows (startFrom : Position) (batchSize : ℕ) (yielded : List RecordedRaw) (s : State) :
    Prop where
  records : ∃ done, behind startFrom s.entries =
      done ++ behind s.iteration.subscription s.entries ∧
    List.Forall₂ (fun entry record => rawRecord entry = .ok record) done
      (yielded ++ s.iteration.batch)
  builder : s.iteration.builder = s.iteration.subscription
  reached : s.iteration.subscription = startFrom ∨
    startFrom < s.iteration.subscription ∧
      ∃ entry ∈ s.entries, entry.position = s.iteration.subscription
  size : s.iteration.size = batchSize
  short : s.iteration.batch.length < batchSize

section Steps
variable {startFrom : Position} {batchSize : ℕ} {yielded : List RecordedRaw} {s : State}
  {entry : RecordedEvent}

theorem follows_subscribeToAll (hsize : 1 ≤ batchSize) (entries : List RecordedEvent) :
    Follows startFrom batchSize [] (subscribeToAll startFrom batchSize entries) :=
  ⟨⟨[], rfl, .nil⟩, rfl, .inl rfl, rfl, hsize⟩

theorem Follows.arrive (h : Follows startFrom batchSize yielded s)
    (hincreasing : Increasing (s.entries ++ [entry])) :
    Follows startFrom batchSize yielded { s with entries := s.entries ++ [entry] } := by
  obtain ⟨done, hdone, hrecords⟩ := h.records
  have hlater : startFrom < entry.position ↔ s.iteration.subscription < entry.position := by
    rcases h.reached with hstart | ⟨hlt, last, hlast, hposition⟩
    · rw [hstart]
    · have hbehind := (List.pairwise_append.1 hincreasing).2.2 last hlast entry
        (List.mem_singleton_self entry)
      rw [hposition] at hbehind
      exact ⟨fun _ => hbehind, hlt.trans⟩
  refine ⟨⟨done, ?_, hrecords⟩, h.builder, ?_, h.size, h.short⟩
  · have hsame : behind startFrom [entry] = behind s.iteration.subscription [entry] := by
      simp only [behind, List.filter_singleton, hlater]
    change behind startFrom (s.entries ++ [entry]) = done ++ behind _ (s.entries ++ [entry])
    rw [behind, behind, List.filter_append, List.filter_append, ← List.append_assoc]
    exact congrArg₂ _ hdone hsame
  · refine h.reached.imp_right fun ⟨hlt, last, hlast, hposition⟩ => ⟨hlt, last, ?_, hposition⟩
    exact List.mem_append_left _ hlast

/-- What is given behind the next entry. -/
theorem behind_next (hincreasing : Increasing s.entries) {position : Position}
    (hhead : (behind position s.entries).head? = some entry) :
    behind position s.entries = entry :: behind entry.position s.entries := by
  obtain ⟨rest, hrest⟩ := List.head?_eq_some_iff.1 hhead
  rw [hrest]
  refine congrArg _ (Eq.symm ?_)
  simpa [behind] using Paging.filter_after_head RecordedEvent.position (fun _ => true) hincreasing
    (by simpa [behind] using hrest)

theorem Follows.next (h : Follows startFrom batchSize yielded s)
    (hincreasing : Increasing s.entries)
    (hhead : (behind s.iteration.subscription s.entries).head? = some entry) :
    let r := s.iteration.receive entry
    Follows startFrom batchSize (yielded ++ r.1.getD []) { s with iteration := r.2 } ∧
      ∀ batch ∈ r.1, batch.length = batchSize := by
  obtain ⟨done, hdone, hrecords⟩ := h.records
  have hbehind := behind_next hincreasing hhead
  have hmem : entry ∈ behind s.iteration.subscription s.entries := List.mem_of_head? hhead
  obtain ⟨hentry, hlt⟩ := List.mem_filter.1 hmem
  have hstart : startFrom < entry.position := by
    rcases h.reached with hreached | ⟨hreached, -⟩
    · exact hreached ▸ of_decide_eq_true hlt
    · exact hreached.trans (of_decide_eq_true hlt)
  unfold Iteration.receive
  cases hrecord : rawRecord entry with
  | error e =>
    refine ⟨⟨⟨done, hdone, ?_⟩, h.builder, h.reached, h.size, h.short⟩,
      fun _ hnone => by cases hnone⟩
    rwa [Option.getD_none, List.append_nil]
  | ok record =>
    have hmore : List.Forall₂ (fun entry record => rawRecord entry = .ok record)
        (done ++ [entry]) (yielded ++ (s.iteration.batch ++ [record])) := by
      rw [← List.append_assoc]
      exact List.rel_append hrecords (.cons hrecord .nil)
    have hrest : behind startFrom s.entries =
        done ++ [entry] ++ behind entry.position s.entries := by
      rw [hdone, hbehind, List.append_assoc]
      rfl
    have hbuilder := rawRecord_position hrecord
    have hreached : entry.position = startFrom ∨
        startFrom < entry.position ∧ ∃ e ∈ s.entries, e.position = entry.position :=
      .inr ⟨hstart, entry, hentry, rfl⟩
    dsimp only
    split
    · rename_i hfull
      refine ⟨⟨⟨done ++ [entry], hrest, ?_⟩, hbuilder, hreached, h.size, ?_⟩,
        fun batch hbatch => ?_⟩
      · rwa [Option.getD_some, List.append_nil]
      · exact Nat.zero_lt_of_lt h.short
      · cases hbatch
        exact hfull.trans h.size
    · rename_i hnotfull
      refine ⟨⟨⟨done ++ [entry], hrest, ?_⟩, hbuilder, hreached, h.size, ?_⟩,
        fun _ hnone => by cases hnone⟩
      · rwa [Option.getD_none, List.append_nil]
      · have hshort := h.short
        rw [h.size, List.length_append, List.length_singleton] at hnotfull
        change (s.iteration.batch ++ [record]).length < batchSize
        rw [List.length_append, List.length_singleton]
        omega

theorem Follows.deadline (h : Follows startFrom batchSize yielded s) :
    let r := s.iteration.deadline
    Follows startFrom batchSize (yielded ++ r.1.getD []) { s with iteration := r.2 } ∧
      ∀ batch ∈ r.1, batch.length < batchSize := by
  obtain ⟨done, hdone, hrecords⟩ := h.records
  refine ⟨⟨⟨done, ?_, ?_⟩, rfl, ?_, h.size, Nat.zero_lt_of_lt h.short⟩, fun batch hbatch => ?_⟩
  · change _ = done ++ behind s.iteration.builder s.entries
    rw [h.builder, hdone]
  · simpa [Iteration.deadline] using hrecords
  · change s.iteration.builder = _ ∨
      _ < s.iteration.builder ∧ ∃ e ∈ s.entries, _ = s.iteration.builder
    rw [h.builder]
    exact h.reached
  · cases hbatch
    exact h.short

theorem entries_step (s : State) (a : Action) : s.entries <+: (step s a).2.entries := by
  cases a with
  | arrive entry => exact List.prefix_append _ _
  | next =>
    unfold KurrentReconnects.step
    dsimp only
    split
    · exact List.prefix_rfl
    · split <;> exact List.prefix_rfl
  | deadline =>
    unfold KurrentReconnects.step
    dsimp only
    split <;> exact List.prefix_rfl

/-- What one step yields: a full batch, or a shorter one when the deadline has passed. -/
theorem Follows.step (h : Follows startFrom batchSize yielded s) {a : Action}
    (hincreasing : Increasing (step s a).2.entries) :
    Follows startFrom batchSize (yielded ++ (step s a).1.getD []) (step s a).2 ∧
      ∀ batch ∈ (step s a).1, batch.length ≤ batchSize ∧
        (batch.length < batchSize → a = .deadline) := by
  have hsame : Follows startFrom batchSize (yielded ++ []) s := by rwa [List.append_nil]
  have hentries : Increasing s.entries := hincreasing.sublist (entries_step s a).sublist
  cases a with
  | arrive entry =>
    refine ⟨?_, fun _ hnone => by cases hnone⟩
    rw [KurrentReconnects.step, Option.getD_none, List.append_nil]
    exact h.arrive hincreasing
  | next =>
    unfold KurrentReconnects.step
    dsimp only
    split
    · exact ⟨hsame, fun _ hnone => by cases hnone⟩
    · split
      · exact ⟨hsame, fun _ hnone => by cases hnone⟩
      · rename_i entry hhead
        obtain ⟨hfollows, hbatches⟩ := h.next hentries hhead
        refine ⟨hfollows, fun batch hbatch => ⟨(hbatches batch hbatch).le, fun hlt => ?_⟩⟩
        exact absurd (hbatches batch hbatch) hlt.ne
  | deadline =>
    unfold KurrentReconnects.step
    dsimp only
    split
    · exact ⟨hsame, fun _ hnone => by cases hnone⟩
    · obtain ⟨hfollows, hbatches⟩ := h.deadline
      exact ⟨hfollows, fun batch hbatch => ⟨(hbatches batch hbatch).le, fun _ => rfl⟩⟩

/-- Where nothing is left to be given and the batch is empty, all events behind the start have
been yielded. -/
theorem Follows.complete (h : Follows startFrom batchSize yielded s)
    (hbehind : behind s.iteration.subscription s.entries = []) (hbatch : s.iteration.batch = []) :
    List.Forall₂ (fun entry record => rawRecord entry = .ok record)
      (behind startFrom s.entries) yielded := by
  obtain ⟨done, hdone, hrecords⟩ := h.records
  rw [hbehind, List.append_nil] at hdone
  rwa [hdone, ← List.append_nil yielded, ← hbatch]

end Steps

section Runs
variable {startFrom : Position} {batchSize : ℕ}

theorem entries_run (s : State) (actions : List Action) :
    s.entries <+: (run step s actions).2.entries := by
  induction actions generalizing s with
  | nil => exact List.prefix_rfl
  | cons a actions ih => exact (entries_step s a).trans (ih _)

theorem run_follows {yielded : List RecordedRaw} {s : State}
    (h : Follows startFrom batchSize yielded s) (actions : List Action)
    (hincreasing : Increasing (run step s actions).2.entries) :
    let r := run step s actions
    Follows startFrom batchSize (yielded ++ r.1.flatMap (·.getD [])) r.2 ∧
      ∀ a batch, (a, some batch) ∈ actions.zip r.1 → batch.length ≤ batchSize ∧
        (batch.length < batchSize → a = .deadline) := by
  induction actions generalizing s yielded with
  | nil => exact ⟨by simpa using h, fun _ _ hnone => by cases hnone⟩
  | cons a actions ih =>
    obtain ⟨hfirst, hbatches⟩ :=
      h.step (hincreasing.sublist (entries_run (step s a).2 actions).sublist)
    obtain ⟨hrest, hlater⟩ := ih hfirst hincreasing
    refine ⟨by simpa using hrest, fun b batch hmem => ?_⟩
    rcases List.mem_cons.1 hmem with heq | hmem
    · obtain ⟨rfl, heq⟩ := Prod.mk.inj heq
      exact hbatches batch heq.symm
    · exact hlater b batch hmem

/-- What the iterator has yielded are the records of the first events behind its start, in their
order, wherever the deadline passes; a batch has at most its size, and a shorter one is yielded
only when the deadline has passed. -/
theorem yields_initial_segment (hsize : 1 ≤ batchSize) (entries : List RecordedEvent)
    (actions : List Action)
    (hincreasing : Increasing
      (run step (subscribeToAll startFrom batchSize entries) actions).2.entries) :
    let r := run step (subscribeToAll startFrom batchSize entries) actions
    (∃ done, done <+: behind startFrom r.2.entries ∧
      List.Forall₂ (fun entry record => rawRecord entry = .ok record) done
        (r.1.flatMap (·.getD []))) ∧
    ∀ a batch, (a, some batch) ∈ actions.zip r.1 → batch.length ≤ batchSize ∧
      (batch.length < batchSize → a = .deadline) := by
  obtain ⟨hfollows, hbatches⟩ := run_follows (follows_subscribeToAll hsize entries) actions
    hincreasing
  refine ⟨?_, hbatches⟩
  obtain ⟨done, hdone, hrecords⟩ := hfollows.records
  exact ⟨_, (List.take_prefix _ done).trans (hdone ▸ List.prefix_append _ _),
    List.forall₂_take_append done _ _ hrecords⟩

end Runs

section Example
open KurrentServer Tenants

/-- The entries of three orders. -/
def orders : List RecordedEvent :=
  (run (callStep (stores fun _ => orderSerde)) {}
    [orderPlaced 1, orderPlaced 2, orderPlaced 3]).2.entries

/-- The deadline passes after the first of them. -/
def orderActions : List Action := [.next, .deadline, .next, .next]

theorem yields_initial_segment_orders :
    (run step (subscribeToAll 0 2 orders) orderActions).1.map (Option.map List.length) =
        [none, some 1, none, some 2] ∧
      ∃ done, done <+: behind 0 (run step (subscribeToAll 0 2 orders) orderActions).2.entries ∧
        List.Forall₂ (fun entry record => rawRecord entry = .ok record) done
          ((run step (subscribeToAll 0 2 orders) orderActions).1.flatMap (·.getD [])) := by
  have hincreasing : Increasing
      (run step (subscribeToAll 0 2 orders) orderActions).2.entries := by decide +kernel
  exact ⟨by decide +kernel,
    (yields_initial_segment (by decide) orders orderActions hincreasing).1⟩

end Example

end EventSourcery.Kurrent.KurrentReconnects
