import Mathlib.Data.List.Basic

/-!
# Runs of a step function

A machine reads one input at a time, answers it and moves to a new state. This
module has what every development about such a machine needs: the run over a
list of inputs, the invariant rule, the rule for properties of a whole history,
and the two-run rule for machines whose inputs carry the domain they come from.
A system that takes an action only where it is enabled has schedules instead.

In the two-run rule a domain sees the machine through a view. If its own inputs
act on the view alone, and the inputs of the other domains leave the view alone,
then two runs with the same inputs of that domain answer them alike.
-/
namespace EventSourcery.Runs

variable {σ ι ο : Type*}

def run (step : σ → ι → ο × σ) : σ → List ι → List ο × σ
  | s, [] => ([], s)
  | s, i :: is =>
      let first := step s i
      let rest := run step first.2 is
      (first.1 :: rest.1, rest.2)

@[simp] theorem run_nil (step : σ → ι → ο × σ) (s : σ) : run step s [] = ([], s) := rfl

@[simp] theorem run_cons (step : σ → ι → ο × σ) (s : σ) (i : ι) (is : List ι) :
    run step s (i :: is) =
      ((step s i).1 :: (run step (step s i).2 is).1, (run step (step s i).2 is).2) := rfl

theorem run_append (step : σ → ι → ο × σ) (s : σ) (is js : List ι) :
    run step s (is ++ js) =
      ((run step s is).1 ++ (run step (run step s is).2 js).1,
        (run step (run step s is).2 js).2) := by
  induction is generalizing s with
  | nil => rfl
  | cons i is ih => simp [ih]

@[simp] theorem run_length (step : σ → ι → ο × σ) (s : σ) (is : List ι) :
    (run step s is).1.length = is.length := by
  induction is generalizing s with
  | nil => rfl
  | cons i is ih => simp [ih]

theorem run_map {κ : Type*} (step : σ → ι → ο × σ) (f : κ → ι) (s : σ) (is : List κ) :
    run step s (is.map f) = run (fun s i => step s (f i)) s is := by
  induction is generalizing s with
  | nil => rfl
  | cons i is ih => simp [ih]

/-- Every step of the run is taken in a state that meets the condition. -/
def Meets (step : σ → ι → ο × σ) (ok : σ → ι → Prop) : σ → List ι → Prop
  | _, [] => True
  | s, i :: is => ok s i ∧ Meets step ok (step s i).2 is

instance decidableMeets (step : σ → ι → ο × σ) (ok : σ → ι → Prop) [∀ s i, Decidable (ok s i)] :
    (s : σ) → (is : List ι) → Decidable (Meets step ok s is)
  | _, [] => inferInstanceAs (Decidable True)
  | s, i :: is =>
    have := decidableMeets step ok (step s i).2 is
    inferInstanceAs (Decidable (_ ∧ _))

theorem meets_append {step : σ → ι → ο × σ} {ok : σ → ι → Prop} {s : σ} {is js : List ι} :
    Meets step ok s (is ++ js) ↔ Meets step ok s is ∧ Meets step ok (run step s is).2 js := by
  induction is generalizing s with
  | nil => simp [Meets]
  | cons i is ih => simp [Meets, ih, and_assoc]

theorem meets_and {step : σ → ι → ο × σ} {ok ok' : σ → ι → Prop} {s : σ} {is : List ι} :
    Meets step (fun s i => ok s i ∧ ok' s i) s is ↔ Meets step ok s is ∧ Meets step ok' s is := by
  induction is generalizing s with
  | nil => simp [Meets]
  | cons i is ih => simp [Meets, ih, and_assoc, and_left_comm]

theorem meets_of_forall {step : σ → ι → ο × σ} {ok : σ → ι → Prop} (h : ∀ s i, ok s i) (s : σ)
    (is : List ι) : Meets step ok s is := by
  induction is generalizing s with
  | nil => trivial
  | cons i is ih => exact ⟨h s i, ih _⟩

/-- A condition on the inputs alone. -/
theorem meets_of_mem {step : σ → ι → ο × σ} {ok : σ → ι → Prop} {s : σ} {is : List ι}
    (h : ∀ i ∈ is, ∀ s, ok s i) : Meets step ok s is := by
  induction is generalizing s with
  | nil => trivial
  | cons i is ih => exact ⟨h i (by simp) s, ih fun j hj => h j (by simp [hj])⟩

/-- A condition that follows from an invariant is met all along. -/
theorem meets_of_invariant {step : σ → ι → ο × σ} {ok : σ → ι → Prop} {Inv : σ → Prop}
    {good : ι → Prop} (hstep : ∀ s i, good i → Inv s → ok s i ∧ Inv (step s i).2) {s : σ}
    {is : List ι} (h0 : Inv s) (hgood : ∀ i ∈ is, good i) : Meets step ok s is := by
  induction is generalizing s with
  | nil => trivial
  | cons i is ih =>
    obtain ⟨hok, hinv⟩ := hstep s i (hgood i (by simp)) h0
    exact ⟨hok, ih hinv fun j hj => hgood j (by simp [hj])⟩

/-- Conditions that come to the same under an invariant are met by the same runs, if the
invariant is kept where they are met. -/
theorem meets_congr {step : σ → ι → ο × σ} {ok ok' : σ → ι → Prop} {Inv : σ → Prop}
    (hiff : ∀ s i, Inv s → (ok s i ↔ ok' s i)) (hkeep : ∀ s i, Inv s → ok s i → Inv (step s i).2)
    {s : σ} (h0 : Inv s) (is : List ι) : Meets step ok s is ↔ Meets step ok' s is := by
  induction is generalizing s with
  | nil => exact Iff.rfl
  | cons i is ih =>
    rw [Meets, Meets, hiff s i h0]
    apply and_congr_right
    intro hok
    exact ih (hkeep s i h0 ((hiff s i h0).2 hok))

/-- What every step keeps, a run keeps. -/
theorem run_invariant {step : σ → ι → ο × σ} {Inv : σ → Prop}
    (hstep : ∀ s i, Inv s → Inv (step s i).2) {s : σ} (h0 : Inv s) (is : List ι) :
    Inv (run step s is).2 := by
  induction is generalizing s with
  | nil => exact h0
  | cons i is ih => exact ih (hstep s i h0)

/-- What every step of a kind of input keeps, a run over such inputs keeps. -/
theorem run_keeps {step : σ → ι → ο × σ} {Inv : σ → Prop} {good : ι → Prop}
    (hstep : ∀ s i, good i → Inv s → Inv (step s i).2) {s : σ} (h0 : Inv s) {is : List ι}
    (hgood : ∀ i ∈ is, good i) : Inv (run step s is).2 := by
  induction is generalizing s with
  | nil => exact h0
  | cons i is ih =>
    exact ih (hstep s i (hgood i (by simp)) h0) fun j hj => hgood j (by simp [hj])

/-- What every step that meets a condition answers, all steps of such a run answer. -/
theorem forall_answers {step : σ → ι → ο × σ} {ok : σ → ι → Prop} {Q : ο → Prop}
    (hstep : ∀ s i, ok s i → Q (step s i).1) {s : σ} {is : List ι} (hok : Meets step ok s is) :
    ∀ answer ∈ (run step s is).1, Q answer := by
  induction is generalizing s with
  | nil => exact fun _ h => nomatch h
  | cons i is ih => exact List.forall_mem_cons.2 ⟨hstep s i hok.1, ih hok.2⟩

/-- Induction over the history of a run: a relation between the inputs so far,
the answers so far and the state, true at the start and kept by every step. -/
theorem run_history {step : σ → ι → ο × σ} {ok : σ → ι → Prop}
    {P : List (ι × ο) → σ → Prop}
    (hstep : ∀ past s i, P past s → ok s i → P (past ++ [(i, (step s i).1)]) (step s i).2)
    {s : σ} (h0 : P [] s) (is : List ι) (hok : Meets step ok s is) :
    P (is.zip (run step s is).1) (run step s is).2 := by
  have general : ∀ (is : List ι) (s : σ) (past : List (ι × ο)), P past s → Meets step ok s is →
      P (past ++ is.zip (run step s is).1) (run step s is).2 := by
    intro is
    induction is with
    | nil => exact fun s past hp _ => by simpa using hp
    | cons i is ih =>
      intro s past hp hm
      simpa using ih _ _ (hstep past s i hp hm.1) hm.2
  simpa using general is s [] h0 hok

/-- A machine simulates another: related states stay related, with related answers. -/
theorem run_simulates {σ' ι' ο' : Type*} {step : σ → ι → ο × σ} {step' : σ' → ι' → ο' × σ'}
    {ok : σ → ι → Prop} {f : ι → ι'} {R : σ → σ' → Prop} {Q : ο → ο' → Prop}
    (hstep : ∀ s s' i, R s s' → ok s i →
      Q (step s i).1 (step' s' (f i)).1 ∧ R (step s i).2 (step' s' (f i)).2)
    {s : σ} {s' : σ'} (h0 : R s s') {is : List ι} (hok : Meets step ok s is) :
    List.Forall₂ Q (run step s is).1 (run step' s' (is.map f)).1 ∧
      R (run step s is).2 (run step' s' (is.map f)).2 := by
  induction is generalizing s s' with
  | nil => exact ⟨.nil, h0⟩
  | cons i is ih =>
    obtain ⟨hanswer, hstate⟩ := hstep s s' i h0 hok.1
    obtain ⟨hanswers, hfinal⟩ := ih hstate hok.2
    exact ⟨.cons hanswer hanswers, hfinal⟩

/-- What a run meets carries over to the runs that simulate it. -/
theorem meets_simulates {σ' ι' ο' : Type*} {step : σ → ι → ο × σ} {step' : σ' → ι' → ο' × σ'}
    {ok : σ → ι → Prop} {ok' : σ' → ι' → Prop} {f : ι → ι'} {R : σ → σ' → Prop}
    (hstep : ∀ s s' i, R s s' → ok s i → ok' s' (f i) ∧ R (step s i).2 (step' s' (f i)).2)
    {s : σ} {s' : σ'} (h0 : R s s') {is : List ι} (hok : Meets step ok s is) :
    Meets step' ok' s' (is.map f) := by
  induction is generalizing s s' with
  | nil => trivial
  | cons i is ih =>
    obtain ⟨hmeets, hstate⟩ := hstep s s' i h0 hok.1
    exact ⟨hmeets, ih hstate hok.2⟩

/-- A machine whose steps project to those of another has the other's runs. -/
theorem run_project {σ' : Type*} {step : σ → ι → ο × σ} {step' : σ' → ι → ο × σ'} (f : σ → σ')
    (h : ∀ s i, step' (f s) i = ((step s i).1, f (step s i).2)) (s : σ) (is : List ι) :
    run step' (f s) is = ((run step s is).1, f (run step s is).2) := by
  induction is generalizing s with
  | nil => rfl
  | cons i is ih => simp [h, ih]

/-- A run without the inputs that do not show in a view: on the view it answers the other
inputs alike, and ends alike. -/
theorem run_shown {ν : Type*} {step : σ → ι → ο × σ} {act : ν → ι → ο × ν} {ok : σ → ι → Prop}
    (view : σ → ν) (shown : ι → Bool)
    (hshown : ∀ s i, ok s i → shown i → act (view s) i = ((step s i).1, view (step s i).2))
    (hhidden : ∀ s i, ok s i → shown i = false → view (step s i).2 = view s) {s : σ} {is : List ι}
    (hok : Meets step ok s is) : run act (view s) (is.filter shown) =
      (((is.zip (run step s is).1).filter fun p => shown p.1).map Prod.snd,
        view (run step s is).2) := by
  induction is generalizing s with
  | nil => rfl
  | cons i is ih =>
    have hrest := ih hok.2
    cases hi : shown i with
    | true =>
      have hfirst := hshown s i hok.1 hi
      simp [hi, hfirst, hrest]
    | false =>
      rw [hhidden s i hok.1 hi] at hrest
      simp [hi, hrest]

section Domains
variable {δ ν : Type*} [DecidableEq δ]

/-- The inputs of one domain, in order. -/
def inputsOf (d : δ) (is : List (δ × ι)) : List ι :=
  (is.filter fun i => i.1 = d).map Prod.snd

@[simp] theorem inputsOf_own (d : δ) (is : List ι) : inputsOf d (is.map fun i => (d, i)) = is := by
  induction is with
  | nil => rfl
  | cons i is ih => simpa [inputsOf] using ih

theorem mem_inputsOf {d : δ} {is : List (δ × ι)} {i : ι} : i ∈ inputsOf d is ↔ (d, i) ∈ is := by
  simp [inputsOf]

/-- Inputs of one domain only. -/
theorem inputsOf_of_forall {d : δ} {is : List (δ × ι)} (h : ∀ i ∈ is, i.1 = d) :
    inputsOf d is = is.map Prod.snd := by
  rw [inputsOf, List.filter_eq_self.2 fun i hi => decide_eq_true (h i hi)]

/-- The answers to the inputs of one domain, in order. -/
def answersOf (d : δ) (is : List (δ × ι)) (os : List ο) : List ο :=
  ((is.zip os).filter fun p => p.1.1 = d).map Prod.snd

theorem answersOf_own (d : δ) {is : List ι} {os : List ο} (h : os.length = is.length) :
    answersOf d (is.map fun i => (d, i)) os = os := by
  induction is generalizing os with
  | nil =>
    rw [List.length_eq_zero_iff.1 h]
    rfl
  | cons i is ih =>
    cases os with
    | nil => simp at h
    | cons o os => simpa [answersOf] using ih (by simpa using h)

theorem inputsOf_map {κ : Type*} (g : ι → κ) (d : δ) (is : List (δ × ι)) :
    inputsOf d (is.map (Prod.map id g)) = (inputsOf d is).map g := by
  simp [inputsOf, List.filter_map, Function.comp_def]

theorem answersOf_map {κ : Type*} (g : ι → κ) (d : δ) (is : List (δ × ι)) (os : List ο) :
    answersOf d (is.map (Prod.map id g)) os = answersOf d is os := by
  induction is generalizing os with
  | nil => rfl
  | cons i is ih =>
    cases os with
    | nil => rfl
    | cons o os =>
      have hrest := ih os
      simp only [answersOf, List.map_cons, List.zip_cons_cons, List.filter_cons, Prod.map_fst,
        id_eq] at hrest ⊢
      split
      · rw [List.map_cons, List.map_cons, hrest]
      · exact hrest

/-- How the domain `d` sees a machine: a view on which its own inputs act as
`act`, and which the inputs of the other domains leave as it is. -/
structure Unwinding (step : σ → δ × ι → ο × σ) (ok : σ → δ × ι → Prop) (Inv : σ → Prop) (d : δ)
    (view : σ → ν) (act : ν → ι → ο × ν) : Prop where
  keep : ∀ s i, Inv s → ok s i → Inv (step s i).2
  answer : ∀ s i, Inv s → ok s (d, i) → (step s (d, i)).1 = (act (view s) i).1
  own : ∀ s i, Inv s → ok s (d, i) → view (step s (d, i)).2 = (act (view s) i).2
  other : ∀ s u i, u ≠ d → Inv s → ok s (u, i) → view (step s (u, i)).2 = view s

/-- The answers a domain gets are those of the view's own machine on its inputs. -/
theorem Unwinding.answers {step : σ → δ × ι → ο × σ} {ok : σ → δ × ι → Prop} {Inv : σ → Prop}
    {d : δ} {view : σ → ν} {act : ν → ι → ο × ν} (h : Unwinding step ok Inv d view act)
    {s : σ} {is : List (δ × ι)} (h0 : Inv s) (hok : Meets step ok s is) :
    answersOf d is (run step s is).1 = (run act (view s) (inputsOf d is)).1 := by
  induction is generalizing s with
  | nil => rfl
  | cons i is ih =>
    obtain ⟨u, i⟩ := i
    have hrest := ih (h.keep s _ h0 hok.1) hok.2
    by_cases hu : u = d
    · subst hu
      have ha := h.answer s i h0 hok.1
      rw [h.own s i h0 hok.1] at hrest
      simp only [answersOf, inputsOf, run_cons, List.zip_cons_cons, List.filter_cons,
        decide_true, if_true, List.map_cons] at hrest ⊢
      rw [ha, hrest]
    · rw [h.other s u i hu h0 hok.1] at hrest
      simpa [answersOf, inputsOf, hu] using hrest

/-- Two runs with the same inputs of a domain give it the same answers. -/
theorem Unwinding.two_runs {step : σ → δ × ι → ο × σ} {ok : σ → δ × ι → Prop} {Inv : σ → Prop}
    {d : δ} {view : σ → ν} {act : ν → ι → ο × ν} (h : Unwinding step ok Inv d view act)
    {s : σ} {is js : List (δ × ι)} (h0 : Inv s) (hi : Meets step ok s is) (hj : Meets step ok s js)
    (hsame : inputsOf d is = inputsOf d js) :
    answersOf d is (run step s is).1 = answersOf d js (run step s js).1 := by
  rw [h.answers h0 hi, h.answers h0 hj, hsame]

end Domains

section Schedules
variable {α : Type*} {step : σ → α → Option σ}

/-- The state after a schedule, each of whose actions is enabled in turn. -/
def exec (step : σ → α → Option σ) : σ → List α → Option σ
  | s, [] => some s
  | s, a :: schedule => (step s a).bind fun s' => exec step s' schedule

theorem exec_append (s : σ) (as bs : List α) :
    exec step s (as ++ bs) = (exec step s as).bind fun s' => exec step s' bs := by
  induction as generalizing s with
  | nil => rfl
  | cons a as ih => simp [exec, ih, Option.bind_assoc]

/-- A schedule stops after every prefix. -/
theorem exec_append_eq_some {s s'' : σ} {as bs : List α} (h : exec step s (as ++ bs) = some s'') :
    ∃ s', exec step s as = some s' ∧ exec step s' bs = some s'' := by
  rw [exec_append] at h
  exact Option.bind_eq_some_iff.1 h

theorem exec_cons_eq_some {s s'' : σ} {a : α} {as : List α}
    (h : exec step s (a :: as) = some s'') :
    ∃ s', step s a = some s' ∧ exec step s' as = some s'' := Option.bind_eq_some_iff.1 h

/-- What every action of a kind keeps, a schedule of such actions keeps. -/
theorem exec_invariant (Inv : σ → Prop) (good : α → Prop)
    (hstep : ∀ s a s', good a → Inv s → step s a = some s' → Inv s') {s s' : σ} {as : List α}
    (hgood : ∀ a ∈ as, good a) (h0 : Inv s) (h : exec step s as = some s') : Inv s' := by
  induction as generalizing s with
  | nil =>
    cases h
    exact h0
  | cons a as ih =>
    obtain ⟨s₁, hfirst, hrest⟩ := exec_cons_eq_some h
    exact ih (fun b hb => hgood b (by simp [hb])) (hstep s a s₁ (hgood a (by simp)) h0 hfirst) hrest

/-- Induction over the history of a schedule: a relation between the actions so far and the
state, true at the start and kept by every action. -/
theorem exec_history {P : List α → σ → Prop}
    (hstep : ∀ past s a s', P past s → step s a = some s' → P (past ++ [a]) s') {s s' : σ}
    (h0 : P [] s) {as : List α} (h : exec step s as = some s') : P as s' := by
  have general : ∀ (as : List α) (s : σ) (past : List α), P past s → exec step s as = some s' →
      P (past ++ as) s' := by
    intro as
    induction as with
    | nil =>
      intro s past hp h
      cases h
      simpa using hp
    | cons a as ih =>
      intro s past hp h
      obtain ⟨s₁, hfirst, hrest⟩ := exec_cons_eq_some h
      simpa using ih s₁ (past ++ [a]) (hstep past s a s₁ hp hfirst) hrest
  simpa using general as s [] h0 h

/-- Every action of the schedule that is enabled is taken in a state that meets the condition. -/
def MeetsAll (step : σ → α → Option σ) (ok : σ → α → Prop) : σ → List α → Prop
  | _, [] => True
  | s, a :: as => ok s a ∧ ∀ s' ∈ step s a, MeetsAll step ok s' as

/-- Where every action has its counterpart, a schedule has its counterpart. -/
theorem exec_simulates {σ' : Type*} {step' : σ' → α → Option σ'} {ok : σ' → α → Prop}
    {R : σ → σ' → Prop}
    (hstep : ∀ s s' a t, R s s' → ok s' a → step s a = some t → ∃ t', step' s' a = some t' ∧ R t t')
    {s t : σ} {s' : σ'} {as : List α} (h0 : R s s') (hok : MeetsAll step' ok s' as)
    (h : exec step s as = some t) : ∃ t', exec step' s' as = some t' ∧ R t t' := by
  induction as generalizing s s' with
  | nil =>
    cases h
    exact ⟨s', rfl, h0⟩
  | cons a as ih =>
    obtain ⟨s₁, hfirst, hrest⟩ := exec_cons_eq_some h
    obtain ⟨s₁', hfirst', h1⟩ := hstep s s' a s₁ h0 hok.1 hfirst
    obtain ⟨t', hrest', ht⟩ := ih h1 (hok.2 s₁' hfirst') hrest
    refine ⟨t', ?_, ht⟩
    rw [exec, hfirst', Option.bind_some, hrest']

end Schedules

end EventSourcery.Runs
