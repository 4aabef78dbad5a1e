import EventSourcery.EventRegistration

/-!
# Registrations that fail

A type whose hints cannot be resolved or lead on without an end, or which has no model fields,
raises when it is added, in `add` or in a lookup of any other type or name. By then it is in both
maps, so it is never collected again: a later `add` takes it for a duplicate, and a later lookup for
registered.
-/
namespace EventSourcery.EventRegistration
open Runs

/-- The call has raised when it collected the fields of the type. -/
def Failed {T A : Type} (t : T) (out : Except (RegistryError T) A × Registry T) : Prop :=
  (∃ e, out.1 = .error (.uncollected t e)) ∨ out.1 = .error (.noModelFields t)

/-- Every type in the maps has its fields, and the failing type can be added once what it lacks
is there. -/
structure Intact {T : Type} [DecidableEq T] (classes : Classes T) (failing : T) (r : Registry T) :
    Prop where
  encrypted : ∀ t n, r.typesToNames t = some n → ∃ fields, r.encryptedFields t = some fields
  subject : ∀ t n modelFields field, r.typesToNames t = some n →
    classes.modelFields t = some modelFields → getDataSubjectFiled modelFields = some field →
      ∃ found, r.subjectFields t = some found
  later : ∀ (later : Classes T) name fields modelFields, classes.eventName failing = some name →
    later.eventName failing = some name →
      later.getEncryptedFields later.recursionLimit failing = .ok fields →
        later.modelFields failing = some modelFields → (add later failing r).1 = .ok ()

/-- Only types in the maps have encrypted fields. -/
def Tidy {T : Type} (r : Registry T) : Prop :=
  ∀ t, r.typesToNames t = none → r.encryptedFields t = none

/-- What holds of a call in every registry: the type that has failed is in the map, and without
encrypted fields if these have failed. -/
structure Leaves {T A : Type} (classes : Classes T) (r : Registry T)
    (out : Except (RegistryError T) A × Registry T) : Prop where
  tidy : Tidy r → Tidy out.2
  named : ∀ t, Failed t out → ∃ n, classes.eventName t = some n ∧ out.2.typesToNames t = some n
  bare : Tidy r → ∀ t e, out.1 = .error (.uncollected t e) → out.2.encryptedFields t = none

section Steps
variable {T : Type} {classes : Classes T} {r : Registry T}

theorem Leaves.of_not_failed {A : Type} {answer : Except (RegistryError T) A}
    (h : ∀ t, ¬ Failed t (answer, r)) : Leaves classes r (answer, r) :=
  ⟨id, fun t ht => (h t ht).elim, fun _ t e ht => (h t (.inl ⟨e, ht⟩)).elim⟩

theorem Leaves.andThen {A B : Type} {first : Except (RegistryError T) A × Registry T}
    {next : A → Registry T → Except (RegistryError T) B × Registry T}
    (h : Leaves classes r first) (hnext : ∀ a r', Leaves classes r' (next a r')) :
    Leaves classes r (andThen first next) := by
  obtain ⟨answer, r'⟩ := first
  cases answer with
  | error e =>
    refine ⟨h.tidy, fun t ht => h.named t ?_, fun htidy t e' ht => h.bare htidy t e' ?_⟩
    · rcases ht with ⟨e', ht⟩ | ht
      · cases ht
        exact .inl ⟨e', rfl⟩
      · cases ht
        exact .inr rfl
    · cases ht
      rfl
  | ok a =>
    have hgoes := hnext a r'
    exact ⟨fun htidy => hgoes.tidy (h.tidy htidy), hgoes.named,
      fun htidy => hgoes.bare (h.tidy htidy)⟩

variable [DecidableEq T]

theorem Tidy.setName {event : T} {name : String} (h : Tidy r) : Tidy (r.setName event name) := by
  intro t ht
  by_cases hevent : t = event
  · subst hevent
    simp [Registry.setName] at ht
  · exact h t ((Function.update_of_ne hevent _ _).symm.trans ht)

/-- Fields are collected for a type that is in the maps. -/
theorem Tidy.setEncryptedFields {event : T} {name : String} {fields : List (String × Encrypted)}
    (h : Tidy r) (hevent : r.typesToNames event = some name) :
    Tidy (r.setEncryptedFields event fields) := by
  intro t ht
  have hne : t ≠ event := by
    rintro rfl
    cases hevent.symm.trans ht
  exact (Function.update_of_ne hne _ _).trans (h t ht)

theorem setName_self (event : T) (name : String) :
    (r.setName event name).typesToNames event = some name := Function.update_self _ _ _

theorem leaves_add (classes : Classes T) (event : T) (r : Registry T) :
    Leaves classes r (add classes event r) := by
  have hadd := added classes event r
  generalize add classes event r = out at hadd ⊢
  cases hadd with
  | knownType name htype => exact .of_not_failed (by simp [Failed])
  | knownName name other htype hname hother => exact .of_not_failed (by simp [Failed])
  | unnamed htype hname => exact .of_not_failed (by simp [Failed])
  | uncollected name e htype hname hfree hfields =>
    refine ⟨Tidy.setName, fun t ht => ?_, fun htidy t e' ht => ?_⟩
    · have heq : event = t := by simpa [Failed] using ht
      exact heq ▸ ⟨name, hname, setName_self event name⟩
    · cases ht
      exact htidy event htype
  | fieldless name fields htype hname hfree hfields hmodel =>
    refine ⟨fun htidy => htidy.setName.setEncryptedFields (setName_self event name),
      fun t ht => ?_, fun _ t e ht => by cases ht⟩
    have heq : event = t := by simpa [Failed] using ht
    exact heq ▸ ⟨name, hname, setName_self event name⟩
  | added name fields modelFields htype hname hfree hfields hmodel =>
    refine ⟨fun htidy => ?_, fun t ht => by simp [Failed] at ht, fun _ t e ht => by cases ht⟩
    have hcollected : Tidy ((r.setName event name).setEncryptedFields event fields) :=
      htidy.setName.setEncryptedFields (setName_self event name)
    cases getDataSubjectFiled modelFields <;> exact hcollected

theorem lifts_leaves (classes : Classes T) :
    Lifts classes fun _ r out => Leaves classes r out where
  ok _ a r := .of_not_failed (by simp [Failed])
  unnamed r := .of_not_failed (by simp [Failed])
  missing _ r := .of_not_failed (by simp [Failed])
  add := leaves_add classes
  andThen _ _ _ _ _ h hnext := h.andThen hnext

/-- Every registry that calls make is tidy. -/
theorem tidy_run {classes₀ : Classes T} (calls : List (Classes T × Call T)) :
    Tidy (run step (create classes₀).2 calls).2 := by
  have hempty : Tidy ({} : Registry T) := fun _ _ => rfl
  have hcreated : Leaves classes₀ {} (create classes₀) :=
    (lifts_leaves classes₀).registerDefinedEvents classes₀.subclasses {}
  exact run_invariant (fun r i htidy => ((lifts_leaves i.1).step i.2 r).tidy htidy)
    (hcreated.tidy hempty) calls

/-- A type whose encrypted fields have failed is without encrypted fields and cannot be added,
whatever is called later. -/
theorem never_collected {t : T} {e : CollectError} {call : Call T} (htidy : Tidy r)
    (h : (step r (classes, call)).1 = .error (.uncollected t e))
    (calls : List (Classes T × Call T)) :
    let r' := (run step (step r (classes, call)).2 calls).2
    (∃ n, r'.typesToNames t = some n) ∧ r'.encryptedFields t = none ∧
      ∀ later, add later t r' = (.error .duplicatedEvent, r') := by
  intro r'
  have hleaves := (lifts_leaves classes).step call r
  have hkept := kept_run (step r (classes, call)).2 calls
  obtain ⟨n, -, hnamed⟩ := hleaves.named t (.inl ⟨e, h⟩)
  have hnamed' : r'.typesToNames t = some n := hkept.types t n hnamed
  refine ⟨⟨n, hnamed'⟩, (hkept.fields t n hnamed).trans (hleaves.bare htidy t e h), fun later => ?_⟩
  obtain ⟨hiff, hsame⟩ := add_duplicated_iff later t r'
  have hrefused := hiff.2 (.inl ⟨n, hnamed'⟩)
  exact Prod.ext hrefused (hsame hrefused)

/-- No failed call leaves the registry intact. -/
theorem failed_not_intact {t : T} {call : Call T} (h : Failed t (step r (classes, call))) :
    ¬ Intact classes t (step r (classes, call)).2 := by
  intro hintact
  obtain ⟨n, hname, hnamed⟩ := ((lifts_leaves classes).step call r).named t h
  -- later there is nothing to resolve
  let later : Classes T := { classes with
    typeHints := fun _ => some [], modelFields := fun _ => some [], recursionLimit := 1 }
  have hadded : (add later t (step r (classes, call)).2).1 = .ok () :=
    hintact.later later n [] [] hname hname rfl rfl
  have hrefused := (add_duplicated_iff later t (step r (classes, call)).2).1.2 (.inl ⟨n, hnamed⟩)
  rw [hadded] at hrefused
  cases hrefused

end Steps

section Examples

/-- `Paid` has an annotation that is not defined yet. -/
def forward : Classes String :=
  { appClasses (.cons "Paid" .nil (.cons "Shipped" .nil .nil)) with
    typeHints := fun event => if event = "Paid" then none else some [("who", .other)] }

theorem failed_not_intact_add :
    Failed "Paid" (step (create (appClasses .nil)).2 (forward, .add "Paid")) ∧
      ¬ Intact forward "Paid" (step (create (appClasses .nil)).2 (forward, .add "Paid")).2 :=
  ⟨.inl ⟨_, rfl⟩, failed_not_intact (.inl ⟨_, rfl⟩)⟩

/-- The name of `Shipped` is asked for, and `Paid` is left without its fields. -/
theorem failed_lookup_half_registers :
    Failed "Paid" (step (create (appClasses .nil)).2 (forward, .nameForType "Shipped")) ∧
      ¬ Intact forward "Paid"
        (step (create (appClasses .nil)).2 (forward, .nameForType "Shipped")).2 := by
  refine ⟨.inl ⟨_, rfl⟩, fun hintact => ?_⟩
  obtain ⟨fields, hfields⟩ := hintact.encrypted "Paid" "app.Paid" rfl
  have hbare : (step (create (appClasses .nil)).2
    (forward, .nameForType "Shipped")).2.encryptedFields "Paid" = none := rfl
  rw [hbare] at hfields
  cases hfields

end Examples

end EventSourcery.EventRegistration
